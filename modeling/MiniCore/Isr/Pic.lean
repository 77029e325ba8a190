import Mathlib.Data.List.Basic

/-!
# The PIC masks: the last `irq_enable` or `irq_disable` of a line wins

`irq_enable(irq)` and `irq_disable(irq)` read the interrupt mask register
of the master PIC (port `0x21`, IRQs 0 to 7) or of the slave (port `0xA1`,
IRQs 8 to 15, with `irq -= 8`), clear or set the bit `1 << irq` in it,
computed on `int`, and write the result back as a `uint8_t`. The two
registers are the state (`Pic`); `Pic.masked` reads the mask of one of the
16 lines.

There is no range check. From `irq = 16` on, the bit lies past the byte
and the truncation drops it, so the call writes back what it read. From
`irq = 39` on, `1 << irq` shifts the one out of the range of `int`, which
is undefined; the model gives `none`.

**The law** (`irq_mask_last_call_wins`): after any calls of `irq_enable`
and `irq_disable` below 39, each of the 16 lines is masked exactly when
the last call naming it was `irq_disable`, and is as it was when no call
named it.

## What this does NOT cover

What the PICs do with the masks, the `sti` of `cmd_enableints`, and the
initialisation words of the PICs, which `isr.c` does not send.
-/

namespace MiniCore.Isr

/-! ## The source -/

/-- The interrupt mask registers of the two 8259 PICs, which `inb` and
`outb` on the data ports `0x21` and `0xA1` read and write. -/
structure Pic where
  master : BitVec 8
  slave : BitVec 8
  deriving DecidableEq

/-- `inb(port)` on a PIC data port. -/
def Pic.inb (pic : Pic) (port : BitVec 16) : BitVec 8 := if port = 0x21 then pic.master else pic.slave

/-- `outb(port, value)` on a PIC data port. -/
def Pic.outb (pic : Pic) (port : BitVec 16) (value : BitVec 8) : Pic :=
  if port = 0x21 then { pic with master := value } else { pic with slave := value }

/-- The port and the bit that `irq_enable` and `irq_disable` choose. -/
def irqPort (irq : BitVec 8) : BitVec 16 × BitVec 8 := if irq < 8 then (0x21, irq) else (0xA1, irq - 8)

/-- `1 << irq` on an `int`: undefined once the one leaves the value range. -/
def shiftOne (irq : BitVec 8) : Option (BitVec 32) :=
  if irq.toNat < 31 then some ((1 : BitVec 32) <<< irq.toNat) else none

/-- The body `irq_enable` and `irq_disable` share, with `op` the update of
the register, read as an `int`, by the bit. -/
def irqMask (op : BitVec 32 → BitVec 32 → BitVec 32) (pic : Pic) (irq : BitVec 8) : Option Pic :=
  let p := irqPort irq
  (shiftOne p.2).map fun bit => pic.outb p.1 ((op ((pic.inb p.1).setWidth 32) bit).setWidth 8)

/-- `irq_enable`: `inb(port) & ~(1 << irq)`. -/
def irqEnable : Pic → BitVec 8 → Option Pic := irqMask fun value bit => value &&& ~~~bit

/-- `irq_disable`: `inb(port) | (1 << irq)`. -/
def irqDisable : Pic → BitVec 8 → Option Pic := irqMask fun value bit => value ||| bit

/-- A call of `irq_enable` or `irq_disable`. -/
inductive IrqCall
  | enable (irq : BitVec 8)
  | disable (irq : BitVec 8)

/-- The line a call names. -/
def IrqCall.irq : IrqCall → BitVec 8
  | .enable irq | .disable irq => irq

/-- The mask a call leaves on its line. -/
def IrqCall.masks : IrqCall → Bool
  | .enable _ => false
  | .disable _ => true

def IrqCall.run (pic : Pic) : IrqCall → Option Pic
  | .enable irq => irqEnable pic irq
  | .disable irq => irqDisable pic irq

/-- The registers after a sequence of calls, `none` once one is undefined. -/
def runIrqCalls (pic : Pic) : List IrqCall → Option Pic
  | [] => some pic
  | c :: cs => (c.run pic).bind fun pic => runIrqCalls pic cs

/-! ## The lines -/

/-- Whether line `i` of the 16 is masked. -/
def Pic.masked (pic : Pic) (i : Nat) : Bool := if i < 8 then pic.master.getLsbD i else pic.slave.getLsbD (i - 8)

/-- Clearing the bit `k` of a byte read as an `int`, and truncating back. -/
theorem getLsbD_clear (v : BitVec 8) {k j : Nat} (hj : j < 8) :
    ((v.setWidth 32 &&& ~~~((1 : BitVec 32) <<< k)).setWidth 8).getLsbD j = (v.getLsbD j && !decide (j = k)) := by
  simp only [BitVec.getLsbD_setWidth, BitVec.getLsbD_and, BitVec.getLsbD_not, BitVec.getLsbD_shiftLeft,
    BitVec.getLsbD_one]
  by_cases h : j = k
  · subst h
    simp [hj]
  · simp [hj, show j < 32 by omega, h]
    exact fun _ => by omega

/-- Setting the bit `k` of a byte read as an `int`, and truncating back. -/
theorem getLsbD_set (v : BitVec 8) {k j : Nat} (hj : j < 8) :
    ((v.setWidth 32 ||| ((1 : BitVec 32) <<< k)).setWidth 8).getLsbD j = (v.getLsbD j || decide (j = k)) := by
  simp only [BitVec.getLsbD_setWidth, BitVec.getLsbD_or, BitVec.getLsbD_shiftLeft, BitVec.getLsbD_one]
  have hj32 : j < 32 := by omega
  by_cases h : j = k
  · subst h
    simp [hj, hj32]
  · simp [hj, hj32, h]
    omega

/-- `op` updates bit `k` of a byte read as an `int` to `b`, and keeps the
byte's other bits. -/
def SetsTo (op : BitVec 32 → BitVec 32 → BitVec 32) (b : Bool) : Prop :=
  ∀ (v : BitVec 8) (k j : Nat), j < 8 →
    ((op (v.setWidth 32) ((1 : BitVec 32) <<< k)).setWidth 8).getLsbD j = if j = k then b else v.getLsbD j

theorem setsTo_enable : SetsTo (fun value bit => value &&& ~~~bit) false := fun v k j hj => by
  rw [getLsbD_clear v hj]
  split <;> simp [*]

theorem setsTo_disable : SetsTo (fun value bit => value ||| bit) true := fun v k j hj => by
  rw [getLsbD_set v hj]
  split <;> simp [*]

/-- **One call masks or unmasks the line it names**, and no other; a call
naming 16 to 38 changes no line. -/
theorem irqMask_masked {op : BitVec 32 → BitVec 32 → BitVec 32} {b : Bool} (hop : SetsTo op b) (pic : Pic)
    {irq : BitVec 8} (hirq : irq.toNat < 39) :
    ∃ pic', irqMask op pic irq = some pic' ∧ ∀ i < 16, pic'.masked i = if i = irq.toNat then b else pic.masked i := by
  by_cases h8 : irq.toNat < 8
  · -- the master's register
    have hlt : irq < 8 := BitVec.lt_def.2 h8
    have hp : irqPort irq = (0x21, irq) := if_pos hlt
    have hs : shiftOne irq = some ((1 : BitVec 32) <<< irq.toNat) := if_pos (by omega)
    refine ⟨_, by simp only [irqMask, hp, hs, Option.map_some']; rfl, fun i hi => ?_⟩
    simp only [Pic.masked, Pic.outb, Pic.inb, eq_self_iff_true, if_true]
    by_cases hi8 : i < 8
    · simp only [if_pos hi8]
      exact hop _ _ _ hi8
    · simp only [if_neg hi8, if_neg (show i ≠ irq.toNat by omega)]
  · -- the slave's register, at bit `irq - 8`
    have hk : (irq - 8).toNat = irq.toNat - 8 := by bv_omega
    have hlt : ¬irq < 8 := fun h => h8 (BitVec.lt_def.1 h)
    have hp : irqPort irq = (0xA1, irq - 8) := if_neg hlt
    have hs : shiftOne (irq - 8) = some ((1 : BitVec 32) <<< (irq - 8).toNat) := if_pos (by omega)
    have hport : ((0xA1 : BitVec 16) = 0x21) = False := by decide
    refine ⟨_, by simp only [irqMask, hp, hs, Option.map_some']; rfl, fun i hi => ?_⟩
    simp only [Pic.masked, Pic.outb, Pic.inb, hport, if_false]
    by_cases hi8 : i < 8
    · simp only [if_pos hi8, if_neg (show i ≠ irq.toNat by omega)]
    · simp only [if_neg hi8]
      rw [hop _ _ _ (by omega), hk]
      simp only [show (i - 8 = irq.toNat - 8) = (i = irq.toNat) by apply propext; omega]

/-- One call, `irq_enable` or `irq_disable`, of a line below 39. -/
theorem IrqCall.run_masked (pic : Pic) {c : IrqCall} (hc : c.irq.toNat < 39) :
    ∃ pic', c.run pic = some pic' ∧ ∀ i < 16, pic'.masked i = if i = c.irq.toNat then c.masks else pic.masked i := by
  cases c with
  | enable irq => exact irqMask_masked setsTo_enable pic hc
  | disable irq => exact irqMask_masked setsTo_disable pic hc

/-- **The last call naming a line wins.** After any calls of `irq_enable`
and `irq_disable` on lines below 39, each of the 16 lines is masked exactly
when the last call naming it was `irq_disable`, and is as it was when no
call named it; calls naming 16 to 38 change nothing. -/
theorem irq_mask_last_call_wins (pic : Pic) (calls : List IrqCall) (hc : ∀ c ∈ calls, c.irq.toNat < 39) :
    ∃ pic', runIrqCalls pic calls = some pic' ∧ ∀ i < 16,
      pic'.masked i = ((calls.filter fun c => c.irq.toNat = i).getLast?.map IrqCall.masks).getD (pic.masked i) := by
  induction calls generalizing pic with
  | nil => exact ⟨pic, rfl, fun _ _ => rfl⟩
  | cons c cs ih =>
    obtain ⟨pic1, e1, h1⟩ := IrqCall.run_masked pic (hc c (List.mem_cons_self _ _))
    obtain ⟨pic', e, h⟩ := ih pic1 fun c' hc' => hc c' (List.mem_cons_of_mem _ hc')
    refine ⟨pic', by rw [runIrqCalls, e1, Option.some_bind, e], fun i hi => ?_⟩
    rw [h i hi, h1 i hi, List.filter_cons]
    by_cases hci : c.irq.toNat = i
    · rw [if_pos hci.symm, if_pos (decide_eq_true hci), List.getLast?_cons]
      cases (cs.filter fun c => c.irq.toNat = i).getLast? <;> rfl
    · rw [if_neg (Ne.symm hci), if_neg (by simpa using hci)]

/-- `cmd_enableints` enables the keyboard's line, then the timer's: from
every line masked, those two are open and the others stay masked. -/
theorem enableints_opens_timer_and_keyboard :
    (∀ c ∈ [IrqCall.enable 1, .enable 0], c.irq.toNat < 39) ∧
      ∃ pic', runIrqCalls ⟨0xFF, 0xFF⟩ [.enable 1, .enable 0] = some pic' ∧ ∀ i < 16,
        pic'.masked i = (([IrqCall.enable 1, .enable 0].filter fun c => c.irq.toNat = i).getLast?.map
          IrqCall.masks).getD (Pic.masked ⟨0xFF, 0xFF⟩ i) :=
  ⟨by decide, irq_mask_last_call_wins _ _ (by decide)⟩

end MiniCore.Isr
