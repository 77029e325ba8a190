import MiniCore.Fs.Model

/-!
# The file table refines a finite map

What `fs.c` is for: a map from file names to contents, holding at most
sixteen files, that grows by `fs_add_file` and is read by `fs_read`.
`FileMap` is that map, as the list of (name, content) strings in the order
they were added, and `FileMap.add` is the abstract add with the code's
result values: -1 when the table is full, -2 when a string does not fit,
-3 when the name is taken, 0 otherwise.

`Represents fs m` says how the code's table lays out `m`: entry `k`
stores the `k`-th file, its name field reads as the file's name, its size
is the content's length, its data pointer is the start of slot `k`, and
slot `k` starts with the content. Every call keeps it:

* `Represents.fsAddFile`: `fs_add_file` returns what the abstract add
  returns, and its new state represents the abstract new map;
* `Represents.find_stored`, `Represents.find_none`: `fs_find_file` finds
  exactly the stored names, each at its own index;
* `fsInit_represents`: `fs_init` represents the five demo files.

**The law** (`fs_refines_file_map`): from `fs_init` on an uninitialised
table, after any sequence of `fs_add_file` calls, the table behaves as the
abstract map of the same calls (`Refines`).

## What this does NOT cover

The file type, the permissions and the magic number are stored and never
read back by a modelled function. `fs_list` only prints.
-/

namespace MiniCore.Fs

/-! ## The abstract map -/

/-- The stored files, as (name, content) strings in the order added. -/
abbrev FileMap := List (List (BitVec 8) × List (BitVec 8))

/-- The abstract `add`: the new map and the call's result. -/
def FileMap.add (m : FileMap) (c : AddCall) : FileMap × Int :=
  if fsMaxFiles ≤ m.length then (m, -1)
  else if fsMaxFilename ≤ (cstr c.name).length ∨ fsMaxFilesize ≤ (cstr c.content).length then (m, -2)
  else if cstr c.name ∈ m.map Prod.fst then (m, -3)
  else (m ++ [(cstr c.name, cstr c.content)], 0)

/-- The map after a sequence of adds. -/
def FileMap.runAdds (m : FileMap) (cs : List AddCall) : FileMap :=
  cs.foldl (fun m c => (m.add c).1) m

theorem FileMap.runAdds_append (m : FileMap) (cs ds : List AddCall) :
    m.runAdds (cs ++ ds) = (m.runAdds cs).runAdds ds :=
  List.foldl_append _ _ _ _

/-- An add succeeds exactly when there is room, both strings fit and the
name is new. -/
theorem FileMap.add_eq_zero_iff (m : FileMap) (c : AddCall) :
    (m.add c).2 = 0 ↔ m.length < fsMaxFiles ∧ (cstr c.name).length < fsMaxFilename ∧
      (cstr c.content).length < fsMaxFilesize ∧ cstr c.name ∉ m.map Prod.fst := by
  unfold FileMap.add
  split_ifs with h1 h2 h3
  · exact iff_of_false (by simp) fun h => absurd h.1 (not_lt.2 h1)
  · exact iff_of_false (by simp) fun h => by omega
  · exact iff_of_false (by simp) fun h => h.2.2.2 h3
  · exact iff_of_true rfl ⟨by omega, by omega, by omega, h3⟩

/-- A failed add leaves the map as it was. -/
theorem FileMap.add_of_ne_zero {m : FileMap} {c : AddCall} (h : (m.add c).2 ≠ 0) : (m.add c).1 = m := by
  unfold FileMap.add at h ⊢
  split_ifs at h ⊢ <;> simp_all

/-- Names stay distinct. -/
theorem FileMap.add_nodup {m : FileMap} (h : (m.map Prod.fst).Nodup) (c : AddCall) :
    ((m.add c).1.map Prod.fst).Nodup := by
  unfold FileMap.add
  split_ifs with _ _ hn
  any_goals exact h
  simpa [List.nodup_append, hn] using h

/-! ## Windows of the data area -/

/-- The `n` bytes of an array from index `a` are `l` when each is. -/
theorem ofFn_window_eq {N : Nat} {f : Fin N → BitVec 8} {a : Nat} {l : List (BitVec 8)}
    (ha : a + l.length ≤ N) (h : ∀ j (hj : j < l.length), f ⟨a + j, by omega⟩ = l[j]) :
    ((List.ofFn f).drop a).take l.length = l := by
  apply List.ext_getElem
  · simp only [List.length_take, List.length_drop, List.length_ofFn]
    omega
  · intro j _ hj
    simp only [List.getElem_take, List.getElem_drop, List.getElem_ofFn, h j hj]

/-- A window reads only its own bytes. -/
theorem ofFn_window_congr {N : Nat} {f g : Fin N → BitVec 8} {a n : Nat}
    (h : ∀ i : Fin N, a ≤ i.val → i.val < a + n → g i = f i) :
    ((List.ofFn g).drop a).take n = ((List.ofFn f).drop a).take n := by
  apply List.ext_getElem
  · simp
  · intro j hj _
    simp only [List.length_take, List.length_drop, List.length_ofFn] at hj
    simp only [List.getElem_take, List.getElem_drop, List.getElem_ofFn]
    exact h _ (Nat.le_add_right a j) (by simp only; omega)

/-- The slots are consecutive: a string shorter than a slot, at the start
of slot `k`, ends before slot `l` begins for every `l > k`. -/
theorem slot_le {k l n : Nat} (hkl : k < l) (hn : n < fsMaxFilesize) :
    k * fsMaxFilesize + n ≤ l * fsMaxFilesize := by
  unfold fsMaxFilesize at *
  omega

/-! ## The representation -/

/-- Entry `k` stores the file `e`. -/
structure Stored (fs : Filesystem) (k : Fin fsMaxFiles) (e : List (BitVec 8) × List (BitVec 8)) :
    Prop where
  name : cstr (List.ofFn (fs.files k).name) = e.1
  size : (fs.files k).size = BitVec.ofNat 32 e.2.length
  data : (fs.files k).data = some (k.val * fsMaxFilesize)
  content_lt : e.2.length < fsMaxFilesize
  bytes : ((List.ofFn fs.fileData).drop (k.val * fsMaxFilesize)).take e.2.length = e.2

/-- The code's table lays out the map `m`. -/
structure Represents (fs : Filesystem) (m : FileMap) : Prop where
  initialized : fs.initialized = true
  count : fs.fileCount = m.length
  length_le : m.length ≤ fsMaxFiles
  nodup : (m.map Prod.fst).Nodup
  stored : ∀ k : Fin fsMaxFiles, (hk : k.val < m.length) → Stored fs k m[k.val]

/-! ## `fs_find_file` -/

section Find

variable {fs : Filesystem} {m : FileMap} (h : Represents fs m)
include h

/-- The test of the search loop at entry `i`: a stored file with that name. -/
theorem Represents.test_iff (name : List (BitVec 8)) (i : Fin fsMaxFiles) :
    (i.val < fs.fileCount ∧ fsStrcmp (List.ofFn (fs.files i).name) name = 0) ↔
      ∃ hi : i.val < m.length, m[i.val].1 = cstr name := by
  rw [h.count, fsStrcmp_eq_zero_iff]
  constructor
  · rintro ⟨hi, e⟩
    exact ⟨hi, (h.stored i hi).name ▸ e⟩
  · rintro ⟨hi, e⟩
    exact ⟨hi, (h.stored i hi).name ▸ e⟩

/-- A name that is not stored is not found. -/
theorem Represents.find_none (name : List (BitVec 8)) :
    fsFindFile fs name = none ↔ cstr name ∉ m.map Prod.fst := by
  simp only [fsFindFile, h.initialized, if_true, List.find?_eq_none, List.mem_finRange,
    decide_eq_true_eq, true_implies, h.test_iff, not_exists, List.mem_map, not_exists, not_and]
  constructor
  · rintro hn ⟨n, c⟩ hm rfl
    obtain ⟨k, hk, e⟩ := List.getElem_of_mem hm
    exact hn ⟨k, by have := h.length_le; omega⟩ hk (by simp [e])
  · intro hn i hi e
    exact hn _ (List.getElem_mem hi) e

/-- A stored name is found at its own index. -/
theorem Represents.find_stored (k : Fin fsMaxFiles) (hk : k.val < m.length) :
    fsFindFile fs m[k.val].1 = some k := by
  have hname : cstr m[k.val].1 = m[k.val].1 := (h.stored k hk).name ▸ cstr_cstr _
  obtain ⟨r, hr⟩ := Option.ne_none_iff_exists'.1 fun e =>
    (h.find_none _).1 e (hname.symm ▸ List.mem_map_of_mem Prod.fst (List.getElem_mem hk))
  have hr' := hr
  simp only [fsFindFile, h.initialized, if_true] at hr'
  obtain ⟨hri, e⟩ := (h.test_iff _ r).1 (by simpa using List.find?_some hr')
  rw [hname] at e
  have hrk : r.val = k.val :=
    (@List.Nodup.getElem_inj_iff _ _ h.nodup r.val (by simpa using hri) k.val (by simpa using hk)).1
      (by simpa using e)
  rw [hr, Fin.ext hrk]

end Find

/-! ## `fs_add_file` -/

/-- The stores of a successful `fs_add_file`, at the index the map's
length names, represent the map with the file appended. -/
theorem Represents.store {fs : Filesystem} {m : FileMap} (h : Represents fs m) (c : AddCall)
    (k : Fin fsMaxFiles) (hk : k.val = m.length) (hn : (cstr c.name).length < fsMaxFilename)
    (hc : (cstr c.content).length < fsMaxFilesize) (hnew : cstr c.name ∉ m.map Prod.fst) :
    Represents (storeFile fs k c.name c.content c.type) (m ++ [(cstr c.name, cstr c.content)]) := by
  have hlen : fsStrlen c.content = (cstr c.content).length := fsStrlen_eq _
  have hle := h.length_le
  refine ⟨h.initialized, by simp [storeFile, h.count], ?_, ?_, fun j hj => ?_⟩
  · simp only [List.length_append, List.length_singleton]
    omega
  · rw [List.map_append, List.map_singleton]
    exact List.nodup_append.2 ⟨h.nodup, List.nodup_singleton _, List.disjoint_singleton.2 hnew⟩
  simp only [List.length_append, List.length_singleton] at hj
  rcases Nat.lt_or_ge j.val m.length with hjm | hjm
  · -- an entry already there: its fields and its slot are untouched
    have hjk : j ≠ k := fun e => by rw [e] at hjm; omega
    have hs := h.stored j hjm
    have hf : (Fs.storeFile fs k c.name c.content c.type).files j = fs.files j := by
      simp only [Fs.storeFile, Function.update_noteq hjk]
    rw [List.getElem_append_left hjm]
    refine ⟨hf ▸ hs.name, hf ▸ hs.size, hf ▸ hs.data, hs.content_lt, ?_⟩
    refine (ofFn_window_congr fun i hi1 hi2 => ?_).trans hs.bytes
    have := slot_le (show j.val < k.val by omega) hs.content_lt
    simp only [Fs.storeFile]
    rw [if_neg (by omega)]
  · -- the new entry
    have hjk : j = k := Fin.ext (by omega)
    subst hjk
    have hf : (Fs.storeFile fs j c.name c.content c.type).files j = { fs.files j with
        name := fsStrcpy (fs.files j).name c.name, size := BitVec.ofNat 32 (fsStrlen c.content),
        type := c.type, permissions := 0, data := some (j.val * fsMaxFilesize) } := by
      simp only [Fs.storeFile, Function.update_same]
    rw [List.getElem_append_right (by omega)]
    simp only [hk, Nat.sub_self, List.getElem_singleton]
    refine ⟨?_, by rw [hf, hlen], by rw [hf], hc, ?_⟩
    · rw [hf]
      exact cstr_fsStrcpy (by rw [fsStrlen_eq]; exact hn) _
    · have := slot_le j.isLt hc
      refine ofFn_window_eq (by simpa using this) fun i hi => ?_
      have hi' : i < fsStrlen c.content := hlen ▸ hi
      simp only [Fs.storeFile]
      rw [if_pos (by omega), Nat.add_sub_cancel_left]
      exact getD_eq_getElem_cstr hi

/-- `fs_add_file` refines the abstract add: the same result, a represented
new state, and no change at all when it fails. -/
theorem Represents.fsAddFile {fs : Filesystem} {m : FileMap} (h : Represents fs m) (c : AddCall) :
    (fsAddFile fs c.name c.content c.type).2 = (m.add c).2 ∧
      Represents (fsAddFile fs c.name c.content c.type).1 (m.add c).1 ∧
      ((m.add c).2 ≠ 0 → (fsAddFile fs c.name c.content c.type).1 = fs) := by
  have hfind := h.find_none c.name
  unfold Fs.fsAddFile FileMap.add
  simp only [h.initialized, h.count, fsStrlen_eq, Bool.true_eq_false, false_or, ne_eq, hfind,
    not_not]
  split_ifs with h1 h2 h3
  iterate 3 exact ⟨rfl, h, fun _ => rfl⟩
  exact ⟨rfl, h.store c _ rfl (by omega) (by omega) h3, fun e => absurd rfl e⟩

/-! ## `fs_read` -/

/-- `fs_read` of a stored name: result 0, a pointer to its slot, its size. -/
theorem Represents.read_stored {fs : Filesystem} {m : FileMap} (h : Represents fs m)
    (k : Fin fsMaxFiles) (hk : k.val < m.length) :
    fsRead fs m[k.val].1 =
      (0, some (some (k.val * fsMaxFilesize), BitVec.ofNat 32 m[k.val].2.length)) := by
  simp only [fsRead, h.find_stored k hk, (h.stored k hk).data, (h.stored k hk).size]

/-- `fs_read` of a name not stored: result -1, nothing stored. -/
theorem Represents.read_none {fs : Filesystem} {m : FileMap} (h : Represents fs m)
    {name : List (BitVec 8)} (hn : cstr name ∉ m.map Prod.fst) : fsRead fs name = (-1, none) := by
  simp only [fsRead, (h.find_none name).2 hn]

/-! ## Runs -/

/-- A sequence of adds keeps the representation. -/
theorem Represents.runAdds {fs : Filesystem} {m : FileMap} (h : Represents fs m) :
    ∀ cs : List AddCall, Represents (Fs.runAdds fs cs) (m.runAdds cs)
  | [] => h
  | c :: cs => (h.fsAddFile c).2.1.runAdds cs

/-- `fs_init` on an uninitialised table clears it, which represents the
empty map, and adds the demo files. -/
theorem fsInit_represents {fs : Filesystem} (h : fs.initialized = false) :
    Represents (fsInit fs) (FileMap.runAdds [] demoFiles) := by
  rw [fsInit, if_neg (by simp [h])]
  exact Represents.runAdds
    (⟨rfl, rfl, by decide, List.nodup_nil, fun _ hk => absurd hk (by simp)⟩ : Represents _ []) _

/-! ## The law -/

/-- What callers of `fs_add_file` and `fs_read` observe of a table that
represents `m`. -/
structure Refines (fs : Filesystem) (m : FileMap) : Prop where
  /-- A call returns 0 exactly when there is room, the name and the
  content fit, and no stored file has the name. -/
  add_ok : ∀ c : AddCall, (fsAddFile fs c.name c.content c.type).2 = 0 ↔
    fs.fileCount < fsMaxFiles ∧ fsStrlen c.name < fsMaxFilename ∧
      fsStrlen c.content < fsMaxFilesize ∧ cstr c.name ∉ m.map Prod.fst
  /-- A failing call leaves the whole state unchanged. -/
  add_fail : ∀ c : AddCall, (fsAddFile fs c.name c.content c.type).2 ≠ 0 →
    (fsAddFile fs c.name c.content c.type).1 = fs
  /-- The stored names are pairwise distinct, and the name fields hold them. -/
  nodup : (m.map Prod.fst).Nodup
  names : ∀ k : Fin fsMaxFiles, (hk : k.val < m.length) →
    cstr (List.ofFn (fs.files k).name) = m[k.val].1
  /-- `fs_read` of a stored name returns 0, the content's length, and a
  pointer at which the content stands. -/
  read : ∀ k : Fin fsMaxFiles, (hk : k.val < m.length) →
    fsRead fs m[k.val].1 = (0, some (some (k.val * fsMaxFilesize), BitVec.ofNat 32 m[k.val].2.length)) ∧
      ((List.ofFn fs.fileData).drop (k.val * fsMaxFilesize)).take m[k.val].2.length = m[k.val].2
  /-- The data ranges are disjoint and inside the data area. -/
  disjoint : ∀ k l : Fin fsMaxFiles, (hk : k.val < m.length) → l.val < m.length → k < l →
    k.val * fsMaxFilesize + m[k.val].2.length ≤ l.val * fsMaxFilesize
  inside : ∀ k : Fin fsMaxFiles, (hk : k.val < m.length) →
    k.val * fsMaxFilesize + m[k.val].2.length ≤ fsMaxFiles * fsMaxFilesize
  /-- `fs_read` of a name not stored returns -1. -/
  read_none : ∀ name, cstr name ∉ m.map Prod.fst → fsRead fs name = (-1, none)

theorem Represents.refines {fs : Filesystem} {m : FileMap} (h : Represents fs m) : Refines fs m where
  add_ok c := by
    rw [(h.fsAddFile c).1, FileMap.add_eq_zero_iff, h.count, fsStrlen_eq, fsStrlen_eq]
  add_fail c hc := (h.fsAddFile c).2.2 ((h.fsAddFile c).1 ▸ hc)
  nodup := h.nodup
  names k hk := (h.stored k hk).name
  read k hk := ⟨h.read_stored k hk, (h.stored k hk).bytes⟩
  disjoint k l hk _ hkl := slot_le hkl (h.stored k hk).content_lt
  inside k hk := slot_le k.isLt (h.stored k hk).content_lt
  read_none _ hn := h.read_none hn

/-- From `fs_init` on an uninitialised table, after any sequence of
`fs_add_file` calls, the table refines the abstract map of the demo files
followed by the same calls. -/
theorem fs_refines_file_map {fs : Filesystem} (h : fs.initialized = false) (cs : List AddCall) :
    Refines (runAdds (fsInit fs) cs) (FileMap.runAdds [] (demoFiles ++ cs)) := by
  rw [FileMap.runAdds_append]
  exact ((fsInit_represents h).runAdds cs).refines

theorem fs_refines_file_map_at_boot :
    Filesystem.bss.initialized = false ∧
      Refines (runAdds (fsInit Filesystem.bss) []) (FileMap.runAdds [] (demoFiles ++ [])) :=
  ⟨rfl, fs_refines_file_map rfl []⟩

end MiniCore.Fs
