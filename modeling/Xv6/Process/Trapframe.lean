import Xv6.Schemes.X86

/-! @src x86.h trap.c | name:The trap frame and the timer interrupt | layer:model

    The part of `struct trapframe` that the modelled code reads, and what the timer case of `trap`
    does to it. -/

namespace Xv6.Process
open Xv6.Schemes.X86

/-- `struct trapframe`, with the two flags of `eflags` the modelled code uses. -/
structure Trapframe where
  edi : Word
  esi : Word
  ebp : Word
  ebx : Word
  edx : Word
  ecx : Word
  eax : Word
  eip : Word
  zf : Bool
  cf : Bool
  esp : Word

/-- `ticks` after a timer interrupt; only the first processor counts. -/
def tick (cpu0 : Bool) (ticks : Word) : Word := if cpu0 then ticks + 1 else ticks

/-- The timer interrupt forces a call of the registered scheduler. -/
def Forces (scheduler ticks : Word) : Prop := scheduler ≠ -1 ∧ ticks % 30 = 0

instance (scheduler ticks : Word) : Decidable (Forces scheduler ticks) :=
  inferInstanceAs (Decidable (_ ∧ _))

/-- What it does to the trap frame of the process that is current. -/
def redirect (scheduler ticks : Word) (tf : Trapframe) : Trapframe :=
  if Forces scheduler ticks then { tf with eip := scheduler } else tf

end Xv6.Process
