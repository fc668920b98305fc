import Xv6.Schemes.X86

/-! @src uthread1.asm uthread_switch.S uthread1.c | name:thread_schedule and thread_switch | layer:model

    The instructions of `thread_schedule` and `thread_switch` at their offsets, for any addresses of
    the two functions and of the variables they use. A thread leaves its own run where
    `thread_switch` loads another thread's stack pointer, and comes back at the next instruction
    when another thread has loaded the stack pointer it saved. -/

namespace Xv6.Uthread
open Xv6.Schemes.X86

/-- A place in the code: an offset in one of the two functions, or any other address. -/
inductive Loc where
  | schedule (o : ℕ)
  | switch (o : ℕ)
  | elsewhere (a : Word)
  deriving DecidableEq

/-- Where a program has the two functions, `printf` and its format string, `current_thread`,
    `next_thread` and `all_thread`. -/
structure Layout where
  thread_schedule : Word
  thread_switch : Word
  printf : Word
  message : Word
  current_thread : Word
  next_thread : Word
  all_thread : Word
  apart : ∀ o, o < 0x20 → 0xc2 ≤ (thread_switch + BitVec.ofNat 32 o - thread_schedule).toNat
  user : thread_schedule.toNat + 0xc2 ≤ 0x80000000
  distinct : current_thread ≠ next_thread
  fits : all_thread.toNat + 4 * 0x2008 < 2 ^ 32

namespace Layout

variable (L : Layout)

/-- `all_thread + i`. -/
@[irreducible] def thread (i : ℕ) : Word := L.all_thread + BitVec.ofNat 32 (i * 0x2008)

def encode : Loc → Word
  | .schedule o => L.thread_schedule + BitVec.ofNat 32 o
  | .switch o => L.thread_switch + BitVec.ofNat 32 o
  | .elsewhere a => a

def decode (a : Word) : Loc :=
  if (a - L.thread_schedule).toNat < 0xc2 then .schedule (a - L.thread_schedule).toNat
  else if (a - L.thread_switch).toNat < 0x20 then .switch (a - L.thread_switch).toNat
  else .elsewhere a

/-- `thread_schedule`. -/
def scheduleCode : ℕ → Option (Instr Loc × ℕ)
  | 0x00 => some (.push (.reg .ebp), 0x01)
  | 0x01 => some (.mov (.reg .esp) (.reg .ebp), 0x03)
  | 0x03 => some (.sub (.imm 0x18) (.reg .esp), 0x06)
  | 0x06 => some (.mov (.imm 0) (.mem L.next_thread), 0x10)
  | 0x10 => some (.mov (.imm (L.thread 0)) (.frame (-0xc)), 0x17)
  | 0x17 => some (.jmp (.schedule 0x42), 0x19)
  -- the loop over all_thread, with t at -0xc(%ebp)
  | 0x19 => some (.mov (.frame (-0xc)) (.reg .eax), 0x1c)
  | 0x1c => some (.mov (.field 0x2004 .eax) (.reg .eax), 0x22)
  | 0x22 => some (.cmp (.imm 2) (.reg .eax), 0x25)
  | 0x25 => some (.jne (.schedule 0x3b), 0x27)
  | 0x27 => some (.mov (.mem L.current_thread) (.reg .eax), 0x2c)
  | 0x2c => some (.cmp (.reg .eax) (.frame (-0xc)), 0x2f)
  | 0x2f => some (.je (.schedule 0x3b), 0x31)
  | 0x31 => some (.mov (.frame (-0xc)) (.reg .eax), 0x34)
  | 0x34 => some (.mov (.reg .eax) (.mem L.next_thread), 0x39)
  | 0x39 => some (.jmp (.schedule 0x4c), 0x3b)
  | 0x3b => some (.add (.imm 0x2008) (.frame (-0xc)), 0x42)
  | 0x42 => some (.mov (.imm (L.thread 4)) (.reg .eax), 0x47)
  | 0x47 => some (.cmp (.reg .eax) (.frame (-0xc)), 0x4a)
  | 0x4a => some (.jb (.schedule 0x19), 0x4c)
  -- the current thread, if the loop found none
  | 0x4c => some (.mov (.imm (L.thread 4)) (.reg .eax), 0x51)
  | 0x51 => some (.cmp (.reg .eax) (.frame (-0xc)), 0x54)
  | 0x54 => some (.jb (.schedule 0x70), 0x56)
  | 0x56 => some (.mov (.mem L.current_thread) (.reg .eax), 0x5b)
  | 0x5b => some (.mov (.field 0x2004 .eax) (.reg .eax), 0x61)
  | 0x61 => some (.cmp (.imm 2) (.reg .eax), 0x64)
  | 0x64 => some (.jne (.schedule 0x70), 0x66)
  | 0x66 => some (.mov (.mem L.current_thread) (.reg .eax), 0x6b)
  | 0x6b => some (.mov (.reg .eax) (.mem L.next_thread), 0x70)
  -- no runnable threads
  | 0x70 => some (.mov (.mem L.next_thread) (.reg .eax), 0x75)
  | 0x75 => some (.test (.reg .eax) (.reg .eax), 0x77)
  | 0x77 => some (.jne (.schedule 0x90), 0x79)
  | 0x79 => some (.sub (.imm 8) (.reg .esp), 0x7c)
  | 0x7c => some (.push (.imm L.message), 0x81)
  | 0x81 => some (.push (.imm 2), 0x83)
  | 0x83 => some (.call (.elsewhere L.printf), 0x88)
  -- switch, or go on
  | 0x90 => some (.mov (.mem L.current_thread) (.reg .edx), 0x96)
  | 0x96 => some (.mov (.mem L.next_thread) (.reg .eax), 0x9b)
  | 0x9b => some (.cmp (.reg .eax) (.reg .edx), 0x9d)
  | 0x9d => some (.je (.schedule 0xb5), 0x9f)
  | 0x9f => some (.mov (.mem L.next_thread) (.reg .eax), 0xa4)
  | 0xa4 => some (.mov (.imm 1) (.field 0x2004 .eax), 0xae)
  | 0xae => some (.call (.switch 0), 0xb3)
  | 0xb3 => some (.jmp (.schedule 0xbf), 0xb5)
  | 0xb5 => some (.mov (.imm 0) (.mem L.next_thread), 0xbf)
  | 0xbf => some (.nop, 0xc0)
  | 0xc0 => some (.leave, 0xc1)
  | 0xc1 => some (.ret, 0xc2)
  | _ => none

/-- `thread_switch`. -/
def switchCode : ℕ → Option (Instr Loc × ℕ)
  | 0x00 => some (.pusha, 0x01)
  | 0x01 => some (.mov (.mem L.current_thread) (.reg .eax), 0x06)
  | 0x06 => some (.mov (.reg .esp) (.field 0 .eax), 0x08)
  | 0x08 => some (.mov (.mem L.next_thread) (.reg .eax), 0x0d)
  | 0x0d => some (.mov (.field 0 .eax) (.reg .esp), 0x0f)
  | 0x0f => some (.mov (.reg .eax) (.mem L.current_thread), 0x14)
  | 0x14 => some (.popa, 0x15)
  | 0x15 => some (.mov (.imm 0) (.mem L.next_thread), 0x1f)
  | 0x1f => some (.ret, 0x20)
  | _ => none

/-- The code of a program, as far as it is the library's. -/
def image : Image Loc where
  fetch
    | .schedule o => (L.scheduleCode o).map fun (i, next) => (i, .schedule next)
    | .switch o => (L.switchCode o).map fun (i, next) => (i, .switch next)
    | .elsewhere _ => none
  encode := L.encode
  decode := L.decode

/-- The next state of the same thread. At `movl (%eax), %esp` others run on their own stacks, and
    change the variables, until one of them loads the stack pointer that this thread saved. -/
def ThreadStep (m m' : Machine Loc) : Prop :=
  if m.pc = .switch 0x0d then
    m'.pc = .switch 0x0f ∧ m'.regs.esp = m.regs.esp ∧ m'.stack = m.stack
  else m.step L.image = some m'

/-- A step of a call of `thread_schedule`, up to its `ret`. -/
def Within (m m' : Machine Loc) : Prop := m.pc ≠ .schedule 0xc1 ∧ L.ThreadStep m m'

/-- The thread list the loop walks through: `n` threads from the `i`-th on. -/
def scan (d : Word → Word) (i : ℕ) : ℕ → Option Word
  | 0 => none
  | n + 1 =>
    if d (L.thread i + 0x2004) = 2 ∧ L.thread i ≠ d L.current_thread then some (L.thread i)
    else scan d (i + 1) n

/-- The variables after `next_thread = 0`. -/
def cleared (d : Word → Word) : Word → Word := Function.update d L.next_thread 0

/-- What the loop, from the `i`-th thread on, and the test after it leave in `next_thread`, which
    was null. -/
def chosen (d : Word → Word) (i n : ℕ) : Word :=
  match L.scan d i n with
  | some t => t
  | none => if d (d L.current_thread + 0x2004) = 2 then d L.current_thread else 0

/-- The value `thread_schedule` gives `next_thread` for its last two tests. -/
def chooseNext (d : Word → Word) : Word := L.chosen (L.cleared d) 0 4

/-- The program `uthread1` as linked. -/
def uthread1 : Layout where
  thread_schedule := 0x0
  thread_switch := 0x245
  printf := 0x638
  message := 0x9f0
  current_thread := 0xd40
  next_thread := 0xd44
  all_thread := 0xd60
  apart := by
    intro o ho
    have h : BitVec.ofNat 32 o = BitVec.ofFin (Fin.ofNat (2 ^ 32) o) := rfl
    bv_omega
  user := by decide
  distinct := by decide
  fits := by decide

end Layout

end Xv6.Uthread
