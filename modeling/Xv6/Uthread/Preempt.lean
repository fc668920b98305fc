import Xv6.Uthread.Activation
import Xv6.Process.Trapframe

/-! @src trap.c trapasm.S syscall.c uthread_switch.S uthread1.c | name:Forced calls of the user scheduler | layer:proof

    The timer case of `trap` overwrites the saved `%eip` with the registered address and keeps no
    copy. The thread goes on inside `thread_schedule`, whose `ret` takes whatever word the thread
    had on its stack, so the interruption is transparent at two instructions only. -/

namespace Xv6.Uthread
open Xv6.Schemes.X86 Xv6.Process

/-- What user code sees of the processor. -/
structure Cpu where
  regs : Regs
  eip : Word
  zf : Bool
  cf : Bool

/-- The fields of `struct proc` that a trap uses; `tf` is the frame at the top of the kernel stack,
    where every trap from user mode puts it. -/
structure Proc where
  scheduler : Word
  tf : Trapframe

/-- `alltraps`, after the processor has pushed `%esp`, `eflags` and `%eip`. -/
def alltraps (c : Cpu) : Trapframe where
  edi := c.regs.edi
  esi := c.regs.esi
  ebp := c.regs.ebp
  ebx := c.regs.ebx
  edx := c.regs.edx
  ecx := c.regs.ecx
  eax := c.regs.eax
  eip := c.eip
  zf := c.zf
  cf := c.cf
  esp := c.regs.esp

/-- `trapret`. -/
def trapret (tf : Trapframe) : Cpu where
  regs :=
    { eax := tf.eax, ecx := tf.ecx, edx := tf.edx, ebx := tf.ebx, esp := tf.esp, ebp := tf.ebp
      esi := tf.esi, edi := tf.edi }
  eip := tf.eip
  zf := tf.zf
  cf := tf.cf

/-- The timer case of `trap`, for the process that is current. -/
def trapTimer (cpu0 : Bool) (ticks : Word) (p : Proc) : Proc :=
  { p with tf := redirect p.scheduler (tick cpu0 ticks) p.tf }

/-- Where the timer interrupt finds the process: in user mode, or inside a system call that user
    code made at `c`, with the return address in `%eip`, and that will return `result`. -/
inductive Interrupted where
  | user (c : Cpu)
  | syscall (c : Cpu) (result : Word)

namespace Interrupted

/-- Where the thread should go on, and with what. -/
def expected : Interrupted → Cpu
  | user c => c
  | syscall c result => { c with regs := { c.regs with eax := result } }

/-- What `trapret` loads in the end. -/
def resumed (cpu0 : Bool) (ticks : Word) (p : Proc) : Interrupted → Cpu
  | user c => trapret (trapTimer cpu0 ticks { p with tf := alltraps c }).tf
  | syscall c result =>
    trapret { (trapTimer cpu0 ticks { p with tf := alltraps c }).tf with eax := result }

/-- Without a forced call the trap is transparent. -/
theorem resumed_quiet {cpu0 : Bool} {ticks : Word} {p : Proc} (x : Interrupted)
    (h : ¬ Forces p.scheduler (tick cpu0 ticks)) : x.resumed cpu0 ticks p = x.expected := by
  cases x with
  | user c =>
    simp only [resumed, trapTimer, redirect, if_neg h]
    rfl
  | syscall c result =>
    simp only [resumed, trapTimer, redirect, if_neg h]
    rfl

/-- With one, the thread is as it should be but for `%eip`. -/
theorem resumed_forced {cpu0 : Bool} {ticks : Word} {p : Proc} (x : Interrupted)
    (h : Forces p.scheduler (tick cpu0 ticks)) :
    x.resumed cpu0 ticks p = { x.expected with eip := p.scheduler } := by
  cases x with
  | user c =>
    simp only [resumed, trapTimer, redirect, if_pos h]
    rfl
  | syscall c result =>
    simp only [resumed, trapTimer, redirect, if_pos h]
    rfl

end Interrupted

/-- The thread as a machine. -/
def Cpu.machine (L : Layout) (c : Cpu) (stack data : Word → Word) : Machine Loc :=
  ⟨c.regs, L.decode c.eip, c.zf, c.cf, stack, data⟩

/-- Resumed with `after`, the thread goes on as it should: at once, while it is in the scheduler
    it was sent to, or when that has returned, it is at the expected instruction with the expected
    registers, and its stack is untouched. -/
def Preserved (L : Layout) (before after : Cpu) (stack data : Word → Word) : Prop :=
  ∃ m, (Relation.ReflTransGen L.Within (after.machine L stack data) m ∨
      ∃ x, Relation.ReflTransGen L.Within (after.machine L stack data) x ∧
        x.pc = .schedule 0xc1 ∧ x.step L.image = some m) ∧
    m.regs = before.regs ∧ L.encode m.pc = before.eip ∧
    ∀ y, before.regs.esp ≤ y → y < KERNBASE → m.stack y = stack y

/-- The two instructions at which a forced call leaves no trace: the first one of
    `thread_schedule`, and its `ret` with the registers that the forced call will put there. -/
def Harmless (L : Layout) (c : Cpu) (data : Word → Word) : Prop :=
  c.eip = L.thread_schedule ∨
    c.eip = L.thread_schedule + 0xc1 ∧ L.chooseNext data ≠ 0 ∧
      c.regs.eax = L.chooseNext data ∧ c.regs.edx = data L.current_thread

instance (L : Layout) (c : Cpu) (data : Word → Word) : Decidable (Harmless L c data) :=
  inferInstanceAs (Decidable (_ ∨ _ ∧ _))

section Forced

variable {L : Layout} {before : Cpu} {stack data : Word → Word}

theorem decode_thread_schedule (L : Layout) : L.decode L.thread_schedule = .schedule 0 := by
  simp [Layout.decode]

theorem encode_schedule_zero (L : Layout) : L.encode (.schedule 0) = L.thread_schedule := by
  simp [Layout.encode]

theorem encode_schedule_ret (L : Layout) :
    L.encode (.schedule 0xc1) = L.thread_schedule + 0xc1 := by
  rw [Layout.encode]
  rfl

/-- After the `ret` of the forced call the stack pointer is four bytes higher than before it. -/
theorem returned_esp {a x m : Machine Loc} (ha : a.pc = .schedule 0)
    (hx : Relation.ReflTransGen L.Within a x) (hpc : x.pc = .schedule 0xc1)
    (hs : x.step L.image = some m) : m.regs.esp ≠ a.regs.esp := by
  have hm : m.regs.esp = x.regs.esp + 4 := by
    have hret := step_ret (L := L) (m := x) _ (.schedule 0xc2) (by rw [hpc]; rfl) rfl
    exact congrArg (fun m => m.regs.esp) (Option.some.inj (hs.symm.trans hret))
  rcases call_states ha hx with rfl | ⟨-, h⟩ | ⟨-, h⟩
  · exact absurd (ha.symm.trans hpc) (by decide)
  · exact absurd hpc h
  · rw [hm, h.regs]
    bv_omega

/-- A forced call is transparent exactly where it is harmless. -/
theorem preserved_forced_iff :
    Preserved L before { before with eip := L.thread_schedule } stack data ↔
      Harmless L before data := by
  have hmachine : ({ before with eip := L.thread_schedule } : Cpu).machine L stack data =
      ⟨before.regs, .schedule 0, before.zf, before.cf, stack, data⟩ := by
    rw [Cpu.machine, decode_thread_schedule]
  rw [Preserved, hmachine]
  constructor
  · rintro ⟨m, hm, hregs, heip, -⟩
    have hesp : m.regs.esp = before.regs.esp := congrArg Regs.esp hregs
    rcases hm with hm | ⟨x, hx, hpc, hs⟩
    · rcases call_states rfl hm with rfl | ⟨h, -⟩ | ⟨hv, h⟩
      · exact Or.inl (heip.symm.trans (encode_schedule_zero L))
      · exact absurd hesp h
      · have hpc : before.eip = L.thread_schedule + 0xc1 :=
          heip.symm.trans ((congrArg L.encode h.pc).trans (encode_schedule_ret L))
        have heax := (congrArg Regs.eax hregs).symm.trans h.eax
        have hedx := (congrArg Regs.edx hregs).symm.trans h.edx
        exact Or.inr ⟨hpc, hv, heax, hedx⟩
    · have hne := returned_esp (L := L)
        (a := ⟨before.regs, .schedule 0, before.zf, before.cf, stack, data⟩) rfl hx hpc hs
      exact absurd hesp hne
  · rintro (heip | ⟨heip, hv, heax, hedx⟩)
    · exact ⟨_, Or.inl .refl, rfl, (encode_schedule_zero L).trans heip.symm, fun _ _ _ => rfl⟩
    · obtain ⟨x, hx, hret⟩ := call_returns (L := L)
        (a := ⟨before.regs, .schedule 0, before.zf, before.cf, stack, data⟩) rfl hv
      have hpc : L.encode x.pc = before.eip := by rw [hret.pc, encode_schedule_ret, heip]
      have hregs : { before.regs with eax := L.chooseNext data, edx := data L.current_thread } =
          before.regs := by rw [← heax, ← hedx]
      exact ⟨x, Or.inl hx, hret.regs.trans hregs, hpc, hret.stack⟩

end Forced

/-- Preemptive switching: for every layout of the program, every registered process, every
    interrupted instruction or system call, and whatever the stack and the thread table hold, the
    thread goes on as expected iff the forced call found it where it does no harm. -/
theorem preemption_transparent_iff {L : Layout} {cpu0 : Bool} {ticks : Word} {p : Proc}
    {x : Interrupted} {stack data : Word → Word} (hreg : p.scheduler = L.thread_schedule)
    (htick : tick cpu0 ticks % 30 = 0) :
    Preserved L x.expected (x.resumed cpu0 ticks p) stack data ↔ Harmless L x.expected data := by
  have hne : p.scheduler ≠ -1 := by
    have := L.user
    rw [hreg]
    bv_omega
  rw [x.resumed_forced ⟨hne, htick⟩, hreg]
  exact preserved_forced_iff

/-! ### The first statement of a thread -/

/-- The first thread of `uthread1` in `mythread`, about to load `current_thread`. -/
def inMythread : Cpu where
  regs := ⟨0, 0, 0, 0, 0x2d44, 0x2d5c, 0, 0⟩
  eip := 0x173
  zf := false
  cf := false

/-- The first instruction of `thread_schedule`, in the same thread. -/
def atSchedule : Cpu := { inMythread with eip := 0x0 }

/-- A process that has registered the address of `thread_schedule` in `uthread1`. -/
def registered : Proc := ⟨Layout.uthread1.thread_schedule, alltraps inMythread⟩

/-- `preemption_transparent_iff` at the first instruction of `thread_schedule`. -/
theorem preempted_at_schedule :
    Preserved Layout.uthread1 atSchedule
      ((Interrupted.user atSchedule).resumed true 29 registered) (fun _ => 0) (fun _ => 0) :=
  (preemption_transparent_iff (x := .user atSchedule) rfl (by decide)).mpr (Or.inl rfl)

/-- In `mythread` the interrupted instruction is lost, whatever the stack and the table hold. -/
theorem preempted_in_mythread :
    registered.scheduler = Layout.uthread1.thread_schedule ∧ tick true 29 % 30 = 0 ∧
    ∀ stack data, ¬ Preserved Layout.uthread1 inMythread
      ((Interrupted.user inMythread).resumed true 29 registered) stack data := by
  refine ⟨rfl, by decide, fun stack data h => ?_⟩
  rw [Interrupted.resumed_forced _ (by decide)] at h
  rcases preserved_forced_iff.mp h with h | ⟨h, -⟩
  · exact absurd h (by decide)
  · exact absurd h (by decide)

end Xv6.Uthread
