import Xv6.Uthread.Switch
import Mathlib.Tactic.Ring

/-! @src uthread1.asm uthread_switch.S | name:A call of thread_schedule | layer:proof

    Everything a thread passes through from the first instruction of `thread_schedule` to its `ret`,
    by symbolic execution. The stack pointer is below its first value all the way, and is back at it
    at the `ret`, with `%eax` and `%edx` holding the chosen and the current thread. -/

namespace Xv6.Uthread
open Xv6.Schemes.X86

variable {L : Layout}

/-- Where user addresses end. -/
abbrev KERNBASE : Word := 0x80000000

/-- A place other than the `ret` of `thread_schedule` and the switch of stacks. -/
def Loc.plain (c : Loc) : Bool := c ≠ .schedule 0xc1 && c ≠ .switch 0x0d

/-- The stack pointer is away from `E`, and the place is not the `ret` of `thread_schedule`. -/
def Busy (E : Word) (m : Machine Loc) : Prop := m.regs.esp ≠ E ∧ m.pc ≠ .schedule 0xc1

/-- By its own steps, busy all the way, a thread comes to a state in `P`. -/
def Arrives (L : Layout) (E : Word) (m : Machine Loc) (P : Machine Loc → Prop) : Prop :=
  ∃ m', Path L.image L.Within (Busy E) m m' ∧ P m'

section Steps

variable {E : Word} {m : Machine Loc} {P P' : Machine Loc → Prop}

theorem plain_ne_ret (hpc : m.pc.plain = true) : m.pc ≠ .schedule 0xc1 := by
  simp only [Loc.plain, Bool.and_eq_true, decide_eq_true_eq] at hpc
  exact hpc.1

theorem within_plain (hpc : m.pc.plain = true) (x : Machine Loc) :
    L.Within m x ↔ m.step L.image = some x := by
  simp only [Loc.plain, Bool.and_eq_true, decide_eq_true_eq] at hpc
  simp [Layout.Within, Layout.ThreadStep, hpc.1, hpc.2]

theorem Arrives.here (h : P m) : Arrives L E m P := ⟨m, .refl m, h⟩

theorem Arrives.own (m' : Machine Loc) (hQ : m.regs.esp ≠ E) (hpc : m.pc.plain = true)
    (hs : m.step L.image = some m') (h : Arrives L E m' P) : Arrives L E m P := by
  obtain ⟨x, hx, hP⟩ := h
  exact ⟨x, .step ⟨hQ, plain_ne_ret hpc⟩ (within_plain hpc) hs hx, hP⟩

theorem Arrives.bind (h : Arrives L E m P) (hnext : ∀ x, P x → Arrives L E x P') :
    Arrives L E m P' := by
  obtain ⟨x, hx, hP⟩ := h
  obtain ⟨y, hy, hP'⟩ := hnext x hP
  exact ⟨y, hx.trans hy, hP'⟩

theorem step_add_frame (w d : Word) (next : Loc)
    (hf : L.image.fetch m.pc = some (.add (.imm w) (.frame d), next)) :
    ∃ zf cf, m.step L.image = some ⟨m.regs, next, zf, cf,
      Function.update m.stack (m.regs.ebp + d) (m.stack (m.regs.ebp + d) + w), m.data⟩ := by
  rw [Machine.step, hf]
  exact ⟨_, _, rfl⟩

theorem step_sub_esp (w : Word) (next : Loc)
    (hf : L.image.fetch m.pc = some (.sub (.imm w) (.reg .esp), next)) :
    ∃ zf cf, m.step L.image = some ⟨{ m.regs with esp := m.regs.esp - w }, next, zf, cf,
      m.stack, m.data⟩ := by
  rw [Machine.step, hf]
  exact ⟨_, _, rfl⟩

theorem step_ret (c next : Loc) (hf : L.image.fetch m.pc = some (.ret, next))
    (hret : L.decode (m.stack m.regs.esp) = c) :
    m.step L.image = some ⟨{ m.regs with esp := m.regs.esp + 4 }, c, m.zf, m.cf, m.stack,
      m.data⟩ := by
  subst hret
  rw [Machine.step, hf]
  rfl

theorem step_store (w d : Word) (q : Reg) (next : Loc)
    (hf : L.image.fetch m.pc = some (.mov (.imm w) (.field d q), next)) :
    m.step L.image = some ⟨m.regs, next, m.zf, m.cf, m.stack,
      Function.update m.data (m.regs.get q + d) w⟩ := by
  rw [Machine.step, hf]
  rfl

theorem step_mov_frame (w d : Word) (next : Loc)
    (hf : L.image.fetch m.pc = some (.mov (.imm w) (.frame d), next)) :
    m.step L.image = some ⟨m.regs, next, m.zf, m.cf,
      Function.update m.stack (m.regs.ebp + d) w, m.data⟩ := by
  rw [Machine.step, hf]
  rfl

theorem step_call (c next : Loc) (hf : L.image.fetch m.pc = some (.call c, next)) :
    m.step L.image = some ⟨{ m.regs with esp := m.regs.esp - 4 }, c, m.zf, m.cf,
      Function.update m.stack (m.regs.esp - 4) (L.encode next), m.data⟩ := by
  rw [Machine.step, hf]
  rfl

theorem step_jb (c next : Loc) (hf : L.image.fetch m.pc = some (.jb c, next)) (h : m.cf = true) :
    m.step L.image = some (m.goto c) := by
  simp [Machine.step, hf, Machine.exec, h]

theorem step_jb_not (c next : Loc) (hf : L.image.fetch m.pc = some (.jb c, next))
    (h : m.cf = false) : m.step L.image = some (m.goto next) := by
  simp [Machine.step, hf, Machine.exec, h]

theorem step_je (c next : Loc) (hf : L.image.fetch m.pc = some (.je c, next)) (h : m.zf = true) :
    m.step L.image = some (m.goto c) := by
  simp [Machine.step, hf, Machine.exec, h]

theorem step_je_not (c next : Loc) (hf : L.image.fetch m.pc = some (.je c, next))
    (h : m.zf = false) : m.step L.image = some (m.goto next) := by
  simp [Machine.step, hf, Machine.exec, h]

theorem step_jne (c next : Loc) (hf : L.image.fetch m.pc = some (.jne c, next))
    (h : m.zf = false) : m.step L.image = some (m.goto c) := by
  simp [Machine.step, hf, Machine.exec, h]

theorem step_jne_not (c next : Loc) (hf : L.image.fetch m.pc = some (.jne c, next))
    (h : m.zf = true) : m.step L.image = some (m.goto next) := by
  simp [Machine.step, hf, Machine.exec, h]

end Steps

/-! ### The thread list -/

theorem toNat_add_ofNat {a : Word} {k : ℕ} (h : a.toNat + k < 2 ^ 32) :
    (a + BitVec.ofNat 32 k).toNat = a.toNat + k := by
  rw [BitVec.toNat_add, BitVec.toNat_ofNat, Nat.add_mod_mod, Nat.mod_eq_of_lt h]

theorem thread_succ (L : Layout) (i : ℕ) : L.thread (i + 1) = L.thread i + 0x2008 := by
  rw [Layout.thread, Layout.thread, Nat.add_mul, Nat.one_mul, BitVec.ofNat_add, BitVec.add_assoc]
  rfl

theorem toNat_thread (L : Layout) {i : ℕ} (hi : i ≤ 4) :
    (L.thread i).toNat = L.all_thread.toNat + i * 0x2008 := by
  have hle : i * 0x2008 ≤ 4 * 0x2008 := Nat.mul_le_mul_right _ hi
  rw [Layout.thread]
  exact toNat_add_ofNat (lt_of_le_of_lt (Nat.add_le_add_left hle _) L.fits)

theorem thread_lt_end (L : Layout) {i : ℕ} (hi : i < 4) : L.thread i < L.thread 4 := by
  have hlt : i * 0x2008 < 4 * 0x2008 := Nat.mul_lt_mul_of_pos_right hi (Nat.succ_pos _)
  rw [BitVec.lt_def, toNat_thread L hi.le, toNat_thread L le_rfl]
  exact Nat.add_lt_add_left hlt _

/-! ### The loop -/

section Loop

variable {E : Word} {r : Regs} {s d : Word → Word}

/-- At offset 0x70 with `next_thread` set to `v`; of the registers the loop uses only `%eax`, of
    the stack only `t`. -/
def LoopDone (r : Regs) (s d : Word → Word) (v : Word) (m : Machine Loc) : Prop :=
  m.pc = .schedule 0x70 ∧ (∃ w, m.regs = { r with eax := w }) ∧
    m.data = Function.update d L.next_thread v ∧ ∀ x, x ≠ r.ebp + -0xc → m.stack x = s x

/-- Offset 0x4c with `t` short of the end of the list. -/
theorem arrives_found (zf cf : Bool) {v : Word} (hE : r.esp ≠ E) (hlt : s (r.ebp + -0xc) < L.thread 4)
    {s₀ d₀ : Word → Word} (hd : d = Function.update d₀ L.next_thread v)
    (hs : ∀ x, x ≠ r.ebp + -0xc → s x = s₀ x) :
    Arrives L E ⟨r, .schedule 0x4c, zf, cf, s, d⟩ (LoopDone (L := L) r s₀ d₀ v) := by
  refine Arrives.own ⟨{ r with eax := L.thread 4 }, .schedule 0x51, zf, cf, s, d⟩ hE rfl rfl ?_
  refine Arrives.own ⟨{ r with eax := L.thread 4 }, .schedule 0x54,
    s (r.ebp + -0xc) = L.thread 4, s (r.ebp + -0xc) < L.thread 4, s, d⟩ hE rfl rfl ?_
  refine Arrives.own ⟨{ r with eax := L.thread 4 }, .schedule 0x70,
    s (r.ebp + -0xc) = L.thread 4, s (r.ebp + -0xc) < L.thread 4, s, d⟩ hE rfl
    (step_jb (.schedule 0x70) (.schedule 0x56) rfl (decide_eq_true hlt)) ?_
  exact Arrives.here ⟨rfl, ⟨_, rfl⟩, hd, hs⟩

/-- The end of the list: the current thread if it is `RUNNABLE`, else none. -/
theorem arrives_end (zf cf : Bool) (hE : r.esp ≠ E) (ht : s (r.ebp + -0xc) = L.thread 4)
    (hnext : d L.next_thread = 0) {s₀ : Word → Word}
    (hs : ∀ x, x ≠ r.ebp + -0xc → s x = s₀ x) :
    Arrives L E ⟨r, .schedule 0x4c, zf, cf, s, d⟩
      (LoopDone (L := L) r s₀ d (L.chosen d 4 0)) := by
  have hlt : ¬ s (r.ebp + -0xc) < L.thread 4 := by rw [ht]; exact BitVec.lt_irrefl _
  refine Arrives.own ⟨{ r with eax := L.thread 4 }, .schedule 0x51, zf, cf, s, d⟩ hE rfl rfl ?_
  refine Arrives.own ⟨{ r with eax := L.thread 4 }, .schedule 0x54,
    s (r.ebp + -0xc) = L.thread 4, s (r.ebp + -0xc) < L.thread 4, s, d⟩ hE rfl rfl ?_
  refine Arrives.own ⟨{ r with eax := L.thread 4 }, .schedule 0x56,
    s (r.ebp + -0xc) = L.thread 4, s (r.ebp + -0xc) < L.thread 4, s, d⟩ hE rfl
    (step_jb_not (.schedule 0x70) (.schedule 0x56) rfl (decide_eq_false hlt)) ?_
  refine Arrives.own ⟨{ r with eax := d L.current_thread }, .schedule 0x5b,
    s (r.ebp + -0xc) = L.thread 4, s (r.ebp + -0xc) < L.thread 4, s, d⟩ hE rfl rfl ?_
  refine Arrives.own ⟨{ r with eax := d (d L.current_thread + 0x2004) }, .schedule 0x61,
    s (r.ebp + -0xc) = L.thread 4, s (r.ebp + -0xc) < L.thread 4, s, d⟩ hE rfl rfl ?_
  refine Arrives.own ⟨{ r with eax := d (d L.current_thread + 0x2004) }, .schedule 0x64,
    d (d L.current_thread + 0x2004) = 2, d (d L.current_thread + 0x2004) < 2, s, d⟩ hE rfl rfl ?_
  by_cases hrun : d (d L.current_thread + 0x2004) = 2
  · refine Arrives.own ⟨{ r with eax := d (d L.current_thread + 0x2004) }, .schedule 0x66,
      d (d L.current_thread + 0x2004) = 2, d (d L.current_thread + 0x2004) < 2, s, d⟩ hE rfl
      (step_jne_not (.schedule 0x70) (.schedule 0x66) rfl (decide_eq_true hrun)) ?_
    refine Arrives.own ⟨{ r with eax := d L.current_thread }, .schedule 0x6b,
      d (d L.current_thread + 0x2004) = 2, d (d L.current_thread + 0x2004) < 2, s, d⟩ hE rfl rfl ?_
    refine Arrives.own ⟨{ r with eax := d L.current_thread }, .schedule 0x70,
      d (d L.current_thread + 0x2004) = 2, d (d L.current_thread + 0x2004) < 2, s,
      Function.update d L.next_thread (d L.current_thread)⟩ hE rfl rfl ?_
    have hv : L.chosen d 4 0 = d L.current_thread := if_pos hrun
    exact Arrives.here ⟨rfl, ⟨_, rfl⟩, by rw [hv], hs⟩
  · refine Arrives.own ⟨{ r with eax := d (d L.current_thread + 0x2004) }, .schedule 0x70,
      d (d L.current_thread + 0x2004) = 2, d (d L.current_thread + 0x2004) < 2, s, d⟩ hE rfl
      (step_jne (.schedule 0x70) (.schedule 0x66) rfl (decide_eq_false hrun)) ?_
    have hv : L.chosen d 4 0 = 0 := if_neg hrun
    exact Arrives.here ⟨rfl, ⟨_, rfl⟩, by rw [hv, ← hnext, Function.update_eq_self], hs⟩

/-- From the head of the loop at the `i`-th thread, with `n` threads to go. -/
theorem arrives_loop (hE : r.esp ≠ E) (hnext : d L.next_thread = 0) {s₀ : Word → Word} (n : ℕ) :
    ∀ (i : ℕ) (r' : Regs) (s : Word → Word) (zf cf : Bool), i + n = 4 →
      (∃ w, r' = { r with eax := w }) → s (r.ebp + -0xc) = L.thread i →
      (∀ x, x ≠ r.ebp + -0xc → s x = s₀ x) →
      Arrives L E ⟨r', .schedule 0x42, zf, cf, s, d⟩ (LoopDone (L := L) r s₀ d (L.chosen d i n)) := by
  induction n with
  | zero =>
    rintro i r' s zf cf hi ⟨w, rfl⟩ ht hs
    obtain rfl : i = 4 := hi
    have hlt : ¬ s (r.ebp + -0xc) < L.thread 4 := by rw [ht]; exact BitVec.lt_irrefl _
    refine Arrives.own ⟨{ r with eax := L.thread 4 }, .schedule 0x47, zf, cf, s, d⟩ hE rfl rfl ?_
    refine Arrives.own ⟨{ r with eax := L.thread 4 }, .schedule 0x4a,
      s (r.ebp + -0xc) = L.thread 4, s (r.ebp + -0xc) < L.thread 4, s, d⟩ hE rfl rfl ?_
    refine Arrives.own ⟨{ r with eax := L.thread 4 }, .schedule 0x4c,
      s (r.ebp + -0xc) = L.thread 4, s (r.ebp + -0xc) < L.thread 4, s, d⟩ hE rfl
      (step_jb_not (.schedule 0x19) (.schedule 0x4c) rfl (decide_eq_false hlt)) ?_
    obtain ⟨m, hm, hpc, ⟨w', hr⟩, hd⟩ := arrives_end (r := { r with eax := L.thread 4 })
      (s (r.ebp + -0xc) = L.thread 4) (s (r.ebp + -0xc) < L.thread 4) hE ht hnext hs
    exact ⟨m, hm, hpc, ⟨w', hr⟩, hd⟩
  | succ n ih =>
    rintro i r' s zf cf hi ⟨w, rfl⟩ ht hs
    have hlt : s (r.ebp + -0xc) < L.thread 4 := ht ▸ thread_lt_end L (by omega)
    refine Arrives.own ⟨{ r with eax := L.thread 4 }, .schedule 0x47, zf, cf, s, d⟩ hE rfl rfl ?_
    refine Arrives.own ⟨{ r with eax := L.thread 4 }, .schedule 0x4a,
      s (r.ebp + -0xc) = L.thread 4, s (r.ebp + -0xc) < L.thread 4, s, d⟩ hE rfl rfl ?_
    refine Arrives.own ⟨{ r with eax := L.thread 4 }, .schedule 0x19,
      s (r.ebp + -0xc) = L.thread 4, s (r.ebp + -0xc) < L.thread 4, s, d⟩ hE rfl
      (step_jb (.schedule 0x19) (.schedule 0x4c) rfl (decide_eq_true hlt)) ?_
    refine Arrives.own ⟨{ r with eax := s (r.ebp + -0xc) }, .schedule 0x1c,
      s (r.ebp + -0xc) = L.thread 4, s (r.ebp + -0xc) < L.thread 4, s, d⟩ hE rfl rfl ?_
    refine Arrives.own ⟨{ r with eax := d (s (r.ebp + -0xc) + 0x2004) }, .schedule 0x22,
      s (r.ebp + -0xc) = L.thread 4, s (r.ebp + -0xc) < L.thread 4, s, d⟩ hE rfl rfl ?_
    refine Arrives.own ⟨{ r with eax := d (s (r.ebp + -0xc) + 0x2004) }, .schedule 0x25,
      d (s (r.ebp + -0xc) + 0x2004) = 2, d (s (r.ebp + -0xc) + 0x2004) < 2, s, d⟩ hE rfl rfl ?_
    -- the next thread of the list
    have hskip : ∀ w zf cf, L.chosen d i (n + 1) = L.chosen d (i + 1) n →
        Arrives L E ⟨{ r with eax := w }, .schedule 0x3b, zf, cf, s, d⟩
          (LoopDone (L := L) r s₀ d (L.chosen d i (n + 1))) := by
      intro w zf cf hch
      obtain ⟨zf', cf', hadd⟩ := step_add_frame (L := L) (m := ⟨{ r with eax := w }, .schedule 0x3b,
        zf, cf, s, d⟩) 0x2008 (-0xc) (.schedule 0x42) rfl
      refine Arrives.own ⟨{ r with eax := w }, .schedule 0x42, zf', cf',
        Function.update s (r.ebp + -0xc) (s (r.ebp + -0xc) + 0x2008), d⟩ hE rfl hadd ?_
      rw [hch]
      refine ih (i + 1) _ _ _ _ (by omega) ⟨w, rfl⟩ ?_ fun x hx => ?_
      · rw [Function.update_self, ht, thread_succ]
      · rw [Function.update_of_ne hx, hs x hx]
    by_cases hrun : d (s (r.ebp + -0xc) + 0x2004) = 2
    · refine Arrives.own ⟨{ r with eax := d (s (r.ebp + -0xc) + 0x2004) }, .schedule 0x27,
        d (s (r.ebp + -0xc) + 0x2004) = 2, d (s (r.ebp + -0xc) + 0x2004) < 2, s, d⟩ hE rfl
        (step_jne_not (.schedule 0x3b) (.schedule 0x27) rfl (decide_eq_true hrun)) ?_
      refine Arrives.own ⟨{ r with eax := d L.current_thread }, .schedule 0x2c,
        d (s (r.ebp + -0xc) + 0x2004) = 2, d (s (r.ebp + -0xc) + 0x2004) < 2, s, d⟩ hE rfl rfl ?_
      refine Arrives.own ⟨{ r with eax := d L.current_thread }, .schedule 0x2f,
        s (r.ebp + -0xc) = d L.current_thread, s (r.ebp + -0xc) < d L.current_thread, s, d⟩
        hE rfl rfl ?_
      by_cases hcur : s (r.ebp + -0xc) = d L.current_thread
      · refine Arrives.own ⟨{ r with eax := d L.current_thread }, .schedule 0x3b,
          s (r.ebp + -0xc) = d L.current_thread, s (r.ebp + -0xc) < d L.current_thread, s, d⟩
          hE rfl (step_je (.schedule 0x3b) (.schedule 0x31) rfl (decide_eq_true hcur)) ?_
        refine hskip _ _ _ ?_
        rw [Layout.chosen, Layout.scan, if_neg (by rw [← ht]; exact fun h => h.2 hcur)]
        rfl
      · refine Arrives.own ⟨{ r with eax := d L.current_thread }, .schedule 0x31,
          s (r.ebp + -0xc) = d L.current_thread, s (r.ebp + -0xc) < d L.current_thread, s, d⟩
          hE rfl (step_je_not (.schedule 0x3b) (.schedule 0x31) rfl (decide_eq_false hcur)) ?_
        refine Arrives.own ⟨{ r with eax := s (r.ebp + -0xc) }, .schedule 0x34,
          s (r.ebp + -0xc) = d L.current_thread, s (r.ebp + -0xc) < d L.current_thread, s, d⟩
          hE rfl rfl ?_
        refine Arrives.own ⟨{ r with eax := s (r.ebp + -0xc) }, .schedule 0x39,
          s (r.ebp + -0xc) = d L.current_thread, s (r.ebp + -0xc) < d L.current_thread, s,
          Function.update d L.next_thread (s (r.ebp + -0xc))⟩ hE rfl rfl ?_
        refine Arrives.own ⟨{ r with eax := s (r.ebp + -0xc) }, .schedule 0x4c,
          s (r.ebp + -0xc) = d L.current_thread, s (r.ebp + -0xc) < d L.current_thread, s,
          Function.update d L.next_thread (s (r.ebp + -0xc))⟩ hE rfl rfl ?_
        have hv : L.chosen d i (n + 1) = s (r.ebp + -0xc) := by
          rw [Layout.chosen, Layout.scan, if_pos (by rw [← ht]; exact ⟨hrun, hcur⟩), ht]
        have hd' : Function.update d L.next_thread (s (r.ebp + -0xc)) =
            Function.update d L.next_thread (L.chosen d i (n + 1)) := by rw [hv]
        obtain ⟨m, hm, hpc, ⟨w', hr⟩, hd⟩ := arrives_found
          (r := { r with eax := s (r.ebp + -0xc) }) (s (r.ebp + -0xc) = d L.current_thread)
          (s (r.ebp + -0xc) < d L.current_thread) hE hlt hd' hs
        exact ⟨m, hm, hpc, ⟨w', hr⟩, hd⟩
    · refine Arrives.own ⟨{ r with eax := d (s (r.ebp + -0xc) + 0x2004) }, .schedule 0x3b,
        d (s (r.ebp + -0xc) + 0x2004) = 2, d (s (r.ebp + -0xc) + 0x2004) < 2, s, d⟩ hE rfl
        (step_jne (.schedule 0x3b) (.schedule 0x27) rfl (decide_eq_false hrun)) ?_
      refine hskip _ _ _ ?_
      rw [Layout.chosen, Layout.scan, if_neg (by rw [← ht]; exact fun h => hrun h.1)]
      rfl

end Loop

/-! ### The rest of thread_schedule -/

section Tail

variable {E : Word} {r : Regs} {s d : Word → Word}

/-- `next_thread` is not null: up to the comparison with `current_thread`. -/
theorem arrives_decide (zf cf : Bool) (hE : r.esp ≠ E) (h0 : d L.next_thread ≠ 0) :
    Arrives L E ⟨r, .schedule 0x70, zf, cf, s, d⟩ fun m => ∃ cf,
      m = ⟨{ r with eax := d L.next_thread, edx := d L.current_thread }, .schedule 0x9d,
        d L.current_thread = d L.next_thread, cf, s, d⟩ := by
  have hand : (d L.next_thread &&& d L.next_thread) ≠ 0 := by rwa [BitVec.and_self]
  refine Arrives.own ⟨{ r with eax := d L.next_thread }, .schedule 0x75, zf, cf, s, d⟩
    hE rfl rfl ?_
  refine Arrives.own ⟨{ r with eax := d L.next_thread }, .schedule 0x77,
    d L.next_thread &&& d L.next_thread = 0, false, s, d⟩ hE rfl rfl ?_
  refine Arrives.own ⟨{ r with eax := d L.next_thread }, .schedule 0x90,
    d L.next_thread &&& d L.next_thread = 0, false, s, d⟩ hE rfl
    (step_jne (.schedule 0x90) (.schedule 0x79) rfl (decide_eq_false hand)) ?_
  refine Arrives.own ⟨{ r with eax := d L.next_thread, edx := d L.current_thread },
    .schedule 0x96, d L.next_thread &&& d L.next_thread = 0, false, s, d⟩ hE rfl rfl ?_
  refine Arrives.own ⟨{ r with eax := d L.next_thread, edx := d L.current_thread },
    .schedule 0x9b, d L.next_thread &&& d L.next_thread = 0, false, s, d⟩ hE rfl rfl ?_
  refine Arrives.own ⟨{ r with eax := d L.next_thread, edx := d L.current_thread },
    .schedule 0x9d, d L.current_thread = d L.next_thread, d L.current_thread < d L.next_thread,
    s, d⟩ hE rfl rfl ?_
  exact Arrives.here ⟨_, rfl⟩

/-- `next_thread` is null: the call of `printf`, which is followed by `exit`. -/
theorem arrives_exit (zf cf : Bool) (hE : ∀ k : Word, k ≤ 0x24 → r.esp - k ≠ E)
    (h0 : d L.next_thread = 0) :
    Arrives L E ⟨r, .schedule 0x70, zf, cf, s, d⟩ fun m =>
      m.pc = .elsewhere L.printf ∧ m.regs.esp ≠ E := by
  have hesp : r.esp ≠ E := by simpa using hE 0 (by decide)
  have h8 := hE 0x8 (by decide)
  have hc : r.esp - 8 - 4 ≠ E := by
    rw [show r.esp - 8 - 4 = r.esp - 0xc by bv_omega]
    exact hE 0xc (by decide)
  have h10 : r.esp - 8 - 4 - 4 ≠ E := by
    rw [show r.esp - 8 - 4 - 4 = r.esp - 0x10 by bv_omega]
    exact hE 0x10 (by decide)
  have h14 : r.esp - 8 - 4 - 4 - 4 ≠ E := by
    rw [show r.esp - 8 - 4 - 4 - 4 = r.esp - 0x14 by bv_omega]
    exact hE 0x14 (by decide)
  have hand : (d L.next_thread &&& d L.next_thread) = 0 := by rwa [BitVec.and_self]
  refine Arrives.own ⟨{ r with eax := d L.next_thread }, .schedule 0x75, zf, cf, s, d⟩
    hesp rfl rfl ?_
  refine Arrives.own ⟨{ r with eax := d L.next_thread }, .schedule 0x77,
    d L.next_thread &&& d L.next_thread = 0, false, s, d⟩ hesp rfl rfl ?_
  refine Arrives.own ⟨{ r with eax := d L.next_thread }, .schedule 0x79,
    d L.next_thread &&& d L.next_thread = 0, false, s, d⟩ hesp rfl
    (step_jne_not (.schedule 0x90) (.schedule 0x79) rfl (decide_eq_true hand)) ?_
  obtain ⟨zf', cf', hsub⟩ := step_sub_esp (L := L) (m := ⟨{ r with eax := d L.next_thread },
    .schedule 0x79, d L.next_thread &&& d L.next_thread = 0, false, s, d⟩) 8 (.schedule 0x7c) rfl
  refine Arrives.own ⟨{ r with eax := d L.next_thread, esp := r.esp - 8 }, .schedule 0x7c, zf',
    cf', s, d⟩ hesp rfl hsub ?_
  refine Arrives.own ⟨{ r with eax := d L.next_thread, esp := r.esp - 8 - 4 }, .schedule 0x81, zf',
    cf', Function.update s (r.esp - 8 - 4) L.message, d⟩ h8 rfl rfl ?_
  refine Arrives.own ⟨{ r with eax := d L.next_thread, esp := r.esp - 8 - 4 - 4 }, .schedule 0x83,
    zf', cf', Function.update (Function.update s (r.esp - 8 - 4) L.message)
      (r.esp - 8 - 4 - 4) 2, d⟩ hc rfl rfl ?_
  refine Arrives.own ⟨{ r with eax := d L.next_thread, esp := r.esp - 8 - 4 - 4 - 4 },
    .elsewhere L.printf, zf', cf', Function.update (Function.update (Function.update s
      (r.esp - 8 - 4) L.message) (r.esp - 8 - 4 - 4) 2) (r.esp - 8 - 4 - 4 - 4)
      (L.encode (.schedule 0x88)), d⟩ h10 rfl rfl ?_
  exact Arrives.here ⟨rfl, h14⟩

/-- From the `nop` after the two cases to the `ret`: the frame is taken down. -/
theorem arrives_leave (zf cf : Bool) (hE : r.esp ≠ E) (hebp : r.ebp = E - 4) :
    Arrives L E ⟨r, .schedule 0xbf, zf, cf, s, d⟩ fun m =>
      m.pc = .schedule 0xc1 ∧ m.regs = { r with ebp := s (E - 4), esp := E } ∧ m.stack = s := by
  refine Arrives.own ⟨r, .schedule 0xc0, zf, cf, s, d⟩ hE rfl rfl ?_
  refine Arrives.own ⟨{ r with ebp := s r.ebp, esp := r.ebp + 4 }, .schedule 0xc1, zf, cf, s, d⟩
    hE rfl rfl ?_
  refine Arrives.here ⟨rfl, ?_, rfl⟩
  simp only [hebp, BitVec.sub_add_cancel]

/-- The chosen thread is the current one: it goes on. -/
theorem arrives_stay (zf cf : Bool) (hE : r.esp ≠ E) (h0 : d L.next_thread ≠ 0)
    (hcur : d L.current_thread = d L.next_thread) :
    Arrives L E ⟨r, .schedule 0x70, zf, cf, s, d⟩ fun m =>
      m.pc = .schedule 0xbf ∧ m.regs = { r with eax := d L.next_thread, edx := d L.current_thread } ∧
        m.stack = s := by
  refine (arrives_decide zf cf hE h0).bind ?_
  rintro _ ⟨cf', rfl⟩
  refine Arrives.own ⟨{ r with eax := d L.next_thread, edx := d L.current_thread },
    .schedule 0xb5, d L.current_thread = d L.next_thread, cf', s, d⟩ hE rfl
    (step_je (.schedule 0xb5) (.schedule 0x9f) rfl (decide_eq_true hcur)) ?_
  refine Arrives.own ⟨{ r with eax := d L.next_thread, edx := d L.current_thread },
    .schedule 0xbf, d L.current_thread = d L.next_thread, cf', s,
    Function.update d L.next_thread 0⟩ hE rfl rfl ?_
  exact Arrives.here ⟨rfl, rfl, rfl⟩

/-- Another thread is chosen: the call of `thread_switch`, up to the switch of stacks. -/
theorem arrives_call (zf cf : Bool) (hE : ∀ k : Word, k ≤ 0x24 → r.esp - k ≠ E)
    (h0 : d L.next_thread ≠ 0) (hcur : d L.current_thread ≠ d L.next_thread) :
    Arrives L E ⟨r, .schedule 0x70, zf, cf, s, d⟩ fun m =>
      m.pc = .switch 0 ∧
        m.regs = { r with
          eax := d L.next_thread, edx := d L.current_thread, esp := r.esp - 4 } ∧
        m.stack = Function.update s (r.esp - 4) (L.encode (.schedule 0xb3)) := by
  have hesp : r.esp ≠ E := by simpa using hE 0 (by decide)
  have hcall : ∀ zf cf d', Arrives L E ⟨{ r with
      eax := d L.next_thread, edx := d L.current_thread }, .schedule 0xae, zf, cf, s, d'⟩ fun m =>
      m.pc = .switch 0 ∧
        m.regs = { r with
          eax := d L.next_thread, edx := d L.current_thread, esp := r.esp - 4 } ∧
        m.stack = Function.update s (r.esp - 4) (L.encode (.schedule 0xb3)) :=
    fun zf cf d' => Arrives.own _ hesp rfl (step_call (.switch 0) (.schedule 0xb3) rfl)
      (Arrives.here ⟨rfl, rfl, rfl⟩)
  refine (arrives_decide zf cf hesp h0).bind ?_
  rintro _ ⟨cf', rfl⟩
  refine Arrives.own ⟨{ r with eax := d L.next_thread, edx := d L.current_thread },
    .schedule 0x9f, d L.current_thread = d L.next_thread, cf', s, d⟩ hesp rfl
    (step_je_not (.schedule 0xb5) (.schedule 0x9f) rfl (decide_eq_false hcur)) ?_
  refine Arrives.own ⟨{ r with eax := d L.next_thread, edx := d L.current_thread },
    .schedule 0xa4, d L.current_thread = d L.next_thread, cf', s, d⟩ hesp rfl rfl ?_
  exact Arrives.own _ hesp rfl (step_store 1 0x2004 .eax (.schedule 0xae) rfl) (hcall _ _ _)

end Tail

/-! ### thread_switch -/

section Switch

variable {E : Word} {r : Regs} {s d : Word → Word}

/-- The registers are saved and the stack pointer stored, up to the switch of stacks. -/
theorem arrives_save (zf cf : Bool) (hE : r.esp ≠ E) (hE' : r.esp - 32 ≠ E) :
    Arrives L E ⟨r, .switch 0, zf, cf, s, d⟩ fun m =>
      m.pc = .switch 0x0d ∧ m.regs.esp = r.esp - 32 ∧
        m.stack = (Machine.pusha ⟨r, Loc.switch 0, zf, cf, s, d⟩).stack := by
  refine Arrives.own ((Machine.pusha ⟨r, Loc.switch 0, zf, cf, s, d⟩).goto (.switch 1))
    hE rfl rfl ?_
  refine Arrives.own _ hE' rfl rfl ?_
  refine Arrives.own _ hE' rfl rfl ?_
  refine Arrives.own _ hE' rfl rfl ?_
  exact Arrives.here ⟨rfl, rfl, rfl⟩

theorem decode_encode_schedule {o : ℕ} (ho : o < 0xc2) :
    L.decode (L.encode (.schedule o)) = .schedule o := by
  have h : (L.encode (.schedule o) - L.thread_schedule).toNat = o := by
    simp only [Layout.encode, add_sub_cancel_left, BitVec.toNat_ofNat]
    omega
  rw [Layout.decode, h, if_pos ho]

/-- Back on its stack the thread reloads its registers and returns to `thread_schedule`. -/
theorem arrives_back (m m' : Machine Loc) (hpc : m'.pc = .switch 0x0f)
    (hesp : m'.regs.esp = m.pusha.regs.esp) (hstack : m'.stack = m.pusha.stack)
    (hE : m.regs.esp ≠ E) (hE' : m.regs.esp - 32 ≠ E) (hE4 : m.regs.esp + 4 ≠ E)
    (hret : m.stack m.regs.esp = L.encode (.schedule 0xb3)) :
    Arrives L E m' fun x =>
      x.pc = .schedule 0xbf ∧ x.regs = { m.regs with esp := m.regs.esp + 4 } ∧
        x.stack = m.pusha.stack := by
  obtain ⟨r', pc, zf, cf, s', d'⟩ := m'
  obtain rfl : pc = .switch 0x0f := hpc
  obtain rfl : s' = m.pusha.stack := hstack
  have hQ : r'.esp ≠ E := fun h => hE' (hesp.symm.trans h)
  have hpop := popa_pusha m (⟨r', .switch 0x14, zf, cf, m.pusha.stack,
    Function.update d' L.current_thread r'.eax⟩ : Machine Loc) hesp rfl
  refine Arrives.own ⟨r', .switch 0x14, zf, cf, m.pusha.stack,
    Function.update d' L.current_thread r'.eax⟩ hQ rfl rfl ?_
  refine Arrives.own ⟨m.regs, .switch 0x15, zf, cf, m.pusha.stack,
    Function.update d' L.current_thread r'.eax⟩ hQ rfl ?_ ?_
  · rw [← hpop]
    rfl
  refine Arrives.own ⟨m.regs, .switch 0x1f, zf, cf, m.pusha.stack, Function.update
    (Function.update d' L.current_thread r'.eax) L.next_thread 0⟩ hE rfl rfl ?_
  refine Arrives.own ⟨{ m.regs with esp := m.regs.esp + 4 }, .schedule 0xb3, zf, cf,
    m.pusha.stack, Function.update
    (Function.update d' L.current_thread r'.eax) L.next_thread 0⟩ hE rfl
    (step_ret (.schedule 0xb3) (.switch 0x20) rfl ?_) ?_
  · have hother := pusha_stack_other m (x := m.regs.esp) fun k hk _ => by bv_omega
    rw [← decode_encode_schedule (L := L) (o := 0xb3) (by decide), ← hret, ← hother]
  refine Arrives.own ⟨{ m.regs with esp := m.regs.esp + 4 }, .schedule 0xbf, zf, cf,
    m.pusha.stack, Function.update
    (Function.update d' L.current_thread r'.eax) L.next_thread 0⟩ hE4 rfl rfl ?_
  exact Arrives.here ⟨rfl, rfl, rfl⟩

end Switch

/-! ### The whole call -/

section Call

variable {E : Word} {m : Machine Loc} {P P' : Machine Loc → Prop}

/-- The thread can come to a state in `P`, and is busy until then. -/
def Ends (L : Layout) (E : Word) (P : Machine Loc → Prop) (m : Machine Loc) : Prop :=
  (∃ x, Relation.ReflTransGen L.Within m x ∧ P x) ∧
    ∀ x, Relation.ReflTransGen L.Within m x → Busy E x ∨ P x

theorem Arrives.ends (h : Arrives L E m P') (hnext : ∀ x, P' x → Ends L E P x) : Ends L E P m := by
  obtain ⟨m', hpath, hP'⟩ := h
  obtain ⟨⟨y, hy, hP⟩, hall⟩ := hnext m' hP'
  refine ⟨⟨y, hpath.reaches.trans hy, hP⟩, fun x hx => ?_⟩
  exact (hpath.meets hx).elim Or.inl (hall x)

theorem within_ret (hpc : m.pc = .schedule 0xc1) {x : Machine Loc}
    (h : Relation.ReflTransGen L.Within m x) : x = m := by
  rcases h.cases_head with rfl | ⟨y, hy, -⟩
  · rfl
  · exact absurd hpc hy.1

theorem ends_ret (hpc : m.pc = .schedule 0xc1) (hP : P m) : Ends L E P m :=
  ⟨⟨m, .refl, hP⟩, fun _ hx => Or.inr (within_ret hpc hx ▸ hP)⟩

/-- At the switch of stacks: the thread goes on when it is back. -/
theorem ends_switch (hpc : m.pc = .switch 0x0d) (hE : m.regs.esp ≠ E)
    (hnext : ∀ m' : Machine Loc, m'.pc = .switch 0x0f → m'.regs.esp = m.regs.esp →
      m'.stack = m.stack → Ends L E P m') : Ends L E P m := by
  have hwithin : ∀ m', L.Within m m' ↔
      m'.pc = .switch 0x0f ∧ m'.regs.esp = m.regs.esp ∧ m'.stack = m.stack := by
    intro m'
    simp [Layout.Within, Layout.ThreadStep, hpc]
  refine ⟨?_, fun x hx => ?_⟩
  · obtain ⟨⟨x, hx, hP⟩, -⟩ := hnext { m with pc := .switch 0x0f } rfl rfl rfl
    exact ⟨x, .head ((hwithin { m with pc := .switch 0x0f }).mpr ⟨rfl, rfl, rfl⟩) hx, hP⟩
  · rcases hx.cases_head with rfl | ⟨y, hy, hyx⟩
    · exact Or.inl ⟨hE, by simp [hpc]⟩
    · obtain ⟨h₁, h₂, h₃⟩ := (hwithin y).mp hy
      exact (hnext y h₁ h₂ h₃).2 x hyx

/-- A call of `thread_switch` is a detour: the thread comes back to the end of `thread_schedule` with
    its registers, and has written 32 bytes below its stack pointer. -/
theorem ends_detour (hpc : m.pc = .switch 0)
    (hret : m.stack m.regs.esp = L.encode (.schedule 0xb3)) (hE : m.regs.esp ≠ E)
    (hE' : m.regs.esp - 32 ≠ E) (hE4 : m.regs.esp + 4 ≠ E)
    (hnext : ∀ x : Machine Loc, x.pc = .schedule 0xbf →
      x.regs = { m.regs with esp := m.regs.esp + 4 } →
      (∀ y, (∀ k, 0 < k → k ≤ 32 → y ≠ m.regs.esp - k) → x.stack y = m.stack y) →
      Ends L E P x) : Ends L E P m := by
  obtain ⟨r, pc, zf, cf, s, d⟩ := m
  obtain rfl : pc = .switch 0 := hpc
  refine (arrives_save zf cf hE hE').ends fun x ⟨hxpc, hxesp, hxs⟩ => ?_
  refine ends_switch hxpc (fun h => hE' (hxesp.symm.trans h)) fun y hypc hyesp hys => ?_
  refine (arrives_back ⟨r, .switch 0, zf, cf, s, d⟩ y hypc (hyesp.trans hxesp) (hys.trans hxs) hE
    hE' hE4 hret).ends fun z ⟨hzpc, hzr, hzs⟩ => ?_
  exact hnext z hzpc hzr fun y hy => (congrFun hzs y).trans (pusha_stack_other _ hy)

/-- At the `ret` of a call that began in `a`: `%eax` and `%edx` aside, everything is as it was. -/
structure AtRet (L : Layout) (a m : Machine Loc) : Prop where
  pc : m.pc = .schedule 0xc1
  regs : m.regs = { a.regs with eax := L.chooseNext a.data, edx := a.data L.current_thread }
  stack : ∀ x, a.regs.esp ≤ x → x < KERNBASE → m.stack x = a.stack x

theorem AtRet.eax {a m : Machine Loc} (h : AtRet L a m) :
    m.regs.eax = L.chooseNext a.data := by
  rw [h.regs]

theorem AtRet.edx {a m : Machine Loc} (h : AtRet L a m) :
    m.regs.edx = a.data L.current_thread := by
  rw [h.regs]

theorem above_ne {x k : Word} (hx : E ≤ x) (hlt : x < KERNBASE) (h0 : 0 < k) (hk : k ≤ 0x40) :
    x ≠ E - k := by
  have : KERNBASE = 0x80000000 := rfl
  bv_omega

/-- From its first instruction the call comes to the test of `next_thread`, or is stuck there. -/
theorem arrives_test {a : Machine Loc} (m₁ : Machine Loc) (ha : a.pc = .schedule 0)
    (hstep : a.step L.image = some m₁) : Arrives L a.regs.esp m₁ (LoopDone (L := L)
      { a.regs with esp := a.regs.esp - 4 - 0x18, ebp := a.regs.esp - 4 }
      (Function.update a.stack (a.regs.esp - 4) a.regs.ebp) (L.cleared a.data)
      (L.chooseNext a.data)) := by
  obtain ⟨r, pc, zf, cf, s, d⟩ := a
  obtain rfl : pc = .schedule 0 := ha
  obtain rfl : m₁ = ⟨{ r with esp := r.esp - 4 }, .schedule 1, zf, cf,
    Function.update s (r.esp - 4) r.ebp, d⟩ := Option.some.inj (hstep.symm.trans rfl)
  have h4 : r.esp - 4 ≠ r.esp := sub_ne_self (by decide)
  have h1c : r.esp - 4 - 0x18 ≠ r.esp := by bv_omega
  refine Arrives.own ⟨{ r with esp := r.esp - 4, ebp := r.esp - 4 }, .schedule 3, zf, cf,
    Function.update s (r.esp - 4) r.ebp, d⟩ h4 rfl rfl ?_
  obtain ⟨zf', cf', hsub⟩ := step_sub_esp (L := L) (m := ⟨{ r with
    esp := r.esp - 4, ebp := r.esp - 4 }, .schedule 3, zf, cf,
    Function.update s (r.esp - 4) r.ebp, d⟩) 0x18 (.schedule 6) rfl
  refine Arrives.own ⟨{ r with esp := r.esp - 4 - 0x18, ebp := r.esp - 4 }, .schedule 6, zf', cf',
    Function.update s (r.esp - 4) r.ebp, d⟩ h4 rfl hsub ?_
  refine Arrives.own ⟨{ r with esp := r.esp - 4 - 0x18, ebp := r.esp - 4 }, .schedule 0x10, zf',
    cf', Function.update s (r.esp - 4) r.ebp, L.cleared d⟩ h1c rfl rfl ?_
  have henter : ∀ zf cf s', s' (r.esp - 4 + -0xc) = L.thread 0 →
      (∀ x, x ≠ r.esp - 4 + -0xc → s' x = Function.update s (r.esp - 4) r.ebp x) →
      Arrives L r.esp ⟨{ r with esp := r.esp - 4 - 0x18, ebp := r.esp - 4 }, .schedule 0x17, zf, cf,
        s', L.cleared d⟩ (LoopDone (L := L) { r with esp := r.esp - 4 - 0x18, ebp := r.esp - 4 }
          (Function.update s (r.esp - 4) r.ebp) (L.cleared d) (L.chooseNext d)) := by
    intro zf cf s' h0 hs
    refine Arrives.own ⟨{ r with esp := r.esp - 4 - 0x18, ebp := r.esp - 4 }, .schedule 0x42, zf,
      cf, s', L.cleared d⟩ h1c rfl rfl ?_
    exact arrives_loop (r := { r with esp := r.esp - 4 - 0x18, ebp := r.esp - 4 }) h1c
      (Function.update_self ..) 4 0 _ _ _ _ rfl ⟨_, rfl⟩ h0 hs
  exact Arrives.own _ h1c rfl (step_mov_frame (L.thread 0) (-0xc) (.schedule 0x17) rfl)
    (henter _ _ _ (Function.update_self ..) fun x hx => Function.update_of_ne hx ..)

/-- What the stack holds at the test of `next_thread`: the frame pointer of the caller, and above
    it what was there before. -/
theorem stack_at_test {S s : Word → Word} {b : Word}
    (hs : ∀ x, x ≠ E - 4 + -0xc → s x = Function.update S (E - 4) b x) :
    s (E - 4) = b ∧ ∀ x, E ≤ x → x < KERNBASE → s x = S x := by
  have hslot : E - 4 + -0xc = E - 0x10 := by bv_omega
  constructor
  · rw [hs _ (by rw [hslot]; exact sub_ne (by decide)), Function.update_self]
  · intro x hx hlt
    rw [hs x (by rw [hslot]; exact above_ne hx hlt (by decide) (by decide)),
      Function.update_of_ne (above_ne hx hlt (by decide) (by decide))]

/-- A chosen thread: the call comes to its `ret`, directly or by way of a switch and back. -/
theorem ends_call {a : Machine Loc} (hv : L.chooseNext a.data ≠ 0)
    (hm : LoopDone (L := L) { a.regs with esp := a.regs.esp - 4 - 0x18, ebp := a.regs.esp - 4 }
      (Function.update a.stack (a.regs.esp - 4) a.regs.ebp) (L.cleared a.data)
      (L.chooseNext a.data) m) : Ends L a.regs.esp (AtRet L a) m := by
  obtain ⟨r, pc, zf, cf, s, d⟩ := m
  obtain ⟨hpc, ⟨w, hr⟩, hd, hs⟩ := hm
  obtain rfl : pc = .schedule 0x70 := hpc
  obtain rfl : r = { a.regs with
    eax := w, esp := a.regs.esp - 4 - 0x18, ebp := a.regs.esp - 4 } := hr
  obtain ⟨hframe, habove⟩ := stack_at_test hs
  have hnext : d L.next_thread = L.chooseNext a.data := by
    rw [show d = _ from hd, Function.update_self]
  have hcur : d L.current_thread = a.data L.current_thread := by
    rw [show d = _ from hd, Function.update_of_ne L.distinct, Layout.cleared,
      Function.update_of_ne L.distinct]
  have hE : ∀ k : Word, k ≤ 0x24 → a.regs.esp - 4 - 0x18 - k ≠ a.regs.esp := by
    intro k hk
    bv_omega
  have hE0 : a.regs.esp - 4 - 0x18 ≠ a.regs.esp := by simpa using hE 0 (by decide)
  -- the last three instructions, on a stack that still holds the frame
  have hleave : ∀ x : Machine Loc, x.pc = .schedule 0xbf →
      x.regs = { a.regs with
        eax := d L.next_thread, edx := d L.current_thread
        esp := a.regs.esp - 4 - 0x18, ebp := a.regs.esp - 4 } →
      x.stack (a.regs.esp - 4) = a.regs.ebp →
      (∀ y, a.regs.esp ≤ y → y < KERNBASE → x.stack y = a.stack y) →
      Ends L a.regs.esp (AtRet L a) x := by
    rintro ⟨r, pc, zf, cf, s, d'⟩ hpc hr hframe habove
    obtain rfl : pc = .schedule 0xbf := hpc
    obtain rfl : r = { a.regs with
      eax := d L.next_thread, edx := d L.current_thread
      esp := a.regs.esp - 4 - 0x18, ebp := a.regs.esp - 4 } := hr
    refine (arrives_leave zf cf hE0 rfl).ends fun x ⟨hpc, hr, hs⟩ => ?_
    refine ends_ret hpc ⟨hpc, ?_, fun y hy hlt => ?_⟩
    · rw [hr, show s (a.regs.esp - 4) = a.regs.ebp from hframe, hnext, hcur]
    · rw [hs]
      exact habove y hy hlt
  by_cases hsame : d L.current_thread = d L.next_thread
  · refine (arrives_stay zf cf hE0 (hnext ▸ hv) hsame).ends fun x ⟨hpc, hr, hs⟩ => ?_
    exact hleave x hpc hr (hs ▸ hframe) (hs ▸ habove)
  · refine (arrives_call zf cf hE (hnext ▸ hv) hsame).ends ?_
    rintro x ⟨hpc, hr, hxs⟩
    have hesp : x.regs.esp = a.regs.esp - 4 - 0x18 - 4 := congrArg Regs.esp hr
    have hE32 : x.regs.esp - 32 ≠ a.regs.esp := by
      rw [hesp, show a.regs.esp - 4 - 0x18 - 4 - 32 = a.regs.esp - 4 - 0x18 - 0x24 by bv_omega]
      exact hE 0x24 (by decide)
    have hback : x.regs.esp + 4 = a.regs.esp - 4 - 0x18 := by rw [hesp, BitVec.sub_add_cancel]
    refine ends_detour hpc (by rw [hxs, hesp]; exact Function.update_self ..)
      (by rw [hesp]; exact hE 4 (by decide)) hE32 (by rw [hback]; exact hE0) fun z hzpc hzr hzs => ?_
    have hkeep : ∀ y, (∀ k, 0 < k → k ≤ 0x24 → y ≠ a.regs.esp - 4 - 0x18 - k) →
        z.stack y = s y := by
      intro y hy
      rw [hzs y fun k hk hk' he => hy (4 + k) (by bv_omega) (by bv_omega) (by bv_omega), hxs]
      exact Function.update_of_ne (hy 4 (by decide) (by decide)) ..
    refine hleave z hzpc ?_ ?_ fun y hy hlt => ?_
    · rw [hzr, hback, hr]
    · rw [hkeep _ fun k hk hk' => by bv_omega]
      exact hframe
    · rw [hkeep y fun k hk hk' he => above_ne (k := 0x1c + k) hy hlt (by bv_omega) (by bv_omega)
        (by bv_omega)]
      exact habove y hy hlt

/-- No thread to run: the call does not come back. -/
theorem exits_call {a : Machine Loc} (hv : L.chooseNext a.data = 0)
    (hm : LoopDone (L := L) { a.regs with esp := a.regs.esp - 4 - 0x18, ebp := a.regs.esp - 4 }
      (Function.update a.stack (a.regs.esp - 4) a.regs.ebp) (L.cleared a.data)
      (L.chooseNext a.data) m) {x : Machine Loc} (hx : Relation.ReflTransGen L.Within m x) :
    Busy a.regs.esp x := by
  obtain ⟨r, pc, zf, cf, s, d⟩ := m
  obtain ⟨hpc, ⟨w, hr⟩, hd, -⟩ := hm
  obtain rfl : pc = .schedule 0x70 := hpc
  subst hr
  have hnext : d L.next_thread = 0 := by
    rw [show d = _ from hd, Function.update_self, hv]
  have hE : ∀ k : Word, k ≤ 0x24 → a.regs.esp - 4 - 0x18 - k ≠ a.regs.esp := by
    intro k hk
    bv_omega
  obtain ⟨m', hpath, hpc, hesp⟩ := arrives_exit (r := { a.regs with
    eax := w, esp := a.regs.esp - 4 - 0x18, ebp := a.regs.esp - 4 }) (s := s) zf cf hE hnext
  rcases hpath.meets hx with h | h
  · exact h
  · rcases h.cases_head with rfl | ⟨y, hy, -⟩
    · exact ⟨hesp, by simp [hpc]⟩
    · have hstuck : m'.step L.image = none := by
        rw [Machine.step, hpc]
        rfl
      rw [within_plain (by rw [hpc]; rfl), hstuck] at hy
      exact absurd hy (by simp)

/-- The states a thread passes through from the first instruction of `thread_schedule` on: the
    first one, the body of the call, and the `ret`, if a thread was chosen. -/
theorem call_states {a : Machine Loc} (ha : a.pc = .schedule 0) {x : Machine Loc}
    (hx : Relation.ReflTransGen L.Within a x) :
    x = a ∨ Busy a.regs.esp x ∨ (L.chooseNext a.data ≠ 0 ∧ AtRet L a x) := by
  rcases hx.cases_head with rfl | ⟨m₁, h₁, hx⟩
  · exact Or.inl rfl
  · have hstep : a.step L.image = some m₁ := (within_plain (by rw [ha]; rfl) m₁).mp h₁
    obtain ⟨m, hpath, hm⟩ := arrives_test m₁ ha hstep
    refine Or.inr ?_
    rcases hpath.meets hx with h | h
    · exact Or.inl h
    · by_cases hv : L.chooseNext a.data = 0
      · exact Or.inl (exits_call hv hm h)
      · exact ((ends_call hv hm).2 x h).imp_right fun hr => ⟨hv, hr⟩

/-- If a thread is chosen, the call can come to its `ret`. -/
theorem call_returns {a : Machine Loc} (ha : a.pc = .schedule 0) (hv : L.chooseNext a.data ≠ 0) :
    ∃ x, Relation.ReflTransGen L.Within a x ∧ AtRet L a x := by
  obtain ⟨m₁, hstep⟩ : ∃ m₁, a.step L.image = some m₁ := by
    rw [Machine.step, ha]
    exact ⟨_, rfl⟩
  obtain ⟨m, hpath, hm⟩ := arrives_test m₁ ha hstep
  obtain ⟨x, hx, hr⟩ := (ends_call hv hm).1
  exact ⟨x, .head ((within_plain (by rw [ha]; rfl) m₁).mpr hstep) (hpath.reaches.trans hx), hr⟩

end Call

end Xv6.Uthread
