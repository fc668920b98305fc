import Mathlib.Logic.Function.Basic
import Xv6.Schemes.Program
import Xv6.Schemes.Run

/-! @scheme threads | name:Programs that run together | family:program logic

    Each thread has a program, and they do their operations in any order on one state. `Passes` is a
    run of a program alone, by operations of one kind; a relation between states that these operations
    respect is respected by the run. -/

namespace Xv6.Schemes

/-- The state, and what each thread has still to do. -/
structure Threads (Op : Type) (Ans : Op → Type) (σ τ : Type) where
  state : σ
  prog : τ → Prog Op Ans Unit

section

variable {Op : Type} {Ans : Op → Type} {σ τ α β : Type}

/-- Thread `p` does one operation; `none` if it has none or cannot. -/
def Threads.next [DecidableEq τ] (act : τ → Machine Op Ans σ) (w : Threads Op Ans σ τ) (p : τ) :
    Option (Threads Op Ans σ τ) :=
  match w.prog p with
  | .ret _ => none
  | .op o k =>
    match act p o w.state with
    | .ok r => some ⟨r.2, Function.update w.prog p (k r.1)⟩
    | .error _ => none

def Threads.Step [DecidableEq τ] (act : τ → Machine Op Ans σ) (w : Threads Op Ans σ τ) (p : τ)
    (v : Threads Op Ans σ τ) : Prop := w.next act p = some v

/-- The operation that thread `p` is at stops the system. -/
def Threads.Panics (act : τ → Machine Op Ans σ) (w : Threads Op Ans σ τ) (p : τ) : Prop :=
  match w.prog p with
  | .ret _ => False
  | .op o _ => ∃ msg, act p o w.state = .error (.panic msg)

/-- The thread has nothing left to do. -/
def Prog.Returned : Prog Op Ans α → Prop
  | .ret _ => True
  | .op _ _ => False

namespace Prog

/-- Whatever the answers, the program does operations of `P` only. -/
def Only (P : Op → Prop) : Prog Op Ans α → Prop
  | .ret _ => True
  | .op o k => P o ∧ ∀ a, (k a).Only P

variable {P : Op → Prop} {m : Prog Op Ans α} {f : α → Prog Op Ans β}

theorem Only.pure (a : α) : Only P (Pure.pure a : Prog Op Ans α) := trivial

theorem Only.perform {o : Op} (h : P o) : Only P (Prog.perform o : Prog Op Ans (Ans o)) :=
  ⟨h, fun _ => trivial⟩

theorem Only.bind (hm : m.Only P) (hf : ∀ a, (f a).Only P) : (m >>= f).Only P := by
  rw [Prog.bind_def]
  induction m with
  | ret a => exact hf a
  | op o k ih => exact ⟨hm.1, fun a => ih a (hm.2 a)⟩

theorem Only.perform_bind {o : Op} {f : Ans o → Prog Op Ans β} (h : P o)
    (hf : ∀ a, (f a).Only P) : (Prog.perform o >>= f).Only P :=
  .bind (.perform h) hf

end Prog

/-- Alone, the program goes from `s` to `t` and returns `a`, with operations of `P`. -/
inductive Passes (M : Machine Op Ans σ) (P : Op → Prop) : σ → Prog Op Ans α → α → σ → Prop
  | ret (a : α) (s : σ) : Passes M P s (.ret a) a s
  | op {o : Op} {k : Ans o → Prog Op Ans α} {b : Ans o} {s t u : σ} {a : α} (ho : P o)
      (h : M o s = .ok (b, t)) (hk : Passes M P t (k b) a u) : Passes M P s (.op o k) a u

variable {M : Machine Op Ans σ} {P : Op → Prop} {m : Prog Op Ans α} {f : α → Prog Op Ans β}
  {s t u : σ} {a : α} {b : β}

theorem Passes.bind (h : Passes M P s m a t) (hf : Passes M P t (f a) b u) :
    Passes M P s (m >>= f) b u := by
  rw [Prog.bind_def]
  induction h with
  | ret a s => exact hf
  | op ho h hk ih => exact .op ho h (ih hf)

/-- One operation, and what comes after it. -/
theorem Passes.perform_bind {o : Op} {f : Ans o → Prog Op Ans β} {a : Ans o} (ho : P o)
    (h : M o s = .ok (a, t)) (hf : Passes M P t (f a) b u) :
    Passes M P s (Prog.perform o >>= f) b u :=
  .op ho h hf

theorem Passes.of_only (hm : m.Only P) (h : m.run M s = .ok (a, t)) : Passes M P s m a t := by
  induction m generalizing s with
  | ret a =>
    cases h
    exact .ret _ _
  | op o k ih =>
    rw [Prog.run] at h
    cases ho : M o s with
    | error e =>
      rw [ho] at h
      cases h
    | ok r =>
      rw [ho] at h
      exact .op hm.1 ho (ih r.1 (hm.2 r.1) h)

/-- A run that has come to an end has come to the end of its first part. -/
theorem run_bind_ok (h : (m >>= f).run M s = .ok (b, u)) :
    ∃ a t, m.run M s = .ok (a, t) ∧ (f a).run M t = .ok (b, u) := by
  rw [run_bind] at h
  cases hm : m.run M s with
  | error e =>
    rw [hm] at h
    cases h
  | ok r =>
    rw [hm] at h
    exact ⟨r.1, r.2, rfl, h⟩

/-- A step is an operation of the thread's program. -/
theorem Threads.step_cases [DecidableEq τ] {act : τ → Machine Op Ans σ} {w v : Threads Op Ans σ τ}
    {p : τ} (h : w.Step act p v) : ∃ o k a s, w.prog p = .op o k ∧ act p o w.state = .ok (a, s) ∧
      v = ⟨s, Function.update w.prog p (k a)⟩ := by
  unfold Threads.Step Threads.next at h
  cases hp : w.prog p with
  | ret a =>
    rw [hp] at h
    cases h
  | op o k =>
    rw [hp] at h
    dsimp only at h
    cases ha : act p o w.state with
    | error e =>
      rw [ha] at h
      cases h
    | ok r =>
      rw [ha] at h
      exact ⟨o, k, r.1, r.2, rfl, ha, (Option.some.inj h).symm⟩

theorem Threads.step_of_act [DecidableEq τ] {act : τ → Machine Op Ans σ} {w : Threads Op Ans σ τ}
    {p : τ} {o : Op} {k : Ans o → Prog Op Ans Unit} {r : Ans o × σ} (hp : w.prog p = .op o k)
    (h : act p o w.state = .ok r) :
    w.Step act p ⟨r.2, Function.update w.prog p (k r.1)⟩ := by
  unfold Threads.Step Threads.next
  rw [hp]
  dsimp only
  rw [h]

/-- One thread may do all that it has to before any other does anything. -/
theorem Threads.run_alone [DecidableEq τ] {act : τ → Machine Op Ans σ} {p : τ}
    {c : Prog Op Ans Unit} {prog : τ → Prog Op Ans Unit} (hp : prog p = c)
    (h : c.run (act p) s = .ok ((), t)) :
    ∃ l, Run (Threads.Step act) ⟨s, prog⟩ l ⟨t, Function.update prog p (.ret ())⟩ := by
  induction c generalizing s prog with
  | ret a =>
    cases h
    rw [← hp, Function.update_eq_self]
    exact ⟨[], .nil _⟩
  | op o k ih =>
    rw [Prog.run] at h
    cases ho : act p o s with
    | error e =>
      rw [ho] at h
      cases h
    | ok r =>
      rw [ho] at h
      have hnext : Function.update prog p (k r.1) p = k r.1 := Function.update_self ..
      obtain ⟨l, hl⟩ := ih r.1 hnext h
      rw [Function.update_idem] at hl
      exact ⟨_, .cons (Threads.step_of_act (w := ⟨s, prog⟩) hp ho) hl⟩

end

end Xv6.Schemes
