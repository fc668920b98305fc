import Mathlib.Logic.Basic

/-! @scheme program | name:Programs of operations | family:program logic

    A program is a tree of operations: a result, or an operation and what is done with its answer. A
    machine gives each operation a meaning on its states. `Wp` is the weakest precondition of a program
    that runs alone: the program returns with the postcondition, or it ends in one of the ways that
    are tolerated. -/

namespace Xv6.Schemes

/-- A program: a result, or an operation and what is done with its answer. -/
inductive Prog (Op : Type) (Ans : Op → Type) (α : Type) : Type
  | ret (a : α)
  | op (o : Op) (k : Ans o → Prog Op Ans α)

/-- How a program ends that does not return: it waits for ever, or the system stops. -/
inductive End : Type
  | blocked
  | panic (msg : String)
  deriving DecidableEq

/-- What an operation or a program comes to. -/
abbrev Outcome (α : Type) : Type := Except End α

namespace Prog

variable {Op : Type} {Ans : Op → Type} {α β γ : Type}

def bind : Prog Op Ans α → (α → Prog Op Ans β) → Prog Op Ans β
  | .ret a, f => f a
  | .op o k, f => .op o fun a => (k a).bind f

instance : Monad (Prog Op Ans) where
  pure := .ret
  bind := Prog.bind

theorem bind_def (m : Prog Op Ans α) (f : α → Prog Op Ans β) : (m >>= f) = m.bind f := rfl

/-- One operation. -/
def perform (o : Op) : Prog Op Ans (Ans o) := .op o .ret

theorem bind_assoc (m : Prog Op Ans α) (f : α → Prog Op Ans β) (g : β → Prog Op Ans γ) :
    ((m >>= f) >>= g) = (m >>= fun a => f a >>= g) := by
  simp only [bind_def]
  induction m with
  | ret a => rfl
  | op o k ih => exact congrArg (Prog.op o) (funext ih)

end Prog

section

variable {Op : Type} {Ans : Op → Type} {σ α β : Type}

/-- What the operations do. -/
abbrev Machine (Op : Type) (Ans : Op → Type) (σ : Type) : Type :=
  (o : Op) → σ → Outcome (Ans o × σ)

variable {M : Machine Op Ans σ}

/-- A program runs alone. -/
def Prog.run (M : Machine Op Ans σ) : Prog Op Ans α → σ → Outcome (α × σ)
  | .ret a, s => .ok (a, s)
  | .op o k, s => (M o s).bind fun r => (k r.1).run M r.2

/-- The operations that it does, the last one in vain if it does not return. -/
def Prog.trace (M : Machine Op Ans σ) : Prog Op Ans α → σ → List Op
  | .ret _, _ => []
  | .op o k, s =>
    o :: match M o s with
      | .ok r => (k r.1).trace M r.2
      | .error _ => []

theorem run_bind (m : Prog Op Ans α) (f : α → Prog Op Ans β) (s : σ) :
    (m >>= f).run M s = (m.run M s).bind fun r => (f r.1).run M r.2 := by
  rw [Prog.bind_def]
  induction m generalizing s with
  | ret a => rfl
  | op o k ih =>
    rw [Prog.bind, Prog.run, Prog.run]
    cases M o s with
    | error e => rfl
    | ok r => exact ih r.1 r.2

theorem trace_bind (m : Prog Op Ans α) (f : α → Prog Op Ans β) (s : σ) :
    (m >>= f).trace M s = m.trace M s ++
      match m.run M s with
      | .ok r => (f r.1).trace M r.2
      | .error _ => [] := by
  rw [Prog.bind_def]
  induction m generalizing s with
  | ret a => rfl
  | op o k ih =>
    rw [Prog.bind, Prog.trace, Prog.trace, Prog.run]
    cases h : M o s with
    | error e => rfl
    | ok r =>
      refine congrArg (o :: ·) ?_
      exact ih r.1 r.2

/-! ### Weakest preconditions -/

/-- From `s` the program returns with `Q`, or ends in a way of `E`. -/
def Wp (M : Machine Op Ans σ) (E : End → Prop) (m : Prog Op Ans α) (s : σ)
    (Q : α → σ → Prop) : Prop :=
  match m.run M s with
  | .ok (a, t) => Q a t
  | .error e => E e

variable {E E' : End → Prop} {m : Prog Op Ans α} {f : α → Prog Op Ans β} {s t : σ} {a : α}
  {P Q : α → σ → Prop} {R : β → σ → Prop}

theorem Wp.ret (h : Q a s) : Wp M E (.ret a) s Q := h

theorem Wp.pure (h : Q a s) : Wp M E (pure a) s Q := h

theorem Wp.of_run (h : m.run M s = .ok (a, t)) (hQ : Q a t) : Wp M E m s Q := by
  rw [Wp, h]
  exact hQ

theorem Wp.bind (h : Wp M E m s P) (hf : ∀ a t, P a t → Wp M E (f a) t R) :
    Wp M E (m >>= f) s R := by
  rw [Wp, run_bind]
  rw [Wp] at h
  cases hm : m.run M s with
  | error e =>
    rw [hm] at h
    exact h
  | ok r =>
    rw [hm] at h
    exact hf r.1 r.2 h

/-- The rule of consequence. -/
theorem Wp.mono (h : Wp M E m s P) (hPQ : ∀ a t, P a t → Q a t) (hE : ∀ e, E e → E' e) :
    Wp M E' m s Q := by
  rw [Wp] at h ⊢
  cases hm : m.run M s with
  | error e =>
    rw [hm] at h
    exact hE e h
  | ok r =>
    rw [hm] at h
    exact hPQ r.1 r.2 h

theorem Wp.imp (h : Wp M E m s P) (hPQ : ∀ a t, P a t → Q a t) : Wp M E m s Q :=
  h.mono hPQ fun _ he => he

/-- A program that has to return does. -/
theorem Wp.total (h : Wp M (fun _ => False) m s Q) : ∃ a t, m.run M s = .ok (a, t) ∧ Q a t := by
  rw [Wp] at h
  cases hm : m.run M s with
  | error e =>
    rw [hm] at h
    exact h.elim
  | ok r =>
    rw [hm] at h
    exact ⟨r.1, r.2, rfl, h⟩

/-- A program that does not return ends in the one way that is left. -/
theorem Wp.ends {e : End} (h : Wp M (· = e) m s fun _ _ => False) : m.run M s = .error e := by
  rw [Wp] at h
  cases hm : m.run M s with
  | error e' =>
    rw [hm] at h
    exact congrArg Except.error h
  | ok r =>
    rw [hm] at h
    exact h.elim

/-- What holds of the result when a program has returned. -/
theorem Wp.returned (h : Wp M E m s Q) (hm : m.run M s = .ok (a, t)) : Q a t := by
  rw [Wp, hm] at h
  exact h

/-- One operation. -/
theorem Wp.perform {o : Op} {R : Ans o → σ → Prop} {a : Ans o} (h : M o s = .ok (a, t))
    (hR : R a t) : Wp M E (Prog.perform o) s R :=
  Wp.of_run (by rw [Prog.perform, Prog.run, h]; rfl) hR

theorem Wp.perform_bind {o : Op} {f : Ans o → Prog Op Ans β} {a : Ans o}
    (h : M o s = .ok (a, t)) (hf : Wp M E (f a) t R) : Wp M E (Prog.perform o >>= f) s R := by
  rw [Wp, run_bind, Prog.perform, Prog.run, h]
  exact hf

/-- An operation that does not return. -/
theorem Wp.perform_error {o : Op} {f : Ans o → Prog Op Ans β} {e : End} (h : M o s = .error e)
    (he : E e) : Wp M E (Prog.perform o >>= f) s R := by
  rw [Wp, run_bind, Prog.perform, Prog.run, h]
  exact he

end

end Xv6.Schemes
