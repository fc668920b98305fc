import Mathlib.Logic.Basic
import Mathlib.Data.Nat.Notation
import Mathlib.Tactic.TypeStar

/-! @scheme while | name:Loops that may not end | family:iteration

    A loop repeats its body while the guard holds. `Ends` says with which state it ends; a loop that
    is in a state its body does not change never does. A loop on a part of the state ends iff the
    whole loop does. -/

namespace Xv6.Schemes

variable {σ τ : Type*}

/-- The loop ends from the first state with the second one. -/
inductive Ends (guard : σ → Prop) (body : σ → σ) : σ → σ → Prop
  | stop {s : σ} (h : ¬ guard s) : Ends guard body s s
  | step {s t : σ} (h : guard s) (rest : Ends guard body (body s) t) : Ends guard body s t

/-- The loop with at most so many rounds. -/
def loop (guard : σ → Prop) [DecidablePred guard] (body : σ → σ) : ℕ → σ → Option σ
  | 0, s => if guard s then none else some s
  | n + 1, s => if guard s then loop guard body n (body s) else some s

variable {guard : σ → Prop} {body : σ → σ} {guard' : τ → Prop} {body' : τ → τ} {s t u : σ}

/-- Ending is being done after some number of rounds. -/
theorem ends_iff_loop [DecidablePred guard] :
    Ends guard body s t ↔ ∃ n, loop guard body n s = some t := by
  constructor
  · intro h
    induction h with
    | stop h => exact ⟨0, if_neg h⟩
    | step h _ ih =>
      obtain ⟨n, hn⟩ := ih
      exact ⟨n + 1, (if_pos h).trans hn⟩
  · rintro ⟨n, h⟩
    induction n generalizing s with
    | zero =>
      by_cases hs : guard s
      · rw [loop, if_pos hs] at h
        exact absurd h (by simp)
      · rw [loop, if_neg hs] at h
        exact Option.some.inj h ▸ .stop hs
    | succ n ih =>
      by_cases hs : guard s
      · rw [loop, if_pos hs] at h
        exact .step hs (ih h)
      · rw [loop, if_neg hs] at h
        exact Option.some.inj h ▸ .stop hs

theorem Ends.unique (h : Ends guard body s t) (h' : Ends guard body s u) : t = u := by
  induction h with
  | stop h =>
    cases h' with
    | stop => rfl
    | step hs => exact absurd hs h
  | step h _ ih =>
    cases h' with
    | stop hs => exact absurd h hs
    | step _ rest => exact ih rest

/-- A loop does not leave a state that its body does not change. -/
theorem not_ends_of_fixed (hs : guard s) (hbody : body s = s) : ¬ Ends guard body s t := by
  intro h
  induction h with
  | stop h => exact h hs
  | step _ _ ih => exact ih (by rwa [hbody]) (by rw [hbody, hbody])

/-- A loop on a part of the state goes with the whole loop. -/
theorem Ends.map {f : σ → τ} (hguard : ∀ s, guard s ↔ guard' (f s))
    (hbody : ∀ s, guard s → f (body s) = body' (f s)) (h : Ends guard body s t) :
    Ends guard' body' (f s) (f t) := by
  induction h with
  | stop h => exact .stop (mt (hguard _).mpr h)
  | step h _ ih => exact .step ((hguard _).mp h) (hbody _ h ▸ ih)

end Xv6.Schemes
