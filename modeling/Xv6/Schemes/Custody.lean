import Mathlib.Order.BooleanAlgebra.Set
import Mathlib.Logic.Function.Basic

/-! @scheme custody | name:Rights that exactly one holder has | family:invariants

    Each right that is live is in the hands of one holder, and a holder has at most one right. What
    may be done only once is a right that is used up: it is issued when it becomes live, handed on,
    and retired when it is used. -/

namespace Xv6.Schemes

variable {ι R : Type*}

/-- The live rights are the ones that are held, each by one holder. -/
structure Custody (live : Set R) (holds : ι → Option R) : Prop where
  inj : ∀ i j r, holds i = some r → holds j = some r → i = j
  held : ∀ r, r ∈ live ↔ ∃ i, holds i = some r

namespace Custody

variable {live : Set R} {holds : ι → Option R} {i j : ι} {r : R}

theorem live_of (h : Custody live holds) (hi : holds i = some r) : r ∈ live :=
  (h.held r).mpr ⟨i, hi⟩

/-- Nothing is live and nobody has anything. -/
theorem nothing : Custody (∅ : Set R) (fun _ : ι => none) where
  inj := fun _ _ _ hi => absurd hi (by simp)
  held := fun _ => ⟨fun h => absurd h (Set.notMem_empty _), fun ⟨_, hi⟩ => absurd hi (by simp)⟩

variable [DecidableEq ι]

/-- A new right. -/
theorem issue (h : Custody live holds) (hr : r ∉ live) (hi : holds i = none) :
    Custody (insert r live) (Function.update holds i (some r)) where
  inj := by
    intro j k q hj hk
    have hne : ∀ m, m ≠ i → Function.update holds i (some r) m = some q → q ≠ r := by
      rintro m hm hq rfl
      rw [Function.update_of_ne hm] at hq
      exact hr (h.live_of hq)
    by_cases hji : j = i <;> by_cases hki : k = i
    · rw [hji, hki]
    · subst hji
      rw [Function.update_self] at hj
      exact absurd (Option.some.inj hj).symm (hne k hki hk)
    · subst hki
      rw [Function.update_self] at hk
      exact absurd (Option.some.inj hk).symm (hne j hji hj)
    · rw [Function.update_of_ne hji] at hj
      rw [Function.update_of_ne hki] at hk
      exact h.inj j k q hj hk
  held := by
    intro q
    constructor
    · rintro (rfl | hq)
      · exact ⟨i, Function.update_self ..⟩
      · obtain ⟨j, hj⟩ := (h.held q).mp hq
        have hji : j ≠ i := by
          rintro rfl
          exact absurd (hi.symm.trans hj) (by simp)
        exact ⟨j, by rw [Function.update_of_ne hji, hj]⟩
    · rintro ⟨j, hj⟩
      by_cases hji : j = i
      · subst hji
        rw [Function.update_self] at hj
        exact Or.inl (Option.some.inj hj).symm
      · rw [Function.update_of_ne hji] at hj
        exact Or.inr (h.live_of hj)

/-- A right is used up. -/
theorem retire (h : Custody live holds) (hi : holds i = some r) :
    Custody (live \ {r}) (Function.update holds i none) where
  inj := by
    intro j k q hj hk
    by_cases hji : j = i
    · subst hji
      rw [Function.update_self] at hj
      exact absurd hj (by simp)
    by_cases hki : k = i
    · subst hki
      rw [Function.update_self] at hk
      exact absurd hk (by simp)
    rw [Function.update_of_ne hji] at hj
    rw [Function.update_of_ne hki] at hk
    exact h.inj j k q hj hk
  held := by
    intro q
    constructor
    · rintro ⟨hq, hne⟩
      obtain ⟨j, hj⟩ := (h.held q).mp hq
      have hji : j ≠ i := by
        rintro rfl
        exact hne (Option.some.inj (hj.symm.trans hi))
      exact ⟨j, by rw [Function.update_of_ne hji, hj]⟩
    · rintro ⟨j, hj⟩
      have hji : j ≠ i := by
        rintro rfl
        rw [Function.update_self] at hj
        exact absurd hj (by simp)
      rw [Function.update_of_ne hji] at hj
      refine ⟨h.live_of hj, ?_⟩
      rintro rfl
      exact hji (h.inj j i q hj hi)

/-- A right is handed on to a holder that has none. -/
theorem hand (h : Custody live holds) (hi : holds i = some r) (hj : holds j = none) :
    Custody live (Function.update (Function.update holds i none) j (some r)) := by
  have hji : j ≠ i := by
    rintro rfl
    exact absurd (hj.symm.trans hi) (by simp)
  have hnone : Function.update holds i none j = none := by rw [Function.update_of_ne hji, hj]
  have := (h.retire hi).issue (fun hr : r ∈ live \ {r} => hr.2 rfl) hnone
  rwa [Set.insert_sdiff_singleton, Set.insert_eq_of_mem (h.live_of hi)] at this

/-- Whatever a holder has, it hands on to a holder that has nothing. -/
theorem give (h : Custody live holds) (hj : holds j = none) :
    Custody live (Function.update (Function.update holds i none) j (holds i)) := by
  cases hi : holds i with
  | none =>
    rw [← hi, Function.update_eq_self, hi, ← hj, Function.update_eq_self]
    exact h
  | some r => exact h.hand hi hj

end Custody

end Xv6.Schemes
