import Mathlib.Data.Set.Insert
import Mathlib.Logic.Function.Basic

/-! @scheme pool | name:Exclusive use of pooled resources | family:invariants

    A pool has free resources, a family of holders with at most one resource each, and resources in
    use elsewhere. No resource is in two of these places, and no two holders have the same. A
    resource goes from free to elsewhere when it is taken, from there to a holder, and back. -/

namespace Xv6.Schemes

variable {ι F : Type*}

/-- Every resource is free, or held by one holder, or in use elsewhere. -/
structure Owns (free : Set F) (holds : ι → Option F) (others : Set F) : Prop where
  inj : ∀ i j f, holds i = some f → holds j = some f → i = j
  used : ∀ i f, holds i = some f → f ∉ free
  apart : ∀ i f, holds i = some f → f ∉ others
  elsewhere : ∀ f ∈ others, f ∉ free

namespace Owns

variable {free : Set F} {holds : ι → Option F} {others : Set F} {f : F} {i : ι}

/-- Taking a free resource. -/
theorem take (h : Owns free holds others) (hf : f ∈ free) :
    Owns (free \ {f}) holds (insert f others) where
  inj := h.inj
  used := fun i g hg hm => h.used i g hg hm.1
  apart := by
    rintro i g hg (rfl | hm)
    · exact h.used i g hg hf
    · exact h.apart i g hg hm
  elsewhere := by
    rintro g (rfl | hg) hm
    · exact hm.2 rfl
    · exact h.elsewhere g hg hm.1

/-- A free resource is not in use elsewhere. -/
theorem fresh (h : Owns free holds others) (hf : f ∈ free) : f ∉ others :=
  fun hm => h.elsewhere f hm hf

variable [DecidableEq ι]

/-- Handing a taken resource to a holder that has none. -/
theorem assign (h : Owns free holds (insert f others)) (hf : f ∉ others) (hi : holds i = none) :
    Owns free (Function.update holds i (some f)) others := by
  have hne : ∀ j, holds j ≠ some f := fun j hj => h.apart j f hj (Set.mem_insert f others)
  have hcases : ∀ j g, Function.update holds i (some f) j = some g →
      (j = i ∧ g = f) ∨ (j ≠ i ∧ holds j = some g) := by
    intro j g hg
    rcases eq_or_ne j i with rfl | hji
    · rw [Function.update_self] at hg
      exact Or.inl ⟨rfl, (Option.some.inj hg).symm⟩
    · rw [Function.update_of_ne hji] at hg
      exact Or.inr ⟨hji, hg⟩
  constructor
  · intro j k g hj hk
    rcases hcases j g hj with ⟨rfl, rfl⟩ | ⟨-, hj'⟩ <;> rcases hcases k _ hk with ⟨rfl, hg⟩ | ⟨-, hk'⟩
    · rfl
    · exact absurd hk' (hne k)
    · exact absurd (hg ▸ hj') (hne j)
    · exact h.inj j k g hj' hk'
  · intro j g hg
    rcases hcases j g hg with ⟨-, rfl⟩ | ⟨-, hg'⟩
    · exact h.elsewhere g (Set.mem_insert g others)
    · exact h.used j g hg'
  · intro j g hg
    rcases hcases j g hg with ⟨-, rfl⟩ | ⟨-, hg'⟩
    · exact hf
    · exact fun hm => h.apart j g hg' (Set.mem_insert_of_mem f hm)
  · exact fun g hg => h.elsewhere g (Set.mem_insert_of_mem f hg)

/-- Taking the resource of a holder away. -/
theorem release (h : Owns free holds others) (hi : holds i = some f) :
    Owns free (Function.update holds i none) (insert f others) := by
  have hcases : ∀ j g, Function.update holds i none j = some g → j ≠ i ∧ holds j = some g := by
    intro j g hg
    rcases eq_or_ne j i with rfl | hji
    · simp at hg
    · exact ⟨hji, by rwa [Function.update_of_ne hji] at hg⟩
  constructor
  · exact fun j k g hj hk => h.inj j k g (hcases j g hj).2 (hcases k g hk).2
  · exact fun j g hg => h.used j g (hcases j g hg).2
  · rintro j g hg (rfl | hm)
    · exact (hcases j g hg).1 (h.inj j i g (hcases j g hg).2 hi)
    · exact h.apart j g (hcases j g hg).2 hm
  · rintro g (rfl | hg)
    · exact h.used i g hi
    · exact h.elsewhere g hg

omit [DecidableEq ι] in
/-- Freeing a resource that nobody holds. -/
theorem put (h : Owns free holds (insert f others)) (hf : f ∉ others) :
    Owns (insert f free) holds others where
  inj := h.inj
  used := by
    rintro i g hg (rfl | hm)
    · exact h.apart i g hg (Set.mem_insert g others)
    · exact h.used i g hg hm
  apart := fun i g hg hm => h.apart i g hg (Set.mem_insert_of_mem f hm)
  elsewhere := by
    rintro g hg (rfl | hm)
    · exact hf hg
    · exact h.elsewhere g (Set.mem_insert_of_mem f hg) hm

omit [DecidableEq ι] in
/-- Forgetting resources in use elsewhere. -/
theorem mono {others' : Set F} (h : Owns free holds others) (hsub : others' ⊆ others) :
    Owns free holds others' where
  inj := h.inj
  used := h.used
  apart := fun i g hg hm => h.apart i g hg (hsub hm)
  elsewhere := fun g hg => h.elsewhere g (hsub hg)

omit [DecidableEq ι] in
/-- Holders without anything. -/
theorem nobody (h : ∀ f ∈ others, f ∉ free) : Owns free (fun _ : ι => none) others where
  inj := fun _ _ _ hi => absurd hi (by simp)
  used := fun _ _ hi => absurd hi (by simp)
  apart := fun _ _ hi => absurd hi (by simp)
  elsewhere := h

end Owns

/-! ### Some of the holders -/

section Focus

variable {κ : Type*} {free free' : Set F} {holds holds' : ι → Option F} {others : Set F}
  {parts : κ → Option F} {e : κ → ι}

/-- What the holders have that are not in the range of `e`. -/
def Rest (e : κ → ι) (holds : ι → Option F) : Set F :=
  {f | ∃ i, i ∉ Set.range e ∧ holds i = some f}

/-- For some of the holders the resources of all the rest are in use elsewhere. -/
theorem Owns.focus (h : Owns free holds others) (he : Function.Injective e) :
    Owns free (fun k => holds (e k)) (others ∪ Rest e holds) where
  inj := fun i j f hi hj => he (h.inj (e i) (e j) f hi hj)
  used := fun i f hi => h.used (e i) f hi
  apart := by
    rintro i f hi (hf | ⟨j, hj, hf⟩)
    · exact h.apart (e i) f hi hf
    · exact hj ⟨i, h.inj (e i) j f hi hf⟩
  elsewhere := by
    rintro f (hf | ⟨j, -, hf⟩)
    · exact h.elsewhere f hf
    · exact h.used j f hf

/-- What these holders do with the free resources is nothing to the rest. -/
theorem Owns.unfocus (h : Owns free holds others) (h' : Owns free' parts (others ∪ Rest e holds))
    (hin : ∀ k, holds' (e k) = parts k) (hout : ∀ i, i ∉ Set.range e → holds' i = holds i) :
    Owns free' holds' others := by
  have hcases : ∀ i f, holds' i = some f →
      (∃ k, i = e k ∧ parts k = some f) ∨ (i ∉ Set.range e ∧ holds i = some f) := by
    intro i f hi
    by_cases hr : i ∈ Set.range e
    · obtain ⟨k, rfl⟩ := hr
      exact Or.inl ⟨k, rfl, (hin k).symm.trans hi⟩
    · exact Or.inr ⟨hr, (hout i hr).symm.trans hi⟩
  refine ⟨fun i j f hi hj => ?_, fun i f hi => ?_, fun i f hi => ?_, fun f hf => ?_⟩
  · rcases hcases i f hi with ⟨k, rfl, hk⟩ | ⟨hr, hi'⟩ <;>
      rcases hcases j f hj with ⟨k', rfl, hk'⟩ | ⟨hr', hj'⟩
    · rw [h'.inj k k' f hk hk']
    · exact absurd (Or.inr ⟨j, hr', hj'⟩) (h'.apart k f hk)
    · exact absurd (Or.inr ⟨i, hr, hi'⟩) (h'.apart k' f hk')
    · exact h.inj i j f hi' hj'
  · rcases hcases i f hi with ⟨k, rfl, hk⟩ | ⟨hr, hi'⟩
    · exact h'.used k f hk
    · exact h'.elsewhere f (Or.inr ⟨i, hr, hi'⟩)
  · rcases hcases i f hi with ⟨k, rfl, hk⟩ | ⟨hr, hi'⟩
    · exact fun hf => h'.apart k f hk (Or.inl hf)
    · exact h.apart i f hi'
  · exact h'.elsewhere f (Or.inl hf)

end Focus

/-! ### What the holders have -/

/-- The resources that the holders have. -/
def Taken (holds : ι → Option F) : Set F := {f | ∃ i, holds i = some f}

namespace Taken

variable [DecidableEq ι] {holds : ι → Option F} {f : F} {i : ι}

/-- A holder that has nothing gets a resource. -/
theorem assign (hi : holds i = none) :
    Taken (Function.update holds i (some f)) = insert f (Taken holds) := by
  ext g
  constructor
  · rintro ⟨j, hj⟩
    rcases eq_or_ne j i with rfl | hji
    · rw [Function.update_self] at hj
      exact Or.inl (Option.some.inj hj).symm
    · rw [Function.update_of_ne hji] at hj
      exact Or.inr ⟨j, hj⟩
  · rintro (rfl | ⟨j, hj⟩)
    · exact ⟨i, Function.update_self ..⟩
    · have hji : j ≠ i := by
        rintro rfl
        exact absurd (hi.symm.trans hj) (by simp)
      exact ⟨j, by rwa [Function.update_of_ne hji]⟩

/-- A holder gives its resource back. -/
theorem release (hi : holds i = some f) :
    insert f (Taken (Function.update holds i none)) = Taken holds := by
  ext g
  constructor
  · rintro (rfl | ⟨j, hj⟩)
    · exact ⟨i, hi⟩
    · rcases eq_or_ne j i with rfl | hji
      · simp at hj
      · exact ⟨j, by rwa [Function.update_of_ne hji] at hj⟩
  · rintro ⟨j, hj⟩
    rcases eq_or_ne j i with rfl | hji
    · exact Or.inl (Option.some.inj (hj.symm.trans hi))
    · exact Or.inr ⟨j, by rwa [Function.update_of_ne hji]⟩

end Taken

end Xv6.Schemes
