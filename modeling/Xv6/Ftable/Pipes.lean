import Xv6.Ftable.Table
import Xv6.Schemes.Custody
import Mathlib.Data.Set.Insert

/-! @src pipe.c file.c | name:Rights to a pipe | layer:proof

    An open end of a pipe gives the right to close it, a pipe with both ends closed the right to
    free its page, and a page that `kalloc` has returned to `pipealloc` the right to make it a pipe.
    The first is held by the entry of the file table, and then by the `fileclose` that has taken it
    down. -/

namespace Xv6.Ftable

open Xv6.Schemes

variable {τ π : Type}

/-- What a right to a page allows. -/
inductive Kind where
  | close (writable : Bool)
  | free
  | init
  deriving DecidableEq

/-- The rights that a page gives. -/
def Page.gives : Page → Kind → Bool
  | .pipe _ r w, .close writable => if writable then w else r
  | .pipe _ r w, .free => !r && !w
  | .taken, .init => true
  | _, _ => false

abbrev Right (π : Type) : Type := π × Kind

/-- The rights that there are. -/
def live (page : π → Page) : Set (Right π) := {r | (page r.1).gives r.2 = true}

theorem mem_live {page : π → Page} {g : π} {k : Kind} :
    (g, k) ∈ live page ↔ (page g).gives k = true := Iff.rfl

/-- The right that goes with a file that is open. -/
def File.right (x : File π) : Option (Right π) :=
  if x.type = .FD_PIPE then x.pipe.map fun g => (g, .close x.writable) else none

/-- The right of an entry of the table. -/
def File.entry (x : File π) : Option (Right π) := if x.ref = 0 then none else x.right

def Work.right : Work π → Option (Right π)
  | .fileclose _ => none
  | .last ff => ff.right
  | .kfree g => some (g, .free)

def Pc.right : Pc τ π → Option (Right π)
  | .pipeInit _ _ g => some (g, .init)
  | _ => none

/-- The right that a process has. -/
def Proc.right (x : Proc τ π) : Option (Right π) :=
  match x.work with
  | [] => x.pc.right
  | w :: _ => w.right

/-- Who has what. -/
def holds (s : Sys τ π) : Ptr ⊕ τ → Option (Right π) :=
  Sum.elim (fun f => (s.file f).entry) fun p => (s.proc p).right

/-! ### Pages change -/

section

variable [DecidableEq π] {page : π → Page} {g : π} {x : Page}

/-- The rights when a page changes. -/
theorem live_update {S : Set (Right π)} (hself : ∀ k, (g, k) ∈ S ↔ x.gives k = true)
    (hother : ∀ g' ≠ g, ∀ k, (g', k) ∈ S ↔ (page g').gives k = true) :
    live (Function.update page g x) = S := by
  ext ⟨g', k⟩
  change (Function.update page g x g').gives k = true ↔ _
  rcases eq_or_ne g' g with rfl | hne
  · rw [Function.update_self, hself]
  · rw [Function.update_of_ne hne, hother g' hne]

theorem live_congr (hsame : x.gives = (page g).gives) : live (Function.update page g x) = live page :=
  live_update (fun k => by rw [hsame]; rfl) fun _ _ _ => Iff.rfl

end

/-! ### What has been made, closed and freed -/

/-- Each pipe is in one page or has been freed, and the log of closed ends fits the pages. -/
structure Logged (page : π → Page) (made : ℕ) (closed : List (ℕ × Bool)) (freed : List ℕ) : Prop where
  all : ∀ id, id < made ↔ id ∈ freed ∨ ∃ g ro wo, page g = .pipe id ro wo
  one : ∀ {g g' id ro wo ro' wo'}, page g = .pipe id ro wo → page g' = .pipe id ro' wo' → g = g'
  kept : ∀ {g id ro wo}, page g = .pipe id ro wo → id ∉ freed
  shut : ∀ {g id ro wo}, page g = .pipe id ro wo →
    ∀ w, (id, w) ∈ closed ↔ (page g).gives (.close w) = false
  past : ∀ id ∈ freed, ∀ w, (id, w) ∈ closed
  known : ∀ {id w}, (id, w) ∈ closed → id < made
  once : closed.Nodup
  onceFreed : freed.Nodup

namespace Logged

variable {page : π → Page} {g : π} {x : Page} {made id : ℕ} {closed : List (ℕ × Bool)}
  {freed : List ℕ} {ro wo w : Bool}

theorem boot (free : π → Bool) : Logged (fun g => if free g then .free else .other) 0 [] [] := by
  have hno : ∀ {g : π} {id ro wo}, (if free g then Page.free else .other) ≠ .pipe id ro wo := by
    intro g id ro wo
    split <;> simp
  exact ⟨fun id => by simp [hno], fun h => absurd h hno, fun h => absurd h hno,
    fun h => absurd h hno, by simp, by simp, List.nodup_nil, List.nodup_nil⟩

variable [DecidableEq π]

/-- A page that is not a pipe becomes something else that is not. -/
theorem other (h : Logged page made closed freed) (hg : ∀ id ro wo, page g ≠ .pipe id ro wo)
    (hx : ∀ id ro wo, x ≠ .pipe id ro wo) : Logged (Function.update page g x) made closed freed := by
  have hsame : ∀ {g' id ro wo}, Function.update page g x g' = .pipe id ro wo ↔
      page g' = .pipe id ro wo := by
    intro g' id ro wo
    rcases eq_or_ne g' g with rfl | hne
    · rw [Function.update_self]
      exact iff_of_false (hx id ro wo) (hg id ro wo)
    · rw [Function.update_of_ne hne]
  refine ⟨fun id => ?_, fun h₁ h₂ => h.one (hsame.mp h₁) (hsame.mp h₂), fun h₁ => h.kept (hsame.mp h₁),
    fun h₁ w => ?_, h.past, h.known, h.once, h.onceFreed⟩
  · simp only [hsame]
    exact h.all id
  · rw [h₁, ← hsame.mp h₁]
    exact h.shut (hsame.mp h₁) w

/-- A new pipe. -/
theorem make (h : Logged page made closed freed) (hg : ∀ id ro wo, page g ≠ .pipe id ro wo) :
    Logged (Function.update page g (.pipe made true true)) (made + 1) closed freed := by
  have hcases : ∀ {g' id ro wo}, Function.update page g (.pipe made true true) g' = .pipe id ro wo →
      (g' = g ∧ id = made ∧ ro = true ∧ wo = true) ∨ (g' ≠ g ∧ page g' = .pipe id ro wo ∧ id < made) := by
    intro g' id ro wo hg'
    rcases eq_or_ne g' g with rfl | hne
    · rw [Function.update_self] at hg'
      cases hg'
      exact Or.inl ⟨rfl, rfl, rfl, rfl⟩
    · rw [Function.update_of_ne hne] at hg'
      exact Or.inr ⟨hne, hg', (h.all id).mpr (Or.inr ⟨g', ro, wo, hg'⟩)⟩
  have hnew : made ∉ freed := fun hm => absurd ((h.all made).mpr (Or.inl hm)) (lt_irrefl made)
  refine ⟨fun id => ⟨fun hid => ?_, ?_⟩, fun h₁ h₂ => ?_, fun h₁ => ?_, fun h₁ w => ?_, h.past,
    fun hc => Nat.lt_succ_of_lt (h.known hc), h.once, h.onceFreed⟩
  · rcases Nat.lt_succ_iff_lt_or_eq.mp hid with hlt | rfl
    · rcases (h.all id).mp hlt with hf | ⟨g', ro, wo, hg'⟩
      · exact Or.inl hf
      · have hne : g' ≠ g := by
          rintro rfl
          exact hg id ro wo hg'
        exact Or.inr ⟨g', ro, wo, by rw [Function.update_of_ne hne, hg']⟩
    · exact Or.inr ⟨g, true, true, Function.update_self ..⟩
  · rintro (hf | ⟨g', ro, wo, hg'⟩)
    · exact Nat.lt_succ_of_lt ((h.all id).mpr (Or.inl hf))
    · rcases hcases hg' with ⟨-, rfl, -⟩ | ⟨-, -, hlt⟩
      · exact Nat.lt_succ_self id
      · exact Nat.lt_succ_of_lt hlt
  · rcases hcases h₁ with ⟨rfl, rfl, -⟩ | ⟨-, hp, hlt⟩ <;>
      rcases hcases h₂ with ⟨rfl, hid, -⟩ | ⟨-, hp', hlt'⟩
    · rfl
    · exact absurd hlt' (lt_irrefl _)
    · exact absurd hlt (by omega)
    · exact h.one hp hp'
  · rcases hcases h₁ with ⟨-, rfl, -⟩ | ⟨-, hp, -⟩
    · exact hnew
    · exact h.kept hp
  · rcases hcases h₁ with ⟨rfl, rfl, rfl, rfl⟩ | ⟨hne, hp, -⟩
    · rw [Function.update_self]
      refine iff_of_false (fun hc => absurd (h.known hc) (lt_irrefl _)) ?_
      cases w <;> simp [Page.gives]
    · rw [Function.update_of_ne hne]
      exact h.shut hp w

/-- An open end is closed. -/
theorem close (h : Logged page made closed freed) (hg : page g = .pipe id ro wo)
    (hopen : (page g).gives (.close w) = true) :
    Logged (Function.update page g (.pipe id (if w then ro else false) (if w then false else wo))) made
      (closed ++ [(id, w)]) freed := by
  have hcases : ∀ {g' id' ro' wo'},
      Function.update page g (.pipe id (if w then ro else false) (if w then false else wo)) g' =
        .pipe id' ro' wo' → (g' = g ∧ id' = id) ∨ (g' ≠ g ∧ id' ≠ id ∧ page g' = .pipe id' ro' wo') := by
    intro g' id' ro' wo' hg'
    rcases eq_or_ne g' g with rfl | hne
    · rw [Function.update_self] at hg'
      cases hg'
      exact Or.inl ⟨rfl, rfl⟩
    · rw [Function.update_of_ne hne] at hg'
      refine Or.inr ⟨hne, ?_, hg'⟩
      rintro rfl
      exact hne (h.one hg' hg)
  refine ⟨fun id' => (h.all id').trans (or_congr_right ⟨?_, ?_⟩), fun h₁ h₂ => ?_, fun h₁ => ?_,
    fun h₁ w' => ?_, fun id' hid w' => List.mem_append_left _ (h.past id' hid w'), fun hc => ?_, ?_,
    h.onceFreed⟩
  · rintro ⟨g', ro', wo', hg'⟩
    rcases eq_or_ne g' g with rfl | hne
    · obtain ⟨rfl, -, -⟩ := Page.pipe.inj (hg.symm.trans hg')
      exact ⟨g', _, _, Function.update_self ..⟩
    · exact ⟨g', ro', wo', by rw [Function.update_of_ne hne, hg']⟩
  · rintro ⟨g', ro', wo', hg'⟩
    rcases hcases hg' with ⟨rfl, rfl⟩ | ⟨-, -, hp⟩
    · exact ⟨g', ro, wo, hg⟩
    · exact ⟨g', ro', wo', hp⟩
  · rcases hcases h₁ with ⟨rfl, rfl⟩ | ⟨-, hid, hp⟩ <;> rcases hcases h₂ with ⟨rfl, hid'⟩ | ⟨-, hid', hp'⟩
    · rfl
    · exact absurd rfl hid'
    · exact absurd hid' hid
    · exact h.one hp hp'
  · rcases hcases h₁ with ⟨rfl, rfl⟩ | ⟨-, -, hp⟩
    · exact h.kept hg
    · exact h.kept hp
  · rcases hcases h₁ with ⟨rfl, rfl⟩ | ⟨hne, hid, hp⟩
    · rw [Function.update_self, List.mem_append, List.mem_singleton, Prod.mk.injEq, h.shut hg w', hg]
      cases w <;> cases w' <;> simp [Page.gives]
    · rw [Function.update_of_ne hne, List.mem_append, List.mem_singleton, Prod.mk.injEq,
        or_iff_left (fun hc => hid hc.1)]
      exact h.shut hp w'
  · rcases List.mem_append.mp hc with hc | hc
    · exact h.known hc
    · obtain ⟨rfl, -⟩ := Prod.mk.inj (List.mem_singleton.mp hc)
      exact (h.all _).mpr (Or.inr ⟨g, ro, wo, hg⟩)
  · refine List.nodup_append.mpr ⟨h.once, List.nodup_singleton _, fun a ha b hb => ?_⟩
    obtain rfl := List.mem_singleton.mp hb
    rintro rfl
    have := (h.shut hg w).mp ha
    rw [hopen] at this
    exact absurd this (by simp)

/-- A pipe whose ends are both closed is freed. -/
theorem free (h : Logged page made closed freed) (hg : page g = .pipe id ro wo)
    (hboth : (page g).gives .free = true) :
    Logged (Function.update page g .free) made closed (freed ++ [id]) := by
  have hcases : ∀ {g' id' ro' wo'}, Function.update page g .free g' = .pipe id' ro' wo' →
      g' ≠ g ∧ id' ≠ id ∧ page g' = .pipe id' ro' wo' := by
    intro g' id' ro' wo' hg'
    rcases eq_or_ne g' g with rfl | hne
    · rw [Function.update_self] at hg'
      exact absurd hg' (by simp)
    · rw [Function.update_of_ne hne] at hg'
      refine ⟨hne, ?_, hg'⟩
      rintro rfl
      exact hne (h.one hg' hg)
  have hends : ∀ w, (id, w) ∈ closed := by
    intro w
    rw [h.shut hg w, hg]
    rw [hg] at hboth
    cases w <;> simp_all [Page.gives]
  refine ⟨fun id' => (h.all id').trans ⟨?_, ?_⟩, fun h₁ h₂ => h.one (hcases h₁).2.2 (hcases h₂).2.2,
    fun h₁ hf => ?_, fun h₁ w => ?_, fun id' hid w => ?_, h.known, h.once, ?_⟩
  · rintro (hf | ⟨g', ro', wo', hg'⟩)
    · exact Or.inl (List.mem_append_left _ hf)
    · rcases eq_or_ne g' g with rfl | hne
      · obtain ⟨rfl, -, -⟩ := Page.pipe.inj (hg.symm.trans hg')
        exact Or.inl (List.mem_append_right _ (List.mem_singleton_self id))
      · exact Or.inr ⟨g', ro', wo', by rw [Function.update_of_ne hne, hg']⟩
  · rintro (hf | ⟨g', ro', wo', hg'⟩)
    · rcases List.mem_append.mp hf with hf | hf
      · exact Or.inl hf
      · obtain rfl := List.mem_singleton.mp hf
        exact Or.inr ⟨g, ro, wo, hg⟩
    · exact Or.inr ⟨g', ro', wo', (hcases hg').2.2⟩
  · obtain ⟨-, hid, hp⟩ := hcases h₁
    rcases List.mem_append.mp hf with hf | hf
    · exact h.kept hp hf
    · exact hid (List.mem_singleton.mp hf)
  · obtain ⟨hne, -, hp⟩ := hcases h₁
    rw [Function.update_of_ne hne]
    exact h.shut hp w
  · rcases List.mem_append.mp hid with hid | hid
    · exact h.past id' hid w
    · obtain rfl := List.mem_singleton.mp hid
      exact hends w
  · refine List.nodup_append.mpr ⟨h.onceFreed, List.nodup_singleton _, fun a ha b hb => ?_⟩
    obtain rfl := List.mem_singleton.mp hb
    rintro rfl
    exact h.kept hg ha

end Logged

end Xv6.Ftable
