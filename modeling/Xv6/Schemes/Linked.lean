import Mathlib.Logic.Function.Basic
import Mathlib.Data.List.Nodup

/-! @scheme linked | name:Singly linked lists with a pointer to their head | family:data-structures

    A list hangs on a pointer variable and goes on through a field of each cell. Pointer variables
    are written `none`, the fields of the cells `some b`, and `link` says what each one points to.
    Appending walks to the null pointer at the end and stores there; the head is popped by moving
    its field to the variable. -/

namespace Xv6.Schemes.Linked

variable {β : Type*} {link link' : Option β → Option β} {p : Option β} {b : β} {l : List β}

/-- The cells that follow a pointer, up to the null pointer. -/
inductive Chain (link : Option β → Option β) : Option β → List β → Prop
  | nil {p : Option β} (h : link p = none) : Chain link p []
  | cons {p : Option β} {b : β} {l : List β} (h : link p = some b) (ht : Chain link (some b) l) :
      Chain link p (b :: l)

/-- The pointer at the end of the cells that follow `p`. -/
def last : Option β → List β → Option β
  | p, [] => p
  | _, b :: l => last (some b) l

/-- The walk to the null pointer, in `fuel` steps at most. -/
def findEnd (link : Option β → Option β) : ℕ → Option β → Option (Option β)
  | 0, _ => none
  | fuel + 1, p =>
    match link p with
    | none => some p
    | some b => findEnd link fuel (some b)

/-- A pointer points to the first of the cells that follow it. -/
theorem Chain.head (h : Chain link p l) : link p = l.head? := by
  cases h with
  | nil h => exact h
  | cons h _ => exact h

theorem last_mem (p : Option β) (l : List β) : last p l = p ∨ last p l ∈ l.map some := by
  induction l generalizing p with
  | nil => exact Or.inl rfl
  | cons b l ih =>
    right
    rw [last, List.map_cons, List.mem_cons]
    exact ih (some b)

/-- The walk finds the end of the list. -/
theorem Chain.findEnd (h : Chain link p l) {fuel : ℕ} (hf : l.length < fuel) :
    findEnd link fuel p = some (last p l) := by
  induction h generalizing fuel with
  | nil h =>
    obtain ⟨fuel, rfl⟩ : ∃ n, fuel = n + 1 := ⟨fuel - 1, by simp at hf; omega⟩
    rw [Linked.findEnd, h]
    rfl
  | cons h _ ih =>
    obtain ⟨fuel, rfl⟩ : ∃ n, fuel = n + 1 := ⟨fuel - 1, by simp at hf; omega⟩
    rw [Linked.findEnd, h]
    exact ih (by simpa using hf)

/-- A list depends only on its own pointers. -/
theorem Chain.congr (h : Chain link p l) (hp : link' p = link p)
    (hl : ∀ b ∈ l, link' (some b) = link (some b)) : Chain link' p l := by
  induction h with
  | nil h => exact .nil (hp.trans h)
  | cons h _ ih =>
    exact .cons (hp.trans h) (ih (hl _ List.mem_cons_self) fun c hc => hl c (List.mem_cons_of_mem _ hc))

/-- A pointer is followed by one list of cells only. -/
theorem Chain.unique {l' : List β} (h : Chain link p l) (h' : Chain link p l') : l = l' := by
  induction h generalizing l' with
  | nil h =>
    cases h' with
    | nil _ => rfl
    | cons h₁ _ => exact absurd (h.symm.trans h₁) (by simp)
  | cons h _ ih =>
    cases h' with
    | nil h₁ => exact absurd (h.symm.trans h₁) (by simp)
    | cons h₁ ht =>
      obtain rfl := Option.some.inj (h.symm.trans h₁)
      rw [ih ht]

variable [DecidableEq β]

/-- Storing a cell that ends with a null pointer at the end of the list appends it. -/
theorem Chain.append (h : Chain link p l) (hp : p ∉ l.map some) (hnd : l.Nodup)
    (hb : link (some b) = none) (hne : p ≠ some b) (hbl : b ∉ l) :
    Chain (Function.update link (last p l) (some b)) p (l ++ [b]) := by
  induction h with
  | @nil p h =>
    refine .cons (Function.update_self ..) (.nil ?_)
    rw [last, Function.update_of_ne hne.symm, hb]
  | @cons p c l h _ ih =>
    rw [List.map_cons, List.mem_cons, not_or] at hp
    obtain ⟨hc, hnd⟩ := List.nodup_cons.mp hnd
    rw [List.mem_cons, not_or] at hbl
    have hpl : p ≠ last (some c) l := by
      rcases last_mem (some c) l with he | hm
      · rw [he]
        exact hp.1
      · intro he
        exact hp.2 (he ▸ hm)
    rw [last, List.cons_append]
    refine .cons ?_ (ih (by simpa using hc) hnd (fun he => hbl.1 (Option.some.inj he).symm) hbl.2)
    rw [Function.update_of_ne hpl, h]

/-- Moving the field of the first cell to the variable removes the cell. -/
theorem Chain.pop (h : Chain link none (b :: l)) :
    Chain (Function.update link none (link (some b))) none l := by
  cases h with
  | cons _ ht =>
    have hfield : ∀ c, Function.update link none (link (some b)) (some c) = link (some c) := fun c =>
      Function.update_of_ne (by simp) ..
    cases ht with
    | nil h => exact .nil (by rw [Function.update_self, h])
    | cons h ht =>
      exact .cons (by rw [Function.update_self, h]) (ht.congr (hfield _) fun c _ => hfield c)

end Xv6.Schemes.Linked
