import Mathlib.Logic.Function.Basic
import Mathlib.Data.List.Basic

/-! @scheme writes | name:Sequences of writes to a store | family:crash recovery

    A store maps keys to contents; a sequence of writes is applied one at a time, and a crash keeps
    a prefix of it. When the content written is determined by the key (as in the replay of a redo
    log), applying the whole sequence gives the same store from any prefix of it: replay is
    idempotent. -/

namespace Xv6.Schemes

variable {κ β : Type*} [DecidableEq κ]

/-- Apply the writes in order. -/
def applyWrites : List (κ × β) → (κ → β) → κ → β
  | [], d => d
  | w :: ws, d => applyWrites ws (Function.update d w.1 w.2)

@[simp] theorem applyWrites_nil (d : κ → β) : applyWrites [] d = d := rfl

theorem applyWrites_append (ws vs : List (κ × β)) (d : κ → β) :
    applyWrites (ws ++ vs) d = applyWrites vs (applyWrites ws d) := by
  induction ws generalizing d with
  | nil => rfl
  | cons w ws ih => simp only [List.cons_append, applyWrites, ih]

theorem applyWrites_concat (ws : List (κ × β)) (w : κ × β) (d : κ → β) :
    applyWrites (ws ++ [w]) d = Function.update (applyWrites ws d) w.1 w.2 := by
  rw [applyWrites_append]; rfl

/-- A key that no write names keeps its content. -/
theorem applyWrites_other {ws : List (κ × β)} {x : κ} (h : ∀ w ∈ ws, w.1 ≠ x) (d : κ → β) :
    applyWrites ws d x = d x := by
  induction ws generalizing d with
  | nil => rfl
  | cons w ws ih =>
    obtain ⟨hw, hrest⟩ := List.forall_mem_cons.mp h
    rw [applyWrites, ih hrest, Function.update_of_ne (Ne.symm hw)]

/-- If the content written is a function `f` of the key, the result is `f` on the keys written. -/
theorem applyWrites_fn {ws : List (κ × β)} {f : κ → β} (h : ∀ w ∈ ws, w.2 = f w.1) (d : κ → β)
    (x : κ) : applyWrites ws d x = if x ∈ ws.map Prod.fst then f x else d x := by
  induction ws generalizing d with
  | nil => simp
  | cons w ws ih =>
    obtain ⟨hw, hrest⟩ := List.forall_mem_cons.mp h
    rw [applyWrites, ih hrest, List.map_cons]
    by_cases hx : x ∈ ws.map Prod.fst
    · rw [if_pos hx, if_pos (List.mem_cons_of_mem _ hx)]
    · rcases eq_or_ne x w.1 with rfl | hne
      · rw [if_neg hx, if_pos (List.mem_cons_self ..), Function.update_self, hw]
      · rw [if_neg hx, if_neg (by simp [hne, hx]), Function.update_of_ne hne]

/-- If every write to `x` writes `v` and there is one, `x` holds `v` afterwards. -/
theorem applyWrites_const {ws : List (κ × β)} {x : κ} {v : β} (h : ∀ w ∈ ws, w.1 = x → w.2 = v)
    (hx : x ∈ ws.map Prod.fst) (d : κ → β) : applyWrites ws d x = v := by
  induction ws generalizing d with
  | nil => simp at hx
  | cons w ws ih =>
    obtain ⟨hw, hrest⟩ := List.forall_mem_cons.mp h
    rw [applyWrites]
    by_cases hmem : x ∈ ws.map Prod.fst
    · exact ih hrest hmem _
    · have hxw : w.1 = x := by
        rcases List.mem_cons.mp hx with he | he
        · exact he.symm
        · exact absurd he hmem
      have hne : ∀ y ∈ ws, y.1 ≠ x := fun y hy he => hmem (List.mem_map.mpr ⟨y, hy, he⟩)
      rw [applyWrites_other hne, ← hxw, Function.update_self, hw hxw]

/-- A property that each write of the sequence keeps survives a crash after any prefix of it. -/
theorem applyWrites_take_keeps {P : (κ → β) → Prop} {ws : List (κ × β)}
    (hkeep : ∀ w ∈ ws, ∀ d, P d → P (Function.update d w.1 w.2)) {d : κ → β} (hd : P d) (k : ℕ) :
    P (applyWrites (ws.take k) d) := by
  induction ws generalizing d k with
  | nil => simpa using hd
  | cons w ws ih =>
    obtain ⟨hw, hrest⟩ := List.forall_mem_cons.mp hkeep
    cases k with
    | zero => simpa using hd
    | succ k => exact ih hrest (hw d hd) k

end Xv6.Schemes
