import Mathlib.Data.List.Basic

/-! @scheme lines | name:Lines of a stream | family:sequences

    A stream is cut at a separator. Each line ends with one; what follows the last separator is the
    unfinished line. What arrives later is cut as if it had been there from the start, since only the
    unfinished line is left to be continued. -/

namespace Xv6.Schemes.Lines

variable {α : Type*} [DecidableEq α]

/-- The lines of a stream, without their separators. -/
def lines (nl : α) : List α → List (List α)
  | [] => []
  | x :: s =>
    if x = nl then [] :: lines nl s
    else
      match lines nl s with
      | [] => []
      | l :: ls => (x :: l) :: ls

attribute [grind =] lines

/-- The unfinished line. -/
def rest (nl : α) : List α → List α
  | [] => []
  | x :: s => if nl ∈ x :: s then rest nl s else x :: s

attribute [grind =] rest

/-- The stream up to its last separator. -/
def ended (nl : α) : List α → List α
  | [] => []
  | x :: s => if nl ∈ x :: s then x :: ended nl s else []

variable {nl : α} {s t l : List α}

theorem lines_free (h : nl ∉ s) : lines nl s = [] := by
  induction s with
  | nil => rfl
  | cons x s ih =>
    obtain ⟨hx, hs⟩ := List.ne_and_not_mem_of_not_mem_cons h
    rw [lines, if_neg (Ne.symm hx), ih hs]

theorem rest_free (h : nl ∉ s) : rest nl s = s := by
  cases s with
  | nil => rfl
  | cons x s => rw [rest, if_neg h]

theorem ended_free (h : nl ∉ s) : ended nl s = [] := by
  cases s with
  | nil => rfl
  | cons x s => rw [ended, if_neg h]

theorem lines_line (h : nl ∉ l) : lines nl (l ++ nl :: s) = l :: lines nl s := by
  induction l with
  | nil => rw [List.nil_append, lines, if_pos rfl]
  | cons x l ih =>
    obtain ⟨hx, hl⟩ := List.ne_and_not_mem_of_not_mem_cons h
    rw [List.cons_append, lines, if_neg (Ne.symm hx), ih hl]

theorem rest_line : rest nl (l ++ nl :: s) = rest nl s := by
  induction l with
  | nil => rw [List.nil_append, rest, if_pos List.mem_cons_self]
  | cons x l ih => rw [List.cons_append, rest, if_pos (by simp), ih]

theorem ended_line : ended nl (l ++ nl :: s) = l ++ nl :: ended nl s := by
  induction l with
  | nil => rw [List.nil_append, ended, if_pos List.mem_cons_self, List.nil_append]
  | cons x l ih => rw [List.cons_append, ended, if_pos (by simp), ih, List.cons_append]

/-- A stream is a line and a stream, or an unfinished line. -/
theorem lines_induction (nl : α) {P : List α → Prop} (free : ∀ s, nl ∉ s → P s)
    (line : ∀ l s, nl ∉ l → P s → P (l ++ nl :: s)) (s : List α) : P s := by
  induction hn : s.length using Nat.strongRecOn generalizing s with
  | _ n ih =>
    by_cases h : nl ∈ s
    · obtain ⟨l, t, rfl, hl⟩ := List.eq_append_cons_of_mem h
      refine line l t hl (ih t.length ?_ t rfl)
      rw [← hn, List.length_append, List.length_cons]
      omega
    · exact free s h

theorem not_mem_rest : nl ∉ rest nl s := by
  induction s using lines_induction nl with
  | free s h => rwa [rest_free h]
  | line l s _ ih => rwa [rest_line]

theorem ended_append_rest (nl : α) (s : List α) : ended nl s ++ rest nl s = s := by
  induction s using lines_induction nl with
  | free s h => rw [ended_free h, rest_free h, List.nil_append]
  | line l s _ ih => rw [ended_line, rest_line, List.append_assoc, List.cons_append, ih]

/-- The lines of a stream that goes on. -/
theorem lines_append : lines nl (s ++ t) = lines nl s ++ lines nl (rest nl s ++ t) := by
  induction s using lines_induction nl with
  | free s h => rw [lines_free h, rest_free h, List.nil_append]
  | line l s hl ih =>
    rw [List.append_assoc, List.cons_append, lines_line hl, lines_line hl, rest_line, ih,
      List.cons_append]

theorem rest_append : rest nl (s ++ t) = rest nl (rest nl s ++ t) := by
  induction s using lines_induction nl with
  | free s h => rw [rest_free h]
  | line l s _ ih => rw [List.append_assoc, List.cons_append, rest_line, rest_line, ih]

theorem lines_ended : lines nl (ended nl s) = lines nl s := by
  induction s using lines_induction nl with
  | free s h => rw [ended_free h, lines_free h, lines]
  | line l s hl ih => rw [ended_line, lines_line hl, lines_line hl, ih]

theorem rest_ended : rest nl (ended nl s) = [] := by
  induction s using lines_induction nl with
  | free s h => rw [ended_free h, rest]
  | line l s _ ih => rw [ended_line, rest_line, ih]

end Xv6.Schemes.Lines
