import Xv6.Grep.Match
import Xv6.Schemes.Lines

/-! @src grep.c ulib.c | name:grep on a stream | layer:model,proof

    The loop of `grep` over what its reads return. It scans its buffer for lines and moves the
    unfinished one to the front, but forgets the buffer when it has found no newline in it. So a piece
    without a newline is lost, and the unfinished line before it. -/

namespace Xv6.Grep
open Xv6.Schemes Xv6.Schemes.Lines

/-- `sizeof(buf)`. -/
abbrev SIZE : ℕ := 1024

abbrev newline : Byte := ascii '\n'

/-- `strchr`: how far `c` is from the beginning of what `s` points to. -/
def strchr (s : List Byte) (c : Byte) : Option ℕ :=
  match s with
  | [] => none
  | x :: s => if x = 0 then none else if x = c then some 0 else (strchr s c).map (· + 1)

attribute [grind =] strchr

/-- The string that `s` points to. -/
def str (s : List Byte) : List Byte := s.takeWhile (· ≠ 0)

theorem strchr_lt {s : List Byte} {c : Byte} {k : ℕ} (h : strchr s c = some k) : k < s.length := by
  induction s generalizing k with
  | nil => exact absurd h (by simp [strchr])
  | cons x s ih =>
    rw [strchr] at h
    split_ifs at h with hz hc
    · obtain rfl := Option.some.inj h
      exact Nat.succ_pos _
    · obtain ⟨j, hj, rfl⟩ := Option.map_eq_some_iff.mp h
      exact Nat.succ_lt_succ (ih hj)

/-- The inner loop from `p` on: what it writes, and `buf` and `p` after it. -/
def scan (pattern buf : List Byte) (p : ℕ) : List (List Byte) × List Byte × ℕ :=
  match h : strchr (buf.drop p) newline with
  | none => ([], buf, p)
  | some k =>
    let q := p + k
    let cut := buf.set q 0
    if match_ pattern (str (cut.drop p)) then
      let buf := cut.set q newline
      let r := scan pattern buf (q + 1)
      ((buf.drop p).take (q + 1 - p) :: r.1, r.2)
    else scan pattern cut (q + 1)
termination_by buf.length - p
decreasing_by
  all_goals
    have hk := strchr_lt h
    rw [List.length_drop] at hk
    simp only [List.length_set]
    omega

/-- The loop of `grep`, given what its reads return: a read returns 0 at the end of the file, or if
    it is asked for nothing, and never more than it is asked for. -/
def grepLoop (pattern : List Byte) : List Byte → ℕ → List (List Byte) → Option (List (List Byte))
  | _, _, [] => some []
  | buf, m, piece :: pieces =>
    if SIZE - m - 1 = 0 ∨ piece = [] then some []
    else if SIZE - m - 1 < piece.length then none
    else
      let buf := buf.take m ++ piece ++ buf.drop (m + piece.length)
      let m := m + piece.length
      let buf := buf.set m 0
      let (out, buf, p) := scan pattern buf 0
      let m := if p = 0 then 0 else m
      -- memmove(buf, p, m)
      let (buf, m) := if 0 < m then ((buf.drop p).take (m - p) ++ buf.drop (m - p), m - p) else (buf, m)
      (grepLoop pattern buf m pieces).map (out ++ ·)

attribute [grind =] grepLoop

/-- `grep`: what its writes write. -/
def grep (pattern : List Byte) (buf : Vector Byte SIZE) (pieces : List (List Byte)) :
    Option (List (List Byte)) :=
  grepLoop pattern buf.toList 0 pieces

/-! ### What is written -/

/-- The lines that match. -/
def selected (pattern s : List Byte) : List (List Byte) :=
  (lines newline s).filter (match_ pattern)

/-- Each of them with its newline. -/
def written (pattern s : List Byte) : List (List Byte) :=
  (selected pattern s).map (· ++ [newline])

/-- What has been kept after one more piece. -/
def keep (s piece : List Byte) : List Byte :=
  if newline ∈ piece then s ++ piece else ended newline s

/-- The stream without the pieces that have no newline, and without the unfinished line before each
    of them. -/
def kept (pieces : List (List Byte)) : List Byte := pieces.foldl keep []

/-! ### One piece -/

section Scan

variable {pattern buf text junk l s : List Byte} {p k : ℕ}

theorem strchr_none (hnul : 0 ∉ text) (hnl : newline ∉ text) :
    strchr (text ++ 0 :: junk) newline = none := by
  induction text with
  | nil => rw [List.nil_append, strchr, if_pos rfl]
  | cons x text ih =>
    obtain ⟨hx, hnul⟩ := List.ne_and_not_mem_of_not_mem_cons hnul
    obtain ⟨hx', hnl⟩ := List.ne_and_not_mem_of_not_mem_cons hnl
    rw [List.cons_append, strchr, if_neg hx.symm, if_neg hx'.symm, ih hnul hnl, Option.map_none]

theorem strchr_line (hnul : 0 ∉ l) (hnl : newline ∉ l) :
    strchr (l ++ newline :: s) newline = some l.length := by
  induction l with
  | nil => rw [List.nil_append, strchr, if_neg (by decide), if_pos rfl, List.length_nil]
  | cons x l ih =>
    obtain ⟨hx, hnul⟩ := List.ne_and_not_mem_of_not_mem_cons hnul
    obtain ⟨hx', hnl⟩ := List.ne_and_not_mem_of_not_mem_cons hnl
    rw [List.cons_append, strchr, if_neg hx.symm, if_neg hx'.symm, ih hnul hnl, Option.map_some,
      List.length_cons]

theorem str_append (hnul : 0 ∉ l) : str (l ++ 0 :: s) = l := by
  unfold str
  rw [List.takeWhile_append_of_pos fun x hx => by simpa using fun h : x = 0 => hnul (h ▸ hx)]
  simp

theorem scan_none (h : strchr (buf.drop p) newline = none) : scan pattern buf p = ([], buf, p) := by
  rw [scan]
  split
  · rfl
  · rename_i k hk
    exact absurd (h.symm.trans hk) (by simp)

theorem scan_some (h : strchr (buf.drop p) newline = some k) :
    scan pattern buf p =
      if match_ pattern (str ((buf.set (p + k) 0).drop p)) then
        let buf := (buf.set (p + k) 0).set (p + k) newline
        let r := scan pattern buf (p + k + 1)
        ((buf.drop p).take (p + k + 1 - p) :: r.1, r.2)
      else scan pattern (buf.set (p + k) 0) (p + k + 1) := by
  rw [scan]
  split
  · rename_i hn
    exact absurd (h.symm.trans hn) (by simp)
  · rename_i j hj
    obtain rfl := Option.some.inj (h.symm.trans hj)
    rfl

/-- A character of the line that `p` points to. -/
theorem drop_set_line {x y : Byte} (hbuf : buf.drop p = l ++ x :: s) :
    (buf.set (p + l.length) y).drop p = l ++ y :: s := by
  rw [List.drop_set, if_neg (by omega), hbuf, Nat.add_sub_cancel_left, List.set_append_right _ _ le_rfl,
    Nat.sub_self, List.set_cons_zero]

theorem drop_after {x : Byte} (hbuf : buf.drop p = l ++ x :: s) :
    buf.drop (p + l.length + 1) = s := by
  rw [Nat.add_assoc, ← List.drop_drop, hbuf, ← List.drop_drop, List.drop_left, List.drop_one,
    List.tail_cons]

/-- A line that matches is written. -/
theorem written_line (hnl : newline ∉ l) : written pattern (l ++ newline :: s) =
    if match_ pattern l then (l ++ [newline]) :: written pattern s else written pattern s := by
  unfold written selected
  rw [lines_line hnl, List.filter_cons]
  split <;> rfl

/-- What `scan` does with the text in the buffer. -/
structure Scanned (pattern buf text junk : List Byte) (p : ℕ)
    (r : List (List Byte) × List Byte × ℕ) : Prop where
  out : r.1 = written pattern text
  length : r.2.1.length = buf.length
  drop : r.2.1.drop r.2.2 = rest newline text ++ 0 :: junk
  pos : r.2.2 = p + (ended newline text).length

theorem scan_spec (pattern : List Byte) (hbuf : buf.drop p = text ++ 0 :: junk) (hnul : 0 ∉ text) :
    Scanned pattern buf text junk p (scan pattern buf p) := by
  induction text using lines_induction newline generalizing buf p with
  | free text hnl =>
    rw [scan_none (hbuf ▸ strchr_none hnul hnl)]
    refine ⟨?_, rfl, ?_, ?_⟩
    · rw [written, selected, lines_free hnl, List.filter_nil, List.map_nil]
    · rw [rest_free hnl, hbuf]
    · rw [ended_free hnl, List.length_nil, Nat.add_zero]
  | line l s hnl ih =>
    have hnul_l : 0 ∉ l := fun h => hnul (List.mem_append_left _ h)
    have hnul_s : 0 ∉ s := fun h => hnul (List.mem_append_right _ (List.mem_cons_of_mem _ h))
    rw [List.append_assoc, List.cons_append] at hbuf
    have hcut := drop_set_line (y := 0) hbuf
    rw [scan_some (hbuf ▸ strchr_line hnul_l hnl), hcut, str_append hnul_l]
    -- the line, and the scan of the others in the buffer that is left
    have hrest : ∀ buf', buf'.length = buf.length → buf'.drop (p + l.length + 1) = s ++ 0 :: junk →
        Scanned pattern buf s junk (p + l.length + 1) (scan pattern buf' (p + l.length + 1)) := by
      intro buf' hlen hdrop
      obtain ⟨hout, hlen', hdrop', hpos⟩ := ih hdrop hnul_s
      exact ⟨hout, hlen'.trans hlen, hdrop', hpos⟩
    have hended : (ended newline (l ++ newline :: s)).length =
        l.length + 1 + (ended newline s).length := by
      rw [ended_line, List.length_append, List.length_cons]
      omega
    by_cases hm : match_ pattern l
    · rw [if_pos hm]
      have hback := drop_set_line (y := newline) hcut
      obtain ⟨hout, hlen, hdrop, hpos⟩ :=
        hrest _ (by rw [List.length_set, List.length_set]) (drop_after hback)
      refine ⟨?_, hlen, ?_, ?_⟩
      · rw [written_line hnl, if_pos hm, ← hout]
        change (List.drop p _).take _ :: _ = _
        rw [hback, Nat.add_assoc, Nat.add_sub_cancel_left, List.take_length_add_append]
        rfl
      · rw [rest_line, hdrop]
      · rw [hended, hpos]
        omega
    · rw [if_neg hm]
      obtain ⟨hout, hlen, hdrop, hpos⟩ := hrest _ (by rw [List.length_set]) (drop_after hcut)
      refine ⟨?_, hlen, ?_, ?_⟩
      · rw [written_line hnl, if_neg hm, hout]
      · rw [rest_line, hdrop]
      · rw [hended, hpos]
        omega

end Scan

/-! ### The loop -/

section Loop

variable {pattern buf s piece : List Byte} {m : ℕ} {pieces out : List (List Byte)}

/-- The buffer holds the unfinished line of what has been kept, and a read asks for something. -/
structure Carries (buf : List Byte) (m : ℕ) (s : List Byte) : Prop where
  size : buf.length = SIZE
  length : m = (rest newline s).length
  carry : buf.take m = rest newline s
  nul : 0 ∉ rest newline s
  asks : m + 1 < SIZE

/-- What a round of the loop writes, and the buffer it leaves. -/
def Round (pattern buf : List Byte) (m : ℕ) (piece : List Byte) (s : List Byte)
    (pieces : List (List Byte)) : Prop :=
  ∃ buf' m', Carries buf' m' (keep s piece) ∧
    grepLoop pattern buf m (piece :: pieces) = (grepLoop pattern buf' m' pieces).map
      (written pattern (rest newline s ++ piece) ++ ·)

theorem filled_eq (h : Carries buf m s) (hroom : piece.length ≤ SIZE - m - 1) :
    (buf.take m ++ piece ++ buf.drop (m + piece.length)).set (m + piece.length) 0 =
      (rest newline s ++ piece) ++ 0 :: buf.drop (m + piece.length + 1) := by
  have hlt : m + piece.length < buf.length := by
    have := h.asks
    rw [h.size]
    omega
  have hlen : (rest newline s ++ piece).length = m + piece.length := by
    rw [List.length_append, ← h.length]
  rw [h.carry, ← hlen, List.set_append_right _ _ le_rfl, Nat.sub_self, hlen,
    List.drop_eq_getElem_cons hlt, List.set_cons_zero]

theorem round_spec (pattern : List Byte) (pieces : List (List Byte)) (h : Carries buf m s) (hne : piece ≠ []) (hnul : 0 ∉ piece)
    (hroom : piece.length ≤ SIZE - m - 1) : Round pattern buf m piece s pieces := by
  have hlen : (rest newline s ++ piece).length = m + piece.length := by
    rw [List.length_append, ← h.length]
  have htext : 0 ∉ rest newline s ++ piece := fun h0 =>
    (List.mem_append.mp h0).elim h.nul hnul
  have hfilled := filled_eq h hroom
  have hsize : ((rest newline s ++ piece) ++ 0 :: buf.drop (m + piece.length + 1)).length = SIZE := by
    have := h.asks
    rw [List.length_append, List.length_cons, List.length_drop, hlen, h.size]
    omega
  obtain ⟨hout, hlength, hdrop, hpos⟩ := scan_spec pattern
    (List.drop_zero (l := rest newline s ++ piece ++ 0 :: buf.drop (m + piece.length + 1))) htext
  have hask : ¬ (SIZE - m - 1 = 0 ∨ piece = []) := by
    have := h.asks
    have : ¬ SIZE - m - 1 = 0 := by omega
    exact not_or.mpr ⟨this, hne⟩
  unfold Round
  rw [grepLoop, if_neg hask, if_neg (not_lt.mpr hroom)]
  simp only [hfilled, hout, hpos, Nat.zero_add]
  by_cases hnl : newline ∈ piece
  · -- the unfinished line is moved to the front
    have hmem : newline ∈ rest newline s ++ piece := List.mem_append_right _ hnl
    have hpos0 : (ended newline (rest newline s ++ piece)).length ≠ 0 := by
      obtain ⟨l, t, ht, -⟩ := List.eq_append_cons_of_mem hmem
      rw [ht, ended_line, List.length_append, List.length_cons]
      omega
    have hcut := congrArg List.length (ended_append_rest newline (rest newline s ++ piece))
    rw [List.length_append, hlen] at hcut
    have hm : 0 < m + piece.length := by omega
    have hcarry : rest newline (s ++ piece) = rest newline (rest newline s ++ piece) := rest_append
    have hleft : m + piece.length - (ended newline (rest newline s ++ piece)).length =
        (rest newline (rest newline s ++ piece)).length := by omega
    rw [hpos, Nat.zero_add] at hdrop
    rw [if_neg hpos0, if_pos hm, hleft, hdrop, List.take_left]
    refine ⟨_, _, ?_, rfl⟩
    rw [keep, if_pos hnl]
    refine ⟨?_, ?_, ?_, ?_, ?_⟩
    · rw [List.length_append, List.length_drop, hlength, hsize]
      omega
    · exact congrArg List.length hcarry.symm
    · exact List.take_left.trans hcarry.symm
    · intro h0
      rw [hcarry] at h0
      refine htext ?_
      rw [← ended_append_rest newline (rest newline s ++ piece)]
      exact List.mem_append_right _ h0
    · have := h.asks
      omega
  · -- nothing is left
    have hfree : newline ∉ rest newline s ++ piece := fun h =>
      (List.mem_append.mp h).elim not_mem_rest hnl
    rw [ended_free hfree, if_pos List.length_nil]
    refine ⟨_, 0, ?_, rfl⟩
    rw [keep, if_neg hnl]
    refine ⟨hlength.trans hsize, ?_, ?_, ?_, by decide⟩
    · rw [rest_ended, List.length_nil]
    · rw [rest_ended, List.take_zero]
    · rw [rest_ended]
      exact List.not_mem_nil

theorem written_keep (s piece : List Byte) :
    written pattern (keep s piece) = written pattern s ++ written pattern (rest newline s ++ piece) := by
  unfold keep written selected
  by_cases hnl : newline ∈ piece
  · rw [if_pos hnl, lines_append, List.filter_append, List.map_append]
  · have hfree : newline ∉ rest newline s ++ piece := fun h =>
      (List.mem_append.mp h).elim not_mem_rest hnl
    rw [if_neg hnl, lines_ended, lines_free hfree, List.filter_nil, List.map_nil, List.append_nil]

theorem loop_spec (h : Carries buf m s) (hpieces : ∀ piece ∈ pieces, piece ≠ [] ∧ 0 ∉ piece)
    (hout : grepLoop pattern buf m pieces = some out) :
    written pattern s ++ out = written pattern (pieces.foldl keep s) := by
  induction pieces generalizing buf m s out with
  | nil =>
    obtain rfl := Option.some.inj hout
    rw [List.append_nil, List.foldl_nil]
  | cons piece pieces ih =>
    obtain ⟨⟨hne, hnul⟩, hpieces⟩ := List.forall_mem_cons.mp hpieces
    have hroom : piece.length ≤ SIZE - m - 1 := by
      have hask : ¬ (SIZE - m - 1 = 0 ∨ piece = []) := by
        have := h.asks
        have : ¬ SIZE - m - 1 = 0 := by omega
        exact not_or.mpr ⟨this, hne⟩
      by_contra hlong
      rw [grepLoop, if_neg hask, if_pos (not_le.mp hlong)] at hout
      exact absurd hout (by simp)
    obtain ⟨buf', m', h', hround⟩ := round_spec pattern pieces h hne hnul hroom
    rw [hround] at hout
    obtain ⟨out', hout', rfl⟩ := Option.map_eq_some_iff.mp hout
    rw [List.foldl_cons, ← ih h' hpieces hout', written_keep, List.append_assoc]

/-- A stream can always come byte by byte: a read never asks for less. -/
theorem loop_returns (pattern : List Byte) (h : Carries buf m s)
    (hpieces : ∀ piece ∈ pieces, piece.length = 1 ∧ 0 ∉ piece) :
    (grepLoop pattern buf m pieces).isSome := by
  induction pieces generalizing buf m s with
  | nil => rfl
  | cons piece pieces ih =>
    obtain ⟨⟨hone, hnul⟩, hpieces⟩ := List.forall_mem_cons.mp hpieces
    have hne : piece ≠ [] := List.ne_nil_of_length_pos (hone ▸ Nat.one_pos)
    have hroom : piece.length ≤ SIZE - m - 1 := by
      have := h.asks
      omega
    obtain ⟨buf', m', h', hround⟩ := round_spec pattern pieces h hne hnul hroom
    rw [hround, Option.isSome_map]
    exact ih h' hpieces

theorem carries_init (buf : Vector Byte SIZE) : Carries buf.toList 0 [] :=
  ⟨Vector.length_toList .., rfl, List.take_zero, List.not_mem_nil, by decide⟩

end Loop

/-- What `grep` writes: the matching lines of what it keeps of the stream. -/
theorem grep_spec {pattern : List Byte} {buf : Vector Byte SIZE} {pieces out : List (List Byte)}
    (hpieces : ∀ piece ∈ pieces, piece ≠ [] ∧ 0 ∉ piece) (h : grep pattern buf pieces = some out) :
    out = written pattern (kept pieces) :=
  loop_spec (carries_init buf) hpieces h

theorem written_inj {pattern s t : List Byte} :
    written pattern s = written pattern t ↔ selected pattern s = selected pattern t :=
  (List.map_injective_iff.mpr (List.append_left_injective [newline])).eq_iff

/-- `grep` writes the matching lines of the stream, each once and in order, iff they are the matching
    lines of the stream without the pieces that have no newline and the unfinished lines before
    them. -/
theorem grep_writes_iff (pattern : CString) (buf : Vector Byte SIZE)
    {pieces out : List (List Byte)} (hpieces : ∀ piece ∈ pieces, piece ≠ [] ∧ 0 ∉ piece)
    (h : grep pattern.chars buf pieces = some out) :
    out = written pattern.chars pieces.flatten ↔
      selected pattern.chars (kept pieces) = selected pattern.chars pieces.flatten := by
  rw [grep_spec hpieces h, written_inj]

/-- An empty line that arrives in one read. -/
theorem grep_writes_iff_empty : ∃ out, grep [] (.replicate SIZE 0) [[newline]] = some out ∧
    out = written [] [newline] := by
  obtain ⟨out, hout⟩ := Option.isSome_iff_exists.mp
    (loop_returns [] (carries_init (.replicate SIZE 0)) (by decide : ∀ piece ∈ [[newline]], _))
  exact ⟨out, hout, (grep_writes_iff ⟨[], by decide⟩ _ (by decide) hout).mpr rfl⟩

/-- A line that arrives in two reads, the newline in the second one: it is not written. -/
theorem grep_loses_line : ∃ out, grep [ascii 'a'] (.replicate SIZE 0) [[ascii 'a'], [newline]] = some out ∧
    out = [] ∧ written [ascii 'a'] [ascii 'a', newline] = [[ascii 'a', newline]] := by
  obtain ⟨out, hout⟩ := Option.isSome_iff_exists.mp
    (loop_returns [ascii 'a'] (carries_init (.replicate SIZE 0))
      (by decide : ∀ piece ∈ [[ascii 'a'], [newline]], _))
  have hempty : match_ [ascii 'a'] [] = false := by
    simp [match_, matchLoop, matchhere, ascii]
  have hline : match_ [ascii 'a'] [ascii 'a'] = true := by
    simp [match_, matchLoop, matchhere, ascii]
  have hkept : kept [[ascii 'a'], [newline]] = [newline] := by decide
  have hkeeps : lines newline [newline] = [[]] := by decide
  have hlines : lines newline [ascii 'a', newline] = [[ascii 'a']] := by decide
  refine ⟨out, hout, ?_, ?_⟩
  · rw [grep_spec (by decide) hout, hkept, written, selected, hkeeps, List.filter_singleton, hempty]
    rfl
  · rw [written, selected, hlines, List.filter_singleton, hline]
    rfl

end Xv6.Grep
