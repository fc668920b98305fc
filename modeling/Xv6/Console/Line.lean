import Xv6.Console.Input
import Xv6.Schemes.Ring

/-! @src console.c | name:The ring of the console as a queue and a line | layer:proof

    From `r` to `w` the ring holds the committed characters that nobody has read, from `w` to `e`
    the line that is being edited. Every operation on the ring is one on these two lists. -/

namespace Xv6.Console
open Xv6.Schemes
open Xv6.Schemes.X86 (Word)

theorem INPUT_BUF_eq : INPUT_BUF = 128 := rfl

/-- The characters that act on the line or do nothing: NUL, ^P, ^U, ^H and DEL. -/
def Edits (c : Byte) : Prop := c = 0 ∨ c = listing ∨ c = kill ∨ c = backspace ∨ c = delete

/-- A carriage return is read as a newline. -/
def asRead (c : Byte) : Byte := if c = carriage then newline else c

namespace Input

/-- The committed characters that have not been read. -/
def ready (i : Input) : List Key := Ring.contents INPUT_BUF i.buf i.r i.w

/-- The line that is being edited. -/
def line (i : Input) : List Key := Ring.contents INPUT_BUF i.buf i.w i.e

/-- `r <= w <= e <= r + INPUT_BUF`, as differences. -/
structure Ordered (i : Input) : Prop where
  between : Ring.Between i.r i.w i.e
  bound : Ring.count i.r i.e ≤ INPUT_BUF

end Input

variable {i j : Input} {k : Key}

/-! ### The operations -/

theorem Input.Ordered.push (h : i.Ordered) (hlt : Ring.count i.r i.e < INPUT_BUF) (k : Key) :
    (i.push k).Ordered where
  between := h.between.push (by rw [INPUT_BUF_eq] at hlt; omega)
  bound := by
    have : Ring.count i.r (i.e + 1) = Ring.count i.r i.e + 1 :=
      Ring.count_succ (by rw [INPUT_BUF_eq] at hlt; omega)
    change Ring.count i.r (i.e + 1) ≤ INPUT_BUF
    omega

theorem line_push (h : i.Ordered) (hlt : Ring.count i.r i.e < INPUT_BUF) (k : Key) :
    (i.push k).line = i.line ++ [k] := by
  have hw : Ring.count i.w i.e < INPUT_BUF := by
    have := h.between
    unfold Ring.Between at this
    omega
  exact Ring.contents_push (by decide) hw (by rw [INPUT_BUF_eq] at hw; omega) k

theorem ready_push (h : i.Ordered) (hlt : Ring.count i.r i.e < INPUT_BUF) (k : Key) :
    (i.push k).ready = i.ready :=
  Ring.contents_update (by decide) h.between hlt k

theorem Input.Ordered.erase (h : i.Ordered) (hne : i.e ≠ i.w) : i.erase.Ordered where
  between := h.between.back hne.symm
  bound := by
    have hw : Ring.count i.w i.e ≠ 0 := mt Ring.count_eq_zero.mp hne.symm
    have hr : Ring.count i.r i.e ≠ 0 := by
      have := h.between
      unfold Ring.Between at this
      omega
    have := Ring.count_back hr
    have := h.bound
    change Ring.count i.r (i.e - 1) ≤ INPUT_BUF
    omega

theorem line_erase (hne : i.e ≠ i.w) : i.line = i.erase.line ++ [i.last] :=
  Ring.contents_back (mt Ring.count_eq_zero.mp hne.symm)

theorem Input.Ordered.commit (h : i.Ordered) : i.commit.Ordered :=
  ⟨Ring.between_right, h.bound⟩

theorem ready_commit (h : i.Ordered) : i.commit.ready = i.ready ++ i.line :=
  Ring.contents_append h.between

theorem line_commit : i.commit.line = [] := Ring.contents_self

theorem ready_eq_nil : i.ready = [] ↔ i.r = i.w := by
  rw [← List.length_eq_zero_iff, Input.ready, Ring.length_contents, Ring.count_eq_zero]

theorem Input.Ordered.pop (h : i.Ordered) (hne : i.r ≠ i.w) : i.pop.2.Ordered where
  between := h.between.pop hne
  bound := by
    have hw : Ring.count i.r i.w ≠ 0 := mt Ring.count_eq_zero.mp hne
    have hr : Ring.count i.r i.e ≠ 0 := by
      have := h.between
      unfold Ring.Between at this
      omega
    have := Ring.count_pred hr
    have := h.bound
    change Ring.count (i.r + 1) i.e ≤ INPUT_BUF
    omega

theorem ready_pop (hne : i.r ≠ i.w) : i.ready = i.pop.1 :: i.pop.2.ready :=
  Ring.contents_pop (mt Ring.count_eq_zero.mp hne)

/-- Reading a character and putting it back. -/
theorem unpop : { i.pop.2 with r := i.pop.2.r - 1 } = i := by
  have : i.r + 1 - 1 = i.r := BitVec.add_sub_cancel i.r 1
  simp only [Input.pop, this]

/-! ### What the interrupt does -/

/-- The loop of ^U erases from the end of the line, up to a newline. -/
theorem killLine_spec (fuel : ℕ) (h : i.Ordered) :
    ∃ ks j, killLine fuel i = (ks, j) ∧ j.Ordered ∧ i.line = j.line ++ ks.reverse ∧
      j.ready = i.ready ∧ (i.line.length ≤ fuel → j.line = [] ∨ j.last.code = newline) := by
  induction fuel generalizing i with
  | zero => exact ⟨[], i, rfl, h, by simp, rfl, fun hl => Or.inl (List.length_eq_zero_iff.mp (by omega))⟩
  | succ fuel ih =>
    by_cases hgo : i.e ≠ i.w ∧ i.last.code ≠ newline
    · obtain ⟨ks, j, hk, hj, hline, hready, hstop⟩ := ih (h.erase hgo.1)
      refine ⟨i.last :: ks, j, by rw [killLine, if_pos hgo, hk], hj, ?_, hready, fun hl => ?_⟩
      · rw [line_erase hgo.1, hline, List.reverse_cons, List.append_assoc]
      · refine hstop ?_
        rw [line_erase hgo.1, List.length_append, List.length_singleton] at hl
        omega
    · refine ⟨[], i, by rw [killLine, if_neg hgo], h, by simp, rfl, fun _ => ?_⟩
      by_cases he : i.e = i.w
      · left
        rw [Input.line, he, Ring.contents_self]
      · right
        by_contra hnl
        exact hgo ⟨he, hnl⟩

/-- What receiving a character does to the ring. -/
inductive Switched (i : Input) (k : Key) : Fate × Input → Prop
  | nothing (hc : Edits k.code) : Switched i k (.nothing, i)
  | erased {ks : List Key} {j : Input} (hc : Edits k.code) (ho : j.Ordered)
      (hline : i.line = j.line ++ ks.reverse) (hready : j.ready = i.ready) :
      Switched i k (.erased ks, j)
  | dropped (hc : ¬ Edits k.code) {d : Word} (hfull : d.toNat = INPUT_BUF) :
      Switched i k (.dropped d, i)
  | stored {j : Input} (hc : ¬ Edits k.code) (ho : j.Ordered)
      (hline : j.line = i.line ++ [⟨k.no, asRead k.code⟩]) (hready : j.ready = i.ready) :
      Switched i k (.stored, j)
  | committed {j : Input} (hc : ¬ Edits k.code) (ho : j.Ordered)
      (hline : Sys.uncommitted { j with w := i.w } = i.line ++ [⟨k.no, asRead k.code⟩])
      (hready : j.ready = i.ready ++ (i.line ++ [⟨k.no, asRead k.code⟩])) (hnew : j.line = []) :
      Switched i k (.committed, j)

theorem switch_spec (h : i.Ordered) (k : Key) : Switched i k (i.switch k) := by
  unfold Input.switch
  split
  · exact .nothing (Or.inr (Or.inl ‹_›))
  split
  · obtain ⟨ks, j, hk, ho, hline, hready, -⟩ := killLine_spec (i.e - i.w).toNat h
    rw [hk]
    exact .erased (Or.inr (Or.inr (Or.inl ‹_›))) ho hline hready
  split
  · rename_i hc
    have hedits : Edits k.code := by
      rcases hc with hc | hc
      · exact Or.inr (Or.inr (Or.inr (Or.inl hc)))
      · exact Or.inr (Or.inr (Or.inr (Or.inr hc)))
    split
    · rename_i hne
      exact .erased hedits (h.erase hne) (line_erase hne) rfl
    · exact .erased hedits h (by simp) rfl
  split
  · exact .nothing (Or.inl ‹_›)
  rename_i hlist hkill hback hnul
  have hedits : ¬ Edits k.code := by
    rintro (hc | hc | hc | hc | hc)
    · exact hnul hc
    · exact hlist hc
    · exact hkill hc
    · exact hback (Or.inl hc)
    · exact hback (Or.inr hc)
  have hread : (if k.code = carriage then { k with code := newline } else k) =
      ⟨k.no, asRead k.code⟩ := by
    unfold asRead
    split <;> rfl
  have hlt : i.e - i.r < BitVec.ofNat 32 INPUT_BUF ↔ Ring.count i.r i.e < INPUT_BUF := Iff.rfl
  split
  · rename_i hroom
    rw [hlt] at hroom
    simp only [hread]
    have ho := h.push hroom ⟨k.no, asRead k.code⟩
    have hline := line_push h hroom ⟨k.no, asRead k.code⟩
    have hready := ready_push h hroom ⟨k.no, asRead k.code⟩
    split
    · refine .committed hedits ho.commit hline ?_ line_commit
      rw [ready_commit ho, hready, hline]
    · exact .stored hedits ho hline hready
  · rename_i hroom
    rw [hlt] at hroom
    exact .dropped hedits (le_antisymm h.bound (not_lt.mp hroom))

/-! ### What a reader does -/

/-- A read with `n` characters to go, from a queue: what it gets, how it ends and what it leaves. -/
def serve (target : ℕ) : ℕ → List Key → List Key × Stop × List Key
  | 0, q => ([], .returns [], q)
  | _ + 1, [] => ([], .waits, [])
  | n + 1, c :: q =>
    if c.code = eof then
      if n + 1 < target then ([], .returns [], c :: q) else ([], .returns [c], q)
    else if c.code = newline then ([c], .returns [], q)
    else
      let (cs, x, q) := serve target n q
      (c :: cs, x, q)

/-- The loops of `consoleread` serve the reader from the committed characters. -/
theorem readLoop_serve (target n : ℕ) (h : i.Ordered) :
    ∃ j, readLoop target n i = ((serve target n i.ready).1, (serve target n i.ready).2.1, j) ∧
      j.Ordered ∧ j.ready = (serve target n i.ready).2.2 ∧ j.line = i.line := by
  induction n generalizing i with
  | zero => exact ⟨i, rfl, h, rfl, rfl⟩
  | succ n ih =>
    by_cases hne : i.r = i.w
    · rw [ready_eq_nil.mpr hne]
      exact ⟨i, by rw [readLoop, if_pos hne]; rfl, h, ready_eq_nil.mpr hne, rfl⟩
    rw [ready_pop hne, readLoop, if_neg hne, serve]
    dsimp only
    split
    · split
      · exact ⟨i, by rw [unpop], h, ready_pop hne, rfl⟩
      · exact ⟨i.pop.2, rfl, h.pop hne, rfl, rfl⟩
    split
    · exact ⟨i.pop.2, rfl, h.pop hne, rfl, rfl⟩
    · obtain ⟨j, hj, ho, hready, hline⟩ := ih (h.pop hne)
      exact ⟨j, by rw [hj], ho, hready, hline⟩

/-- How a read has ended that still had `n` of `target` characters to go and got `cs`. -/
def Stop.Fits (target n : ℕ) (cs : List Key) : Stop → Prop
  | .returns [] => n = 0 ∨ n < target + cs.length
  | .returns (_ :: _) => cs = [] ∧ n = target ∧ 0 < n
  | .waits => cs.length < n

/-- The ^D that a read has taken. -/
def Stop.eofs : Stop → List Key
  | .returns ks => ks
  | .waits => []

/-- A read takes a prefix of the queue: what it gets, and perhaps a ^D. -/
theorem serve_spec {target n : ℕ} (hn : n ≤ target) (q : List Key) :
    ∃ cs x left, serve target n q = (cs, x, left) ∧ q = cs ++ x.eofs ++ left ∧
      (∀ c ∈ cs, c.code ≠ eof) ∧ (∀ c ∈ x.eofs, c.code = eof) ∧ cs.length ≤ n ∧
      x.eofs.length ≤ 1 ∧ x.Fits target n cs := by
  induction n generalizing q with
  | zero => exact ⟨[], .returns [], q, rfl, rfl, by simp, by simp [Stop.eofs], le_rfl, by simp [Stop.eofs],
      Or.inl rfl⟩
  | succ n ih =>
    cases q with
    | nil => exact ⟨[], .waits, [], rfl, rfl, by simp, by simp [Stop.eofs], Nat.zero_le _,
        by simp [Stop.eofs], Nat.succ_pos n⟩
    | cons c q =>
      rw [serve]
      split
      · rename_i hc
        split
        · rename_i hlt
          exact ⟨[], .returns [], c :: q, rfl, rfl, by simp, by simp [Stop.eofs], Nat.zero_le _,
            by simp [Stop.eofs], Or.inr hlt⟩
        · rename_i hge
          exact ⟨[], .returns [c], q, rfl, rfl, by simp, by simpa [Stop.eofs] using hc, Nat.zero_le _,
            by simp [Stop.eofs], rfl, by omega, Nat.succ_pos n⟩
      split
      · rename_i hc _
        exact ⟨[c], .returns [], q, rfl, rfl, by simpa using hc, by simp [Stop.eofs], by simp,
          by simp [Stop.eofs], Or.inr (by simp; omega)⟩
      · rename_i hc _
        obtain ⟨cs, x, left, hs, hq, hcs, hx, hlen, hone, hfits⟩ := ih (by omega) q
        refine ⟨c :: cs, x, left, by rw [hs], by rw [hq]; rfl, ?_, hx, by simpa using hlen, hone, ?_⟩
        · intro d hd
          rcases List.mem_cons.mp hd with rfl | hd
          · exact hc
          · exact hcs d hd
        · cases x with
          | waits => simpa [Stop.Fits] using hfits
          | returns ks =>
            cases ks with
            | nil => exact Or.inr (by simp; omega)
            | cons k ks =>
              obtain ⟨-, heq, -⟩ := hfits
              omega

/-- A read that meets a ^D: with data it leaves the ^D where it is, without data it takes it. -/
theorem serve_eof {target n : ℕ} (hn : n ≤ target) {ds rest : List Key} {k : Key}
    (hk : k.code = eof) (hds : ∀ d ∈ ds, d.code ≠ eof ∧ d.code ≠ newline) (hlen : ds.length < n) :
    serve target n (ds ++ k :: rest) =
      if ds = [] ∧ n = target then ([], .returns [k], rest) else (ds, .returns [], k :: rest) := by
  induction ds generalizing n with
  | nil =>
    obtain ⟨n, rfl⟩ : ∃ m, n = m + 1 := ⟨n - 1, by simp at hlen; omega⟩
    rw [List.nil_append, serve, if_pos hk]
    by_cases hlt : n + 1 < target
    · rw [if_pos hlt, if_neg (by simp; omega)]
    · rw [if_neg hlt, if_pos ⟨rfl, by omega⟩]
  | cons d ds ih =>
    obtain ⟨n, rfl⟩ : ∃ m, n = m + 1 := ⟨n - 1, by simp at hlen; omega⟩
    obtain ⟨hd, hnl⟩ := hds d List.mem_cons_self
    rw [List.cons_append, serve, if_neg hd, if_neg hnl, if_neg (by simp),
      ih (by omega) (fun x hx => hds x (List.mem_cons_of_mem d hx)) (by simpa using hlen),
      if_neg (by omega)]

end Xv6.Console
