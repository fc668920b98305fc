import Xv6.Console.Line
import Xv6.Schemes.Run
import Mathlib.Data.List.Count

/-! @src console.c | name:Console input is delivered exactly once | layer:proof

    Each character that arrives has one of five fates: it edits, it is dropped, it is erased, it
    waits in the line, or it is committed. Readers take the committed characters from the front and
    are given all of them but the ^D. -/

namespace Xv6.Console
open Xv6.Schemes
open Xv6.Schemes.X86 (Word)

variable {τ : Type} {s t : Sys τ}

/-! ### The fates of the characters -/

/-- No character that was received is lost or doubled, and the committed ones stay in order. -/
structure Kept (s : Sys τ) : Prop where
  ordered : s.input.Ordered
  queue : s.committed = s.taken ++ s.input.ready
  sorted : ((s.committed ++ s.input.line).map Key.no).Pairwise (· < ·)
  fates : ((s.committed ++ s.input.line).map Key.no ++ (s.erased.map Key.no ++
    (s.dropped.map Prod.fst ++ s.plain))).Perm (List.range s.received.length)
  codes : ∀ k ∈ s.committed ++ s.input.line ++ s.erased,
    ∃ c, s.received[k.no]? = some c ∧ ¬ Edits c ∧ k.code = asRead c
  full : ∀ d ∈ s.dropped, d.2.toNat = INPUT_BUF ∧ ∃ c, s.received[d.1]? = some c ∧ ¬ Edits c
  plain : ∀ n ∈ s.plain, ∃ c, s.received[n]? = some c ∧ Edits c

theorem kept_boot (buf : ℕ → Key) (x : Word) (killed : τ → Bool) :
    Kept (Sys.boot buf x killed) where
  ordered := { between := Ring.between_left, bound := by simp [Sys.boot] }
  queue := Ring.contents_self.symm
  sorted := by simp [Sys.boot, Input.line]
  fates := by simp [Sys.boot, Input.line]
  codes := by simp [Sys.boot, Input.line]
  full := by simp [Sys.boot]
  plain := by simp [Sys.boot]

/-- The processes have no part in it. -/
theorem Kept.parties (h : Kept s) (party : τ → Party) (delivered : List (Name τ × Key))
    (returned : List (Return τ)) :
    Kept { s with party := party, delivered := delivered, returned := returned } :=
  ⟨h.ordered, h.queue, h.sorted, h.fates, h.codes, h.full, h.plain⟩

/-- What is known of a character does not change when another one is received. -/
theorem received_mono {P : Byte → Prop} {l : List Byte} {n : ℕ} (c : Byte)
    (h : ∃ b, l[n]? = some b ∧ P b) : ∃ b, (l ++ [c])[n]? = some b ∧ P b := by
  obtain ⟨b, hb, hP⟩ := h
  obtain ⟨hlt, -⟩ := List.getElem?_eq_some_iff.mp hb
  exact ⟨b, by rw [List.getElem?_append_left hlt, hb], hP⟩

/-- The character just received. -/
theorem received_last {P : Byte → Prop} (l : List Byte) {c : Byte} (h : P c) :
    ∃ b, (l ++ [c])[l.length]? = some b ∧ P b := ⟨c, by simp, h⟩

/-- A character that is received is numbered after the ones in the buffer. -/
theorem Kept.sorted_push (h : Kept s) {k : Key} (hk : k.no = s.received.length) :
    ((s.committed ++ s.input.line ++ [k]).map Key.no).Pairwise (· < ·) := by
  rw [List.map_append, List.pairwise_append]
  refine ⟨h.sorted, by simp, fun n hn m hm => ?_⟩
  have hmem : n ∈ List.range s.received.length :=
    h.fates.mem_iff.mp (List.mem_append_left _ hn)
  have hm' : m = s.received.length := by simpa [hk] using hm
  rw [hm']
  exact List.mem_range.mp hmem

/-- Receiving one character. -/
theorem kept_receive (h : Kept s) (c : Byte) : Kept (s.receive c) := by
  have hspec := switch_spec h.ordered ⟨s.received.length, c⟩
  have hcodes : ∀ k ∈ s.committed ++ s.input.line ++ s.erased,
      ∃ b, (s.received ++ [c])[k.no]? = some b ∧ ¬ Edits b ∧ k.code = asRead b :=
    fun k hk => received_mono c (h.codes k hk)
  have hfull : ∀ d ∈ s.dropped, d.2.toNat = INPUT_BUF ∧
      ∃ b, (s.received ++ [c])[d.1]? = some b ∧ ¬ Edits b :=
    fun d hd => ⟨(h.full d hd).1, received_mono c (h.full d hd).2⟩
  have hplain : ∀ n ∈ s.plain, ∃ b, (s.received ++ [c])[n]? = some b ∧ Edits b :=
    fun n hn => received_mono c (h.plain n hn)
  have hnew : ¬ Edits c → ∃ b, (s.received ++ [c])[s.received.length]? = some b ∧ ¬ Edits b ∧
      asRead c = asRead b := fun hc => ⟨c, by simp, hc, rfl⟩
  have hcount := List.perm_iff_count.mp h.fates
  unfold Sys.receive
  generalize s.input.switch ⟨s.received.length, c⟩ = x at hspec ⊢
  cases hspec with
  | nothing hc =>
    dsimp only [Sys.settle]
    refine ⟨h.ordered, h.queue, h.sorted, ?_, hcodes, hfull, fun n hn => ?_⟩
    · refine List.perm_iff_count.mpr fun a => ?_
      have := hcount a
      simp only [List.count_append, List.length_append, List.length_singleton, List.range_succ]
        at this ⊢
      omega
    · rcases List.mem_append.mp hn with hn | hn
      · exact hplain n hn
      · obtain rfl := List.mem_singleton.mp hn
        exact received_last s.received hc
  | erased hc ho hline hready =>
    dsimp only [Sys.settle]
    refine ⟨ho, by rw [h.queue, hready], ?_, ?_, fun k hk => ?_, hfull, fun n hn => ?_⟩
    · have := h.sorted
      rw [hline, ← List.append_assoc, List.map_append] at this
      exact (List.pairwise_append.mp this).1
    · refine List.perm_iff_count.mpr fun a => ?_
      have := hcount a
      rw [hline] at this
      simp only [List.count_append, List.length_append, List.length_singleton, List.range_succ,
        List.map_append, List.map_reverse, List.count_reverse] at this ⊢
      omega
    · refine hcodes k ?_
      rw [hline]
      simp only [List.mem_append, List.mem_reverse] at hk ⊢
      tauto
    · rcases List.mem_append.mp hn with hn | hn
      · exact hplain n hn
      · obtain rfl := List.mem_singleton.mp hn
        exact received_last s.received hc
  | dropped hc hd =>
    dsimp only [Sys.settle]
    refine ⟨h.ordered, h.queue, h.sorted, ?_, hcodes, fun d hdm => ?_, hplain⟩
    · refine List.perm_iff_count.mpr fun a => ?_
      have := hcount a
      simp only [List.count_append, List.length_append, List.length_singleton, List.range_succ,
        List.map_append, List.map_cons, List.map_nil] at this ⊢
      omega
    · rcases List.mem_append.mp hdm with hdm | hdm
      · exact hfull d hdm
      · obtain rfl := List.mem_singleton.mp hdm
        exact ⟨hd, received_last s.received hc⟩
  | @stored j hc ho hline hready =>
    dsimp only [Sys.settle]
    refine ⟨ho, by rw [h.queue, hready], ?_, ?_, fun k hk => ?_, hfull, hplain⟩
    · change ((s.committed ++ j.line).map Key.no).Pairwise (· < ·)
      rw [hline, ← List.append_assoc]
      exact h.sorted_push rfl
    · refine List.perm_iff_count.mpr fun a => ?_
      have := hcount a
      simp only [hline, List.count_append, List.length_append, List.length_singleton,
        List.range_succ, List.map_append, List.map_cons, List.map_nil] at this ⊢
      omega
    · rw [hline] at hk
      simp only [List.mem_append, List.mem_singleton] at hk
      rcases hk with (hk | hk | rfl) | hk
      · exact hcodes k (by simp [hk])
      · exact hcodes k (by simp [hk])
      · exact hnew hc
      · exact hcodes k (by simp [hk])
  | @committed j hc ho hline hready hnil =>
    dsimp only [Sys.settle, Sys.wakeup]
    refine Kept.parties (s := { s with
      input := j
      received := s.received ++ [c]
      committed := s.committed ++ Sys.uncommitted { j with w := s.input.w } }) ?_ _ _ _
    rw [hline]
    refine ⟨ho, ?_, ?_, ?_, fun k hk => ?_, hfull, hplain⟩
    · change s.committed ++ _ = s.taken ++ j.ready
      rw [h.queue, hready, List.append_assoc]
    · change ((s.committed ++ (s.input.line ++ [_]) ++ j.line).map Key.no).Pairwise (· < ·)
      rw [hnil, List.append_nil, ← List.append_assoc]
      exact h.sorted_push rfl
    · refine List.perm_iff_count.mpr fun a => ?_
      have := hcount a
      simp only [hnil, List.count_append, List.length_append, List.length_singleton,
        List.range_succ, List.map_append, List.map_cons, List.map_nil, List.count_nil] at this ⊢
      omega
    · change k ∈ s.committed ++ (s.input.line ++ [_]) ++ j.line ++ s.erased at hk
      rw [hnil] at hk
      simp only [List.mem_append, List.mem_singleton, List.not_mem_nil, or_false] at hk
      rcases hk with (hk | hk | rfl) | hk
      · exact hcodes k (by simp [hk])
      · exact hcodes k (by simp [hk])
      · exact hnew hc
      · exact hcodes k (by simp [hk])

/-- An interrupt with any number of characters. -/
theorem kept_consoleintr (h : Kept s) (cs : List Byte) : Kept (cs.foldl Sys.receive s) := by
  induction cs generalizing s with
  | nil => exact h
  | cons c cs ih => exact ih (kept_receive h c)

/-! ### The readers -/

def Place.call : Place → Option Call
  | .out _ => none
  | .ready call | .asleep call => some call

/-- What a call has got. -/
def got [DecidableEq τ] (delivered : List (Name τ × Key)) (name : Name τ) : List Key :=
  (delivered.filter fun d => d.1 = name).map Prod.snd

/-- What was taken is delivered, except that each ^D lets one read return 0. A read that returns
    has got as many characters as it says, unless its process was killed. -/
structure Served [DecidableEq τ] (s : Sys τ) : Prop where
  delivered : s.delivered.map Prod.snd = s.taken.filter fun k => k.code ≠ eof
  eofs : s.returned.countP (fun x => 0 < x.target ∧ x.ret = 0) =
    s.taken.countP fun k => k.code = eof
  progress : ∀ p call, (s.party p).place.call = some call → call.target < 2 ^ 31 ∧
    (got s.delivered (p, (s.party p).done)).length + call.n = call.target
  idle : ∀ p, (s.party p).place.call = none → got s.delivered (p, (s.party p).done) = []
  later : ∀ p k, (s.party p).done < k → got s.delivered (p, k) = []
  ended : ∀ x ∈ s.returned, x.name.2 < (s.party x.name.1).done ∧
    (x.ret = -1 ∧ (s.party x.name.1).killed = true ∨
      x.ret = BitVec.ofNat 32 (got s.delivered x.name).length ∧
        (got s.delivered x.name).length ≤ x.target)

section

variable [DecidableEq τ]

theorem served_boot (buf : ℕ → Key) (x : Word) (killed : τ → Bool) :
    Served (Sys.boot buf x killed) where
  delivered := rfl
  eofs := rfl
  progress := fun _ _ h => absurd h (by simp [Sys.boot, Place.call])
  idle := fun _ _ => rfl
  later := fun _ _ _ => rfl
  ended := fun _ h => absurd h List.not_mem_nil

theorem got_append {delivered : List (Name τ × Key)} {name name' : Name τ} {cs : List Key} :
    got (delivered ++ cs.map (name, ·)) name' =
      got delivered name' ++ if name = name' then cs else [] := by
  unfold got
  rw [List.filter_append, List.map_append]
  congr 1
  split
  · rename_i he
    subst he
    rw [List.filter_eq_self.mpr (by simp)]
    simp
  · rename_i hne
    rw [List.filter_eq_nil_iff.mpr (by simp [hne]), List.map_nil]

/-- Waking up and being killed are not seen here. -/
theorem Served.parties (h : Served s) {t : Sys τ} (hdelivered : t.delivered = s.delivered)
    (htaken : t.taken = s.taken) (hreturned : t.returned = s.returned)
    (hparty : ∀ p, (t.party p).done = (s.party p).done ∧
      (t.party p).place.call = (s.party p).place.call ∧
      ((s.party p).killed = true → (t.party p).killed = true)) : Served t := by
  refine ⟨by rw [hdelivered, htaken]; exact h.delivered, by rw [hreturned, htaken]; exact h.eofs,
    fun p call hp => ?_, fun p hp => ?_, fun p k hk => ?_, fun x hx => ?_⟩
  · rw [hdelivered, (hparty p).1]
    exact h.progress p call ((hparty p).2.1 ▸ hp)
  · rw [hdelivered, (hparty p).1]
    exact h.idle p ((hparty p).2.1 ▸ hp)
  · rw [hdelivered]
    exact h.later p k ((hparty p).1 ▸ hk)
  · rw [hdelivered, (hparty _).1]
    obtain ⟨hlt, hret⟩ := h.ended x (hreturned ▸ hx)
    exact ⟨hlt, hret.imp_left fun hr => ⟨hr.1, (hparty _).2.2 hr.2⟩⟩

omit [DecidableEq τ] in
theorem wakeup_party (p : τ) : (s.wakeup.party p).done = (s.party p).done ∧
    (s.wakeup.party p).place.call = (s.party p).place.call ∧
    ((s.party p).killed = true → (s.wakeup.party p).killed = true) := by
  unfold Sys.wakeup
  cases hp : (s.party p).place with
  | out ret => simp [hp]
  | ready call => simp [hp]
  | asleep call => simp [hp, Place.call]

theorem served_receive (h : Served s) (c : Byte) : Served (s.receive c) := by
  unfold Sys.receive
  obtain ⟨fate, j⟩ := s.input.switch ⟨s.received.length, c⟩
  cases fate with
  | nothing | erased | dropped | stored => exact h.parties rfl rfl rfl fun p => ⟨rfl, rfl, id⟩
  | committed => exact h.parties rfl rfl rfl fun p => wakeup_party p

theorem served_consoleintr (h : Served s) (cs : List Byte) : Served (cs.foldl Sys.receive s) := by
  induction cs generalizing s with
  | nil => exact h
  | cons c cs ih => exact ih (served_receive h c)

theorem served_kill (h : Served s) (p : τ) : Served (s.kill p) := by
  refine h.parties rfl rfl rfl fun q => ?_
  unfold Sys.kill
  rcases eq_or_ne q p with rfl | hne
  · cases hp : (s.party q).place <;> simp [Place.call]
  · simp [hne]

/-- A process starts a call. -/
theorem served_consoleread (h : Served s) {p : τ} (n : Word)
    (hp : (s.party p).place.call = none) :
    Served (s.goto p (.ready ⟨n.toInt.toNat, n.toInt.toNat⟩)) := by
  have hdone : ∀ q, ((s.goto p (.ready ⟨n.toInt.toNat, n.toInt.toNat⟩)).party q).done =
      (s.party q).done := fun q => by
    rcases eq_or_ne q p with rfl | hne
    · simp [Sys.goto]
    · simp [Sys.goto, hne]
  refine ⟨h.delivered, h.eofs, fun q call hq => ?_, fun q hq => ?_, fun q k hk => ?_,
    fun x hx => ?_⟩
  · rw [hdone]
    rcases eq_or_ne q p with rfl | hne
    · simp only [Sys.goto, Function.update_self, Place.call, Option.some.injEq] at hq
      subst hq
      have hlt := BitVec.toInt_lt (x := n)
      change _ ∧ (got s.delivered (q, (s.party q).done)).length + _ = _
      rw [h.idle q hp]
      exact ⟨by simp only; omega, Nat.zero_add _⟩
    · exact h.progress q call (by simpa [Sys.goto, hne] using hq)
  · rw [hdone]
    rcases eq_or_ne q p with rfl | hne
    · simp [Sys.goto, Place.call] at hq
    · exact h.idle q (by simpa [Sys.goto, hne] using hq)
  · exact h.later q k (hdone q ▸ hk)
  · rw [hdone]
    obtain ⟨hlt, hret⟩ := h.ended x hx
    refine ⟨hlt, hret.imp_left fun hr => ⟨hr.1, ?_⟩⟩
    rcases eq_or_ne x.name.1 p with he | hne
    · simpa [Sys.goto, he] using hr.2
    · simpa [Sys.goto, hne] using hr.2

/-- A section of `consoleread` hands out the front of the queue. -/
theorem read_spec (h : Kept s) (hs : Served s) {p : τ} {call : Call}
    (hp : (s.party p).place.call = some call) :
    ∃ cs x left j, serve call.target call.n s.input.ready = (cs, x, left) ∧ j.Ordered ∧
      j.ready = left ∧ j.line = s.input.line ∧
      s.read p call =
        let s' : Sys τ := { s with
          input := j
          delivered := s.delivered ++ cs.map ((p, (s.party p).done), ·)
          taken := s.taken ++ cs ++ x.eofs }
        match x with
        | .returns _ =>
          s'.leave p call.target (BitVec.ofNat 32 (call.target - (call.n - cs.length)))
        | .waits =>
          if (s.party p).killed then s'.leave p call.target (-1)
          else s'.goto p (.asleep { call with n := call.n - cs.length }) := by
  have hle : call.n ≤ call.target := by
    have := hs.progress p call hp
    omega
  obtain ⟨cs, x, left, hserve, -⟩ := serve_spec hle s.input.ready
  obtain ⟨j, hj, ho, hready, hline⟩ := readLoop_serve call.target call.n h.ordered
  rw [hserve] at hj hready
  refine ⟨cs, x, left, j, hserve, ho, hready, hline, ?_⟩
  unfold Sys.read
  rw [hj]
  cases x with
  | returns ks => rfl
  | waits =>
    simp only [Stop.eofs, List.append_nil]

/-- The queue loses what the section hands out. -/
theorem kept_read (h : Kept s) (hs : Served s) {p : τ} {call : Call}
    (hp : (s.party p).place.call = some call) : Kept (s.read p call) := by
  have hle : call.n ≤ call.target := by
    have := hs.progress p call hp
    omega
  obtain ⟨cs, x, left, j, hserve, ho, hready, hline, he⟩ := read_spec h hs hp
  obtain ⟨cs', x', left', hserve', hq, -⟩ := serve_spec hle s.input.ready
  rw [hserve] at hserve'
  obtain ⟨rfl, rfl, rfl⟩ : cs = cs' ∧ x = x' ∧ left = left' := by simpa using hserve'
  have hnew : Kept { s with input := j, taken := s.taken ++ cs ++ x.eofs } := by
    refine ⟨ho, ?_, ?_, ?_, ?_, h.full, h.plain⟩
    · change s.committed = s.taken ++ cs ++ x.eofs ++ j.ready
      rw [h.queue, hready, List.append_assoc, List.append_assoc, ← List.append_assoc cs, ← hq]
    · change ((s.committed ++ j.line).map Key.no).Pairwise (· < ·)
      rw [hline]
      exact h.sorted
    · change ((s.committed ++ j.line).map Key.no ++ _).Perm _
      rw [hline]
      exact h.fates
    · change ∀ k ∈ s.committed ++ j.line ++ s.erased, _
      rw [hline]
      exact h.codes
  rw [he]
  cases x with
  | returns ks => exact hnew.parties _ _ _
  | waits =>
    dsimp only
    split
    · exact hnew.parties _ _ _
    · exact hnew.parties _ _ _

/-- What a call in progress has got, and the ones after it, with what it gets now. -/
theorem got_tag {p q : τ} {n k : ℕ} {cs : List Key} (hne : q ≠ p ∨ k ≠ n) :
    got (s.delivered ++ cs.map ((p, n), ·)) (q, k) = got s.delivered (q, k) := by
  rw [got_append, if_neg, List.append_nil]
  intro he
  obtain ⟨h₁, h₂⟩ := Prod.mk.inj he
  rcases hne with hne | hne
  · exact hne h₁.symm
  · exact hne h₂.symm

/-- What a read takes from the queue is delivered to it but for the ^D. -/
theorem Served.take (h : Served s) {cs ks : List Key} (hcs : ∀ c ∈ cs, c.code ≠ eof)
    (hks : ∀ c ∈ ks, c.code = eof) (name : Name τ) :
    (s.delivered ++ cs.map (name, ·)).map Prod.snd =
        (s.taken ++ cs ++ ks).filter (fun k => k.code ≠ eof) ∧
      (s.taken ++ cs ++ ks).countP (fun k => k.code = eof) =
        s.taken.countP (fun k => k.code = eof) + ks.length := by
  have hmap : (cs.map (name, ·)).map Prod.snd = cs := by simp
  have hall : cs.filter (fun k => k.code ≠ eof) = cs := List.filter_eq_self.mpr (by simpa using hcs)
  have hnone : ks.filter (fun k => k.code ≠ eof) = [] :=
    List.filter_eq_nil_iff.mpr (by simpa using hks)
  have hzero : cs.countP (fun k => k.code = eof) = 0 := List.countP_eq_zero.mpr (by simpa using hcs)
  have hlen : ks.countP (fun k => k.code = eof) = ks.length :=
    List.countP_eq_length.mpr (by simpa using hks)
  constructor
  · rw [List.map_append, hmap, h.delivered, List.filter_append, List.filter_append, hall, hnone,
      List.append_nil]
  · rw [List.countP_append, List.countP_append, hzero, hlen]
    omega

/-- One process is handed characters, and nothing changes for the others. -/
theorem Served.hand (h : Served s) {p : τ} {cs ks : List Key} (hcs : ∀ c ∈ cs, c.code ≠ eof)
    (hks : ∀ c ∈ ks, c.code = eof)
    (hd : t.delivered = s.delivered ++ cs.map ((p, (s.party p).done), ·))
    (ht : t.taken = s.taken ++ cs ++ ks) (hothers : ∀ q, q ≠ p → t.party q = s.party q)
    (hkilled : (t.party p).killed = (s.party p).killed)
    (hdone : (s.party p).done ≤ (t.party p).done)
    (heofs : t.returned.countP (fun x => 0 < x.target ∧ x.ret = 0) =
      s.returned.countP (fun x => 0 < x.target ∧ x.ret = 0) + ks.length)
    (hprogress : ∀ call, (t.party p).place.call = some call → call.target < 2 ^ 31 ∧
      (got t.delivered (p, (t.party p).done)).length + call.n = call.target)
    (hidle : (t.party p).place.call = none → got t.delivered (p, (t.party p).done) = [])
    (hended : ∀ x ∈ t.returned, x ∈ s.returned ∨ x.name = (p, (s.party p).done) ∧
      (s.party p).done < (t.party p).done ∧ (x.ret = -1 ∧ (s.party p).killed = true ∨
        x.ret = BitVec.ofNat 32 (got t.delivered x.name).length ∧
          (got t.delivered x.name).length ≤ x.target)) : Served t := by
  obtain ⟨hdelivered, hcount⟩ := h.take hcs hks (p, (s.party p).done)
  have htag : ∀ {q : τ} {k : ℕ}, q ≠ p ∨ k ≠ (s.party p).done →
      got t.delivered (q, k) = got s.delivered (q, k) := fun hne => by rw [hd, got_tag hne]
  refine ⟨by rw [hd, ht, hdelivered], by rw [heofs, ht, hcount, h.eofs], fun q c hq => ?_,
    fun q hq => ?_, fun q k hk => ?_, fun x hx => ?_⟩
  · rcases eq_or_ne q p with rfl | hne
    · exact hprogress c hq
    · rw [hothers q hne] at hq ⊢
      rw [htag (Or.inl hne)]
      exact h.progress q c hq
  · rcases eq_or_ne q p with rfl | hne
    · exact hidle hq
    · rw [hothers q hne] at hq ⊢
      rw [htag (Or.inl hne)]
      exact h.idle q hq
  · rcases eq_or_ne q p with rfl | hne
    · rw [htag (Or.inr (by omega))]
      exact h.later q k (by omega)
    · rw [hothers q hne] at hk
      rw [htag (Or.inl hne)]
      exact h.later q k hk
  · rcases hended x hx with hx | ⟨hname, hlt, hr⟩
    · obtain ⟨hlt, hr⟩ := h.ended x hx
      by_cases he : x.name.1 = p
      · have hne : x.name.2 ≠ (s.party p).done := by
          rw [he] at hlt
          omega
        have hkilled' : (t.party x.name.1).killed = (s.party x.name.1).killed := by rw [he, hkilled]
        have hdone' : (s.party x.name.1).done ≤ (t.party x.name.1).done := by rw [he]; exact hdone
        have hgot : got t.delivered x.name = got s.delivered x.name := htag (Or.inr hne)
        rw [hgot, hkilled']
        exact ⟨by omega, hr⟩
      · have hgot : got t.delivered x.name = got s.delivered x.name := htag (Or.inl he)
        rw [hgot, hothers _ he]
        exact ⟨hlt, hr⟩
    · rw [hname] at hr ⊢
      exact ⟨hlt, hr.imp_left fun hr => ⟨hr.1, hkilled.trans hr.2⟩⟩

/-- A section of `consoleread`. -/
theorem served_read (h : Kept s) (hs : Served s) {p : τ} {call : Call}
    (hp : (s.party p).place.call = some call) : Served (s.read p call) := by
  obtain ⟨htarget, hgot⟩ := hs.progress p call hp
  have hle : call.n ≤ call.target := by omega
  obtain ⟨cs, x, left, j, hserve, -, -, -, he⟩ := read_spec h hs hp
  obtain ⟨cs', x', left', hserve', -, hcs, hks, hlen, hone, hfits⟩ :=
    serve_spec hle s.input.ready
  rw [hserve] at hserve'
  obtain ⟨rfl, rfl, rfl⟩ : cs = cs' ∧ x = x' ∧ left = left' := by simpa using hserve'
  have hall : (got (s.delivered ++ cs.map ((p, (s.party p).done), ·)) (p, (s.party p).done)).length =
      call.target - (call.n - cs.length) := by
    rw [got_append, if_pos rfl, List.length_append]
    omega
  -- a return that is logged as `ret`
  have hleave : ∀ {ret : Word} {j : Input},
      x.eofs.length = (if 0 < call.target ∧ ret = 0 then 1 else 0) →
      (ret = -1 ∧ (s.party p).killed = true ∨
        ret = BitVec.ofNat 32 (call.target - (call.n - cs.length))) →
      Served (Sys.leave { s with
        input := j
        delivered := s.delivered ++ cs.map ((p, (s.party p).done), ·)
        taken := s.taken ++ cs ++ x.eofs } p call.target ret) := by
    intro ret j heof hret
    refine hs.hand hcs hks rfl rfl (fun q hq => Function.update_of_ne hq ..) ?_ ?_ ?_ ?_ ?_ ?_
    · simp [Sys.leave]
    · simp [Sys.leave]
    · simp only [Sys.leave, List.countP_append, List.countP_singleton, heof, decide_eq_true_eq]
    · intro c hc
      simp [Sys.leave, Place.call] at hc
    · intro _
      simp only [Sys.leave, Function.update_self]
      rw [got_tag (Or.inr (Nat.succ_ne_self _))]
      exact hs.later p _ (Nat.lt_succ_self _)
    · intro r hr
      rcases List.mem_append.mp hr with hr | hr
      · exact Or.inl hr
      · obtain rfl := List.mem_singleton.mp hr
        refine Or.inr ⟨rfl, by simp [Sys.leave], hret.imp_right fun hr => ?_⟩
        simp only [Sys.leave, hall]
        exact ⟨hr, Nat.sub_le _ _⟩
  rw [he]
  cases x with
  | returns ks =>
    refine hleave ?_ (Or.inr rfl)
    have hsmall : call.target - (call.n - cs.length) < 2 ^ 32 := by omega
    have hz : BitVec.ofNat 32 (call.target - (call.n - cs.length)) = 0 ↔
        call.target - (call.n - cs.length) = 0 := by
      constructor
      · intro h0
        have := congrArg BitVec.toNat h0
        rwa [BitVec.toNat_ofNat, Nat.mod_eq_of_lt hsmall] at this
      · intro h0
        rw [h0]
        rfl
    cases ks with
    | nil =>
      have hno : ¬ (0 < call.target ∧
          BitVec.ofNat 32 (call.target - (call.n - cs.length)) = 0) := by
        rintro ⟨hpos, h0⟩
        have := hz.mp h0
        rcases hfits with hn | hn <;> omega
      rw [if_neg hno]
      rfl
    | cons k ks =>
      obtain ⟨rfl, hn, hpos⟩ := hfits
      rw [if_pos ⟨by omega, hz.mpr (by simp; omega)⟩]
      simp only [Stop.eofs, List.length_cons] at hone ⊢
      omega
  | waits =>
    dsimp only
    split
    · rename_i hk
      refine hleave ?_ (Or.inl ⟨rfl, hk⟩)
      rw [if_neg (by simp)]
      rfl
    · refine hs.hand hcs hks rfl rfl (fun q hq => Function.update_of_ne hq ..) ?_ ?_ ?_ ?_ ?_
        fun r hr => Or.inl hr
      · simp [Sys.goto]
      · simp [Sys.goto]
      · rfl
      · intro c hc
        simp only [Sys.goto, Function.update_self, Place.call, Option.some.injEq] at hc ⊢
        subst hc
        rw [hall]
        exact ⟨htarget, by dsimp only; omega⟩
      · intro hc
        simp [Sys.goto, Place.call] at hc

/-- The input is in order, and so are its readers. -/
structure Sound (s : Sys τ) : Prop where
  kept : Kept s
  served : Served s

theorem sound_step {a : Act τ} (h : Sound s) (hst : s.Step a t) : Sound t := by
  unfold Sys.Step Sys.next at hst
  cases a with
  | consoleintr cs =>
    obtain rfl := Option.some.inj hst
    exact ⟨kept_consoleintr h.kept cs, served_consoleintr h.served cs⟩
  | consoleread p n =>
    cases hp : (s.party p).place with
    | out ret =>
      simp only [hp] at hst
      obtain rfl := Option.some.inj hst
      exact ⟨h.kept.parties _ _ _, served_consoleread h.served n (by rw [hp]; rfl)⟩
    | ready | asleep =>
      simp only [hp] at hst
      exact absurd hst (by simp)
  | run p =>
    cases hp : (s.party p).place with
    | ready call =>
      simp only [hp] at hst
      obtain rfl := Option.some.inj hst
      have hcall : (s.party p).place.call = some call := by rw [hp]; rfl
      exact ⟨kept_read h.kept h.served hcall, served_read h.kept h.served hcall⟩
    | out | asleep =>
      simp only [hp] at hst
      exact absurd hst (by simp)
  | kill p =>
    obtain rfl := Option.some.inj hst
    exact ⟨h.kept.parties _ _ _, served_kill h.served p⟩

/-- A read that meets a ^D ends. If it has got anything it returns that, and the next read finds
    the ^D; otherwise it takes the ^D and returns 0. -/
def EndsAtEof (s : Sys τ) (a : Act τ) : Prop :=
  ∀ p call ds k rest t, a = .run p → (s.party p).place = .ready call →
    s.input.ready = ds ++ k :: rest → k.code = eof →
    (∀ d ∈ ds, d.code ≠ eof ∧ d.code ≠ newline) → ds.length < call.n → s.Step a t →
    if ds = [] ∧ call.n = call.target then
      (t.party p).place = .out 0 ∧ t.input.ready = rest ∧ t.delivered = s.delivered
    else
      (t.party p).place = .out (BitVec.ofNat 32 (call.target - call.n + ds.length)) ∧
        t.input.ready = k :: rest ∧
        t.delivered = s.delivered ++ ds.map ((p, (s.party p).done), ·)

theorem Sound.endsAtEof (h : Sound s) (a : Act τ) : EndsAtEof s a := by
  rintro p call ds k rest t rfl hp hq hk hds hlen hst
  have hcall : (s.party p).place.call = some call := by rw [hp]; rfl
  have hle : call.n ≤ call.target := by
    have := h.served.progress p call hcall
    omega
  obtain ⟨cs, x, left, j, hserve, -, hready, -, he⟩ := read_spec h.kept h.served hcall
  rw [hq, serve_eof hle hk hds hlen] at hserve
  unfold Sys.Step Sys.next at hst
  simp only [hp] at hst
  obtain rfl := Option.some.inj hst
  rw [he]
  by_cases hc : ds = [] ∧ call.n = call.target
  · rw [if_pos hc] at hserve ⊢
    obtain ⟨rfl, rfl, rfl⟩ : [] = cs ∧ Stop.returns [k] = x ∧ rest = left := by simpa using hserve
    have hz : call.target - (call.n - ([] : List Key).length) = 0 := by simp; omega
    dsimp only
    rw [hz]
    refine ⟨by simp [Sys.leave], hready, by simp [Sys.leave]⟩
  · rw [if_neg hc] at hserve ⊢
    obtain ⟨rfl, rfl, rfl⟩ : ds = cs ∧ Stop.returns [] = x ∧ k :: rest = left := by
      simpa using hserve
    have hn : call.target - (call.n - ds.length) = call.target - call.n + ds.length := by omega
    dsimp only
    rw [hn]
    refine ⟨by simp [Sys.leave], hready, by simp [Sys.leave]⟩

end

/-- Somebody types `hx`, DEL, `i` and ^D, and a process reads twice. -/
def typesHi : List (Act Unit) :=
  [.consoleread () 10, .run (), .consoleintr [0x68, 0x78, delete, 0x69, eof], .run (),
    .consoleread () 10, .run ()]

end Xv6.Console
