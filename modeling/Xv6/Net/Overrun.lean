import Xv6.Net.Buffers

/-! @src i8254.c | name:The transmit ring | layer:proof

    `tx_available` is at least one whatever the indices are, so `i8254_send` never refuses. With
    255 packets under way the next one moves the tail onto the head, and the card takes the ring
    for empty. A run whose calls leave one descriptor free, and fill buffers that hold neither the
    ring nor a packet under way, has the ring as the driver means it. -/

namespace Xv6.Net

open Xv6.Schemes Xv6.Schemes.Bytes

namespace Sys

variable {s t u : Sys} {i : ℕ} {pkt : List UInt8} {mem : Mem 32} {k : Pages}

/-- The card finds the packet, its length and its command under the descriptor. -/
def Intact (s : Sys) (p : ℕ × List UInt8) : Prop :=
  read s.mem (s.buffer p.1) p.2.length = p.2 ∧
    read s.mem (field s.txdesc p.1 8) 2 = le 2 p.2.length ∧
    read s.mem (field s.txdesc p.1 11) 1 = le 1 0xb

/-- The descriptors from the head to the tail are those of the packets under way. -/
structure RingOk (s : Sys) : Prop where
  head : s.tdh < DESC_NUM
  tail : s.tdt = (s.tdh + s.pending.length) % DESC_NUM
  apart : s.pending ≠ [] → s.tdt ≠ s.tdh
  index : ∀ j (hj : j < s.pending.length), (s.pending[j]).1 = (s.tdh + j) % DESC_NUM
  intact : ∀ p ∈ s.pending, s.Intact p

/-- What a step owes: only a descriptor that is not the card's is filled and handed over, the tail
    does not reach the head, and a call that finds the ring full returns -1 and changes nothing. -/
def SendOk (s : Sys) : Act → Prop
  | .send _ => (s.tdt + 1) % DESC_NUM = s.tdh → ∀ pkt t, s.Step (.send pkt) t →
      t = { s with result := some (-1) }
  | .fill => ∀ pkt i, s.place = .checked pkt i → i = s.tdt ∧ ∀ p ∈ s.pending, p.1 ≠ i
  | .advance => ∀ pkt i, s.place = .filled pkt i → i = s.tdt ∧ (∀ p ∈ s.pending, p.1 ≠ i) ∧
      (s.tdt + 1) % DESC_NUM ≠ s.tdh
  | .card => True

/-- A call leaves one descriptor free, and the buffer that it fills overlaps neither the ring nor
    a packet under way. -/
def Room (s : Sys) : Act → Prop
  | .send pkt => (s.tdt + 1) % DESC_NUM ≠ s.tdh ∧
      Apart (s.buffer s.tdt) pkt.length s.txdesc PGSIZE ∧
      ∀ p ∈ s.pending, Apart (s.buffer s.tdt) pkt.length (s.buffer p.1) p.2.length
  | _ => True

/-- There is always room, by `tx_available`. -/
theorem available_pos (s : Sys) : 0 < s.available := by
  unfold available
  rw [DESC_NUM_eq]
  omega

/-! ### The invariant -/

/-- What a call knows between its parts. -/
def PlaceOk (s : Sys) : Place → Prop
  | .idle => True
  | .checked pkt i => i = s.tdt ∧ (s.tdt + 1) % DESC_NUM ≠ s.tdh ∧
      Apart (s.buffer i) pkt.length s.txdesc PGSIZE ∧
      ∀ p ∈ s.pending, Apart (s.buffer i) pkt.length (s.buffer p.1) p.2.length
  | .filled pkt i => i = s.tdt ∧ (s.tdt + 1) % DESC_NUM ≠ s.tdh ∧
      Apart (s.buffer i) pkt.length s.txdesc PGSIZE ∧ s.Intact (i, pkt)

/-- The ring as the driver means it, with its packets outside of the ring. -/
structure Inv (s : Sys) : Prop extends RingOk s where
  room : s.pending.length < DESC_NUM
  clear : ∀ p ∈ s.pending, Apart (s.buffer p.1) p.2.length s.txdesc PGSIZE
  place : PlaceOk s s.place

/-- The descriptor at the tail is not the card's. -/
theorem Inv.tail_free (h : Inv s) {p : ℕ × List UInt8} (hp : p ∈ s.pending) :
    p.1 < DESC_NUM ∧ p.1 ≠ s.tdt := by
  obtain ⟨j, hj, rfl⟩ := List.getElem_of_mem hp
  have hroom := h.room
  have hindex := h.index j hj
  have htail := h.tail
  rw [DESC_NUM_eq] at hroom hindex htail ⊢
  omega

theorem Inv.tail_lt (h : Inv s) : s.tdt < DESC_NUM := by
  rw [h.tail]
  exact Nat.mod_lt _ (by decide)

theorem Inv.init (mem : Mem 32) (k : Pages) : Inv (init mem k) where
  head := Nat.zero_lt_succ 255
  tail := rfl
  apart h := absurd rfl h
  index j hj := absurd hj (Nat.not_lt_zero j)
  intact _ hp := absurd hp List.not_mem_nil
  room := Nat.zero_lt_succ 255
  clear _ hp := absurd hp List.not_mem_nil
  place := trivial

/-! ### Filling a descriptor -/

/-- What is apart from the ring is apart from the fields. -/
theorem field_apart_of {a ring : Word} {n i off k : ℕ} (h : Apart a n ring PGSIZE)
    (hi : 16 * i + off + k ≤ 4096) : Apart (field ring i off) k a n := by
  rintro x ⟨hx, hxa⟩
  refine h x ⟨hxa, ?_⟩
  show (x - ring).toNat < 4096
  unfold Within field at hx
  bv_omega

theorem length_lt_of_apart {a ring : Word} {n : ℕ} (h : Apart a n ring PGSIZE) : n < 2 ^ 32 := by
  have hring : Within ring PGSIZE ring := by
    unfold Within
    rw [BitVec.sub_self]
    decide
  have hnot : ¬ Within a n ring := fun ha => h ring ⟨ha, hring⟩
  unfold Within at hnot
  have := (ring - a).isLt
  omega

/-- The stores of a call into the fields of its descriptor. -/
theorem fieldStores {q : Store} (hq : q ∈ (s.fillStores pkt i).tail) :
    ∃ off n v, 8 ≤ off ∧ off + n ≤ 16 ∧ q = setField s.txdesc i off n v := by
  unfold fillStores at hq
  simp only [List.tail_cons, List.mem_cons, List.not_mem_nil, or_false] at hq
  rcases hq with rfl | rfl | rfl | rfl | rfl | rfl <;> exact ⟨_, _, _, by decide, by decide, rfl⟩

theorem fillStores_apart {a : Word} {n : ℕ} (hbuf : Apart (s.buffer i) pkt.length a n)
    (hfield : ∀ off k, 8 ≤ off → off + k ≤ 16 → Apart (field s.txdesc i off) k a n) :
    ∀ q ∈ s.fillStores pkt i, Apart q.1 q.2.length a n := by
  intro q hq
  rcases List.mem_cons.mp hq with rfl | hq
  · exact hbuf
  · obtain ⟨off, k, v, hoff, hk, rfl⟩ := fieldStores hq
    unfold setField
    rw [length_le]
    exact hfield off k hoff hk

/-- The addresses of the buffers stay. -/
theorem buffer_fill {j : ℕ} (hmem : t.mem = writes s.mem (s.fillStores pkt i))
    (htx : t.txdesc = s.txdesc) (hi : i < DESC_NUM) (hj : j < DESC_NUM)
    (hring : Apart (s.buffer i) pkt.length s.txdesc PGSIZE) : t.buffer j = s.buffer j := by
  rw [DESC_NUM_eq] at hi hj
  have happ : ∀ q ∈ s.fillStores pkt i, Apart q.1 q.2.length (field s.txdesc j 0) 4 := by
    refine fillStores_apart (field_apart_of hring (by omega)).symm fun off k hoff hk => ?_
    exact field_apart (by omega) (by omega) (by omega)
  unfold buffer
  rw [hmem, htx, read_writes_apart happ (by omega)]

/-- The packets of other descriptors stay. -/
theorem intact_fill {p : ℕ × List UInt8} (hmem : t.mem = writes s.mem (s.fillStores pkt i))
    (htx : t.txdesc = s.txdesc) (hi : i < DESC_NUM) (hp : p.1 < DESC_NUM) (hne : p.1 ≠ i)
    (hring : Apart (s.buffer i) pkt.length s.txdesc PGSIZE)
    (hclear : Apart (s.buffer p.1) p.2.length s.txdesc PGSIZE)
    (happ : Apart (s.buffer i) pkt.length (s.buffer p.1) p.2.length) (h : s.Intact p) :
    t.Intact p := by
  have hbuf := buffer_fill hmem htx hi hp hring
  have hlt := length_lt_of_apart hclear
  rw [DESC_NUM_eq] at hi hp
  have hkeep : ∀ off n, off + n ≤ 16 → read (writes s.mem (s.fillStores pkt i))
      (field s.txdesc p.1 off) n = read s.mem (field s.txdesc p.1 off) n := by
    intro off n hoff
    refine read_writes_apart (fillStores_apart (field_apart_of hring (by omega)).symm ?_) (by omega)
    intro off' k hoff' hk
    exact field_apart (by omega) (by omega) (by omega)
  have hkept : read (writes s.mem (s.fillStores pkt i)) (s.buffer p.1) p.2.length =
      read s.mem (s.buffer p.1) p.2.length := by
    refine read_writes_apart (fillStores_apart happ fun off k _ hk => ?_) hlt.le
    exact field_apart_of hclear (by omega)
  unfold Intact at h ⊢
  rwa [hbuf, hmem, htx, hkept, hkeep 8 2 (by omega), hkeep 11 1 (by omega)]

/-- The packet that is filled in. -/
theorem intact_new (hmem : t.mem = writes s.mem (s.fillStores pkt i)) (htx : t.txdesc = s.txdesc)
    (hi : i < DESC_NUM) (hring : Apart (s.buffer i) pkt.length s.txdesc PGSIZE) :
    t.Intact (i, pkt) := by
  have hbuf := buffer_fill hmem htx hi hi hring
  have hlt := length_lt_of_apart hring
  rw [DESC_NUM_eq] at hi
  have hfield : ∀ off n off' n' v, off + n ≤ 16 → off' + n' ≤ 16 →
      (off + n ≤ off' ∨ off' + n' ≤ off) → Apart (setField s.txdesc i off' n' v).1
        (setField s.txdesc i off' n' v).2.length (field s.txdesc i off) n := by
    intro off n off' n' v hn hn' hoff
    unfold setField
    rw [length_le]
    exact field_apart (by omega) (by omega) (by omega)
  have hbytes : read (writes s.mem (s.fillStores pkt i)) (s.buffer i) pkt.length = pkt := by
    refine read_writes_last s.mem [] (s.fillStores pkt i).tail hlt.le fun q hq => ?_
    obtain ⟨off, k, v, -, hk, rfl⟩ := fieldStores hq
    unfold setField
    rw [length_le]
    exact field_apart_of hring (by omega)
  have hlen : read (writes s.mem (s.fillStores pkt i)) (field s.txdesc i 8)
      (le 2 pkt.length).length = le 2 pkt.length := by
    refine read_writes_last s.mem [(s.buffer i, pkt)] ((s.fillStores pkt i).drop 2) (by simp) ?_
    unfold fillStores
    simp only [List.drop_succ_cons, List.drop_zero, List.forall_mem_cons, List.not_mem_nil,
      false_implies, implies_true, and_true, length_le]
    exact ⟨hfield _ _ _ _ _ (by decide) (by decide) (by decide),
      hfield _ _ _ _ _ (by decide) (by decide) (by decide),
      hfield _ _ _ _ _ (by decide) (by decide) (by decide),
      hfield _ _ _ _ _ (by decide) (by decide) (by decide),
      hfield _ _ _ _ _ (by decide) (by decide) (by decide)⟩
  have hcmd : read (writes s.mem (s.fillStores pkt i)) (field s.txdesc i 11) (le 1 0xb).length =
      le 1 0xb := by
    refine read_writes_last s.mem ((s.fillStores pkt i).take 4) ((s.fillStores pkt i).drop 5)
      (by simp) ?_
    unfold fillStores
    simp only [List.drop_succ_cons, List.drop_zero, List.forall_mem_cons, List.not_mem_nil,
      false_implies, implies_true, and_true, length_le]
    exact ⟨hfield _ _ _ _ _ (by decide) (by decide) (by decide),
      hfield _ _ _ _ _ (by decide) (by decide) (by decide)⟩
  rw [length_le] at hlen hcmd
  unfold Intact
  rw [hbuf, hmem, htx]
  exact ⟨hbytes, hlen, hcmd⟩

/-! ### Steps -/

/-- A call that finds room goes on: `tx_available` never stops it. -/
theorem step_send (hidle : s.place = .idle) (h : s.Step (.send pkt) t) :
    t = { s with place := .checked pkt (s.tdt % DESC_NUM) } := by
  unfold Step next at h
  rw [hidle] at h
  simp only [if_pos s.available_pos, Option.some.injEq] at h
  exact h.symm

theorem step_busy (h : s.Step (.send pkt) t) : s.place = .idle := by
  unfold Step next at h
  cases hplace : s.place with
  | idle => rfl
  | checked pkt i => simp [hplace] at h
  | filled pkt i => simp [hplace] at h

theorem step_fill (h : s.Step .fill t) : ∃ pkt i, s.place = .checked pkt i ∧
    t = { s with mem := writes s.mem (s.fillStores pkt i), place := .filled pkt i } := by
  unfold Step next at h
  cases hplace : s.place with
  | idle => simp [hplace] at h
  | checked pkt i =>
    simp only [hplace, Option.some.injEq] at h
    exact ⟨pkt, i, rfl, h.symm⟩
  | filled pkt i => simp [hplace] at h

theorem step_advance (h : s.Step .advance t) : ∃ pkt i, s.place = .filled pkt i ∧
    t = { s with
      tdt := (s.tdt + 1) % DESC_NUM
      place := .idle
      result := some pkt.length
      pending := s.pending ++ [(i, pkt)] } := by
  unfold Step next at h
  cases hplace : s.place with
  | idle => simp [hplace] at h
  | checked pkt i => simp [hplace] at h
  | filled pkt i =>
    simp only [hplace, Option.some.injEq] at h
    exact ⟨pkt, i, rfl, h.symm⟩

theorem step_card (h : s.Step .card t) : s.tdh ≠ s.tdt ∧
    t = { s with tdh := (s.tdh + 1) % DESC_NUM, pending := s.pending.tail } := by
  unfold Step next at h
  simp only at h
  split at h
  · exact absurd h (by simp)
  · rename_i hne
    exact ⟨hne, (Option.some.inj h).symm⟩

theorem Inv.send (h : Inv s) (hroom : s.Room (.send pkt)) (hst : s.Step (.send pkt) t) : Inv t := by
  obtain ⟨hfree, happ, hpending⟩ := hroom
  have ht := step_send (step_busy hst) hst
  have htail : s.tdt % DESC_NUM = s.tdt := Nat.mod_eq_of_lt h.tail_lt
  rw [htail] at ht
  subst ht
  exact ⟨⟨h.head, h.tail, h.apart, h.index, h.intact⟩, h.room, h.clear, rfl, hfree, happ, hpending⟩

theorem Inv.fill (h : Inv s) (hst : s.Step .fill t) : Inv t := by
  obtain ⟨pkt, i, hplace, ht⟩ := step_fill hst
  have hp := h.place
  rw [hplace] at hp
  obtain ⟨rfl, hfree, hring, happ⟩ := hp
  have hmem : t.mem = writes s.mem (s.fillStores pkt s.tdt) := by rw [ht]
  have htx : t.txdesc = s.txdesc := by simp only [ht, txdesc]
  have hpend : t.pending = s.pending := by rw [ht]
  have hhead : t.tdh = s.tdh := by rw [ht]
  have htail : t.tdt = s.tdt := by rw [ht]
  have hnow : t.place = .filled pkt s.tdt := by rw [ht]
  have hintact : ∀ p ∈ t.pending, t.Intact p := by
    intro p hp
    rw [hpend] at hp
    obtain ⟨hlt, hne⟩ := h.tail_free hp
    exact intact_fill hmem htx h.tail_lt hlt hne hring (h.clear p hp) (happ p hp) (h.intact p hp)
  have hclear : ∀ p ∈ t.pending, Apart (t.buffer p.1) p.2.length t.txdesc PGSIZE := by
    intro p hp
    rw [hpend] at hp
    rw [htx, buffer_fill hmem htx h.tail_lt (h.tail_free hp).1 hring]
    exact h.clear p hp
  have hplaced : PlaceOk t t.place := by
    rw [hnow]
    refine ⟨htail.symm, by rwa [htail, hhead], ?_, intact_new hmem htx h.tail_lt hring⟩
    rwa [htx, buffer_fill hmem htx h.tail_lt h.tail_lt hring]
  refine ⟨⟨?_, ?_, ?_, ?_, hintact⟩, ?_, hclear, hplaced⟩
  · rw [hhead]
    exact h.head
  · rw [htail, hhead, hpend]
    exact h.tail
  · rw [htail, hhead, hpend]
    exact h.apart
  · simp only [hhead, hpend]
    exact h.index
  · rw [hpend]
    exact h.room

theorem Inv.advance (h : Inv s) (hst : s.Step .advance t) : Inv t := by
  obtain ⟨pkt, i, hplace, rfl⟩ := step_advance hst
  have hp := h.place
  rw [hplace] at hp
  obtain ⟨rfl, hfree, hring, hnew⟩ := hp
  have hroom := h.room
  have hhead := h.head
  have htail := h.tail
  rw [DESC_NUM_eq] at hroom hhead htail hfree
  refine ⟨⟨h.head, ?_, fun _ => ?_, fun j hj => ?_, fun p hp => ?_⟩, ?_, fun p hp => ?_, trivial⟩
  · simp only [List.length_append, List.length_singleton, DESC_NUM_eq]
    omega
  · simpa only [DESC_NUM_eq] using hfree
  · simp only [List.length_append, List.length_singleton] at hj
    simp only [List.getElem_append]
    split
    · exact h.index j _
    · have hj' : j = s.pending.length := by omega
      simp only [List.getElem_singleton, DESC_NUM_eq, hj']
      exact htail
  · rcases List.mem_append.mp hp with hp | hp
    · exact h.intact p hp
    · obtain rfl := List.mem_singleton.mp hp
      exact hnew
  · simp only [List.length_append, List.length_singleton, DESC_NUM_eq]
    omega
  · rcases List.mem_append.mp hp with hp | hp
    · exact h.clear p hp
    · obtain rfl := List.mem_singleton.mp hp
      exact hring

theorem Inv.card (h : Inv s) (hst : s.Step .card t) : Inv t := by
  obtain ⟨hne, rfl⟩ := step_card hst
  have hroom := h.room
  have hhead := h.head
  have htail := h.tail
  have hindex := h.index
  rw [DESC_NUM_eq] at hroom hhead htail hindex
  have hlen : s.pending.length ≠ 0 := by omega
  have hmem : ∀ p, p ∈ s.pending.tail → p ∈ s.pending := fun p hp => List.mem_of_mem_tail hp
  refine ⟨⟨?_, ?_, fun htail' => ?_, fun j hj => ?_, fun p hp => h.intact p (hmem p hp)⟩, ?_,
    fun p hp => h.clear p (hmem p hp), ?_⟩
  · exact Nat.mod_lt _ (by decide)
  · simp only [List.length_tail, DESC_NUM_eq]
    omega
  · have hlen' : s.pending.tail.length ≠ 0 := mt List.length_eq_zero_iff.mp htail'
    rw [List.length_tail] at hlen'
    simp only [DESC_NUM_eq]
    omega
  · simp only [List.length_tail] at hj
    simp only [List.getElem_tail, DESC_NUM_eq]
    rw [hindex (j + 1) (by omega)]
    omega
  · simp only [List.length_tail, DESC_NUM_eq]
    omega
  · have hp := h.place
    show PlaceOk _ s.place
    cases hplace : s.place with
    | idle => trivial
    | checked pkt i =>
      rw [hplace] at hp
      obtain ⟨rfl, hfree, hring, happ⟩ := hp
      rw [DESC_NUM_eq] at hfree
      refine ⟨rfl, ?_, hring, fun p hp => happ p (hmem p hp)⟩
      simp only [DESC_NUM_eq]
      omega
    | filled pkt i =>
      rw [hplace] at hp
      obtain ⟨rfl, hfree, hring, hnew⟩ := hp
      rw [DESC_NUM_eq] at hfree
      refine ⟨rfl, ?_, hring, hnew⟩
      simp only [DESC_NUM_eq]
      omega

theorem Inv.step (s : Sys) (a : Act) (t : Sys) (h : Inv s) (hroom : s.Room a) (hst : s.Step a t) :
    Inv t := by
  cases a with
  | send pkt => exact h.send hroom hst
  | fill => exact h.fill hst
  | advance => exact h.advance hst
  | card => exact h.card hst

/-- What the invariant says of the next step. -/
theorem Inv.sendOk (h : Inv s) {a : Act} (hroom : s.Room a) : s.SendOk a := by
  have hp := h.place
  cases a with
  | send pkt => exact fun hfull => absurd hfull hroom.1
  | fill =>
    intro pkt i hplace
    rw [hplace] at hp
    obtain ⟨rfl, -⟩ := hp
    exact ⟨rfl, fun p hp => (h.tail_free hp).2⟩
  | advance =>
    intro pkt i hplace
    rw [hplace] at hp
    obtain ⟨rfl, hfree, -⟩ := hp
    exact ⟨rfl, fun p hp => (h.tail_free hp).2, hfree⟩
  | card => trivial

/-- As long as each call leaves a descriptor free and fills a buffer of its own, the ring does not
    overrun. -/
theorem never_overruns {l : List (Sys × Act)} (hrun : Run Step (init mem k) l u)
    (hroom : Along Room l) : Throughout RingOk l u ∧ Along SendOk l := by
  refine ⟨(hrun.invariant Inv.step (.init mem k) hroom).mono fun s hs => hs.toRingOk, ?_⟩
  intro x hx
  exact (hrun.steps Inv.step (.init mem k) hroom x hx).1.sendOk (hroom x hx)

/-- A call that runs to its end. -/
theorem call_runs (hidle : s.place = .idle) (pkt : List UInt8) : ∃ p q t,
    Run Step s [(s, .send pkt), (p, .fill), (q, .advance)] t ∧ t.place = .idle ∧ t.tdh = s.tdh ∧
    t.tdt = (s.tdt + 1) % DESC_NUM ∧ t.pending.length = s.pending.length + 1 := by
  obtain ⟨p, hp⟩ : ∃ p : Sys, p = { s with place := .checked pkt (s.tdt % DESC_NUM) } := ⟨_, rfl⟩
  obtain ⟨q, hq⟩ : ∃ q : Sys, q = { p with
    mem := writes p.mem (p.fillStores pkt (s.tdt % DESC_NUM))
    place := .filled pkt (s.tdt % DESC_NUM) } := ⟨_, rfl⟩
  have hsend : s.Step (.send pkt) p := by
    unfold Step next
    simp only [hidle, if_pos s.available_pos, hp]
  have hfill : p.Step .fill q := by
    unfold Step next
    rw [show p.place = .checked pkt (s.tdt % DESC_NUM) by rw [hp], hq]
  have hadvance : q.Step .advance { q with
      tdt := (q.tdt + 1) % DESC_NUM
      place := .idle
      result := some pkt.length
      pending := q.pending ++ [(s.tdt % DESC_NUM, pkt)] } := by
    unfold Step next
    rw [show q.place = .filled pkt (s.tdt % DESC_NUM) by rw [hq]]
  refine ⟨p, q, _, .cons hsend (.cons hfill (.cons hadvance (.nil _))), rfl, ?_, ?_, ?_⟩
  · simp only [hq, hp]
  · simp only [hq, hp]
  · simp only [hq, hp, List.length_append, List.length_singleton]

/-- A packet of one byte goes into the buffer of descriptor 0. -/
theorem never_overruns_one : ∃ l u, Run Step (init (fun _ => 1) sendPages) l u ∧ l ≠ [] ∧
    (Throughout RingOk l u ∧ Along SendOk l) := by
  obtain ⟨p, q, t, hrun, -⟩ := call_runs (s := init (fun _ => 1) sendPages) rfl [0x41]
  refine ⟨_, t, hrun, List.cons_ne_nil _ _, never_overruns hrun ?_⟩
  refine along_cons.mpr ⟨⟨?_, ?_, fun p hp => absurd hp List.not_mem_nil⟩,
    along_cons.mpr ⟨trivial, along_cons.mpr ⟨trivial, along_nil⟩⟩⟩
  · simp only [init]
    decide
  · have hbuf := (init_buffers (fun _ => 1) sendPages).1 0 (by decide)
    have htail : (init (fun _ => 1) sendPages).tdt = 0 := by simp only [init]
    have hring : (init (fun _ => 1) sendPages).txdesc = 0x80500000 := by
      simp only [init, txdesc]
      decide
    have hpage : sendPages.buffer 0 = 0x80501000 := by decide
    rw [htail, hbuf, hring, hpage]
    refine .of_sub ?_ ?_ <;> decide

/-- One call after the other, while the card stands still. -/
theorem calls_run (hidle : s.place = .idle) (hlt : s.tdt < DESC_NUM) (n : ℕ) :
    ∃ l t, Run Step s l t ∧ t.place = .idle ∧ t.tdh = s.tdh ∧ t.tdt = (s.tdt + n) % DESC_NUM ∧
    t.pending.length = s.pending.length + n := by
  induction n with
  | zero => exact ⟨[], s, .nil s, hidle, rfl, (Nat.mod_eq_of_lt hlt).symm, rfl⟩
  | succ n ih =>
    obtain ⟨l, t, hrun, hplace, hhead, htail, hpend⟩ := ih
    obtain ⟨p, q, u, hcall, huplace, huhead, hutail, hupend⟩ := call_runs hplace []
    refine ⟨_, u, hrun.append hcall, huplace, huhead.trans hhead, ?_, ?_⟩
    · rw [hutail, htail, DESC_NUM_eq]
      omega
    · rw [hupend, hpend, Nat.add_assoc]

/-- 256 calls of `i8254_send` while the card stands still: the tail is on the head again. -/
theorem full_ring_accepts : ¬ ∀ l u, Run Step (init (fun _ => 1) sendPages) l u →
    Throughout RingOk l u ∧ Along SendOk l := by
  intro hall
  obtain ⟨l, u, hrun, -, hhead, htail, hpend⟩ :=
    calls_run (s := init (fun _ => 1) sendPages) rfl (Nat.zero_lt_succ 255) 256
  have hok := (hall l u hrun).1.2
  refine hok.apart (fun he => ?_) ?_
  · rw [he] at hpend
    simp [init] at hpend
  · rw [hhead, htail]
    simp only [init, DESC_NUM_eq]

end Sys

end Xv6.Net
