import Xv6.Net.Tcp
import Mathlib.Data.Nat.Bitwise

/-! @src tcp.c eth.c | name:Sequence numbers | layer:proof

    `tcp_pkt_create` acknowledges one byte whatever it has received, adds it in network order, and
    sends its own number through `H2N_uint`, which takes nibbles where it should take bytes. So an
    answer is consistent only if one sequence number was to be acknowledged, without a carry, and
    nothing was sent before it but a SYN whose number does not end in 15. -/

namespace Xv6.Net

open Xv6.Schemes Xv6.Schemes.Bytes

/-! ### Byte order -/

/-- Some bits in the middle of a number. -/
theorem and_mask (x k j : ℕ) : x &&& ((2 ^ j - 1) * 2 ^ k) = x / 2 ^ k % 2 ^ j * 2 ^ k := by
  refine Nat.eq_of_testBit_eq fun i => ?_
  simp only [Nat.testBit_and, Nat.testBit_mul_two_pow, Nat.testBit_mod_two_pow,
    Nat.testBit_div_two_pow, Nat.testBit_two_pow_sub_one]
  by_cases h : k ≤ i
  · simp [h, Bool.and_comm]
  · simp [h]

theorem nibble_lt (x k : ℕ) : x / 2 ^ k % 2 ^ 4 < 16 := Nat.mod_lt _ (by decide)

theorem byte_lt (x k : ℕ) : x / 2 ^ k % 2 ^ 8 < 256 := Nat.mod_lt _ (by decide)

theorem toNat_H2N_uint (v : Uint) : (H2N_uint v).toNat = v.toNat / 2 ^ 0 % 2 ^ 4 * 2 ^ 24 +
    v.toNat / 2 ^ 4 % 2 ^ 4 * 2 ^ 12 + v.toNat / 2 ^ 8 % 2 ^ 4 := by
  have h0 : v.toNat &&& (0xF : Uint).toNat = _ := and_mask v.toNat 0 4
  have h1 : v.toNat &&& (0xF0 : Uint).toNat = _ := and_mask v.toNat 4 4
  have h2 : v.toNat &&& (0xF00 : Uint).toNat = _ := and_mask v.toNat 8 4
  have h3 : v.toNat &&& (0xF000 : Uint).toNat = _ := and_mask v.toNat 12 4
  unfold H2N_uint
  simp only [BitVec.toNat_add, BitVec.toNat_shiftLeft, BitVec.toNat_ushiftRight, BitVec.toNat_and,
    Nat.shiftLeft_eq, Nat.shiftRight_eq_div_pow, h0, h1, h2, h3]
  have hb0 := nibble_lt v.toNat 0
  have hb1 := nibble_lt v.toNat 4
  have hb2 := nibble_lt v.toNat 8
  have hb3 := nibble_lt v.toNat 12
  generalize v.toNat / 2 ^ 0 % 2 ^ 4 = b0 at *
  generalize v.toNat / 2 ^ 4 % 2 ^ 4 = b1 at *
  generalize v.toNat / 2 ^ 8 % 2 ^ 4 = b2 at *
  generalize v.toNat / 2 ^ 12 % 2 ^ 4 = b3 at *
  omega

/-- The bytes of a number the other way around. -/
def reversed (x : ℕ) : ℕ := x / 2 ^ 0 % 2 ^ 8 * 2 ^ 24 + x / 2 ^ 8 % 2 ^ 8 * 2 ^ 16 +
  x / 2 ^ 16 % 2 ^ 8 * 2 ^ 8 + x / 2 ^ 24 % 2 ^ 8

theorem toNat_N2H_uint (v : Uint) : (N2H_uint v).toNat = reversed v.toNat := by
  have h0 : v.toNat &&& (0xFF : Uint).toNat = _ := and_mask v.toNat 0 8
  have h1 : v.toNat &&& (0xFF00 : Uint).toNat = _ := and_mask v.toNat 8 8
  have h2 : v.toNat &&& (0xFF0000 : Uint).toNat = _ := and_mask v.toNat 16 8
  have h3 : v.toNat &&& (0xFF000000 : Uint).toNat = _ := and_mask v.toNat 24 8
  unfold N2H_uint reversed
  simp only [BitVec.toNat_add, BitVec.toNat_shiftLeft, BitVec.toNat_ushiftRight, BitVec.toNat_and,
    Nat.shiftLeft_eq, Nat.shiftRight_eq_div_pow, h0, h1, h2, h3]
  have hb0 := byte_lt v.toNat 0
  have hb1 := byte_lt v.toNat 8
  have hb2 := byte_lt v.toNat 16
  have hb3 := byte_lt v.toNat 24
  generalize v.toNat / 2 ^ 0 % 2 ^ 8 = b0 at *
  generalize v.toNat / 2 ^ 8 % 2 ^ 8 = b1 at *
  generalize v.toNat / 2 ^ 16 % 2 ^ 8 = b2 at *
  generalize v.toNat / 2 ^ 24 % 2 ^ 8 = b3 at *
  omega

theorem toNat_fromNetwork (v : Uint) : (fromNetwork v).toNat = reversed v.toNat := by
  have hb0 := byte_lt v.toNat 0
  have hb1 := byte_lt v.toNat 8
  have hb2 := byte_lt v.toNat 16
  have hb3 := byte_lt v.toNat 24
  have h0 : v.toNat % 2 ^ 8 = v.toNat / 2 ^ 0 % 2 ^ 8 := by rw [pow_zero, Nat.div_one]
  have h1 : v.toNat / 256 % 2 ^ 8 = v.toNat / 2 ^ 8 % 2 ^ 8 := rfl
  have h2 : v.toNat / (256 * 256) % 2 ^ 8 = v.toNat / 2 ^ 16 % 2 ^ 8 := rfl
  have h3 : v.toNat / (256 * 256 * 256) % 2 ^ 8 = v.toNat / 2 ^ 24 % 2 ^ 8 := rfl
  unfold fromNetwork reversed
  simp only [le, List.reverse_cons, List.reverse_nil, List.nil_append, List.cons_append, num,
    UInt8.toNat_ofNat', BitVec.toNat_ofNat, Nat.div_div_eq_div_mul, h0, h1, h2, h3]
  generalize v.toNat / 2 ^ 0 % 2 ^ 8 = b0 at *
  generalize v.toNat / 2 ^ 8 % 2 ^ 8 = b1 at *
  generalize v.toNat / 2 ^ 16 % 2 ^ 8 = b2 at *
  generalize v.toNat / 2 ^ 24 % 2 ^ 8 = b3 at *
  omega

/-- `N2H_uint` turns the bytes around. -/
theorem N2H_uint_eq (v : Uint) : N2H_uint v = fromNetwork v :=
  BitVec.eq_of_toNat_eq (by rw [toNat_N2H_uint, toNat_fromNetwork])

/-- What the peer reads where the kernel has written `v` with `H2N_uint`. -/
theorem toNat_sent (v : Uint) : (fromNetwork (H2N_uint v)).toNat = v.toNat / 2 ^ 0 % 2 ^ 4 +
    v.toNat / 2 ^ 4 % 2 ^ 4 * 2 ^ 20 + v.toNat / 2 ^ 8 % 2 ^ 4 * 2 ^ 24 := by
  rw [toNat_fromNetwork, toNat_H2N_uint, reversed]
  have hb0 := nibble_lt v.toNat 0
  have hb1 := nibble_lt v.toNat 4
  have hb2 := nibble_lt v.toNat 8
  generalize v.toNat / 2 ^ 0 % 2 ^ 4 = b0 at *
  generalize v.toNat / 2 ^ 4 % 2 ^ 4 = b1 at *
  generalize v.toNat / 2 ^ 8 % 2 ^ 4 = b2 at *
  omega

/-- The number after it is read as the number after it, unless a nibble carries. -/
theorem sent_succ (v d : Uint) (hd : d.toNat < 2 ^ 16) :
    fromNetwork (H2N_uint (v + 1)) = fromNetwork (H2N_uint v) + d ↔
      d = 1 ∧ (v + 1).toNat % 16 ≠ 0 := by
  have hlt := v.isLt
  have hsucc : (v + 1).toNat = (v.toNat + 1) % 2 ^ 32 := BitVec.toNat_add v 1
  have hone : d = 1 ↔ d.toNat = 1 := BitVec.toNat_eq
  have hcarry : (v + 1).toNat % 16 ≠ 0 →
      (v + 1).toNat / 2 ^ 0 % 2 ^ 4 = v.toNat / 2 ^ 0 % 2 ^ 4 + 1 ∧
        (v + 1).toNat / 2 ^ 4 = v.toNat / 2 ^ 4 ∧ (v + 1).toNat / 2 ^ 8 = v.toNat / 2 ^ 8 := by
    intro hne
    refine ⟨?_, ?_, ?_⟩ <;> omega
  have hwrap : (v + 1).toNat % 16 = 0 → (v + 1).toNat / 2 ^ 0 % 2 ^ 4 = 0 ∧
      v.toNat / 2 ^ 0 % 2 ^ 4 = 15 := by
    intro he
    omega
  have ha0 := nibble_lt v.toNat 0
  have ha1 := nibble_lt v.toNat 4
  have ha2 := nibble_lt v.toNat 8
  have hb1 := nibble_lt (v + 1).toNat 4
  have hb2 := nibble_lt (v + 1).toNat 8
  rw [BitVec.toNat_eq, BitVec.toNat_add, toNat_sent, toNat_sent, hone]
  by_cases he : (v + 1).toNat % 16 = 0
  · obtain ⟨hnext, hlast⟩ := hwrap he
    rw [hnext, hlast]
    constructor
    · intro heq
      omega
    · rintro ⟨-, hne⟩
      exact absurd he hne
  · obtain ⟨hnext, hsame, hsame'⟩ := hcarry he
    rw [hnext, hsame, hsame']
    constructor
    · intro heq
      exact ⟨by omega, he⟩
    · rintro ⟨hd1, -⟩
      omega

/-- The same number again is no number after it. -/
theorem sent_same (v d : Uint) (hd : d.toNat < 2 ^ 16) (hpos : d.toNat ≠ 0) :
    fromNetwork (H2N_uint v) ≠ fromNetwork (H2N_uint v) + d := by
  intro heq
  have hadd := congrArg BitVec.toNat heq
  rw [BitVec.toNat_add, toNat_sent] at hadd
  have ha0 := nibble_lt v.toNat 0
  have ha1 := nibble_lt v.toNat 4
  have ha2 := nibble_lt v.toNat 8
  omega

/-- What `tcp_pkt_create` adds to a number in network order. -/
def added (v : Uint) : Uint := if (fromNetwork v).toNat % 256 = 255 then -255 else 1

/-- An acknowledgement is the number received, with one added to its last byte. -/
theorem fromNetwork_ack (v : Uint) :
    fromNetwork (v + (1 <<< (8 * 3))) = fromNetwork v + added v := by
  have hlt := v.isLt
  have hsum : (v + (1 <<< (8 * 3))).toNat = (v.toNat + 2 ^ 24) % 2 ^ 32 :=
    BitVec.toNat_add v (1 <<< (8 * 3))
  have h0 : (v + (1 <<< (8 * 3))).toNat / 2 ^ 0 % 2 ^ 8 = v.toNat / 2 ^ 0 % 2 ^ 8 := by omega
  have h1 : (v + (1 <<< (8 * 3))).toNat / 2 ^ 8 % 2 ^ 8 = v.toNat / 2 ^ 8 % 2 ^ 8 := by omega
  have h2 : (v + (1 <<< (8 * 3))).toNat / 2 ^ 16 % 2 ^ 8 = v.toNat / 2 ^ 16 % 2 ^ 8 := by omega
  have h3 : (v + (1 <<< (8 * 3))).toNat / 2 ^ 24 % 2 ^ 8 =
      (v.toNat / 2 ^ 24 % 2 ^ 8 + 1) % 256 := by omega
  have hb0 := byte_lt v.toNat 0
  have hb1 := byte_lt v.toNat 8
  have hb2 := byte_lt v.toNat 16
  have hb3 := byte_lt v.toNat 24
  refine BitVec.eq_of_toNat_eq ?_
  unfold added
  rw [BitVec.toNat_add, toNat_fromNetwork, toNat_fromNetwork]
  unfold reversed
  rw [h0, h1, h2, h3]
  generalize v.toNat / 2 ^ 0 % 2 ^ 8 = b0 at *
  generalize v.toNat / 2 ^ 8 % 2 ^ 8 = b1 at *
  generalize v.toNat / 2 ^ 16 % 2 ^ 8 = b2 at *
  generalize v.toNat / 2 ^ 24 % 2 ^ 8 = b3 at *
  split
  · have hneg : (-255 : Uint).toNat = 2 ^ 32 - 255 := rfl
    rw [hneg]
    omega
  · have hone : (1 : Uint).toNat = 1 := rfl
    rw [hone]
    omega

/-! ### The answers -/

/-- The segment is answered. -/
def Answered (s : Tcp) (recv : Segment) : Prop := recv.code_bits &&& SYN ≠ 0 ∨
  recv.code_bits = PSH ||| ACK ∨ recv.code_bits = ACK ∧ s.fin_flag = 1

/-- The last segment sent, next to the numbers after it. -/
inductive LastOk (tcp : Tcp) (last : Sent) : Prop
  | syn (flags : last.code_bits = ACK ||| SYN) (payload : last.payload = [])
      (seq_num : last.seq_num = H2N_uint (tcp.seq_num - 1))
  | data (flags : last.code_bits = ACK ||| PSH) (payload : last.payload.length = 60)
      (seq_num : last.seq_num = H2N_uint (tcp.seq_num - 1))
  | fin (flags : last.code_bits = FIN) (payload : last.payload = [])
      (seq_num : last.seq_num = H2N_uint tcp.seq_num)

/-- What `tcp_proc` does with a segment that it answers: one segment, or an acknowledgement and the
    data. -/
theorem tcp_proc_answered {s : Tcp} {recv : Segment} (h : Answered s recv) : ∃ first rest last,
    (s.tcp_proc recv).1 = first :: rest ∧ (s.tcp_proc recv).1.getLast? = some last ∧
    first.seq_num = H2N_uint s.seq_num ∧ Follows (some first) rest ∧
    (∀ sent ∈ (s.tcp_proc recv).1, sent.ack_num = recv.seq_num + (1 <<< (8 * 3))) ∧
    LastOk (s.tcp_proc recv).2 last := by
  have hback : s.seq_num + 1 - 1 = s.seq_num := BitVec.add_sub_cancel s.seq_num 1
  unfold Tcp.tcp_proc
  split
  · refine ⟨_, [], _, rfl, rfl, rfl, trivial, ?_, .syn rfl rfl (congrArg H2N_uint hback.symm)⟩
    intro sent hsent
    obtain rfl := List.mem_singleton.mp hsent
    rfl
  · rename_i hsyn
    split
    · refine ⟨_, [_], _, rfl, rfl, rfl, ⟨?_, trivial⟩, ?_,
        .data rfl rfl (congrArg H2N_uint hback.symm)⟩
      · show fromNetwork (H2N_uint s.seq_num) = fromNetwork (H2N_uint s.seq_num) + taken ACK []
        rw [show taken ACK [] = 0 by decide]
        exact (BitVec.add_zero _).symm
      · intro sent hsent
        rcases List.mem_cons.mp hsent with rfl | hsent
        · rfl
        · obtain rfl := List.mem_singleton.mp hsent
          rfl
    · rename_i hpsh
      obtain ⟨hack, hfin⟩ := (h.resolve_left hsyn).resolve_left hpsh
      rw [if_pos hack, if_pos hfin]
      refine ⟨_, [], _, rfl, rfl, rfl, trivial, ?_, .fin rfl rfl rfl⟩
      intro sent hsent
      obtain rfl := List.mem_singleton.mp hsent
      rfl

theorem tcp_proc_silent {s : Tcp} {recv : Segment} (h : ¬ Answered s recv) :
    s.tcp_proc recv = ([], s) := by
  obtain ⟨hsyn, h⟩ := not_or.mp h
  obtain ⟨hpsh, hack⟩ := not_or.mp h
  unfold Tcp.tcp_proc
  rw [if_neg hsyn, if_neg hpsh]
  split
  · rename_i hcode
    rw [if_neg fun hfin => hack ⟨hcode, hfin⟩]
  · rfl

/-- Only after a SYN can anything follow, and only if the number did not carry. -/
theorem follows_iff {tcp : Tcp} {last : Sent} (h : LastOk tcp last) :
    fromNetwork (H2N_uint tcp.seq_num) =
        fromNetwork last.seq_num + taken last.code_bits last.payload ↔
      last.code_bits = ACK ||| SYN ∧ tcp.seq_num.toNat % 16 ≠ 0 := by
  have hnext : tcp.seq_num - 1 + 1 = tcp.seq_num := BitVec.sub_add_cancel tcp.seq_num 1
  cases h with
  | syn flags payload seq_num =>
    have hsucc := sent_succ (tcp.seq_num - 1) 1 (by decide)
    rw [hnext] at hsucc
    rw [seq_num, flags, payload, show taken (ACK ||| SYN) [] = 1 by decide, hsucc]
    simp
  | data flags payload seq_num =>
    have htaken : taken (ACK ||| PSH) last.payload = 60 := by
      unfold taken
      rw [payload]
      decide
    have hsucc := sent_succ (tcp.seq_num - 1) 60 (by decide)
    rw [hnext] at hsucc
    rw [seq_num, flags, htaken, hsucc]
    exact iff_of_false (fun h => absurd h.1 (by decide)) fun h => absurd h.1 (by decide)
  | fin flags payload seq_num =>
    rw [seq_num, flags, payload, show taken FIN [] = 1 by decide]
    exact iff_of_false (sent_same _ _ (by decide) (by decide)) fun h => absurd h.1 (by decide)

/-! ### Runs -/

/-- The invariant: the numbers go with the last segment sent. -/
def Conn.Inv (c : Conn) : Prop := ∀ last, c.last = some last → LastOk c.tcp last

theorem Conn.inv_start (tcp : Tcp) : (Conn.start tcp).Inv := by
  intro last hlast
  cases hlast

theorem Conn.inv_step {c d : Conn} {recv : Segment} (h : c.Inv) (hst : c.Step recv d) : d.Inv := by
  obtain rfl : d = c.receive recv := hst
  intro last hlast
  unfold Conn.receive at hlast ⊢
  by_cases ha : Answered c.tcp recv
  · obtain ⟨first, rest, last', -, hget, -, -, -, hok⟩ := tcp_proc_answered ha
    rw [hget, Option.some_or] at hlast
    obtain rfl := Option.some.inj hlast
    exact hok
  · rw [tcp_proc_silent ha] at hlast ⊢
    exact h last hlast

/-- An answer has exactly one sequence number to acknowledge, or as many less than none as a carry
    out of the last byte takes away; and it is the first, or follows a SYN without a carry. -/
def Fits (c : Conn) (recv : Segment) : Prop := Answered c.tcp recv →
  taken recv.code_bits recv.payload = added recv.seq_num ∧
    ∀ last, c.last = some last → last.code_bits = ACK ||| SYN ∧ c.tcp.seq_num.toNat % 16 ≠ 0

theorem ackOk_iff {recv : Segment} {sent : Sent}
    (h : sent.ack_num = recv.seq_num + (1 <<< (8 * 3))) :
    AckOk recv sent ↔ taken recv.code_bits recv.payload = added recv.seq_num := by
  unfold AckOk
  rw [h, fromNetwork_ack, BitVec.add_right_inj, eq_comm]

theorem Conn.consistent_iff {c : Conn} (h : c.Inv) (recv : Segment) :
    Consistent c recv ↔ Fits c recv := by
  by_cases ha : Answered c.tcp recv
  · obtain ⟨first, rest, last, hsent, -, hseq, hrest, hack, -⟩ := tcp_proc_answered ha
    have hall : (∀ sent ∈ (c.tcp.tcp_proc recv).1, AckOk recv sent) ↔
        taken recv.code_bits recv.payload = added recv.seq_num := by
      constructor
      · intro hok
        have hmem : first ∈ (c.tcp.tcp_proc recv).1 := by
          rw [hsent]
          exact List.mem_cons_self
        exact (ackOk_iff (hack first hmem)).mp (hok first hmem)
      · intro he sent hmem
        exact (ackOk_iff (hack sent hmem)).mpr he
    unfold Consistent Fits
    rw [hall, hsent]
    cases hlast : c.last with
    | none => simp [ha, Follows, hrest]
    | some q =>
      have hiff := follows_iff (h q hlast)
      rw [← hseq] at hiff
      simp only [Follows, hrest, and_true, ha, true_implies, Option.some.injEq, forall_eq', hiff]
  · unfold Consistent Fits
    rw [tcp_proc_silent ha]
    have htrue : Follows c.last [] := by
      unfold Follows
      trivial
    simp [ha, htrue]

/-- The numbers of a connection are consistent iff each segment that is answered fits. -/
theorem numbers_consistent_iff (tcp : Tcp) {l : List (Conn × Segment)} {u : Conn}
    (hrun : Run Conn.Step (Conn.start tcp) l u) : Along Consistent l ↔ Along Fits l :=
  hrun.along_iff (fun _ _ _ h _ hst => Conn.inv_step h hst)
    (fun _ recv h => Conn.consistent_iff h recv) (Conn.inv_start tcp)

/-- The peer asks for a page: a SYN, its acknowledgement and the request. -/
def syn : Segment := ⟨80, 4000, 0x01000000, SYN, []⟩
def request : Segment := ⟨80, 4000, 0x02000000, PSH ||| ACK, Tcp.text "GET / HTTP/1.0\r\n\r\n"⟩

def boot : Tcp := ⟨0, 0, 0⟩

theorem syn_consistent_iff :
    Along Consistent [(Conn.start boot, syn)] ↔ Along Fits [(Conn.start boot, syn)] :=
  numbers_consistent_iff boot (.cons rfl (.nil _))

/-- The request is acknowledged as if it were one byte long. -/
theorem request_inconsistent :
    ¬ ∀ l u, Run Conn.Step (Conn.start boot) l u → Along Consistent l := by
  intro hall
  have hrun : Run Conn.Step (Conn.start boot) [(Conn.start boot, syn),
      ((Conn.start boot).receive syn, request)] _ := .cons rfl (.cons rfl (.nil _))
  have hok := hall _ _ hrun ((Conn.start boot).receive syn, request) (by simp)
  have hinv := @Conn.inv_step (Conn.start boot) _ syn (Conn.inv_start boot) rfl
  have hfits := (Conn.consistent_iff hinv request).mp hok (.inr (.inl rfl))
  exact absurd hfits.1 (by decide +kernel)

end Xv6.Net
