import Xv6.Net.Checksum

/-! @src tcp.c i8254.c | name:The TCP checksum | layer:proof

    `tcp_chksum` takes the host's own address for the peer's, leaves a last odd byte out and folds
    only once; 8 is added to what it returns. The differences can make up for each other, as they do
    for an even segment to 10.0.1.2 whose sum folds without a carry. -/

namespace Xv6.Net.Packet

open Xv6.Schemes.Ones
open Arp (Ip Mac)

/-! ### What the peer adds up -/

/-- The pseudo-header of a segment of `len` bytes. -/
def pseudo (src dst : Ip) (len : ℕ) : List Uchar :=
  List.ofFn src ++ List.ofFn dst ++ [0, 6] ++ [BitVec.ofNat 8 (len / 256), BitVec.ofNat 8 len]

/-- The checksum of a segment verifies at the peer. -/
def TcpVerifies (recv : Frame) (p : TcpReply) (payload : List Uchar) : Prop :=
  onesSum (pseudo my_ip (peer recv) (20 + payload.length) ++ (p.tcp.bytes ++ payload)) = 0xFFFF

/-! ### What the source adds up -/

/-- The two words of an address. -/
def ipSum (ip : Ip) : ℕ := (words (List.ofFn ip)).sum

/-- The words of the header of a segment, but for its checksum. -/
def headerSum (g : Globals) (recv : Frame) (pkt_type : Uint) : ℕ :=
  (H2N_ushort (loadUshort recv (transport recv + 2))).toNat +
    (H2N_ushort (loadUshort recv (transport recv))).toNat +
    (words (uintBytes (H2N_uint g.seq_num))).sum +
    (words (uintBytes (loadUint recv (transport recv + 4) + (1 <<< (8 * 3))))).sum +
    (0x5000 + pkt_type.toNat % 256) + 14480

/-- The words that `tcp_chksum` adds. -/
def tcpSum (g : Globals) (recv : Frame) (pkt_type : Uint) (payload : List Uchar) : ℕ :=
  2 * ipSum my_ip + 6 + (20 + payload.length) + headerSum g recv pkt_type + (pairs payload).sum

/-- A sum folded once. -/
def once (total : ℕ) : ℕ := total % 2 ^ 16 + total / 2 ^ 16

/-- The carry that folding once leaves. -/
def carry (total : ℕ) : ℕ := once total / 2 ^ 16

/-- The carry out of the 8 that is added. -/
def wrap (total : ℕ) : ℕ := if once total % 2 ^ 16 < 8 then 1 else 0

/-- The differences between what is added and what should be make up for each other. -/
def MakesUp (recv : Frame) (payload : List Uchar) (total : ℕ) : Prop :=
  (ipSum (peer recv) + 256 * odd payload + 8 + carry total) % 65535 =
    (ipSum my_ip + wrap total) % 65535

theorem words_ushortBytes_append (v : Ushort) (l : List Uchar) :
    words (ushortBytes v ++ l) = (H2N_ushort v).toNat :: words l := by
  rw [words_append_even (by simp [ushortBytes]), words_ushortBytes]
  rfl

theorem words_uintBytes_append (v : Uint) (l : List Uchar) :
    words (uintBytes v ++ l) = words (uintBytes v) ++ words l := words_append_even (by simp [uintBytes])

theorem words_ofFn_append (f : Fin 2 → Uchar) (l : List Uchar) :
    words (List.ofFn f ++ l) = ((f 0).toNat * 256 + (f 1).toNat) :: words l := rfl

theorem sum_tcp_bytes (p : tcp_pkt) : (words p.bytes).sum = (H2N_ushort p.src_port).toNat +
    (H2N_ushort p.dst_port).toNat + (words (uintBytes p.seq_num)).sum +
    (words (uintBytes p.ack_num)).sum + ((p.code_bits 0).toNat * 256 + (p.code_bits 1).toNat) +
    (H2N_ushort p.window).toNat + (H2N_ushort p.chk_sum).toNat + (H2N_ushort p.urgent_ptr).toNat := by
  unfold tcp_pkt.bytes
  simp only [List.append_assoc, words_ushortBytes_append, words_uintBytes_append, words_ofFn_append,
    words_ushortBytes, List.sum_cons, List.sum_append, List.sum_nil]
  omega

theorem sum_pseudo (src dst : Ip) {len : ℕ} (hlen : len < 2 ^ 16) :
    (words (pseudo src dst len)).sum = ipSum src + ipSum dst + 6 + len := by
  have hproto : (0 : Uchar).toNat * 256 + (6 : Uchar).toNat = 6 := rfl
  unfold pseudo ipSum
  rw [words_append_even (by simp), words_append_even (by simp), words_append_even (by simp)]
  simp only [words, List.sum_append, List.sum_singleton, BitVec.toNat_ofNat, hproto]
  omega

theorem toNat_added {chk_sum : Uint} {bin : Frame} {n : ℕ}
    (h : chk_sum.toNat + (wordsAt bin n).sum < 2 ^ 32) :
    (added chk_sum bin n).toNat = chk_sum.toNat + (wordsAt bin n).sum := by
  induction n with
  | zero => rfl
  | succ n ih =>
    rw [wordsAt_succ, List.sum_append, List.sum_singleton] at h ⊢
    rw [added, BitVec.toNat_add, ih (by omega)]
    omega

theorem added_holding {chk_sum : Uint} {l : List Uchar} {n : ℕ} (hn : l.length / 2 = n)
    (h : chk_sum.toNat + (pairs l).sum < 2 ^ 32) :
    (added chk_sum (holding l) n).toNat = chk_sum.toNat + (pairs l).sum := by
  rw [← wordsAt_holding, hn] at h ⊢
  exact toNat_added h

/-- The pseudo-header that `tcp_chksum` makes for a header from the host itself. -/
theorem sum_dummy (ip : Ip) (len : Ushort) :
    (pairs (tcp_dummy.bytes ⟨ip, ip, 0, 0x6, H2N_ushort len⟩)).sum = 2 * ipSum ip + 6 + len.toNat := by
  have hproto : words [(0 : Uchar), 6] = [6] := rfl
  rw [pairs_even (by simp [tcp_dummy.bytes, ushortBytes]), tcp_dummy.bytes,
    words_append_even (by simp), words_append_even (by simp), words_append_even (by simp),
    words_ushortBytes, H2N_ushort_H2N_ushort, hproto, List.sum_append, List.sum_append,
    List.sum_append, List.sum_singleton, List.sum_singleton]
  show ipSum ip + ipSum ip + 6 + len.toNat = _
  omega

/-- What `tcp_chksum` returns for a segment `seg` in a packet of `tcp_pkt_create`. -/
theorem toNat_tcp_chksum {ipv4_p : ipv4_pkt} {seg : List Uchar} (total : ℕ) (hsrc : ipv4_p.src_ip = my_ip)
    (hlen : ipv4_p.total_len = H2N_ushort (BitVec.ofNat 16 (20 + seg.length)))
    (hsize : 20 + seg.length < 2 ^ 16)
    (htotal : total = 2 * ipSum my_ip + 6 + seg.length + (pairs seg).sum) :
    (tcp_chksum ipv4_p (holding seg)).toNat = 65535 - once total % 65536 := by
  have hbound := sum_pairs_le seg
  have hip : ipSum my_ip = 2826 := rfl
  have htcp_len : (BitVec.ofNat 16 seg.length).toNat = seg.length := by
    rw [BitVec.toNat_ofNat]
    omega
  have hback : N2H_ushort ipv4_p.total_len - 20 = BitVec.ofNat 16 seg.length := by
    rw [hlen, N2H_ushort_H2N_ushort]
    bv_omega
  -- the pseudo-header first, then the segment without a last odd byte
  obtain ⟨first, hfirst⟩ : ∃ first, first = added 0
      (holding (tcp_dummy.bytes ⟨my_ip, my_ip, 0, 0x6, H2N_ushort (BitVec.ofNat 16 seg.length)⟩)) 6 :=
    ⟨_, rfl⟩
  obtain ⟨second, hsecond⟩ : ∃ second, second = added first (holding seg) (seg.length / 2) := ⟨_, rfl⟩
  have hchk : tcp_chksum ipv4_p (holding seg) = (~~~ (second + (second >>> 16))).setWidth 16 := by
    unfold tcp_chksum
    simp only [hsrc, hback, N2H_ushort_H2N_ushort, htcp_len, ← hfirst, ← hsecond]
  have hfirst : first.toNat = 2 * ipSum my_ip + 6 + seg.length := by
    have hpairs := sum_dummy my_ip (BitVec.ofNat 16 seg.length)
    rw [htcp_len] at hpairs
    rw [hfirst, ← hpairs]
    refine (added_holding (by simp [tcp_dummy.bytes, ushortBytes]) ?_).trans (Nat.zero_add _)
    show 0 + _ < _
    omega
  have hsecond : second.toNat = total := by
    rw [hsecond, added_holding rfl (by omega), hfirst, htotal]
  have hshift : (second >>> 16).toNat = total / 65536 := by
    rw [BitVec.toNat_ushiftRight, hsecond, Nat.shiftRight_eq_div_pow]
  rw [hchk, toNat_complement, BitVec.toNat_add, hshift, hsecond]
  unfold once
  omega

/-! ### The difference -/

theorem sum_tcp_send (g : Globals) (recv : Frame) (pkt_type : Uint) (chk_sum : Ushort) :
    (words { tcp_send g recv pkt_type with chk_sum := chk_sum }.bytes).sum =
      headerSum g recv pkt_type + (H2N_ushort chk_sum).toNat := by
  have hoff : ((tcp_send g recv pkt_type).code_bits 0).toNat = 0x50 := rfl
  have hflags : ((tcp_send g recv pkt_type).code_bits 1).toNat = pkt_type.toNat % 256 :=
    BitVec.toNat_setWidth 8 pkt_type
  have hwindow : (H2N_ushort (tcp_send g recv pkt_type).window).toNat = 14480 :=
    congrArg BitVec.toNat (H2N_ushort_H2N_ushort 14480)
  have hzero : H2N_ushort 0 = 0 := rfl
  have hurgent : (H2N_ushort (tcp_send g recv pkt_type).urgent_ptr).toNat = 0 :=
    congrArg BitVec.toNat hzero
  have hheader : headerSum g recv pkt_type = (H2N_ushort (tcp_send g recv pkt_type).src_port).toNat +
      (H2N_ushort (tcp_send g recv pkt_type).dst_port).toNat +
      (words (uintBytes (tcp_send g recv pkt_type).seq_num)).sum +
      (words (uintBytes (tcp_send g recv pkt_type).ack_num)).sum +
      (0x5000 + pkt_type.toNat % 256) + 14480 := rfl
  rw [sum_tcp_bytes, hheader]
  simp only [hoff, hflags, hwindow, hurgent]
  omega

/-- The checksum as the peer reads it. -/
theorem toNat_chk_sum (g : Globals) (recv : Frame) (pkt_type : Uint) {payload : List Uchar}
    (hsize : 40 + payload.length < 2 ^ 16) :
    (H2N_ushort (tcp_pkt_create g recv pkt_type payload).1.tcp.chk_sum).toNat =
      (65535 - once (tcpSum g recv pkt_type payload) % 65536 + 8) % 65536 := by
  have h8 : (8 : Ushort).toNat = 8 := rfl
  have hlen : ((tcp_send g recv pkt_type).bytes ++ payload).length = 20 + payload.length :=
    List.length_append
  have hsum : (pairs ((tcp_send g recv pkt_type).bytes ++ payload)).sum =
      headerSum g recv pkt_type + (pairs payload).sum := by
    have hheader := sum_tcp_send g recv pkt_type 0
    have heven : (tcp_send g recv pkt_type).bytes.length % 2 = 0 := by
      simp [tcp_pkt.bytes, ushortBytes, uintBytes]
    rw [pairs_append_even heven, pairs_even heven, List.sum_append]
    exact congrArg (· + _) hheader
  have htotal_len : (20 + 20 + BitVec.ofNat 32 payload.length).setWidth 16 =
      BitVec.ofNat 16 (20 + ((tcp_send g recv pkt_type).bytes ++ payload).length) := by
    have h20 : (20 : Uint).toNat = 20 := rfl
    rw [hlen]
    apply BitVec.eq_of_toNat_eq
    simp only [BitVec.toNat_setWidth, BitVec.toNat_add, BitVec.toNat_ofNat, h20]
    omega
  unfold tcp_pkt_create
  rw [H2N_ushort_H2N_ushort, BitVec.toNat_add, h8,
    toNat_tcp_chksum (tcpSum g recv pkt_type payload) rfl (congrArg H2N_ushort htotal_len) ?_ ?_]
  · rw [hlen]
    omega
  · rw [hlen, hsum]
    unfold tcpSum
    omega

/-- What the peer adds up, without carries. -/
theorem sum_at_peer (g : Globals) (recv : Frame) (pkt_type : Uint) {payload : List Uchar}
    (hsize : 40 + payload.length < 2 ^ 16) :
    (words (pseudo my_ip (peer recv) (20 + payload.length) ++
      ((tcp_pkt_create g recv pkt_type payload).1.tcp.bytes ++ payload))).sum + ipSum my_ip =
    ipSum (peer recv) + 256 * odd payload + tcpSum g recv pkt_type payload +
      (H2N_ushort (tcp_pkt_create g recv pkt_type payload).1.tcp.chk_sum).toNat := by
  have hpseudo : (pseudo my_ip (peer recv) (20 + payload.length)).length % 2 = 0 := by
    simp [pseudo]
  have heven : (tcp_pkt_create g recv pkt_type payload).1.tcp.bytes.length % 2 = 0 := by
    simp [tcp_pkt.bytes, ushortBytes, uintBytes]
  have hheader : (words (tcp_pkt_create g recv pkt_type payload).1.tcp.bytes).sum =
      headerSum g recv pkt_type +
        (H2N_ushort (tcp_pkt_create g recv pkt_type payload).1.tcp.chk_sum).toNat :=
    sum_tcp_send g recv pkt_type _
  rw [words_append_even hpseudo, words_append_even heven, List.sum_append, List.sum_append, hheader,
    sum_pseudo _ _ (by omega), sum_words payload]
  unfold tcpSum
  omega

/-- A sum that is 2826 short of what is added to it is a multiple of all ones if the differences
    make up for each other. -/
theorem dvd_iff {sum peer odd total : ℕ}
    (hsum : sum + 2826 = peer + 256 * odd + total + (65535 - once total % 65536 + 8) % 65536) :
    65535 ∣ sum ↔ (peer + 256 * odd + 8 + carry total) % 65535 = (2826 + wrap total) % 65535 := by
  have hmod : once total % 65535 = total % 65535 := by
    unfold once
    omega
  unfold carry wrap
  generalize once total = folded at *
  -- what is carried out of the 16 bits, by the sum and by the 8
  obtain ⟨f, q, hf, hsplit⟩ : ∃ f q, f < 65536 ∧ folded = 65536 * q + f :=
    ⟨folded % 65536, folded / 65536, Nat.mod_lt _ (by decide), (Nat.div_add_mod _ _).symm⟩
  rw [hsplit] at hsum hmod ⊢
  rw [Nat.mul_add_mod, Nat.mod_eq_of_lt hf] at hsum
  by_cases hwrap : f < 8
  · rw [if_pos (by omega)]
    omega
  · rw [if_neg (by omega)]
    omega

/-- The checksum of a segment verifies at the peer iff the differences make up for each other. A
    payload in the send buffer, which is a page, is shorter than is asked. -/
theorem tcp_verifies_iff (g : Globals) (recv : Frame) (pkt_type : Uint) (payload : List Uchar)
    (hsize : 40 + payload.length < 2 ^ 16) :
    TcpVerifies recv (tcp_pkt_create g recv pkt_type payload).1 payload ↔
      MakesUp recv payload (tcpSum g recv pkt_type payload) := by
  have hpeer := sum_at_peer g recv pkt_type hsize
  have hip : ipSum my_ip = 2826 := rfl
  have hsix : 2 * 2826 + 6 ≤ tcpSum g recv pkt_type payload := by
    unfold tcpSum
    omega
  have hones := sum_ones_iff (w := 16) (by decide) (words_words (pseudo my_ip (peer recv)
    (20 + payload.length) ++ ((tcp_pkt_create g recv pkt_type payload).1.tcp.bytes ++ payload)))
  rw [toNat_chk_sum g recv pkt_type hsize, hip] at hpeer
  unfold MakesUp
  rw [hip, ← dvd_iff hpeer]
  exact hones.trans (and_iff_left (by omega))

instance (recv : Frame) (p : TcpReply) (payload : List Uchar) : Decidable (TcpVerifies recv p payload) :=
  inferInstanceAs (Decidable (_ = _))

instance (recv : Frame) (payload : List Uchar) (total : ℕ) : Decidable (MakesUp recv payload total) :=
  inferInstanceAs (Decidable (_ = _))

/-- A SYN from 10.0.1.`k`, from port 12345 to port 80. -/
def synFrom (k : ℕ) : Frame := holding
  ([0x52, 0x54, 0, 0x12, 0x34, 0x56, 0x52, 0x55, 10, 0, 1, 2, 0x08, 0x00] ++
    [0x45, 0, 0, 40, 0, 1, 0, 0, 64, 6, 0, 0, 10, 0, 1, BitVec.ofNat 8 k, 10, 0, 1, 10] ++
    [0x30, 0x39, 0, 80, 1, 2, 3, 4, 0, 0, 0, 0, 0x50, 0x02, 0, 0, 0, 0, 0, 0])

def boot : Globals := ⟨![0x52, 0x54, 0, 0x12, 0x34, 0x56], 0, 0⟩

/-- The answer to a SYN from 10.0.1.2 verifies. -/
theorem tcp_verifies_iff_two : 40 + ([] : List Uchar).length < 2 ^ 16 ∧
    TcpVerifies (synFrom 2) (tcp_pkt_create boot (synFrom 2) 0x12 []).1 [] :=
  ⟨by decide, (tcp_verifies_iff boot (synFrom 2) 0x12 [] (by decide)).mpr (by decide +kernel)⟩

/-- The answer to a SYN from 10.0.1.3 does not. -/
theorem syn_from_three_fails :
    ¬ TcpVerifies (synFrom 3) (tcp_pkt_create boot (synFrom 3) 0x12 []).1 [] := by decide +kernel

end Xv6.Net.Packet
