import Xv6.Net.Packet
import Xv6.Net.Sequence

/-! @src ipv4.c icmp.c tcp.c eth.c | name:The IPv4 and the ICMP checksum | layer:proof

    A loop that folds in each step keeps the one's-complement sum of the words so far: the carry out
    of 16 bits is at most one, and it is put back before the next word is added. The complement goes
    through `H2N_ushort`, which the bytes of the field undo. -/

namespace Xv6.Net.Packet

open Xv6.Schemes.Ones
open Arp (Ip Mac)

/-- The one's-complement sum of some bytes, by words of 16 bits. -/
def onesSum (l : List Uchar) : ℕ := sum 16 (words l)

/-! ### Byte order -/

theorem toNat_H2N_ushort (v : Ushort) : (H2N_ushort v).toNat = v.toNat % 256 * 256 + v.toNat / 256 := by
  have hmask : v.toNat &&& (0xFF : Ushort).toNat = _ := and_mask v.toNat 0 8
  have hv := v.isLt
  unfold H2N_ushort
  simp only [BitVec.toNat_add, BitVec.toNat_shiftLeft, BitVec.toNat_ushiftRight, BitVec.toNat_and,
    Nat.shiftLeft_eq, Nat.shiftRight_eq_div_pow, hmask]
  omega

theorem H2N_ushort_H2N_ushort (v : Ushort) : H2N_ushort (H2N_ushort v) = v := by
  apply BitVec.eq_of_toNat_eq
  have hv := v.isLt
  rw [toNat_H2N_ushort, toNat_H2N_ushort]
  omega

theorem N2H_ushort_H2N_ushort (v : Ushort) : N2H_ushort (H2N_ushort v) = v := H2N_ushort_H2N_ushort v

/-- The peer reads a number the other way around. -/
theorem words_ushortBytes (v : Ushort) : words (ushortBytes v) = [(H2N_ushort v).toNat] := by
  have hv := v.isLt
  simp only [ushortBytes, words, toNat_H2N_ushort, BitVec.toNat_setWidth, BitVec.toNat_ushiftRight,
    Nat.shiftRight_eq_div_pow]
  congr 1
  omega

/-! ### Words in memory -/

theorem toNat_word (bin : Frame) (n : ℕ) :
    (word bin n).toNat = (bin (n * 2)).toNat * 256 + (bin (n * 2 + 1)).toNat := by
  have hhigh := (bin (n * 2)).isLt
  have hlow := (bin (n * 2 + 1)).isLt
  unfold word
  simp only [BitVec.toNat_add, BitVec.toNat_shiftLeft, BitVec.toNat_setWidth, Nat.shiftLeft_eq]
  omega

theorem word_lt (bin : Frame) (n : ℕ) : (word bin n).toNat < 2 ^ 16 := by
  have hhigh := (bin (n * 2)).isLt
  have hlow := (bin (n * 2 + 1)).isLt
  rw [toNat_word]
  omega

/-- The first `n` words. -/
def wordsAt (bin : Frame) (n : ℕ) : List ℕ := (List.range n).map fun i => (word bin i).toNat

theorem wordsAt_succ (bin : Frame) (n : ℕ) :
    wordsAt bin (n + 1) = wordsAt bin n ++ [(word bin n).toNat] := by
  unfold wordsAt
  rw [List.range_succ, List.map_append, List.map_singleton]

theorem words_wordsAt (bin : Frame) (n : ℕ) : Words 16 (wordsAt bin n) := by
  intro a ha
  obtain ⟨i, -, rfl⟩ := List.mem_map.mp ha
  exact word_lt bin i

theorem wordsAt_holding (l : List Uchar) : wordsAt (holding l) (l.length / 2) = pairs l := by
  induction l using words.induct with
  | case1 => rfl
  | case2 a => simp [wordsAt, pairs]
  | case3 a b l ih =>
    have hlen : (a :: b :: l).length / 2 = l.length / 2 + 1 := by
      simp only [List.length_cons]
      omega
    have hnext (i : ℕ) : (word (holding (a :: b :: l)) (i + 1)).toNat = (word (holding l) i).toNat := by
      rw [toNat_word, toNat_word, Nat.add_mul]
      rfl
    rw [hlen, wordsAt, List.range_succ_eq_map, List.map_cons, List.map_map, pairs, ← ih, toNat_word]
    exact congrArg (List.cons _) (List.map_congr_left fun i _ => hnext i)

theorem pairs_even {l : List Uchar} (hl : l.length % 2 = 0) : pairs l = words l := by
  induction l using words.induct with
  | case1 => rfl
  | case2 a => exact absurd hl (by simp)
  | case3 a b l ih =>
    simp only [List.length_cons] at hl
    rw [pairs, words, ih (by omega)]

/-! ### The loop that folds -/

/-- The accumulator takes in a word without leaving 17 bits, and keeps its carry. -/
def Keeps (chk_sum word : Uint) : Prop :=
  (chk_sum + word).toNat = chk_sum.toNat + word.toNat ∧ (chk_sum + word).toNat < 2 ^ 17 ∧
    (fold (chk_sum + word)).toNat = add 16 chk_sum.toNat word.toNat

theorem keeps {chk_sum word : Uint} (hc : chk_sum.toNat < 2 ^ 16) (hw : word.toNat < 2 ^ 16) :
    Keeps chk_sum word := by
  have hsum : (chk_sum + word).toNat = chk_sum.toNat + word.toNat := by
    rw [BitVec.toNat_add]
    omega
  refine ⟨hsum, by omega, ?_⟩
  have hgt : chk_sum + word > 0xFFFF ↔ 0xFFFF < chk_sum.toNat + word.toNat := by
    rw [← hsum]
    exact BitVec.lt_def
  unfold fold
  rcases add_cases hc hw with ⟨hlt, ha⟩ | ⟨hge, ha⟩
  · rw [if_neg (by rw [hgt]; omega), ha, hsum]
  · have hmask : (chk_sum + word).toNat &&& (0xFFFF : Uint).toNat = _ := and_mask (chk_sum + word).toNat 0 16
    have hone : (1 : Uint).toNat = 1 := rfl
    rw [if_pos (by rw [hgt]; omega), BitVec.toNat_add, BitVec.toNat_and, hmask, hsum, hone]
    omega

theorem folded_eq (bin : Frame) (n : ℕ) : (folded bin n).toNat = sum 16 (wordsAt bin n) := by
  induction n with
  | zero => rfl
  | succ n ih =>
    have hlt := sum_lt (words_wordsAt bin n)
    obtain ⟨-, -, hfold⟩ := keeps (ih ▸ hlt) (word_lt bin n)
    rw [folded, hfold, ih, wordsAt_succ, sum_concat]

theorem keeps_folded (bin : Frame) (n : ℕ) : Keeps (folded bin n) (word bin n) :=
  keeps (folded_eq bin n ▸ sum_lt (words_wordsAt bin n)) (word_lt bin n)

theorem toNat_complement (v : Uint) : ((~~~ v).setWidth 16).toNat = 65535 - v.toNat % 65536 := by
  have hv := v.isLt
  rw [BitVec.toNat_setWidth, BitVec.toNat_not]
  omega

/-- What the loop returns for some bytes. -/
theorem toNat_chksum {l : List Uchar} {n : ℕ} (hn : l.length = 2 * n) :
    ((~~~ folded (holding l) n).setWidth 16).toNat = 65535 - onesSum l := by
  have hlt : sum 16 (wordsAt (holding l) n) < 65536 := sum_lt (words_wordsAt (holding l) n)
  have hwords : wordsAt (holding l) n = words l := by
    rw [← pairs_even (by omega : l.length % 2 = 0), ← wordsAt_holding, hn, Nat.mul_div_cancel_left n (by decide)]
  rw [toNat_complement, folded_eq, Nat.mod_eq_of_lt hlt, hwords]
  rfl

/-! ### A checksum in its field -/

theorem words_field {before after : List Uchar} (h : before.length % 2 = 0) (v : Ushort) :
    words (before ++ ushortBytes v ++ after) =
      words before ++ (H2N_ushort v).toNat :: words after := by
  have hfield : (before ++ ushortBytes v).length % 2 = 0 := by
    rw [List.length_append]
    exact (Nat.add_mod_right _ 2).trans h
  rw [words_append_even hfield, words_append_even h, words_ushortBytes, List.append_assoc]
  rfl

/-- The complement of the sum, stored where the sum has found 0. -/
theorem onesSum_stored {before after : List Uchar} {c : Ushort} (h : before.length % 2 = 0)
    (hc : c.toNat = 65535 - onesSum (before ++ ushortBytes 0 ++ after)) :
    onesSum (before ++ ushortBytes (H2N_ushort c) ++ after) = 0xFFFF := by
  have hwords := words_words (before ++ ushortBytes 0 ++ after)
  rw [onesSum, words_field h] at hc
  rw [words_field h] at hwords
  rw [onesSum, words_field h, H2N_ushort_H2N_ushort, hc]
  exact sum_complement (by decide) hwords

theorem toNat_ipv4_chksum {p : ipv4_pkt} (hver : p.ver = 0x45) :
    (ipv4_chksum (holding p.bytes)).toNat = 65535 - onesSum p.bytes := by
  have hlen : ((holding p.bytes 0 &&& 0xF) * 2).toNat = 10 := by
    show ((p.ver &&& 0xF) * 2).toNat = 10
    rw [hver]
    rfl
  have hchk : ipv4_chksum (holding p.bytes) =
      (~~~ folded (holding p.bytes) ((holding p.bytes 0 &&& 0xF) * 2).toNat).setWidth 16 := rfl
  rw [hchk, hlen]
  exact toNat_chksum rfl

theorem ipv4_stored {p : ipv4_pkt} (hver : p.ver = 0x45) (hchk : p.chk_sum = 0) :
    onesSum { p with chk_sum := H2N_ushort (ipv4_chksum (holding p.bytes)) }.bytes = 0xFFFF := by
  have hbytes (p : ipv4_pkt) : p.bytes = ([p.ver, p.srv_type] ++ ushortBytes p.total_len ++
      ushortBytes p.id ++ ushortBytes p.fragment ++ [p.ttl, p.protocol]) ++ ushortBytes p.chk_sum ++
      (List.ofFn p.src_ip ++ List.ofFn p.dst_ip) := by
    simp only [ipv4_pkt.bytes, List.append_assoc]
  rw [hbytes]
  refine onesSum_stored (by simp [ushortBytes]) ?_
  rw [toNat_ipv4_chksum hver, hbytes p, hchk]

theorem ipv4_send_verifies (g : Globals) (recv : Frame) (total_len fragment : Ushort)
    (protocol : Uchar) : onesSum (ipv4_send g recv total_len fragment protocol).bytes = 0xFFFF := by
  unfold ipv4_send
  exact ipv4_stored rfl rfl

theorem icmp_stored {p : icmp_echo_pkt} (hchk : p.chk_sum = 0) :
    onesSum { p with chk_sum := H2N_ushort (icmp_chksum (holding p.bytes)) }.bytes = 0xFFFF := by
  have hbytes (p : icmp_echo_pkt) : p.bytes = [p.type, p.code] ++ ushortBytes p.chk_sum ++
      (ushortBytes p.id ++ ushortBytes p.seq_num ++ List.ofFn p.time_stamp ++ List.ofFn p.data) := by
    simp only [icmp_echo_pkt.bytes, List.append_assoc]
  have hsum : (icmp_chksum (holding p.bytes)).toNat = 65535 - onesSum p.bytes := toNat_chksum rfl
  rw [hbytes]
  refine onesSum_stored (by simp) ?_
  rw [hsum, hbytes p, hchk]

theorem icmp_verifies (g : Globals) (recv : Frame) :
    onesSum (icmp_reply_pkt_create g recv).1.icmp.bytes = 0xFFFF := by
  unfold icmp_reply_pkt_create
  exact icmp_stored rfl

/-- The IPv4 header of each packet verifies and so does the ICMP message, and neither loop ever loses
    a carry. -/
theorem checksums_verify (g : Globals) (recv : Frame) :
    onesSum (icmp_reply_pkt_create g recv).1.ipv4.bytes = 0xFFFF ∧
    onesSum (icmp_reply_pkt_create g recv).1.icmp.bytes = 0xFFFF ∧
    (∀ pkt_type payload, onesSum (tcp_pkt_create g recv pkt_type payload).1.ipv4.bytes = 0xFFFF) ∧
    ∀ bin n, Keeps (folded bin n) (word bin n) :=
  ⟨ipv4_send_verifies .., icmp_verifies g recv, fun _ _ => ipv4_send_verifies .., keeps_folded⟩

end Xv6.Net.Packet
