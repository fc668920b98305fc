import Xv6.Net.Wire

/-! @src eth.c tcp.c icmp.c | name:Byte order | layer:proof

    Three of the four conversions turn the bytes of a number around. `H2N_uint` masks nibbles, so it
    does so for the numbers below 16 only; `tcp_pkt_create` sends its sequence number through it, and
    every other number through `H2N_ushort`. -/

namespace Xv6.Net.Packet

open Xv6.Schemes.Bytes

/-- The number whose bytes are those of `v` the other way around. -/
def reversedBytes {w : ℕ} (v : BitVec w) : BitVec w :=
  BitVec.ofNat w (num (le (w / 8) v.toNat).reverse)

/-! ### The conversions -/

theorem H2N_ushort_eq (y : Ushort) : H2N_ushort y = reversedBytes y := by
  have hy := y.isLt
  have hhigh : y.toNat / 256 % 256 = y.toNat / 256 := Nat.mod_eq_of_lt (by omega)
  have hnum : (reversedBytes y).toNat =
      (y.toNat / 256 % 256 + 256 * (y.toNat % 256 + 256 * 0)) % 2 ^ 16 := rfl
  apply BitVec.eq_of_toNat_eq
  rw [toNat_H2N_ushort, hnum, hhigh]
  omega

/-- A number of 32 bits by its nibbles and its bytes. -/
theorem digits {x : ℕ} (hx : x < 2 ^ 32) :
    x / 2 ^ 0 % 2 ^ 8 = x / 2 ^ 0 % 2 ^ 4 + 16 * (x / 2 ^ 4 % 2 ^ 4) ∧
    x / 2 ^ 8 % 2 ^ 8 = x / 2 ^ 8 % 2 ^ 4 + 16 * (x / 2 ^ 12 % 2 ^ 4) ∧
    x = x / 2 ^ 0 % 2 ^ 8 + x / 2 ^ 8 % 2 ^ 8 * 2 ^ 8 + x / 2 ^ 16 % 2 ^ 8 * 2 ^ 16 +
      x / 2 ^ 24 % 2 ^ 8 * 2 ^ 24 := by
  refine ⟨?_, ?_, ?_⟩ <;> omega

/-- `H2N_uint` turns the bytes around iff there is one nibble only. -/
theorem H2N_uint_eq_iff (x : Uint) : H2N_uint x = reversedBytes x ↔ x.toNat < 16 := by
  have hrev : (reversedBytes x).toNat = reversed x.toNat := toNat_fromNetwork x
  obtain ⟨hlow, hnext, hall⟩ := digits x.isLt
  have hn0 := nibble_lt x.toNat 0
  have hn1 := nibble_lt x.toNat 4
  have hn2 := nibble_lt x.toNat 8
  have hb2 := byte_lt x.toNat 16
  have hb3 := byte_lt x.toNat 24
  rw [BitVec.toNat_eq, toNat_H2N_uint, hrev, reversed, hlow, hnext]
  rw [hlow, hnext] at hall
  generalize x.toNat / 2 ^ 0 % 2 ^ 4 = n0 at *
  generalize x.toNat / 2 ^ 4 % 2 ^ 4 = n1 at *
  generalize x.toNat / 2 ^ 8 % 2 ^ 4 = n2 at *
  generalize x.toNat / 2 ^ 12 % 2 ^ 4 = n3 at *
  generalize x.toNat / 2 ^ 16 % 2 ^ 8 = b2 at *
  generalize x.toNat / 2 ^ 24 % 2 ^ 8 = b3 at *
  omega

/-- What has been sent is read as it was meant iff there is one nibble only. -/
theorem fromNetwork_H2N_uint_iff (x : Uint) : fromNetwork (H2N_uint x) = x ↔ x.toNat < 16 := by
  have hx := x.isLt
  rw [BitVec.toNat_eq, toNat_sent]
  omega

theorem N2H_uint_H2N_uint_iff (x : Uint) : N2H_uint (H2N_uint x) = x ↔ x.toNat < 16 := by
  rw [N2H_uint_eq, fromNetwork_H2N_uint_iff]

/-- The nibbles at the end of four bytes. -/
theorem nibbles_of_bytes {b0 b1 b2 b3 r : ℕ} (hb3 : b3 < 2 ^ 8)
    (hr : b0 * 2 ^ 24 + b1 * 2 ^ 16 + b2 * 2 ^ 8 + b3 = r) :
    r / 2 ^ 0 % 2 ^ 4 = b3 % 16 ∧ r / 2 ^ 4 % 2 ^ 4 = b3 / 16 ∧ r / 2 ^ 8 % 2 ^ 4 = b2 % 16 := by
  have h1 : r / 2 ^ 4 = 16 * (b0 * 2 ^ 16 + b1 * 2 ^ 8 + b2) + b3 / 16 := by omega
  have h2 : r / 2 ^ 8 = 16 * (b0 * 2 ^ 12 + b1 * 2 ^ 4) + b2 := by omega
  rw [h1, h2, pow_zero, Nat.div_one]
  refine ⟨?_, ?_, ?_⟩ <;> omega

/-- The other way around, that nibble is in the last byte. -/
theorem H2N_uint_N2H_uint_iff (x : Uint) :
    H2N_uint (N2H_uint x) = x ↔ x.toNat % 2 ^ 24 = 0 ∧ x.toNat < 2 ^ 28 := by
  obtain ⟨-, -, hall⟩ := digits x.isLt
  have hb0 := byte_lt x.toNat 0
  have hb1 := byte_lt x.toNat 8
  have hb2 := byte_lt x.toNat 16
  have hb3 := byte_lt x.toNat 24
  obtain ⟨h0, h1, h2⟩ := nibbles_of_bytes hb3 (toNat_N2H_uint x).symm
  rw [BitVec.toNat_eq, toNat_H2N_uint, h0, h1, h2]
  clear h0 h1 h2
  generalize x.toNat / 2 ^ 0 % 2 ^ 8 = b0 at *
  generalize x.toNat / 2 ^ 8 % 2 ^ 8 = b1 at *
  generalize x.toNat / 2 ^ 16 % 2 ^ 8 = b2 at *
  generalize x.toNat / 2 ^ 24 % 2 ^ 8 = b3 at *
  constructor
  · intro heq
    have htop : b3 = b3 % 16 := by omega
    have hnone : b3 / 16 = 0 := by omega
    have hsecond : b2 = 0 := by omega
    rw [hnone, hsecond] at heq
    omega
  · intro hx
    omega

/-! ### The fields -/

/-- The numbers that `tcp_pkt_create` converts. -/
structure TcpNumbers where
  total_len : Ushort
  fragment : Ushort
  ipv4_chk_sum : Ushort
  seq_num : Uint
  window : Ushort
  chk_sum : Ushort

/-- The numbers in a frame, each where its header has it. -/
def TcpNumbers.read (f : Frame) : TcpNumbers where
  total_len := netUshort f (14 + 2)
  fragment := netUshort f (14 + 6)
  ipv4_chk_sum := netUshort f (14 + 10)
  seq_num := netUint f (14 + 20 + 4)
  window := netUshort f (14 + 20 + 14)
  chk_sum := netUshort f (14 + 20 + 16)

/-- The numbers that `tcp_pkt_create` means: the checksums are taken while their field is 0. -/
def TcpNumbers.meant (g : Globals) (p : TcpReply) (payload : List Uchar) : TcpNumbers where
  total_len := (20 + 20 + BitVec.ofNat 32 payload.length).setWidth 16
  fragment := 0x0000
  ipv4_chk_sum := ipv4_chksum (holding { p.ipv4 with chk_sum := 0 }.bytes)
  seq_num := g.seq_num
  window := 14480
  chk_sum := tcp_chksum p.ipv4 (holding ({ p.tcp with chk_sum := 0 }.bytes ++ payload)) + 8

/-- The numbers that `icmp_reply_pkt_create` converts. -/
structure IcmpNumbers where
  total_len : Ushort
  fragment : Ushort
  ipv4_chk_sum : Ushort
  chk_sum : Ushort

def IcmpNumbers.read (f : Frame) : IcmpNumbers where
  total_len := netUshort f (14 + 2)
  fragment := netUshort f (14 + 6)
  ipv4_chk_sum := netUshort f (14 + 10)
  chk_sum := netUshort f (14 + 20 + 2)

def IcmpNumbers.meant (p : IcmpReply) : IcmpNumbers where
  total_len := 20 + 64
  fragment := 0x4000
  ipv4_chk_sum := ipv4_chksum (holding { p.ipv4 with chk_sum := 0 }.bytes)
  chk_sum := icmp_chksum (holding { p.icmp with chk_sum := 0 }.bytes)

/-- A field that holds what `H2N_ushort` has made of a number is read as that number. -/
theorem netUshort_field {f : Frame} {o : ℕ} {v : Ushort}
    (h : netUshort f o = netUshort (holding (ushortBytes (H2N_ushort v))) 0) : netUshort f o = v := by
  rw [h, netUshort_stored, H2N_ushort_H2N_ushort]

theorem tcp_numbers_iff (g : Globals) (recv : Frame) (pkt_type : Uint) (payload : List Uchar) :
    let p := (tcp_pkt_create g recv pkt_type payload).1
    TcpNumbers.read (holding (p.bytes payload)) = .meant g p payload ↔ g.seq_num.toNat < 16 := by
  intro p
  have htotal : netUshort (holding (p.bytes payload)) (14 + 2) = _ := netUshort_field rfl
  have hfragment : netUshort (holding (p.bytes payload)) (14 + 6) = _ := netUshort_field rfl
  have hipv4 : netUshort (holding (p.bytes payload)) (14 + 10) = _ := netUshort_field rfl
  have hseq : netUint (holding (p.bytes payload)) (14 + 20 + 4) = fromNetwork (H2N_uint g.seq_num) :=
    netUint_stored _
  have hwindow : netUshort (holding (p.bytes payload)) (14 + 20 + 14) = _ := netUshort_field rfl
  have hchk : netUshort (holding (p.bytes payload)) (14 + 20 + 16) = _ := netUshort_field rfl
  rw [← fromNetwork_H2N_uint_iff]
  constructor
  · intro h
    exact hseq.symm.trans (congrArg TcpNumbers.seq_num h)
  · intro h
    unfold TcpNumbers.read
    rw [htotal, hfragment, hipv4, hseq, hwindow, hchk, h]
    rfl

theorem icmp_numbers (g : Globals) (recv : Frame) :
    let p := (icmp_reply_pkt_create g recv).1
    IcmpNumbers.read (holding p.bytes) = .meant p := by
  intro p
  have htotal : netUshort (holding p.bytes) (14 + 2) = _ := netUshort_field rfl
  have hfragment : netUshort (holding p.bytes) (14 + 6) = _ := netUshort_field rfl
  have hipv4 : netUshort (holding p.bytes) (14 + 10) = _ := netUshort_field rfl
  have hchk : netUshort (holding p.bytes) (14 + 20 + 2) = _ := netUshort_field rfl
  unfold IcmpNumbers.read
  rw [htotal, hfragment, hipv4, hchk]
  rfl

/-- Which numbers each conversion is right for, and which packets say what is meant. -/
theorem byte_order_iff (x : Uint) (y : Ushort) (g : Globals) (recv : Frame) (pkt_type : Uint)
    (payload : List Uchar) :
    (H2N_uint x = reversedBytes x ↔ x.toNat < 16) ∧
    (N2H_uint (H2N_uint x) = x ↔ x.toNat < 16) ∧
    (H2N_uint (N2H_uint x) = x ↔ x.toNat % 2 ^ 24 = 0 ∧ x.toNat < 2 ^ 28) ∧
    H2N_ushort y = reversedBytes y ∧ N2H_ushort (H2N_ushort y) = y ∧
    (let p := (tcp_pkt_create g recv pkt_type payload).1
     TcpNumbers.read (holding (p.bytes payload)) = .meant g p payload ↔ g.seq_num.toNat < 16) ∧
    (let p := (icmp_reply_pkt_create g recv).1
     IcmpNumbers.read (holding p.bytes) = .meant p) :=
  ⟨H2N_uint_eq_iff x, N2H_uint_H2N_uint_iff x, H2N_uint_N2H_uint_iff x, H2N_ushort_eq y,
    N2H_ushort_H2N_ushort y, tcp_numbers_iff g recv pkt_type payload, icmp_numbers g recv⟩

/-- 16 is no number for `H2N_uint`. -/
theorem sixteen_not_reversed : H2N_uint 16 ≠ reversedBytes 16 ∧ N2H_uint (H2N_uint 16) ≠ 16 ∧
    H2N_uint (N2H_uint 16) ≠ 16 := by decide

end Xv6.Net.Packet
