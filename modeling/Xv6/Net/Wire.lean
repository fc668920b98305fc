import Xv6.Net.Checksum

/-! @src pkts_hdr.h icmp.c tcp.c | name:Frames on the wire | layer:model

    A packet is sent as its bytes, one header after the other. Whoever receives it reads a number from
    its most significant byte on. -/

namespace Xv6.Net.Packet

def eth_pkt.bytes (p : eth_pkt) : List Uchar :=
  List.ofFn p.dst_mac ++ List.ofFn p.src_mac ++ List.ofFn p.type

def IcmpReply.bytes (p : IcmpReply) : List Uchar := p.eth.bytes ++ p.ipv4.bytes ++ p.icmp.bytes

def TcpReply.bytes (p : TcpReply) (payload : List Uchar) : List Uchar :=
  p.eth.bytes ++ p.ipv4.bytes ++ p.tcp.bytes ++ payload

/-- A number of 16 bits as the receiver reads it. -/
def netUshort (f : Frame) (o : ℕ) : Ushort := f o ++ f (o + 1)

/-- A number of 32 bits as the receiver reads it. -/
def netUint (f : Frame) (o : ℕ) : Uint := f o ++ f (o + 1) ++ f (o + 2) ++ f (o + 3)

/-! ### Numbers that are read where they are stored -/

theorem toNat_append_byte {w : ℕ} (v : BitVec w) (b : Uchar) :
    (v ++ b).toNat = v.toNat * 2 ^ 8 + b.toNat := by
  rw [BitVec.toNat_append, ← Nat.shiftLeft_add_eq_or_of_lt b.isLt, Nat.shiftLeft_eq]

theorem toNat_netUshort (f : Frame) (o : ℕ) :
    (netUshort f o).toNat = (f o).toNat * 2 ^ 8 + (f (o + 1)).toNat := toNat_append_byte _ _

theorem toNat_netUint (f : Frame) (o : ℕ) : (netUint f o).toNat =
    (((f o).toNat * 2 ^ 8 + (f (o + 1)).toNat) * 2 ^ 8 + (f (o + 2)).toNat) * 2 ^ 8 +
      (f (o + 3)).toNat := by
  unfold netUint
  rw [toNat_append_byte, toNat_append_byte, toNat_append_byte]

/-- A byte of a number, counted from the least significant one. -/
theorem toNat_byte {w : ℕ} (v : BitVec w) (k : ℕ) :
    ((v >>> k).setWidth 8).toNat = v.toNat / 2 ^ k % 2 ^ 8 := by
  rw [BitVec.toNat_setWidth, BitVec.toNat_ushiftRight, Nat.shiftRight_eq_div_pow]

theorem netUshort_stored (v : Ushort) : netUshort (holding (ushortBytes v)) 0 = H2N_ushort v := by
  have hv := v.isLt
  have hlow : (holding (ushortBytes v) 0).toNat = v.toNat % 2 ^ 8 := BitVec.toNat_setWidth _ v
  have hhigh : (holding (ushortBytes v) 1).toNat = v.toNat / 2 ^ 8 % 2 ^ 8 := toNat_byte v 8
  apply BitVec.eq_of_toNat_eq
  rw [toNat_netUshort, toNat_H2N_ushort, hlow, hhigh]
  omega

theorem netUint_stored (v : Uint) : netUint (holding (uintBytes v)) 0 = fromNetwork v := by
  have h0 : (holding (uintBytes v) 0).toNat = v.toNat / 2 ^ 0 % 2 ^ 8 := by
    rw [pow_zero, Nat.div_one]
    exact BitVec.toNat_setWidth _ v
  have h1 : (holding (uintBytes v) 1).toNat = v.toNat / 2 ^ 8 % 2 ^ 8 := toNat_byte v 8
  have h2 : (holding (uintBytes v) 2).toNat = v.toNat / 2 ^ 16 % 2 ^ 8 := toNat_byte v 16
  have h3 : (holding (uintBytes v) 3).toNat = v.toNat / 2 ^ 24 % 2 ^ 8 := toNat_byte v 24
  apply BitVec.eq_of_toNat_eq
  rw [toNat_netUint, toNat_fromNetwork, reversed, h0, h1, h2, h3]
  omega

end Xv6.Net.Packet
