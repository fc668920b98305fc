import Xv6.Net.Wire
import Mathlib.Tactic.FinCases

/-! @src icmp.c pkts_hdr.h | name:Echo replies | layer:proof

    `icmp_reply_pkt_create` finds the request behind an IPv4 header of any length, but it takes the
    message itself for an `icmp_echo_pkt`: a time stamp and 48 more bytes. The reply is laid out like
    that too, so it returns what has been sent iff 56 bytes have been sent. -/

namespace Xv6.Net.Packet

open Arp (Ip Mac)

/-- `icmp_proc`: the packet that it sends, if any. -/
def icmp_proc (g : Globals) (recv : Frame) : Option IcmpReply × Globals :=
  let icmp_p := transport recv
  if recv (icmp_p + 1) = 0 then
    if recv icmp_p = 0x8 then
      let (reply, g) := icmp_reply_pkt_create g recv
      (some reply, g)
    else (none, g)
  else (none, g)

/-! ### Echo messages, as a host reads them -/

/-- The bytes of an IPv4 header. -/
def headerLen (f : Frame) : ℕ := (f 14 &&& 0xF).toNat * 4

/-- An echo message with what its IPv4 header says about it. The data ends where the packet does. -/
structure Echo where
  dst_mac : Mac
  dst_ip : Ip
  total_len : ℕ
  type : Uchar
  code : Uchar
  id : Ushort
  seq_num : Ushort
  data : List Uchar

def Echo.read (f : Frame) : Echo :=
  let total_len := (netUshort f 16).toNat
  { dst_mac := fun i => f i
    dst_ip := fun i => f (30 + i)
    total_len := total_len
    type := f (transport f)
    code := f (transport f + 1)
    id := netUshort f (transport f + 4)
    seq_num := netUshort f (transport f + 6)
    data := (List.range (total_len - headerLen f - 8)).map fun i => f (transport f + 8 + i) }

/-- The frame is an IPv4 echo request with `n` bytes of data. -/
structure EchoRequest (recv : Frame) (n : ℕ) : Prop where
  ethernet : recv 12 = 0x08 ∧ recv 13 = 0x00
  version : recv 14 >>> 4 = 4
  header : 20 ≤ headerLen recv
  protocol : recv 23 = 1
  type : (Echo.read recv).type = 8
  code : (Echo.read recv).code = 0
  total_len : (Echo.read recv).total_len = headerLen recv + 8 + n
  fits : headerLen recv + 8 + n ≤ 1500

/-- The packet is the reply to a request with `n` bytes of data. -/
structure Returns (recv : Frame) (n : ℕ) (p : IcmpReply) : Prop where
  dst_mac : ∀ i, (Echo.read (holding p.bytes)).dst_mac i = recv (6 + i)
  dst_ip : (Echo.read (holding p.bytes)).dst_ip = peer recv
  type : (Echo.read (holding p.bytes)).type = 0
  code : (Echo.read (holding p.bytes)).code = 0
  id : (Echo.read (holding p.bytes)).id = (Echo.read recv).id
  seq_num : (Echo.read (holding p.bytes)).seq_num = (Echo.read recv).seq_num
  data : (Echo.read (holding p.bytes)).data = (Echo.read recv).data
  total_len : (Echo.read (holding p.bytes)).total_len = 20 + 8 + n
  send_size : p.send_size.toNat = 14 + (20 + 8 + n)

/-! ### The reply -/

theorem holding_append (l r : List Uchar) (i : ℕ) :
    holding (l ++ r) (l.length + i) = holding r i := by
  unfold holding
  rw [List.getD_append_right _ _ _ _ (Nat.le_add_right _ _), Nat.add_sub_cancel_left]

theorem map_holding (l : List Uchar) : (List.range l.length).map (holding l) = l := by
  refine List.ext_getElem (by simp) fun i _ hi => ?_
  rw [List.getElem_map, List.getElem_range]
  exact List.getD_eq_getElem _ _ hi

theorem range_map_ofFn (n : ℕ) (f : ℕ → Uchar) :
    (List.range n).map f = List.ofFn fun i : Fin n => f i := by
  refine List.ext_getElem (by simp) fun i _ _ => ?_
  rw [List.getElem_map, List.getElem_range, List.getElem_ofFn]

/-- A number that is copied as it was loaded is read as it was read before. -/
theorem H2N_ushort_loadUshort (recv : Frame) (o : ℕ) :
    H2N_ushort (loadUshort recv o) = netUshort recv o := by
  have hlow := (recv o).isLt
  have hhigh := (recv (o + 1)).isLt
  apply BitVec.eq_of_toNat_eq
  rw [toNat_H2N_ushort, toNat_netUshort, loadUshort, toNat_append_byte]
  omega

/-- What a host reads in a packet of 84 bytes. -/
theorem read_bytes (p : IcmpReply) (hver : p.ipv4.ver = 0x45)
    (htotal : H2N_ushort p.ipv4.total_len = 84) :
    Echo.read (holding p.bytes) =
      { dst_mac := p.eth.dst_mac
        dst_ip := p.ipv4.dst_ip
        total_len := 84
        type := p.icmp.type
        code := p.icmp.code
        id := H2N_ushort p.icmp.id
        seq_num := H2N_ushort p.icmp.seq_num
        data := List.ofFn p.icmp.time_stamp ++ List.ofFn p.icmp.data } := by
  have hheader : headerLen (holding p.bytes) = 20 :=
    congrArg (fun v : Uchar => (v &&& 0xF).toNat * 4) hver
  have htransport : transport (holding p.bytes) = 34 := congrArg (14 + ·) hheader
  have hlen : (netUshort (holding p.bytes) 16).toNat = 84 :=
    congrArg BitVec.toNat ((netUshort_stored p.ipv4.total_len).trans htotal)
  have hbytes : p.bytes = (p.eth.bytes ++ p.ipv4.bytes ++ ([p.icmp.type, p.icmp.code] ++
      ushortBytes p.icmp.chk_sum ++ ushortBytes p.icmp.id ++ ushortBytes p.icmp.seq_num)) ++
        (List.ofFn p.icmp.time_stamp ++ List.ofFn p.icmp.data) := by
    simp only [IcmpReply.bytes, icmp_echo_pkt.bytes, List.append_assoc]
  have hdata : (List.range 56).map (fun i => holding p.bytes (42 + i)) =
      List.ofFn p.icmp.time_stamp ++ List.ofFn p.icmp.data := by
    rw [hbytes]
    exact (List.map_congr_left fun i _ => holding_append _ _ i).trans (map_holding _)
  unfold Echo.read
  simp only [hheader, htransport, hlen]
  rw [hdata, ← netUshort_stored p.icmp.id, ← netUshort_stored p.icmp.seq_num]
  congr 1
  · funext i
    fin_cases i <;> rfl
  · funext i
    fin_cases i <;> rfl

theorem EchoRequest.data_eq {recv : Frame} {n : ℕ} (h : EchoRequest recv n) :
    (Echo.read recv).data = (List.range n).map fun i => recv (transport recv + 8 + i) := by
  have htotal : (netUshort recv 16).toNat = headerLen recv + 8 + n := h.total_len
  have hn : (netUshort recv 16).toNat - headerLen recv - 8 = n := by omega
  show (List.range ((netUshort recv 16).toNat - headerLen recv - 8)).map _ = _
  rw [hn]

/-- The packet that a request is answered with returns what was sent iff 56 bytes of data were. -/
theorem echo_returned_iff (g : Globals) {recv : Frame} {n : ℕ} (h : EchoRequest recv n) :
    icmp_proc g recv =
      (some (icmp_reply_pkt_create g recv).1, (icmp_reply_pkt_create g recv).2) ∧
    (Returns recv n (icmp_reply_pkt_create g recv).1 ↔ n = 56) := by
  have hread := read_bytes (icmp_reply_pkt_create g recv).1 rfl (H2N_ushort_H2N_ushort 84)
  constructor
  · have hcode : recv (transport recv + 1) = 0 := h.code
    have htype : recv (transport recv) = 0x8 := h.type
    unfold icmp_proc
    rw [if_pos hcode, if_pos htype]
  · constructor
    · intro hret
      have htotal : 84 = 20 + 8 + n := by
        rw [← hret.total_len, hread]
      omega
    · rintro rfl
      have hdata : (Echo.read recv).data =
          List.ofFn (icmp_send recv).time_stamp ++ List.ofFn (icmp_send recv).data := by
        rw [h.data_eq, show 56 = 8 + 48 from rfl, List.range_add, List.map_append, List.map_map,
          range_map_ofFn, range_map_ofFn]
        rfl
      constructor
      case data => rw [hread, hdata]; rfl
      case id => rw [hread]; exact H2N_ushort_loadUshort recv _
      case seq_num => rw [hread]; exact H2N_ushort_loadUshort recv _
      case send_size => rfl
      all_goals rw [hread]
      case dst_mac => exact fun i => rfl
      all_goals rfl

/-- An echo request from 10.0.1.2 with `n` bytes of data. -/
def ping (n : ℕ) : Frame := holding
  ([0x52, 0x54, 0, 0x12, 0x34, 0x56, 0x52, 0x55, 10, 0, 1, 2, 0x08, 0x00] ++
    [0x45, 0, BitVec.ofNat 8 ((28 + n) / 256), BitVec.ofNat 8 (28 + n), 0, 1, 0, 0, 64, 1, 0, 0,
      10, 0, 1, 2, 10, 0, 1, 10] ++
    [8, 0, 0, 0, 0x12, 0x34, 0, 1] ++ (List.range n).map (BitVec.ofNat 8))

def up : Globals := ⟨![0x52, 0x54, 0, 0x12, 0x34, 0x56], 0, 0⟩

/-- The default size is returned. -/
theorem ping_returned : EchoRequest (ping 56) 56 ∧
    Returns (ping 56) 56 (icmp_reply_pkt_create up (ping 56)).1 :=
  have h : EchoRequest (ping 56) 56 := ⟨⟨rfl, rfl⟩, rfl, by decide, rfl, rfl, rfl, rfl, by decide⟩
  ⟨h, (echo_returned_iff up h).2.mpr rfl⟩

/-- Of 100 bytes, 56 are. -/
theorem long_ping_cut : EchoRequest (ping 100) 100 ∧
    ¬ Returns (ping 100) 100 (icmp_reply_pkt_create up (ping 100)).1 := by
  refine ⟨⟨⟨rfl, rfl⟩, rfl, by decide, rfl, rfl, rfl, rfl, by decide⟩, ?_⟩
  intro h
  have hread := read_bytes (icmp_reply_pkt_create up (ping 100)).1 rfl (H2N_ushort_H2N_ushort 84)
  have htotal : 84 = 20 + 8 + 100 := by
    rw [← h.total_len, hread]
  exact absurd htotal (by decide)

end Xv6.Net.Packet
