import Xv6.Net.Arp
import Xv6.Net.Tcp
import Xv6.Schemes.OnesComplement

/-! @src tcp.c icmp.c ipv4.c eth.c pkts_hdr.h | name:Packets | layer:model

    The packets that answer a frame, whole. A received frame is the memory from its first byte on. A
    header is kept as the structure that the source gives it, and a number in it as the processor
    loads it, the low byte first. -/

namespace Xv6.Net.Packet

open Xv6.Schemes.Ones
open Arp (Ip Mac)

/-- The bytes from an address on. -/
abbrev Frame : Type := ℕ → Uchar

/-- The memory that holds some bytes. -/
def holding (l : List Uchar) : Frame := fun i => l.getD i 0

def my_ip : Ip := ![10, 0, 1, 10]

/-- `mac_addr`, `send_id` and `seq_num`. -/
structure Globals where
  mac_addr : Mac
  send_id : Ushort
  seq_num : Uint

def N2H_ushort (value : Ushort) : Ushort := ((value &&& 0xFF) <<< 8) + (value >>> 8)

/-! ### Loads and stores of numbers -/

def loadUshort (f : Frame) (o : ℕ) : Ushort := f (o + 1) ++ f o

def loadUint (f : Frame) (o : ℕ) : Uint := f (o + 3) ++ f (o + 2) ++ f (o + 1) ++ f o

def ushortBytes (v : Ushort) : List Uchar := [v.setWidth 8, (v >>> 8).setWidth 8]

def uintBytes (v : Uint) : List Uchar :=
  [v.setWidth 8, (v >>> 8).setWidth 8, (v >>> 16).setWidth 8, (v >>> 24).setWidth 8]

/-! ### Headers -/

structure eth_pkt where
  dst_mac : Mac
  src_mac : Mac
  type : Fin 2 → Uchar

structure ipv4_pkt where
  ver : Uchar
  srv_type : Uchar
  total_len : Ushort
  id : Ushort
  fragment : Ushort
  ttl : Uchar
  protocol : Uchar
  chk_sum : Ushort
  src_ip : Ip
  dst_ip : Ip

def ipv4_pkt.bytes (p : ipv4_pkt) : List Uchar :=
  [p.ver, p.srv_type] ++ ushortBytes p.total_len ++ ushortBytes p.id ++ ushortBytes p.fragment ++
    [p.ttl, p.protocol] ++ ushortBytes p.chk_sum ++ List.ofFn p.src_ip ++ List.ofFn p.dst_ip

structure icmp_echo_pkt where
  type : Uchar
  code : Uchar
  chk_sum : Ushort
  id : Ushort
  seq_num : Ushort
  time_stamp : Fin 8 → Uchar
  data : Fin 48 → Uchar

def icmp_echo_pkt.bytes (p : icmp_echo_pkt) : List Uchar :=
  [p.type, p.code] ++ ushortBytes p.chk_sum ++ ushortBytes p.id ++ ushortBytes p.seq_num ++
    List.ofFn p.time_stamp ++ List.ofFn p.data

structure tcp_pkt where
  src_port : Ushort
  dst_port : Ushort
  seq_num : Uint
  ack_num : Uint
  code_bits : Fin 2 → Uchar
  window : Ushort
  chk_sum : Ushort
  urgent_ptr : Ushort

def tcp_pkt.bytes (p : tcp_pkt) : List Uchar :=
  ushortBytes p.src_port ++ ushortBytes p.dst_port ++ uintBytes p.seq_num ++ uintBytes p.ack_num ++
    List.ofFn p.code_bits ++ ushortBytes p.window ++ ushortBytes p.chk_sum ++ ushortBytes p.urgent_ptr

/-- The pseudo-header that `tcp_chksum` makes for itself. -/
structure tcp_dummy where
  src_ip : Ip
  dst_ip : Ip
  padding : Uchar
  protocol : Uchar
  tcp_len : Ushort

def tcp_dummy.bytes (p : tcp_dummy) : List Uchar :=
  List.ofFn p.src_ip ++ List.ofFn p.dst_ip ++ [p.padding, p.protocol] ++ ushortBytes p.tcp_len

/-! ### Checksums -/

/-- `(bin[i*2]<<8)+bin[i*2+1]`. -/
def word (bin : Frame) (i : ℕ) : Uint :=
  ((bin (i * 2)).setWidth 32 <<< 8) + (bin (i * 2 + 1)).setWidth 32

/-- What is carried out of 16 bits comes in again. -/
def fold (chk_sum : Uint) : Uint := if chk_sum > 0xFFFF then (chk_sum &&& 0xFFFF) + 1 else chk_sum

/-- `chk_sum` after `n` steps of a loop that folds in each step. -/
def folded (bin : Frame) : ℕ → Uint
  | 0 => 0
  | n + 1 => fold (folded bin n + word bin n)

def ipv4_chksum (bin : Frame) : Ushort :=
  let len := (bin 0 &&& 0xF) * 2
  (~~~ folded bin len.toNat).setWidth 16

def icmp_chksum (bin : Frame) : Ushort := (~~~ folded bin 32).setWidth 16

/-- `chk_sum` after `n` steps of a loop that does not fold. -/
def added (chk_sum : Uint) (bin : Frame) : ℕ → Uint
  | 0 => chk_sum
  | n + 1 => added chk_sum bin n + word bin n

/-- `tcp_chksum`; `bin` is what follows the IPv4 header. -/
def tcp_chksum (ipv4_p : ipv4_pkt) (bin : Frame) : Ushort :=
  let dummy : tcp_dummy :=
    { src_ip := my_ip
      dst_ip := ipv4_p.src_ip
      padding := 0
      protocol := 0x6
      tcp_len := H2N_ushort (N2H_ushort ipv4_p.total_len - 20) }
  let chk_sum := added 0 (holding dummy.bytes) 6
  let chk_sum := added chk_sum bin ((N2H_ushort dummy.tcp_len).toNat / 2)
  let chk_sum := chk_sum + (chk_sum >>> (8 * 2))
  (~~~ chk_sum).setWidth 16

/-! ### Packets -/

/-- Where the IPv4 header says that its payload begins. -/
def transport (recv : Frame) : ℕ := 14 + (recv 14 &&& 0xF).toNat * 4

/-- The IPv4 address that a frame comes from. -/
def peer (recv : Frame) : Ip := fun i => recv (14 + 12 + i)

def eth_send (g : Globals) (recv : Frame) : eth_pkt where
  dst_mac := fun i => recv (6 + i)
  src_mac := g.mac_addr
  type := ![0x08, 0x00]

/-- The IPv4 header, which is made alike for ICMP and TCP. -/
def ipv4_send (g : Globals) (recv : Frame) (total_len fragment : Ushort) (protocol : Uchar) :
    ipv4_pkt :=
  let p : ipv4_pkt :=
    { ver := (0x4 <<< 4) + ((20 / 4) &&& 0xF)
      srv_type := 0
      total_len := H2N_ushort total_len
      id := g.send_id
      fragment := H2N_ushort fragment
      ttl := 255
      protocol := protocol
      src_ip := my_ip
      dst_ip := peer recv
      chk_sum := 0 }
  { p with chk_sum := H2N_ushort (ipv4_chksum (holding p.bytes)) }

/-- The ICMP message before its checksum. -/
def icmp_send (recv : Frame) : icmp_echo_pkt :=
  let icmp_recv := transport recv
  { type := 0x0
    code := 0
    id := loadUshort recv (icmp_recv + 4)
    seq_num := loadUshort recv (icmp_recv + 6)
    time_stamp := fun i => recv (icmp_recv + 8 + i)
    data := fun i => recv (icmp_recv + 16 + i)
    chk_sum := 0 }

/-- The TCP header before its checksum. -/
def tcp_send (g : Globals) (recv : Frame) (pkt_type : Uint) : tcp_pkt :=
  let tcp_recv := transport recv
  { src_port := loadUshort recv (tcp_recv + 2)
    dst_port := loadUshort recv tcp_recv
    seq_num := H2N_uint g.seq_num
    ack_num := loadUint recv (tcp_recv + 4) + (1 <<< (8 * 3))
    code_bits := ![(5 : Uchar) <<< 4, pkt_type.setWidth 8]
    window := H2N_ushort 14480
    urgent_ptr := 0
    chk_sum := 0 }

/-- What `icmp_reply_pkt_create` leaves in the send buffer, and `send_size`. -/
structure IcmpReply where
  eth : eth_pkt
  ipv4 : ipv4_pkt
  icmp : icmp_echo_pkt
  send_size : Uint

def icmp_reply_pkt_create (g : Globals) (recv : Frame) : IcmpReply × Globals :=
  let icmp := icmp_send recv
  ({ eth := eth_send g recv
     ipv4 := ipv4_send g recv (20 + 64) 0x4000 0x1
     icmp := { icmp with chk_sum := H2N_ushort (icmp_chksum (holding icmp.bytes)) }
     send_size := 14 + 20 + 64 },
   { g with send_id := g.send_id + 1 })

/-- What `tcp_pkt_create` leaves in the send buffer, before the payload, and `send_size`. -/
structure TcpReply where
  eth : eth_pkt
  ipv4 : ipv4_pkt
  tcp : tcp_pkt
  send_size : Uint

/-- `tcp_pkt_create`, for a payload that is already in its place. -/
def tcp_pkt_create (g : Globals) (recv : Frame) (pkt_type : Uint) (payload : List Uchar) :
    TcpReply × Globals :=
  let payload_size : Uint := BitVec.ofNat 32 payload.length
  let ipv4 := ipv4_send g recv ((20 + 20 + payload_size).setWidth 16) 0x0000 0x6
  let tcp := tcp_send g recv pkt_type
  ({ eth := eth_send g recv
     ipv4 := ipv4
     tcp := { tcp with
       chk_sum := H2N_ushort (tcp_chksum ipv4 (holding (tcp.bytes ++ payload)) + 8) }
     send_size := 14 + 20 + 20 + payload_size },
   { g with send_id := g.send_id + 1 })

/-- The segment of `tcp_pkt_create` that stands for a frame. -/
def segmentOf (recv : Frame) (payload : List UInt8) : Segment where
  src_port := loadUshort recv (transport recv)
  dst_port := loadUshort recv (transport recv + 2)
  seq_num := loadUint recv (transport recv + 4)
  code_bits := recv (transport recv + 13)
  payload := payload

/-- The numbers in a packet are those of the segment that stands for it. -/
theorem tcp_pkt_create_sent (g : Globals) (recv : Frame) (pkt_type : Uint) (fin_flag : ℤ)
    (read payload : List UInt8) :
    let p := (tcp_pkt_create g recv pkt_type (payload.map UInt8.toBitVec)).1
    (Tcp.tcp_pkt_create ⟨g.seq_num, fin_flag, g.send_id⟩ (segmentOf recv read)
      (pkt_type.setWidth 8) payload).1 =
      { total_len := p.ipv4.total_len
        id := p.ipv4.id
        src_port := p.tcp.src_port
        dst_port := p.tcp.dst_port
        seq_num := p.tcp.seq_num
        ack_num := p.tcp.ack_num
        code_bits := p.tcp.code_bits 1
        window := p.tcp.window
        payload := payload } := by
  have hlen : (20 + 20 + BitVec.ofNat 32 (payload.map UInt8.toBitVec).length).setWidth 16 =
      BitVec.ofNat 16 (20 + 20 + payload.length) := by
    rw [List.length_map]
    apply BitVec.eq_of_toNat_eq
    have h20 : (20 : Uint).toNat = 20 := rfl
    simp only [BitVec.toNat_setWidth, BitVec.toNat_add, BitVec.toNat_ofNat, h20]
    omega
  simp only [Tcp.tcp_pkt_create, tcp_pkt_create, ipv4_send, hlen]
  rfl

end Xv6.Net.Packet
