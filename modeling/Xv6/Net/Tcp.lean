import Xv6.Schemes.Bytes
import Xv6.Schemes.Run

/-! @src tcp.c eth.c http.c pkts_hdr.h | name:TCP | layer:model

    `tcp_proc` for the segments of one connection. The fields of a segment are as they stand in the
    packet, most significant byte first. Of what is sent a segment keeps the fields of the headers
    that are computed from numbers; the addresses and the checksums are left out. -/

namespace Xv6.Net

open Xv6.Schemes Xv6.Schemes.Bytes

abbrev Uint : Type := BitVec 32
abbrev Ushort : Type := BitVec 16
abbrev Uchar : Type := BitVec 8

def H2N_ushort (value : Ushort) : Ushort := ((value &&& 0xFF) <<< 8) + (value >>> 8)

def H2N_uint (value : Uint) : Uint :=
  ((value &&& 0xF) <<< 24) + ((value &&& 0xF0) <<< 8) + ((value &&& 0xF00) >>> 8) +
    ((value &&& 0xF000) >>> 24)

def N2H_uint (value : Uint) : Uint :=
  ((value &&& 0xFF) <<< 24) + ((value &&& 0xFF00) <<< 8) + ((value &&& 0xFF0000) >>> 8) +
    ((value &&& 0xFF000000) >>> 24)

/-- `TCP_CODEBITS_FIN` and the others. -/
abbrev FIN : Uchar := 0x1
abbrev SYN : Uchar := 0x2
abbrev PSH : Uchar := 0x8
abbrev ACK : Uchar := 0x10

/-- A segment received. -/
structure Segment where
  src_port : Ushort
  dst_port : Ushort
  seq_num : Uint
  code_bits : Uchar
  payload : List UInt8

/-- A segment sent. -/
structure Sent where
  total_len : Ushort
  id : Ushort
  src_port : Ushort
  dst_port : Ushort
  seq_num : Uint
  ack_num : Uint
  code_bits : Uchar
  window : Ushort
  payload : List UInt8

/-- `seq_num`, `fin_flag` and `send_id`. -/
structure Tcp where
  seq_num : Uint
  fin_flag : ℤ
  send_id : Ushort

namespace Tcp

/-- `tcp_pkt_create`, for a payload that is already in its place. -/
def tcp_pkt_create (s : Tcp) (recv : Segment) (pkt_type : Uchar) (payload : List UInt8) :
    Sent × Tcp :=
  ({ total_len := H2N_ushort (BitVec.ofNat 16 (20 + 20 + payload.length))
     id := s.send_id
     src_port := recv.dst_port
     dst_port := recv.src_port
     seq_num := H2N_uint s.seq_num
     ack_num := recv.seq_num + (1 <<< (8 * 3))
     code_bits := pkt_type
     window := H2N_ushort 14480
     payload := payload }, { s with send_id := s.send_id + 1 })

/-- `tcp_fin`. -/
def tcp_fin (s : Tcp) : Tcp := { s with fin_flag := 1 }

/-- The bytes of a text. -/
def text (t : String) : List UInt8 := t.toList.map fun c => UInt8.ofNat c.toNat

/-- `http_proc`. -/
def http_proc (s : Tcp) : List UInt8 × Tcp :=
  (text "HTTP/1.0 200 OK \r\n" ++ text "Content-Type: text/html \r\n" ++
    text "\r\nHello World!\r\n", s.tcp_fin)

/-- `tcp_proc`: what is sent, and the numbers after it. A payload that begins with GET and one that
    does not are answered alike. -/
def tcp_proc (s : Tcp) (recv : Segment) : List Sent × Tcp :=
  if recv.code_bits &&& SYN ≠ 0 then
    let reply := s.tcp_pkt_create recv (ACK ||| SYN) []
    ([reply.1], { reply.2 with seq_num := reply.2.seq_num + 1 })
  else if recv.code_bits = PSH ||| ACK then
    let ack := s.tcp_pkt_create recv ACK []
    let http := ack.2.http_proc
    let reply := http.2.tcp_pkt_create recv (ACK ||| PSH) http.1
    ([ack.1, reply.1], { reply.2 with seq_num := reply.2.seq_num + 1 })
  else if recv.code_bits = ACK then
    if s.fin_flag = 1 then
      let reply := s.tcp_pkt_create recv FIN []
      ([reply.1], { reply.2 with fin_flag := 0 })
    else ([], s)
  else ([], s)

end Tcp

/-! ### A connection -/

/-- The numbers of the kernel, and the last segment it has sent to the peer. -/
structure Conn where
  tcp : Tcp
  last : Option Sent

namespace Conn

/-- A connection on which nothing has been sent; the numbers are what earlier ones have left. -/
def start (tcp : Tcp) : Conn := ⟨tcp, none⟩

/-- The peer's segment is answered. -/
def receive (c : Conn) (recv : Segment) : Conn where
  tcp := (c.tcp.tcp_proc recv).2
  last := (c.tcp.tcp_proc recv).1.getLast?.or c.last

def Step (c : Conn) (recv : Segment) (d : Conn) : Prop := d = c.receive recv

end Conn

/-! ### Consistent numbers -/

/-- A number in network order. -/
def fromNetwork (value : Uint) : Uint := BitVec.ofNat 32 (num (le 4 value.toNat).reverse)

/-- What the flags add to the payload. -/
def flagged (code_bits : Uchar) : Uint := if code_bits &&& (SYN ||| FIN) ≠ 0 then 1 else 0

/-- How many sequence numbers a segment takes. -/
def taken (code_bits : Uchar) (payload : List UInt8) : Uint :=
  BitVec.ofNat 32 payload.length + flagged code_bits

/-- What the acknowledgement of a segment is to be. -/
def AckOk (recv : Segment) (sent : Sent) : Prop :=
  fromNetwork sent.ack_num = fromNetwork recv.seq_num + taken recv.code_bits recv.payload

/-- Each segment goes on where the one before it has ended. -/
def Follows : Option Sent → List Sent → Prop
  | _, [] => True
  | none, sent :: l => Follows (some sent) l
  | some last, sent :: l =>
    fromNetwork sent.seq_num = fromNetwork last.seq_num + taken last.code_bits last.payload ∧
      Follows (some sent) l

/-- The segments that answer one are numbered consistently. -/
def Consistent (c : Conn) (recv : Segment) : Prop :=
  (∀ sent ∈ (c.tcp.tcp_proc recv).1, AckOk recv sent) ∧ Follows c.last (c.tcp.tcp_proc recv).1

end Xv6.Net
