import Xv6.Schemes.Bytes
import Xv6.Schemes.Run

/-! @src i8254.c i8254.h memlayout.h | name:The network card | layer:model

    The descriptor rings as `i8254_init_recv` and `i8254_init_send` leave them in memory, and
    `i8254_send` next to a card that moves its head. A call of `i8254_send` reads the head, fills
    the descriptor and moves the tail; the card may move in between. Which packets the card has
    accepted and not passed yet is a ghost. -/

namespace Xv6.Net

open Xv6.Schemes Xv6.Schemes.Bytes

abbrev Word : Type := BitVec 32

def KERNBASE : Word := 0x80000000
def V2P (a : Word) : Word := a - KERNBASE
def P2V (a : Word) : Word := a + KERNBASE

/-- `I8254_RECV_DESC_NUM` and `I8254_SEND_DESC_NUM`. -/
abbrev DESC_NUM : ℕ := 256

theorem DESC_NUM_eq : DESC_NUM = 256 := rfl

abbrev PGSIZE : ℕ := 4096

/-- A store: where, and the bytes. -/
abbrev Store : Type := Word × List UInt8

/-- The address of a field of descriptor `i`, 16 bytes each. -/
def field (ring : Word) (i off : ℕ) : Word := ring + BitVec.ofNat 32 (16 * i + off)

/-- `desc[i].field = v`, for a field of `n` bytes at `off`. -/
def setField (ring : Word) (i off n v : ℕ) : Store := (field ring i off, le n v)

/-- First loop of `i8254_init_recv`: padding, len, chk_sum, status, errors and special. -/
def clearRecv (ring : Word) : List Store :=
  (List.range DESC_NUM).flatMap fun i =>
    [setField ring i 4 4 0, setField ring i 8 2 0, setField ring i 10 2 0, setField ring i 12 1 0,
      setField ring i 13 1 0, setField ring i 14 2 0]

/-- First loop of `i8254_init_send`: padding, len, cso, cmd, sta, css and special. -/
def clearSend (ring : Word) : List Store :=
  (List.range DESC_NUM).flatMap fun i =>
    [setField ring i 4 4 0, setField ring i 8 2 0, setField ring i 10 1 0, setField ring i 11 1 0,
      setField ring i 12 1 0, setField ring i 13 1 0, setField ring i 14 2 0]

/-- Second loop of both, from descriptor `i` on, with what `kalloc` returns: each page is two
    buffers. -/
def buffers (ring : Word) : ℕ → List Word → List Store
  | _, [] => []
  | i, page :: pages =>
    if page = 0 then []
    else
      setField ring i 0 4 (V2P page).toNat ::
        setField ring (i + 1) 0 4 (V2P (page + 0x800)).toNat :: buffers ring (i + 1) pages

/-- The stores of `i8254_init_recv`; `kalloc` returns the ring and then the pages. -/
def i8254_init_recv (ring : Word) (pages : List Word) : List Store :=
  clearRecv ring ++ buffers ring 0 (pages.take (DESC_NUM / 2))

/-- The stores of `i8254_init_send`. -/
def i8254_init_send (ring : Word) (pages : List Word) : List Store :=
  clearSend ring ++ buffers ring 0 (pages.take (DESC_NUM / 2))

/-- What `kalloc` returns for one ring: the ring itself and 128 pages, all different. -/
structure Pages where
  ring : Word
  pages : List Word
  length : pages.length = DESC_NUM / 2
  nodup : (ring :: pages).Nodup
  aligned : ∀ p ∈ ring :: pages, p.toNat % PGSIZE = 0
  kernel : ∀ p ∈ ring :: pages, KERNBASE.toNat ≤ p.toNat

/-- Where a call of `i8254_send` is: it has read the head, or has filled descriptor `index`. -/
inductive Place where
  | idle
  | checked (pkt : List UInt8) (index : ℕ)
  | filled (pkt : List UInt8) (index : ℕ)

structure Sys where
  mem : Mem 32
  tdbal : Word
  tdh : ℕ
  tdt : ℕ
  place : Place
  /-- What the last call has returned. -/
  result : Option ℤ
  /-- The packets that the card has accepted, the oldest first, with their descriptors. -/
  pending : List (ℕ × List UInt8)

inductive Act where
  | send (pkt : List UInt8)
  | fill
  | advance
  | card

namespace Sys

/-- After `i8254_init_send`. -/
def init (mem : Mem 32) (k : Pages) : Sys where
  mem := writes mem (i8254_init_send k.ring k.pages)
  tdbal := V2P k.ring
  tdh := 0
  tdt := 0
  place := .idle
  result := none
  pending := []

/-- `txdesc`. -/
def txdesc (s : Sys) : Word := P2V s.tdbal

/-- `P2V_WO(txdesc[i].buf_addr)`. -/
def buffer (s : Sys) (i : ℕ) : Word :=
  P2V (BitVec.ofNat 32 (num (read s.mem (field s.txdesc i 0) 4)))

/-- `tx_available`, an `int` of unsigned differences. -/
def available (s : Sys) : ℤ :=
  256 - ((((256 : Word) - BitVec.ofNat 32 s.tdh + BitVec.ofNat 32 s.tdt).toNat % DESC_NUM : ℕ) : ℤ)

/-- The stores of a call that fills descriptor `i`. -/
def fillStores (s : Sys) (pkt : List UInt8) (i : ℕ) : List Store :=
  [(s.buffer i, pkt), setField s.txdesc i 8 2 pkt.length, setField s.txdesc i 12 1 0,
    setField s.txdesc i 13 1 0, setField s.txdesc i 11 1 0xb, setField s.txdesc i 14 2 0,
    setField s.txdesc i 10 1 0]

def next (s : Sys) : Act → Option Sys
  | .send pkt =>
    match s.place with
    | .idle =>
      if 0 < s.available then some { s with place := .checked pkt (s.tdt % DESC_NUM) }
      else some { s with result := some (-1) }
    | _ => none
  | .fill =>
    match s.place with
    | .checked pkt i => some { s with
        mem := writes s.mem (s.fillStores pkt i)
        place := .filled pkt i }
    | _ => none
  | .advance =>
    match s.place with
    | .filled pkt i => some { s with
        tdt := (s.tdt + 1) % DESC_NUM
        place := .idle
        result := some pkt.length
        pending := s.pending ++ [(i, pkt)] }
    | _ => none
  | .card =>
    if s.tdh = s.tdt then none
    else some { s with tdh := (s.tdh + 1) % DESC_NUM, pending := s.pending.tail }

def Step (s : Sys) (a : Act) (t : Sys) : Prop := s.next a = some t

end Sys

end Xv6.Net
