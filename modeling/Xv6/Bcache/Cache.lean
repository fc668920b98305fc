import Xv6.Disk.Block
import Xv6.Schemes.Circular
import Xv6.Schemes.Run
import Mathlib.Data.List.FinRange
import Mathlib.Data.Fintype.Basic

/-! @src bio.c log.c memide.c sleeplock.c | name:The buffer cache | layer:model

    `bread`, `bwrite`, `log_write` and `brelse` of any number of processes. A section under
    `bcache.lock` is one action, and so are getting and giving up the sleep lock of a buffer and a
    transfer of `iderw`; in between, a process is at one of the places of `Place`. What happened
    when, what was left in a buffer and what was not saved are ghosts. -/

namespace Xv6.Bcache

open Xv6.Disk Xv6.Schemes

/-- A pointer into `bcache.buf`, and a node of its list: `none` is `bcache.head`. -/
abbrev Ptr : Type := Fin NBUF
abbrev Node : Type := Option Ptr

/-- `struct buf`, the flags apart. -/
structure Buf (τ : Type) where
  valid : Bool
  dirty : Bool
  dev : ℕ
  blockno : ℕ
  lock : Option τ
  refcnt : ℕ
  data : Block

/-- Where a process is: waiting for a buffer that `bget` has found, at the test of `bread`, at the
    transfer of `bwrite`, or in `brelse` without the lock. -/
inductive Place where
  | out
  | asleep (b : Ptr)
  | check (b : Ptr)
  | write (b : Ptr)
  | release (b : Ptr)
  deriving DecidableEq

structure Sys (τ : Type) where
  buf : Ptr → Buf τ
  links : Links Node
  disk : ℕ → Block
  disksize : ℕ
  place : τ → Place
  panicked : Bool
  now : ℕ
  released : Ptr → ℕ
  left : Ptr → Option Block
  unsaved : Ptr → Bool

inductive Act (τ : Type) where
  | bread (p : τ) (dev blockno : ℕ)
  | acquire (p : τ)
  | check (p : τ)
  | store (p : τ) (b : Ptr) (d : Block)
  | logWrite (p : τ) (b : Ptr)
  | bwrite (p : τ) (b : Ptr)
  | write (p : τ)
  | brelse (p : τ) (b : Ptr)
  | release (p : τ)

/-- The list of `binit`. -/
def initLinks : Links Node :=
  (List.finRange NBUF).foldl (fun k b => k.insert none (some b)) ⟨fun _ => none, fun _ => none⟩

namespace Sys

variable {τ : Type}

/-- After `binit` and `ideinit`. -/
def binit (disk : ℕ → Block) (disksize : ℕ) : Sys τ where
  buf := fun _ => ⟨false, false, 0, 0, none, 0, Block.zero⟩
  links := initLinks
  disk := disk
  disksize := disksize
  place := fun _ => .out
  panicked := false
  now := 0
  released := fun _ => 0
  left := fun _ => none
  unsaved := fun _ => false

def setBuf (s : Sys τ) (b : Ptr) (x : Buf τ) : Sys τ := { s with buf := Function.update s.buf b x }

/-- First loop of `bget`: is the block already cached? -/
def cached (s : Sys τ) (dev blockno : ℕ) : Option Ptr :=
  (Links.walk s.links.next none
    (fun n => n.any fun b => (s.buf b).dev = dev ∧ (s.buf b).blockno = blockno)
    (NBUF + 1) (s.links.next none)).join

/-- Second loop of `bget`: an unused buffer. -/
def unused (s : Sys τ) : Option Ptr :=
  (Links.walk s.links.prev none
    (fun n => n.any fun b => (s.buf b).refcnt = 0 ∧ (s.buf b).dirty = false)
    (NBUF + 1) (s.links.prev none)).join

/-- The buffer is given to another block. -/
def recycle (s : Sys τ) (b : Ptr) (dev blockno : ℕ) : Sys τ :=
  { s.setBuf b { s.buf b with
      dev := dev, blockno := blockno, valid := false, dirty := false, refcnt := 1 } with
    left := Function.update s.left b none
    unsaved := Function.update s.unsaved b false }

/-- The section of `bget`; `none` is the panic "bget: no buffers". -/
def bget (s : Sys τ) (dev blockno : ℕ) : Option (Ptr × Sys τ) :=
  match s.cached dev blockno with
  | some b => some (b, s.setBuf b { s.buf b with refcnt := (s.buf b).refcnt + 1 })
  | none => s.unused.map fun b => (b, s.recycle b dev blockno)

/-- `iderw`; `none` is one of its panics. -/
def iderw (s : Sys τ) (b : Ptr) : Option (Sys τ) :=
  if (s.buf b).lock.isNone then none
  else if (s.buf b).valid && !(s.buf b).dirty then none
  else if (s.buf b).dev ≠ 1 then none
  else if (s.buf b).blockno ≥ s.disksize then none
  else if (s.buf b).dirty then
    some { s.setBuf b { s.buf b with valid := true, dirty := false } with
      disk := Function.update s.disk (s.buf b).blockno (s.buf b).data }
  else some (s.setBuf b { s.buf b with valid := true, data := s.disk (s.buf b).blockno })

/-- The section of `brelse`: nobody is waiting when the count is 0, and the buffer is moved to the
    head of the list. -/
def put (s : Sys τ) (b : Ptr) : Sys τ :=
  let s := s.setBuf b { s.buf b with refcnt := (s.buf b).refcnt - 1 }
  { s with
    links := if (s.buf b).refcnt = 0 then (s.links.unlink (some b)).insert none (some b) else s.links
    now := s.now + 1
    released := Function.update s.released b (s.now + 1) }

def panic (s : Sys τ) : Sys τ := { s with panicked := true }

variable [DecidableEq τ]

def goto (s : Sys τ) (p : τ) (l : Place) : Sys τ := { s with place := Function.update s.place p l }

/-- The process may use the data of the buffer. -/
def Holds (s : Sys τ) (p : τ) (b : Ptr) : Prop := (s.buf b).lock = some p ∧ s.place p = .out

instance (s : Sys τ) (p : τ) (b : Ptr) : Decidable (s.Holds p b) :=
  inferInstanceAs (Decidable (_ ∧ _))

/-- What the process does next at its place. -/
def go (s : Sys τ) (p : τ) : Act τ → Option (Sys τ)
  | .acquire _ =>
    match s.place p with
    | .asleep b =>
      if (s.buf b).lock = none then
        some ((s.setBuf b { s.buf b with lock := some p }).goto p (.check b))
      else none
    | _ => none
  | .check _ =>
    match s.place p with
    | .check b =>
      if (s.buf b).valid then some (s.goto p .out)
      else some (((s.iderw b).map fun s => s.goto p .out).getD s.panic)
    | _ => none
  | .write _ =>
    match s.place p with
    | .write b => some (((s.iderw b).map fun s => s.goto p .out).getD s.panic)
    | _ => none
  | .release _ =>
    match s.place p with
    | .release b => some ((s.put b).goto p .out)
    | _ => none
  | _ => none

/-- One action; `none` if it cannot come next. -/
def next (s : Sys τ) (a : Act τ) : Option (Sys τ) :=
  if s.panicked then none
  else
    match a with
    | .bread p dev blockno =>
      if s.place p = .out then
        some (((s.bget dev blockno).map fun r => r.2.goto p (.asleep r.1)).getD s.panic)
      else none
    | .store p b d =>
      if s.Holds p b then
        some { s.setBuf b { s.buf b with data := d } with
          unsaved := if (s.buf b).dirty then s.unsaved else Function.update s.unsaved b true }
      else none
    | .logWrite p b =>
      if s.Holds p b then
        some { s.setBuf b { s.buf b with dirty := true } with
          unsaved := Function.update s.unsaved b false }
      else none
    | .bwrite p b =>
      if s.Holds p b then
        some ({ s.setBuf b { s.buf b with dirty := true } with
          unsaved := Function.update s.unsaved b false }.goto p (.write b))
      else none
    | .brelse p b =>
      if s.Holds p b then
        some ({ s.setBuf b { s.buf b with lock := none } with
          left := Function.update s.left b (some (s.buf b).data) }.goto p (.release b))
      else none
    | .acquire p | .check p | .write p | .release p => s.go p a

def Step (s : Sys τ) (a : Act τ) (t : Sys τ) : Prop := s.next a = some t

end Sys

end Xv6.Bcache
