import Xv6.Disk.Block
import Xv6.Schemes.Linked
import Xv6.Schemes.X86
import Mathlib.Data.Fintype.Card

/-! @src ide.c memide.c | name:The IDE driver and the disk in memory | layer:model

    Any number of processes in `iderw`, the interrupt handler and the controller. A section under
    `idelock` is one action. The controller decodes the registers that `idestart` has written,
    performs that command and then raises one interrupt. `mem` is a ghost, the disk of the kernel
    that is linked with `memide.c`: each request is executed there at its interrupt. What was asked
    for and what was served are ghosts too. -/

namespace Xv6.Ide
open Xv6.Disk (Block BSIZE)
open Xv6.Schemes
open Xv6.Schemes.X86 (Word)

abbrev Byte := BitVec 8

abbrev FSSIZE : ℕ := 1000
abbrev SECTOR_SIZE : ℕ := 512

def IDE_CMD_READ : Byte := 0x20
def IDE_CMD_WRITE : Byte := 0x30
def IDE_CMD_RDMUL : Byte := 0xc4
def IDE_CMD_WRMUL : Byte := 0xc5

/-- `struct buf`, as far as the drivers use it: `B_VALID` and `B_DIRTY`, and the process that holds
    `lock`. -/
structure Buf (β τ : Type) where
  valid : Bool
  dirty : Bool
  dev : Word
  blockno : Word
  lock : Option τ
  qnext : Option β
  data : Block

/-- `(b->flags & (B_VALID|B_DIRTY)) == B_VALID`. -/
def Buf.Done {β τ : Type} (b : Buf β τ) : Prop := b.valid = true ∧ b.dirty = false

instance {β τ : Type} (b : Buf β τ) : Decidable b.Done :=
  inferInstanceAs (Decidable (_ ∧ _))

/-- `iderw` of `memide.c`, called by the process `p`; `none` is a panic. -/
def memiderw {β τ : Type} [DecidableEq τ] (disksize : ℕ) (p : τ) (mem : ℕ → Block)
    (b : Buf β τ) : Option ((ℕ → Block) × Buf β τ) :=
  if b.lock ≠ some p then none
  else if b.Done then none
  else if b.dev ≠ 1 then none
  else if b.blockno ≥ BitVec.ofNat 32 disksize then none
  else if b.dirty then
    some (Function.update mem b.blockno.toNat b.data, { b with dirty := false, valid := true })
  else some (mem, { b with data := mem b.blockno.toNat, valid := true })

/-! ### The controller -/

/-- What `idestart` writes to the registers, and with `outsl` after a command to write. -/
structure Command where
  count : Byte
  lo : Byte
  mid : Byte
  hi : Byte
  sel : Byte
  cmd : Byte
  data : Option Block

/-- The sector that the registers select, of 28 bits. -/
def Command.sector (c : Command) : ℕ :=
  c.lo.toNat + 0x100 * c.mid.toNat + 0x10000 * c.hi.toNat + 0x1000000 * (c.sel.toNat % 16)

/-- The drive that the registers select. -/
def Command.drive (c : Command) : Bool := c.sel.getLsbD 4

/-- The controller performs a command on one sector: the disks, and what it has read. -/
def Command.perform (c : Command) (disk : Bool → ℕ → Block) : (Bool → ℕ → Block) × Block :=
  match c.data with
  | some data =>
    (Function.update disk c.drive (Function.update (disk c.drive) c.sector data), data)
  | none => (disk, disk c.drive c.sector)

/-- Nothing to do, a command in progress, or an interrupt raised with what has been read. -/
inductive Ctl where
  | idle
  | busy (c : Command)
  | done (d : Block)

/-- `idestart`; `none` is a panic. -/
def idestart {β τ : Type} (b : Buf β τ) : Option Command :=
  if b.blockno ≥ BitVec.ofNat 32 FSSIZE then none
  else
    let sector_per_block := BSIZE / SECTOR_SIZE
    let sector := b.blockno * BitVec.ofNat 32 sector_per_block
    let read_cmd := if sector_per_block = 1 then IDE_CMD_READ else IDE_CMD_RDMUL
    let write_cmd := if sector_per_block = 1 then IDE_CMD_WRITE else IDE_CMD_WRMUL
    if sector_per_block > 7 then none
    else
      some
        { count := BitVec.ofNat 8 sector_per_block
          lo := (sector &&& 0xff).setWidth 8
          mid := ((sector >>> 8) &&& 0xff).setWidth 8
          hi := ((sector >>> 16) &&& 0xff).setWidth 8
          sel := (0xe0 ||| ((b.dev &&& 1) <<< 4) ||| ((sector >>> 24) &&& 0x0f)).setWidth 8
          cmd := if b.dirty then write_cmd else read_cmd
          data := if b.dirty then some b.data else none }

/-! ### The processes -/

/-- Where a process is: out of `iderw`, or in its loop with the request `n` for the buffer `b`. -/
inductive Place (β : Type) where
  | out
  | ready (n : ℕ) (b : β)
  | asleep (n : ℕ) (b : β)

/-- The request of a process in `iderw`. -/
def Place.inside {β : Type} : Place β → Option (ℕ × β)
  | .out => none
  | .ready n b | .asleep n b => some (n, b)

structure Sys (β τ : Type) where
  buf : β → Buf β τ
  idequeue : Option β
  havedisk1 : Bool
  disk : Bool → ℕ → Block
  ctl : Ctl
  place : τ → Place β
  panicked : Bool
  mem : ℕ → Block
  asked : List (τ × β)
  served : List (β × Block)

/-- A process calls `iderw`, or goes on in its loop once it gets `idelock`; it is woken up early;
    the controller is done with a command; its interrupt is handled; and what happens outside of
    the driver: the lock of a buffer is acquired or released, and a buffer that is not in `iderw`
    is changed. -/
inductive Act (β τ : Type) where
  | iderw (p : τ) (b : β)
  | run (p : τ)
  | rouse (p : τ)
  | perform
  | ideintr
  | acquiresleep (p : τ) (b : β)
  | releasesleep (p : τ) (b : β)
  | edit (b : β) (valid dirty : Bool) (dev blockno : Word) (data : Block)

namespace Sys

variable {β τ : Type}

/-- The pointers of the queue: `idequeue`, and the `qnext` of each buffer. -/
def link (s : Sys β τ) : Option β → Option β
  | none => s.idequeue
  | some b => (s.buf b).qnext

/-- `idestart` of a buffer in the queue. -/
def start (s : Sys β τ) (b : β) : Sys β τ :=
  match idestart (s.buf b) with
  | none => { s with panicked := true }
  | some c => { s with ctl := .busy c }

variable [DecidableEq β]

/-- Store to a pointer of the queue. -/
def setLink (s : Sys β τ) (pp x : Option β) : Sys β τ :=
  match pp with
  | none => { s with idequeue := x }
  | some b => { s with buf := Function.update s.buf b { s.buf b with qnext := x } }

/-- `wakeup(b)`. -/
def wakeup (s : Sys β τ) (b : β) : Sys β τ :=
  { s with
    place := fun p =>
      match s.place p with
      | .asleep n b' => if b' = b then .ready n b' else .asleep n b'
      | x => x }

variable [DecidableEq τ]

def goto (s : Sys β τ) (p : τ) (x : Place β) : Sys β τ :=
  { s with place := Function.update s.place p x }

/-- The test of the loop of `iderw`. -/
def await (s : Sys β τ) (p : τ) (n : ℕ) (b : β) : Sys β τ :=
  if (s.buf b).Done then s.goto p .out else s.goto p (.asleep n b)

/-- `iderw` up to the end of its first section; `none` if the walk to the end of the queue takes
    more steps than there are buffers. -/
def iderw [Fintype β] (s : Sys β τ) (p : τ) (b : β) : Option (Sys β τ) :=
  if (s.buf b).lock ≠ some p then some { s with panicked := true }
  else if (s.buf b).Done then some { s with panicked := true }
  else if (s.buf b).dev ≠ 0 ∧ s.havedisk1 = false then some { s with panicked := true }
  else
    let n := s.asked.length
    let s := { s with asked := s.asked ++ [(p, b)] }.setLink (some b) none
    (Linked.findEnd s.link (Fintype.card β + 1) none).map fun pp =>
      let s := s.setLink pp (some b)
      let s := if s.idequeue = some b then s.start b else s
      s.await p n b

/-- The ghosts at the interrupt of a request for the buffer `b`. -/
def serve (s : Sys β τ) (b : β) (data : Block) : Sys β τ :=
  let mem := match s.asked[s.served.length]? with
    | some (p, _) => ((memiderw FSSIZE p s.mem (s.buf b)).map Prod.fst).getD s.mem
    | none => s.mem
  { s with mem := mem, served := s.served ++ [(b, data)] }

/-- The request for `b` at the head of the queue is done: the controller has read `d`, and
    `idewait(1)` reports no error. -/
def finish (s : Sys β τ) (b : β) (d : Block) : Sys β τ :=
  let x := s.buf b
  let data := if x.dirty then x.data else d
  let s := (s.serve b data).setLink none x.qnext
  let s := { s with
    buf := Function.update s.buf b { x with data := data, valid := true, dirty := false } }
  s.wakeup b

omit [DecidableEq β] [DecidableEq τ] in
/-- Start the disk on the next buffer in the queue. -/
def startNext (s : Sys β τ) : Sys β τ :=
  match s.idequeue with
  | none => s
  | some c => s.start c

/-- `ideintr`. -/
def ideintr (s : Sys β τ) (d : Block) : Sys β τ :=
  let s := { s with ctl := .idle }
  match s.idequeue with
  | none => s
  | some b => (s.finish b d).startNext

omit [DecidableEq τ] in
/-- The process that holds the lock of the buffer is in `iderw` with it. -/
def busy (s : Sys β τ) (b : β) : Bool :=
  match (s.buf b).lock with
  | some p => (s.place p).inside.any fun x => x.2 = b
  | none => false

/-- One action; `none` if it cannot come next. -/
def next [Fintype β] (s : Sys β τ) (a : Act β τ) : Option (Sys β τ) :=
  if s.panicked then none
  else
    match a with
    | .iderw p b =>
      match s.place p with
      | .out => s.iderw p b
      | .ready _ _ | .asleep _ _ => none
    | .run p =>
      match s.place p with
      | .ready n b => some (s.await p n b)
      | .out | .asleep _ _ => none
    | .rouse p =>
      match s.place p with
      | .asleep n b => some (s.goto p (.ready n b))
      | .out | .ready _ _ => none
    | .perform =>
      match s.ctl with
      | .busy c =>
        let (disk, d) := c.perform s.disk
        some { s with disk := disk, ctl := .done d }
      | .idle | .done _ => none
    | .ideintr =>
      match s.ctl with
      | .done d => some (s.ideintr d)
      | .idle | .busy _ => none
    | .acquiresleep p b =>
      if (s.buf b).lock = none ∧ (s.place p).inside = none then
        some { s with buf := Function.update s.buf b { s.buf b with lock := some p } }
      else none
    | .releasesleep p b =>
      if (s.buf b).lock = some p ∧ (s.place p).inside = none then
        some { s with buf := Function.update s.buf b { s.buf b with lock := none } }
      else none
    | .edit b valid dirty dev blockno data =>
      if s.busy b then none
      else
        some { s with
          buf := Function.update s.buf b
            { s.buf b with
              valid := valid, dirty := dirty, dev := dev, blockno := blockno, data := data } }

/-- The step relation of the driver. -/
def Step [Fintype β] (s : Sys β τ) (a : Act β τ) (t : Sys β τ) : Prop := s.next a = some t

omit [DecidableEq β] [DecidableEq τ] in
/-- After `ideinit`: no request yet, in any buffers, and both kernels have the same disk 1. -/
def ideinit (buf : β → Buf β τ) (havedisk1 : Bool) (disk : Bool → ℕ → Block) : Sys β τ where
  buf := buf
  idequeue := none
  havedisk1 := havedisk1
  disk := disk
  ctl := .idle
  place := fun _ => .out
  panicked := false
  mem := disk true
  asked := []
  served := []

end Sys

end Xv6.Ide
