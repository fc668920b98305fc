import Xv6.Schemes.X86
import Mathlib.Logic.Function.Basic

/-! @src pipe.c proc.c | name:Pipes | layer:model

    One pipe and the processes that use it. A section under `p->lock` is one action; `sleep` ends a
    section, and the process that is woken up starts another one at the test of its loop. What has
    been stored in the pipe and what its reads have returned are kept as ghosts. -/

namespace Xv6.Ipc
open Xv6.Schemes.X86 (Word)

abbrev Byte := BitVec 8

abbrev PIPESIZE : ℕ := 512

/-- `struct pipe`. -/
structure Pipe where
  data : ℕ → Byte
  nread : Word
  nwrite : Word
  readopen : Bool
  writeopen : Bool

namespace Pipe

/-- `p->nwrite == p->nread + PIPESIZE`. -/
abbrev Full (p : Pipe) : Prop := p.nwrite = p.nread + BitVec.ofNat 32 PIPESIZE

/-- `p->nread == p->nwrite`. -/
abbrev Empty (p : Pipe) : Prop := p.nread = p.nwrite

/-- `p->data[p->nwrite++ % PIPESIZE] = b`. -/
def push (p : Pipe) (b : Byte) : Pipe :=
  { p with data := Function.update p.data (p.nwrite.toNat % PIPESIZE) b, nwrite := p.nwrite + 1 }

/-- `p->data[p->nread++ % PIPESIZE]`. -/
def pop (p : Pipe) : Byte × Pipe := (p.data (p.nread.toNat % PIPESIZE), { p with nread := p.nread + 1 })

end Pipe

/-- The loop of `pipewrite`, until the pipe is full: the bytes left. -/
def writeLoop : List Byte → Pipe → List Byte × Pipe
  | [], p => ([], p)
  | b :: bs, p => if p.Full then (b :: bs, p) else writeLoop bs (p.push b)

/-- The loop of `piperead`, for `n` bytes at most. -/
def readLoop : ℕ → Pipe → List Byte × Pipe
  | 0, p => ([], p)
  | n + 1, p =>
    if p.Empty then ([], p)
    else
      let (b, p) := p.pop
      let (bs, p) := readLoop n p
      (b :: bs, p)

/-! ### The processes -/

/-- `&p->nread` and `&p->nwrite`. -/
inductive Chan where
  | nread
  | nwrite
  deriving DecidableEq

/-- A call in progress: `piperead`, or `pipewrite` with the bytes it has not stored yet. -/
inductive Call where
  | read (n : Word)
  | write (n : Word) (rest : List Byte)

/-- Where a process is; `out` of the calls, it has the result of its last one. -/
inductive Place where
  | out (ret : Word)
  | ready (call : Call)
  | asleep (ch : Chan) (call : Call)

/-- The process sleeps on the channel. -/
def Place.On (ch : Chan) : Place → Prop
  | .asleep ch' _ => ch' = ch
  | .out _ | .ready _ => False

instance (ch : Chan) : (x : Place) → Decidable (x.On ch)
  | .asleep ch' _ => inferInstanceAs (Decidable (ch' = ch))
  | .out _ | .ready _ => isFalse id

/-- What a call uses of its process. -/
structure Party where
  place : Place
  killed : Bool

/-- The pipe and its processes, with what has been stored and what has been read. -/
structure Sys (τ : Type) where
  pipe : Pipe
  party : τ → Party
  stored : List Byte
  delivered : List Byte

/-- A process calls `piperead` or `pipewrite`, or goes on with its call once it gets `p->lock`; an
    end is closed; a process is killed. -/
inductive Act (τ : Type) where
  | piperead (t : τ) (n : Word)
  | pipewrite (t : τ) (addr : ℕ → Byte) (n : Word)
  | run (t : τ)
  | pipeclose (writable : Bool)
  | kill (t : τ)

namespace Sys

variable {τ : Type}

/-- `wakeup`. -/
def wakeup (s : Sys τ) (ch : Chan) : Sys τ :=
  { s with
    party := fun t =>
      match (s.party t).place with
      | .asleep ch' call => if ch' = ch then { s.party t with place := .ready call } else s.party t
      | .out _ | .ready _ => s.party t }

variable [DecidableEq τ]

def goto (s : Sys τ) (t : τ) (x : Place) : Sys τ :=
  { s with party := Function.update s.party t { s.party t with place := x } }

/-- A section of `pipewrite`. -/
def write (s : Sys τ) (t : τ) (n : Word) (rest : List Byte) : Sys τ :=
  let (left, p) := writeLoop rest s.pipe
  let s := { s with pipe := p, stored := s.stored ++ rest.take (rest.length - left.length) }
  match left with
  | [] => (s.wakeup .nread).goto t (.out n)
  | _ :: _ =>
    if p.readopen = false ∨ (s.party t).killed then s.goto t (.out (-1))
    else (s.wakeup .nread).goto t (.asleep .nwrite (.write n left))

/-- A section of `piperead`. -/
def read (s : Sys τ) (t : τ) (n : Word) : Sys τ :=
  if s.pipe.Empty ∧ s.pipe.writeopen then
    if (s.party t).killed then s.goto t (.out (-1)) else s.goto t (.asleep .nread (.read n))
  else
    let (bytes, p) := readLoop n.toInt.toNat s.pipe
    let s := { s with pipe := p, delivered := s.delivered ++ bytes }
    (s.wakeup .nwrite).goto t (.out (BitVec.ofNat 32 bytes.length))

/-- `pipeclose`. -/
def close (s : Sys τ) (writable : Bool) : Sys τ :=
  if writable then { s with pipe := { s.pipe with writeopen := false } }.wakeup .nread
  else { s with pipe := { s.pipe with readopen := false } }.wakeup .nwrite

/-- `kill`. -/
def kill (s : Sys τ) (t : τ) : Sys τ :=
  let place := match (s.party t).place with
    | .asleep _ call => .ready call
    | x => x
  { s with party := Function.update s.party t ⟨place, true⟩ }

/-- One action; `none` if it cannot come next. With both ends closed the pipe has been freed. -/
def next (s : Sys τ) (a : Act τ) : Option (Sys τ) :=
  if s.pipe.readopen = false ∧ s.pipe.writeopen = false then none
  else
    match a with
    | .piperead t n =>
      match (s.party t).place with
      | .out _ => some (s.goto t (.ready (.read n)))
      | .ready _ | .asleep _ _ => none
    | .pipewrite t addr n =>
      match (s.party t).place with
      | .out _ => some (s.goto t (.ready (.write n ((List.range n.toInt.toNat).map addr))))
      | .ready _ | .asleep _ _ => none
    | .run t =>
      match (s.party t).place with
      | .ready (.read n) => some (s.read t n)
      | .ready (.write n rest) => some (s.write t n rest)
      | .out _ | .asleep _ _ => none
    | .pipeclose writable => some (s.close writable)
    | .kill t => some (s.kill t)

/-- The step relation of the pipe. -/
def Step (s : Sys τ) (a : Act τ) (t : Sys τ) : Prop := s.next a = some t

omit [DecidableEq τ] in
/-- `pipealloc`, in a page with any contents, among processes some of which may have been killed. -/
def pipealloc (data : ℕ → Byte) (killed : τ → Bool) : Sys τ where
  pipe := ⟨data, 0, 0, true, true⟩
  party := fun t => ⟨.out 0, killed t⟩
  stored := []
  delivered := []

end Sys

end Xv6.Ipc
