import Xv6.Schemes.X86
import Mathlib.Logic.Function.Basic

/-! @src console.c | name:Console input | layer:model

    The ring `input` with the interrupt that edits it and the processes that read it. A section
    under `cons.lock` is one action: an interrupt with all the characters `getc` gives it, or a
    reader from one test of its loops up to `sleep` or its return. Characters are numbered as they
    arrive; the numbers, and what becomes of the characters, are ghosts. -/

namespace Xv6.Console
open Xv6.Schemes.X86 (Word)

abbrev Byte := BitVec 8

abbrev INPUT_BUF : ℕ := 128

/-- `C(x)`, for the code of `x`. -/
def C (x : Byte) : Byte := x - 0x40

/-- `C('P')`, `C('U')`, `C('H')` and `C('D')`. -/
def listing : Byte := C 0x50
def kill : Byte := C 0x55
def backspace : Byte := C 0x48
def eof : Byte := C 0x44

def delete : Byte := 0x7f
def newline : Byte := 0x0a
def carriage : Byte := 0x0d

/-- A character of `input.buf`, and how many characters had been received before it. -/
structure Key where
  no : ℕ
  code : Byte
  deriving DecidableEq

/-- `input`. -/
structure Input where
  buf : ℕ → Key
  r : Word
  w : Word
  e : Word

namespace Input

/-- `input.buf[(input.e-1) % INPUT_BUF]`. -/
def last (i : Input) : Key := i.buf ((i.e - 1).toNat % INPUT_BUF)

/-- `input.e--`. -/
def erase (i : Input) : Input := { i with e := i.e - 1 }

/-- `input.buf[input.e++ % INPUT_BUF] = c`. -/
def push (i : Input) (k : Key) : Input :=
  { i with buf := Function.update i.buf (i.e.toNat % INPUT_BUF) k, e := i.e + 1 }

/-- `input.w = input.e`. -/
def commit (i : Input) : Input := { i with w := i.e }

/-- `input.buf[input.r++ % INPUT_BUF]`. -/
def pop (i : Input) : Key × Input := (i.buf (i.r.toNat % INPUT_BUF), { i with r := i.r + 1 })

end Input

/-- What becomes of the characters when one is received. -/
inductive Fate where
  | nothing
  | erased (ks : List Key)
  | dropped (ahead : Word)
  | stored
  | committed

/-- The loop of ^U, which goes around `input.e - input.w` times at most: what it erases. -/
def killLine : ℕ → Input → List Key × Input
  | 0, i => ([], i)
  | fuel + 1, i =>
    if i.e ≠ i.w ∧ i.last.code ≠ newline then
      let (ks, j) := killLine fuel i.erase
      (i.last :: ks, j)
    else ([], i)

/-- The `switch` of `consoleintr`. -/
def Input.switch (i : Input) (k : Key) : Fate × Input :=
  if k.code = listing then (.nothing, i)
  else if k.code = kill then
    let (ks, j) := killLine (i.e - i.w).toNat i
    (.erased ks, j)
  else if k.code = backspace ∨ k.code = delete then
    if i.e ≠ i.w then (.erased [i.last], i.erase) else (.erased [], i)
  else if k.code = 0 then (.nothing, i)
  else if i.e - i.r < BitVec.ofNat 32 INPUT_BUF then
    let k := if k.code = carriage then { k with code := newline } else k
    let j := i.push k
    if k.code = newline ∨ k.code = eof ∨ j.e = j.r + BitVec.ofNat 32 INPUT_BUF then
      (.committed, j.commit)
    else (.stored, j)
  else (.dropped (i.e - i.r), i)

/-- How the loops of `consoleread` end: it returns, with the ^D it has taken, or there is nothing
    to read. -/
inductive Stop where
  | returns (eof : List Key)
  | waits

/-- The loops of `consoleread` with `n` characters to go: what it stores at `dst`. -/
def readLoop (target : ℕ) : ℕ → Input → List Key × Stop × Input
  | 0, i => ([], .returns [], i)
  | n + 1, i =>
    if i.r = i.w then ([], .waits, i)
    else
      let (c, j) := i.pop
      if c.code = eof then
        if n + 1 < target then ([], .returns [], { j with r := j.r - 1 })
        else ([], .returns [c], j)
      else if c.code = newline then ([c], .returns [], j)
      else
        let (cs, x, j) := readLoop target n j
        (c :: cs, x, j)

/-! ### The processes -/

/-- A `consoleread` in progress, with `n` characters to go. -/
structure Call where
  target : ℕ
  n : ℕ

/-- Where a process is; `out` of the calls, it has the result of its last one. -/
inductive Place where
  | out (ret : Word)
  | ready (call : Call)
  | asleep (call : Call)

/-- A process. `done` counts the calls it has come back from. -/
structure Party where
  place : Place
  killed : Bool
  done : ℕ

/-- A call is named by its process and how many calls that process had come back from. -/
abbrev Name (τ : Type) := τ × ℕ

/-- How a call has ended. -/
structure Return (τ : Type) where
  name : Name τ
  target : ℕ
  ret : Word

/-- The console and its readers, with what has become of the characters: what was received, what
    was committed, what readers have taken from that, and what each of them got of it. -/
structure Sys (τ : Type) where
  input : Input
  party : τ → Party
  received : List Byte
  committed : List Key
  erased : List Key
  dropped : List (ℕ × Word)
  plain : List ℕ
  taken : List Key
  delivered : List (Name τ × Key)
  returned : List (Return τ)

/-- An interrupt with what `getc` returns before -1; a process calls `consoleread`, or goes on with
    its call once it gets `cons.lock`; a process is killed. -/
inductive Act (τ : Type) where
  | consoleintr (cs : List Byte)
  | consoleread (t : τ) (n : Word)
  | run (t : τ)
  | kill (t : τ)

namespace Sys

variable {τ : Type}

/-- `wakeup(&input.r)`. -/
def wakeup (s : Sys τ) : Sys τ :=
  { s with
    party := fun t =>
      match (s.party t).place with
      | .asleep call => { s.party t with place := .ready call }
      | .out _ | .ready _ => s.party t }

/-- The characters from `input.w` up to `input.e`. -/
def uncommitted (i : Input) : List Key :=
  (List.range (i.e - i.w).toNat).map fun j => i.buf ((i.w + BitVec.ofNat 32 j).toNat % INPUT_BUF)

/-- What has become of the characters when `c` is received: `x` is its fate. -/
def settle (s : Sys τ) (c : Byte) (x : Fate × Input) : Sys τ :=
  let no := s.received.length
  let s' := { s with input := x.2, received := s.received ++ [c] }
  match x.1 with
  | .nothing => { s' with plain := s.plain ++ [no] }
  | .erased ks => { s' with plain := s.plain ++ [no], erased := s.erased ++ ks }
  | .dropped ahead => { s' with dropped := s.dropped ++ [(no, ahead)] }
  | .stored => s'
  | .committed =>
    { s' with committed := s.committed ++ uncommitted { x.2 with w := s.input.w } }.wakeup

/-- One character of `consoleintr`. -/
def receive (s : Sys τ) (c : Byte) : Sys τ := s.settle c (s.input.switch ⟨s.received.length, c⟩)

variable [DecidableEq τ]

def goto (s : Sys τ) (t : τ) (x : Place) : Sys τ :=
  { s with party := Function.update s.party t { s.party t with place := x } }

/-- The call of the process returns. -/
def leave (s : Sys τ) (t : τ) (target : ℕ) (ret : Word) : Sys τ :=
  { s with
    party := Function.update s.party t
      { s.party t with place := .out ret, done := (s.party t).done + 1 }
    returned := s.returned ++ [⟨(t, (s.party t).done), target, ret⟩] }

/-- A section of `consoleread`. -/
def read (s : Sys τ) (t : τ) (call : Call) : Sys τ :=
  let (cs, x, i) := readLoop call.target call.n s.input
  let n := call.n - cs.length
  let s := { s with
    input := i
    delivered := s.delivered ++ cs.map ((t, (s.party t).done), ·) }
  match x with
  | .returns ks =>
    { s with taken := s.taken ++ cs ++ ks }.leave t call.target (BitVec.ofNat 32 (call.target - n))
  | .waits =>
    let s := { s with taken := s.taken ++ cs }
    if (s.party t).killed then s.leave t call.target (-1) else s.goto t (.asleep { call with n := n })

/-- `kill`. -/
def kill (s : Sys τ) (t : τ) : Sys τ :=
  let place := match (s.party t).place with
    | .asleep call => .ready call
    | x => x
  { s with party := Function.update s.party t { s.party t with place := place, killed := true } }

/-- One action; `none` if it cannot come next. With `n` below 0 the loop is not entered. -/
def next (s : Sys τ) (a : Act τ) : Option (Sys τ) :=
  match a with
  | .consoleintr cs => some (cs.foldl receive s)
  | .consoleread t n =>
    match (s.party t).place with
    | .out _ => some (s.goto t (.ready ⟨n.toInt.toNat, n.toInt.toNat⟩))
    | .ready _ | .asleep _ => none
  | .run t =>
    match (s.party t).place with
    | .ready call => some (s.read t call)
    | .out _ | .asleep _ => none
  | .kill t => some (s.kill t)

/-- The step relation of the console. -/
def Step (s : Sys τ) (a : Act τ) (t : Sys τ) : Prop := s.next a = some t

omit [DecidableEq τ] in
/-- Nothing has been received yet. The counters start at 0, or at any other common value; some of
    the processes may have been killed. -/
def boot (buf : ℕ → Key) (x : Word) (killed : τ → Bool) : Sys τ where
  input := ⟨buf, x, x, x⟩
  party := fun t => ⟨.out 0, killed t, 0⟩
  received := []
  committed := []
  erased := []
  dropped := []
  plain := []
  taken := []
  delivered := []
  returned := []

end Sys

end Xv6.Console
