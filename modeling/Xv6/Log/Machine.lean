import Xv6.Disk.Block
import Xv6.Schemes.Run

/-! @src log.c bio.c proc.c | name:Concurrent operations on the log | layer:model

    `begin_op`, `log_write`, `end_op` and the steps of `commit()` as atomic actions of any number of
    processes. A section under `log.lock` is one action, and so is one iteration of a commit loop;
    the two tests at the top of `log_write` are read without the lock and are an action of their
    own. `logged`, `since` and `completed` record the history and are read by no action. -/

namespace Xv6.Log
open Xv6.Disk

/-- `struct buf`. `refs` are the processes that hold or wait for it, `refcnt` is their number, and
    `dirty` is `B_DIRTY`. -/
structure Buf (P : Type) where
  blockno : ℕ
  refs : List P
  dirty : Bool
  deriving DecidableEq

section Bcache

variable {P : Type}

/-- `binit`: `n` clean buffers that nobody refers to. -/
def binit (P : Type) (n : ℕ) : List (Buf P) := List.replicate n ⟨0, [], false⟩

/-- Apply `f` to the buffer of block `b`. -/
def onBlock (b : ℕ) (f : Buf P → Buf P) (bc : List (Buf P)) : List (Buf P) :=
  bc.map fun x => if x.blockno = b then f x else x

/-- First loop of `bget`: the block is already cached. -/
def hit (p : P) (b : ℕ) : List (Buf P) → Option (List (Buf P))
  | [] => none
  | x :: xs =>
    if x.blockno = b then some ({ x with refs := p :: x.refs } :: xs)
    else (hit p b xs).map (x :: ·)

/-- Second loop of `bget`, from the least recently used end: recycle a buffer that nobody refers to
    and that is not `B_DIRTY`. -/
def recycle (p : P) (b : ℕ) : List (Buf P) → Option (List (Buf P))
  | [] => none
  | x :: xs =>
    match recycle p b xs with
    | some ys => some (x :: ys)
    | none => if x.refs.isEmpty && !x.dirty then some (⟨b, [p], false⟩ :: xs) else none

/-- `bget`; `none` is the panic "bget: no buffers". -/
def bget (p : P) (b : ℕ) (bc : List (Buf P)) : Option (List (Buf P)) :=
  match hit p b bc with
  | some bc' => some bc'
  | none => recycle p b bc

/-- `bread`: `bget`, and a read from disk into a buffer just recycled, which is clean. -/
def bread (p : P) (b : ℕ) (bc : List (Buf P)) : Option (List (Buf P)) := bget p b bc

/-- `bwrite`: set `B_DIRTY` and call `iderw`, which writes the buffer and clears it. -/
def bwrite (b : ℕ) (bc : List (Buf P)) : List (Buf P) :=
  onBlock b (fun x => { x with dirty := false }) bc

/-- `brelse`: drop the reference; the last one moves the buffer to the front of the list. -/
def brelse [DecidableEq P] (p : P) (b : ℕ) (bc : List (Buf P)) : List (Buf P) :=
  let bc' := onBlock b (fun x => { x with refs := x.refs.erase p }) bc
  bc'.filter (fun x => x.blockno = b && x.refs.isEmpty) ++
    bc'.filter (fun x => !(x.blockno = b && x.refs.isEmpty))

/-- Write block `dst`, then release `src` and `dst`. -/
def copyTo [DecidableEq P] (p : P) (src dst : ℕ) (bc : List (Buf P)) : List (Buf P) :=
  brelse p dst (brelse p src (bwrite dst bc))

/-- One iteration of `write_log`: the log block `lb` gets the cached block `src`. -/
def writeLogBlock [DecidableEq P] (p : P) (lb src : ℕ) (bc : List (Buf P)) :
    Option (List (Buf P)) :=
  ((bread p lb bc).bind (bread p src)).map (copyTo p src lb)

/-- One iteration of `install_trans`: the home block `dst` gets the log block `lb`. -/
def installBlock [DecidableEq P] (p : P) (lb dst : ℕ) (bc : List (Buf P)) :
    Option (List (Buf P)) :=
  ((bread p lb bc).bind (bread p dst)).map (copyTo p lb dst)

/-- `write_head`: read the header block, write it, release it. -/
def writeHeadBlock [DecidableEq P] (p : P) (start : ℕ) (bc : List (Buf P)) :
    Option (List (Buf P)) :=
  (bread p start bc).map fun bc' => brelse p start (bwrite start bc')

/-- The process holds the buffer of block `b`. -/
def Holds (p : P) (b : ℕ) (bc : List (Buf P)) : Prop := ∃ x ∈ bc, x.blockno = b ∧ p ∈ x.refs

instance [DecidableEq P] (p : P) (b : ℕ) (bc : List (Buf P)) : Decidable (Holds p b bc) :=
  inferInstanceAs (Decidable (∃ x ∈ bc, _))

end Bcache

/-- Where a process stands with respect to the log. -/
inductive Pc where
  | idle
  | beginOp
  | asleep
  | inOp
  | logWrite (b : ℕ)
  | commit
  | writeLog (tail : ℕ)
  | writeHead
  | install (tail : ℕ)
  | clearHead
  | finish
  deriving DecidableEq

/-- Between `begin_op` and `end_op`. -/
def Pc.isOp : Pc → Bool
  | .inOp | .logWrite _ => true
  | _ => false

/-- From the `end_op` that set `log.committing` to the section that clears it. -/
def Pc.isCommit : Pc → Bool
  | .commit | .writeLog _ | .writeHead | .install _ | .clearHead | .finish => true
  | _ => false

/-- After `commit()` has set `log.lh.n = 0`, or found it to be 0. -/
def Pc.isClearing : Pc → Bool
  | .clearHead | .finish => true
  | _ => false

/-- `struct log`, the buffer cache and the processes. -/
structure Sys (P : Type) where
  start : ℕ
  size : ℕ
  outstanding : ℕ
  committing : Bool
  block : List ℕ
  bcache : List (Buf P)
  pc : P → Pc
  logged : P → List ℕ
  since : List ℕ
  completed : List (List ℕ)
  panicked : Option String

/-- The atomic actions. -/
inductive Act (P : Type) where
  | enter (p : P)
  | tryBegin (p : P)
  | kill (p : P)
  | read (p : P) (b : ℕ)
  | release (p : P) (b : ℕ)
  | checkLog (p : P) (b : ℕ)
  | append (p : P)
  | endOp (p : P)
  | commitStep (p : P)
  deriving DecidableEq

namespace Sys

variable {P : Type} [DecidableEq P]

def setPc (s : Sys P) (p : P) (c : Pc) : Sys P := { s with pc := Function.update s.pc p c }

/-- `wakeup(&log)`: every sleeper goes back to the loop of `begin_op`. -/
def wakeup (s : Sys P) : Sys P :=
  { s with pc := fun q => if s.pc q = .asleep then .beginOp else s.pc q }

def panic (s : Sys P) (msg : String) : Sys P := { s with panicked := some msg }

/-- Store the buffer cache an action computed, or panic for want of buffers. -/
def withCache (s : Sys P) (bc : Option (List (Buf P))) (f : Sys P → Sys P) : Sys P :=
  match bc with
  | some bc' => f { s with bcache := bc' }
  | none => s.panic "bget: no buffers"

/-- One turn of the loop of `begin_op`: sleep, or join the running transaction. -/
def tryBegin (s : Sys P) (p : P) : Sys P :=
  if s.committing then s.setPc p .asleep
  else if s.block.length + (s.outstanding + 1) * MAXOPBLOCKS > LOGSIZE then s.setPc p .asleep
  else { s.setPc p .inOp with
    outstanding := s.outstanding + 1, logged := Function.update s.logged p [] }

/-- The tests `log_write` makes before it takes the lock. -/
def checkLog (s : Sys P) (p : P) (b : ℕ) : Sys P :=
  if s.block.length ≥ LOGSIZE ∨ s.block.length ≥ s.size - 1 then s.panic "too big a transaction"
  else if s.outstanding < 1 then s.panic "log_write outside of trans"
  else s.setPc p (.logWrite b)

/-- The locked section of `log_write`: absorb or append the block, and pin its buffer. -/
def append (s : Sys P) (p : P) (b : ℕ) : Sys P :=
  { s.setPc p .inOp with
    block := if b ∈ s.block then s.block else s.block ++ [b]
    bcache := onBlock b (fun x => { x with dirty := true }) s.bcache
    logged := Function.update s.logged p
      (if b ∈ s.logged p then s.logged p else b :: s.logged p)
    since := b :: s.since }

/-- The first locked section of `end_op`. -/
def endOp (s : Sys P) (p : P) : Sys P :=
  let s₁ := { s with
    outstanding := s.outstanding - 1
    logged := Function.update s.logged p []
    completed := s.logged p :: s.completed }
  if s.committing then s₁.panic "log.committing"
  else if s₁.outstanding = 0 then { s₁.setPc p .commit with committing := true }
  else s₁.wakeup.setPc p .idle

/-- The next step of `commit()`, and the last locked section of `end_op`. -/
def commitStep (s : Sys P) (p : P) : Pc → Option (Sys P)
  | .commit => some (s.setPc p (if 0 < s.block.length then .writeLog 0 else .finish))
  | .writeLog tail => some <|
    match s.block[tail]? with
    | some b => s.withCache (writeLogBlock p (s.start + tail + 1) b s.bcache)
        (·.setPc p (.writeLog (tail + 1)))
    | none => s.setPc p .writeHead
  | .writeHead => some <|
    s.withCache (writeHeadBlock p s.start s.bcache) (·.setPc p (.install 0))
  | .install tail => some <|
    match s.block[tail]? with
    | some b => s.withCache (installBlock p (s.start + tail + 1) b s.bcache)
        (·.setPc p (.install (tail + 1)))
    | none => { s.setPc p .clearHead with block := [] }
  | .clearHead => some <|
    s.withCache (writeHeadBlock p s.start s.bcache) (·.setPc p .finish)
  | .finish => some { s.wakeup.setPc p .idle with
      committing := false, since := [], completed := [] }
  | _ => none

/-- Home blocks: what `fs.c` passes to `log_write` is never a block of the log itself. -/
def IsHome (s : Sys P) (b : ℕ) : Prop := b < s.start ∨ s.start + s.size ≤ b

instance (s : Sys P) (b : ℕ) : Decidable (s.IsHome b) := inferInstanceAs (Decidable (_ ∨ _))

/-- One action, if the process can take it; a panic stops the system. -/
def next (s : Sys P) (a : Act P) : Option (Sys P) :=
  if s.panicked.isSome then none else
  match a with
  | .enter p => if s.pc p = .idle then some (s.setPc p .beginOp) else none
  | .tryBegin p => if s.pc p = .beginOp then some (s.tryBegin p) else none
  | .kill p => if s.pc p = .asleep then some (s.setPc p .beginOp) else none
  | .read p b =>
    if s.pc p = .idle ∨ s.pc p = .inOp then some (s.withCache (bread p b s.bcache) id) else none
  | .release p b =>
    if (s.pc p = .idle ∨ s.pc p = .inOp) ∧ Holds p b s.bcache then
      some { s with bcache := brelse p b s.bcache } else none
  | .checkLog p b =>
    if s.pc p = .inOp ∧ Holds p b s.bcache ∧ s.IsHome b then some (s.checkLog p b) else none
  | .append p => match s.pc p with
    | .logWrite b => some (s.append p b)
    | _ => none
  | .endOp p => if s.pc p = .inOp then some (s.endOp p) else none
  | .commitStep p => s.commitStep p (s.pc p)

/-- After `initlog`: no operation, an empty log, and a cache of clean unreferenced buffers. -/
def init (start size : ℕ) (bc : List (Buf P)) : Sys P where
  start := start
  size := size
  outstanding := 0
  committing := false
  block := []
  bcache := bc
  pc := fun _ => .idle
  logged := fun _ => []
  since := []
  completed := []
  panicked := none

/-- The step relation of the system. -/
def Step (s : Sys P) (a : Act P) (t : Sys P) : Prop := s.next a = some t

/-- What an action found and what it did. -/
def Effect (s t : Sys P) : Act P → Prop
  | .enter p => s.pc p = .idle ∧ t = s.setPc p .beginOp
  | .tryBegin p => s.pc p = .beginOp ∧ t = s.tryBegin p
  | .kill p => s.pc p = .asleep ∧ t = s.setPc p .beginOp
  | .read p b => (s.pc p = .idle ∨ s.pc p = .inOp) ∧ t = s.withCache (bread p b s.bcache) id
  | .release p b => ((s.pc p = .idle ∨ s.pc p = .inOp) ∧ Holds p b s.bcache) ∧
      t = { s with bcache := brelse p b s.bcache }
  | .checkLog p b => (s.pc p = .inOp ∧ Holds p b s.bcache ∧ s.IsHome b) ∧ t = s.checkLog p b
  | .append p => ∃ b, s.pc p = .logWrite b ∧ t = s.append p b
  | .endOp p => s.pc p = .inOp ∧ t = s.endOp p
  | .commitStep p => s.commitStep p (s.pc p) = some t

/-- A step leaves a system that has not panicked, and has the effect of its action. -/
theorem step_effect {s t : Sys P} {a : Act P} (h : s.Step a t) :
    s.panicked = none ∧ s.Effect t a := by
  unfold Step next at h
  split_ifs at h with hpanic
  refine ⟨Option.not_isSome_iff_eq_none.mp hpanic, ?_⟩
  cases a with
  | append p =>
    simp only at h
    split at h
    · rename_i b hp
      exact ⟨b, hp, (Option.some.inj h).symm⟩
    · simp at h
  | commitStep p => exact h
  | enter p | tryBegin p | kill p | read p b | release p b | checkLog p b | endOp p =>
    obtain ⟨hp, h⟩ := Option.ite_none_right_eq_some.mp h
    exact ⟨hp, (Option.some.inj h).symm⟩

end Sys

end Xv6.Log
