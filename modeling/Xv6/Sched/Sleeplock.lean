import Xv6.Sched.Threads
import Xv6.Schemes.Run

/-! @src sleeplock.c proc.c | name:Sleep locks | layer:model

    One sleep lock, at the address `a` and with the spinlock `lk`, used by the processes of the
    kernel. Between the calls of `acquire`, `sleep`, `wakeup` and `release` that the functions of
    the lock make, their own statements are executed one by one. Whatever else a process calls
    goes on around them; it does not sleep on the address of the lock. -/

namespace Xv6.Sleep
open Xv6.Schemes.X86 (Word)
open Xv6.Process (Slot)
open Xv6.Sched (Call)

/-- `struct sleeplock`, with the spinlock left to the kernel. -/
structure Sleeplock where
  locked : Bool
  pid : Word

/-- The statement that a process executes next in a function of the lock, as soon as what it has
    called returns. -/
inductive Point where
  | none
  -- acquiresleep: while (lk->locked), and the assignments
  | loop
  | setLocked
  | setPid
  -- releasesleep: the assignments, and the last call
  | clearLocked
  | clearPid
  | release
  -- holdingsleep
  | read
  deriving DecidableEq

/-- The kernel with the lock. `held` is what `holdingsleep` has returned last. A ghost: who is
    between the end of `acquiresleep` and `releasesleep`. -/
structure Sys (κ : Type) where
  kernel : Sched.Sys κ
  lock : Sleeplock
  point : Slot → Point
  held : Slot → Bool
  inside : Slot → Bool

/-- An action of the kernel, or of the process that runs on the processor: it calls a function of
    the lock, or goes on in one. -/
inductive Act (κ : Type) where
  | kernel (act : Sched.Act κ)
  | acquiresleep (c : κ)
  | releasesleep (c : κ)
  | holdingsleep (c : κ)
  | go (c : κ)

/-- The channel that a call sleeps on. -/
def sleepsOn : Call → Option ℕ
  | .sleep a _ => some a
  | _ => none

namespace Sys

variable {κ : Type} [DecidableEq κ] (a lk : ℕ)

omit [DecidableEq κ] in
/-- The process goes on at `x` when it gets there. -/
def setPoint (s : Sys κ) (p : Slot) (x : Point) : Sys κ :=
  { s with point := Function.update s.point p x }

omit [DecidableEq κ] in
def setInside (s : Sys κ) (p : Slot) (b : Bool) : Sys κ :=
  { s with inside := Function.update s.inside p b }

omit [DecidableEq κ] in
def setLock (s : Sys κ) (l : Sleeplock) : Sys κ := { s with lock := l }

omit [DecidableEq κ] in
/-- The process on the processor calls `f`, before it goes on at `x`. -/
def calls (s : Sys κ) (c : κ) (p : Slot) (f : Call) (x : Point) : Option (Sys κ) :=
  (s.kernel.call c f).map fun k => { s with kernel := k }.setPoint p x

omit [DecidableEq κ] in
/-- Anything else; who exits is no longer there to release the lock. -/
def other (s : Sys κ) (c : κ) (p : Slot) (f : Call) : Option (Sys κ) :=
  if s.point p = .none ∧ sleepsOn f ≠ some a then
    (if f = .exit then s.setInside p false else s).calls c p f .none
  else none

omit [DecidableEq κ] in
/-- The statements of the three functions. -/
def stmt (s : Sys κ) (c : κ) (p : Slot) : Point → Option (Sys κ)
  | .none => none
  | .loop => if s.lock.locked then s.calls c p (.sleep a lk) .loop else some (s.setPoint p .setLocked)
  | .setLocked => some ((s.setLock { s.lock with locked := true }).setPoint p .setPid)
  | .setPid =>
    ((s.setLock { s.lock with pid := (s.kernel.proc p).pid }).setInside p true).calls c p
      (.release lk) .none
  | .clearLocked => some ((s.setLock { s.lock with locked := false }).setPoint p .clearPid)
  | .clearPid => (s.setLock { s.lock with pid := 0 }).calls c p (.wakeup a) .release
  | .release => s.calls c p (.release lk) .none
  | .read =>
    { s with held := Function.update s.held p s.lock.locked }.calls c p (.release lk) .none

omit [DecidableEq κ] in
/-- What the process on the processor does between two calls. -/
def between (s : Sys κ) (c : κ) (f : Slot → Option (Sys κ)) : Option (Sys κ) :=
  (s.kernel.cpu c).thread.bind fun p => if (s.kernel.proc p).todo = [] then f p else none

/-- One action; only its holder may release the lock. -/
def next (s : Sys κ) : Act κ → Option (Sys κ)
  | .kernel (.call c f) => s.between c fun p => s.other a c p f
  | .kernel act => (s.kernel.next act).map fun k => { s with kernel := k }
  | .acquiresleep c =>
    s.between c fun p => if s.point p = .none then s.calls c p (.acquire lk) .loop else none
  | .releasesleep c =>
    s.between c fun p =>
      if s.point p = .none ∧ s.inside p then
        (s.setInside p false).calls c p (.acquire lk) .clearLocked
      else none
  | .holdingsleep c =>
    s.between c fun p => if s.point p = .none then s.calls c p (.acquire lk) .read else none
  | .go c => s.between c fun p => s.stmt a lk c p (s.point p)

/-- The step relation of the lock at `a` with the spinlock `lk`. -/
def Step (s : Sys κ) (act : Act κ) (t : Sys κ) : Prop := s.next a lk act = some t

omit [DecidableEq κ] in
/-- The lock after `initsleeplock`. -/
def boot : Sys κ where
  kernel := Sched.Sys.boot
  lock := ⟨false, 0⟩
  point := fun _ => .none
  held := fun _ => false
  inside := fun _ => false

end Sys

end Xv6.Sleep
