import Xv6.Ftable.Table
import Xv6.Shell.Parser

/-! @src sh.c sysfile.c proc.c | name:Running a command line | layer:model

    `runcmd` is the list of the system calls it makes, with what the child of a `fork1` does beside
    what its parent goes on with. The processes of a command line take their steps in any order. The
    kernel may fail a call. A pipe is known by its number, and for each the node of the tree that has
    made it is kept. -/

namespace Xv6.Shell
open Xv6.Ftable (NOFILE Fd)

/-- What a descriptor is: open from the start, a file of a redirection, or an end of a pipe. -/
inductive Desc where
  | given (n : ℕ)
  | file (file efile mode : ℕ)
  | pipe (id : ℕ) (writable : Bool)
  deriving DecidableEq

/-- `ofile` of a process. -/
abbrev Fds : Type := Fd → Option Desc

namespace Fds

/-- `fdalloc`. -/
def alloc (o : Fds) (d : Desc) : Option (Fd × Fds) :=
  ((List.finRange NOFILE).find? fun fd => o fd = none).map fun fd => (fd, Function.update o fd (some d))

/-- `argfd`. -/
def get (o : Fds) (fd : ℕ) : Option Desc := if h : fd < NOFILE then o ⟨fd, h⟩ else none

/-- `close`. -/
def close (o : Fds) (fd : ℕ) : Fds := if h : fd < NOFILE then Function.update o ⟨fd, h⟩ none else o

/-- `dup`; nobody looks at its result. -/
def dup (o : Fds) (fd : ℕ) : Fds :=
  match o.get fd with
  | none => o
  | some d =>
    match o.alloc d with
    | none => o
    | some (_, o) => o

/-- `pipe`, for the pipe `id`. -/
def pipe (o : Fds) (id : ℕ) : Option ((ℕ × ℕ) × Fds) := do
  let (fd0, o) ← o.alloc (.pipe id false)
  let (fd1, o) ← o.alloc (.pipe id true)
  some ((fd0, fd1), o)

end Fds

/-- A node of the tree of a command: where it goes to the right. -/
abbrev Path : Type := List Bool

/-- What a shell process has to do. `dupEnd` and `closeEnd` are about `p[0]` or `p[1]`. -/
inductive Code where
  | exit
  | exec (argv : List (ℕ × ℕ))
  | close (fd : ℕ) (k : Code)
  | open (file efile mode : ℕ) (k : Code)
  | fork (child k : Code)
  | wait (k : Code)
  | pipe (node : Path) (k : Code)
  | dupEnd (w : Bool) (k : Code)
  | closeEnd (w : Bool) (k : Code)
  deriving DecidableEq

/-- `runcmd`, at a node. -/
def runcmd : Path → Cmd → Code
  | _, .exec [] => .exit
  | _, .exec argv => .exec argv
  | π, .redir cmd file efile mode fd => .close fd (.open file efile mode (runcmd π cmd))
  | π, .list left right => .fork (runcmd (false :: π) left) (.wait (runcmd (true :: π) right))
  | π, .pipe left right =>
    .pipe π
      (.fork (.close 1 (.dupEnd true (.closeEnd false (.closeEnd true (runcmd (false :: π) left)))))
      (.fork (.close 0 (.dupEnd false (.closeEnd false (.closeEnd true (runcmd (true :: π) right)))))
      (.closeEnd false (.closeEnd true (.wait (.wait .exit))))))
  | π, .back cmd => .fork (runcmd π cmd) .exit

/-- A process runs the shell, has run `exec`, or has exited. -/
inductive Stage where
  | shell (code : Code)
  | program
  | zombie
  deriving DecidableEq

structure Task where
  pid : ℕ
  parent : ℕ
  stage : Stage
  fds : Fds
  p : ℕ × ℕ

/-- An `exec` that has succeeded, and the descriptors the program has got. -/
structure Started where
  argv : List (ℕ × ℕ)
  fds : Fds

structure Procs where
  tasks : List Task
  nextpid : ℕ
  made : List Path
  started : List Started

/-- The process at place `i` goes on. The kernel may `fail` the call; a `wait` reaps the process at
    place `j`. -/
structure Turn where
  i : ℕ
  fail : Bool
  j : ℕ

def INIT : ℕ := 1

/-- `p[1]` or `p[0]`. -/
def Task.end (t : Task) (w : Bool) : ℕ := if w then t.p.2 else t.p.1

namespace Procs

def set (s : Procs) (i : ℕ) (t : Task) : Procs := { s with tasks := s.tasks.set i t }

/-- `exit`. -/
def exit (s : Procs) (i : ℕ) (t : Task) : Procs :=
  { s with tasks := (s.tasks.set i { t with stage := .zombie, fds := fun _ => none }).map fun c =>
      if c.parent = t.pid then { c with parent := INIT } else c }

/-- A process has this child. -/
def HasChild (s : Procs) (t : Task) : Prop := ∃ c ∈ s.tasks, c.parent = t.pid

instance (s : Procs) (t : Task) : Decidable (s.HasChild t) :=
  inferInstanceAs (Decidable (∃ c ∈ s.tasks, _))

/-- What the shell does next; `none` if it has to wait. -/
def call (s : Procs) (a : Turn) (t : Task) : Code → Option Procs
  | .exit => some (s.exit a.i t)
  | .exec argv =>
    if a.fail then some (s.set a.i { t with stage := .shell .exit })
    else some { s.set a.i { t with stage := .program } with started := s.started ++ [⟨argv, t.fds⟩] }
  | .close fd k => some (s.set a.i { t with stage := .shell k, fds := t.fds.close fd })
  | .open file efile mode k =>
    match if a.fail then none else t.fds.alloc (.file file efile mode) with
    | none => some (s.set a.i { t with stage := .shell .exit })
    | some (_, fds) => some (s.set a.i { t with stage := .shell k, fds := fds })
  | .fork child k =>
    if a.fail then some (s.set a.i { t with stage := .shell .exit })
    else
      let c : Task := { t with pid := s.nextpid, parent := t.pid, stage := .shell child }
      some { s with
        tasks := s.tasks.set a.i { t with stage := .shell k } ++ [c]
        nextpid := s.nextpid + 1 }
  | .wait k =>
    match s.tasks[a.j]? with
    | none => if s.HasChild t then none else some (s.set a.i { t with stage := .shell k })
    | some z =>
      if z.parent = t.pid ∧ z.stage = .zombie ∧ a.i ≠ a.j then
        some { s with tasks := (s.tasks.set a.i { t with stage := .shell k }).eraseIdx a.j }
      else none
  | .pipe node k =>
    match if a.fail then none else t.fds.pipe s.made.length with
    | none => some (s.set a.i { t with stage := .shell .exit })
    | some (p, fds) =>
      some { s.set a.i { t with stage := .shell k, fds := fds, p := p } with made := s.made ++ [node] }
  | .dupEnd w k => some (s.set a.i { t with stage := .shell k, fds := t.fds.dup (t.end w) })
  | .closeEnd w k => some (s.set a.i { t with stage := .shell k, fds := t.fds.close (t.end w) })

/-- One turn; a program may exit at any time, and init reaps what is its own. -/
def next (s : Procs) (a : Turn) : Option Procs :=
  match s.tasks[a.i]? with
  | none => none
  | some t =>
    match t.stage with
    | .shell code => s.call a t code
    | .program => some (s.exit a.i t)
    | .zombie => if t.parent = INIT then some { s with tasks := s.tasks.eraseIdx a.i } else none

def Step (s : Procs) (a : Turn) (t : Procs) : Prop := s.next a = some t

/-- The child that `main` has forked for a command line. -/
def start (pid parent : ℕ) (fds : Fds) (cmd : Cmd) : Procs where
  tasks := [⟨pid, parent, .shell (runcmd [] cmd), fds, (0, 0)⟩]
  nextpid := pid + 1
  made := []
  started := []

end Procs

end Xv6.Shell
