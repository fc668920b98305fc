import Mathlib.Data.Fintype.Basic
import Mathlib.Logic.Function.Basic

/-! @src file.c pipe.c sysfile.c proc.c | name:The file table and its users | layer:model

    The system calls of any number of processes that make and drop references to the file table,
    and the pipes behind it. A section under `ftable.lock` or under the lock of a pipe is one
    action; in between, a call is at one of the places of `Pc`, with its local variables, and has
    `work` to do first when it has called `fileclose`. Pages come from and go to the rest of the
    kernel. The number of a pipe, and what has been closed and freed, are ghosts. -/

namespace Xv6.Ftable

abbrev NOFILE : ℕ := 16
abbrev NFILE : ℕ := 100

/-- A file descriptor, and a pointer into `ftable.file`. -/
abbrev Fd : Type := Fin NOFILE
abbrev Ptr : Type := Fin NFILE

inductive FileType where
  | FD_NONE
  | FD_PIPE
  | FD_INODE
  deriving DecidableEq

/-- `struct file`; a pipe is known by the page it is in. -/
structure File (π : Type) where
  type : FileType
  ref : ℕ
  readable : Bool
  writable : Bool
  pipe : Option π
  ip : ℕ
  off : ℕ

/-- What a process has called that drops references: `fileclose`, what is left of it with the copy
    `ff`, and the `kfree` at the end of `pipeclose`. -/
inductive Work (π : Type) where
  | fileclose (f : Ptr)
  | last (ff : File π)
  | kfree (g : π)

/-- Where a process is in its system call. -/
inductive Pc (τ π : Type) where
  | out
  | openAlloc (ip : ℕ) (readable writable : Bool)
  | openFd (f : Ptr) (ip : ℕ) (readable writable : Bool)
  | openSet (f : Ptr) (ip : ℕ) (readable writable : Bool)
  | dup (f : Ptr)
  | pipeAlloc0
  | pipeAlloc1 (f0 : Ptr)
  | pipeKalloc (f0 f1 : Ptr)
  | pipeInit (f0 f1 : Ptr) (g : π)
  | pipeFd0 (rf wf : Ptr)
  | pipeFd1 (fd0 : Fd) (rf wf : Ptr)
  | io (f : Ptr) (g : π)
  | fork (np : τ) (fds : List Fd)
  | forkStore (np : τ) (fd : Fd) (f : Ptr) (fds : List Fd)
  | exit (fds : List Fd)
  | exitClear (fd : Fd) (fds : List Fd)

def Pc.isOut {τ π : Type} : Pc τ π → Bool
  | .out => true
  | _ => false

inductive Life where
  | UNUSED
  | EMBRYO
  | RUNNING
  | ZOMBIE
  deriving DecidableEq

structure Proc (τ π : Type) where
  life : Life
  ofile : Fd → Option Ptr
  pc : Pc τ π
  work : List (Work π)

/-- A page is free, in use elsewhere, taken for a pipe, or a pipe. -/
inductive Page where
  | free
  | other
  | taken
  | pipe (id : ℕ) (readopen writeopen : Bool)
  deriving DecidableEq

/-- `fault` is the use of a page for a pipe that it is not, or freeing a free page. -/
structure Sys (τ π : Type) where
  file : Ptr → File π
  page : π → Page
  proc : τ → Proc τ π
  panicked : Bool
  fault : Bool
  made : ℕ
  closed : List (ℕ × Bool)
  freed : List ℕ

/-- A process makes a system call, or goes on with its own (`k` is what `kalloc` returns if it calls
    that); a pipe is read or written once more; a zombie is reaped; the rest of the kernel takes a
    page or gives one back. -/
inductive Act (τ π : Type) where
  | open (p : τ) (ip : ℕ) (readable writable : Bool)
  | dup (p : τ) (fd : Fd)
  | close (p : τ) (fd : Fd)
  | pipe (p : τ)
  | rw (p : τ) (fd : Fd) (writing : Bool)
  | fork (p np : τ)
  | exit (p : τ)
  | run (p : τ) (k : Option π)
  | touch (p : τ)
  | wait (np : τ)
  | take (g : π)
  | give (g : π)

/-- `fdalloc`. -/
def fdalloc (o : Fd → Option Ptr) (f : Ptr) : Option (Fd × (Fd → Option Ptr)) :=
  ((List.finRange NOFILE).find? fun fd => o fd = none).map fun fd =>
    (fd, Function.update o fd (some f))

namespace Sys

variable {τ π : Type}

def setFile (s : Sys τ π) (f : Ptr) (x : File π) : Sys τ π :=
  { s with file := Function.update s.file f x }

/-- `filealloc`. -/
def filealloc (s : Sys τ π) : Option (Ptr × Sys τ π) :=
  ((List.finRange NFILE).find? fun f => (s.file f).ref = 0).map fun f =>
    (f, s.setFile f { s.file f with ref := 1 })

/-- `filedup`. -/
def filedup (s : Sys τ π) (f : Ptr) : Sys τ π :=
  if (s.file f).ref < 1 then { s with panicked := true }
  else s.setFile f { s.file f with ref := (s.file f).ref + 1 }

/-- The section of `fileclose`, and the copy `ff` of the last reference. -/
def drop (s : Sys τ π) (f : Ptr) : Sys τ π × Option (File π) :=
  if (s.file f).ref < 1 then ({ s with panicked := true }, none)
  else if (s.file f).ref - 1 > 0 then
    (s.setFile f { s.file f with ref := (s.file f).ref - 1 }, none)
  else (s.setFile f { s.file f with ref := 0, type := .FD_NONE }, some { s.file f with ref := 0 })

section

variable [DecidableEq τ]

def setProc (s : Sys τ π) (p : τ) (x : Proc τ π) : Sys τ π :=
  { s with proc := Function.update s.proc p x }

def goto (s : Sys τ π) (p : τ) (pc : Pc τ π) : Sys τ π := s.setProc p { s.proc p with pc := pc }

def todo (s : Sys τ π) (p : τ) (work : List (Work π)) : Sys τ π :=
  s.setProc p { s.proc p with work := work }

def setOfile (s : Sys τ π) (p : τ) (o : Fd → Option Ptr) : Sys τ π :=
  s.setProc p { s.proc p with ofile := o }

end

variable [DecidableEq π]

def setPage (s : Sys τ π) (g : π) (x : Page) : Sys τ π :=
  { s with page := Function.update s.page g x }

/-- The access of `piperead` or `pipewrite` to its pipe. -/
def access (s : Sys τ π) (g : π) : Sys τ π :=
  match s.page g with
  | .pipe _ _ _ => s
  | .free | .other | .taken => { s with fault := true }

/-- The section of `pipeclose`, and whether it is to free the page. -/
def pipeclose (s : Sys τ π) (g : π) (writable : Bool) : Sys τ π × Bool :=
  match s.page g with
  | .pipe id r w =>
    let r := if writable then r else false
    let w := if writable then false else w
    ({ s with closed := s.closed ++ [(id, writable)] }.setPage g (.pipe id r w), !r && !w)
  | .free | .other | .taken => ({ s with fault := true }, false)

/-- `kfree` of a page that was a pipe. -/
def kfree (s : Sys τ π) (g : π) : Sys τ π :=
  match s.page g with
  | .pipe id _ _ => { s with freed := s.freed ++ [id] }.setPage g .free
  | .free | .other | .taken => { s with fault := true }

/-- The body of `pipealloc` after `kalloc`. -/
def pipeinit (s : Sys τ π) (f0 f1 : Ptr) (g : π) : Sys τ π :=
  let s := { s with made := s.made + 1 }.setPage g (.pipe s.made true true)
  let s := s.setFile f0
    { s.file f0 with type := .FD_PIPE, readable := true, writable := false, pipe := some g }
  s.setFile f1
    { s.file f1 with type := .FD_PIPE, readable := false, writable := true, pipe := some g }

variable [DecidableEq τ]

/-- The process goes on with the first of its `work`. -/
def runWork (s : Sys τ π) (p : τ) (rest : List (Work π)) : Work π → Sys τ π
  | .fileclose f =>
    match s.drop f with
    | (s, none) => s.todo p rest
    | (s, some ff) => s.todo p (.last ff :: rest)
  | .last ff =>
    match ff.type, ff.pipe with
    | .FD_PIPE, some g =>
      match s.pipeclose g ff.writable with
      | (s, true) => s.todo p (.kfree g :: rest)
      | (s, false) => s.todo p rest
    | .FD_PIPE, none => { s with fault := true }
    | .FD_INODE, _ | .FD_NONE, _ => s.todo p rest
  | .kfree g => (s.kfree g).todo p rest

/-- The process goes on where it is; `none` if `kalloc` cannot return that. -/
def runPc (s : Sys τ π) (p : τ) (k : Option π) : Pc τ π → Option (Sys τ π)
  | .out => none
  | .openAlloc ip r w =>
    match s.filealloc with
    | none => some (s.goto p .out)
    | some (f, s) => some (s.goto p (.openFd f ip r w))
  | .openFd f ip r w =>
    match fdalloc (s.proc p).ofile f with
    | none => some ((s.todo p [.fileclose f]).goto p .out)
    | some (_, o) => some ((s.setOfile p o).goto p (.openSet f ip r w))
  | .openSet f ip r w =>
    some ((s.setFile f
      { s.file f with type := .FD_INODE, ip := ip, off := 0, readable := r, writable := w }).goto p .out)
  | .dup f => some ((s.filedup f).goto p .out)
  | .pipeAlloc0 =>
    match s.filealloc with
    | none => some (s.goto p .out)
    | some (f0, s) => some (s.goto p (.pipeAlloc1 f0))
  | .pipeAlloc1 f0 =>
    match s.filealloc with
    | none => some ((s.todo p [.fileclose f0]).goto p .out)
    | some (f1, s) => some (s.goto p (.pipeKalloc f0 f1))
  | .pipeKalloc f0 f1 =>
    match k with
    | none => some ((s.todo p [.fileclose f0, .fileclose f1]).goto p .out)
    | some g =>
      if s.page g = .free then some ((s.setPage g .taken).goto p (.pipeInit f0 f1 g)) else none
  | .pipeInit f0 f1 g => some ((s.pipeinit f0 f1 g).goto p (.pipeFd0 f0 f1))
  | .pipeFd0 rf wf =>
    match fdalloc (s.proc p).ofile rf with
    | none => some ((s.todo p [.fileclose rf, .fileclose wf]).goto p .out)
    | some (fd0, o) => some ((s.setOfile p o).goto p (.pipeFd1 fd0 rf wf))
  | .pipeFd1 fd0 rf wf =>
    match fdalloc (s.proc p).ofile wf with
    | none =>
      some (((s.setOfile p (Function.update (s.proc p).ofile fd0 none)).todo p
        [.fileclose rf, .fileclose wf]).goto p .out)
    | some (_, o) => some ((s.setOfile p o).goto p .out)
  | .io _ g => some ((s.access g).goto p .out)
  | .fork np [] => some ((s.setProc np { s.proc np with life := .RUNNING }).goto p .out)
  | .fork np (fd :: fds) =>
    match (s.proc p).ofile fd with
    | none => some (s.goto p (.fork np fds))
    | some f => some ((s.filedup f).goto p (.forkStore np fd f fds))
  | .forkStore np fd f fds =>
    some ((s.setOfile np (Function.update (s.proc np).ofile fd (some f))).goto p (.fork np fds))
  | .exit [] => some (s.setProc p { s.proc p with life := .ZOMBIE, pc := .out })
  | .exit (fd :: fds) =>
    match (s.proc p).ofile fd with
    | none => some (s.goto p (.exit fds))
    | some f =>
      match s.drop f with
      | (s, none) => some (s.goto p (.exitClear fd fds))
      | (s, some ff) => some ((s.todo p [.last ff]).goto p (.exitClear fd fds))
  | .exitClear fd fds =>
    some ((s.setOfile p (Function.update (s.proc p).ofile fd none)).goto p (.exit fds))

/-- The process is in user mode, and can make a system call. -/
def Ready (s : Sys τ π) (p : τ) : Prop :=
  (s.proc p).life = .RUNNING ∧ (s.proc p).pc.isOut = true ∧ (s.proc p).work.isEmpty = true

instance (s : Sys τ π) (p : τ) : Decidable (s.Ready p) :=
  inferInstanceAs (Decidable (_ ∧ _ ∧ _))

/-- A system call up to its first section: a result at once, or where it goes on. -/
def call (s : Sys τ π) (p : τ) : Act τ π → Option (Sys τ π)
  | .open _ ip r w => some (s.goto p (.openAlloc ip r w))
  | .dup _ fd =>
    match (s.proc p).ofile fd with
    | none => some s
    | some f =>
      match fdalloc (s.proc p).ofile f with
      | none => some s
      | some (_, o) => some ((s.setOfile p o).goto p (.dup f))
  | .close _ fd =>
    match (s.proc p).ofile fd with
    | none => some s
    | some f =>
      some ((s.setOfile p (Function.update (s.proc p).ofile fd none)).todo p [.fileclose f])
  | .pipe _ => some (s.goto p .pipeAlloc0)
  | .rw _ fd writing =>
    match (s.proc p).ofile fd with
    | none => some s
    | some f =>
      if (if writing then (s.file f).writable else (s.file f).readable) = false then some s
      else
        match (s.file f).type, (s.file f).pipe with
        | .FD_PIPE, some g => some (s.goto p (.io f g))
        | .FD_PIPE, none => some { s with fault := true }
        | .FD_INODE, _ => some s
        | .FD_NONE, _ => some { s with panicked := true }
  | .fork _ np =>
    if (s.proc np).life = .UNUSED then
      some ((s.setProc np { s.proc np with life := .EMBRYO }).goto p (.fork np (List.finRange NOFILE)))
    else none
  | .exit _ => some (s.goto p (.exit (List.finRange NOFILE)))
  | .run _ _ | .touch _ | .wait _ | .take _ | .give _ => none

/-- One action; `none` if it cannot come next. -/
def next (s : Sys τ π) (a : Act τ π) : Option (Sys τ π) :=
  if s.panicked then none
  else
    match a with
    | .run p k =>
      match (s.proc p).work with
      | w :: rest => some (s.runWork p rest w)
      | [] => s.runPc p k (s.proc p).pc
    | .touch p =>
      match (s.proc p).work, (s.proc p).pc with
      | [], .io _ g => some (s.access g)
      | _, _ => none
    | .wait np =>
      if (s.proc np).life = .ZOMBIE then
        some (s.setProc np { s.proc np with life := .UNUSED })
      else none
    | .take g => if s.page g = .free then some (s.setPage g .other) else none
    | .give g => if s.page g = .other then some (s.setPage g .free) else none
    | .open p _ _ _ | .dup p _ | .close p _ | .pipe p | .rw p _ _ | .fork p _ | .exit p =>
      if s.Ready p then s.call p a else none

/-- The step relation of the file table. -/
def Step (s : Sys τ π) (a : Act τ π) (t : Sys τ π) : Prop := s.next a = some t

omit [DecidableEq π] in
/-- No file is open, and `p` is the first process. -/
def boot (p : τ) (free : π → Bool) : Sys τ π where
  file := fun _ => ⟨.FD_NONE, 0, false, false, none, 0, 0⟩
  page := fun g => if free g then .free else .other
  proc := fun q => ⟨if q = p then .RUNNING else .UNUSED, fun _ => none, .out, []⟩
  panicked := false
  fault := false
  made := 0
  closed := []
  freed := []

end Sys

end Xv6.Ftable
