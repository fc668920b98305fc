import Xv6.Fs.Layout
import Xv6.Schemes.Program

/-! @src bio.c log.c fs.c file.c file.h proc.h | name:The state of the file system and its operations | layer:model

    The blocks as the buffer cache shows them, the inode cache, the file table and what a process has
    of them. An operation is what the kernel does under one spin lock, or one access to what a sleep
    lock protects. -/

namespace Xv6.Fs
open Xv6.Disk Xv6.Schemes

abbrev Ip : Type := Fin NINODE

abbrev Fp : Type := Fin NFILE

abbrev Fd : Type := Fin NOFILE

/-- What an entry of the inode cache says of its inode. -/
structure Copy where
  dev : ℕ
  inum : ℕ
  valid : Bool
  d : Dinode

/-- `struct inode`. -/
structure Inode (τ : Type) extends Copy where
  ref : ℤ
  lock : Option τ

inductive FileType where
  | FD_NONE
  | FD_PIPE
  | FD_INODE
  deriving DecidableEq

/-- `struct file`, the pipe apart. -/
structure File where
  type : FileType
  ref : ℤ
  readable : Bool
  writable : Bool
  ip : Ip
  off : ℕ

/-- A block that `bread` is called with: a number, or where the macros find an inode or the bit of a
    block. -/
inductive Loc where
  | block (b : ℕ)
  | inode (inum : ℕ)
  | bitmap (b : ℕ)

def Loc.at (sb : Superblock) : Loc → ℕ
  | .block b => b
  | .inode inum => sb.IBLOCK inum
  | .bitmap b => sb.BBLOCK b

inductive Op where
  | panic (msg : String)
  | beginOp
  | endOp
  | getSb
  | setSb (sb : Superblock)
  | bread (l : Loc)
  | setData (n : ℕ) (b : Block)
  | logWrite (n : ℕ)
  | brelse (n : ℕ)
  | iget (dev inum : ℕ)
  | idup (ip : Ip)
  | acquiresleep (ip : Ip)
  | releasesleep (ip : Ip)
  | holdingsleep (ip : Ip)
  | ref (ip : Ip)
  | decref (ip : Ip)
  | get (ip : Ip)
  | modify (ip : Ip) (f : Dinode → Dinode)
  | setValid (ip : Ip) (v : Bool)
  | cwd
  | setCwd (ip : Option Ip)
  | filealloc
  | fileDrop (f : Fp)
  | file (f : Fp)
  | setFile (f : Fp) (ip : Ip) (readable writable : Bool)
  | setOff (f : Fp) (off : ℕ)
  | fdalloc (f : Fp)
  | input

/-- The answer of an operation. -/
abbrev Ans : Op → Type
  | .panic _ => Empty
  | .getSb => Superblock
  | .bread _ => ℕ × Block
  | .iget _ _ => Ip
  | .holdingsleep _ => Bool
  | .ref _ => ℤ
  | .get _ => Copy
  | .cwd => Option Ip
  | .filealloc => Option Fp
  | .fileDrop _ => Option File
  | .file _ => File
  | .fdalloc _ => Option Fd
  | .input => Option (List UInt8)
  | _ => Unit

/-- The file system, as all processes see it. -/
structure Sys (τ : Type) where
  sb : Superblock
  disksize : ℕ
  blk : ℕ → Block
  buf : ℕ → Option τ
  inode : Ip → Inode τ
  file : Fp → File
  ofile : τ → Fd → Option Fp
  cwd : τ → Option Ip
  outstanding : ℕ

namespace Sys

variable {τ : Type}

def setBlk (s : Sys τ) (n : ℕ) (b : Block) : Sys τ := { s with blk := Function.update s.blk n b }

def setInode (s : Sys τ) (ip : Ip) (x : Inode τ) : Sys τ :=
  { s with inode := Function.update s.inode ip x }

def setFile (s : Sys τ) (f : Fp) (x : File) : Sys τ :=
  { s with file := Function.update s.file f x }

/-- The in-memory copy of the inode is changed. -/
def setD (s : Sys τ) (ip : Ip) (d : Dinode) : Sys τ := s.setInode ip { s.inode ip with d := d }

def setRef (s : Sys τ) (ip : Ip) (r : ℤ) : Sys τ := s.setInode ip { s.inode ip with ref := r }

def setLock (s : Sys τ) (ip : Ip) (p : Option τ) : Sys τ :=
  s.setInode ip { s.inode ip with lock := p }

/-- The entry that `iget` finds, or the one that it recycles. -/
def cached (s : Sys τ) (dev inum : ℕ) : Option Ip :=
  (List.finRange NINODE).find? fun ip =>
    0 < (s.inode ip).ref ∧ (s.inode ip).dev = dev ∧ (s.inode ip).inum = inum

def empty (s : Sys τ) : Option Ip := (List.finRange NINODE).find? fun ip => (s.inode ip).ref = 0

/-- The section of `iget`. -/
def iget (s : Sys τ) (dev inum : ℕ) : Outcome (Ip × Sys τ) :=
  match s.cached dev inum with
  | some ip => .ok (ip, s.setRef ip ((s.inode ip).ref + 1))
  | none =>
    match s.empty with
    | some ip =>
      .ok (ip, s.setInode ip
        { s.inode ip with dev := dev, inum := inum, ref := 1, valid := false })
    | none => .error (.panic "iget: no inodes")

/-- The section of `filealloc`. -/
def filealloc (s : Sys τ) : Option Fp × Sys τ :=
  match (List.finRange NFILE).find? fun f => (s.file f).ref = 0 with
  | some f => (some f, s.setFile f { s.file f with ref := 1 })
  | none => (none, s)

/-- The section of `fileclose`; what it leaves to close is the answer. -/
def fileDrop (s : Sys τ) (f : Fp) : Outcome (Option File × Sys τ) :=
  if (s.file f).ref < 1 then .error (.panic "fileclose")
  else if 0 < (s.file f).ref - 1 then
    .ok (none, s.setFile f { s.file f with ref := (s.file f).ref - 1 })
  else .ok (some (s.file f), s.setFile f { s.file f with ref := 0, type := .FD_NONE })

variable [DecidableEq τ]

/-- `fdalloc`: the lowest free descriptor. -/
def fdalloc (s : Sys τ) (p : τ) (f : Fp) : Option Fd × Sys τ :=
  match (List.finRange NOFILE).find? fun fd => s.ofile p fd = none with
  | some fd => (some fd, { s with
      ofile := Function.update s.ofile p (Function.update (s.ofile p) fd (some f)) })
  | none => (none, s)

/-- What an operation of process `p` does, where `x` comes from a device. -/
def act (p : τ) (x : Option (List UInt8)) : Machine Op Ans (Sys τ)
  | .panic msg, _ => .error (.panic msg)
  | .beginOp, s => .ok ((), { s with outstanding := s.outstanding + 1 })
  | .endOp, s => .ok ((), { s with outstanding := s.outstanding - 1 })
  | .getSb, s => .ok (s.sb, s)
  | .setSb sb, s => .ok ((), { s with sb := sb })
  | .bread l, s =>
    if s.disksize ≤ l.at s.sb then .error (.panic "incorrect blockno")
    else if (s.buf (l.at s.sb)).isSome then .error .blocked
    else .ok ((l.at s.sb, s.blk (l.at s.sb)),
      { s with buf := Function.update s.buf (l.at s.sb) (some p) })
  | .setData n b, s => .ok ((), s.setBlk n b)
  | .logWrite _, s =>
    if s.outstanding < 1 then .error (.panic "log_write outside of trans") else .ok ((), s)
  | .brelse n, s =>
    if s.buf n = some p then .ok ((), { s with buf := Function.update s.buf n none })
    else .error (.panic "brelse")
  | .iget dev inum, s => s.iget dev inum
  | .idup ip, s => .ok ((), s.setRef ip ((s.inode ip).ref + 1))
  | .acquiresleep ip, s =>
    if (s.inode ip).lock.isSome then .error .blocked else .ok ((), s.setLock ip (some p))
  | .releasesleep ip, s => .ok ((), s.setLock ip none)
  | .holdingsleep ip, s => .ok (decide ((s.inode ip).lock = some p), s)
  | .ref ip, s => .ok ((s.inode ip).ref, s)
  | .decref ip, s => .ok ((), s.setRef ip ((s.inode ip).ref - 1))
  | .get ip, s => .ok ((s.inode ip).toCopy, s)
  | .modify ip f, s => .ok ((), s.setD ip (f (s.inode ip).d))
  | .setValid ip v, s => .ok ((), s.setInode ip { s.inode ip with valid := v })
  | .cwd, s => .ok (s.cwd p, s)
  | .setCwd ip, s => .ok ((), { s with cwd := Function.update s.cwd p ip })
  | .filealloc, s => .ok s.filealloc
  | .fileDrop f, s => s.fileDrop f
  | .file f, s => .ok (s.file f, s)
  | .setFile f ip readable writable, s =>
    .ok ((), s.setFile f { s.file f with
      type := .FD_INODE, ip := ip, off := 0, readable := readable, writable := writable })
  | .setOff f off, s => .ok ((), s.setFile f { s.file f with off := off })
  | .fdalloc f, s => .ok (s.fdalloc p f)
  | .input, s => .ok (x, s)

end Sys

end Xv6.Fs
