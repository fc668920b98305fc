import Xv6.Memory.Image

/-! @src proc.c exec.c vm.c file.c pipe.c kalloc.c | name:Everything that takes physical pages | layer:model

    The calls that take physical pages and give them back: `fork`, `exec`, `growproc`, `exit`,
    `wait`, and the ones on pipes. A call is one action. `copyout` is here with what `uva2ka` does
    about a missing page table: it reads the word at address 0 of the address space in use, and
    takes it for the entry. `none` is a panic, a page fault of the kernel included. -/

namespace Xv6.Memory
open Xv6.Schemes.X86 (Word)
open Xv6.Process (NPROC Slot ProcState Trapframe)

abbrev NOFILE : ℕ := 16
abbrev NFILE : ℕ := 100

/-! ### Files that exec reads -/

/-- The contents of a regular file. -/
structure Inode where
  size : Word
  data : ℕ → Byte

/-- `readi` of a regular file; `none` is -1. -/
def readi (ip : Inode) (off n : Word) : Option (List Byte) :=
  if off > ip.size ∨ off + n < off then none
  else
    let n := if off + n > ip.size then ip.size - off else n
    some ((List.range n.toNat).map fun k => ip.data (off.toNat + k))

/-- The word at the offset `o`. -/
def wordAt (bytes : List Byte) (o : ℕ) : Word :=
  bytes.getD (o + 3) 0 ++ bytes.getD (o + 2) 0 ++ bytes.getD (o + 1) 0 ++ bytes.getD o 0

/-- `readi(ip, dst, off, n) == n`. -/
def readAll (ip : Inode) (off n : Word) : Option (List Byte) :=
  (readi ip off n).filter fun bytes => bytes.length = n.toNat

abbrev ELF_MAGIC : Word := 0x464c457f
abbrev ELF_PROG_LOAD : Word := 1

/-- `struct elfhdr`, as far as `exec` uses it. -/
structure Elfhdr where
  entry : Word
  phoff : Word
  phnum : ℕ

/-- The ELF header, `none` if it cannot be read or has another magic number. -/
def elfhdr (ip : Inode) : Option Elfhdr :=
  (readAll ip 0 52).bind fun bytes =>
    if wordAt bytes 0 = ELF_MAGIC then
      some ⟨wordAt bytes 24, wordAt bytes 28, (wordAt bytes 44).toNat % 0x10000⟩
    else none

/-- The program header at `off`, with what `loaduvm` will read. -/
def proghdr (ip : Inode) (off : Word) : Option Proghdr :=
  (readAll ip off 32).map fun bytes =>
    let at_ (k : ℕ) : Word := wordAt bytes 4 + BitVec.ofNat 32 (k * PGSIZE)
    let filesz := wordAt bytes 16
    { load := wordAt bytes 0 = ELF_PROG_LOAD
      vaddr := wordAt bytes 8
      memsz := wordAt bytes 20
      filesz := filesz
      data := fun x => ip.data ((at_ (x / PGSIZE)).toNat + x % PGSIZE)
      readable := fun k =>
        (readAll ip (at_ k) (BitVec.ofNat 32 (min PGSIZE (filesz.toNat - k * PGSIZE)))).isSome }

/-- The program headers that the loop of `exec` reads. -/
def proghdrs (ip : Inode) (elf : Elfhdr) : List (Option Proghdr) :=
  (List.range elf.phnum).map fun i => proghdr ip (elf.phoff + BitVec.ofNat 32 (32 * i))

/-- What `exec` takes for the name of the program. -/
def basename : List Byte → List Byte → List Byte
  | last, [] => last
  | last, c :: s => if c = 0x2f then basename s s else basename last s

/-! ### The kernel -/

/-- What a `struct file` stands for; a pipe is known by the page it is in. -/
inductive FileType where
  | none
  | pipe (f : Frame) (writable : Bool)
  | inode (ip : ℕ)
  deriving DecidableEq

structure File where
  ref : ℕ
  type : FileType

/-- `struct pipe`, as far as `pipeclose` uses it. -/
structure Pipe where
  readopen : Bool
  writeopen : Bool

/-- `struct proc`; a `pid` is a number, which no run of less than 2^31 calls of `fork` can tell from
    an `int`. -/
structure Task where
  state : ProcState
  pid : ℕ
  parent : Option Slot
  kstack : Frame
  image : Proc
  tf : Trapframe
  name : List Byte
  ofile : Fin NOFILE → Option (Fin NFILE)
  cwd : Option ℕ

/-- The process table, the file table, the references to inodes and the locks on them, the
    operations of the log, the pipes, and the pages that the rest of the kernel has: boot stacks,
    and what calls in progress elsewhere have got. -/
structure Kernel where
  mem : Phys
  task : Slot → Task
  nextpid : ℕ
  file : Fin NFILE → File
  iref : ℕ → ℕ
  ilocked : ℕ → Bool
  ops : ℕ
  pipe : Frame → Option Pipe
  kept : List Frame

/-- The kernel mappings, the files and the paths to them. -/
structure World where
  kmap : List Kmap
  namei : Option ℕ → List Byte → Option ℕ
  inode : ℕ → Inode

/-- `kmap`, with the entry for the `vram` pages of video memory that `setupkvm` puts in; `data` is the
    first page of the kernel's data. -/
def kmap (data vram : ℕ) (pvram : Frame) : List Kmap :=
  [⟨0x80000, 0x100, 0, true⟩,
    ⟨0x80100, data - 0x80100, 0x100, false⟩,
    ⟨data, 0xa0000 - data, data - 0x80000, true⟩,
    ⟨0xfe000 - vram, vram, pvram, true⟩,
    ⟨0xc0000, 0x10000, 0x80000, true⟩,
    ⟨0xfe000, 0x2000, 0xfe000, true⟩]

/-- `initproc`. -/
abbrev init : Slot := 0

/-- A process that can make calls. -/
def Task.Live (r : Task) : Prop := r.state = .SLEEPING ∨ r.state = .RUNNABLE ∨ r.state = .RUNNING

instance (r : Task) : Decidable r.Live := inferInstanceAs (Decidable (_ ∨ _))

namespace Kernel

def setTask (s : Kernel) (p : Slot) (f : Task → Task) : Kernel :=
  { s with task := Function.update s.task p (f (s.task p)) }

def setFile (s : Kernel) (f : Fin NFILE) (x : File) : Kernel :=
  { s with file := Function.update s.file f x }

/-! ### log.c and fs.c -/

def begin_op (s : Kernel) : Kernel := { s with ops := s.ops + 1 }

def end_op (s : Kernel) : Kernel := { s with ops := s.ops - 1 }

def idup (s : Kernel) (ip : ℕ) : Kernel :=
  { s with iref := Function.update s.iref ip (s.iref ip + 1) }

def iput (s : Kernel) (ip : ℕ) : Kernel :=
  { s with iref := Function.update s.iref ip (s.iref ip - 1) }

/-- `ilock`, once nobody has the lock. -/
def ilock (s : Kernel) (ip : ℕ) : Option Kernel :=
  if s.ilocked ip then none else some { s with ilocked := Function.update s.ilocked ip true }

def iunlockput (s : Kernel) (ip : ℕ) : Kernel :=
  { s with ilocked := Function.update s.ilocked ip false }.iput ip

/-! ### pipe.c and file.c -/

/-- `pipeclose`. -/
def pipeclose (s : Kernel) (p : Frame) (writable : Bool) : Option Kernel :=
  (s.pipe p).map fun x =>
    let x := if writable then { x with writeopen := false } else { x with readopen := false }
    if x.readopen = false ∧ x.writeopen = false then
      { s with pipe := Function.update s.pipe p none, mem := kfree s.mem p }
    else { s with pipe := Function.update s.pipe p (some x) }

/-- `filealloc`. -/
def filealloc (s : Kernel) : Option (Fin NFILE × Kernel) :=
  ((List.finRange NFILE).find? fun f => (s.file f).ref = 0).map fun f =>
    (f, s.setFile f { s.file f with ref := 1 })

/-- `filedup`. -/
def filedup (s : Kernel) (f : Fin NFILE) : Option Kernel :=
  if (s.file f).ref < 1 then none
  else some (s.setFile f { s.file f with ref := (s.file f).ref + 1 })

/-- `fileclose`. -/
def fileclose (s : Kernel) (f : Fin NFILE) : Option Kernel :=
  let x := s.file f
  if x.ref < 1 then none
  else if x.ref - 1 > 0 then some (s.setFile f { x with ref := x.ref - 1 })
  else
    let s := s.setFile f ⟨0, .none⟩
    match x.type with
    | .none => some s
    | .pipe p writable => s.pipeclose p writable
    | .inode ip => some (s.begin_op.iput ip).end_op

/-- `pipealloc`: the two files, `none` for -1. -/
def pipealloc (s : Kernel) : Option (Option (Fin NFILE × Fin NFILE) × Kernel) :=
  match s.filealloc with
  | none => some (none, s)
  | some (f₀, s) =>
    match s.filealloc with
    | none => (s.fileclose f₀).map fun s => (none, s)
    | some (f₁, s) =>
      match kalloc s.mem with
      | none => (s.fileclose f₀).bind fun s => (s.fileclose f₁).map fun s => (none, s)
      | some (p, m) =>
        let s := { s with mem := m, pipe := Function.update s.pipe p (some ⟨true, true⟩) }
        let s := s.setFile f₀ { s.file f₀ with type := .pipe p false }
        let s := s.setFile f₁ { s.file f₁ with type := .pipe p true }
        some (some (f₀, f₁), s)

/-- `fdalloc`. -/
def fdalloc (s : Kernel) (p : Slot) (f : Fin NFILE) : Option (Fin NOFILE × Kernel) :=
  ((List.finRange NOFILE).find? fun fd => (s.task p).ofile fd = none).map fun fd =>
    (fd, s.setTask p fun r => { r with ofile := Function.update r.ofile fd (some f) })

def setFd (s : Kernel) (p : Slot) (fd : Fin NOFILE) (f : Option (Fin NFILE)) : Kernel :=
  s.setTask p fun r => { r with ofile := Function.update r.ofile fd f }

/-- `sys_pipe`, but for storing the two descriptors. -/
def sys_pipe (s : Kernel) (p : Slot) : Option (Word × Kernel) :=
  s.pipealloc.bind fun (fs, s) =>
    match fs with
    | none => some (-1, s)
    | some (rf, wf) =>
      match s.fdalloc p rf with
      | none => (s.fileclose rf).bind fun s => (s.fileclose wf).map fun s => (-1, s)
      | some (fd₀, s) =>
        match s.fdalloc p wf with
        | none =>
          let s := s.setFd p fd₀ none
          (s.fileclose rf).bind fun s => (s.fileclose wf).map fun s => (-1, s)
        | some (_, s) => some (0, s)

/-- `sys_dup`. -/
def sys_dup (s : Kernel) (p : Slot) (fd : Fin NOFILE) : Option (Word × Kernel) :=
  match (s.task p).ofile fd with
  | none => some (-1, s)
  | some f =>
    match s.fdalloc p f with
    | none => some (-1, s)
    | some (fd', s) => (s.filedup f).map fun s => (BitVec.ofNat 32 fd', s)

/-- `sys_close`. -/
def sys_close (s : Kernel) (p : Slot) (fd : Fin NOFILE) : Option (Word × Kernel) :=
  match (s.task p).ofile fd with
  | none => some (-1, s)
  | some f => ((s.setFd p fd none).fileclose f).map fun s => (0, s)

/-! ### proc.c -/

/-- `allocproc`. -/
def allocproc (s : Kernel) : Option Slot × Kernel :=
  match (List.finRange NPROC).find? fun p => (s.task p).state = .UNUSED with
  | none => (none, s)
  | some p =>
    let s := { s.setTask p fun r => { r with state := .EMBRYO, pid := s.nextpid } with
      nextpid := s.nextpid + 1 }
    match kalloc s.mem with
    | none => (none, s.setTask p fun r => { r with state := .UNUSED })
    | some (f, m) => (some p, { s with mem := m }.setTask p fun r => { r with kstack := f })

/-- The loop of `fork` over the open files. -/
def dupFiles (p np : Slot) : List (Fin NOFILE) → Kernel → Option Kernel
  | [], s => some s
  | i :: is, s =>
    match (s.task p).ofile i with
    | none => dupFiles p np is s
    | some f => (s.filedup f).bind fun s => dupFiles p np is (s.setFd np i (some f))

/-- `fork`. -/
def fork (w : World) (s : Kernel) (p : Slot) : Option (ℤ × Kernel) :=
  match s.allocproc with
  | (none, s) => some (-1, s)
  | (some np, s) =>
    let curproc := s.task p
    match copyuvm w.kmap s.mem curproc.image.pgdir curproc.image.sz with
    | none => none
    | some (none, m) =>
      some (-1, { s with mem := kfree m (s.task np).kstack }.setTask np fun r =>
        { r with state := .UNUSED })
    | some (some d, m) =>
      let s := { s with mem := m }.setTask np fun r =>
        { r with
          image := ⟨d, curproc.image.sz⟩
          parent := some p
          tf := { curproc.tf with eax := 0 } }
      (dupFiles p np (List.finRange NOFILE) s).bind fun s =>
        curproc.cwd.map fun ip =>
          ((s.task np).pid, (s.idup ip).setTask np fun r =>
            { r with cwd := some ip, name := curproc.name, state := .RUNNABLE })

/-- The loop of `exit` over the open files. -/
def closeFiles (p : Slot) : List (Fin NOFILE) → Kernel → Option Kernel
  | [], s => some s
  | fd :: fds, s =>
    match (s.task p).ofile fd with
    | none => closeFiles p fds s
    | some f => (s.fileclose f).bind fun s => closeFiles p fds (s.setFd p fd none)

/-- A child of a process that exits becomes one of init. -/
def orphan (p : Slot) (r : Task) : Task :=
  if r.parent = some p then { r with parent := some init } else r

/-- `exit`. -/
def exit (s : Kernel) (p : Slot) : Option Kernel :=
  if p = init then none
  else
    (closeFiles p (List.finRange NOFILE) s).bind fun s =>
      (s.task p).cwd.map fun ip =>
        let s := (s.begin_op.iput ip).end_op
        { s with task := fun q => orphan p (s.task q) }.setTask p fun r =>
          { r with cwd := none, state := .ZOMBIE }

/-- `wait`, as far as it returns a child; it goes on sleeping otherwise, or returns -1. -/
def wait (s : Kernel) (p : Slot) : Option (ℤ × Kernel) :=
  ((List.finRange NPROC).find? fun q =>
    (s.task q).parent = some p ∧ (s.task q).state = .ZOMBIE).map fun q =>
      let pid := (s.task q).pid
      let s := { s with mem := freevm (kfree s.mem (s.task q).kstack) (s.task q).image.pgdir }
      (pid, s.setTask q fun r =>
        { r with pid := 0, parent := none, name := [], state := .UNUSED })

end Kernel

/-! ### exec.c -/

/-- A word in memory as a page table entry. -/
def decodePte (w : Word) : Option Pte :=
  if w.getLsbD 0 then some ⟨w.toNat / PGSIZE, w.getLsbD 1, w.getLsbD 2⟩ else none

/-- Bytes written into a page that happens to be a page table change its entries. -/
def PageTable.poke (t : PageTable) (f : Frame) (o : ℕ) (bytes : List Byte) : PageTable :=
  if t.frame = f then
    { t with
      pte := fun j =>
        if o ≤ 4 * j ∧ 4 * j + 4 ≤ o + bytes.length then decodePte (wordAt bytes (4 * j - o))
        else t.pte j }
  else t

def Pgdir.poke (d : Pgdir) (f : Frame) (o : ℕ) (bytes : List Byte) : Pgdir :=
  { d with pde := fun i => (d.pde i).map fun t => t.poke f o bytes }

def Task.poke (r : Task) (f : Frame) (o : ℕ) (bytes : List Byte) : Task :=
  { r with image := { r.image with pgdir := r.image.pgdir.poke f o bytes } }

/-- What `uva2ka` returns: the null pointer, the page of a user address, or a page that the word at
    address 0 names. -/
inductive Ka where
  | null
  | user (e : Pte)
  | stray (e : Pte)

namespace Kernel

/-- Bytes written through the kernel mapping of a page, whatever the page is used for; a page
    directory is not followed. -/
def poke (s : Kernel) (f : Frame) (o : ℕ) (bytes : List Byte) : Kernel :=
  { s with
    mem := s.mem.write f o bytes
    task := fun q => (s.task q).poke f o bytes }

/-- The address space that the processor uses while the process is in the kernel. -/
def cr3 (s : Kernel) (p : Slot) : Pgdir := (s.task p).image.pgdir

/-- `uva2ka`. -/
def uva2ka (s : Kernel) (p : Slot) (d : Pgdir) (v : ℕ) : Option Ka :=
  match walkpgdir s.mem d v false with
  | some _ =>
    match d.get v with
    | some e => some (if e.u then .user e else .null)
    | none => some .null
  | none =>
    -- *pte, with a null pte
    (loadWord s.mem (s.cr3 p) 0).bind fun w =>
      if w.getLsbD 0 = false ∨ w.getLsbD 2 = false then some .null
      else
        let ka := (UPAGES + w.toNat / PGSIZE) % NPAGES
        if ka = 0 then some .null
        else (((s.cr3 p).get ka).filter fun e => e.w).map .stray

/-- The loop of `copyout`. -/
def copyLoopOut (p : Slot) : ℕ → Kernel → Pgdir → Word → List Byte →
    Option (Bool × Kernel × Pgdir)
  | 0, s, d, _, _ => some (true, s, d)
  | fuel + 1, s, d, va, buf =>
    if buf = [] then some (true, s, d)
    else
      let v := va.toNat / PGSIZE
      let o := va.toNat % PGSIZE
      let n := min (PGSIZE - o) buf.length
      let next := BitVec.ofNat 32 ((v + 1) * PGSIZE)
      match s.uva2ka p d v with
      | none => none
      | some .null => some (false, s, d)
      | some (.user e) =>
        copyLoopOut p fuel { s with mem := s.mem.write e.frame o (buf.take n) } d next (buf.drop n)
      | some (.stray e) =>
        copyLoopOut p fuel (s.poke e.frame o (buf.take n)) (d.poke e.frame o (buf.take n)) next
          (buf.drop n)

/-- `copyout`. -/
def copyout (p : Slot) (s : Kernel) (d : Pgdir) (va : Word) (buf : List Byte) :
    Option (Bool × Kernel × Pgdir) :=
  copyLoopOut p buf.length s d va buf

/-- The loop of `exec` over `argv`. -/
def pushArgs (p : Slot) : List (List Byte) → Word → List Word → Kernel → Pgdir →
    Option (Option (Word × List Word) × Kernel × Pgdir)
  | [], sp, ustack, s, d => some (some (sp, ustack), s, d)
  | arg :: argv, sp, ustack, s, d =>
    if ustack.length ≥ MAXARG then some (none, s, d)
    else
      let sp := (sp - BitVec.ofNat 32 (arg.length + 1)) &&& ~~~3
      match copyout p s d sp (arg ++ [0]) with
      | none => none
      | some (false, s, d) => some (none, s, d)
      | some (true, s, d) => pushArgs p argv sp (ustack ++ [sp]) s d

/-- `bad:` in `exec`. -/
def bad (s : Kernel) (pgdir : Option Pgdir) (ip : Option ℕ) : Word × Kernel :=
  let s := match pgdir with
    | some d => { s with mem := freevm s.mem d }
    | none => s
  match ip with
  | some ip => (-1, (s.iunlockput ip).end_op)
  | none => (-1, s)

/-- `exec` from the allocation of the stack on. -/
def execStack (s : Kernel) (p : Slot) (path : List Byte) (argv : List (List Byte)) (elf : Elfhdr)
    (d : Pgdir) (sz : Word) : Option (Word × Kernel) :=
  let sz := BitVec.ofNat 32 (pageUp sz * PGSIZE)
  match allocuvm s.mem d sz (sz + 2 * BitVec.ofNat 32 PGSIZE) with
  | none => none
  | some (sz, m, d) =>
    let s := { s with mem := m }
    if sz = 0 then some (s.bad (some d) none)
    else
      match clearpteu m d ((sz - 2 * BitVec.ofNat 32 PGSIZE).toNat / PGSIZE) with
      | none => none
      | some d =>
        match pushArgs p argv sz [] s d with
        | none => none
        | some (none, s, d) => some (s.bad (some d) none)
        | some (some (sp, args), s, d) =>
          let argc := BitVec.ofNat 32 args.length
          let ustack := [0xffffffff, argc, sp - (argc + 1) * 4] ++ args ++ [0]
          let sp := sp - (3 + argc + 1) * 4
          match copyout p s d sp (ustack.flatMap wordBytes) with
          | none => none
          | some (false, s, d) => some (s.bad (some d) none)
          | some (true, s, d) =>
            let oldpgdir := s.cr3 p
            let s := s.setTask p fun r =>
              { r with
                name := (basename path path).take 15
                image := ⟨d, sz⟩
                tf := { r.tf with eip := elf.entry, esp := sp } }
            some (0, { s with mem := freevm s.mem oldpgdir })

/-- `exec` from the reading of the file on, up to the closing of the operation. -/
def execLoad (w : World) (s : Kernel) (p : Slot) (path : List Byte) (argv : List (List Byte))
    (ip : ℕ) : Option (Word × Kernel) :=
  match elfhdr (w.inode ip) with
  | none => some (s.bad none (some ip))
  | some elf =>
    match setupkvm w.kmap s.mem with
    | none => none
    | some (none, m) => some ({ s with mem := m }.bad none (some ip))
    | some (some d, m) =>
      match loadImage (proghdrs (w.inode ip) elf) 0 m d with
      | none => none
      | some (none, m, d) => some ({ s with mem := m }.bad (some d) (some ip))
      | some (some sz, m, d) =>
        (({ s with mem := m }.iunlockput ip).end_op).execStack p path argv elf d sz

/-- `exec`. -/
def exec (w : World) (s : Kernel) (p : Slot) (path : List Byte) (argv : List (List Byte)) :
    Option (Word × Kernel) :=
  let s := s.begin_op
  match w.namei (s.task p).cwd path with
  | none => some (-1, s.end_op)
  | some ip => ((s.idup ip).ilock ip).bind fun s => s.execLoad w p path argv ip

end Kernel

/-! ### Runs -/

/-- A string in the memory of a process, as `fetchstr` accepts it. -/
def Fetched (m : Phys) (r : Proc) (str : List Byte) : Prop :=
  ∃ a : Word, a.toNat + str.length < r.sz.toNat ∧ 0 ∉ str ∧
    ∀ k, k ≤ str.length →
      load m r.pgdir (a + BitVec.ofNat 32 k) = some ((str ++ [0]).getD k 0)

/-- A process makes a call; user code of a process changes its memory; the rest of the kernel takes
    a page or gives one back. -/
inductive Call where
  | growproc (p : Slot) (n : Word)
  | fork (p : Slot)
  | exec (p : Slot) (path : List Byte) (argv : List (List Byte))
  | exit (p : Slot)
  | wait (p : Slot)
  | pipe (p : Slot)
  | dup (p : Slot) (fd : Fin NOFILE)
  | close (p : Slot) (fd : Fin NOFILE)
  | user (p : Slot) (page : Frame → Page)
  | take
  | give (f : Frame)

/-- The process that makes the call. -/
def Call.caller : Call → Option Slot
  | .growproc p _ | .fork p | .exec p _ _ | .exit p | .wait p | .pipe p | .dup p _ | .close p _
  | .user p _ => some p
  | .take | .give _ => none

namespace Kernel

/-- What a call does; `none` if it does not return. -/
def call (w : World) (s : Kernel) : Call → Option Kernel
  | .growproc p n => (growproc s.mem (s.task p).image n).map fun (_, m, r) =>
    { s with mem := m }.setTask p fun x => { x with image := r }
  | .fork p => (s.fork w p).map Prod.snd
  | .exec p path argv => (s.exec w p path argv).map Prod.snd
  | .exit p => s.exit p
  | .wait p => (s.wait p).map Prod.snd
  | .pipe p => (s.sys_pipe p).map Prod.snd
  | .dup p fd => (s.sys_dup p fd).map Prod.snd
  | .close p fd => (s.sys_close p fd).map Prod.snd
  | .user _ page => some { s with mem := { s.mem with page := page } }
  | .take => (kalloc s.mem).map fun (f, m) => { s with mem := m, kept := f :: s.kept }
  | .give f => if f ∈ s.kept then some { s with mem := kfree s.mem f, kept := s.kept.erase f }
    else none

/-- User code writes only pages that its process has mapped for writing. -/
def Writes (s : Kernel) (p : Slot) (page : Frame → Page) : Prop :=
  ∀ f, (∀ v e, (s.cr3 p).get v = some e → e.frame = f → ¬ (e.w = true ∧ e.u = true)) →
    page f = s.mem.page f

/-- The step relation: a live process calls, with strings from its memory, or its code runs. -/
structure Step (w : World) (s : Kernel) (a : Call) (t : Kernel) : Prop where
  live : ∀ p, a.caller = some p → (s.task p).Live
  args : ∀ p path argv, a = .exec p path argv →
    ∀ str ∈ path :: argv, Fetched s.mem (s.task p).image str
  writes : ∀ p page, a = .user p page → s.Writes p page
  next : s.call w a = some t

/-- A slot that is not in use. -/
def unused : Task where
  state := .UNUSED
  pid := 0
  parent := none
  kstack := 0
  image := ⟨⟨0, fun _ => none⟩, 0⟩
  tf := ⟨0, 0, 0, 0, 0, 0, 0, 0, false, false, 0⟩
  name := []
  ofile := fun _ => none
  cwd := none

/-- A kernel without processes. -/
def empty (m : Phys) : Kernel where
  mem := m
  task := fun _ => unused
  nextpid := 1
  file := fun _ => ⟨0, .none⟩
  iref := fun _ => 0
  ilocked := fun _ => false
  ops := 0
  pipe := fun _ => none
  kept := []

/-- `userinit`; `none` if the memory does not suffice for it. -/
def userinit (w : World) (m : Phys) (initcode : List Byte) : Option Kernel :=
  match (empty m).allocproc with
  | (none, _) => none
  | (some p, s) =>
    match setupkvm w.kmap s.mem with
    | some (some d, m) =>
      match kalloc m with
      | some (mem, m) =>
        match mappages true true 1 0 mem (m.memset mem 0) d with
        | some (true, m, d) =>
          (w.namei none [0x2f]).map fun root =>
            ({ s with mem := m.write mem 0 initcode }.idup root).setTask p fun r =>
              { r with
                image := ⟨d, BitVec.ofNat 32 PGSIZE⟩
                tf := { r.tf with esp := BitVec.ofNat 32 PGSIZE }
                cwd := some root
                state := .RUNNABLE }
        | _ => none
      | none => none
    | _ => none

end Kernel

end Xv6.Memory
