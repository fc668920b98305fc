import Xv6.Memory.PageTable
import Xv6.Process.Table

/-! @src exec.c vm.c proc.c syscall.c | name:User images | layer:model

    What builds, replaces, reads and drops user memory besides `growproc`: `userinit`, `fork`,
    `exec`, `wait`, and the checks on system call arguments. `none` is a panic; in `copyout` it is
    the null page table entry that `uva2ka` does not test for. -/

namespace Xv6.Memory
open Xv6.Schemes.X86 (Word)
open Xv6.Process (Slot)

abbrev MAXARG : ℕ := 32

/-! ### exec.c -/

/-- `struct proghdr`, as far as `exec` uses it; `data` are the bytes of the file from `off` on, and
    `readable k` says whether `readi` gets all bytes of the `k`-th page. -/
structure Proghdr where
  load : Bool
  vaddr : Word
  memsz : Word
  filesz : Word
  data : ℕ → Byte
  readable : ℕ → Bool

/-- The loop of `loaduvm`, at the `k`-th page of the segment. -/
def loadLoop (ph : Proghdr) (d : Pgdir) : ℕ → ℕ → Phys → Option (Bool × Phys)
  | 0, _, m => some (true, m)
  | fuel + 1, k, m =>
    if k * PGSIZE < ph.filesz.toNat then
      match d.get (ph.vaddr.toNat / PGSIZE + k) with
      | none => none
      | some pte =>
        let n := min PGSIZE (ph.filesz.toNat - k * PGSIZE)
        if ph.readable k then
          let bytes := (List.range n).map fun o => ph.data (k * PGSIZE + o)
          loadLoop ph d fuel (k + 1) (m.write pte.frame 0 bytes)
        else some (false, m)
    else some (true, m)

/-- The loop of `exec` over the program headers, `none` for one that cannot be read. The inner
    `none` is `goto bad`. -/
def loadImage : List (Option Proghdr) → Word → Phys → Pgdir →
    Option (Option Word × Phys × Pgdir)
  | [], sz, m, d => some (some sz, m, d)
  | none :: _, _, m, d => some (none, m, d)
  | some ph :: rest, sz, m, d =>
    if ¬ ph.load then loadImage rest sz m d
    else if ph.memsz < ph.filesz then some (none, m, d)
    else if ph.vaddr + ph.memsz < ph.vaddr then some (none, m, d)
    else
      match allocuvm m d sz (ph.vaddr + ph.memsz) with
      | none => none
      | some (sz, m, d) =>
        if sz = 0 then some (none, m, d)
        else if ph.vaddr.toNat % PGSIZE ≠ 0 then some (none, m, d)
        else
          match loadLoop ph d NPAGES 0 m with
          | none => none
          | some (false, m) => some (none, m, d)
          | some (true, m) => loadImage rest sz m d

/-- `clearpteu`. -/
def clearpteu (m : Phys) (d : Pgdir) (v : ℕ) : Option Pgdir :=
  match walkpgdir m d v false with
  | none => none
  | some _ => some (d.set v ((d.get v).map fun e => { e with u := false }))

/-- The loop of `copyout`, with the test of `uva2ka`. -/
def copyLoopOut (d : Pgdir) : ℕ → Phys → Word → List Byte → Option (Bool × Phys)
  | 0, m, _, _ => some (true, m)
  | fuel + 1, m, va, buf =>
    if buf = [] then some (true, m)
    else
      let v := va.toNat / PGSIZE
      match walkpgdir m d v false with
      | none => none
      | some _ =>
        match d.get v with
        | none => some (false, m)
        | some e =>
          if e.u then
            let n := min (PGSIZE - va.toNat % PGSIZE) buf.length
            copyLoopOut d fuel (m.write e.frame (va.toNat % PGSIZE) (buf.take n))
              (BitVec.ofNat 32 ((v + 1) * PGSIZE)) (buf.drop n)
          else some (false, m)

/-- `copyout`; every round copies a byte at least. -/
def copyout (m : Phys) (d : Pgdir) (va : Word) (buf : List Byte) : Option (Bool × Phys) :=
  copyLoopOut d buf.length m va buf

/-- The loop of `exec` over `argv`, with `ustack[3..]` so far. -/
def pushArgs (d : Pgdir) : List (List Byte) → Word → List Word → Phys →
    Option (Option (Word × List Word) × Phys)
  | [], sp, ustack, m => some (some (sp, ustack), m)
  | arg :: argv, sp, ustack, m =>
    if ustack.length ≥ MAXARG then some (none, m)
    else
      let sp := (sp - BitVec.ofNat 32 (arg.length + 1)) &&& ~~~3
      match copyout m d sp (arg ++ [0]) with
      | none => none
      | some (false, m) => some (none, m)
      | some (true, m) => pushArgs d argv sp (ustack ++ [sp]) m

/-- The bytes of a word in memory. -/
def wordBytes (w : Word) : List Byte :=
  (List.range 4).map fun k => (w >>> (8 * k)).setWidth 8

/-- `exec`, for a process: whether it returned 0, and what it leaves. `elf` are the program headers
    of a file that was found and has an ELF header. -/
def exec (kmap : List Kmap) (m : Phys) (p : Proc) (elf : Option (List (Option Proghdr)))
    (argv : List (List Byte)) : Option (Bool × Phys × Proc) :=
  match elf with
  | none => some (false, m, p)
  | some phs =>
    match setupkvm kmap m with
    | none => none
    | some (none, m) => some (false, m, p)
    | some (some d, m) =>
      match loadImage phs 0 m d with
      | none => none
      | some (none, m, d) => some (false, freevm m d, p)
      | some (some sz, m, d) =>
        let sz := BitVec.ofNat 32 (pageUp sz * PGSIZE)
        match allocuvm m d sz (sz + 2 * BitVec.ofNat 32 PGSIZE) with
        | none => none
        | some (sz, m, d) =>
          if sz = 0 then some (false, freevm m d, p)
          else
            match clearpteu m d ((sz - 2 * BitVec.ofNat 32 PGSIZE).toNat / PGSIZE) with
            | none => none
            | some d =>
              match pushArgs d argv sz [] m with
              | none => none
              | some (none, m) => some (false, freevm m d, p)
              | some (some (sp, args), m) =>
                let argc := BitVec.ofNat 32 args.length
                let ustack := [0xffffffff, argc, sp - (argc + 1) * 4] ++ args ++ [0]
                match copyout m d (sp - (3 + argc + 1) * 4) (ustack.flatMap wordBytes) with
                | none => none
                | some (false, m) => some (false, freevm m d, p)
                | some (true, m) => some (true, freevm m p.pgdir, ⟨d, sz⟩)

/-! ### System call arguments -/

/-- The kernel reads a byte at a user address; `none` is a page fault. -/
def load (m : Phys) (d : Pgdir) (a : Word) : Option Byte :=
  (d.get (a.toNat / PGSIZE)).map fun e => m.page e.frame (a.toNat % PGSIZE)

/-- `*(int*)addr`. -/
def loadWord (m : Phys) (d : Pgdir) (a : Word) : Option Word :=
  match load m d a, load m d (a + 1), load m d (a + 2), load m d (a + 3) with
  | some b₀, some b₁, some b₂, some b₃ => some (b₃ ++ b₂ ++ b₁ ++ b₀)
  | _, _, _, _ => none

/-- `fetchint`; the inner `none` is -1. -/
def fetchint (m : Phys) (p : Proc) (addr : Word) : Option (Option Word) :=
  if addr ≥ p.sz ∨ addr + 4 > p.sz then some none else (loadWord m p.pgdir addr).map some

/-- `argint`, with the user's `%esp`. -/
def argint (m : Phys) (p : Proc) (esp n : Word) : Option (Option Word) :=
  fetchint m p (esp + 4 + 4 * n)

/-- `argptr`. -/
def argptr (m : Phys) (p : Proc) (esp n size : Word) : Option (Option Word) :=
  match argint m p esp n with
  | none => none
  | some none => some none
  | some (some i) =>
    if size.toInt < 0 ∨ i ≥ p.sz ∨ i + size > p.sz then some none else some (some i)

/-! ### The processes -/

/-- The physical memory and the user memory of each process, and whether a panic has stopped the
    kernel. -/
structure Sys where
  mem : Phys
  proc : Slot → Option Proc
  panicked : Bool

/-- What happens to user memory: the calls of the kernel, with the slot of the process; a store of
    user code; and anything the rest of the kernel does to its own pages. -/
inductive Act where
  | growproc (p : Slot) (n : Word)
  | fork (p np : Slot)
  | exec (p : Slot) (elf : Option (List (Option Proghdr))) (argv : List (List Byte))
  | wait (p : Slot)
  | store (p : Slot) (a : Word) (b : Byte)
  | other (mem : Phys)

namespace Sys

/-- What the kernel, or the user code of a process, does; `none` if it cannot come next. -/
def call (kmap : List Kmap) (s : Sys) : Act → Option Sys
  | .growproc p n => (s.proc p).map fun r =>
    match Memory.growproc s.mem r n with
    | none => { s with panicked := true }
    | some (_, m, r) => { s with mem := m, proc := Function.update s.proc p (some r) }
  | .fork p np => (s.proc p).bind fun r =>
    match s.proc np with
    | some _ => none
    | none => some <|
      match copyuvm kmap s.mem r.pgdir r.sz with
      | none => { s with panicked := true }
      | some (none, m) => { s with mem := m }
      | some (some d, m) =>
        { s with mem := m, proc := Function.update s.proc np (some ⟨d, r.sz⟩) }
  | .exec p elf argv => (s.proc p).bind fun r =>
    (Memory.exec kmap s.mem r elf argv).map fun (_, m, r) =>
      { s with mem := m, proc := Function.update s.proc p (some r) }
  | .wait p => (s.proc p).map fun r =>
    { s with mem := freevm s.mem r.pgdir, proc := Function.update s.proc p none }
  | .store p a b => (s.proc p).bind fun r =>
    match r.pgdir.get (a.toNat / PGSIZE) with
    | some e =>
      if e.w ∧ e.u then some { s with mem := s.mem.write e.frame (a.toNat % PGSIZE) [b] } else none
    | none => none
  | .other _ => none

/-- Nothing happens any more after a panic. -/
def next (kmap : List Kmap) (s : Sys) (a : Act) : Option Sys :=
  if s.panicked then none else s.call kmap a

/-- The rest of the kernel leaves the pages of the processes alone. -/
structure Spares (s : Sys) (m : Phys) : Prop where
  nodup : m.freelist.Nodup
  used : ∀ p r, s.proc p = some r → ∀ f ∈ r.pgdir.frames, f ∉ m.freelist
  kept : ∀ p r, s.proc p = some r → ∀ f ∈ r.pgdir.frames, m.page f = s.mem.page f

/-- The step relation of user memory. -/
def Step (kmap : List Kmap) (s : Sys) (a : Act) (t : Sys) : Prop :=
  s.next kmap a = some t ∨ ∃ m, a = .other m ∧ s.Spares m ∧ t = { s with mem := m }

/-- `userinit`; `none` if the memory does not suffice for it. -/
def userinit (kmap : List Kmap) (m : Phys) (initcode : List Byte) : Option Sys :=
  match setupkvm kmap m with
  | some (some d, m) =>
    match kalloc m with
    | some (mem, m) =>
      match mappages true true 1 0 mem (m.memset mem 0) d with
      | some (true, m, d) =>
        let p : Proc := ⟨d, BitVec.ofNat 32 PGSIZE⟩
        some ⟨m.write mem 0 initcode, Function.update (fun _ => none) 0 (some p), false⟩
      | _ => none
    | none => none
  | _ => none

end Sys

end Xv6.Memory
