import Xv6.Schemes.X86
import Mathlib.Data.Set.Defs
import Mathlib.Logic.Function.Basic

/-! @src vm.c kalloc.c proc.c mmu.h | name:Page tables and physical pages | layer:model

    Two-level page tables as trees, over a free list of physical pages. Virtual addresses of pages
    are page numbers, `a / PGSIZE`, so that the loops over `a` count by one; a loop stops at the
    latest after all pages of the address space. `none` is a panic. -/

namespace Xv6.Memory
open Xv6.Schemes.X86 (Word)

abbrev PGSIZE : ℕ := 4096
abbrev NPTENTRIES : ℕ := 1024
abbrev NPDENTRIES : ℕ := 1024

/-- All pages of the address space. -/
abbrev NPAGES : ℕ := 0x100000

/-- The pages below `KERNBASE`. -/
abbrev UPAGES : ℕ := 0x80000

def KERNBASE : Word := 0x80000000

theorem KERNBASE_eq : KERNBASE.toNat = UPAGES * PGSIZE := rfl

/-- A physical page; the ones on the free list pass the checks of `kfree`. -/
abbrev Frame := ℕ

abbrev Byte := BitVec 8

/-- The contents of a page, by offset. -/
abbrev Page := ℕ → Byte

/-- `PGROUNDUP(x) / PGSIZE`. -/
def pageUp (x : Word) : ℕ := (x + 0xfff).toNat / PGSIZE

def PDX (v : ℕ) : ℕ := v / NPTENTRIES
def PTX (v : ℕ) : ℕ := v % NPTENTRIES

/-! ### kalloc.c -/

/-- `kmem.freelist` and the contents of the pages. -/
structure Phys where
  freelist : List Frame
  page : Frame → Page

/-- `memset`, of a whole page. -/
def Phys.memset (m : Phys) (f : Frame) (b : Byte) : Phys :=
  { m with page := Function.update m.page f fun _ => b }

/-- `memmove`, of a whole page. -/
def Phys.memmove (m : Phys) (dst src : Frame) : Phys :=
  { m with page := Function.update m.page dst (m.page src) }

/-- Bytes written into a page from the offset `o` on. -/
def Phys.write (m : Phys) (f : Frame) (o : ℕ) (bytes : List Byte) : Phys :=
  { m with
    page := Function.update m.page f fun x =>
      if o ≤ x then bytes.getD (x - o) (m.page f x) else m.page f x }

/-- `kalloc`; `none` is the null pointer. -/
def kalloc (m : Phys) : Option (Frame × Phys) :=
  match m.freelist with
  | r :: next => some (r, { m with freelist := next })
  | [] => none

/-- `kfree`. -/
def kfree (m : Phys) (v : Frame) : Phys :=
  let m := m.memset v 1
  { m with freelist := v :: m.freelist }

/-! ### Page tables -/

/-- A present page table entry: `PTE_ADDR`, `PTE_W` and `PTE_U`. -/
structure Pte where
  frame : Frame
  w : Bool
  u : Bool
  deriving DecidableEq

/-- A page table page. -/
structure PageTable where
  frame : Frame
  pte : ℕ → Option Pte

/-- A page directory; the present entries hold the page tables. -/
structure Pgdir where
  frame : Frame
  pde : ℕ → Option PageTable

namespace Pgdir

/-- The entry of a page, if it and its page table are present. -/
def get (d : Pgdir) (v : ℕ) : Option Pte := (d.pde (PDX v)).bind fun t => t.pte (PTX v)

/-- `*pte = e`, where `walkpgdir` has found the page table. -/
def set (d : Pgdir) (v : ℕ) (e : Option Pte) : Pgdir :=
  { d with
    pde := Function.update d.pde (PDX v)
      ((d.pde (PDX v)).map fun t => { t with pte := Function.update t.pte (PTX v) e }) }

end Pgdir

/-- What an address space needs physical pages for. -/
inductive Part where
  | dir
  | table (i : ℕ)
  | page (v : ℕ)
  deriving DecidableEq

/-- The pages an address space holds; the kernel half maps pages it does not hold. -/
def Pgdir.holds (d : Pgdir) : Part → Option Frame
  | .dir => some d.frame
  | .table i => (d.pde i).map PageTable.frame
  | .page v => if v < UPAGES then (d.get v).map Pte.frame else none

/-- The physical pages of an address space. -/
def Pgdir.frames (d : Pgdir) : Set Frame := {f | ∃ i, d.holds i = some f}

/-- `walkpgdir`; `none` is the null pointer. -/
def walkpgdir (m : Phys) (d : Pgdir) (v : ℕ) (alloc : Bool) : Option (Phys × Pgdir) :=
  match d.pde (PDX v) with
  | some _ => some (m, d)
  | none =>
    if alloc then
      match kalloc m with
      | none => none
      | some (pgtab, m) =>
        some (m.memset pgtab 0,
          { d with pde := Function.update d.pde (PDX v) (some ⟨pgtab, fun _ => none⟩) })
    else none

/-- `mappages`, for `n` pages; whether it returned 0, or the panic "remap". -/
def mappages (w u : Bool) : ℕ → ℕ → Frame → Phys → Pgdir → Option (Bool × Phys × Pgdir)
  | 0, _, _, m, d => some (true, m, d)
  | n + 1, v, pa, m, d =>
    match walkpgdir m d v true with
    | none => some (false, m, d)
    | some (m, d) =>
      match d.get v with
      | some _ => none
      | none => mappages w u n (v + 1) (pa + 1) m (d.set v (some ⟨pa, w, u⟩))

/-- The loop of `deallocuvm`. -/
def deallocLoop (oldsz : Word) : ℕ → ℕ → Phys → Pgdir → Phys × Pgdir
  | 0, _, m, d => (m, d)
  | fuel + 1, v, m, d =>
    if v * PGSIZE < oldsz.toNat then
      match walkpgdir m d v false with
      | none => deallocLoop oldsz fuel ((PDX v + 1) * NPTENTRIES) m d
      | some _ =>
        match d.get v with
        | some pte => deallocLoop oldsz fuel (v + 1) (kfree m pte.frame) (d.set v none)
        | none => deallocLoop oldsz fuel (v + 1) m d
    else (m, d)

/-- `deallocuvm`. -/
def deallocuvm (m : Phys) (d : Pgdir) (oldsz newsz : Word) : Word × Phys × Pgdir :=
  if newsz ≥ oldsz then (oldsz, m, d)
  else (newsz, deallocLoop oldsz NPAGES (pageUp newsz) m d)

/-- How the loop of `allocuvm` ends: through, without a page, or without a page table for the page
    `mem`. -/
inductive AllocEnd where
  | through
  | noPage
  | noTable (mem : Frame)

/-- The loop of `allocuvm`. -/
def allocLoop (newsz : Word) : ℕ → ℕ → Phys → Pgdir → Option (AllocEnd × Phys × Pgdir)
  | 0, _, m, d => some (.through, m, d)
  | fuel + 1, v, m, d =>
    if v * PGSIZE < newsz.toNat then
      match kalloc m with
      | none => some (.noPage, m, d)
      | some (mem, m) =>
        match mappages true true 1 v mem (m.memset mem 0) d with
        | none => none
        | some (false, m, d) => some (.noTable mem, m, d)
        | some (true, m, d) => allocLoop newsz fuel (v + 1) m d
    else some (.through, m, d)

/-- `allocuvm`. -/
def allocuvm (m : Phys) (d : Pgdir) (oldsz newsz : Word) : Option (Word × Phys × Pgdir) :=
  if newsz ≥ KERNBASE then some (0, m, d)
  else if newsz < oldsz then some (oldsz, m, d)
  else
    match allocLoop newsz NPAGES (pageUp oldsz) m d with
    | none => none
    | some (.through, m, d) => some (newsz, m, d)
    | some (.noPage, m, d) => some (0, (deallocuvm m d newsz oldsz).2)
    | some (.noTable mem, m, d) =>
      let (_, m, d) := deallocuvm m d newsz oldsz
      some (0, kfree m mem, d)

/-- The body of the loop of `freevm`. -/
def freeTable (d : Pgdir) (m : Phys) (i : ℕ) : Phys :=
  match d.pde i with
  | some t => kfree m t.frame
  | none => m

/-- `freevm`. -/
def freevm (m : Phys) (d : Pgdir) : Phys :=
  let (_, m, d) := deallocuvm m d KERNBASE 0
  kfree ((List.range NPDENTRIES).foldl (freeTable d) m) d.frame

/-- An entry of `kmap`: `n` pages from `v` on, at the physical page `pa`. -/
structure Kmap where
  v : ℕ
  n : ℕ
  pa : Frame
  w : Bool

/-- The loop of `setupkvm`. -/
def mapKernel : List Kmap → Phys → Pgdir → Option (Bool × Phys × Pgdir)
  | [], m, d => some (true, m, d)
  | k :: ks, m, d =>
    match mappages k.w false k.n k.v k.pa m d with
    | some (true, m, d) => mapKernel ks m d
    | r => r

/-- `setupkvm`. -/
def setupkvm (kmap : List Kmap) (m : Phys) : Option (Option Pgdir × Phys) :=
  match kalloc m with
  | none => some (none, m)
  | some (f, m) =>
    match mapKernel kmap (m.memset f 0) ⟨f, fun _ => none⟩ with
    | none => none
    | some (true, m, d) => some (some d, m)
    | some (false, m, d) => some (none, freevm m d)

/-- The loop of `copyuvm`; its two panics, and the "remap" of `mappages`, are `none`. -/
def copyLoop (pgdir : Pgdir) (sz : Word) : ℕ → ℕ → Phys → Pgdir → Option (Bool × Phys × Pgdir)
  | 0, _, m, d => some (true, m, d)
  | fuel + 1, v, m, d =>
    if v * PGSIZE < sz.toNat then
      match walkpgdir m pgdir v false with
      | none => none
      | some _ =>
        match pgdir.get v with
        | none => none
        | some pte =>
          match kalloc m with
          | none => some (false, m, d)
          | some (mem, m) =>
            match mappages pte.w pte.u 1 v mem (m.memmove mem pte.frame) d with
            | some (true, m, d) => copyLoop pgdir sz fuel (v + 1) m d
            | r => r
    else some (true, m, d)

/-- `copyuvm`. -/
def copyuvm (kmap : List Kmap) (m : Phys) (pgdir : Pgdir) (sz : Word) :
    Option (Option Pgdir × Phys) :=
  match setupkvm kmap m with
  | none => none
  | some (none, m) => some (none, m)
  | some (some d, m) =>
    match copyLoop pgdir sz NPAGES 0 m d with
    | none => none
    | some (true, m, d) => some (some d, m)
    | some (false, m, d) => some (none, freevm m d)

/-! ### Processes -/

/-- The fields `pgdir` and `sz` of `struct proc`. -/
structure Proc where
  pgdir : Pgdir
  sz : Word

/-- `growproc`: what it returns, and what it leaves. -/
def growproc (m : Phys) (p : Proc) (n : Word) : Option (Word × Phys × Proc) :=
  if 0 < n.toInt then
    match allocuvm m p.pgdir p.sz (p.sz + n) with
    | none => none
    | some (sz, m, d) => if sz = 0 then some (-1, m, ⟨d, p.sz⟩) else some (0, m, ⟨d, sz⟩)
  else if n.toInt < 0 then
    let (sz, m, d) := deallocuvm m p.pgdir p.sz (p.sz + n)
    if sz = 0 then some (-1, m, ⟨d, p.sz⟩) else some (0, m, ⟨d, sz⟩)
  else some (0, m, p)

end Xv6.Memory
