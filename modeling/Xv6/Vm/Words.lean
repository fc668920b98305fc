import Xv6.Memory.PageTable

/-! @src vm.c mmu.h memlayout.h kalloc.c | name:Page tables as words | layer:model

    The functions of `vm.c` that go over page tables, with addresses and entries as the 32-bit
    words that they are: cursors that are rounded, jump and wrap, and entries that hold an address
    and flags. `freeable` is the test of `kfree`, which depends on where the kernel ends. -/

namespace Xv6.Vm

open Xv6.Schemes.X86 (Word)
open Xv6.Memory (Frame Phys Page kalloc)

/-! ### mmu.h and memlayout.h -/

def PGSIZE : Word := 0x1000
def KERNBASE : Word := 0x80000000
def EXTMEM : Word := 0x100000
def PHYSTOP : Word := 0x20000000
def DEVSPACE : Word := 0xFE000000
def KERNLINK : Word := KERNBASE + EXTMEM
def PCI_BAR_BASE : Word := 0x80000000
def PCI_VP_OFFSET : Word := 0x40000000

def V2P (a : Word) : Word := a - KERNBASE
def P2V (a : Word) : Word := a + KERNBASE

def PTE_P : Word := 0x001
def PTE_W : Word := 0x002
def PTE_U : Word := 0x004

def PTE_ADDR (pte : Word) : Word := pte &&& ~~~0xFFF

def PGROUNDUP (sz : Word) : Word := (sz + PGSIZE - 1) &&& ~~~(PGSIZE - 1)
def PGROUNDDOWN (a : Word) : Word := a &&& ~~~(PGSIZE - 1)

abbrev Index : Type := BitVec 10

def PDX (va : Word) : Index := ((va >>> 22) &&& 0x3FF).setWidth 10
def PTX (va : Word) : Index := ((va >>> 12) &&& 0x3FF).setWidth 10

def PGADDR (d t o : Word) : Word := (d <<< 22) ||| (t <<< 12) ||| o

/-- The page that a physical address lies in. -/
def frameOf (pa : Word) : Frame := pa.toNat / 4096

/-- How a function ends, if it does within its fuel. -/
inductive Ends (α : Type) where
  | returns (a : α)
  | panics
  | runs

/-! ### kalloc.c -/

/-- The test of `kfree`, for the end of the kernel. -/
def freeable (kend v : Word) : Bool :=
  ¬ (v.toNat % 4096 ≠ 0 ∨ v < kend ∨ PHYSTOP ≤ V2P v)

/-- `kfree`. -/
def kfree (kend v : Word) (m : Phys) : Option Phys :=
  if freeable kend v then some (Memory.kfree m (frameOf (V2P v))) else none

/-! ### Page tables -/

structure Table where
  frame : Frame
  pte : Index → Word

/-- A page directory; the present entries hold the page tables. -/
structure Dir where
  frame : Frame
  pde : Index → Option Table

namespace Dir

/-- `*pte`, in a page table that is there. -/
def pte (d : Dir) (va : Word) : Word :=
  match d.pde (PDX va) with
  | some t => t.pte (PTX va)
  | none => 0

/-- `*pte = e`. -/
def set (d : Dir) (va e : Word) : Dir where
  frame := d.frame
  pde := Function.update d.pde (PDX va) ((d.pde (PDX va)).map fun t =>
    { t with pte := Function.update t.pte (PTX va) e })

end Dir

/-- `walkpgdir`; `none` is the null pointer. -/
def walkpgdir (m : Phys) (d : Dir) (va : Word) (alloc : Bool) : Option (Phys × Dir) :=
  match d.pde (PDX va) with
  | some _ => some (m, d)
  | none =>
    if alloc then
      match kalloc m with
      | none => none
      | some (pgtab, m) => some (m.memset pgtab 0,
          { d with pde := Function.update d.pde (PDX va) (some ⟨pgtab, fun _ => 0⟩) })
    else none

/-- The loop of `mappages`; whether it returns 0. -/
def mapLoop (perm last : Word) : ℕ → Word → Word → Phys → Dir → Ends (Bool × Phys × Dir)
  | 0, _, _, _, _ => .runs
  | fuel + 1, a, pa, m, d =>
    match walkpgdir m d a true with
    | none => .returns (false, m, d)
    | some (m, d) =>
      if d.pte a &&& PTE_P ≠ 0 then .panics
      else
        let d := d.set a (pa ||| perm ||| PTE_P)
        if a = last then .returns (true, m, d)
        else mapLoop perm last fuel (a + PGSIZE) (pa + PGSIZE) m d

/-- `mappages`. -/
def mappages (m : Phys) (d : Dir) (va size pa perm : Word) : Ends (Bool × Phys × Dir) :=
  mapLoop perm (PGROUNDDOWN (va + size - 1)) Memory.NPAGES (PGROUNDDOWN va) pa m d

/-- What the loop of `deallocuvm` does in a page table that is there; `none` is a panic. -/
def freePage (kend : Word) (m : Phys) (d : Dir) (a : Word) : Option (Phys × Dir) :=
  if d.pte a &&& PTE_P ≠ 0 then
    let pa := PTE_ADDR (d.pte a)
    if pa = 0 then none
    else (kfree kend (P2V pa) m).map fun m => (m, d.set a 0)
  else some (m, d)

/-- The loop of `deallocuvm`; without a page table the cursor jumps. -/
def deallocLoop (kend oldsz : Word) : ℕ → Word → Phys → Dir → Ends (Phys × Dir)
  | 0, _, _, _ => .runs
  | fuel + 1, a, m, d =>
    if a < oldsz then
      match walkpgdir m d a false with
      | none =>
        let a := PGADDR ((PDX a).setWidth 32 + 1) 0 0 - PGSIZE
        deallocLoop kend oldsz fuel (a + PGSIZE) m d
      | some _ =>
        match freePage kend m d a with
        | none => .panics
        | some (m, d) => deallocLoop kend oldsz fuel (a + PGSIZE) m d
    else .returns (m, d)

/-- `deallocuvm`. -/
def deallocuvm (kend : Word) (m : Phys) (d : Dir) (oldsz newsz : Word) :
    Ends (Word × Phys × Dir) :=
  if newsz ≥ oldsz then .returns (oldsz, m, d)
  else
    match deallocLoop kend oldsz Memory.NPAGES (PGROUNDUP newsz) m d with
    | .returns (m, d) => .returns (newsz, m, d)
    | .panics => .panics
    | .runs => .runs

/-- The loop of `freevm` over the page tables. -/
def freeTables (kend : Word) (d : Dir) : List Index → Phys → Option Phys
  | [], m => some m
  | i :: is, m =>
    match d.pde i with
    | none => freeTables kend d is m
    | some t => (kfree kend (P2V (BitVec.ofNat 32 (t.frame * 4096))) m).bind (freeTables kend d is)

/-- `freevm`. -/
def freevm (kend : Word) (m : Phys) (d : Dir) : Ends Phys :=
  match deallocuvm kend m d KERNBASE 0 with
  | .returns (_, m, d) =>
    match (freeTables kend d ((List.range 1024).map (BitVec.ofNat 10)) m).bind
        (kfree kend (P2V (BitVec.ofNat 32 (d.frame * 4096)))) with
    | some m => .returns m
    | none => .panics
  | .panics => .panics
  | .runs => .runs

/-! ### setupkvm -/

/-- `struct gpu`, as far as `setupkvm` uses it. -/
structure Gpu where
  pvram_addr : Word
  vram_size : Word

/-- `struct kmap`. -/
structure Kmap where
  virt : Word
  phys_start : Word
  phys_end : Word
  perm : Word

/-- `vram`. -/
def vram (gpu : Gpu) : Kmap :=
  ⟨DEVSPACE - gpu.vram_size, gpu.pvram_addr, gpu.pvram_addr + gpu.vram_size, PTE_W⟩

/-- `kmap`, with its fourth entry set; `data` is where the linker puts the data segment. -/
def kmap (data : Word) (gpu : Gpu) : List Kmap :=
  [⟨KERNBASE, 0, EXTMEM, PTE_W⟩,
    ⟨KERNLINK, V2P KERNLINK, V2P data, 0⟩,
    ⟨data, V2P data, PHYSTOP, PTE_W⟩,
    vram gpu,
    ⟨PCI_BAR_BASE + PCI_VP_OFFSET, PCI_BAR_BASE, 0x10000000 + PCI_BAR_BASE, PTE_W⟩,
    ⟨DEVSPACE, DEVSPACE, 0, PTE_W⟩]

/-- The loop of `setupkvm`. -/
def mapKernel : List Kmap → Phys → Dir → Ends (Bool × Phys × Dir)
  | [], m, d => .returns (true, m, d)
  | k :: ks, m, d =>
    match mappages m d k.virt (k.phys_end - k.phys_start) k.phys_start k.perm with
    | .returns (true, m, d) => mapKernel ks m d
    | r => r

/-- `setupkvm`. -/
def setupkvm (kend data : Word) (gpu : Gpu) (m : Phys) : Ends (Option Dir × Phys) :=
  match kalloc m with
  | none => .returns (none, m)
  | some (pgdir, m) =>
    if P2V PHYSTOP > DEVSPACE then .panics
    else
      match mapKernel (kmap data gpu) (m.memset pgdir 0) ⟨pgdir, fun _ => none⟩ with
      | .returns (true, m, d) => .returns (some d, m)
      | .returns (false, m, d) =>
        match freevm kend m d with
        | .returns m => .returns (none, m)
        | .panics => .panics
        | .runs => .runs
      | .panics => .panics
      | .runs => .runs

/-! ### copyuvm -/

def PTE_FLAGS (pte : Word) : Word := pte &&& 0xFFF

/-- The copy of a page, in the loop of `copyuvm`. -/
def copyPage (pte i : Word) (m : Phys) (d : Dir) : Ends (Bool × Phys × Dir) :=
  let pa := PTE_ADDR pte
  let flags := PTE_FLAGS pte
  match kalloc m with
  | none => .returns (false, m, d)
  | some (mem, m) =>
    mappages (m.memmove mem (frameOf pa)) d i PGSIZE (BitVec.ofNat 32 (mem * 4096)) flags

/-- The loop of `copyuvm`. -/
def copyLoop (pgdir : Dir) (sz : Word) : ℕ → Word → Phys → Dir → Ends (Bool × Phys × Dir)
  | 0, _, _, _ => .runs
  | fuel + 1, i, m, d =>
    if i < sz then
      match walkpgdir m pgdir i false with
      | none => .panics
      | some _ =>
        if pgdir.pte i &&& PTE_P = 0 then .panics
        else
          match copyPage (pgdir.pte i) i m d with
          | .returns (true, m, d) => copyLoop pgdir sz fuel (i + PGSIZE) m d
          | r => r
    else .returns (true, m, d)

/-- `copyuvm`. -/
def copyuvm (kend data : Word) (gpu : Gpu) (m : Phys) (pgdir : Dir) (sz : Word) :
    Ends (Option Dir × Phys) :=
  match setupkvm kend data gpu m with
  | .returns (none, m) => .returns (none, m)
  | .returns (some d, m) =>
    match copyLoop pgdir sz Memory.NPAGES 0 m d with
    | .returns (true, m, d) => .returns (some d, m)
    | .returns (false, m, d) =>
      match freevm kend m d with
      | .returns m => .returns (none, m)
      | .panics => .panics
      | .runs => .runs
    | .panics => .panics
    | .runs => .runs
  | .panics => .panics
  | .runs => .runs

end Xv6.Vm
