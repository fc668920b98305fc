import Xv6.Schemes.Bytes

/-! @src relocate.c file_loader.c elf.h | name:Relocating the kernel | layer:model

    `RelocateELF` of the UEFI loader. The first pass over the program headers finds out how many pages
    to ask for, and where; the second one copies. Both read the headers from the file where it has
    been loaded, the second one while it writes to memory. What the firmware and its libraries do is a
    parameter, with what their documentation says about it. -/

namespace Xv6.Boot

open Xv6.Schemes.Bytes

/-- `EFI_PHYSICAL_ADDRESS` and `UINTN`. -/
abbrev Addr : Type := BitVec 64

abbrev Memory : Type := Mem 64

/-- `Elf32_Word` and the types like it. -/
abbrev Elf32_Word : Type := BitVec 32
abbrev Elf32_Half : Type := BitVec 16

abbrev PT_LOAD : Elf32_Word := 1

/-! ### The firmware -/

/-- Pages of 4096 bytes. -/
structure Pages where
  addr : Addr
  pages : ℕ

/-- An address is in the pages. -/
def Pages.Has (p : Pages) (x : Addr) : Prop := Within p.addr (4096 * p.pages) x

inductive EFI_ALLOCATE_TYPE
  | AllocateAnyPages
  | AllocateAddress (addr : Addr)

/-- The boot services and the library functions. -/
structure Firmware where
  /-- The file, if it can be opened and read. -/
  file : Option (List UInt8)
  /-- Pages, none of which is in use; the list is of those that are. -/
  AllocatePages : EFI_ALLOCATE_TYPE → ℕ → List Pages → Option Addr
  CopyMem : Memory → Addr → Addr → ℕ → Memory
  SetMem : Memory → Addr → ℕ → UInt8 → Memory
  fits : ∀ type n used a, AllocatePages type n used = some a → a.toNat + 4096 * n ≤ 2 ^ 64
  unused : ∀ type n used a, AllocatePages type n used = some a →
    ∀ p ∈ used, Apart a (4096 * n) p.addr (4096 * p.pages)
  at_address : ∀ addr n used a, AllocatePages (.AllocateAddress addr) n used = some a → a = addr
  copies : ∀ m d s n, CopyMem m d s n = write m d (read m s n)
  sets : ∀ m d n v, SetMem m d n v = write m d (List.replicate n v)

/-- A call of `CopyMem` or `SetMem`. -/
inductive Call
  | CopyMem (DestinationBuffer SourceBuffer : Addr) (Length : ℕ)
  | SetMem (Buffer : Addr) (Length : ℕ) (Value : UInt8)

/-- The call writes the byte. -/
def Call.Writes : Call → Addr → Prop
  | .CopyMem d _ n => Within d n
  | .SetMem d n _ => Within d n

def Firmware.call (fw : Firmware) (m : Memory) : Call → Memory
  | .CopyMem d s n => fw.CopyMem m d s n
  | .SetMem d n v => fw.SetMem m d n v

/-- `LoadFile`: the memory with the file in it, and where it is. -/
def LoadFile (fw : Firmware) (used : List Pages) (m : Memory) : Option (Memory × Pages) :=
  match fw.file with
  | none => none
  | some file =>
    let FilePageSize := (file.length + 4095) / 4096
    match fw.AllocatePages .AllocateAnyPages FilePageSize used with
    | none => none
    | some FileAddr => some (write m FileAddr file, ⟨FileAddr, FilePageSize⟩)

/-! ### Headers -/

/-- The bytes from an address on. -/
def bytesAt (m : Memory) (a : Addr) : ℕ → UInt8 := fun o => m (a + BitVec.ofNat 64 o)

def word (f : ℕ → UInt8) (o : ℕ) : Elf32_Word :=
  BitVec.ofNat 32 (num [f o, f (o + 1), f (o + 2), f (o + 3)])

def half (f : ℕ → UInt8) (o : ℕ) : Elf32_Half := BitVec.ofNat 16 (num [f o, f (o + 1)])

/-- `Elf32_Ehdr`, as far as it is used. -/
structure Elf32_Ehdr where
  e_entry : Elf32_Word
  e_phoff : Elf32_Word
  e_phnum : Elf32_Half

def Elf32_Ehdr.read (f : ℕ → UInt8) : Elf32_Ehdr := ⟨word f 24, word f 28, half f 44⟩

/-- `Elf32_Phdr`, as far as it is used. -/
structure Elf32_Phdr where
  p_type : Elf32_Word
  p_offset : Elf32_Word
  p_paddr : Elf32_Word
  p_filesz : Elf32_Word
  p_memsz : Elf32_Word
  p_align : Elf32_Word
  deriving DecidableEq

/-- `Phdr[i]`. -/
def Elf32_Phdr.read (f : ℕ → UInt8) (i : ℕ) : Elf32_Phdr where
  p_type := word f (32 * i)
  p_offset := word f (32 * i + 4)
  p_paddr := word f (32 * i + 12)
  p_filesz := word f (32 * i + 16)
  p_memsz := word f (32 * i + 20)
  p_align := word f (32 * i + 28)

/-! ### `RelocateELF` -/

/-- `alloc_start_address`, `alloc_end_address` and `init`. -/
structure Extent where
  alloc_start : Addr
  alloc_end : Addr
  init : Bool

/-- The body of the first loop. -/
def Extent.add (e : Extent) (ph : Elf32_Phdr) : Extent :=
  if ph.p_type = PT_LOAD then
    let start_address : Addr := ph.p_paddr.setWidth 64
    let end_address : Addr := start_address + ph.p_memsz.setWidth 64
    let mask : Addr := (ph.p_align - 1).setWidth 64
    let end_address := (end_address + mask) &&& ~~~ mask
    if e.init = false then ⟨start_address, end_address, true⟩
    else
      { e with
        alloc_start := if start_address < e.alloc_start then start_address else e.alloc_start
        alloc_end := if end_address > e.alloc_end then end_address else e.alloc_end }
  else e

/-- The calls for a program header. -/
def callsFor (BufferAddress : Addr) (ph : Elf32_Phdr) : List Call :=
  if ph.p_type = PT_LOAD then
    let start_address : Addr := ph.p_paddr.setWidth 64
    .CopyMem start_address (BufferAddress + ph.p_offset.setWidth 64) ph.p_filesz.toNat ::
      if ph.p_memsz > ph.p_filesz then
        [.SetMem (start_address + ph.p_filesz.setWidth 64) (ph.p_memsz - ph.p_filesz).toNat 0]
      else []
  else []

/-- The memory and the calls so far. -/
structure Copied where
  mem : Memory
  calls : List Call

/-- The calls are made. -/
def Copied.make (fw : Firmware) (c : Copied) (l : List Call) : Copied :=
  ⟨l.foldl fw.call c.mem, c.calls ++ l⟩

/-- The second loop, from the `i`-th header on. It is done when there is no such header, which the
    number of bits of `e_phnum` sees to. -/
def copyLoop (fw : Firmware) (BufferAddress Phdr : Addr) : ℕ → ℕ → Copied → Copied
  | 0, _, c => c
  | n + 1, i, c =>
    if i < (Elf32_Ehdr.read (bytesAt c.mem BufferAddress)).e_phnum.toNat then
      copyLoop fw BufferAddress Phdr n (i + 1)
        (c.make fw (callsFor BufferAddress (.read (bytesAt c.mem Phdr) i)))
    else c

/-- What `RelocateELF` has asked for, what it has called, and what it leaves. -/
structure Relocated where
  request : Pages
  calls : List Call
  mem : Memory
  RelocateAddr : Addr

/-- `RelocateELF`, or nothing if it returns an error. The extent is not initialised. -/
def RelocateELF (fw : Firmware) (undef : Addr × Addr) (used : List Pages) (m : Memory) :
    Option Relocated :=
  match LoadFile fw used m with
  | none => none
  | some (m, buffer) =>
    let BufferAddress := buffer.addr
    let Ehdr := Elf32_Ehdr.read (bytesAt m BufferAddress)
    let Phdr := BufferAddress + Ehdr.e_phoff.setWidth 64
    let headers := (List.range Ehdr.e_phnum.toNat).map (Elf32_Phdr.read (bytesAt m Phdr))
    let e := headers.foldl Extent.add ⟨undef.1, undef.2, false⟩
    let page_size : Addr := (e.alloc_end - e.alloc_start) / 4096 + 1
    match fw.AllocatePages (.AllocateAddress e.alloc_start) page_size.toNat (buffer :: used) with
    | none => none
    | some _ =>
      let c := copyLoop fw BufferAddress Phdr (2 ^ 16) 0 ⟨m, []⟩
      let Ehdr := Elf32_Ehdr.read (bytesAt c.mem BufferAddress)
      some ⟨⟨e.alloc_start, page_size.toNat⟩, c.calls, c.mem, Ehdr.e_entry.setWidth 64⟩

end Xv6.Boot
