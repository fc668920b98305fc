import Xv6.Schemes.Bytes
import Xv6.Memory.PageTable

/-! @src umalloc.c sysproc.c proc.c vm.c | name:The user heap | layer:model

    The allocator of Kernighan and Ritchie over the memory of a process, a byte at each address, of
    which the kernel maps pages. An access to a page that is not mapped kills the process. Headers
    have 8 bytes, the pointer and the size in units of headers. -/

namespace Xv6.Umalloc
open Xv6.Schemes.Bytes
open Xv6.Schemes.X86 (Word)
open Xv6.Memory (PGSIZE KERNBASE pageUp)

/-- The memory of a process, the pages that are mapped, `curproc->sz`, and `freep`. -/
structure Heap where
  mem : Mem 32
  mapped : ℕ → Bool
  sz : Word
  freep : Word

/-- The word at an address. -/
def word (m : Mem 32) (a : Word) : Word := BitVec.ofNat 32 (num (read m a 4))

namespace Heap

def touches (h : Heap) (a : Word) : Bool :=
  h.mapped (a.toNat / PGSIZE) && h.mapped ((a + 3).toNat / PGSIZE)

/-- Reads and writes; `none` if the process is killed. -/
def load (h : Heap) (a : Word) : Option Word := if h.touches a then some (word h.mem a) else none

def store (h : Heap) (a x : Word) : Option Heap :=
  if h.touches a then some { h with mem := write h.mem a (le 4 x.toNat) } else none

/-- `p->s.ptr` and `p->s.size`. -/
def ptr (h : Heap) (p : Word) : Option Word := h.load p

def size (h : Heap) (p : Word) : Option Word := h.load (p + 4)

def setPtr (h : Heap) (p x : Word) : Option Heap := h.store p x

def setSize (h : Heap) (p x : Word) : Option Heap := h.store (p + 4) x

/-! ### The kernel -/

/-- The pages from `a` on that begin below `b`. -/
def newPages (a b : Word) (v : ℕ) : Bool := pageUp a ≤ v && v * PGSIZE < b.toNat

/-- `allocuvm`; `room` says whether there are pages for the new size. -/
def allocuvm (room : Word → Bool) (h : Heap) (newsz : Word) : Word × Heap :=
  if newsz ≥ KERNBASE then (0, h)
  else if newsz < h.sz then (h.sz, h)
  else if pageUp h.sz * PGSIZE < newsz.toNat ∧ ¬ room newsz then (0, h)
  else
    (newsz, { h with
      mapped := fun v => h.mapped v || newPages h.sz newsz v
      mem := fun x => if newPages h.sz newsz (x.toNat / PGSIZE) then 0 else h.mem x })

/-- `deallocuvm`. -/
def deallocuvm (h : Heap) (newsz : Word) : Word × Heap :=
  if newsz ≥ h.sz then (h.sz, h)
  else (newsz, { h with mapped := fun v => h.mapped v && !newPages newsz h.sz v })

/-- `growproc`: whether it has succeeded. -/
def growproc (room : Word → Bool) (h : Heap) (n : Word) : Bool × Heap :=
  if 0 < n.toInt then
    let (sz, h) := h.allocuvm room (h.sz + n)
    if sz = 0 then (false, h) else (true, { h with sz := sz })
  else if n.toInt < 0 then
    let (sz, h) := h.deallocuvm (h.sz + n)
    if sz = 0 then (false, h) else (true, { h with sz := sz })
  else (true, h)

/-- `sys_sbrk`. -/
def sbrk (room : Word → Bool) (h : Heap) (n : Word) : Word × Heap :=
  let addr := h.sz
  match h.growproc room n with
  | (false, h) => (-1, h)
  | (true, h) => (addr, h)

/-! ### umalloc.c -/

/-- The loop of `free`. -/
def freeLoop (h : Heap) (bp : Word) : ℕ → Word → Option Word
  | 0, _ => none
  | fuel + 1, p => do
    let next ← h.ptr p
    if bp > p ∧ bp < next then some p
    else if p ≥ next ∧ (bp > p ∨ bp < next) then some p
    else h.freeLoop bp fuel next

/-- `free`: the block goes in front of the one after it, -/
def freeUpper (h : Heap) (p bp : Word) : Option Heap := do
  let next ← h.ptr p
  let n ← h.size bp
  if bp + n * 8 = next then
    let k ← h.size next
    let h ← h.setSize bp (n + k)
    let next ← h.ptr p
    let q ← h.ptr next
    h.setPtr bp q
  else h.setPtr bp next

/-- and behind the one before it. -/
def freeLower (h : Heap) (p bp : Word) : Option Heap := do
  let n ← h.size p
  if p + n * 8 = bp then
    let k ← h.size bp
    let h ← h.setSize p (n + k)
    let q ← h.ptr bp
    h.setPtr p q
  else h.setPtr p bp

/-- `free`. -/
def free (h : Heap) (fuel : ℕ) (ap : Word) : Option Heap := do
  let bp := ap - 8
  let p ← h.freeLoop bp fuel h.freep
  let h ← h.freeUpper p bp
  let h ← h.freeLower p bp
  some { h with freep := p }

/-- `morecore`. -/
def morecore (h : Heap) (room : Word → Bool) (fuel : ℕ) (nu : Word) : Option (Word × Heap) :=
  let nu := if nu < 4096 then 4096 else nu
  match h.sbrk room (nu * 8) with
  | (p, h) =>
    if p = -1 then some (0, h)
    else do
      let h ← h.setSize p nu
      let h ← h.free fuel (p + 8)
      some (h.freep, h)

/-- A block that is large enough, in `malloc`. -/
def take (h : Heap) (nunits prevp p : Word) : Option (Word × Heap) := do
  let n ← h.size p
  if n = nunits then
    let next ← h.ptr p
    let h ← h.setPtr prevp next
    some (p + 8, { h with freep := prevp })
  else
    let h ← h.setSize p (n - nunits)
    let k ← h.size p
    let p := p + k * 8
    let h ← h.setSize p nunits
    some (p + 8, { h with freep := prevp })

/-- The loop of `malloc`. -/
def mallocLoop (room : Word → Bool) (nunits : Word) : ℕ → Heap → Word → Word → Option (Word × Heap)
  | 0, _, _, _ => none
  | fuel + 1, h, prevp, p => do
    let n ← h.size p
    if n ≥ nunits then h.take nunits prevp p
    else if p = h.freep then
      let (p, h) ← h.morecore room fuel nunits
      if p = 0 then some (0, h)
      else
        let next ← h.ptr p
        mallocLoop room nunits fuel h p next
    else
      let next ← h.ptr p
      mallocLoop room nunits fuel h p next

/-- What `malloc` asks for. -/
def nunits (nbytes : Word) : Word := (nbytes + 8 - 1) / 8 + 1

/-- `base` is made the list when there is none. -/
def init (base : Word) (h : Heap) : Option Heap :=
  if h.freep = 0 then do
    let h ← h.setPtr base base
    let h ← h.setSize base 0
    some { h with freep := base }
  else some h

/-- `malloc`; `base` is where the variable of this name is. -/
def malloc (base : Word) (h : Heap) (room : Word → Bool) (fuel : ℕ) (nbytes : Word) :
    Option (Word × Heap) := do
  let h ← h.init base
  let p ← h.ptr h.freep
  mallocLoop room (nunits nbytes) fuel h h.freep p

end Heap

end Xv6.Umalloc
