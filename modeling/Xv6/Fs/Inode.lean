import Xv6.Fs.Kernel

/-! @src fs.c console.c | name:Blocks and inodes | layer:model

    The functions of `fs.c` up to `writei` as programs of the operations of the kernel. A loop is a
    recursion over what its counter runs through. -/

namespace Xv6.Fs
open Xv6.Disk Xv6.Schemes

/-- A program of the file system. -/
abbrev Code (α : Type) : Type := Prog Op Ans α

def perform (o : Op) : Code (Ans o) := Prog.perform o

def panic {α : Type} (msg : String) : Code α := .op (.panic msg) fun e => nomatch e

/-! ### Blocks -/

def bread (l : Loc) : Code (ℕ × Block) := perform (.bread l)

def brelse (n : ℕ) : Code Unit := perform (.brelse n)

/-- Store into the data of a buffer and log it. -/
def logged (n : ℕ) (b : Block) : Code Unit := do
  perform (.setData n b)
  perform (.logWrite n)

/-- Read the super block. -/
def readsb : Code Superblock := do
  let bp ← bread (.block 1)
  brelse bp.1
  return .ofBlock bp.2

/-- Zero a block. -/
def bzero (bno : ℕ) : Code Unit := do
  let bp ← bread (.block bno)
  logged bp.1 Block.zero
  brelse bp.1

/-- The first clear bit of the bitmap block for the blocks from `b` on. -/
@[irreducible]
def freeBit (size b : ℕ) (data : Block) : Option ℕ :=
  (List.range BPB).find? fun bi => b + bi < size ∧ getBit data bi = false

/-- The loop of `balloc` over the bitmap blocks, from the `k`-th on. -/
def ballocLoop (size : ℕ) : ℕ → ℕ → Code UInt32
  | 0, _ => panic "balloc: out of blocks"
  | n + 1, k => do
    let bp ← bread (.bitmap (k * BPB))
    match freeBit size (k * BPB) bp.2 with
    | some bi =>
      logged bp.1 (setBit bp.2 bi)
      brelse bp.1
      bzero (k * BPB + bi)
      return UInt32.ofNat (k * BPB + bi)
    | none =>
      brelse bp.1
      ballocLoop size n (k + 1)

/-- Allocate a zeroed disk block. -/
def balloc : Code UInt32 := do
  let sb ← perform .getSb
  ballocLoop sb.size.toNat ((sb.size.toNat + BPB - 1) / BPB) 0

/-- Free a disk block. -/
def bfree (b : ℕ) : Code Unit := do
  let sb ← readsb
  perform (.setSb sb)
  let bp ← bread (.bitmap b)
  if getBit bp.2 (b % BPB) = false then panic "freeing free block"
  else
    logged bp.1 (clearBit bp.2 (b % BPB))
    brelse bp.1

/-! ### Inodes -/

def iget (dev inum : ℕ) : Code Ip := perform (.iget dev inum)

def idup (ip : Ip) : Code Unit := perform (.idup ip)

/-- The loop of `ialloc`, from inode `inum` on. -/
def iallocLoop (dev : ℕ) (type : UInt16) : ℕ → ℕ → Code Ip
  | 0, _ => panic "ialloc: no inodes"
  | n + 1, inum => do
    let bp ← bread (.inode inum)
    if (getDinode bp.2 (inum % IPB)).type = 0 then
      logged bp.1 (putDinode bp.2 (inum % IPB) { Dinode.zero with type := type })
      brelse bp.1
      iget dev inum
    else
      brelse bp.1
      iallocLoop dev type n (inum + 1)

/-- Allocate an inode on the device. -/
def ialloc (dev : ℕ) (type : UInt16) : Code Ip := do
  let sb ← perform .getSb
  iallocLoop dev type (sb.ninodes.toNat - 1) 1

/-- Copy a modified in-memory inode to disk. -/
def iupdate (ip : Ip) : Code Unit := do
  let c ← perform (.get ip)
  let bp ← bread (.inode c.inum)
  logged bp.1 (putDinode bp.2 (c.inum % IPB) c.d)
  brelse bp.1

/-- Lock the inode, and read it from disk if necessary. -/
def ilock (ip : Ip) : Code Unit := do
  let ref ← perform (.ref ip)
  if ref < 1 then panic "ilock"
  else
    perform (.acquiresleep ip)
    let c ← perform (.get ip)
    if c.valid then return ()
    else
      let bp ← bread (.inode c.inum)
      perform (.modify ip fun _ => getDinode bp.2 (c.inum % IPB))
      brelse bp.1
      perform (.setValid ip true)
      if (getDinode bp.2 (c.inum % IPB)).type = 0 then panic "ilock: no type" else return ()

/-- Unlock the inode. -/
def iunlock (ip : Ip) : Code Unit := do
  let holding ← perform (.holdingsleep ip)
  let ref ← perform (.ref ip)
  if holding = false ∨ ref < 1 then panic "iunlock" else perform (.releasesleep ip)

def setAddr (i : Slot) (a : UInt32) (d : Dinode) : Dinode :=
  { d with addrs := Function.update d.addrs i a }

/-- The slot of the indirect block. -/
def indirect : Slot := Fin.last NDIRECT

/-- First loop of `itrunc`. -/
def itruncDirect (ip : Ip) : List Slot → Code Unit
  | [] => return ()
  | i :: l => do
    let c ← perform (.get ip)
    if c.d.addrs i ≠ 0 then
      bfree (c.d.addrs i).toNat
      perform (.modify ip (setAddr i 0))
    itruncDirect ip l

/-- Second loop of `itrunc`. -/
def itruncIndirect (a : Block) : List ℕ → Code Unit
  | [] => return ()
  | j :: l => do
    if a.getInt j ≠ 0 then bfree (a.getInt j).toNat
    itruncIndirect a l

/-- Truncate inode (discard contents). -/
def itrunc (ip : Ip) : Code Unit := do
  itruncDirect ip ((List.finRange (NDIRECT + 1)).take NDIRECT)
  let c ← perform (.get ip)
  if c.d.addrs indirect ≠ 0 then
    let bp ← bread (.block (c.d.addrs indirect).toNat)
    itruncIndirect bp.2 (List.range NINDIRECT)
    brelse bp.1
    bfree (c.d.addrs indirect).toNat
    perform (.modify ip (setAddr indirect 0))
  perform (.modify ip fun d => { d with size := 0 })
  iupdate ip

/-- Drop a reference to an in-memory inode. -/
def iput (ip : Ip) : Code Unit := do
  perform (.acquiresleep ip)
  let c ← perform (.get ip)
  if c.valid ∧ c.d.nlink = 0 then
    let r ← perform (.ref ip)
    if r = 1 then
      itrunc ip
      perform (.modify ip fun d => { d with type := 0 })
      iupdate ip
      perform (.setValid ip false)
  perform (.releasesleep ip)
  perform (.decref ip)

/-- Common idiom: unlock, then put. -/
def iunlockput (ip : Ip) : Code Unit := do
  iunlock ip
  iput ip

/-! ### Inode content -/

/-- The slot of a direct block. -/
def direct (bn : ℕ) : Slot := Fin.ofNat (NDIRECT + 1) bn

/-- The block of slot `i` of the inode, allocated if there is none. -/
def slot (ip : Ip) (i : Slot) : Code UInt32 := do
  let c ← perform (.get ip)
  if c.d.addrs i = 0 then
    let addr ← balloc
    perform (.modify ip (setAddr i addr))
    return addr
  else return c.d.addrs i

/-- The disk block address of the `bn`-th block of the inode. -/
def bmap (ip : Ip) (bn : ℕ) : Code UInt32 := do
  if bn < NDIRECT then slot ip (direct bn)
  else if bn - NDIRECT < NINDIRECT then
    let a ← slot ip indirect
    let bp ← bread (.block a.toNat)
    if bp.2.getInt (bn - NDIRECT) = 0 then
      let addr ← balloc
      logged bp.1 (bp.2.putInt (bn - NDIRECT) addr)
      brelse bp.1
      return addr
    else
      brelse bp.1
      return bp.2.getInt (bn - NDIRECT)
  else panic "bmap: out of range"

/-- Is there a device with this major number? `consoleinit` registers the only one. -/
def devsw (major : UInt16) : Bool := major.toNat = CONSOLE

/-- `consoleread` and `consolewrite` give up the inode while they wait. -/
def console (ip : Ip) : Code (Option (List UInt8)) := do
  iunlock ip
  let x ← perform .input
  ilock ip
  return x

/-- The loop of `readi`; a turn reads at least one byte. -/
def readLoop (ip : Ip) : ℕ → ℕ → ℕ → Code (List UInt8)
  | 0, _, _ => return []
  | k + 1, off, n =>
    if n = 0 then return []
    else do
      let addr ← bmap ip (off / BSIZE)
      let bp ← bread (.block addr.toNat)
      let m := min n (BSIZE - off % BSIZE)
      brelse bp.1
      let rest ← readLoop ip k (off + m) (n - m)
      return slice bp.2 (off % BSIZE) m ++ rest

/-- Read data from inode; `none` is -1. -/
def readi (ip : Ip) (off n : ℕ) : Code (Option (List UInt8)) := do
  let c ← perform (.get ip)
  if c.d.type = T_DEV then
    if devsw c.d.major then console ip else return none
  else if c.d.size.toNat < off ∨ (off + n) % 2 ^ 32 < off then return none
  else
    let n := if c.d.size.toNat < (off + n) % 2 ^ 32 then c.d.size.toNat - off else n
    let l ← readLoop ip n off n
    return some l

/-- The loop of `writei`; the offset after it. -/
def writeLoop (ip : Ip) : ℕ → ℕ → List UInt8 → Code ℕ
  | 0, off, _ => return off
  | k + 1, off, src =>
    if src = [] then return off
    else do
      let addr ← bmap ip (off / BSIZE)
      let bp ← bread (.block addr.toNat)
      let m := min src.length (BSIZE - off % BSIZE)
      logged bp.1 (overlay bp.2 (off % BSIZE) (src.take m))
      brelse bp.1
      writeLoop ip k (off + m) (src.drop m)

/-- Write data to inode; `none` is -1. -/
def writei (ip : Ip) (src : List UInt8) (off : ℕ) : Code (Option ℕ) := do
  let c ← perform (.get ip)
  if c.d.type = T_DEV then
    if devsw c.d.major then
      let x ← console ip
      return x.map fun _ => src.length
    else return none
  else if c.d.size.toNat < off ∨ (off + src.length) % 2 ^ 32 < off then return none
  else if MAXFILE * BSIZE < (off + src.length) % 2 ^ 32 then return none
  else
    let off ← writeLoop ip src.length off src
    let c ← perform (.get ip)
    if 0 < src.length ∧ c.d.size.toNat < off then
      perform (.modify ip fun d => { d with size := UInt32.ofNat off })
      iupdate ip
    return some src.length

end Xv6.Fs
