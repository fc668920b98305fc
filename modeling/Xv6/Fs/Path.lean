import Xv6.Fs.Inode

/-! @src fs.c | name:Directories and paths | layer:model

    The functions of `fs.c` from `dirlookup` on. The loops over a directory are recursions over the
    offsets of its entries. -/

namespace Xv6.Fs
open Xv6.Disk Xv6.Schemes

/-! ### Directories -/

/-- The offsets of the entries of a directory. -/
def entries (size : ℕ) : List ℕ := (List.range ((size + 15) / 16)).map (16 * ·)

/-- The loop of `dirlookup`. -/
def lookupLoop (dp : Ip) (dev : ℕ) (name : List UInt8) : List ℕ → Code (Option (Ip × ℕ))
  | [] => return none
  | off :: offs => do
    let r ← readi dp off 16
    if r.map List.length ≠ some 16 then panic "dirlookup read"
    else if (Dirent.ofBytes (r.getD [])).inum = 0 then lookupLoop dp dev name offs
    else if namecmp name (Dirent.ofBytes (r.getD [])).name = 0 then
      let ip ← iget dev (Dirent.ofBytes (r.getD [])).inum.toNat
      return some (ip, off)
    else lookupLoop dp dev name offs

/-- Look for a directory entry in a directory; the inode, and the offset of the entry. -/
def dirlookup (dp : Ip) (name : List UInt8) : Code (Option (Ip × ℕ)) := do
  let c ← perform (.get dp)
  if c.d.type ≠ T_DIR then panic "dirlookup not DIR"
  else lookupLoop dp c.dev name (entries c.d.size.toNat)

/-- The loop of `dirlink`: the offset of an empty entry, or else the end. -/
def emptyLoop (dp : Ip) (last : ℕ) : List ℕ → Code ℕ
  | [] => return last
  | off :: offs => do
    let r ← readi dp off 16
    if r.map List.length ≠ some 16 then panic "dirlink read"
    else if (Dirent.ofBytes (r.getD [])).inum = 0 then return off
    else emptyLoop dp last offs

/-- Write a new directory entry into the directory; `false` is -1. -/
def dirlink (dp : Ip) (name : List UInt8) (inum : ℕ) : Code Bool := do
  match ← dirlookup dp name with
  | some (ip, _) =>
    iput ip
    return false
  | none =>
    let c ← perform (.get dp)
    let off ← emptyLoop dp (16 * ((c.d.size.toNat + 15) / 16)) (entries c.d.size.toNat)
    let r ← writei dp (Dirent.bytes ⟨UInt16.ofNat inum, strncpy DIRSIZ name⟩) off
    if r ≠ some 16 then panic "dirlink" else return true

/-! ### Paths -/

/-- The end of `namex`. -/
def namexEnd (nameiparent : Bool) (ip : Ip) (name : List UInt8) :
    Code (Option (Ip × List UInt8)) := do
  if nameiparent then
    iput ip
    return none
  else return some (ip, name)

/-- The loop of `namex`; a turn takes an element off the path, so there are no more turns than
    bytes. -/
def namexLoop (nameiparent : Bool) : ℕ → Ip → List UInt8 → List UInt8 →
    Code (Option (Ip × List UInt8))
  | 0, ip, _, name => namexEnd nameiparent ip name
  | k + 1, ip, path, name =>
    match skipelem path with
    | none => namexEnd nameiparent ip name
    | some (rest, name) => do
      ilock ip
      let c ← perform (.get ip)
      if c.d.type ≠ T_DIR then
        iunlockput ip
        return none
      else if nameiparent ∧ rest = [] then
        iunlock ip
        return some (ip, name)
      else
        match ← dirlookup ip name with
        | none =>
          iunlockput ip
          return none
        | some (next, _) =>
          iunlockput ip
          namexLoop nameiparent k next rest name

/-- Look up and return the inode for a path name, or its parent and the final path element. A process
    that runs has a current directory. -/
def namex (path : List UInt8) (nameiparent : Bool) : Code (Option (Ip × List UInt8)) := do
  if path.head? = some slash then
    let ip ← iget ROOTDEV ROOTINO
    namexLoop nameiparent path.length ip path []
  else
    match ← perform .cwd with
    | none => panic "trap"
    | some ip =>
      idup ip
      namexLoop nameiparent path.length ip path []

def namei (path : List UInt8) : Code (Option Ip) := do
  let r ← namex path false
  return r.map Prod.fst

def nameiparent (path : List UInt8) : Code (Option (Ip × List UInt8)) := namex path true

end Xv6.Fs
