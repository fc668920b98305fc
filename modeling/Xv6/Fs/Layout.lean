import Xv6.Disk.Block
import Mathlib.Data.List.FinRange

/-! @src fs.h param.h stat.h string.c | name:The file system on the disk | layer:model

    The superblock, the inodes of an inode block, the bits of a bitmap block and the entries of a
    directory, as the bytes they are stored in; the strings that names are compared and copied with. -/

namespace Xv6.Fs
open Xv6.Disk

abbrev ROOTINO : ℕ := 1
abbrev ROOTDEV : ℕ := 1
/-- maximum number of active i-nodes -/
abbrev NINODE : ℕ := 50
instance : NeZero NINODE := ⟨by decide⟩
/-- open files per system -/
abbrev NFILE : ℕ := 100
/-- open files per process -/
abbrev NOFILE : ℕ := 16
abbrev CONSOLE : ℕ := 1
abbrev NDIRECT : ℕ := 12
abbrev NINDIRECT : ℕ := BSIZE / 4
abbrev MAXFILE : ℕ := NDIRECT + NINDIRECT
/-- Inodes per block. -/
abbrev IPB : ℕ := BSIZE / 64
/-- Bitmap bits per block. -/
abbrev BPB : ℕ := BSIZE * 8
abbrev DIRSIZ : ℕ := 14

abbrev T_DIR : UInt16 := 1
abbrev T_FILE : UInt16 := 2
abbrev T_DEV : UInt16 := 3

structure Superblock where
  size : UInt32
  nblocks : UInt32
  ninodes : UInt32
  nlog : UInt32
  logstart : UInt32
  inodestart : UInt32
  bmapstart : UInt32
  deriving DecidableEq

/-- Block containing inode `i`. -/
def Superblock.IBLOCK (sb : Superblock) (i : ℕ) : ℕ := i / IPB + sb.inodestart.toNat

/-- Block of free map containing bit for block `b`. -/
def Superblock.BBLOCK (sb : Superblock) (b : ℕ) : ℕ := b / BPB + sb.bmapstart.toNat

/-- The index of an address of an inode: the direct blocks, and the indirect block at the end. -/
abbrev Slot : Type := Fin (NDIRECT + 1)

/-- `struct dinode`. -/
@[ext] structure Dinode where
  type : UInt16
  major : UInt16
  minor : UInt16
  nlink : UInt16
  size : UInt32
  addrs : Slot → UInt32

/-- A zeroed inode. -/
def Dinode.zero : Dinode := ⟨0, 0, 0, 0, 0, fun _ => 0⟩

/-- `struct dirent`. -/
structure Dirent where
  inum : UInt16
  name : List UInt8
  deriving DecidableEq

/-! ### Structures in a block -/

/-- The two shorts of a word. -/
def loHalf (w : UInt32) : UInt16 := UInt16.ofNat w.toNat

def hiHalf (w : UInt32) : UInt16 := UInt16.ofNat (w.toNat / 65536)

def halves (lo hi : UInt16) : UInt32 := UInt32.ofNat (lo.toNat + 65536 * hi.toNat)

def Superblock.ofBlock (b : Block) : Superblock :=
  ⟨b.getInt 0, b.getInt 1, b.getInt 2, b.getInt 3, b.getInt 4, b.getInt 5, b.getInt 6⟩

/-- `(struct dinode*)bp->data + i`: 16 words, the shorts in the first two. -/
def getDinode (b : Block) (i : ℕ) : Dinode where
  type := loHalf (b.getInt (16 * i))
  major := hiHalf (b.getInt (16 * i))
  minor := loHalf (b.getInt (16 * i + 1))
  nlink := hiHalf (b.getInt (16 * i + 1))
  size := b.getInt (16 * i + 2)
  addrs := fun j => b.getInt (16 * i + 3 + j)

/-- The addresses are stored one by one. -/
def putAddrs (b : Block) (i : ℕ) (addrs : Slot → UInt32) (l : List Slot) : Block :=
  l.foldl (fun b (j : Slot) => b.putInt (16 * i + 3 + j) (addrs j)) b

def putDinode (b : Block) (i : ℕ) (d : Dinode) : Block :=
  putAddrs (((b.putInt (16 * i) (halves d.type d.major)).putInt (16 * i + 1)
    (halves d.minor d.nlink)).putInt (16 * i + 2) d.size) i d.addrs (List.finRange (NDIRECT + 1))

/-- Is the bit of a block in its bitmap block set? -/
def getBit (b : Block) (i : ℕ) : Bool := (b.byte (i / 8)).toNat.testBit (i % 8)

def setBit (b : Block) (i : ℕ) : Block :=
  b.setByte (i / 8) (UInt8.ofNat ((b.byte (i / 8)).toNat ||| 2 ^ (i % 8)))

def clearBit (b : Block) (i : ℕ) : Block :=
  b.setByte (i / 8) (UInt8.ofNat ((b.byte (i / 8)).toNat &&& (255 - 2 ^ (i % 8))))

/-- `m` bytes of a block from offset `o`. -/
def slice (b : Block) (o m : ℕ) : List UInt8 := (List.range m).map fun i => b.byte (o + i)

/-- The bytes are copied to offset `o` of a block. -/
def overlay (b : Block) (o : ℕ) (src : List UInt8) : Block :=
  fun j => if o ≤ j.val ∧ j.val < o + src.length then src.getD (j.val - o) 0 else b j

def Dirent.ofBytes (l : List UInt8) : Dirent where
  inum := UInt16.ofNat ((l.getD 0 0).toNat + 256 * (l.getD 1 0).toNat)
  name := (l.drop 2).take DIRSIZ

def Dirent.bytes (de : Dirent) : List UInt8 :=
  UInt8.ofNat de.inum.toNat :: UInt8.ofNat (de.inum.toNat / 256) ::
    (List.range DIRSIZ).map fun i => de.name.getD i 0

/-! ### Strings -/

/-- `strncmp`; a list is a string before its NUL, or an array. -/
def strncmp : ℕ → List UInt8 → List UInt8 → ℤ
  | 0, _, _ => 0
  | n + 1, s, t =>
    if s.headD 0 ≠ 0 ∧ s.headD 0 = t.headD 0 then strncmp n s.tail t.tail
    else (s.headD 0).toNat - (t.headD 0).toNat

/-- `strncpy` of `n` bytes. -/
def strncpy : ℕ → List UInt8 → List UInt8
  | 0, _ => []
  | n + 1, t => if t.headD 0 ≠ 0 then t.headD 0 :: strncpy n t.tail else List.replicate (n + 1) 0

attribute [grind =] strncpy

def namecmp (s t : List UInt8) : ℤ := strncmp DIRSIZ s t

def slash : UInt8 := 47

/-- Copy the next path element from `path` into the name, which is the second result. -/
def skipelem (path : List UInt8) : Option (List UInt8 × List UInt8) :=
  let s := path.dropWhile (· = slash)
  if s = [] then none
  else some ((s.dropWhile (· ≠ slash)).dropWhile (· = slash), (s.takeWhile (· ≠ slash)).take DIRSIZ)

/-! ### What is read back -/

section

variable {b : Block} {i j w : ℕ}

theorem loHalf_halves (lo hi : UInt16) : loHalf (halves lo hi) = lo := by
  apply UInt16.toNat_inj.mp
  have hlo := lo.toNat_lt
  have hhi := hi.toNat_lt
  simp only [loHalf, halves, UInt16.toNat_ofNat', UInt32.toNat_ofNat']
  omega

theorem hiHalf_halves (lo hi : UInt16) : hiHalf (halves lo hi) = hi := by
  apply UInt16.toNat_inj.mp
  have hlo := lo.toNat_lt
  have hhi := hi.toNat_lt
  simp only [hiHalf, halves, UInt16.toNat_ofNat', UInt32.toNat_ofNat']
  omega

/-- A word that none of the addresses is stored to. -/
theorem getInt_putAddrs_other (addrs : Slot → UInt32) (l : List Slot)
    (h : ∀ j : Slot, w ≠ 16 * i + 3 + j) : (putAddrs b i addrs l).getInt w = b.getInt w := by
  induction l generalizing b with
  | nil => rfl
  | cons j l ih =>
    rw [putAddrs, List.foldl_cons, ← putAddrs, ih, Block.getInt_putInt_other _ _ (h j)]

theorem getInt_putAddrs (addrs : Slot → UInt32) (l : List Slot) (k : Slot) (hi : i < IPB) :
    (putAddrs b i addrs l).getInt (16 * i + 3 + k) =
      if k ∈ l then addrs k else b.getInt (16 * i + 3 + k) := by
  have hlt : k.val < 13 := k.isLt
  have hw : 16 * i + 3 + k.val < BSIZE / 4 := by
    change i < 8 at hi
    change 16 * i + 3 + k.val < 128
    omega
  induction l generalizing b with
  | nil => rfl
  | cons j l ih =>
    rw [putAddrs, List.foldl_cons, ← putAddrs, ih]
    by_cases hm : k ∈ l
    · rw [if_pos hm, if_pos (List.mem_cons_of_mem _ hm)]
    · rw [if_neg hm]
      by_cases hj : k = j
      · rw [hj, if_pos List.mem_cons_self, Block.getInt_putInt_same _ (hj ▸ hw)]
      · rw [if_neg (by simp [hj, hm]), Block.getInt_putInt_other]
        exact fun he => hj (Fin.ext (by omega))

/-- A word of another inode. -/
theorem getInt_putDinode_other (d : Dinode) (h : w < 16 * i ∨ 16 * i + 16 ≤ w) :
    (putDinode b i d).getInt w = b.getInt w := by
  rw [putDinode, getInt_putAddrs_other, Block.getInt_putInt_other _ _ (by omega),
    Block.getInt_putInt_other _ _ (by omega), Block.getInt_putInt_other _ _ (by omega)]
  intro j
  have hlt : j.val < 13 := j.isLt
  omega

theorem getDinode_putDinode (d : Dinode) (hi : i < IPB) : getDinode (putDinode b i d) i = d := by
  have hlt : i < 8 := hi
  have h0 : 16 * i < BSIZE / 4 := by change 16 * i < 128; omega
  have h1 : 16 * i + 1 < BSIZE / 4 := by change 16 * i + 1 < 128; omega
  have h2 : 16 * i + 2 < BSIZE / 4 := by change 16 * i + 2 < 128; omega
  have hw0 : (putDinode b i d).getInt (16 * i) = halves d.type d.major := by
    rw [putDinode, getInt_putAddrs_other _ _ (fun j => by omega),
      Block.getInt_putInt_other _ _ (by omega), Block.getInt_putInt_other _ _ (by omega),
      Block.getInt_putInt_same _ h0]
  have hw1 : (putDinode b i d).getInt (16 * i + 1) = halves d.minor d.nlink := by
    rw [putDinode, getInt_putAddrs_other _ _ (fun j => by omega),
      Block.getInt_putInt_other _ _ (by omega), Block.getInt_putInt_same _ h1]
  have hw2 : (putDinode b i d).getInt (16 * i + 2) = d.size := by
    rw [putDinode, getInt_putAddrs_other _ _ (fun j => by omega), Block.getInt_putInt_same _ h2]
  ext1
  · exact (congrArg loHalf hw0).trans (loHalf_halves _ _)
  · exact (congrArg hiHalf hw0).trans (hiHalf_halves _ _)
  · exact (congrArg loHalf hw1).trans (loHalf_halves _ _)
  · exact (congrArg hiHalf hw1).trans (hiHalf_halves _ _)
  · exact hw2
  · funext k
    exact (getInt_putAddrs _ _ k hi).trans (if_pos (List.mem_finRange k))

theorem getDinode_putDinode_other (d : Dinode) (h : i ≠ j) :
    getDinode (putDinode b i d) j = getDinode b j := by
  have hw : ∀ k, k < 16 → (putDinode b i d).getInt (16 * j + k) = b.getInt (16 * j + k) :=
    fun k hk => getInt_putDinode_other d (by omega)
  have h0 := hw 0 (by omega)
  have h1 := hw 1 (by omega)
  have h2 := hw 2 (by omega)
  ext1
  · exact congrArg loHalf h0
  · exact congrArg hiHalf h0
  · exact congrArg loHalf h1
  · exact congrArg hiHalf h1
  · exact h2
  · funext k
    have hlt : k.val < 13 := k.isLt
    have hk := hw (3 + k.val) (by omega)
    rwa [← Nat.add_assoc] at hk

theorem getBit_setBit (hi : i < BPB) : getBit (setBit b i) j = if j = i then true else getBit b j := by
  have hlt : i < 512 * 8 := hi
  have hi8 : i / 8 < BSIZE := by change i / 8 < 512; omega
  rw [getBit, setBit, Block.byte_setByte]
  have hor : (b.byte (i / 8)).toNat ||| 2 ^ (i % 8) < 256 :=
    Nat.or_lt_two_pow (n := 8) (b.byte (i / 8)).toNat_lt
      (Nat.pow_lt_pow_right (by decide) (Nat.mod_lt i (by decide)))
  by_cases hj : j / 8 = i / 8
  · rw [if_pos ⟨hj, hj ▸ hi8⟩, UInt8.toNat_ofNat', Nat.mod_eq_of_lt hor, Nat.testBit_or,
      Nat.testBit_two_pow]
    by_cases hji : j = i
    · rw [if_pos hji, hji]
      simp
    · have hne : i % 8 ≠ j % 8 := by omega
      rw [if_neg hji, getBit, hj, decide_eq_false hne, Bool.or_false]
  · rw [if_neg (fun h => hj h.1), if_neg (fun h => hj (by rw [h]))]
    rfl

theorem byte_overlay {o : ℕ} {src : List UInt8} (h : j < BSIZE) :
    (overlay b o src).byte j =
      if o ≤ j ∧ j < o + src.length then src.getD (j - o) 0 else b.byte j := by
  rw [Block.byte, dif_pos h, overlay, Block.byte, dif_pos h]

end

end Xv6.Fs
