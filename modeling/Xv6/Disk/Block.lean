import Mathlib.Logic.Function.Basic
import Mathlib.Tactic.Ring

/-! @src param.h fs.h buf.h | name:Disk blocks | layer:model

    The sizes fixed by `param.h` and `fs.h`, and a disk block as its `BSIZE` bytes. Structures that
    the kernel overlays on a block (the log header, an indirect block) are read and written as
    little-endian 32-bit words. -/

namespace Xv6.Disk

/-- `param.h`: max # of blocks any FS op writes. -/
abbrev MAXOPBLOCKS : Nat := 10
/-- `param.h`: max data blocks in on-disk log. -/
abbrev LOGSIZE : Nat := MAXOPBLOCKS * 3
/-- `param.h`: size of disk block cache. -/
abbrev NBUF : Nat := MAXOPBLOCKS * 3
/-- `fs.h`: block size. -/
abbrev BSIZE : Nat := 512
/-- `mkfs.c`: number of log blocks written to the superblock. -/
abbrev nlog : Nat := LOGSIZE

theorem MAXOPBLOCKS_eq : MAXOPBLOCKS = 10 := rfl
theorem LOGSIZE_eq : LOGSIZE = 30 := rfl
theorem nlog_eq : nlog = 30 := rfl
theorem BSIZE_eq : BSIZE = 512 := rfl

/-- The bytes of one disk block. -/
abbrev Block : Type := Fin BSIZE → UInt8

namespace Block

/-- The byte at offset `i`; offsets past the block read as zero. -/
def byte (b : Block) (i : Nat) : UInt8 := if h : i < BSIZE then b ⟨i, h⟩ else 0

/-- Store one byte; a store past the block does nothing. -/
def setByte (b : Block) (i : Nat) (v : UInt8) : Block := fun j => if j.val = i then v else b j

theorem byte_setByte (b : Block) (i j : Nat) (v : UInt8) :
    (b.setByte i v).byte j = if j = i ∧ j < BSIZE then v else b.byte j := by
  by_cases hj : j < BSIZE
  · rcases eq_or_ne j i with rfl | hi
    · simp [byte, setByte, hj]
    · simp [byte, setByte, hj, hi]
  · simp [byte, hj]

/-- The block of zeroes. -/
def zero : Block := fun _ => 0

theorem byte_zero (i : Nat) : zero.byte i = 0 := by simp [byte, zero]

/-- The `w`-th little-endian 32-bit word. -/
def getInt (b : Block) (w : Nat) : UInt32 :=
  UInt32.ofNat ((b.byte (4 * w)).toNat + 256 * (b.byte (4 * w + 1)).toNat +
    65536 * (b.byte (4 * w + 2)).toNat + 16777216 * (b.byte (4 * w + 3)).toNat)

/-- Store a 32-bit word at word index `w`. -/
def putInt (b : Block) (w : Nat) (v : UInt32) : Block :=
  (((b.setByte (4 * w) (UInt8.ofNat v.toNat)).setByte (4 * w + 1)
    (UInt8.ofNat (v.toNat / 256))).setByte (4 * w + 2) (UInt8.ofNat (v.toNat / 65536))).setByte
      (4 * w + 3) (UInt8.ofNat (v.toNat / 16777216))

theorem getInt_putInt_same (b : Block) {w : Nat} (hw : w < BSIZE / 4) (v : UInt32) :
    (b.putInt w v).getInt w = v := by
  have h0 : 4 * w < BSIZE := by omega
  have h1 : 4 * w + 1 < BSIZE := by omega
  have h2 : 4 * w + 2 < BSIZE := by omega
  have h3 : 4 * w + 3 < BSIZE := by omega
  have hv := v.toNat_lt
  apply UInt32.toNat_inj.mp
  simp only [getInt, putInt, byte_setByte, h0, h1, h2, h3, and_true, if_true,
    UInt32.toNat_ofNat', UInt8.toNat_ofNat',
    show 4 * w ≠ 4 * w + 1 by omega, show 4 * w ≠ 4 * w + 2 by omega,
    show 4 * w ≠ 4 * w + 3 by omega, show 4 * w + 1 ≠ 4 * w + 2 by omega,
    show 4 * w + 1 ≠ 4 * w + 3 by omega, show 4 * w + 2 ≠ 4 * w + 3 by omega, if_false]
  omega

theorem byte_putInt_other (b : Block) {w i : Nat} (v : UInt32) (hi : i < 4 * w ∨ 4 * w + 4 ≤ i) :
    (b.putInt w v).byte i = b.byte i := by
  simp only [putInt, byte_setByte]
  rw [if_neg (by omega), if_neg (by omega), if_neg (by omega), if_neg (by omega)]

theorem getInt_putInt_other (b : Block) {w x : Nat} (v : UInt32) (hne : x ≠ w) :
    (b.putInt w v).getInt x = b.getInt x := by
  simp only [getInt]
  rw [byte_putInt_other b v (by omega), byte_putInt_other b v (by omega),
    byte_putInt_other b v (by omega), byte_putInt_other b v (by omega)]

theorem getInt_zero (w : Nat) : zero.getInt w = 0 := by simp [getInt, byte_zero]

end Block

end Xv6.Disk
