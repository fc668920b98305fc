import Xv6.Fs.Layout
import Xv6.Schemes.While

/-! @src fs.c fs.h | name:The bitmap by its bytes and masks | layer:model

    `balloc` and `bfree` statement by statement, with the machine's integers: `b`, `bi` and `m` are
    `int`s, what is compared with `sb.size` is unsigned, and a byte of a buffer is promoted to an `int`
    before it is masked. A block is what `bread` returns; `log_write` makes it so. -/

namespace Xv6.Fs.Bitmap

open Xv6.Disk Xv6.Schemes

abbrev Uint : Type := BitVec 32

/-- The blocks of the device. -/
abbrev Blocks : Type := Uint → Block

/-- `bp->data[bi/8]`. -/
def byteOf (data : Block) (bi : Uint) : Uint := (data.byte (bi.sdiv 8).toNat).toBitVec.setWidth 32

/-- `bp->data[bi/8] = v`. -/
def setByteOf (data : Block) (bi v : Uint) : Block :=
  data.setByte (bi.sdiv 8).toNat (.ofBitVec (v.setWidth 8))

/-- `1 << (bi % 8)`. -/
def mask (bi : Uint) : Uint := (1 : Uint) <<< bi.srem 8

/-- Zero a block. -/
def bzero (blk : Blocks) (bno : Uint) : Blocks := Function.update blk bno Block.zero

theorem toInt_succ {bi : Uint} (h : bi.slt 4096) :
    bi.toInt < 4096 ∧ (bi + 1).toInt = bi.toInt + 1 := by
  have hlt : bi.toInt < 4096 := BitVec.slt_iff_toInt_lt.mp h
  have hge : -2 ^ 31 ≤ bi.toInt := BitVec.le_toInt bi
  refine ⟨hlt, ?_⟩
  rw [BitVec.toInt_add]
  exact Int.bmod_eq_of_le (by show -2 ^ 31 ≤ bi.toInt + 1; omega)
    (by show bi.toInt + 1 < 2 ^ 31; omega)

/-- The bits of a buffer from `bi` on: the one that is free, if any. -/
def bitLoop (size b : Uint) (data : Block) (bi : Uint) : Option Uint :=
  if bi.slt 4096 ∧ b + bi < size then
    if byteOf data bi &&& mask bi = 0 then some bi
    else bitLoop size b data (bi + 1)
  else none
termination_by (4096 - bi.toInt).toNat
decreasing_by
  rename_i h _
  obtain ⟨hlt, hsucc⟩ := toInt_succ h.1
  omega

/-- The outer loop of `balloc`: the blocks, `b`, and what has been returned. -/
structure Scan where
  blk : Blocks
  b : Uint
  ret : Option Uint

def guard (sb : Superblock) (s : Scan) : Prop := s.ret = none ∧ s.b < sb.size.toBitVec

/-- One round of it. -/
def round (sb : Superblock) (s : Scan) : Scan :=
  let n := s.b.sdiv 4096 + sb.bmapstart.toBitVec
  let data := s.blk n
  match bitLoop sb.size.toBitVec s.b data 0 with
  | some bi =>
    let data := setByteOf data bi (byteOf data bi ||| mask bi)
    { blk := bzero (Function.update s.blk n data) (s.b + bi), b := s.b, ret := some (s.b + bi) }
  | none => { s with b := s.b + 4096 }

/-- `balloc` ends like this; without a number to return it panics. -/
def Balloc (sb : Superblock) (blk : Blocks) (t : Scan) : Prop :=
  Schemes.Ends (guard sb) (round sb) ⟨blk, 0, none⟩ t

/-- `BBLOCK(b, sb)`, for an unsigned `b`. -/
def BBLOCK (b : Uint) (sb : Superblock) : Uint := b / 4096 + sb.bmapstart.toBitVec

/-- `bfree`, or nothing if it panics. It reads the superblock again. -/
def bfree (blk : Blocks) (b : Uint) : Option Blocks :=
  let sb := Superblock.ofBlock (blk 1)
  let n := BBLOCK b sb
  let data := blk n
  let bi := b % 4096
  if byteOf data bi &&& mask bi = 0 then none
  else some (Function.update blk n (setByteOf data bi (byteOf data bi &&& ~~~ mask bi)))

end Xv6.Fs.Bitmap
