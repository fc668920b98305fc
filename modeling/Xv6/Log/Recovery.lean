import Xv6.Disk.Block
import Xv6.Schemes.Writes

/-! @src log.c bio.c | name:Commit and recovery of the write-ahead log | layer:model

    `commit()` and `recover_from_log()` on one device, down to the single-block writes they issue.
    A crash keeps the disk after some prefix of those writes and forgets the buffer cache. -/

namespace Xv6.Log
open Xv6.Disk Xv6.Schemes

/-- Block numbers are the `uint`s of `struct buf`. -/
abbrev BlockNo : Type := UInt32

/-- The in-memory `struct logheader`: the blocks `block[0..n)`, with `n` their number. -/
abbrev LogHeader : Type := List BlockNo

/-- The disk, the valid buffers of the cache, and the block writes issued so far. -/
structure Dev where
  disk : BlockNo → Block
  buf : BlockNo → Option Block
  wrote : List (BlockNo × Block)

namespace Dev

/-- `bread`: the cached contents, or else the disk block. -/
def bread (s : Dev) (b : BlockNo) : Block := (s.buf b).getD (s.disk b)

/-- `bwrite`: one atomic block write, leaving the buffer clean. -/
def bwrite (s : Dev) (b : BlockNo) (data : Block) : Dev where
  disk := Function.update s.disk b data
  buf := Function.update s.buf b (some data)
  wrote := s.wrote ++ [(b, data)]

/-- After a crash: the disk survives, the cache is empty. -/
def boot (d : BlockNo → Block) : Dev := ⟨d, fun _ => none, []⟩

end Dev

/-- The log block that holds the contents of `lh.block[tail]`. -/
def logBlock (start : BlockNo) (tail : ℕ) : BlockNo := start + UInt32.ofNat tail + 1

/-- `install_trans`: copy committed blocks from log to their home location. -/
def installTrans (start : BlockNo) : ℕ → LogHeader → Dev → Dev
  | _, [], s => s
  | tail, b :: bs, s => installTrans start (tail + 1) bs (s.bwrite b (s.bread (logBlock start tail)))

/-- The number of logged blocks a header block announces; `n` is a signed `int`. -/
def headN (h : Block) : ℕ := if (h.getInt 0).toNat < 2 ^ 31 then (h.getInt 0).toNat else 0

/-- `read_head`: read the log header from disk into the in-memory log header. -/
def readHead (start : BlockNo) (s : Dev) : LogHeader :=
  (List.range (headN (s.bread start))).map fun i => (s.bread start).getInt (i + 1)

/-- The loop of `write_head` that stores `lh.block[i]`. -/
def putBlocks : ℕ → LogHeader → Block → Block
  | _, [], hb => hb
  | i, b :: bs, hb => putBlocks (i + 1) bs (hb.putInt (i + 1) b)

/-- The header block `write_head` leaves in the buffer. -/
def putHead (lh : LogHeader) (hb : Block) : Block :=
  putBlocks 0 lh (hb.putInt 0 (UInt32.ofNat lh.length))

/-- `write_head`: write the in-memory log header to disk; the true point of commit. -/
def writeHead (start : BlockNo) (lh : LogHeader) (s : Dev) : Dev :=
  s.bwrite start (putHead lh (s.bread start))

/-- `write_log`: copy modified blocks from cache to log. -/
def writeLog (start : BlockNo) : ℕ → LogHeader → Dev → Dev
  | _, [], s => s
  | tail, b :: bs, s => writeLog start (tail + 1) bs (s.bwrite (logBlock start tail) (s.bread b))

/-- `commit`, for the in-memory header `lh`. -/
def commit (start : BlockNo) (lh : LogHeader) (s : Dev) : Dev :=
  if 0 < lh.length then
    writeHead start [] (installTrans start 0 lh (writeHead start lh (writeLog start 0 lh s)))
  else s

/-- `recover_from_log`. -/
def recoverFromLog (start : BlockNo) (s : Dev) : Dev :=
  writeHead start [] (installTrans start 0 (readHead start s) s)

/-- The disk left by a crash after the first `k` block writes of `commit`. -/
def crashInCommit (start : BlockNo) (lh : LogHeader) (s : Dev) (k : ℕ) : BlockNo → Block :=
  applyWrites ((commit start lh { s with wrote := [] }).wrote.take k) s.disk

/-- One more crash: recovery started from disk `d` and issued some of its writes. -/
def RecoveryCrash (start : BlockNo) (d d' : BlockNo → Block) : Prop :=
  ∃ k, d' = applyWrites ((recoverFromLog start (Dev.boot d)).wrote.take k) d

/-- The disk after a recovery from `d` that completes. -/
def recovered (start : BlockNo) (d : BlockNo → Block) : BlockNo → Block :=
  (recoverFromLog start (Dev.boot d)).disk

/-- The log's own blocks, as laid out by the superblock: `size` blocks from `start` on. -/
def InLog (start : BlockNo) (size : ℕ) (b : BlockNo) : Prop :=
  ∃ i < size, b = start + UInt32.ofNat i

instance (start : BlockNo) (size : ℕ) (b : BlockNo) : Decidable (InLog start size b) :=
  decidable_of_iff ((List.range size).any fun i => b = start + UInt32.ofNat i) (by simp [InLog])

/-- The home blocks of `D` with the logged blocks replaced by their contents `C`. -/
def overlay (lh : LogHeader) (C D : BlockNo → Block) (b : BlockNo) : Block :=
  if b ∈ lh then C b else D b

/-- The header write of `write_head` with `n > 0` is among the first `k` writes of `commit`. -/
def HeadReached (start : BlockNo) (lh : LogHeader) (s : Dev) (k : ℕ) : Prop :=
  ∃ w ∈ (commit start lh { s with wrote := [] }).wrote.take k, w.1 = start ∧ 0 < headN w.2

end Xv6.Log
