import Xv6.Fs.Inode

/-! @src file.c | name:Files | layer:model

    The functions on an open file, a pipe apart: what a pipe takes or gives comes from outside. -/

namespace Xv6.Fs
open Xv6.Disk Xv6.Schemes

def beginOp : Code Unit := perform .beginOp

def endOp : Code Unit := perform .endOp

/-- Close file `f`. -/
def fileclose (f : Fp) : Code Unit := do
  match ← perform (.fileDrop f) with
  | some ff =>
    if ff.type = .FD_INODE then
      beginOp
      iput ff.ip
      endOp
  | none => return ()

/-- What `piperead` and `pipewrite` return. -/
def piped : Code (Option ℕ) := do
  let x ← perform .input
  return x.map List.length

/-- The bytes of one transaction of `filewrite`. -/
def maxWrite : ℕ := (MAXOPBLOCKS - 1 - 1 - 2) / 2 * 512

/-- One turn of the loop of `filewrite`, with the bytes that it writes. -/
def writeChunk (f : Fp) (ip : Ip) (chunk : List UInt8) : Code (Option ℕ) := do
  beginOp
  ilock ip
  let g ← perform (.file f)
  let r ← writei ip chunk g.off
  if 0 < r.getD 0 then perform (.setOff f ((g.off + r.getD 0) % 2 ^ 32))
  iunlock ip
  endOp
  return r

/-- The loop of `filewrite`; a turn writes at least one byte. Is everything written? -/
def filewriteLoop (f : Fp) (ip : Ip) : ℕ → List UInt8 → Code Bool
  | 0, _ => return true
  | k + 1, src =>
    if src = [] then return true
    else do
      match ← writeChunk f ip (src.take maxWrite) with
      | none => return false
      | some r =>
        if r ≠ (src.take maxWrite).length then panic "short filewrite"
        else filewriteLoop f ip k (src.drop maxWrite)

/-- Write to file `f`; `none` is -1. -/
def filewrite (f : Fp) (src : List UInt8) : Code (Option ℕ) := do
  let ff ← perform (.file f)
  if ff.writable = false then return none
  else
    match ff.type with
    | .FD_PIPE => piped
    | .FD_INODE =>
      let done ← filewriteLoop f ff.ip src.length src
      return if done then some src.length else none
    | .FD_NONE => panic "filewrite"

end Xv6.Fs
