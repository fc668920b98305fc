import Xv6.Memory.PageTable
import Xv6.Schemes.Traced

/-! @src syscall.c sysfile.c stat.h | name:System call arguments | layer:model

    How the kernel fetches the arguments of a system call from user memory, and which pointers
    `sys_read`, `sys_write`, `sys_fstat`, `sys_pipe` and `sys_exec` pass on. The trace of a
    computation holds every user address that is read; a call that returns -1 is one that fails. -/

namespace Xv6.Syscall
open Xv6.Schemes
open Xv6.Schemes.X86 (Word)
open Xv6.Memory (Byte)

abbrev NOFILE : ℕ := 16
abbrev MAXARG : ℕ := 32

/-- The address of a `struct file`. -/
abbrev File := ℕ

/-- What the checks use of the current process: `sz`, `tf->esp` and `ofile`. -/
structure Proc where
  sz : Word
  esp : Word
  ofile : ℕ → Option File

/-- `*(char*)a`. -/
def loadByte (m : Word → Byte) (a : Word) : Traced Word Byte := .touch a (m a)

/-- `*(int*)a`. -/
def loadInt (m : Word → Byte) (a : Word) : Traced Word Word := do
  let b₀ ← loadByte m a
  let b₁ ← loadByte m (a + 1)
  let b₂ ← loadByte m (a + 2)
  let b₃ ← loadByte m (a + 3)
  return b₃ ++ b₂ ++ b₁ ++ b₀

/-! ### syscall.c -/

/-- `fetchint`. -/
def fetchint (m : Word → Byte) (p : Proc) (addr : Word) : Traced Word Word :=
  if addr ≥ p.sz ∨ addr + 4 > p.sz then .fail else loadInt m addr

/-- The loop of `fetchstr` over `s`, up to `ep`. -/
def strLoop (m : Word → Byte) (pp ep s : Word) : Traced Word Word :=
  if s < ep then do
    let b ← loadByte m s
    if b = 0 then return s - pp else strLoop m pp ep (s + 1)
  else .fail
termination_by (ep - s).toNat
decreasing_by bv_omega

/-- `fetchstr`: the pointer `*pp` and the length. -/
def fetchstr (m : Word → Byte) (p : Proc) (addr : Word) : Traced Word (Word × Word) :=
  if addr ≥ p.sz then .fail else do
    let k ← strLoop m addr p.sz addr
    return (addr, k)

/-- `argint`. -/
def argint (m : Word → Byte) (p : Proc) (n : Word) : Traced Word Word :=
  fetchint m p (p.esp + 4 + 4 * n)

/-- `argptr`. -/
def argptr (m : Word → Byte) (p : Proc) (n size : Word) : Traced Word Word := do
  let i ← argint m p n
  if size.toInt < 0 ∨ i ≥ p.sz ∨ i + size > p.sz then .fail else return i

/-- `argstr`. -/
def argstr (m : Word → Byte) (p : Proc) (n : Word) : Traced Word (Word × Word) := do
  let addr ← argint m p n
  fetchstr m p addr

/-! ### sysfile.c -/

/-- `sizeof(struct stat)`. -/
def statSize : Word := 20

/-- `2*sizeof(fd[0])`. -/
def pipeSize : Word := 8

/-- What a system call does with its arguments. -/
inductive Call where
  | fileread (f : File) (p n : Word)
  | filewrite (f : File) (p n : Word)
  | filestat (f : File) (st : Word)
  | pipe (fd : Word)
  | exec (path : Word) (argv : List Word)

/-- `argfd`: the open file. -/
def argfd (m : Word → Byte) (p : Proc) (n : Word) : Traced Word File := do
  let fd ← argint m p n
  if fd.toInt < 0 ∨ fd.toInt ≥ NOFILE then .fail else
    match p.ofile fd.toNat with
    | none => .fail
    | some f => return f

/-- The arguments of `sys_read` and `sys_write`: a file, a buffer and its size. -/
def argbuf (m : Word → Byte) (p : Proc) (call : File → Word → Word → Call) :
    Traced Word Call := do
  let f ← argfd m p 0
  let n ← argint m p 2
  let b ← argptr m p 1 n
  return call f b n

/-- `sys_read`. -/
def sys_read (m : Word → Byte) (p : Proc) : Traced Word Call := argbuf m p .fileread

/-- `sys_write`. -/
def sys_write (m : Word → Byte) (p : Proc) : Traced Word Call := argbuf m p .filewrite

/-- `sys_fstat`. -/
def sys_fstat (m : Word → Byte) (p : Proc) : Traced Word Call := do
  let f ← argfd m p 0
  let st ← argptr m p 1 statSize
  return .filestat f st

/-- `sys_pipe`. -/
def sys_pipe (m : Word → Byte) (p : Proc) : Traced Word Call := do
  let fd ← argptr m p 0 pipeSize
  return .pipe fd

/-- The loop of `sys_exec` at the index `i`, with `left` entries of `argv` left. -/
def argvLoop (m : Word → Byte) (p : Proc) (uargv : Word) : ℕ → ℕ → Traced Word (List Word)
  | 0, _ => .fail
  | left + 1, i => do
    let uarg ← fetchint m p (uargv + 4 * BitVec.ofNat 32 i)
    if uarg = 0 then return [] else
      let (arg, _) ← fetchstr m p uarg
      let rest ← argvLoop m p uargv left (i + 1)
      return arg :: rest

/-- `sys_exec`. -/
def sys_exec (m : Word → Byte) (p : Proc) : Traced Word Call := do
  let (path, _) ← argstr m p 0
  let uargv ← argint m p 1
  let argv ← argvLoop m p uargv MAXARG 0
  return .exec path argv

end Xv6.Syscall
