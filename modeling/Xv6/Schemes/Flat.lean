import Xv6.Schemes.Words
import Xv6.Schemes.X86

/-! @scheme flat | name:x86 with one memory | family:machines

    The same instructions where the stack and the data are one memory of bytes, so that what is pushed
    can be found through a pointer. Several steps of a deterministic machine are run at once. -/

namespace Xv6.Schemes.X86

open Bytes

structure Flat (C : Type) where
  regs : Regs
  pc : C
  zf : Bool
  cf : Bool
  mem : Mem 32

namespace Flat

variable {C : Type}

def read (m : Flat C) : Arg → Word
  | .reg r => m.regs.get r
  | .imm w => w
  | .mem a => load m.mem a
  | .field d r => load m.mem (m.regs.get r + d)
  | .frame d => load m.mem (m.regs.ebp + d)

def write (m : Flat C) (v : Word) : Arg → Flat C
  | .reg r => { m with regs := m.regs.set v r }
  | .imm _ => m
  | .mem a => { m with mem := store m.mem a v }
  | .field d r => { m with mem := store m.mem (m.regs.get r + d) v }
  | .frame d => { m with mem := store m.mem (m.regs.ebp + d) v }

def flags (m : Flat C) (zf cf : Bool) : Flat C := { m with zf := zf, cf := cf }

def goto (m : Flat C) (c : C) : Flat C := { m with pc := c }

def push (m : Flat C) (v : Word) : Flat C :=
  { m with
    regs := { m.regs with esp := m.regs.esp - 4 }
    mem := store m.mem (m.regs.esp - 4) v }

/-- The registers as `pusha` leaves them, from the last one up. -/
def saved (r : Regs) : List Word := [r.edi, r.esi, r.ebp, r.esp, r.ebx, r.edx, r.ecx, r.eax]

def pusha (m : Flat C) : Flat C :=
  { m with
    regs := { m.regs with esp := m.regs.esp - 32 }
    mem := Bytes.write m.mem (m.regs.esp - 32) (ofWords (saved m.regs)) }

def popa (m : Flat C) : Flat C :=
  { m with regs := {
      edi := load m.mem m.regs.esp
      esi := load m.mem (m.regs.esp + 4)
      ebp := load m.mem (m.regs.esp + 8)
      ebx := load m.mem (m.regs.esp + 16)
      edx := load m.mem (m.regs.esp + 20)
      ecx := load m.mem (m.regs.esp + 24)
      eax := load m.mem (m.regs.esp + 28)
      esp := m.regs.esp + 32 } }

/-- Execute one instruction, `next` being the place after it. -/
def exec (I : Image C) (m : Flat C) (next : C) : Instr C → Flat C
  | .push src => (m.push (m.read src)).goto next
  | .mov src dst => (m.write (m.read src) dst).goto next
  | .add src dst =>
    let v := m.read dst + m.read src
    ((m.write v dst).flags (v = 0) (v < m.read src)).goto next
  | .sub src dst =>
    let v := m.read dst - m.read src
    ((m.write v dst).flags (v = 0) (m.read dst < m.read src)).goto next
  | .cmp src dst => (m.flags (m.read dst = m.read src) (m.read dst < m.read src)).goto next
  | .test src dst => (m.flags (m.read dst &&& m.read src = 0) false).goto next
  | .jmp c => m.goto c
  | .je c => m.goto (if m.zf then c else next)
  | .jne c => m.goto (if m.zf then next else c)
  | .jb c => m.goto (if m.cf then c else next)
  | .call c => (m.push (I.encode next)).goto c
  | .leave =>
    ({ m with regs := { m.regs with ebp := load m.mem m.regs.ebp, esp := m.regs.ebp + 4 } }).goto next
  | .ret =>
    ({ m with regs := { m.regs with esp := m.regs.esp + 4 } }).goto (I.decode (load m.mem m.regs.esp))
  | .nop => m.goto next
  | .pusha => m.pusha.goto next
  | .popa => m.popa.goto next

/-- One step; `none` where the image has no code. -/
def step (I : Image C) (m : Flat C) : Option (Flat C) :=
  (I.fetch m.pc).map fun (i, next) => m.exec I next i

/-- So many steps. -/
def steps (I : Image C) : ℕ → Flat C → Option (Flat C)
  | 0, m => some m
  | n + 1, m => (m.step I).bind (steps I n)

theorem steps_add {I : Image C} {m m' : Flat C} {n : ℕ} (k : ℕ) (h : m.steps I n = some m') :
    m.steps I (n + k) = m'.steps I k := by
  induction n generalizing m with
  | zero => rw [Nat.zero_add, Option.some.inj h]
  | succ n ih =>
    obtain ⟨m₁, hfirst, hrest⟩ := Option.bind_eq_some_iff.mp h
    rw [Nat.add_right_comm, steps, hfirst]
    exact ih hrest

/-- `popa` loads what `pusha` has saved, whatever it finds where the stack pointer was saved. -/
theorem popa_of_saved {m : Flat C} {r : Regs} {a : Word} (ha : m.regs.esp = a)
    (h : ∀ i (hi : i < 8), load m.mem (a + BitVec.ofNat 32 (4 * i)) = (saved r)[i]) :
    m.popa.regs = { r with esp := a + 32 } := by
  have h0 : load m.mem a = r.edi := BitVec.add_zero a ▸ h 0 (by decide)
  have h1 : load m.mem (a + 4) = r.esi := h 1 (by decide)
  have h2 : load m.mem (a + 8) = r.ebp := h 2 (by decide)
  have h4 : load m.mem (a + 16) = r.ebx := h 4 (by decide)
  have h5 : load m.mem (a + 20) = r.edx := h 5 (by decide)
  have h6 : load m.mem (a + 24) = r.ecx := h 6 (by decide)
  have h7 : load m.mem (a + 28) = r.eax := h 7 (by decide)
  rw [popa, ha, h0, h1, h2, h4, h5, h6, h7]

end Flat

end Xv6.Schemes.X86
