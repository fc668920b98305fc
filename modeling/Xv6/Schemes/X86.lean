import Mathlib.Data.BitVec
import Mathlib.Logic.Relation

/-! @scheme x86 | name:A fragment of x86 | family:machines

    The 32-bit instructions a C compiler and a context switch use on words: moves, compares, jumps,
    calls, stack frames, `pusha` and `popa`. A place in the code is an element of a type `C` that an
    image maps to addresses and back. What is addressed through `%esp` and `%ebp` lies in the stack
    segment, everything else in the data segment. -/

namespace Xv6.Schemes.X86

abbrev Word : Type := BitVec 32

/-- The general registers. -/
structure Regs where
  eax : Word
  ecx : Word
  edx : Word
  ebx : Word
  esp : Word
  ebp : Word
  esi : Word
  edi : Word
  deriving DecidableEq

inductive Reg where
  | eax | ecx | edx | ebx | esp | ebp | esi | edi
  deriving DecidableEq

namespace Regs

def get (r : Regs) : Reg → Word
  | .eax => r.eax
  | .ecx => r.ecx
  | .edx => r.edx
  | .ebx => r.ebx
  | .esp => r.esp
  | .ebp => r.ebp
  | .esi => r.esi
  | .edi => r.edi

def set (r : Regs) (v : Word) : Reg → Regs
  | .eax => { r with eax := v }
  | .ecx => { r with ecx := v }
  | .edx => { r with edx := v }
  | .ebx => { r with ebx := v }
  | .esp => { r with esp := v }
  | .ebp => { r with ebp := v }
  | .esi => { r with esi := v }
  | .edi => { r with edi := v }

end Regs

/-- Operands: `%r`, `$w`, `a`, `d(%r)` in the data segment, and `d(%ebp)` in the stack. -/
inductive Arg where
  | reg (r : Reg)
  | imm (w : Word)
  | mem (a : Word)
  | field (d : Word) (r : Reg)
  | frame (d : Word)
  deriving DecidableEq

/-- Instructions, source operand first; jumps name places in the code. -/
inductive Instr (C : Type) where
  | push (src : Arg)
  | mov (src dst : Arg)
  | add (src dst : Arg)
  | sub (src dst : Arg)
  | cmp (src dst : Arg)
  | test (src dst : Arg)
  | jmp (c : C)
  | je (c : C)
  | jne (c : C)
  | jb (c : C)
  | call (c : C)
  | leave
  | ret
  | nop
  | pusha
  | popa

/-- Code: the instruction at a place with the place after it, and the addresses of places. -/
structure Image (C : Type) where
  fetch : C → Option (Instr C × C)
  encode : C → Word
  decode : Word → C

structure Machine (C : Type) where
  regs : Regs
  pc : C
  zf : Bool
  cf : Bool
  stack : Word → Word
  data : Word → Word

namespace Machine

variable {C : Type}

def read (m : Machine C) : Arg → Word
  | .reg r => m.regs.get r
  | .imm w => w
  | .mem a => m.data a
  | .field d r => m.data (m.regs.get r + d)
  | .frame d => m.stack (m.regs.ebp + d)

def write (m : Machine C) (v : Word) : Arg → Machine C
  | .reg r => { m with regs := m.regs.set v r }
  | .imm _ => m
  | .mem a => { m with data := Function.update m.data a v }
  | .field d r => { m with data := Function.update m.data (m.regs.get r + d) v }
  | .frame d => { m with stack := Function.update m.stack (m.regs.ebp + d) v }

def flags (m : Machine C) (zf cf : Bool) : Machine C := { m with zf := zf, cf := cf }

def push (m : Machine C) (v : Word) : Machine C :=
  { m with
    regs := { m.regs with esp := m.regs.esp - 4 }
    stack := Function.update m.stack (m.regs.esp - 4) v }

def goto (m : Machine C) (c : C) : Machine C := { m with pc := c }

/-- `pusha`: the eight registers, `%esp` with its value before. -/
def pusha (m : Machine C) : Machine C :=
  let r := m.regs
  { m with
    regs := { r with esp := r.esp - 32 }
    stack := Function.update (Function.update (Function.update (Function.update (Function.update
      (Function.update (Function.update (Function.update m.stack
        (r.esp - 4) r.eax) (r.esp - 8) r.ecx) (r.esp - 12) r.edx) (r.esp - 16) r.ebx)
        (r.esp - 20) r.esp) (r.esp - 24) r.ebp) (r.esp - 28) r.esi) (r.esp - 32) r.edi }

/-- `popa`: reload the registers `pusha` saved, all but `%esp`, which moves past them. -/
def popa (m : Machine C) : Machine C :=
  { m with regs := {
      edi := m.stack m.regs.esp
      esi := m.stack (m.regs.esp + 4)
      ebp := m.stack (m.regs.esp + 8)
      ebx := m.stack (m.regs.esp + 16)
      edx := m.stack (m.regs.esp + 20)
      ecx := m.stack (m.regs.esp + 24)
      eax := m.stack (m.regs.esp + 28)
      esp := m.regs.esp + 32 } }

/-- Execute one instruction, `next` being the place after it. -/
def exec (I : Image C) (m : Machine C) (next : C) : Instr C → Machine C
  | .push src => (m.push (m.read src)).goto next
  | .mov src dst => (m.write (m.read src) dst).goto next
  | .add src dst =>
    let v := m.read dst + m.read src
    ((m.write v dst).flags (v = 0) (v < m.read src)).goto next
  | .sub src dst =>
    let v := m.read dst - m.read src
    ((m.write v dst).flags (v = 0) (m.read dst < m.read src)).goto next
  | .cmp src dst => (m.flags (m.read dst = m.read src) (m.read dst < m.read src)).goto next
  | .test src dst => (m.flags (m.read dst &&& m.read src = 0) false).goto next
  | .jmp c => m.goto c
  | .je c => m.goto (if m.zf then c else next)
  | .jne c => m.goto (if m.zf then next else c)
  | .jb c => m.goto (if m.cf then c else next)
  | .call c => (m.push (I.encode next)).goto c
  | .leave =>
    ({ m with regs := { m.regs with ebp := m.stack m.regs.ebp, esp := m.regs.ebp + 4 } }).goto next
  | .ret =>
    ({ m with regs := { m.regs with esp := m.regs.esp + 4 } }).goto (I.decode (m.stack m.regs.esp))
  | .nop => m.goto next
  | .pusha => m.pusha.goto next
  | .popa => m.popa.goto next

/-- One step; `none` where the image has no code. -/
def step (I : Image C) (m : Machine C) : Option (Machine C) :=
  (I.fetch m.pc).map fun (i, next) => m.exec I next i

end Machine

/-! ### Saved registers -/

section Saved

variable {C : Type}

theorem sub_ne {a b c : Word} (h : b ≠ c) : a - b ≠ a - c := by bv_omega

theorem sub_ne_self {a b : Word} (h : b ≠ 0) : a - b ≠ a := by bv_omega

/-- `pusha` writes only below the stack pointer, within 32 bytes. -/
theorem pusha_stack_other (m : Machine C) {x : Word} (h : ∀ k, 0 < k → k ≤ 32 → x ≠ m.regs.esp - k) :
    m.pusha.stack x = m.stack x := by
  simp only [Machine.pusha]
  rw [Function.update_of_ne (h 32 (by decide) (by decide)),
    Function.update_of_ne (h 28 (by decide) (by decide)),
    Function.update_of_ne (h 24 (by decide) (by decide)),
    Function.update_of_ne (h 20 (by decide) (by decide)),
    Function.update_of_ne (h 16 (by decide) (by decide)),
    Function.update_of_ne (h 12 (by decide) (by decide)),
    Function.update_of_ne (h 8 (by decide) (by decide)),
    Function.update_of_ne (h 4 (by decide) (by decide))]

/-- `popa` on the stack and the stack pointer that `pusha` left restores every register. -/
theorem popa_pusha (m m' : Machine C) (hesp : m'.regs.esp = m.pusha.regs.esp)
    (hstack : m'.stack = m.pusha.stack) : m'.popa.regs = m.regs := by
  have h4 : m.regs.esp - 32 + 4 = m.regs.esp - 28 := by bv_omega
  have h8 : m.regs.esp - 32 + 8 = m.regs.esp - 24 := by bv_omega
  have h16 : m.regs.esp - 32 + 16 = m.regs.esp - 16 := by bv_omega
  have h20 : m.regs.esp - 32 + 20 = m.regs.esp - 12 := by bv_omega
  have h24 : m.regs.esp - 32 + 24 = m.regs.esp - 8 := by bv_omega
  have h28 : m.regs.esp - 32 + 28 = m.regs.esp - 4 := by bv_omega
  have h32 : m.regs.esp - 32 + 32 = m.regs.esp := by bv_omega
  have hne : ∀ b c : Word, b ≠ c → m.regs.esp - b ≠ m.regs.esp - c := fun _ _ => sub_ne
  simp only [Machine.pusha] at hesp hstack
  simp only [Machine.popa, hesp, hstack, h4, h8, h16, h20, h24, h28, h32]
  simp [hne]

end Saved

/-! ### Straight runs

    `Path` is a run of own steps of a deterministic machine within a larger transition relation `R`;
    whatever `R` reaches from its start is met on the way or reached from its end. -/

section Path

variable {C : Type} {I : Image C} {R : Machine C → Machine C → Prop} {Q : Machine C → Prop}

/-- Steps through states in `Q`, from each of which `R` allows nothing else. -/
inductive Path (I : Image C) (R : Machine C → Machine C → Prop) (Q : Machine C → Prop) :
    Machine C → Machine C → Prop
  | refl (m : Machine C) : Path I R Q m m
  | step {m m' m'' : Machine C} : Q m → (∀ x, R m x ↔ m.step I = some x) → m.step I = some m' →
      Path I R Q m' m'' → Path I R Q m m''

theorem Path.trans {m m' m'' : Machine C} (h : Path I R Q m m') (h' : Path I R Q m' m'') :
    Path I R Q m m'' := by
  induction h with
  | refl => exact h'
  | step hQ hR hs _ ih => exact .step hQ hR hs (ih h')

/-- A path is a run of `R`. -/
theorem Path.reaches {m m' : Machine C} (h : Path I R Q m m') : Relation.ReflTransGen R m m' := by
  induction h with
  | refl => exact .refl
  | step _ hR hs _ ih => exact .head ((hR _).mpr hs) ih

/-- Whatever `R` reaches from the start of a path is on it or reached from its end. -/
theorem Path.meets {m m' x : Machine C} (h : Path I R Q m m')
    (hx : Relation.ReflTransGen R m x) : Q x ∨ Relation.ReflTransGen R m' x := by
  induction h with
  | refl => exact Or.inr hx
  | step hQ hR hs _ ih =>
    rcases hx.cases_head with rfl | ⟨y, hy, hyx⟩
    · exact Or.inl hQ
    · obtain rfl := Option.some.inj (((hR y).mp hy).symm.trans hs)
      exact ih hyx

end Path

end Xv6.Schemes.X86
