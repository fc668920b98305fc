import Xv6.Memory.Stray

/-! @src exec.c vm.c | name:The user stack of exec | layer:model

    `exec` in two parts: up to the page for the stack and the guard page below it, and from the
    arguments on. For the second part also what `copyout` writes, in order. -/

namespace Xv6.Memory
open Xv6.Schemes
open Xv6.Schemes.X86 (Word)
open Xv6.Process (NPROC Slot ProcState Trapframe)

/-- What `exec` has made of a program when it pushes the arguments; `sz` is the top of the stack. -/
structure Loaded where
  kernel : Kernel
  elf : Elfhdr
  pgdir : Pgdir
  sz : Word

namespace Kernel

/-- The pages for the stack. -/
def loadStack (s : Kernel) (elf : Elfhdr) (d : Pgdir) (sz : Word) : Option Loaded :=
  let sz := BitVec.ofNat 32 (pageUp sz * PGSIZE)
  match allocuvm s.mem d sz (sz + 2 * BitVec.ofNat 32 PGSIZE) with
  | none => none
  | some (sz, m, d) =>
    if sz = 0 then none
    else
      match clearpteu m d ((sz - 2 * BitVec.ofNat 32 PGSIZE).toNat / PGSIZE) with
      | none => none
      | some d => some ⟨{ s with mem := m }, elf, d, sz⟩

def loadProgram (w : World) (s : Kernel) (ip : ℕ) : Option Loaded :=
  match elfhdr (w.inode ip) with
  | none => none
  | some elf =>
    match setupkvm w.kmap s.mem with
    | some (some d, m) =>
      match loadImage (proghdrs (w.inode ip) elf) 0 m d with
      | some (some sz, m, d) =>
        (({ s with mem := m }.iunlockput ip).end_op).loadStack elf d sz
      | _ => none
    | _ => none

/-- `exec` up to the arguments; `none` if it does not get there. -/
def loaded (w : World) (s : Kernel) (p : Slot) (path : List Byte) : Option Loaded :=
  match w.namei (s.task p).cwd path with
  | none => none
  | some ip => ((s.begin_op.idup ip).ilock ip).bind fun s => s.loadProgram w ip

/-- What the loop of `copyout` writes to. -/
def copyWrites (p : Slot) : ℕ → Kernel → Pgdir → Word → List Byte → List (Word × Ka)
  | 0, _, _, _, _ => []
  | fuel + 1, s, d, va, buf =>
    if buf = [] then []
    else
      let v := va.toNat / PGSIZE
      let o := va.toNat % PGSIZE
      let n := min (PGSIZE - o) buf.length
      let next := BitVec.ofNat 32 ((v + 1) * PGSIZE)
      match s.uva2ka p d v with
      | none => []
      | some .null => []
      | some (.user e) =>
        (va, .user e) ::
          copyWrites p fuel { s with mem := s.mem.write e.frame o (buf.take n) } d next (buf.drop n)
      | some (.stray e) =>
        (va, .stray e) ::
          copyWrites p fuel (s.poke e.frame o (buf.take n)) (d.poke e.frame o (buf.take n)) next
            (buf.drop n)

/-- What the loop over `argv` writes to. -/
def pushWrites (p : Slot) : List (List Byte) → Word → ℕ → Kernel → Pgdir → List (Word × Ka)
  | [], _, _, _, _ => []
  | arg :: argv, sp, argc, s, d =>
    if argc ≥ MAXARG then []
    else
      let sp := (sp - BitVec.ofNat 32 (arg.length + 1)) &&& ~~~3
      copyWrites p (arg ++ [0]).length s d sp (arg ++ [0]) ++
        match copyout p s d sp (arg ++ [0]) with
        | some (true, s, d) => pushWrites p argv sp (argc + 1) s d
        | _ => []

end Kernel

/-- `ustack`, below which the strings begin at `sp`. -/
def ustack (sp : Word) (args : List Word) : List Word :=
  [0xffffffff, BitVec.ofNat 32 args.length, sp - (BitVec.ofNat 32 args.length + 1) * 4] ++ args ++ [0]

/-- Where it goes. -/
def ustackAt (sp : Word) (args : List Word) : Word :=
  sp - (3 + BitVec.ofNat 32 args.length + 1) * 4

namespace Loaded

/-- `exec` from the arguments on. -/
def push (l : Loaded) (p : Slot) (path : List Byte) (argv : List (List Byte)) :
    Option (Word × Kernel) :=
  match Kernel.pushArgs p argv l.sz [] l.kernel l.pgdir with
  | none => none
  | some (none, s, d) => some (s.bad (some d) none)
  | some (some (sp, args), s, d) =>
    match Kernel.copyout p s d (ustackAt sp args) ((ustack sp args).flatMap wordBytes) with
    | none => none
    | some (false, s, d) => some (s.bad (some d) none)
    | some (true, s, d) =>
      let oldpgdir := s.cr3 p
      let s := s.setTask p fun r =>
        { r with
          name := (basename path path).take 15
          image := ⟨d, l.sz⟩
          tf := { r.tf with eip := l.elf.entry, esp := ustackAt sp args } }
      some (0, { s with mem := freevm s.mem oldpgdir })

/-- What `exec` writes from the arguments on. -/
def writes (l : Loaded) (p : Slot) (argv : List (List Byte)) : List (Word × Ka) :=
  Kernel.pushWrites p argv l.sz 0 l.kernel l.pgdir ++
    match Kernel.pushArgs p argv l.sz [] l.kernel l.pgdir with
    | some (some (sp, args), s, d) =>
      Kernel.copyWrites p ((ustack sp args).flatMap wordBytes).length s d (ustackAt sp args)
        ((ustack sp args).flatMap wordBytes)
    | _ => []

end Loaded

section

variable {w : World} {s : Kernel} {p : Slot} {path : List Byte} {l : Loaded} {d : Pgdir} {sz : Word}
  {elf : Elfhdr} {ip : ℕ}

theorem execStack_loaded (argv : List (List Byte)) (h : s.loadStack elf d sz = some l) :
    s.execStack p path argv elf d sz = l.push p path argv := by
  unfold Kernel.loadStack at h
  unfold Kernel.execStack
  dsimp only at h ⊢
  cases ha : allocuvm s.mem d (BitVec.ofNat 32 (pageUp sz * PGSIZE))
      (BitVec.ofNat 32 (pageUp sz * PGSIZE) + 2 * BitVec.ofNat 32 PGSIZE) with
  | none => simp only [ha, reduceCtorEq] at h
  | some x =>
    obtain ⟨sz₁, m₁, d₁⟩ := x
    simp only [ha] at h ⊢
    by_cases h0 : sz₁ = 0
    · simp only [if_pos h0, reduceCtorEq] at h
    · simp only [if_neg h0] at h ⊢
      cases hclear : clearpteu m₁ d₁ ((sz₁ - 2 * BitVec.ofNat 32 PGSIZE).toNat / PGSIZE) with
      | none => simp only [hclear, reduceCtorEq] at h
      | some d₂ =>
        simp only [hclear, Option.some.injEq] at h ⊢
        subst h
        rfl

/-- The two parts make up `exec`. -/
theorem exec_loaded (argv : List (List Byte)) (h : s.loaded w p path = some l) :
    s.exec w p path argv = l.push p path argv := by
  unfold Kernel.loaded at h
  cases hpath : w.namei (s.task p).cwd path with
  | none => simp only [hpath, reduceCtorEq] at h
  | some ip =>
    simp only [hpath] at h
    obtain ⟨s₁, hlock, hprog⟩ := Option.bind_eq_some_iff.mp h
    rw [exec_found hpath, hlock, Option.bind_some]
    unfold Kernel.loadProgram at hprog
    unfold Kernel.execLoad
    cases helf : elfhdr (w.inode ip) with
    | none => simp only [helf, reduceCtorEq] at hprog
    | some elf =>
      simp only [helf] at hprog ⊢
      rcases hs : setupkvm w.kmap s₁.mem with _ | ⟨_ | d₁, m₁⟩
      · simp only [hs, reduceCtorEq] at hprog
      · simp only [hs, reduceCtorEq] at hprog
      · simp only [hs] at hprog ⊢
        rcases hl : loadImage (proghdrs (w.inode ip) elf) 0 m₁ d₁ with _ | ⟨_ | sz, m₂, d₂⟩
        · simp only [hl, reduceCtorEq] at hprog
        · simp only [hl, reduceCtorEq] at hprog
        · simp only [hl] at hprog ⊢
          exact execStack_loaded argv hprog

end

end Xv6.Memory
