import Xv6.Memory.Dense
import Xv6.Syscall.Args

/-! @src syscall.c sysfile.c | name:User pointers are validated | layer:proof

    The checks on user pointers are right in 32-bit arithmetic for every size below `KERNBASE`: no
    user address at or above `sz` is read, and what is passed on lies below it. -/

namespace Xv6.Syscall
open Xv6.Schemes
open Xv6.Schemes.X86 (Word)
open Xv6.Memory (Byte KERNBASE)

/-- The bytes from `b` on that a signed size counts lie below `sz`. -/
structure Buffer (sz b size : Word) : Prop where
  nonneg : 0 ≤ size.toInt
  inside : b.toNat + size.toInt.toNat ≤ sz.toNat

/-- A string of length `k` at `b`, with its first NUL below `sz`. -/
structure CString (m : Word → Byte) (sz b k : Word) : Prop where
  nonneg : 0 ≤ k.toInt
  inside : b.toNat + k.toNat < sz.toNat
  nul : m (b + k) = 0
  first : ∀ j : ℕ, j < k.toNat → m (b + BitVec.ofNat 32 j) ≠ 0

/-- What a system call may pass on. -/
def Call.Valid (m : Word → Byte) (sz : Word) : Call → Prop
  | .fileread _ b n | .filewrite _ b n => Buffer sz b n
  | .filestat _ st => Buffer sz st statSize
  | .pipe fd => Buffer sz fd pipeSize
  | .exec path argv => ∀ a ∈ path :: argv, ∃ k, CString m sz a k

section

variable {m : Word → Byte} {p : Proc}

theorem loadInt_below {a : Word} (hsz : p.sz < KERNBASE) (h : ¬ (a ≥ p.sz ∨ a + 4 > p.sz)) :
    (loadInt m a).Ensures (· < p.sz) fun _ => True := by
  obtain ⟨h₁, h₂⟩ := not_or.mp h
  have hk : p.sz.toNat < 0x80000000 := hsz
  have h₁' : a.toNat < p.sz.toNat := BitVec.not_le.mp h₁
  have h₂' : (a + 4).toNat ≤ p.sz.toNat := BitVec.not_lt.mp h₂
  refine .bind (.touch (Q := fun _ => True) (by bv_omega) trivial) fun _ _ => ?_
  refine .bind (.touch (Q := fun _ => True) (by bv_omega) trivial) fun _ _ => ?_
  refine .bind (.touch (Q := fun _ => True) (by bv_omega) trivial) fun _ _ => ?_
  refine .bind (.touch (Q := fun _ => True) (by bv_omega) trivial) fun _ _ => ?_
  exact .pure trivial

theorem fetchint_ensures (hsz : p.sz < KERNBASE) (addr : Word) :
    (fetchint m p addr).Ensures (· < p.sz) fun _ => True := by
  unfold fetchint
  split
  · exact .fail
  · rename_i h
    exact loadInt_below hsz h

theorem argint_ensures (hsz : p.sz < KERNBASE) (n : Word) :
    (argint m p n).Ensures (· < p.sz) fun _ => True :=
  fetchint_ensures hsz _

theorem argptr_ensures (hsz : p.sz < KERNBASE) (n size : Word) :
    (argptr m p n size).Ensures (· < p.sz) fun b => Buffer p.sz b size := by
  refine .bind (argint_ensures hsz n) fun i _ => ?_
  split
  · exact .fail
  · rename_i h
    obtain ⟨hs, h'⟩ := not_or.mp h
    obtain ⟨h₁, h₂⟩ := not_or.mp h'
    have hk : p.sz.toNat < 0x80000000 := hsz
    have h₁' : i.toNat < p.sz.toNat := BitVec.not_le.mp h₁
    have h₂' : (i + size).toNat ≤ p.sz.toNat := BitVec.not_lt.mp h₂
    refine .pure ⟨not_lt.mp hs, ?_⟩
    -- a size below 2^31 does not make the sum wrap
    have hsize := BitVec.toInt_eq_toNat_cond size
    have hadd := BitVec.toNat_add i size
    split at hsize <;> omega

/-- The loop of `fetchstr`, once it has passed the non-zero bytes from `pp` to `s`. -/
theorem strLoop_ensures {pp s : Word} (hsz : p.sz < KERNBASE) (hle : pp ≤ s)
    (hpast : ∀ j : ℕ, j < (s - pp).toNat → m (pp + BitVec.ofNat 32 j) ≠ 0) :
    (strLoop m pp p.sz s).Ensures (· < p.sz) fun k => CString m p.sz pp k := by
  have hk : p.sz.toNat < 0x80000000 := hsz
  induction s using strLoop.induct p.sz with
  | case1 s hlt ih =>
    rw [strLoop, if_pos hlt]
    refine .bind (.touch (Q := fun b => b = m s) hlt rfl) fun b hb => ?_
    subst hb
    split
    · rename_i hz
      refine .pure ⟨?_, ?_, ?_, hpast⟩
      · have := BitVec.toInt_eq_toNat_cond (s - pp)
        have hs : (s - pp).toNat = s.toNat - pp.toNat := by bv_omega
        have hlt' : s.toNat < p.sz.toNat := hlt
        split at this <;> omega
      · bv_omega
      · have hs : pp + (s - pp) = s := by bv_omega
        rwa [hs]
    · rename_i hne
      refine ih (by bv_omega) fun j hj => ?_
      by_cases hjs : j < (s - pp).toNat
      · exact hpast j hjs
      · -- the byte that was just read
        have hj' : j = s.toNat - pp.toNat := by bv_omega
        have hs : pp + BitVec.ofNat 32 j = s := by bv_omega
        rwa [hs]
  | case2 s hge =>
    rw [strLoop, if_neg hge]
    exact .fail

theorem fetchstr_ensures (hsz : p.sz < KERNBASE) (addr : Word) :
    (fetchstr m p addr).Ensures (· < p.sz) fun r => r.1 = addr ∧ CString m p.sz r.1 r.2 := by
  unfold fetchstr
  split
  · exact .fail
  · refine .bind (strLoop_ensures hsz (BitVec.le_refl addr) fun j hj => ?_) fun k hk =>
      .pure ⟨rfl, hk⟩
    simp at hj

theorem argstr_ensures (hsz : p.sz < KERNBASE) (n : Word) :
    (argstr m p n).Ensures (· < p.sz) fun r => CString m p.sz r.1 r.2 :=
  .bind (argint_ensures hsz n) fun addr _ => (fetchstr_ensures hsz addr).mono fun _ hr => hr.2

theorem argfd_ensures (hsz : p.sz < KERNBASE) (n : Word) :
    (argfd m p n).Ensures (· < p.sz) fun _ => True := by
  refine .bind (argint_ensures hsz n) fun fd _ => ?_
  split
  · exact .fail
  · split
    · exact .fail
    · exact .pure trivial

/-! ### The system calls -/

theorem argbuf_ensures {call : File → Word → Word → Call} (hsz : p.sz < KERNBASE)
    (hcall : ∀ f b n, Buffer p.sz b n → (call f b n).Valid m p.sz) :
    (argbuf m p call).Ensures (· < p.sz) (Call.Valid m p.sz) := by
  refine .bind (argfd_ensures hsz 0) fun f _ => ?_
  refine .bind (argint_ensures hsz 2) fun n _ => ?_
  exact .bind (argptr_ensures hsz 1 n) fun b hb => .pure (hcall f b n hb)

theorem sys_read_ensures (hsz : p.sz < KERNBASE) :
    (sys_read m p).Ensures (· < p.sz) (Call.Valid m p.sz) :=
  argbuf_ensures hsz fun _ _ _ hb => hb

theorem sys_write_ensures (hsz : p.sz < KERNBASE) :
    (sys_write m p).Ensures (· < p.sz) (Call.Valid m p.sz) :=
  argbuf_ensures hsz fun _ _ _ hb => hb

theorem sys_fstat_ensures (hsz : p.sz < KERNBASE) :
    (sys_fstat m p).Ensures (· < p.sz) (Call.Valid m p.sz) := by
  refine .bind (argfd_ensures hsz 0) fun f _ => ?_
  exact .bind (argptr_ensures hsz 1 statSize) fun st hst => .pure hst

theorem sys_pipe_ensures (hsz : p.sz < KERNBASE) :
    (sys_pipe m p).Ensures (· < p.sz) (Call.Valid m p.sz) :=
  .bind (argptr_ensures hsz 0 pipeSize) fun _ hfd => .pure hfd

theorem argvLoop_ensures (hsz : p.sz < KERNBASE) (uargv : Word) (left i : ℕ) :
    (argvLoop m p uargv left i).Ensures (· < p.sz) fun argv =>
      ∀ a ∈ argv, ∃ k, CString m p.sz a k := by
  induction left generalizing i with
  | zero => exact .fail
  | succ left ih =>
    refine .bind (fetchint_ensures hsz _) fun uarg _ => ?_
    split
    · exact .pure (by simp)
    · refine .bind (fetchstr_ensures hsz uarg) fun r hr => ?_
      refine .bind (ih (i + 1)) fun rest hrest => .pure ?_
      rintro a (_ | ⟨_, ha⟩)
      · exact ⟨r.2, hr.2⟩
      · exact hrest a ha

theorem sys_exec_ensures (hsz : p.sz < KERNBASE) :
    (sys_exec m p).Ensures (· < p.sz) (Call.Valid m p.sz) := by
  refine .bind (argstr_ensures hsz 0) fun path hpath => ?_
  refine .bind (argint_ensures hsz 1) fun uargv _ => ?_
  refine .bind (argvLoop_ensures hsz uargv MAXARG 0) fun argv hargv => .pure ?_
  rintro a (_ | ⟨_, ha⟩)
  · exact ⟨path.2, hpath⟩
  · exact hargv a ha

end

/-- All the checks on user pointers, for a process with the memory `m`. -/
structure Checked (m : Word → Byte) (p : Proc) : Prop where
  fetchint : ∀ addr, (fetchint m p addr).Ensures (· < p.sz) fun _ => True
  argint : ∀ n, (argint m p n).Ensures (· < p.sz) fun _ => True
  argptr : ∀ n size, (argptr m p n size).Ensures (· < p.sz) fun b => Buffer p.sz b size
  fetchstr : ∀ addr, (fetchstr m p addr).Ensures (· < p.sz) fun r =>
    r.1 = addr ∧ CString m p.sz r.1 r.2
  argstr : ∀ n, (argstr m p n).Ensures (· < p.sz) fun r => CString m p.sz r.1 r.2
  read : (sys_read m p).Ensures (· < p.sz) (Call.Valid m p.sz)
  write : (sys_write m p).Ensures (· < p.sz) (Call.Valid m p.sz)
  fstat : (sys_fstat m p).Ensures (· < p.sz) (Call.Valid m p.sz)
  pipe : (sys_pipe m p).Ensures (· < p.sz) (Call.Valid m p.sz)
  exec : (sys_exec m p).Ensures (· < p.sz) (Call.Valid m p.sz)

/-- User pointer validation is sound, whatever the user memory and the user `%esp` are. -/
theorem arguments_checked (m : Word → Byte) (p : Proc) (hsz : p.sz < KERNBASE) : Checked m p where
  fetchint := fetchint_ensures hsz
  argint := argint_ensures hsz
  argptr := argptr_ensures hsz
  fetchstr := fetchstr_ensures hsz
  argstr := argstr_ensures hsz
  read := sys_read_ensures hsz
  write := sys_write_ensures hsz
  fstat := sys_fstat_ensures hsz
  pipe := sys_pipe_ensures hsz
  exec := sys_exec_ensures hsz

/-- `arguments_checked` for a process of one page, with the user stack at its top. -/
theorem arguments_checked_page : Checked (fun _ => 0) ⟨0x1000, 0xff0, fun _ => none⟩ :=
  arguments_checked _ _ (by decide)

/-! ### Dense address spaces -/

section Image

variable {m : Memory.Phys} {r : Memory.Proc} {ofile : ℕ → Option File}

/-- The user memory of a process as the kernel reads it. -/
def view (m : Memory.Phys) (r : Memory.Proc) (a : Word) : Byte := (Memory.load m r.pgdir a).getD 0

theorem load_view (hd : Memory.Dense r) {a : Word} (ha : a.toNat < r.sz.toNat) :
    Memory.load m r.pgdir a = some (view m r a) := by
  obtain ⟨b, hb⟩ := Memory.load_some (m := m) hd ha
  simp [view, hb]

/-- Reading an argument through the page table of a dense address space. -/
theorem argint_view (hd : Memory.Dense r) (ofile : ℕ → Option File) (esp n : Word) :
    Memory.argint m r esp n = some (argint (view m r) ⟨r.sz, esp, ofile⟩ n).ret := by
  have hk : r.sz.toNat < 0x80000000 := hd.small
  unfold Memory.argint Memory.fetchint argint fetchint
  generalize esp + 4 + 4 * n = a
  dsimp only
  split
  · rfl
  · rename_i h
    obtain ⟨h₁, h₂⟩ := not_or.mp h
    have h₁' : a.toNat < r.sz.toNat := BitVec.not_le.mp h₁
    have h₂' : (a + 4).toNat ≤ r.sz.toNat := BitVec.not_lt.mp h₂
    have hb₀ := load_view (m := m) hd h₁'
    have hb₁ := load_view (m := m) hd (a := a + 1) (by bv_omega)
    have hb₂ := load_view (m := m) hd (a := a + 2) (by bv_omega)
    have hb₃ := load_view (m := m) hd (a := a + 3) (by bv_omega)
    simp only [Memory.loadWord, hb₀, hb₁, hb₂, hb₃]
    rfl

/-- `argptr` of a dense address space is the check on its memory, and never faults. -/
theorem argptr_view (hd : Memory.Dense r) (esp n size : Word) :
    Memory.argptr m r esp n size =
      some (argptr (view m r) ⟨r.sz, esp, ofile⟩ n size).ret := by
  unfold Memory.argptr argptr
  rw [argint_view hd ofile, Traced.bind_ret]
  cases (argint (view m r) ⟨r.sz, esp, ofile⟩ n).ret with
  | none => rfl
  | some i =>
    dsimp only [Option.bind_some]
    split
    · rfl
    · rfl

end Image

end Xv6.Syscall
