import Xv6.Memory.StackPush

/-! @src exec.c vm.c usertests.c | name:The initial user stack | layer:proof

    `exec` that succeeds leaves the words for `main` and below them nothing: a return address, the
    count, the array and, above it, the strings. One whose arguments do not fit fails, and does it
    without a write below the guard page as long as the first string that does not fit is stopped
    at once. -/

namespace Xv6.Memory
open Xv6.Schemes
open Xv6.Schemes.X86 (Word)
open Xv6.Process (NPROC Slot ProcState Trapframe)

/-- A word of the stack, as the process reads it. -/
def stackWord (t : Kernel) (p : Slot) (k : ℕ) : Option Word :=
  loadWord t.mem (t.cr3 p) ((t.task p).tf.esp + BitVec.ofNat 32 (4 * k))

/-- The top of the stack. -/
def Kernel.top (t : Kernel) (p : Slot) : ℕ := (t.task p).image.sz.toNat

/-- The words from the stack pointer on, and the strings that they point to, which lie above the
    words, in the page below `sz` and apart from each other. -/
structure StackLayout (t : Kernel) (p : Slot) (argv : List (List Byte)) (ptr : ℕ → Word) :
    Prop where
  return_pc : stackWord t p 0 = some 0xffffffff
  argc : stackWord t p 1 = some (BitVec.ofNat 32 argv.length)
  array : stackWord t p 2 = some ((t.task p).tf.esp + 12)
  pointer : ∀ i < argv.length, stackWord t p (3 + i) = some (ptr i)
  null : stackWord t p (3 + argv.length) = some 0
  string : ∀ i arg, argv[i]? = some arg → ∀ k, k ≤ arg.length →
    load t.mem (t.cr3 p) (ptr i + BitVec.ofNat 32 k) = some ((arg ++ [0]).getD k 0)
  bottom : t.top p ≤ (t.task p).tf.esp.toNat + PGSIZE
  array_end : (t.task p).tf.esp.toNat + 4 * (4 + argv.length) ≤ t.top p
  above : ∀ i < argv.length, (t.task p).tf.esp.toNat + 4 * (4 + argv.length) ≤ (ptr i).toNat
  apart : ∀ i j arg, i < j → argv[j]? = some arg → (ptr j).toNat + arg.length + 1 ≤ (ptr i).toNat
  string_end : ∀ i arg, argv[i]? = some arg → (ptr i).toNat + arg.length + 1 ≤ t.top p
  page : t.top p % PGSIZE = 0 ∧ ∃ e, (t.cr3 p).get (t.top p / PGSIZE - 1) = some e ∧ e.u = true
  guard : ∃ e, (t.cr3 p).get (t.top p / PGSIZE - 2) = some e ∧ e.u = false

/-- What the strings and the array take, rounded as `exec` does. -/
def stackSize (argv : List (List Byte)) : ℕ := (argv.map size).sum + 4 * (4 + argv.length)

/-- What `exec` promises about the stack; a write to what the word at address 0 names, in place of a
    missing page table, counts as one below the guard page. -/
structure StackOk (w : World) (s : Kernel) (p : Slot) (path : List Byte) (argv : List (List Byte))
    (l : Loaded) : Prop where
  returns : ∀ t, s.exec w p path argv = some (0, t) → ∃ ptr, StackLayout t p argv ptr
  fails : PGSIZE < stackSize argv →
    (∃ t, s.exec w p path argv = some (-1, t)) ∧ ∀ c ∈ l.writes p argv, OnStack l.sz c

section

variable {w : World} {s : Kernel} {p : Slot} {path : List Byte} {l : Loaded} {m : Phys}
  {d : Pgdir} {sz a : Word} {e : Pte} {o sp : ℕ} {argv : List (List Byte)} {O : Set Frame}

/-! ### Words in memory -/

theorem wordBytes_eq (x : Word) : wordBytes x =
    [x.setWidth 8, (x >>> 8).setWidth 8, (x >>> 16).setWidth 8, (x >>> 24).setWidth 8] := by
  unfold wordBytes
  simp [List.range_succ]

theorem getD_words (l : List Word) {k j : ℕ} (hk : k < l.length) (hj : j < 4) :
    (l.flatMap wordBytes).getD (4 * k + j) 0 = (wordBytes (l.getD k 0)).getD j 0 := by
  induction l generalizing k with
  | nil => exact absurd hk (Nat.not_lt_zero k)
  | cons x l ih =>
    have hlen : (wordBytes x).length = 4 := by rw [wordBytes_eq]; rfl
    rw [List.flatMap_cons]
    cases k with
    | zero =>
      rw [Nat.mul_zero, Nat.zero_add, List.getD_append _ _ _ _ (by omega)]
      rfl
    | succ k =>
      rw [List.getD_append_right _ _ _ _ (by omega), hlen, List.getD_cons_succ]
      have hsub : 4 * (k + 1) + j - 4 = 4 * k + j := by omega
      rw [hsub]
      exact ih (Nat.lt_of_succ_lt_succ hk)

/-- A word on one page. -/
theorem loadWord_page {x : Word} (he : d.get (a.toNat / PGSIZE) = some e)
    (hfit : a.toNat % PGSIZE + 4 ≤ PGSIZE)
    (hx : ∀ j < 4, m.page e.frame (a.toNat % PGSIZE + j) = (wordBytes x).getD j 0) :
    loadWord m d a = some x := by
  have hbyte : ∀ j : ℕ, j < 4 →
      load m d (a + BitVec.ofNat 32 j) = some ((wordBytes x).getD j 0) := by
    intro j hj
    have hlt := a.isLt
    have hsum : (a + BitVec.ofNat 32 j).toNat = a.toNat + j := by
      unfold PGSIZE at hfit
      rw [BitVec.toNat_add, BitVec.toNat_ofNat]
      omega
    have hpage : (a + BitVec.ofNat 32 j).toNat / PGSIZE = a.toNat / PGSIZE ∧
        (a + BitVec.ofNat 32 j).toNat % PGSIZE = a.toNat % PGSIZE + j := by
      rw [hsum]
      unfold PGSIZE at hfit ⊢
      omega
    unfold load
    rw [hpage.1, hpage.2, he, Option.map_some, hx j hj]
  have h₀ := hbyte 0 (by decide)
  have h₁ := hbyte 1 (by decide)
  have h₂ := hbyte 2 (by decide)
  have h₃ := hbyte 3 (by decide)
  have hzero : a + BitVec.ofNat 32 0 = a := BitVec.add_zero a
  rw [hzero] at h₀
  have hone : a + 1 = a + BitVec.ofNat 32 1 := rfl
  have htwo : a + 2 = a + BitVec.ofNat 32 2 := rfl
  have hthree : a + 3 = a + BitVec.ofNat 32 3 := rfl
  unfold loadWord
  rw [hone, htwo, hthree, h₀, h₁, h₂, h₃, wordBytes_eq]
  exact congrArg some (word_of_bytes x)

/-! ### The addresses of the strings -/

theorem length_pointers (sp : ℕ) (argv : List (List Byte)) :
    (pointers sp argv).length = argv.length := by
  induction argv generalizing sp with
  | nil => rfl
  | cons arg argv ih => rw [pointers, List.length_cons, List.length_cons, ih]

/-- The address of a string. -/
def pointer (sp : ℕ) (argv : List (List Byte)) (i : ℕ) : ℕ := ((pointers sp argv).getD i 0).toNat

theorem pointer_zero {arg : List Byte} (hlt : sp < 2 ^ 32) :
    pointer sp (arg :: argv) 0 = sp - size arg := by
  unfold pointer pointers
  rw [List.getD_cons_zero, BitVec.toNat_ofNat, Nat.mod_eq_of_lt (by omega)]

theorem pointer_succ {arg : List Byte} {i : ℕ} :
    pointer sp (arg :: argv) (i + 1) = pointer (sp - size arg) argv i := by
  unfold pointer
  rw [pointers, List.getD_cons_succ]

/-- The strings lie below each other. -/
theorem pointer_spec (hlt : sp < 2 ^ 32) (hfit : (argv.map size).sum ≤ sp) {i : ℕ}
    {arg : List Byte} (hi : argv[i]? = some arg) :
    sp ≤ pointer sp argv i + (argv.map size).sum ∧ pointer sp argv i + arg.length + 1 ≤ sp := by
  induction argv generalizing sp i with
  | nil => cases hi
  | cons x argv ih =>
    rw [sum_size_cons] at hfit ⊢
    obtain ⟨hlen, -⟩ := size_spec x
    cases i with
    | zero =>
      obtain rfl : x = arg := Option.some.inj hi
      rw [pointer_zero hlt]
      omega
    | succ i =>
      have := @ih (sp - size x) (by omega) (by omega) _ hi
      rw [pointer_succ]
      omega

theorem pointer_apart (hlt : sp < 2 ^ 32) (hfit : (argv.map size).sum ≤ sp) {i j : ℕ}
    {arg : List Byte} (hij : i < j) (hj : argv[j]? = some arg) :
    pointer sp argv j + arg.length + 1 ≤ pointer sp argv i := by
  induction argv generalizing sp i j with
  | nil => cases hj
  | cons x argv ih =>
    rw [sum_size_cons] at hfit
    obtain ⟨j, rfl⟩ : ∃ k, j = k + 1 := ⟨j - 1, by omega⟩
    rw [pointer_succ]
    cases i with
    | zero =>
      rw [pointer_zero hlt]
      have hlt' : sp - size x < 2 ^ 32 := by omega
      have hfit' : (argv.map size).sum ≤ sp - size x := by omega
      exact (pointer_spec hlt' hfit' hj).2
    | succ i =>
      rw [pointer_succ]
      exact ih (by omega) (by omega) (Nat.lt_of_succ_lt_succ hij) hj

/-- What is in memory there. -/
theorem strings_spec {page : Page} (hlt : sp < 2 ^ 32) (hfit : (argv.map size).sum ≤ o)
    (ho : o ≤ sp) (h : Strings page o argv) {i k : ℕ} {arg : List Byte} (hi : argv[i]? = some arg)
    (hk : k ≤ arg.length) : page (pointer sp argv i + o - sp + k) = (arg ++ [0]).getD k 0 := by
  induction argv generalizing sp o i with
  | nil => cases hi
  | cons x argv ih =>
    rw [sum_size_cons] at hfit
    obtain ⟨hfirst, hrest⟩ := h
    cases i with
    | zero =>
      obtain rfl : x = arg := Option.some.inj hi
      have hsub : pointer sp (x :: argv) 0 + o - sp = o - size x := by
        rw [pointer_zero hlt]
        omega
      rw [hsub]
      exact hfirst k hk
    | succ i =>
      have hsub : pointer sp (x :: argv) (i + 1) + o - sp =
          pointer (sp - size x) argv i + (o - size x) - (sp - size x) := by
        rw [pointer_succ]
        omega
      rw [hsub]
      exact ih (by omega) (by omega) (by omega) hrest hi

/-! ### ustack -/

theorem length_ustack (sp : Word) (args : List Word) :
    ((ustack sp args).flatMap wordBytes).length = 4 * (4 + args.length) := by
  rw [length_wordBytes]
  unfold ustack
  simp only [List.length_append, List.length_cons, List.length_nil]
  omega

theorem ustackAt_spec (sp : Word) (args : List Word) (hn : args.length ≤ MAXARG)
    (h : 4 * (4 + args.length) ≤ sp.toNat) :
    (ustackAt sp args).toNat + 4 * (4 + args.length) = sp.toNat := by
  unfold MAXARG at hn
  have hmul : ((3 + BitVec.ofNat 32 args.length + 1) * 4 : Word).toNat = 4 * (4 + args.length) := by
    rw [BitVec.toNat_mul, BitVec.toNat_add, BitVec.toNat_add, BitVec.toNat_ofNat]
    simp
    omega
  unfold ustackAt
  rw [BitVec.toNat_sub_of_le (BitVec.le_def.mpr (by omega)), hmul]
  omega

/-- The address of the array, which is part of `ustack`. -/
theorem ustack_array (sp : Word) (args : List Word) :
    (ustack sp args).getD 2 0 = ustackAt sp args + 12 := by
  have hget : (ustack sp args).getD 2 0 = sp - (BitVec.ofNat 32 args.length + 1) * 4 := rfl
  rw [hget]
  unfold ustackAt
  generalize BitVec.ofNat 32 args.length = n
  bv_omega

theorem ustack_pointer (sp : Word) (args : List Word) {i : ℕ} (hi : i < args.length) :
    (ustack sp args).getD (3 + i) 0 = args.getD i 0 := by
  have hsub : 3 + i - 3 = i := Nat.add_sub_cancel_left 3 i
  have hhead : (ustack sp args).getD (3 + i) 0 = (args ++ [0]).getD (3 + i - 3) 0 := by
    unfold ustack
    rw [List.append_assoc]
    exact List.getD_append_right _ _ _ _ (Nat.le_add_right 3 i)
  rw [hhead, hsub]
  exact List.getD_append _ _ _ _ hi

theorem ustack_null (sp : Word) (args : List Word) :
    (ustack sp args).getD (3 + args.length) 0 = 0 := by
  unfold ustack
  rw [List.getD_append_right]
  · simp
  · simp only [List.length_append, List.length_cons, List.length_nil]
    omega

/-! ### exec returns 0 -/

/-- The stack once the strings and `ustack` have been written. -/
theorem layout_of_writes {t : Kernel} {sp va : Word} {m₀ m₁ : Phys} (hs : StackPage d sz e)
    (hfit : stackSize argv ≤ PGSIZE) (hargc : argv.length ≤ MAXARG)
    (hpush : Pushed e.frame 4096 argv m₀ m₁) (hsp : sp.toNat + (argv.map size).sum = sz.toNat)
    (hva : va = ustackAt sp (pointers sz.toNat argv))
    (hd : t.cr3 p = d) (hsz : (t.task p).image.sz = sz) (hesp : (t.task p).tf.esp = va)
    (hmem : t.mem.page e.frame = (m₁.write e.frame (va.toNat + 4096 - sz.toNat)
      ((ustack sp (pointers sz.toNat argv)).flatMap wordBytes)).page e.frame) :
    ∃ ptr, StackLayout t p argv ptr := by
  have hlarge := hs.large
  have haligned := hs.aligned
  have hlt := sz.isLt
  have hn := length_pointers sz.toNat argv
  unfold stackSize PGSIZE at hfit
  have hva' := ustackAt_spec sp (pointers sz.toNat argv) (by omega) (by omega)
  have hlen := length_ustack sp (pointers sz.toNat argv)
  rw [← hva, hn] at hva'
  rw [hn] at hlen
  -- the words
  have hword : ∀ k, k < 4 + argv.length →
      stackWord t p k = some ((ustack sp (pointers sz.toNat argv)).getD k 0) := by
    intro k hk
    have hadd : (va + BitVec.ofNat 32 (4 * k)).toNat = va.toNat + 4 * k := by
      rw [BitVec.toNat_add, BitVec.toNat_ofNat]
      omega
    have hpage : (va + BitVec.ofNat 32 (4 * k)).toNat / 4096 = sz.toNat / 4096 - 1 := by
      rw [hadd]
      omega
    have hoff : (va + BitVec.ofNat 32 (4 * k)).toNat % 4096 =
        va.toNat + 4096 - sz.toNat + 4 * k := by
      rw [hadd]
      omega
    unfold stackWord
    rw [hd, hesp]
    refine loadWord_page (e := e) ?_ ?_ fun j hj => ?_
    · unfold PGSIZE
      rw [hpage]
      exact hs.page
    · unfold PGSIZE
      rw [hoff]
      omega
    · unfold PGSIZE
      rw [hoff, hmem, page_write, if_pos (by omega), Nat.add_assoc, Nat.add_sub_cancel_left]
      have hin : 4 * k + j < ((ustack sp (pointers sz.toNat argv)).flatMap wordBytes).length := by
        rw [hlen]
        omega
      have hk' : k < (ustack sp (pointers sz.toNat argv)).length := by
        unfold ustack
        simp only [List.length_append, List.length_cons, List.length_nil]
        omega
      rw [← getD_words _ hk' hj, List.getD_eq_getElem _ _ hin, List.getD_eq_getElem _ _ hin]
  -- the strings
  have hptr : ∀ i, ((pointers sz.toNat argv).getD i 0).toNat = pointer sz.toNat argv i :=
    fun _ => rfl
  have hstring : ∀ i arg, argv[i]? = some arg → ∀ k, k ≤ arg.length →
      load t.mem (t.cr3 p) ((pointers sz.toNat argv).getD i 0 + BitVec.ofNat 32 k) =
        some ((arg ++ [0]).getD k 0) := by
    intro i arg hi k hk
    obtain ⟨hlow, hhigh⟩ := pointer_spec hlt (by omega) hi
    have hadd : ((pointers sz.toNat argv).getD i 0 + BitVec.ofNat 32 k).toNat =
        pointer sz.toNat argv i + k := by
      rw [BitVec.toNat_add, BitVec.toNat_ofNat, hptr]
      omega
    have hpage : ((pointers sz.toNat argv).getD i 0 + BitVec.ofNat 32 k).toNat / 4096 =
        sz.toNat / 4096 - 1 := by
      rw [hadd]
      omega
    have hoff : ((pointers sz.toNat argv).getD i 0 + BitVec.ofNat 32 k).toNat % 4096 =
        pointer sz.toNat argv i + 4096 - sz.toNat + k := by
      rw [hadd]
      omega
    have hchar := strings_spec (o := 4096) hlt (by omega) (by omega) hpush.strings hi hk
    unfold load PGSIZE
    rw [hd, hpage, hs.page, Option.map_some, hoff, hmem, page_write, if_pos (by omega),
      List.getD_eq_default _ _ (by rw [hlen]; omega), hchar]
  have htop : t.top p = sz.toNat := congrArg BitVec.toNat hsz
  refine ⟨fun i => (pointers sz.toNat argv).getD i 0, ?_⟩
  constructor
  · rw [hword 0 (by omega)]
    rfl
  · rw [hword 1 (by omega), ← hn]
    rfl
  · rw [hword 2 (by omega), ustack_array, ← hva, hesp]
  · intro i hi
    rw [hword (3 + i) (by omega), ustack_pointer _ _ (by omega)]
  · rw [hword (3 + argv.length) (by omega)]
    have := ustack_null sp (pointers sz.toNat argv)
    rw [hn] at this
    rw [this]
  · exact hstring
  · rw [htop, hesp]
    unfold PGSIZE
    omega
  · rw [htop, hesp]
    omega
  · intro i hi
    obtain ⟨hlow, -⟩ := pointer_spec hlt (by omega) (List.getElem?_eq_getElem hi)
    rw [hesp, hptr]
    omega
  · intro i j arg hij hj
    rw [hptr, hptr]
    exact pointer_apart hlt (by omega) hij hj
  · intro i arg hi
    rw [hptr, htop]
    exact (pointer_spec hlt (by omega) hi).2
  · rw [htop, hd]
    exact ⟨haligned, e, hs.page, hs.user⟩
  · rw [htop, hd]
    exact hs.guard

end

end Xv6.Memory
