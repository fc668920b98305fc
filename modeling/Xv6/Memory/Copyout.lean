import Xv6.Memory.Image

/-! @src vm.c exec.c | name:copyout | layer:proof

    `copyout` goes from page to page, and from the last one on to page 0. It returns -1 at the first
    page that is not the user's, if the page table for it is there; if not, `uva2ka` dereferences
    the null pointer that `walkpgdir` returns. -/

namespace Xv6.Memory
open Xv6.Schemes.X86 (Word)

/-- A page that user code can use. -/
def Pgdir.Accessible (d : Pgdir) (v : ℕ) : Prop := ∃ e, d.get v = some e ∧ e.u = true

/-- The interval is in the address space, on pages that user code can use. -/
def Covered (d : Pgdir) (va : Word) (len : ℕ) : Prop :=
  va.toNat + len ≤ 2 ^ 32 ∧
    ∀ x, va.toNat ≤ x → x < va.toNat + len → d.Accessible (x / PGSIZE)

/-- What a store of user code does. -/
def store (d : Pgdir) (m : Phys) (x : ℕ) (b : Byte) : Phys :=
  match d.get (x / PGSIZE) with
  | some e => m.write e.frame (x % PGSIZE) [b]
  | none => m

/-- The stores of all bytes, one after the other. -/
def storeAll (d : Pgdir) (m : Phys) : ℕ → List Byte → Phys
  | _, [] => m
  | x, b :: bytes => storeAll d (store d m x b) (x + 1) bytes

/-- How many bytes go to the page of `va`, and where the next page begins. -/
def part (va : Word) (buf : List Byte) : ℕ := min (PGSIZE - va.toNat % PGSIZE) buf.length
def next (va : Word) : Word := BitVec.ofNat 32 ((va.toNat / PGSIZE + 1) * PGSIZE)

/-- What the loop of `copyout` writes, with the addresses. -/
def writes (d : Pgdir) : ℕ → Word → List Byte → List (ℕ × List Byte)
  | 0, _, _ => []
  | fuel + 1, va, buf =>
    if buf = [] then []
    else
      match d.get (va.toNat / PGSIZE) with
      | some e =>
        if e.u then
          (va.toNat, buf.take (part va buf)) ::
            writes d fuel (next va) (buf.drop (part va buf))
        else []
      | none => []

/-- The bytes lie on pages of the interval that user code can use. -/
def Inside (d : Pgdir) (va : Word) (len : ℕ) (c : ℕ × List Byte) : Prop :=
  ∀ x, c.1 ≤ x → x < c.1 + c.2.length → d.Accessible (x / PGSIZE) ∧
    ∃ y, va.toNat ≤ y ∧ y < va.toNat + len ∧ y / PGSIZE = x / PGSIZE

/-- `copyout` stores all bytes and returns 0 if the interval is covered; otherwise it returns -1 and
    writes nothing but pages of the interval. -/
structure CopyoutOk (d : Pgdir) (va : Word) (buf : List Byte) : Prop where
  copies : Covered d va buf.length →
    ∀ m, copyout m d va buf = some (true, storeAll d m va.toNat buf)
  fails : ¬ Covered d va buf.length →
    (∀ m, copyout m d va buf = some (false,
      (writes d buf.length va buf).foldl (fun m c => storeAll d m c.1 c.2) m)) ∧
    ∀ c ∈ writes d buf.length va buf, Inside d va buf.length c

/-- The first page of the interval that user code cannot use, page 0 for the one after the last, has
    its page table. -/
def Stops (d : Pgdir) (va : Word) (len : ℕ) : Prop :=
  ∃ v, va.toNat / PGSIZE ≤ v ∧ v ≤ NPAGES ∧ v * PGSIZE < va.toNat + len ∧
    (∀ x, va.toNat / PGSIZE ≤ x → x < v → d.Accessible x) ∧
    ¬ d.Accessible (v % NPAGES) ∧ (d.pde (PDX (v % NPAGES))).isSome

section

variable {m m' : Phys} {d : Pgdir} {va : Word} {buf bytes : List Byte} {fuel v : ℕ} {b : Bool}

/-! ### Stores -/

theorem storeAll_append (d : Pgdir) (m : Phys) (x : ℕ) (l l' : List Byte) :
    storeAll d m x (l ++ l') = storeAll d (storeAll d m x l) (x + l.length) l' := by
  induction l generalizing m x with
  | nil => rfl
  | cons b l ih =>
    rw [List.cons_append, storeAll, storeAll, ih, List.length_cons, Nat.add_right_comm, Nat.add_assoc]

theorem write_nil (m : Phys) (f : Frame) (o : ℕ) : m.write f o [] = m := by
  unfold Phys.write
  simp

theorem write_cons (m : Phys) (f : Frame) (o : ℕ) (b : Byte) (l : List Byte) :
    m.write f o (b :: l) = (m.write f o [b]).write f (o + 1) l := by
  refine congrArg (Phys.mk m.freelist) (funext fun g => ?_)
  by_cases hg : g = f
  · subst hg
    simp only [Phys.write, Function.update_self]
    funext x
    rcases lt_trichotomy x o with hlt | rfl | hlt
    · rw [if_neg (by omega), if_neg (by omega), if_neg (by omega)]
    · rw [if_pos le_rfl, if_neg (by omega), if_pos le_rfl, Nat.sub_self]
      rfl
    · obtain ⟨k, rfl⟩ : ∃ k, x = o + 1 + k := ⟨x - (o + 1), by omega⟩
      have hk : o + 1 + k - o = k + 1 := by omega
      have hk' : o + 1 + k - (o + 1) = k := by omega
      rw [if_pos (by omega), if_pos (by omega), if_pos (by omega), hk, hk', List.getD_cons_succ,
        List.getD_cons_succ, List.getD_nil]
  · simp only [Phys.write, Function.update_of_ne hg]

/-- Stores on one page. -/
theorem storeAll_page {e : Pte} {x : ℕ} (he : d.get v = some e)
    (hpage : x / PGSIZE = v) (hlen : x % PGSIZE + bytes.length ≤ PGSIZE) :
    storeAll d m x bytes = m.write e.frame (x % PGSIZE) bytes := by
  induction bytes generalizing m x with
  | nil => exact (write_nil ..).symm
  | cons b bytes ih =>
    have hstore : store d m x b = m.write e.frame (x % PGSIZE) [b] := by
      unfold store
      rw [hpage, he]
    rw [List.length_cons] at hlen
    rw [storeAll, hstore, write_cons m e.frame (x % PGSIZE) b bytes]
    by_cases hnil : bytes = []
    · subst hnil
      rw [write_nil]
      rfl
    · have hpos := List.length_pos_of_ne_nil hnil
      have hnext : (x + 1) / PGSIZE = v ∧ (x + 1) % PGSIZE = x % PGSIZE + 1 := by
        unfold PGSIZE at hpage hlen ⊢
        omega
      have hfit : x % PGSIZE + 1 + bytes.length ≤ PGSIZE := by omega
      rw [ih (x := x + 1) hnext.1 (by rwa [hnext.2]), hnext.2]

/-! ### One page -/

theorem part_le (va : Word) (buf : List Byte) :
    part va buf ≤ buf.length ∧ va.toNat % PGSIZE + part va buf ≤ PGSIZE := by
  unfold part PGSIZE
  omega

theorem part_pos (va : Word) (hb : buf ≠ []) : 0 < part va buf := by
  have hpos := List.length_pos_of_ne_nil hb
  unfold part PGSIZE
  omega

/-- What is left begins with the next page, which is page 0 after the last one. -/
theorem toNat_next (va : Word) : (next va).toNat =
    if va.toNat / PGSIZE + 1 = NPAGES then 0 else (va.toNat / PGSIZE + 1) * PGSIZE := by
  have hlt := va.isLt
  unfold next PGSIZE NPAGES
  rw [BitVec.toNat_ofNat]
  split <;> omega

theorem length_rest (va : Word) (buf : List Byte) :
    (buf.drop (part va buf)).length = buf.length - (PGSIZE - va.toNat % PGSIZE) := by
  unfold part
  rw [List.length_drop]
  omega

/-- A round on a page that user code can use. -/
theorem copyLoopOut_user {e : Pte} (hb : buf ≠ []) (he : d.get (va.toNat / PGSIZE) = some e)
    (hu : e.u = true) : copyLoopOut d (fuel + 1) m va buf =
      copyLoopOut d fuel (storeAll d m va.toNat (buf.take (part va buf))) (next va)
        (buf.drop (part va buf)) := by
  obtain ⟨hle, hroom⟩ := part_le va buf
  have htable : ∃ t, d.pde (PDX (va.toNat / PGSIZE)) = some t := by
    cases ht : d.pde (PDX (va.toNat / PGSIZE)) with
    | some t => exact ⟨t, rfl⟩
    | none => simp [Pgdir.get, ht] at he
  obtain ⟨t, ht⟩ := htable
  rw [storeAll_page he rfl (by rw [List.length_take]; omega), copyLoopOut, if_neg hb]
  simp only [walkpgdir, ht, he, if_pos hu]
  rfl

theorem writes_user {e : Pte} (hb : buf ≠ []) (he : d.get (va.toNat / PGSIZE) = some e)
    (hu : e.u = true) : writes d (fuel + 1) va buf =
      (va.toNat, buf.take (part va buf)) :: writes d fuel (next va) (buf.drop (part va buf)) := by
  rw [writes, if_neg hb]
  simp only [he, if_pos hu]

/-- A page that user code cannot use. -/
theorem copyLoopOut_other (fuel : ℕ) (m : Phys) (hb : buf ≠ [])
    (h : ¬ d.Accessible (va.toNat / PGSIZE)) :
    (copyLoopOut d (fuel + 1) m va buf =
      if (d.pde (PDX (va.toNat / PGSIZE))).isSome then some (false, m) else none) ∧
    writes d (fuel + 1) va buf = [] := by
  rw [copyLoopOut, writes, if_neg hb, if_neg hb]
  cases ht : d.pde (PDX (va.toNat / PGSIZE)) with
  | none =>
    have hget : d.get (va.toNat / PGSIZE) = none := by simp [Pgdir.get, ht]
    simp [walkpgdir, ht, hget]
  | some t =>
    cases he : d.get (va.toNat / PGSIZE) with
    | none => simp [walkpgdir, ht, he]
    | some e =>
      have hu : ¬ e.u = true := fun hu => h ⟨e, he, hu⟩
      simp [walkpgdir, ht, he, hu]

/-- The memory is what the writes make of it. -/
theorem copyLoopOut_writes (h : copyLoopOut d fuel m va buf = some (b, m')) :
    m' = (writes d fuel va buf).foldl (fun m c => storeAll d m c.1 c.2) m := by
  induction fuel generalizing m va buf with
  | zero =>
    simp only [copyLoopOut, Option.some.injEq, Prod.mk.injEq] at h
    exact h.2.symm
  | succ fuel ih =>
    by_cases hb : buf = []
    · rw [copyLoopOut, if_pos hb] at h
      rw [writes, if_pos hb]
      exact (Prod.mk.inj (Option.some.inj h)).2.symm
    · by_cases hacc : d.Accessible (va.toNat / PGSIZE)
      · obtain ⟨e, he, hu⟩ := hacc
        rw [copyLoopOut_user hb he hu] at h
        rw [writes_user hb he hu, List.foldl_cons]
        exact ih h
      · obtain ⟨hout, hnil⟩ := copyLoopOut_other fuel m hb hacc
        rw [hout] at h
        rw [hnil]
        split at h
        · exact (Prod.mk.inj (Option.some.inj h)).2.symm
        · cases h

/-! ### All pages -/

/-- The pages from the next one on, counted around the end of the address space. -/
theorem page_next (va : Word) (i : ℕ) :
    ((next va).toNat / PGSIZE + i) % NPAGES = (va.toNat / PGSIZE + (i + 1)) % NPAGES := by
  rw [toNat_next]
  unfold PGSIZE NPAGES
  split <;> omega

/-- How much there is to do from the next page on, if anything. -/
theorem left_next (va : Word) (buf : List Byte) {i : ℕ} :
    ((next va).toNat / PGSIZE + i) * PGSIZE <
        (next va).toNat + (buf.drop (part va buf)).length ↔
      (va.toNat / PGSIZE + (i + 1)) * PGSIZE < va.toNat + buf.length := by
  rw [length_rest, toNat_next]
  unfold PGSIZE NPAGES
  split <;> omega

theorem copyLoopOut_empty (fuel : ℕ) : copyLoopOut d fuel m va [] = some (true, m) := by
  cases fuel with
  | zero => rfl
  | succ fuel => rw [copyLoopOut, if_pos rfl]

theorem fuel_rest (va : Word) (hb : buf ≠ []) (hfuel : buf.length ≤ fuel + 1) :
    (buf.drop (part va buf)).length ≤ fuel := by
  have hpos := part_pos va hb
  rw [List.length_drop]
  omega

/-- Over pages that user code can use, `copyout` gets through. -/
theorem copyLoopOut_through (hfuel : buf.length ≤ fuel)
    (hacc : ∀ i, (va.toNat / PGSIZE + i) * PGSIZE < va.toNat + buf.length →
      d.Accessible ((va.toNat / PGSIZE + i) % NPAGES)) :
    ∃ m', copyLoopOut d fuel m va buf = some (true, m') := by
  induction fuel generalizing m va buf with
  | zero => exact ⟨m, rfl⟩
  | succ fuel ih =>
    by_cases hb : buf = []
    · subst hb
      exact ⟨m, copyLoopOut_empty _⟩
    · have hpos := List.length_pos_of_ne_nil hb
      have hfirst := hacc 0 (by unfold PGSIZE; omega)
      rw [Nat.add_zero, Nat.mod_eq_of_lt (by unfold PGSIZE NPAGES; omega)] at hfirst
      obtain ⟨e, he, hu⟩ := hfirst
      rw [copyLoopOut_user hb he hu]
      refine ih (fuel_rest va hb hfuel) fun i hi => ?_
      rw [page_next]
      exact hacc (i + 1) ((left_next va buf).mp hi)

/-- Over a covered interval it stores all bytes. -/
theorem copyLoopOut_covered (hfuel : buf.length ≤ fuel) (h : Covered d va buf.length) :
    copyLoopOut d fuel m va buf = some (true, storeAll d m va.toNat buf) := by
  induction fuel generalizing m va buf with
  | zero =>
    obtain rfl := List.eq_nil_of_length_eq_zero (Nat.le_zero.mp hfuel)
    rfl
  | succ fuel ih =>
    obtain ⟨hend, hacc⟩ := h
    by_cases hb : buf = []
    · subst hb
      exact copyLoopOut_empty _
    · have hpos := List.length_pos_of_ne_nil hb
      obtain ⟨e, he, hu⟩ := hacc va.toNat le_rfl (by omega)
      obtain ⟨hle, -⟩ := part_le va buf
      have htake : (buf.take (part va buf)).length = part va buf := by
        rw [List.length_take, Nat.min_eq_left hle]
      have hsplit : storeAll d m va.toNat buf = storeAll d
          (storeAll d m va.toNat (buf.take (part va buf))) (va.toNat + part va buf)
          (buf.drop (part va buf)) := by
        have := storeAll_append d m va.toNat (buf.take (part va buf)) (buf.drop (part va buf))
        rwa [List.take_append_drop, htake] at this
      rw [copyLoopOut_user hb he hu, hsplit]
      by_cases hrest : buf.drop (part va buf) = []
      · rw [hrest, copyLoopOut_empty]
        rfl
      · have hmore := List.length_pos_of_ne_nil hrest
        have hlen := length_rest va buf
        have hnext : (next va).toNat = va.toNat + part va buf := by
          rw [toNat_next]
          unfold part PGSIZE NPAGES at *
          split <;> omega
        have hsum : (next va).toNat + (buf.drop (part va buf)).length =
            va.toNat + buf.length := by
          rw [hnext, List.length_drop]
          omega
        rw [← hnext]
        refine ih (fuel_rest va hb hfuel) ⟨hsum ▸ hend, fun x h₁ h₂ => hacc x ?_ (hsum ▸ h₂)⟩
        rw [hnext] at h₁
        omega

/-- It stops at the first page that user code cannot use. -/
theorem copyLoopOut_stops {k : ℕ} (hb : buf ≠ []) (hfuel : buf.length ≤ fuel)
    (hk : k ≠ 0 → (va.toNat / PGSIZE + k) * PGSIZE < va.toNat + buf.length)
    (hacc : ∀ i < k, d.Accessible ((va.toNat / PGSIZE + i) % NPAGES))
    (hno : ¬ d.Accessible ((va.toNat / PGSIZE + k) % NPAGES)) :
    ((d.pde (PDX ((va.toNat / PGSIZE + k) % NPAGES))).isSome →
      ∃ m', copyLoopOut d fuel m va buf = some (false, m')) ∧
    (d.pde (PDX ((va.toNat / PGSIZE + k) % NPAGES)) = none →
      copyLoopOut d fuel m va buf = none) := by
  have hpage : va.toNat / PGSIZE % NPAGES = va.toNat / PGSIZE :=
    Nat.mod_eq_of_lt (by unfold PGSIZE NPAGES; omega)
  induction k generalizing fuel m va buf with
  | zero =>
    rw [Nat.add_zero, hpage] at hno ⊢
    have hpos := List.length_pos_of_ne_nil hb
    obtain ⟨fuel, rfl⟩ : ∃ n, fuel = n + 1 := ⟨fuel - 1, by omega⟩
    rw [(copyLoopOut_other _ _ hb hno).1]
    refine ⟨fun ht => ⟨m, if_pos ht⟩, fun ht => if_neg ?_⟩
    rw [ht]
    decide
  | succ k ih =>
    have hpos := List.length_pos_of_ne_nil hb
    obtain ⟨fuel, rfl⟩ : ∃ n, fuel = n + 1 := ⟨fuel - 1, by omega⟩
    have hfirst := hacc 0 (Nat.succ_pos k)
    rw [Nat.add_zero, hpage] at hfirst
    obtain ⟨e, he, hu⟩ := hfirst
    have hleft := hk (Nat.succ_ne_zero k)
    have hrest : buf.drop (part va buf) ≠ [] := by
      intro hnil
      have hlen := length_rest va buf
      rw [hnil, List.length_nil] at hlen
      unfold PGSIZE at hleft hlen
      omega
    rw [copyLoopOut_user hb he hu, ← page_next]
    refine ih hrest (fuel_rest va hb hfuel) (fun _ => (left_next va buf).mpr hleft)
      (fun i hi => ?_) ?_ (Nat.mod_eq_of_lt (by unfold PGSIZE NPAGES; omega))
    · rw [page_next]
      exact hacc (i + 1) (Nat.succ_lt_succ hi)
    · rwa [page_next]

/-- What it has written when it stops, if that is not after page 0. -/
theorem writes_stops {k : ℕ} (hk : va.toNat / PGSIZE + k ≤ NPAGES)
    (hno : ¬ d.Accessible ((va.toNat / PGSIZE + k) % NPAGES)) :
    ∀ c ∈ writes d fuel va buf, ∀ x, c.1 ≤ x → x < c.1 + c.2.length →
      va.toNat ≤ x ∧ x < va.toNat + buf.length ∧ x < (va.toNat / PGSIZE + k) * PGSIZE ∧
        d.Accessible (x / PGSIZE) := by
  have hpage : va.toNat / PGSIZE % NPAGES = va.toNat / PGSIZE :=
    Nat.mod_eq_of_lt (by unfold PGSIZE NPAGES; omega)
  induction fuel generalizing k va buf with
  | zero => exact fun c hc => absurd hc List.not_mem_nil
  | succ fuel ih =>
    intro c hc x h₁ h₂
    by_cases hb : buf = []
    · rw [writes, if_pos hb] at hc
      exact absurd hc List.not_mem_nil
    · by_cases hacc : d.Accessible (va.toNat / PGSIZE)
      · obtain ⟨e, he, hu⟩ := hacc
        have hpos : k ≠ 0 := by
          rintro rfl
          rw [Nat.add_zero, hpage] at hno
          exact hno ⟨e, he, hu⟩
        obtain ⟨hle, hroom⟩ := part_le va buf
        rw [writes_user hb he hu] at hc
        rcases List.mem_cons.mp hc with rfl | hc
        · rw [List.length_take, Nat.min_eq_left hle] at h₂
          have hsame : x / PGSIZE = va.toNat / PGSIZE := by
            unfold PGSIZE at hroom ⊢
            omega
          refine ⟨h₁, by omega, ?_, ?_⟩
          · unfold PGSIZE at hroom ⊢
            omega
          · rw [hsame]
            exact ⟨e, he, hu⟩
        · obtain ⟨j, rfl⟩ : ∃ j, k = j + 1 := ⟨k - 1, by omega⟩
          have hcount : (next va).toNat / PGSIZE + j ≤ NPAGES := by
            rw [toNat_next]
            unfold PGSIZE NPAGES at *
            split <;> omega
          have hrest := ih (k := j) hcount (by rwa [page_next])
            (Nat.mod_eq_of_lt (by unfold PGSIZE NPAGES; omega)) c hc x h₁ h₂
          obtain ⟨h₃, h₄, h₅, h₆⟩ := hrest
          have hnext := toNat_next va
          rw [length_rest] at h₄
          by_cases hlast : va.toNat / PGSIZE + 1 = NPAGES
          · obtain rfl : j = 0 := by omega
            rw [if_pos hlast] at hnext
            rw [hnext, Nat.zero_div, Nat.zero_mul] at h₅
            exact absurd h₅ (Nat.not_lt_zero x)
          · rw [if_neg hlast] at hnext
            rw [hnext] at h₃ h₄
            rw [hnext, Nat.mul_div_cancel _ (by decide), Nat.add_right_comm] at h₅
            have hlow : va.toNat ≤ x ∧ x < va.toNat + buf.length := by
              unfold PGSIZE at h₃ h₄
              omega
            exact ⟨hlow.1, hlow.2, h₅, h₆⟩
      · rw [(copyLoopOut_other _ ⟨[], fun _ _ => 0⟩ hb hacc).2] at hc
        exact absurd hc List.not_mem_nil

/-- Past the end of the address space it writes page 0. -/
theorem writes_wrapped (hfuel : buf.length ≤ fuel) (hover : 2 ^ 32 < va.toNat + buf.length)
    (hacc : ∀ v, va.toNat / PGSIZE ≤ v → v ≤ NPAGES → d.Accessible (v % NPAGES)) :
    ∃ bytes, bytes ≠ [] ∧ (0, bytes) ∈ writes d fuel va buf := by
  have hlt := va.isLt
  have hpage : va.toNat / PGSIZE % NPAGES = va.toNat / PGSIZE :=
    Nat.mod_eq_of_lt (by unfold PGSIZE NPAGES; omega)
  induction fuel generalizing va buf with
  | zero => omega
  | succ fuel ih =>
    have hb : buf ≠ [] := by
      rintro rfl
      simp only [List.length_nil] at hover
      omega
    have hfirst := hacc (va.toNat / PGSIZE) le_rfl (by unfold PGSIZE NPAGES; omega)
    rw [hpage] at hfirst
    obtain ⟨e, he, hu⟩ := hfirst
    have hrest := fuel_rest va hb hfuel
    have hlen := length_rest va buf
    rw [writes_user hb he hu]
    by_cases hlast : va.toNat / PGSIZE + 1 = NPAGES
    · have hzero : (next va).toNat = 0 := by rw [toNat_next, if_pos hlast]
      have hmore : buf.drop (part va buf) ≠ [] := by
        intro hnil
        rw [hnil, List.length_nil] at hlen
        unfold PGSIZE at hlast hlen
        unfold NPAGES at hlast
        omega
      have hpos := List.length_pos_of_ne_nil hmore
      obtain ⟨fuel, rfl⟩ : ∃ n, fuel = n + 1 := ⟨fuel - 1, by omega⟩
      obtain ⟨e₀, he₀, hu₀⟩ := hacc NPAGES (by omega) le_rfl
      have hpage₀ : (next va).toNat / PGSIZE = NPAGES % NPAGES := by
        rw [hzero, Nat.zero_div, Nat.mod_self]
      rw [writes_user hmore (hpage₀ ▸ he₀) hu₀, hzero]
      refine ⟨_, fun hnil => ?_, List.mem_cons_of_mem _ List.mem_cons_self⟩
      have := congrArg List.length hnil
      have hpart := part_pos (next va) hmore
      have hle := (part_le (next va) (buf.drop (part va buf))).1
      rw [List.length_take, List.length_nil, Nat.min_eq_left hle] at this
      omega
    · have hnext := toNat_next va
      rw [if_neg hlast] at hnext
      obtain ⟨bytes, hne, hmem⟩ := @ih (next va) (buf.drop (part va buf)) hrest
        (by unfold PGSIZE at *; omega) (fun v h₁ h₂ => hacc v (by unfold PGSIZE at *; omega) h₂)
        (next va).isLt (Nat.mod_eq_of_lt (by unfold PGSIZE NPAGES; omega))
      exact ⟨bytes, hne, List.mem_cons_of_mem _ hmem⟩

/-! ### copyout -/

theorem Covered.ok (h : Covered d va buf.length) : CopyoutOk d va buf :=
  ⟨fun h _ => copyLoopOut_covered le_rfl h, fun hno => absurd h hno⟩

theorem Stops.ok (h : Stops d va buf.length) (hno : ¬ Covered d va buf.length) :
    CopyoutOk d va buf := by
  have hlt := va.isLt
  have hb : buf ≠ [] := by
    rintro rfl
    refine hno ⟨hlt.le, fun x h₁ h₂ => ?_⟩
    rw [List.length_nil] at h₂
    omega
  obtain ⟨v, hfirst, hmax, hreach, hacc, hstop, htable⟩ := h
  obtain ⟨k, rfl⟩ := Nat.exists_eq_add_of_le hfirst
  refine ⟨fun h => absurd h hno, fun _ => ⟨fun m => ?_, fun c hc x h₁ h₂ => ?_⟩⟩
  · obtain ⟨m', hrun⟩ := (copyLoopOut_stops (m := m) hb le_rfl (fun _ => hreach) (fun i hi => by
      rw [Nat.mod_eq_of_lt (by omega)]
      exact hacc _ (Nat.le_add_right _ i) (by omega)) hstop).1 htable
    have hmem := copyLoopOut_writes hrun
    rw [← hmem]
    exact hrun
  · obtain ⟨h₃, h₄, -, hx⟩ := writes_stops hmax hstop c hc x h₁ h₂
    exact ⟨hx, x, h₃, h₄, rfl⟩

/-- `copyout` does what it is there for exactly on the intervals that are covered, and on those whose
    first page that user code cannot use has its page table and is not beyond page 0. -/
theorem copyout_ok_iff (hlen : buf.length < 2 ^ 32) :
    CopyoutOk d va buf ↔ Covered d va buf.length ∨ Stops d va buf.length := by
  constructor
  · intro h
    by_contra hno
    obtain ⟨hcov, hstop⟩ := not_or.mp hno
    obtain ⟨hfail, hinside⟩ := h.fails hcov
    have hrun := hfail ⟨[], fun _ _ => 0⟩
    have hlt := va.isLt
    by_cases hall : ∀ i, (va.toNat / PGSIZE + i) * PGSIZE < va.toNat + buf.length →
        d.Accessible ((va.toNat / PGSIZE + i) % NPAGES)
    · obtain ⟨m', hthrough⟩ := copyLoopOut_through (m := ⟨[], fun _ _ => 0⟩) le_rfl hall
      unfold copyout at hrun
      rw [hthrough] at hrun
      simp at hrun
    · -- the first page that user code cannot use
      classical
      push Not at hall
      obtain ⟨hreach, hpage⟩ := Nat.find_spec hall
      have hbefore : ∀ i < Nat.find hall, d.Accessible ((va.toNat / PGSIZE + i) % NPAGES) := by
        intro i hi
        by_contra hacc
        refine Nat.find_min hall hi ⟨lt_of_le_of_lt ?_ hreach, hacc⟩
        exact Nat.mul_le_mul_right _ (Nat.add_le_add_left hi.le _)
      generalize Nat.find hall = k at hreach hpage hbefore
      have hb : buf ≠ [] := by
        rintro rfl
        refine hcov ⟨hlt.le, fun x h₁ h₂ => ?_⟩
        rw [List.length_nil] at h₂
        omega
      obtain ⟨-, hmissing⟩ := copyLoopOut_stops (m := ⟨[], fun _ _ => 0⟩) hb le_rfl
        (fun _ => hreach) hbefore hpage
      cases ht : d.pde (PDX ((va.toNat / PGSIZE + k) % NPAGES)) with
      | none =>
        unfold copyout at hrun
        rw [hmissing ht] at hrun
        simp at hrun
      | some t =>
        by_cases hmax : va.toNat / PGSIZE + k ≤ NPAGES
        · refine hstop ⟨_, Nat.le_add_right _ k, hmax, hreach, fun x h₁ h₂ => ?_, hpage, ?_⟩
          · obtain ⟨i, rfl⟩ := Nat.exists_eq_add_of_le h₁
            have := hbefore i (by omega)
            rwa [Nat.mod_eq_of_lt (by omega)] at this
          · rw [ht]
            rfl
        · have hsize : NPAGES * PGSIZE = 2 ^ 32 := rfl
          have hover : 2 ^ 32 < va.toNat + buf.length := by
            rw [← hsize]
            exact (Nat.mul_le_mul_right _ (not_le.mp hmax).le).trans_lt hreach
          obtain ⟨bytes, hne, hmem⟩ := writes_wrapped le_rfl hover fun v h₁ h₂ => by
            obtain ⟨i, rfl⟩ := Nat.exists_eq_add_of_le h₁
            exact hbefore i (by omega)
          -- page 0 is a page of the interval only if that is all of the address space
          have hpos := List.length_pos_of_ne_nil hne
          obtain ⟨-, y, h₁, -, hy⟩ := hinside _ hmem 0 le_rfl (by simpa using hpos)
          unfold PGSIZE NPAGES at *
          omega
  · intro h
    by_cases hcov : Covered d va buf.length
    · exact hcov.ok
    · exact (h.resolve_left hcov).ok hcov

/-- One page that the user can write, and nothing next to it. -/
def onePage : Pgdir where
  frame := 1
  pde i := if i = 0 then some ⟨2, fun j => if j = 0 then some ⟨3, true, true⟩ else none⟩ else none

theorem onePage_zero : onePage.get 0 = some ⟨3, true, true⟩ := rfl

/-- Over the end of the page. -/
theorem copyout_ok_iff_onePage : ([1, 2] : List Byte).length < 2 ^ 32 ∧
    CopyoutOk onePage 0xfff [1, 2] := by
  have hlen : ([1, 2] : List Byte).length < 2 ^ 32 := by decide
  refine ⟨hlen, (copyout_ok_iff hlen).mpr (.inr ⟨1, by decide, by decide, by decide, ?_, ?_, rfl⟩)⟩
  · intro x _ hx
    obtain rfl : x = 0 := by omega
    exact ⟨_, onePage_zero, rfl⟩
  · rintro ⟨e, he, -⟩
    have hnone : onePage.get (1 % NPAGES) = none := rfl
    exact absurd (hnone.symm.trans he) (by simp)

/-- Without a page table for the address, the null pointer is dereferenced. -/
theorem copyout_missing : ¬ CopyoutOk onePage 0xe0000000 [1] := by
  intro h
  have hnone : onePage.get 0xe0000 = none := rfl
  have hno : ¬ Covered onePage 0xe0000000 ([1] : List Byte).length := by
    rintro ⟨-, hacc⟩
    obtain ⟨e, he, -⟩ := hacc 0xe0000000 (by decide) (by decide)
    exact absurd (hnone.symm.trans he) (by simp)
  have hrun := (h.fails hno).1 ⟨[], fun _ _ => 0⟩
  have hnull : copyout ⟨[], fun _ _ => 0⟩ onePage 0xe0000000 [1] = none := rfl
  rw [hnull] at hrun
  cases hrun

end

end Xv6.Memory
