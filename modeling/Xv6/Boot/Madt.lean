import Xv6.Schemes.While
import Mathlib.Data.BitVec
import Mathlib.Data.List.Basic
import Mathlib.Logic.Function.Basic

/-! @src mp_uefi.c mp_uefi.h loader.c structs.h | name:The records of the MADT | layer:model,proof

    Both walks go on by the length byte of a record of type 0, 1, 2 or 4 and by 12 for type 5. There is
    no default: at a record of any other type the cursor stays, and the walk never ends. -/

namespace Xv6.Boot

open Xv6.Schemes

abbrev Uchar : Type := BitVec 8
abbrev Uint : Type := BitVec 32
abbrev UINTN : Type := BitVec 64

abbrev NCPU : ℕ := 4

/-- The table in memory, from its first byte on. `P2V_WO` puts it into the upper half of the address
    space. -/
structure Madt where
  mem : ℕ → Uchar
  fits : (mem 7 ++ mem 6 ++ mem 5 ++ mem 4).toNat ≤ 2 ^ 31

namespace Madt

/-- The header's `len`. -/
def len (m : Madt) : Uint := m.mem 7 ++ m.mem 6 ++ m.mem 5 ++ m.mem 4

def entry_type (m : Madt) (i : ℕ) : ℕ := (m.mem i).toNat

def record_len (m : Madt) (i : ℕ) : Uchar := m.mem (i + 1)

def ioapic_id (m : Madt) (i : ℕ) : Uchar := m.mem (i + 2)

def lapic_id (m : Madt) (i : ℕ) : Uchar := m.mem (i + 3)

end Madt

/-- `cpus[].apicid` and `ncpu`. -/
structure Cpus where
  apicid : ℕ → Uchar
  ncpu : ℕ

def Cpus.add (c : Cpus) (lapic_id : Uchar) : Cpus :=
  if c.ncpu < NCPU then ⟨Function.update c.apicid c.ncpu lapic_id, c.ncpu + 1⟩ else c

/-- The cursor and what `mpinit_uefi` sets. -/
structure Walk where
  i : Uint
  cpus : Cpus
  ioapicid : Uchar

/-- The body of the loop of `mpinit_uefi`. -/
def Walk.body (m : Madt) (s : Walk) : Walk :=
  let entry := s.i.toNat
  match m.entry_type entry with
  | 0 => { s with
      cpus := s.cpus.add (m.lapic_id entry)
      i := s.i + (m.record_len entry).setWidth 32 }
  | 1 => { s with
      ioapicid := m.ioapic_id entry
      i := s.i + (m.record_len entry).setWidth 32 }
  | 2 => { s with i := s.i + (m.record_len entry).setWidth 32 }
  | 4 => { s with i := s.i + (m.record_len entry).setWidth 32 }
  | 5 => { s with i := s.i + 0xC }
  | _ => s

def Walk.guard (m : Madt) (s : Walk) : Prop := s.i < m.len

instance (m : Madt) : DecidablePred (Walk.guard m) := fun s => inferInstanceAs (Decidable (s.i < m.len))

/-- Where the loop of `mpinit_uefi` starts. -/
def Walk.start (before : Walk) : Walk := { before with i := 44, cpus := { before.cpus with ncpu := 0 } }

/-- The body of the loop of the loader, but for what it prints. -/
def loaderBody (m : Madt) (i : UINTN) : UINTN :=
  match m.entry_type i.toNat with
  | 0 => i + (m.record_len i.toNat).setWidth 64
  | 1 => i + (m.record_len i.toNat).setWidth 64
  | 2 => i + (m.record_len i.toNat).setWidth 64
  | 4 => i + (m.record_len i.toNat).setWidth 64
  | 5 => i + 0xC
  | _ => i

def loaderGuard (m : Madt) (i : UINTN) : Prop := i < m.len.setWidth 64

instance (m : Madt) : DecidablePred (loaderGuard m) := fun _ => inferInstanceAs (Decidable (_ < _))

/-! ### Records -/

/-- The records from `i` on lie one after the other up to the end of the table. -/
inductive Tiling (m : Madt) : ℕ → List ℕ → Prop
  | done : Tiling m m.len.toNat []
  | next {i : ℕ} {rs : List ℕ} (two : 2 ≤ (m.record_len i).toNat)
      (inside : i + (m.record_len i).toNat ≤ m.len.toNat)
      (rest : Tiling m (i + (m.record_len i).toNat) rs) : Tiling m i (i :: rs)

/-- The types that have a case. -/
def Known (m : Madt) (i : ℕ) : Prop := m.entry_type i ∈ [0, 1, 2, 4, 5]

instance (m : Madt) : DecidablePred (Known m) := fun _ => inferInstanceAs (Decidable (_ ∈ _))

/-- The APIC ids of the entries of type 0. -/
def ids (m : Madt) (l : List ℕ) : List Uchar :=
  (l.filter fun i => m.entry_type i = 0).map m.lapic_id

/-- The first `NCPU` of the ids, and no others, are registered. -/
def Registered (c : Cpus) (l : List Uchar) : Prop :=
  c.ncpu = min NCPU l.length ∧ ∀ k, (h : k < l.length) → k < NCPU → c.apicid k = l[k]

/-- Both walks end, the kernel's with the processors of the records `rs`; no record is in its way. -/
structure Right (m : Madt) (rs : List ℕ) (before : Walk) : Prop where
  kernel : ∃ n t, loop (Walk.guard m) (Walk.body m) n before.start = some t ∧
    Registered t.cpus (ids m rs)
  skips : ∀ r ∈ rs, ¬ Known m r →
    ∀ s : Walk, s.i.toNat = r → (s.body m).i.toNat = r + (m.record_len r).toNat
  loader : ∃ n j, loop (loaderGuard m) (loaderBody m) n 0x2C = some j

/-! ### The entries that are visited -/

/-- How far the cursor goes at a type that has a case. -/
def stride (m : Madt) (i : ℕ) : ℕ := if m.entry_type i = 5 then 12 else (m.record_len i).toNat

/-- The table cut from `i` on into known entries, those of type 5 counted as 12 bytes. -/
inductive Cut (m : Madt) : ℕ → List ℕ → Prop
  | done {i : ℕ} (h : m.len.toNat ≤ i) : Cut m i []
  | next {i : ℕ} {is : List ℕ} (h : i < m.len.toNat) (known : Known m i)
      (rest : Cut m (i + stride m i) is) : Cut m i (i :: is)

def below (m : Madt) (i : ℕ) : Prop := i < m.len.toNat

/-- The cursor of either walk. -/
def advance (m : Madt) (i : ℕ) : ℕ := if Known m i then i + stride m i else i

section

variable {m : Madt} {s t : Walk} {i : ℕ} {rs is : List ℕ}

theorem len_le (m : Madt) : m.len.toNat ≤ 2 ^ 31 := m.fits

theorem advance_known (h : m.entry_type i ∈ [0, 1, 2, 4, 5]) : advance m i = i + stride m i := if_pos h

theorem stride_record {k : ℕ} (h : m.entry_type i = k) (hk : k ≠ 5) :
    stride m i = (m.record_len i).toNat := if_neg (h ▸ hk)

theorem advance_other (h0 : m.entry_type i ≠ 0) (h1 : m.entry_type i ≠ 1) (h2 : m.entry_type i ≠ 2)
    (h4 : m.entry_type i ≠ 4) (h5 : m.entry_type i ≠ 5) : advance m i = i := by
  refine if_neg ?_
  unfold Known
  simp only [List.mem_cons, List.not_mem_nil, or_false]
  omega

/-- The kernel's cursor does not leave 32 bits. -/
theorem body_i (h : s.guard m) : (s.body m).i.toNat = advance m s.i.toNat := by
  have hlen := len_le m
  have hi : s.i.toNat < m.len.toNat := h
  have hgo (b : Uchar) : (s.i + b.setWidth 32).toNat = s.i.toNat + b.toNat := by
    have hb := b.isLt
    rw [BitVec.toNat_add, BitVec.toNat_setWidth]
    omega
  have hfive : (s.i + 0xC).toNat = s.i.toNat + 12 := by
    have h12 : (0xC : Uint).toNat = 12 := rfl
    rw [BitVec.toNat_add, h12]
    omega
  unfold Walk.body
  dsimp only
  split
  case h_1 heq | h_2 heq | h_3 heq | h_4 heq =>
    rw [advance_known (by rw [heq]; decide), stride_record heq (by decide)]
    exact hgo _
  case h_5 heq =>
    rw [advance_known (by rw [heq]; decide), stride, if_pos heq]
    exact hfive
  case h_6 h0 h1 h2 h4 h5 => exact (advance_other h0 h1 h2 h4 h5).symm

/-- The loader's cursor does not leave 64 bits. -/
theorem loaderBody_i {i : UINTN} (h : loaderGuard m i) :
    (loaderBody m i).toNat = advance m i.toNat := by
  have hlen := len_le m
  have hi : i.toNat < (m.len.setWidth 64).toNat := h
  rw [BitVec.toNat_setWidth] at hi
  have hgo (b : Uchar) : (i + b.setWidth 64).toNat = i.toNat + b.toNat := by
    have hb := b.isLt
    rw [BitVec.toNat_add, BitVec.toNat_setWidth]
    omega
  have hfive : (i + 0xC).toNat = i.toNat + 12 := by
    have h12 : (0xC : UINTN).toNat = 12 := rfl
    rw [BitVec.toNat_add, h12]
    omega
  unfold loaderBody
  split
  case h_1 heq | h_2 heq | h_3 heq | h_4 heq =>
    rw [advance_known (by rw [heq]; decide), stride_record heq (by decide)]
    exact hgo _
  case h_5 heq =>
    rw [advance_known (by rw [heq]; decide), stride, if_pos heq]
    exact hfive
  case h_6 h0 h1 h2 h4 h5 => exact (advance_other h0 h1 h2 h4 h5).symm

theorem body_cpus (m : Madt) (s : Walk) : (s.body m).cpus =
    if m.entry_type s.i.toNat = 0 then s.cpus.add (m.lapic_id s.i.toNat) else s.cpus := by
  unfold Walk.body
  dsimp only
  split
  case h_1 heq => exact (if_pos heq).symm
  case h_2 heq | h_3 heq | h_4 heq | h_5 heq => exact (if_neg (by rw [heq]; decide)).symm
  case h_6 h0 _ _ _ _ => exact (if_neg h0).symm

/-! ### The walks end where the table can be cut -/

theorem advance_ends_iff : (∃ j, Ends (below m) (advance m) i j) ↔ ∃ is, Cut m i is := by
  constructor
  · rintro ⟨j, h⟩
    induction h with
    | stop h => exact ⟨[], .done (not_lt.mp h)⟩
    | @step i j h rest ih =>
      obtain ⟨is, his⟩ := ih
      by_cases hk : Known m i
      · rw [advance_known hk] at his
        exact ⟨i :: is, .next h hk his⟩
      · -- a type without a case
        have hstays : advance m i = i := if_neg hk
        exact absurd (Ends.step h rest) (not_ends_of_fixed h hstays)
  · rintro ⟨is, h⟩
    induction h with
    | done h => exact ⟨_, .stop (not_lt.mpr h)⟩
    | next h known _ ih =>
      obtain ⟨j, hj⟩ := ih
      exact ⟨j, .step h (advance_known known ▸ hj)⟩

theorem walk_cut (h : Ends (Walk.guard m) (Walk.body m) s t) : ∃ is, Cut m s.i.toNat is :=
  advance_ends_iff.mp ⟨_, h.map (f := fun s : Walk => s.i.toNat) (fun _ => Iff.rfl) fun _ hs => body_i hs⟩

theorem ids_cons_lapic (h : m.entry_type i = 0) : ids m (i :: is) = m.lapic_id i :: ids m is := by
  simp [ids, h]

theorem ids_cons_other (h : m.entry_type i ≠ 0) : ids m (i :: is) = ids m is := by
  simp [ids, h]

/-- The kernel's walk registers the entries of type 0 that the cut has. -/
theorem Cut.walk (h : Cut m i is) : ∀ s : Walk, s.i.toNat = i →
    ∃ t, Ends (Walk.guard m) (Walk.body m) s t ∧ t.cpus = (ids m is).foldl Cpus.add s.cpus := by
  induction h with
  | done h =>
    rintro s rfl
    exact ⟨s, .stop (not_lt.mpr h), rfl⟩
  | next h known _ ih =>
    rintro s rfl
    obtain ⟨t, hends, hcpus⟩ := ih (s.body m) ((body_i h).trans (advance_known known))
    refine ⟨t, .step h hends, hcpus.trans ?_⟩
    rw [body_cpus]
    by_cases h0 : m.entry_type s.i.toNat = 0
    · rw [if_pos h0, ids_cons_lapic h0, List.foldl_cons]
    · rw [if_neg h0, ids_cons_other h0]

theorem loader_guard_iff (m : Madt) (i : UINTN) : loaderGuard m i ↔ i.toNat < m.len.toNat := by
  have hlen := m.len.isLt
  unfold loaderGuard
  rw [BitVec.lt_def, BitVec.toNat_setWidth, Nat.mod_eq_of_lt (by omega)]

theorem Cut.loader (h : Cut m i is) : ∀ j : UINTN, j.toNat = i →
    ∃ k, Ends (loaderGuard m) (loaderBody m) j k := by
  induction h with
  | done h =>
    rintro j rfl
    exact ⟨j, .stop (mt (loader_guard_iff m j).mp (not_lt.mpr h))⟩
  | next h known _ ih =>
    rintro j rfl
    have hguard := (loader_guard_iff m j).mpr h
    obtain ⟨k, hends⟩ := ih (loaderBody m j) ((loaderBody_i hguard).trans (advance_known known))
    exact ⟨k, .step hguard hends⟩

/-! ### What is registered -/

/-- From none on, the processors are registered in their order until there are `NCPU`. -/
theorem foldl_add (c : Cpus) (hc : c.ncpu = 0) (l : List Uchar) : Registered (l.foldl Cpus.add c) l := by
  induction l using List.reverseRecOn with
  | nil => exact ⟨hc, fun k hk => absurd hk (Nat.not_lt_zero k)⟩
  | append_singleton l a ih =>
    obtain ⟨hncpu, hapic⟩ := ih
    rw [List.foldl_append, List.foldl_cons, List.foldl_nil]
    generalize l.foldl Cpus.add c = c' at *
    unfold Cpus.add
    by_cases hroom : c'.ncpu < NCPU
    · rw [if_pos hroom]
      have hlen : c'.ncpu = l.length := by omega
      refine ⟨?_, fun k hk hn => ?_⟩
      · rw [List.length_append, List.length_singleton]
        show c'.ncpu + 1 = _
        omega
      · show Function.update c'.apicid c'.ncpu a k = _
        rw [hlen]
        rcases Nat.lt_or_ge k l.length with hk' | hk'
        · rw [Function.update_of_ne (by omega), List.getElem_append_left hk']
          exact hapic k hk' hn
        · obtain rfl : k = l.length := by
            rw [List.length_append, List.length_singleton] at hk
            omega
          rw [Function.update_self, List.getElem_concat_length rfl]
    · rw [if_neg hroom]
      refine ⟨?_, fun k hk hn => ?_⟩
      · rw [List.length_append, List.length_singleton]
        omega
      · have hk' : k < l.length := by omega
        rw [List.getElem_append_left hk']
        exact hapic k hk' hn

/-- The same processors are registered of two lists iff the lists begin alike. -/
theorem registered_take_iff {c : Cpus} {l l' : List Uchar} (h : Registered c l) :
    Registered c l' ↔ l.take NCPU = l'.take NCPU := by
  obtain ⟨hncpu, hapic⟩ := h
  constructor
  · rintro ⟨hncpu', hapic'⟩
    refine List.ext_getElem ?_ fun k hk hk' => ?_
    · rw [List.length_take, List.length_take, ← hncpu, ← hncpu']
    · rw [List.length_take] at hk hk'
      rw [List.getElem_take, List.getElem_take, ← hapic k (by omega) (by omega)]
      exact hapic' k (by omega) (by omega)
  · intro htake
    have hlen := congrArg List.length htake
    rw [List.length_take, List.length_take] at hlen
    refine ⟨hncpu.trans hlen, fun k hk hn => ?_⟩
    have hk' : k < (l'.take NCPU).length := by
      rw [List.length_take]
      omega
    have hkl : k < l.length := by omega
    have hk'' : k < (l.take NCPU).length := htake ▸ hk'
    calc c.apicid k = l[k] := hapic k hkl hn
      _ = (l.take NCPU)[k] := List.getElem_take.symm
      _ = (l'.take NCPU)[k] := by simp only [htake]
      _ = l'[k] := List.getElem_take

theorem Tiling.inside (h : Tiling m i rs) {r : ℕ} (hr : r ∈ rs) :
    2 ≤ (m.record_len r).toNat ∧ r + (m.record_len r).toNat ≤ m.len.toNat := by
  induction h with
  | done => exact absurd hr List.not_mem_nil
  | next two inside _ ih =>
    rcases List.mem_cons.mp hr with rfl | hr
    · exact ⟨two, inside⟩
    · exact ih hr

/-- Records of known types are the cut, as far as those of type 5 have 12 bytes. -/
theorem Tiling.cut (h : Tiling m i rs) (hknown : ∀ r ∈ rs, Known m r)
    (hfive : ∀ r ∈ rs, m.entry_type r = 5 → m.record_len r = 12) : Cut m i rs := by
  induction h with
  | done => exact .done le_rfl
  | @next r rs two inside _ ih =>
    obtain ⟨hk, hknown⟩ := List.forall_mem_cons.mp hknown
    obtain ⟨hf, hfive⟩ := List.forall_mem_cons.mp hfive
    have hstride : stride m r = (m.record_len r).toNat := by
      by_cases h5 : m.entry_type r = 5
      · rw [stride, if_pos h5, hf h5]
        rfl
      · exact if_neg h5
    exact .next (by omega) hk (hstride.symm ▸ ih hknown hfive)

/-- At a record of any other type the cursor stays, so there is none. -/
theorem Right.known (h : Right m rs s) (htiling : Tiling m i rs) {r : ℕ} (hr : r ∈ rs) : Known m r := by
  by_contra hk
  obtain ⟨htwo, hinside⟩ := htiling.inside hr
  have hlen := len_le m
  have hri : (BitVec.ofNat 32 r).toNat = r := by
    rw [BitVec.toNat_ofNat]
    omega
  have hbody := h.skips r hr hk { s with i := BitVec.ofNat 32 r } hri
  have hguard : Walk.guard m { s with i := BitVec.ofNat 32 r } := by
    show (BitVec.ofNat 32 r).toNat < m.len.toNat
    omega
  rw [body_i hguard, advance, hri, if_neg hk] at hbody
  omega

/-- Both walks are right iff each record has a type with a case, and the table can be cut, those of
    type 5 counted as 12 bytes, with the same processors first. -/
theorem madt_walk_iff (h : Tiling m 44 rs) (before : Walk) :
    Right m rs before ↔ (∀ r ∈ rs, Known m r) ∧
      ∃ is, Cut m 44 is ∧ (ids m is).take NCPU = (ids m rs).take NCPU := by
  have hregistered (is : List ℕ) :
      Registered ((ids m is).foldl Cpus.add before.start.cpus) (ids m is) := foldl_add _ rfl _
  constructor
  · intro hright
    refine ⟨fun r hr => hright.known h hr, ?_⟩
    obtain ⟨n, t, hloop, hids⟩ := hright.kernel
    have hends := ends_iff_loop.mpr ⟨n, hloop⟩
    obtain ⟨is, hcut⟩ := walk_cut hends
    obtain ⟨t', hends', hcpus⟩ := hcut.walk before.start rfl
    obtain rfl := hends.unique hends'
    exact ⟨is, hcut, (registered_take_iff (hregistered is)).mp (hcpus ▸ hids)⟩
  · rintro ⟨hknown, is, hcut, htake⟩
    obtain ⟨t, hends, hcpus⟩ := hcut.walk before.start rfl
    obtain ⟨j, hloader⟩ := hcut.loader 0x2C rfl
    obtain ⟨n, hloop⟩ := ends_iff_loop.mp hends
    obtain ⟨k, hloop'⟩ := ends_iff_loop.mp hloader
    refine ⟨⟨n, t, hloop, ?_⟩, fun r hr hk => absurd (hknown r hr) hk, ⟨k, j, hloop'⟩⟩
    rw [hcpus]
    exact (registered_take_iff (hregistered is)).mpr htake

end

/-- A table with these records. -/
def bytes (len : Uchar) (records : List Uchar) (i : ℕ) : Uchar :=
  ([0x41, 0x50, 0x49, 0x43, len, 0, 0, 0] ++ List.replicate 36 0 ++ records).getD i 0

/-- Two processors, an I/O APIC, an override, an address of the local APIC, and an interrupt. -/
def sample : Madt where
  mem := bytes 100 ([0, 8, 0, 0, 1, 0, 0, 0] ++ [0, 8, 1, 2, 1, 0, 0, 0] ++
    [1, 12, 0, 0, 0, 0, 0xC0, 0xFE, 0, 0, 0, 0] ++ [2, 10, 0, 0, 2, 0, 0, 0, 0, 0] ++
    [5, 12, 0, 0, 0, 0, 0xE0, 0xFE, 0, 0, 0, 0] ++ [4, 6, 0xFF, 0, 0, 1])
  fits := by decide

theorem madt_walk_iff_sample : Tiling sample 44 [44, 52, 60, 72, 82, 94] ∧
    Right sample [44, 52, 60, 72, 82, 94] ⟨0, ⟨fun _ => 0, 0⟩, 0⟩ := by
  have h : Tiling sample 44 [44, 52, 60, 72, 82, 94] :=
    .next (by decide) (by decide) (.next (by decide) (by decide) (.next (by decide) (by decide)
      (.next (by decide) (by decide) (.next (by decide) (by decide) (.next (by decide) (by decide) .done)))))
  exact ⟨h, (madt_walk_iff h _).mpr ⟨by decide, _, h.cut (by decide) (by decide), rfl⟩⟩

/-- One source of a non-maskable interrupt, which is type 3. -/
def nmiSource : Madt where
  mem := bytes 52 [3, 8, 0, 0, 2, 0, 0, 0]
  fits := by decide

theorem nmi_source_hangs : Tiling nmiSource 44 [44] ∧ ¬ Right nmiSource [44] ⟨0, ⟨fun _ => 0, 0⟩, 0⟩ := by
  have h : Tiling nmiSource 44 [44] := .next (by decide) (by decide) .done
  exact ⟨h, fun hright => absurd (hright.known h (List.mem_singleton_self 44)) (by decide)⟩

end Xv6.Boot
