import Xv6.Vm.Dealloc

/-! @src vm.c | name:Words and page numbers | layer:proof

    The page directory of words says, entry by entry, what the one of `Memory` holds. On what it
    says the two walks of `deallocuvm`, over addresses and over page numbers, do the same. -/

namespace Xv6.Vm

open Xv6.Schemes.X86 (Word)
open Xv6.Memory (Phys Pgdir PageTable Pte)

variable {v fuel : ℕ} {kend oldsz newsz : Word} {m m' : Phys} {d d' : Dir}

/-- What an entry says, if it is present. -/
def decode (e : Word) : Option Pte :=
  if e &&& PTE_P ≠ 0 then some ⟨frameOf (PTE_ADDR e), e &&& PTE_W ≠ 0, e &&& PTE_U ≠ 0⟩ else none

theorem decode_zero : decode 0 = none := if_neg (by decide)

def Table.abs (t : Table) : PageTable where
  frame := t.frame
  pte j := if j < 1024 then decode (t.pte (BitVec.ofNat 10 j)) else none

/-- The page directory that the words stand for. -/
def Dir.abs (d : Dir) : Pgdir where
  frame := d.frame
  pde i := if i < 1024 then (d.pde (BitVec.ofNat 10 i)).map Table.abs else none

theorem PDX_addr (hv : v < 2 ^ 20) : Memory.PDX v < 1024 ∧
    BitVec.ofNat 10 (Memory.PDX v) = PDX (addr v) := by
  have hdx : Memory.PDX v = v / 1024 := rfl
  refine ⟨by omega, BitVec.eq_of_toNat_eq ?_⟩
  rw [toNat_PDX, toNat_addr hv, BitVec.toNat_ofNat, hdx]
  omega

theorem PTX_addr (hv : v < 2 ^ 20) : Memory.PTX v < 1024 ∧
    BitVec.ofNat 10 (Memory.PTX v) = PTX (addr v) := by
  have htx : Memory.PTX v = v % 1024 := rfl
  refine ⟨by omega, BitVec.eq_of_toNat_eq ?_⟩
  rw [toNat_PTX, toNat_addr hv, BitVec.toNat_ofNat, htx]
  omega

/-- An index is the one of the address only for its own number. -/
theorem ofNat_ne {i j : ℕ} (hi : i < 1024) (hj : j < 1024) (hne : i ≠ j) :
    BitVec.ofNat 10 i ≠ BitVec.ofNat 10 j := by
  intro he
  have := congrArg BitVec.toNat he
  rw [BitVec.toNat_ofNat, BitVec.toNat_ofNat] at this
  omega

theorem abs_pde (hv : v < 2 ^ 20) :
    d.abs.pde (Memory.PDX v) = (d.pde (PDX (addr v))).map Table.abs := by
  obtain ⟨hlt, hidx⟩ := PDX_addr hv
  unfold Dir.abs
  simp only [if_pos hlt, hidx]

theorem abs_get (hv : v < 2 ^ 20) : d.abs.get v = decode (d.pte (addr v)) := by
  obtain ⟨hlt, hidx⟩ := PTX_addr hv
  unfold Pgdir.get Dir.pte
  rw [abs_pde hv]
  cases d.pde (PDX (addr v)) with
  | none => exact decode_zero.symm
  | some t => simp only [Option.map_some, Option.bind_some, Table.abs, if_pos hlt, hidx]

/-- Clearing an entry. -/
theorem abs_set (hv : v < 2 ^ 20) : (d.set (addr v) 0).abs = d.abs.set v none := by
  obtain ⟨hlt, hidx⟩ := PDX_addr hv
  obtain ⟨hltx, hidxx⟩ := PTX_addr hv
  have hpde := abs_pde (d := d) hv
  refine congrArg (Pgdir.mk d.frame) (funext fun i => ?_)
  rw [hpde]
  rcases eq_or_ne i (Memory.PDX v) with rfl | hne
  · rw [Function.update_self, if_pos hlt, hidx]
    simp only [Dir.set, Function.update_self, Option.map_map]
    refine congrArg (fun f => Option.map f _) (funext fun t => ?_)
    refine congrArg (PageTable.mk t.frame) (funext fun j => ?_)
    rcases eq_or_ne j (Memory.PTX v) with rfl | hnej
    · rw [if_pos hltx, hidxx, Function.update_self]
      simp only [Function.update_self, decode_zero]
    · rw [Function.update_of_ne hnej]
      by_cases hj : j < 1024
      · rw [if_pos hj, ← hidxx]
        simp only [Function.update_of_ne (ofNat_ne hj hltx hnej), Table.abs, if_pos hj]
      · rw [if_neg hj]
        simp only [Table.abs, if_neg hj]
  · rw [Function.update_of_ne hne]
    by_cases hi : i < 1024
    · rw [if_pos hi]
      simp only [Dir.set, ← hidx, Function.update_of_ne (ofNat_ne hi hlt hne), Dir.abs, if_pos hi]
    · rw [if_neg hi]
      simp only [Dir.abs, if_neg hi]

/-- The two loops go over the same pages. -/
theorem deallocLoop_abs (hmax : oldsz.toNat ≤ 2 ^ 31) (hv : v ≤ 2 ^ 19) (hd : UserOk kend d)
    (h : deallocLoop kend oldsz fuel (addr v) m d = .returns (m', d')) :
    Memory.deallocLoop oldsz fuel v m d.abs = (m', d'.abs) := by
  induction fuel generalizing v m d with
  | zero => cases h
  | succ fuel ih =>
    have haddr := toNat_addr (x := v) (by omega)
    have hpde := abs_pde (d := d) (v := v) (by omega)
    have hget := abs_get (d := d) (v := v) (by omega)
    by_cases hlt : v * 4096 < oldsz.toNat
    · have hword : addr v < oldsz := by
        rw [BitVec.lt_def, haddr]
        exact hlt
      rw [Memory.deallocLoop, if_pos hlt]
      cases ht : d.pde (PDX (addr v)) with
      | none =>
        rw [ht, Option.map_none] at hpde
        rw [deallocLoop_missing (by omega) hword ht, pageOf_addr (by omega)] at h
        simp only [Memory.walkpgdir, hpde]
        have hnext : (Memory.PDX v + 1) * Memory.NPTENTRIES = (v / 1024 + 1) * 1024 := rfl
        rw [hnext]
        exact ih (by omega) hd h
      | some t =>
        have hsome : (d.pde (PDX (addr v))).isSome := by
          rw [ht]
          rfl
        rw [ht, Option.map_some] at hpde
        simp only [Memory.walkpgdir, hpde, hget]
        cases hp : d.get (addr v) with
        | some e =>
          have hdec : decode (d.pte (addr v)) =
              some ⟨frameOf (PTE_ADDR e), e &&& PTE_W ≠ 0, e &&& PTE_U ≠ 0⟩ := by
            unfold Dir.get at hp
            split at hp
            · rename_i hpres
              obtain rfl := Option.some.inj hp
              exact if_pos hpres
            · exact absurd hp (by simp)
          rw [deallocLoop_table hword hsome (freePage_present hd (by omega) hp),
            addr_add (by omega)] at h
          have := ih (by omega) (hd.set hsome) h
          rw [abs_set (by omega)] at this
          rw [hdec]
          exact this
        | none =>
          have hdec : decode (d.pte (addr v)) = none := by
            unfold Dir.get at hp
            split at hp
            · exact absurd hp (by simp)
            · rename_i hpres
              exact if_neg hpres
          rw [deallocLoop_table hword hsome (freePage_absent hp), addr_add (by omega)] at h
          rw [hdec]
          exact ih (by omega) hd h
    · have hstop : ¬ addr v < oldsz := by
        rw [BitVec.lt_def, haddr]
        exact hlt
      rw [deallocLoop, if_neg hstop] at h
      obtain ⟨rfl, rfl⟩ := Prod.mk.inj (Ends.returns.inj h)
      rw [Memory.deallocLoop, if_neg hlt]

/-- `deallocuvm` over page numbers is `deallocuvm` over addresses. -/
theorem deallocuvm_abs (m : Phys) (d : UserDir kend) (hmax : oldsz ≤ KERNBASE) (newsz : Word) :
    ∃ ret m' d', deallocuvm kend m d.toDir oldsz newsz = .returns (ret, m', d') ∧
      Memory.deallocuvm m d.abs oldsz newsz = (ret, m', d'.abs) := by
  have hkern : KERNBASE.toNat = 2 ^ 31 := rfl
  have hold : oldsz.toNat ≤ 2 ^ 31 := hkern ▸ BitVec.le_def.mp hmax
  unfold deallocuvm Memory.deallocuvm
  by_cases hlt : newsz < oldsz
  · have hnew : newsz.toNat < oldsz.toNat := hlt
    have hpages : Memory.NPAGES = 2 ^ 20 := rfl
    have hup : Memory.pageUp newsz = (newsz.toNat + 4095) / 4096 := by
      have hsum : (newsz + 0xfff).toNat = newsz.toNat + 4095 := by bv_omega
      unfold Memory.pageUp
      rw [hsum]
    have hloop := @deallocLoop_eq ((newsz.toNat + 4095) / 4096) kend oldsz m d.toDir
      Memory.NPAGES hold (by omega) (by omega) d.user
    have hsame := deallocLoop_abs hold (by omega) d.user hloop
    rw [if_neg (BitVec.not_le.mpr hlt), if_neg (BitVec.not_le.mpr hlt), PGROUNDUP_eq (by omega),
      hloop, hup, hsame]
    exact ⟨newsz, _, _, rfl, rfl⟩
  · rw [if_pos (BitVec.not_lt.mp hlt), if_pos (BitVec.not_lt.mp hlt)]
    exact ⟨oldsz, m, d.toDir, rfl, rfl⟩

end Xv6.Vm
