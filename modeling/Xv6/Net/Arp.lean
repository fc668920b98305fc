import Xv6.Schemes.Run
import Mathlib.Data.Finset.Card
import Mathlib.Data.BitVec
import Mathlib.Data.Fin.VecNotation

/-! @src arp.c arp.h | name:The ARP table | layer:model,proof

    `arp_table_search` returns the entry of an address, or `-i-1` for the first unused entry `i`. In a
    full table there is no such entry and it returns 0, which `arp_table_update` takes for the entry
    of the address: it overwrites the MAC of the address in entry 0. -/

namespace Xv6.Net.Arp
open Xv6.Schemes

abbrev ARP_TABLE_MAX : ℕ := 64

abbrev Ip : Type := Fin 4 → BitVec 8
abbrev Mac : Type := Fin 6 → BitVec 8

structure arp_entry where
  ip : Ip
  mac : Mac
  use : BitVec 8

/-- A reply, as far as it is used: `src_ip` and `src_mac`. -/
structure Reply where
  src_ip : Ip
  src_mac : Mac
  nonzero : src_ip ≠ 0

/-- `arp_table`, at any index. -/
abbrev Table : Type := ℤ → arp_entry

/-- The indices of the table, in the order of the loop. -/
def slots : List ℤ := (List.range ARP_TABLE_MAX).map fun i : ℕ => (i : ℤ)

/-- The loop of `arp_table_search`. -/
def searchLoop (t : Table) (ip : Ip) : List ℤ → ℤ → ℤ
  | [], empty => empty - 1
  | i :: is, empty =>
    if (t i).ip = ip then i
    else searchLoop t ip is (if (t i).use = 0 ∧ empty = 1 then -i else empty)

def arp_table_search (t : Table) (ip : Ip) : ℤ := searchLoop t ip slots 1

def arp_table_update (t : Table) (recv_arp : Reply) : Table :=
  let index := arp_table_search t recv_arp.src_ip
  if index > -1 then Function.update t index { t index with mac := recv_arp.src_mac }
  else
    let index := -(index + 1)
    Function.update t index ⟨recv_arp.src_ip, recv_arp.src_mac, 1⟩

/-- The table, and the replies that it has been given, the latest first. -/
structure Sys where
  table : Table
  replies : List Reply

def Sys.init : Sys := ⟨fun _ => ⟨0, 0, 0⟩, []⟩

def Sys.receive (s : Sys) (r : Reply) : Sys := ⟨arp_table_update s.table r, r :: s.replies⟩

def Sys.Step (s : Sys) (r : Reply) (u : Sys) : Prop := u = s.receive r

/-! ### The table as a map -/

def Slot (i : ℤ) : Prop := 0 ≤ i ∧ i < ARP_TABLE_MAX

/-- Entry `i` is used for the address. -/
def EntryOf (t : Table) (ip : Ip) (i : ℤ) : Prop := Slot i ∧ (t i).use ≠ 0 ∧ (t i).ip = ip

/-- The MAC of the latest reply from the address. -/
def latest (replies : List Reply) (ip : Ip) : Option Mac :=
  (replies.find? fun r => r.src_ip = ip).map Reply.src_mac

/-- The addresses that replies have come from. -/
def addresses (replies : List Reply) : Finset Ip := (replies.map Reply.src_ip).toFinset

/-- No address has two entries; and as long as there are not too many, each has one, with the MAC of
    its latest reply. -/
structure IsMap (s : Sys) : Prop where
  distinct : ∀ ip i j, EntryOf s.table ip i → EntryOf s.table ip j → i = j
  stored : (addresses s.replies).card ≤ ARP_TABLE_MAX → ∀ r ∈ s.replies,
    ∃ i, EntryOf s.table r.src_ip i ∧ latest s.replies r.src_ip = some (s.table i).mac

/-- The reply leaves alone what is recorded for other addresses. -/
def KeepsOthers (s : Sys) (r : Reply) : Prop :=
  ∀ ip i, ip ≠ r.src_ip → EntryOf s.table ip i →
    ∃ j, EntryOf (arp_table_update s.table r) ip j ∧
      (arp_table_update s.table r j).mac = (s.table i).mac

/-- The address has an entry or an entry is unused, or the MAC is the one in entry 0. -/
def Room (s : Sys) (r : Reply) : Prop :=
  (∃ i, Slot i ∧ ((s.table i).ip = r.src_ip ∨ (s.table i).use = 0)) ∨
    r.src_mac = (s.table 0).mac

/-! ### The search -/

section

variable {t : Table} {ip : Ip} {is : List ℤ} {empty i j : ℤ} {s u : Sys} {r : Reply}
  {rs : List Reply}

theorem mem_slots : i ∈ slots ↔ Slot i := by
  unfold slots Slot
  rw [List.mem_map]
  constructor
  · rintro ⟨k, hk, rfl⟩
    exact ⟨Int.natCast_nonneg k, Int.ofNat_lt.mpr (List.mem_range.mp hk)⟩
  · rintro ⟨h0, h⟩
    exact ⟨i.toNat, List.mem_range.mpr ((Int.toNat_lt h0).mpr h), Int.toNat_of_nonneg h0⟩

/-- What the loop returns: an entry of the address, what it has found before, the first unused entry
    or none. -/
theorem searchLoop_spec (t : Table) (ip : Ip) (empty : ℤ) (hpos : ∀ i ∈ is, 0 ≤ i) :
    (∃ i ∈ is, (t i).ip = ip ∧ searchLoop t ip is empty = i) ∨
      (∀ i ∈ is, (t i).ip ≠ ip) ∧
        (empty ≠ 1 ∧ searchLoop t ip is empty = empty - 1 ∨
          empty = 1 ∧ ((∃ i ∈ is, (t i).use = 0 ∧ searchLoop t ip is empty = -i - 1) ∨
            (∀ i ∈ is, (t i).use ≠ 0) ∧ searchLoop t ip is empty = 0)) := by
  induction is generalizing empty with
  | nil =>
    refine Or.inr ⟨by simp, ?_⟩
    rcases eq_or_ne empty 1 with rfl | hne
    · exact Or.inr ⟨rfl, Or.inr ⟨by simp, rfl⟩⟩
    · exact Or.inl ⟨hne, rfl⟩
  | cons i is ih =>
    obtain ⟨hi, hpos⟩ := List.forall_mem_cons.mp hpos
    by_cases hip : (t i).ip = ip
    · exact Or.inl ⟨i, List.mem_cons_self, hip, if_pos hip⟩
    · have hnext : searchLoop t ip (i :: is) empty =
          searchLoop t ip is (if (t i).use = 0 ∧ empty = 1 then -i else empty) := if_neg hip
      rw [hnext]
      rcases ih (if (t i).use = 0 ∧ empty = 1 then -i else empty) hpos with
        ⟨j, hj, hjp, hr⟩ | ⟨hno, hr⟩
      · exact Or.inl ⟨j, List.mem_cons_of_mem i hj, hjp, hr⟩
      · refine Or.inr ⟨List.forall_mem_cons.mpr ⟨hip, hno⟩, ?_⟩
        by_cases hfirst : (t i).use = 0 ∧ empty = 1
        · -- the first unused entry
          rw [if_pos hfirst] at hr ⊢
          rcases hr with ⟨-, hr⟩ | ⟨hone, -⟩
          · exact Or.inr ⟨hfirst.2, Or.inl ⟨i, List.mem_cons_self, hfirst.1, hr⟩⟩
          · omega
        · rw [if_neg hfirst] at hr ⊢
          rcases hr with hr | ⟨rfl, ⟨j, hj, hju, hr⟩ | ⟨hfull, hr⟩⟩
          · exact Or.inl hr
          · exact Or.inr ⟨rfl, Or.inl ⟨j, List.mem_cons_of_mem i hj, hju, hr⟩⟩
          · have hused : (t i).use ≠ 0 := fun h => hfirst ⟨h, rfl⟩
            exact Or.inr ⟨rfl, Or.inr ⟨List.forall_mem_cons.mpr ⟨hused, hfull⟩, hr⟩⟩

/-- The three ways `arp_table_update` can go. -/
theorem update_cases (t : Table) (r : Reply) :
    (∃ i, Slot i ∧ (t i).ip = r.src_ip ∧
      arp_table_update t r = Function.update t i { t i with mac := r.src_mac }) ∨
    (∀ i, Slot i → (t i).ip ≠ r.src_ip) ∧
      ((∃ i, Slot i ∧ (t i).use = 0 ∧
        arp_table_update t r = Function.update t i ⟨r.src_ip, r.src_mac, 1⟩) ∨
      (∀ i, Slot i → (t i).use ≠ 0) ∧
        arp_table_update t r = Function.update t 0 { t 0 with mac := r.src_mac }) := by
  have hpos : ∀ i ∈ slots, 0 ≤ i := fun i hi => (mem_slots.mp hi).1
  unfold arp_table_update
  rcases searchLoop_spec t r.src_ip 1 hpos with
    ⟨i, hi, hip, hr⟩ | ⟨hno, ⟨h1, -⟩ | ⟨-, ⟨i, hi, hiu, hr⟩ | ⟨hfull, hr⟩⟩⟩
  · have hslot := mem_slots.mp hi
    have hindex : arp_table_search t r.src_ip > -1 := by
      rw [arp_table_search, hr]
      exact Int.lt_of_lt_of_le (by decide) hslot.1
    refine Or.inl ⟨i, hslot, hip, ?_⟩
    rw [if_pos hindex, arp_table_search, hr]
  · exact absurd rfl h1
  · have hslot := mem_slots.mp hi
    have hindex : ¬ arp_table_search t r.src_ip > -1 := by
      rw [arp_table_search, hr]
      have := hslot.1
      omega
    have hslot' : -(-i - 1 + 1) = i := by omega
    refine Or.inr ⟨fun i hi => hno i (mem_slots.mpr hi), Or.inl ⟨i, hslot, hiu, ?_⟩⟩
    rw [if_neg hindex, arp_table_search, hr, hslot']
  · have hindex : arp_table_search t r.src_ip > -1 := by
      rw [arp_table_search, hr]
      decide
    refine Or.inr ⟨fun i hi => hno i (mem_slots.mpr hi), Or.inr ⟨fun i hi => hfull i (mem_slots.mpr hi), ?_⟩⟩
    rw [if_pos hindex, arp_table_search, hr]

/-! ### The invariant -/

/-- The entries are those of the addresses seen, each with the latest MAC; an address is missing only
    if there have been too many. -/
structure Inv (t : Table) (rs : List Reply) : Prop where
  unused : ∀ i, Slot i → (t i).use = 0 → (t i).ip = 0
  seen : ∀ ip i, EntryOf t ip i → ip ∈ addresses rs
  distinct : ∀ ip i j, EntryOf t ip i → EntryOf t ip j → i = j
  latest : ∀ ip i, EntryOf t ip i → latest rs ip = some (t i).mac
  stored : (∀ ip ∈ addresses rs, ∃ i, EntryOf t ip i) ∨
    ARP_TABLE_MAX < (addresses rs).card

theorem inv_init : Inv Sys.init.table Sys.init.replies where
  unused := fun _ _ _ => rfl
  seen := fun _ _ h => absurd rfl h.2.1
  distinct := fun _ _ _ h => absurd rfl h.2.1
  latest := fun _ _ h => absurd rfl h.2.1
  stored := Or.inl fun ip hip => absurd hip (by simp [Sys.init, addresses])

theorem Inv.isMap (h : Inv s.table s.replies) : IsMap s where
  distinct := h.distinct
  stored := fun hfew r hr => by
    have hmem : r.src_ip ∈ addresses s.replies := List.mem_toFinset.mpr (List.mem_map_of_mem hr)
    obtain ⟨i, hi⟩ := h.stored.resolve_right (not_lt.mpr hfew) r.src_ip hmem
    exact ⟨i, hi, h.latest _ i hi⟩

theorem addresses_cons : addresses (r :: rs) = insert r.src_ip (addresses rs) := by
  unfold addresses
  rw [List.map_cons, List.toFinset_cons]

theorem latest_self : latest (r :: rs) r.src_ip = some r.src_mac := by
  simp [latest]

theorem latest_other (h : ip ≠ r.src_ip) : latest (r :: rs) ip = latest rs ip := by
  simp [latest, Ne.symm h]

/-- An entry with the address of a reply is used, since unused entries have none. -/
theorem Inv.entryOf (h : Inv t rs) (hi : Slot i) (hip : (t i).ip = r.src_ip) :
    EntryOf t r.src_ip i :=
  ⟨hi, fun hu => r.nonzero (hip.symm.trans (h.unused i hi hu)), hip⟩

theorem slot_zero : Slot 0 := ⟨le_rfl, by decide⟩

/-- The entries of a table in which one has got another MAC. -/
theorem entryOf_mac {m : Mac} :
    EntryOf (Function.update t i { t i with mac := m }) ip j ↔ EntryOf t ip j := by
  unfold EntryOf
  rcases eq_or_ne j i with rfl | hne
  · rw [Function.update_self]
  · rw [Function.update_of_ne hne]

/-- The entries of a table in which one has been filled. -/
theorem entryOf_fill (hi : Slot i) (hu : (t i).use = 0) :
    EntryOf (Function.update t i ⟨r.src_ip, r.src_mac, 1⟩) ip j ↔
      EntryOf t ip j ∨ ip = r.src_ip ∧ j = i := by
  unfold EntryOf
  rcases eq_or_ne j i with rfl | hne
  · rw [Function.update_self]
    constructor
    · rintro ⟨-, -, rfl⟩
      exact Or.inr ⟨rfl, rfl⟩
    · rintro (⟨-, hused, -⟩ | ⟨rfl, -⟩)
      · exact absurd hu hused
      · exact ⟨hi, by simp, rfl⟩
  · rw [Function.update_of_ne hne]
    exact (or_iff_left fun h => hne h.2).symm

/-- A full table has as many addresses as entries. -/
theorem Inv.full (h : Inv t rs) (hfull : ∀ i, Slot i → (t i).use ≠ 0)
    (hno : ∀ i, Slot i → (t i).ip ≠ r.src_ip) :
    ARP_TABLE_MAX < (insert r.src_ip (addresses rs)).card := by
  have hcard : (slots.toFinset.image fun i => (t i).ip).card = ARP_TABLE_MAX := by
    rw [Finset.card_image_of_injOn]
    · decide
    · intro i hi j hj hij
      have hi := mem_slots.mp (List.mem_toFinset.mp hi)
      have hj := mem_slots.mp (List.mem_toFinset.mp hj)
      exact h.distinct _ i j ⟨hi, hfull i hi, hij⟩ ⟨hj, hfull j hj, rfl⟩
  have hsub : insert r.src_ip (slots.toFinset.image fun i => (t i).ip) ⊆
      insert r.src_ip (addresses rs) := by
    refine Finset.insert_subset_insert _ fun ip hip => ?_
    obtain ⟨i, hi, rfl⟩ := Finset.mem_image.mp hip
    have hi := mem_slots.mp (List.mem_toFinset.mp hi)
    exact h.seen _ i ⟨hi, hfull i hi, rfl⟩
  have hnew : r.src_ip ∉ slots.toFinset.image fun i => (t i).ip := by
    intro hip
    obtain ⟨i, hi, hip⟩ := Finset.mem_image.mp hip
    exact hno i (mem_slots.mp (List.mem_toFinset.mp hi)) hip
  have := Finset.card_le_card hsub
  rw [Finset.card_insert_of_notMem hnew, hcard] at this
  omega

/-- The address has an entry, which gets the MAC. -/
theorem Inv.found (h : Inv t rs) (hi : Slot i) (hip : (t i).ip = r.src_ip) :
    Inv (Function.update t i { t i with mac := r.src_mac }) (r :: rs) := by
  have hentry := h.entryOf hi hip
  have hmem : r.src_ip ∈ addresses rs := h.seen _ i hentry
  have haddr : addresses (r :: rs) = addresses rs := by
    rw [addresses_cons, Finset.insert_eq_of_mem hmem]
  refine ⟨fun j hj hu => ?_, fun ip j hj => ?_, fun ip j k hj hk => ?_, fun ip j hj => ?_, ?_⟩
  · rcases eq_or_ne j i with rfl | hne
    · rw [Function.update_self] at hu ⊢
      exact h.unused j hj hu
    · rw [Function.update_of_ne hne] at hu ⊢
      exact h.unused j hj hu
  · rw [haddr]
    exact h.seen ip j (entryOf_mac.mp hj)
  · exact h.distinct ip j k (entryOf_mac.mp hj) (entryOf_mac.mp hk)
  · have hold := entryOf_mac.mp hj
    rcases eq_or_ne j i with rfl | hne
    · obtain rfl : ip = r.src_ip := hold.2.2.symm.trans hip
      rw [latest_self, Function.update_self]
    · have hother : ip ≠ r.src_ip := by
        rintro rfl
        exact hne (h.distinct _ j i hold hentry)
      rw [latest_other hother, Function.update_of_ne hne]
      exact h.latest ip j hold
  · rw [haddr]
    exact h.stored.imp_left fun hs ip hip => (hs ip hip).imp fun j hj => entryOf_mac.mpr hj

/-- The address is new, and an entry was unused. -/
theorem Inv.fill (h : Inv t rs) (hno : ∀ i, Slot i → (t i).ip ≠ r.src_ip) (hi : Slot i)
    (hu : (t i).use = 0) :
    Inv (Function.update t i ⟨r.src_ip, r.src_mac, 1⟩) (r :: rs) := by
  have hold : ∀ {ip j}, EntryOf t ip j → ip ≠ r.src_ip ∧ j ≠ i := by
    rintro ip j ⟨hj, hju, rfl⟩
    exact ⟨hno j hj, fun hji => hju (hji ▸ hu)⟩
  refine ⟨fun j hj hju => ?_, fun ip j hj => ?_, fun ip j k hj hk => ?_, fun ip j hj => ?_, ?_⟩
  · rcases eq_or_ne j i with rfl | hne
    · rw [Function.update_self] at hju
      exact absurd hju (by simp)
    · rw [Function.update_of_ne hne] at hju ⊢
      exact h.unused j hj hju
  · rw [addresses_cons, Finset.mem_insert]
    rcases (entryOf_fill hi hu).mp hj with hj | ⟨hip, -⟩
    · exact Or.inr (h.seen ip j hj)
    · exact Or.inl hip
  · rcases (entryOf_fill hi hu).mp hj with hj' | ⟨hip, hji⟩ <;>
      rcases (entryOf_fill hi hu).mp hk with hk' | ⟨hip', hki⟩
    · exact h.distinct ip j k hj' hk'
    · exact absurd hip' (hold hj').1
    · exact absurd hip (hold hk').1
    · exact hji.trans hki.symm
  · rcases (entryOf_fill hi hu).mp hj with hj' | ⟨rfl, rfl⟩
    · rw [latest_other (hold hj').1, Function.update_of_ne (hold hj').2]
      exact h.latest ip j hj'
    · rw [latest_self, Function.update_self]
  · rw [addresses_cons]
    rcases h.stored with hs | hmany
    · refine Or.inl fun ip hip => ?_
      rcases Finset.mem_insert.mp hip with rfl | hip
      · exact ⟨i, (entryOf_fill hi hu).mpr (Or.inr ⟨rfl, rfl⟩)⟩
      · exact (hs ip hip).imp fun j hj => (entryOf_fill hi hu).mpr (Or.inl hj)
    · exact Or.inr (hmany.trans_le (Finset.card_le_card (Finset.subset_insert ..)))

/-- The address is new, the table is full, and the MAC is the one that is overwritten. -/
theorem Inv.same (h : Inv t rs) (hno : ∀ i, Slot i → (t i).ip ≠ r.src_ip)
    (hfull : ∀ i, Slot i → (t i).use ≠ 0) (hmac : r.src_mac = (t 0).mac) :
    Inv (Function.update t 0 { t 0 with mac := r.src_mac }) (r :: rs) := by
  rw [hmac, Function.update_eq_self]
  refine ⟨h.unused, fun ip j hj => ?_, h.distinct, fun ip j hj => ?_, Or.inr ?_⟩
  · rw [addresses_cons]
    exact Finset.mem_insert_of_mem (h.seen ip j hj)
  · have hother : ip ≠ r.src_ip := by
      rintro rfl
      exact hno j hj.1 hj.2.2
    rw [latest_other hother]
    exact h.latest ip j hj
  · rw [addresses_cons]
    exact h.full hfull hno

/-- Each reply for which there is room. -/
theorem inv_step (h : Inv s.table s.replies) (hroom : Room s r) (hst : s.Step r u) :
    Inv u.table u.replies := by
  obtain rfl := hst
  unfold Sys.receive
  rcases update_cases s.table r with ⟨i, hi, hip, ht⟩ | ⟨hno, ⟨i, hi, hu, ht⟩ | ⟨hfull, ht⟩⟩
  · simp only [ht]
    exact h.found hi hip
  · simp only [ht]
    exact h.fill hno hi hu
  · simp only [ht]
    refine h.same hno hfull (hroom.resolve_left ?_)
    rintro ⟨i, hi, hip | hu⟩
    · exact hno i hi hip
    · exact hfull i hi hu

/-- A reply leaves the others alone iff there is room for it. -/
theorem keepsOthers_iff (h : Inv s.table s.replies) : KeepsOthers s r ↔ Room s r := by
  unfold KeepsOthers
  rcases update_cases s.table r with ⟨i, hi, hip, ht⟩ | ⟨hno, ⟨i, hi, hu, ht⟩ | ⟨hfull, ht⟩⟩
  · refine iff_of_true (fun ip j hne hj => ⟨j, ?_, ?_⟩) (Or.inl ⟨i, hi, Or.inl hip⟩)
    · rw [ht]
      exact entryOf_mac.mpr hj
    · have hji : j ≠ i := by
        rintro rfl
        exact hne (hj.2.2.symm.trans hip)
      rw [ht, Function.update_of_ne hji]
  · refine iff_of_true (fun ip j hne hj => ⟨j, ?_, ?_⟩) (Or.inl ⟨i, hi, Or.inr hu⟩)
    · rw [ht]
      exact (entryOf_fill hi hu).mpr (Or.inl hj)
    · have hji : j ≠ i := by
        rintro rfl
        exact hj.2.1 hu
      rw [ht, Function.update_of_ne hji]
  · -- entry 0 gets the MAC
    have hroom : Room s r ↔ r.src_mac = (s.table 0).mac := by
      refine or_iff_right ?_
      rintro ⟨i, hi, hip | hu⟩
      · exact hno i hi hip
      · exact hfull i hi hu
    rw [hroom, ht]
    constructor
    · intro hkeep
      have hentry : EntryOf s.table (s.table 0).ip 0 := ⟨slot_zero, hfull 0 slot_zero, rfl⟩
      obtain ⟨j, hj, hmac⟩ := hkeep _ 0 (hno 0 slot_zero) hentry
      obtain rfl := h.distinct _ j 0 (entryOf_mac.mp hj) hentry
      rwa [Function.update_self] at hmac
    · intro hmac ip j _ hj
      rw [hmac, Function.update_eq_self]
      exact ⟨j, hj, rfl⟩

/-- There is room as long as there are not more addresses than entries. -/
theorem Inv.room (h : Inv s.table s.replies)
    (hfew : (insert r.src_ip (addresses s.replies)).card ≤ ARP_TABLE_MAX) : Room s r := by
  by_contra hno
  obtain ⟨hnone, -⟩ := not_or.mp hno
  refine absurd hfew (not_le.mpr (h.full (fun i hi hu => ?_) fun i hi hip => ?_))
  · exact hnone ⟨i, hi, Or.inr hu⟩
  · exact hnone ⟨i, hi, Or.inl hip⟩

/-- Once as many addresses as entries have been seen, there is no room for a new one with a new MAC. -/
theorem Inv.no_room (h : Inv s.table s.replies) (hcard : (addresses s.replies).card = ARP_TABLE_MAX)
    (hip : r.src_ip ∉ addresses s.replies) (hmac : ∀ r' ∈ s.replies, r'.src_mac ≠ r.src_mac) :
    ¬ Room s r := by
  have hstored := h.stored.resolve_right (by omega)
  choose! entry hentry using hstored
  have hused : ∀ i, Slot i → (s.table i).use ≠ 0 := by
    have hsurj : Set.SurjOn entry (addresses s.replies) slots.toFinset := by
      refine Finset.surjOn_of_injOn_of_card_le entry (fun ip hip => ?_) (fun ip hip ip' hip' he => ?_) ?_
      · exact List.mem_toFinset.mpr (mem_slots.mpr (hentry ip hip).1)
      · exact (hentry ip hip).2.2.symm.trans (he ▸ (hentry ip' hip').2.2)
      · rw [hcard]
        decide
    intro i hi
    obtain ⟨ip, hip, rfl⟩ := hsurj (List.mem_toFinset.mpr (mem_slots.mpr hi))
    exact (hentry ip hip).2.1
  rintro (⟨i, hi, hi' | hu⟩ | hm)
  · exact hip (h.seen _ i (h.entryOf hi hi'))
  · exact hused i hi hu
  · obtain ⟨r', hr', hm'⟩ := Option.map_eq_some_iff.mp
      (h.latest _ 0 ⟨slot_zero, hused 0 slot_zero, rfl⟩)
    exact hmac r' (List.mem_of_find?_eq_some hr') (hm'.trans hm.symm)

/-- Any replies can come. -/
theorem receives (rs : List Reply) (s : Sys) :
    ∃ l u, Run Sys.Step s l u ∧ u.replies = rs.reverse ++ s.replies := by
  induction rs generalizing s with
  | nil => exact ⟨[], s, .nil s, rfl⟩
  | cons r rs ih =>
    obtain ⟨l, u, hrun, hu⟩ := ih (s.receive r)
    refine ⟨_, u, .cons rfl hrun, ?_⟩
    rw [hu, List.reverse_cons, List.append_assoc]
    rfl

end

theorem along_keepsOthers_iff {s : Sys} {l : List (Sys × Reply)} (h : Run Sys.Step Sys.init l s) :
    Along KeepsOthers l ↔ Along Room l :=
  h.along_iff (I := fun s => Inv s.table s.replies) (fun _ _ _ => inv_step)
    (fun _ _ hi => keepsOthers_iff hi) inv_init

/-- The table is a map, and each reply leaves the records of other addresses alone, iff each reply
    comes from an address with an entry, or finds an unused entry, or has the MAC of entry 0. -/
theorem arp_table_map_iff {s : Sys} {l : List (Sys × Reply)} (h : Run Sys.Step Sys.init l s) :
    Throughout IsMap l s ∧ Along KeepsOthers l ↔ Along Room l := by
  have hiff := along_keepsOthers_iff h
  constructor
  · exact fun hmap => hiff.mp hmap.2
  · intro hroom
    have hinv := h.invariant (I := fun s => Inv s.table s.replies) (fun _ _ _ => inv_step) inv_init hroom
    exact ⟨hinv.mono fun _ hi => hi.isMap, hiff.mpr hroom⟩

/-- A reply from 10.0.1.`k` with a MAC that ends in `k`. -/
def replyFrom (k : ℕ) : Reply where
  src_ip := ![10, 0, 1, BitVec.ofNat 8 k]
  src_mac := ![0, 0, 0, 0, 0, BitVec.ofNat 8 k]
  nonzero := fun h => by
    have hfirst : (10 : BitVec 8) = 0 := congrFun h 0
    exact absurd hfirst (by decide)

/-- Replies from two addresses. -/
theorem arp_table_map_iff_two : ∃ l s, Run Sys.Step Sys.init l s ∧
    l.map Prod.snd = [replyFrom 1, replyFrom 2] ∧ Throughout IsMap l s ∧ Along KeepsOthers l := by
  refine ⟨_, _, .cons rfl (.cons rfl (.nil _)), rfl, (arp_table_map_iff (.cons rfl (.cons rfl (.nil _)))).mpr ?_⟩
  have hfirst : Room Sys.init (replyFrom 1) := inv_init.room (by decide)
  exact along_cons.mpr ⟨hfirst, along_cons.mpr ⟨(inv_step inv_init hfirst rfl).room (by decide), along_nil⟩⟩

theorem replyFrom_inj {j k : ℕ} (hj : j < 256) (hk : k < 256)
    (h : BitVec.ofNat 8 j = BitVec.ofNat 8 k) : j = k := by
  have := congrArg BitVec.toNat h
  rwa [BitVec.toNat_ofNat, BitVec.toNat_ofNat, Nat.mod_eq_of_lt hj, Nat.mod_eq_of_lt hk] at this

/-- A reply from one address more than the table has entries, each with a MAC of its own. -/
theorem full_table_overwrites : ∃ l s, Run Sys.Step Sys.init l s ∧
    s.replies = ((List.range 65).map replyFrom).reverse ∧
    ¬ (Throughout IsMap l s ∧ Along KeepsOthers l) := by
  obtain ⟨l, u, hrun, hreplies⟩ := receives ((List.range 64).map replyFrom) Sys.init
  rw [Sys.init, List.append_nil] at hreplies
  have hmem : ∀ {r}, r ∈ u.replies → ∃ k < 64, replyFrom k = r := by
    intro r hr
    rw [hreplies, List.mem_reverse] at hr
    obtain ⟨k, hk, rfl⟩ := List.mem_map.mp hr
    exact ⟨k, List.mem_range.mp hk, rfl⟩
  have hcard : (addresses u.replies).card = ARP_TABLE_MAX := by
    rw [addresses, List.toFinset_card_of_nodup, List.length_map, hreplies, List.length_reverse,
      List.length_map, List.length_range]
    rw [hreplies, List.map_reverse, List.nodup_reverse, List.map_map]
    refine List.Nodup.map_on (fun j hj k hk he => ?_) List.nodup_range
    have hj := List.mem_range.mp hj
    have hk := List.mem_range.mp hk
    have he : (replyFrom j).src_ip = (replyFrom k).src_ip := he
    exact replyFrom_inj (by omega) (by omega) (congrFun he 3)
  have hlast := hrun.append (.cons rfl (.nil (u.receive (replyFrom 64))))
  refine ⟨_, _, hlast, ?_, fun hok => ?_⟩
  · rw [List.range_succ, List.map_append, List.reverse_append, ← hreplies]
    rfl
  · have hroom := (along_keepsOthers_iff hlast).mp hok.2
    have hfirst : Along Room l := fun x hx => hroom x (List.mem_append_left _ hx)
    have hinv := (hrun.invariant (I := fun s => Inv s.table s.replies) (fun _ _ _ => inv_step)
      inv_init hfirst).2
    refine hinv.no_room hcard ?_ ?_ (hroom (u, replyFrom 64) (by simp))
    · intro hip
      obtain ⟨r, hr, he⟩ := List.mem_map.mp (List.mem_toFinset.mp hip)
      obtain ⟨k, hk, rfl⟩ := hmem hr
      have := replyFrom_inj (by omega) (by decide) (congrFun he 3)
      omega
    · intro r hr he
      obtain ⟨k, hk, rfl⟩ := hmem hr
      have := replyFrom_inj (by omega) (by decide) (congrFun he 5)
      omega

end Xv6.Net.Arp
