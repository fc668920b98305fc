import Xv6.Schemes.Blocks
import Xv6.Umalloc.Heap

/-! @src umalloc.c usertests.c | name:free | layer:proof

    `free` finds the block before the one it gets, from wherever `freep` is in the circular list, and
    joins what is adjacent. The list stays in address order, with `base` at the lowest address. -/

namespace Xv6.Umalloc
open Xv6.Schemes
open Xv6.Schemes.Bytes (Mem write le num length_le num_le length_read write_other read_write
  read_write_apart Apart Within toNat_sub_cases)
open Xv6.Schemes.Blocks (Block Coalesced Links coalesced_cons)
open Xv6.Schemes.X86 (Word)
open Xv6.Memory (PGSIZE KERNBASE pageUp)

abbrev addr (a : ℕ) : Word := BitVec.ofNat 32 a

/-- The variable `base`, a block without units. -/
abbrev baseBlock (base : ℕ) : Block := ⟨base, 0⟩

namespace Heap

/-- What the header at an address says. -/
def next (h : Heap) (a : ℕ) : ℕ := (word h.mem (addr a)).toNat

def units (h : Heap) (a : ℕ) : ℕ := (word h.mem (addr (a + 4))).toNat

/-- The cells of the block are the process's. -/
def Mapped (h : Heap) (b : Block) : Prop := b.stop < 2 ^ 32 ∧ ∀ x ∈ b.cells, h.mapped (x / PGSIZE)

/-- The header at an address. -/
def header (a : ℕ) : Block := ⟨a, 8⟩

/-- The heap with a word changed. -/
def put (h : Heap) (a : ℕ) (x : Word) : Heap := { h with mem := write h.mem (addr a) (le 4 x.toNat) }

/-- The bytes outside of these headers have not changed, nor has anything but bytes. -/
structure Only (h h' : Heap) (headers : Set ℕ) : Prop where
  mem : ∀ x, x < 2 ^ 32 → (∀ a ∈ headers, x < a ∨ a + 8 ≤ x) → h'.mem (addr x) = h.mem (addr x)
  mapped : h'.mapped = h.mapped
  sz : h'.sz = h.sz

end Heap

open Heap

/-- The circular list of free blocks in memory. -/
structure FreeList (h : Heap) (base : ℕ) (l : List Block) : Prop where
  coalesced : Coalesced (baseBlock base :: l)
  above : ∀ b ∈ l, base + 8 ≤ b.addr
  pos : ∀ b ∈ l, 0 < b.len
  links : Links h.next ((baseBlock base :: l).map Block.addr) base
  sizes : ∀ b ∈ baseBlock base :: l, 8 * h.units b.addr = b.len
  mapped : ∀ b ∈ header base :: l, h.Mapped b
  freep : ∃ b ∈ baseBlock base :: l, h.freep = addr b.addr

/-- A block that is not in the list. -/
structure Taken (h : Heap) (base : ℕ) (l : List Block) (b : Block) : Prop where
  above : base + 8 ≤ b.addr
  apart : ∀ a ∈ l, a.Apart b
  pos : 0 < b.len
  size : 8 * h.units b.addr = b.len
  mapped : h.Mapped b

section

variable {h h' : Heap} {base a b p x : ℕ} {v : Word} {m : Mem 32}

/-! ### Words -/

theorem toNat_addr (ha : a < 2 ^ 32) : (addr a).toNat = a := by
  rw [addr, BitVec.toNat_ofNat, Nat.mod_eq_of_lt ha]

theorem addr_toNat (v : Word) : addr v.toNat = v := by
  rw [addr, BitVec.ofNat_toNat, BitVec.setWidth_eq]

theorem within_addr {n : ℕ} (ha : a + n ≤ 2 ^ 32) (hx : x < 2 ^ 32) :
    Within (addr a) n (addr x) ↔ a ≤ x ∧ x < a + n := by
  unfold Within
  have hcases := toNat_sub_cases (addr x) (addr a)
  rcases Nat.eq_zero_or_pos n with rfl | hpos
  · omega
  · rw [toNat_addr hx, toNat_addr (by omega)] at hcases
    omega

theorem apart_addr {n k : ℕ} (ha : a + n ≤ 2 ^ 32) (hb : b + k ≤ 2 ^ 32) (h : a + n ≤ b ∨ b + k ≤ a) :
    Apart (addr a) n (addr b) k := by
  rintro y ⟨hy₁, hy₂⟩
  rw [← addr_toNat y, within_addr ha y.isLt] at hy₁
  rw [← addr_toNat y, within_addr hb y.isLt] at hy₂
  omega

theorem word_write (m : Mem 32) (a : Word) (v : Word) : word (write m a (le 4 v.toNat)) a = v := by
  have hread := read_write (l := le 4 v.toNat) m a (by rw [length_le]; decide)
  rw [length_le] at hread
  have hlt : v.toNat < 256 ^ 4 := v.isLt
  unfold word
  rw [hread, num_le, Nat.mod_eq_of_lt hlt]
  exact addr_toNat v

theorem word_write_other (ha : a + 4 ≤ 2 ^ 32) (hb : b + 4 ≤ 2 ^ 32) (hab : a + 4 ≤ b ∨ b + 4 ≤ a) :
    word (write m (addr a) (le 4 v.toNat)) (addr b) = word m (addr b) := by
  have hapart : Apart (addr a) (le 4 v.toNat).length (addr b) 4 := by
    rw [length_le]
    exact apart_addr ha hb hab
  unfold word
  rw [read_write_apart hapart (by decide)]

/-! ### Headers -/

theorem next_put (h : Heap) (a : ℕ) (v : Word) : (h.put a v).next a = v.toNat :=
  congrArg BitVec.toNat (word_write ..)

theorem units_put (h : Heap) (a : ℕ) (v : Word) : (h.put (a + 4) v).units a = v.toNat :=
  congrArg BitVec.toNat (word_write ..)

theorem units_put_ptr (ha : a + 8 ≤ 2 ^ 32) : (h.put a v).units a = h.units a :=
  congrArg BitVec.toNat (word_write_other (by omega) (by omega) (by omega))

theorem Heap.Only.refl (h : Heap) (s : Set ℕ) : Only h h s := ⟨fun _ _ _ => rfl, rfl, rfl⟩

theorem Heap.Only.trans {h₁ h₂ h₃ : Heap} {s : Set ℕ} (ho : Only h₁ h₂ s) (ho' : Only h₂ h₃ s) :
    Only h₁ h₃ s :=
  ⟨fun x hx hs => (ho'.mem x hx hs).trans (ho.mem x hx hs), ho'.mapped.trans ho.mapped,
    ho'.sz.trans ho.sz⟩

theorem Heap.Only.mono {s t : Set ℕ} (ho : Only h h' s) (hst : s ⊆ t) : Only h h' t :=
  ⟨fun x hx ht => ho.mem x hx fun a ha => ht a (hst ha), ho.mapped, ho.sz⟩

/-- One word of a header. -/
theorem only_put (ha : a + 8 ≤ 2 ^ 32) (hx : x = a ∨ x = a + 4) (v : Word) :
    Only h (h.put x v) {a} where
  mem y hy hs := by
    refine write_other ?_
    rw [length_le, within_addr (by omega) hy]
    have := hs a rfl
    omega
  mapped := rfl
  sz := rfl

/-- The bytes of a header have not changed. -/
theorem header_congr (hmem : ∀ x, a ≤ x → x < a + 8 → h'.mem (addr x) = h.mem (addr x)) :
    h'.next a = h.next a ∧ h'.units a = h.units a := by
  have hword : ∀ x, a ≤ x → x + 4 ≤ a + 8 → word h'.mem (addr x) = word h.mem (addr x) := by
    intro x hx₁ hx₂
    have hread : Bytes.read h'.mem (addr x) 4 = Bytes.read h.mem (addr x) 4 := by
      refine List.map_congr_left fun k hk => ?_
      have hk' := List.mem_range.mp hk
      have hsum : addr x + BitVec.ofNat 32 k = addr (x + k) := (BitVec.ofNat_add x k).symm
      rw [hsum]
      exact hmem (x + k) (by omega) (by omega)
    unfold word
    rw [hread]
  exact ⟨congrArg BitVec.toNat (hword a le_rfl (by omega)),
    congrArg BitVec.toNat (hword (a + 4) (by omega) le_rfl)⟩

/-- Another header. -/
theorem Heap.Only.header {s : Set ℕ} (ho : Only h h' s) (ha : a + 8 ≤ 2 ^ 32)
    (hs : ∀ b ∈ s, a + 8 ≤ b ∨ b + 8 ≤ a) : h'.next a = h.next a ∧ h'.units a = h.units a :=
  header_congr fun x hx₁ hx₂ => ho.mem x (by omega) fun b hb => by
    have := hs b hb
    omega

theorem Heap.Only.mappedBlock {s : Set ℕ} {c : Block} (ho : Only h h' s) (hc : h.Mapped c) :
    h'.Mapped c := ⟨hc.1, fun x hx => ho.mapped ▸ hc.2 x hx⟩

/-- The header of a block is the process's. -/
theorem Heap.Mapped.touches {c : Block} (hc : h.Mapped c) (h8 : 8 ≤ c.len)
    (hx : x = c.addr ∨ x = c.addr + 4) : h.touches (addr x) = true := by
  have hlt := hc.1
  unfold Block.stop at hlt
  have hsum : addr x + 3 = addr (x + 3) := (BitVec.ofNat_add x 3).symm
  have hin : ∀ y, c.addr ≤ y → y < c.addr + 8 → h.mapped (y / PGSIZE) = true := fun y h₁ h₂ =>
    hc.2 y ⟨h₁, by unfold Block.stop; omega⟩
  unfold Heap.touches
  rw [hsum, toNat_addr (by omega), toNat_addr (by omega), Bool.and_eq_true]
  exact ⟨hin x (by omega) (by omega), hin (x + 3) (by omega) (by omega)⟩

/-- Reading and writing the header of a block. -/
theorem ptr_eq {c : Block} (hc : h.Mapped c) (h8 : 8 ≤ c.len) :
    h.ptr (addr c.addr) = some (addr (h.next c.addr)) := by
  unfold Heap.ptr Heap.load Heap.next
  rw [if_pos (hc.touches h8 (.inl rfl)), addr_toNat]

theorem addr_add (a k : ℕ) : addr a + BitVec.ofNat 32 k = addr (a + k) := (BitVec.ofNat_add a k).symm

theorem size_eq {c : Block} (hc : h.Mapped c) (h8 : 8 ≤ c.len) :
    h.size (addr c.addr) = some (addr (h.units c.addr)) := by
  have hsum : addr c.addr + 4 = addr (c.addr + 4) := addr_add c.addr 4
  unfold Heap.size Heap.load Heap.units
  rw [hsum, if_pos (hc.touches h8 (.inr rfl)), addr_toNat]

theorem setPtr_eq {c : Block} (hc : h.Mapped c) (h8 : 8 ≤ c.len) (v : Word) :
    h.setPtr (addr c.addr) v = some (h.put c.addr v) := by
  unfold Heap.setPtr Heap.store
  rw [if_pos (hc.touches h8 (.inl rfl))]
  rfl

theorem setSize_eq {c : Block} (hc : h.Mapped c) (h8 : 8 ≤ c.len) (v : Word) :
    h.setSize (addr c.addr) v = some (h.put (c.addr + 4) v) := by
  have hsum : addr c.addr + 4 = addr (c.addr + 4) := addr_add c.addr 4
  unfold Heap.setSize Heap.store
  rw [hsum, if_pos (hc.touches h8 (.inr rfl))]
  rfl

end

/-! ### The loop of free -/

section

variable {h h' : Heap} {base : ℕ} {l l₁ l₂ m₁ m₂ : List Block} {b p q : Block} {fuel : ℕ}

theorem addr_lt {x y : ℕ} (hx : x < 2 ^ 32) (hy : y < 2 ^ 32) : addr x < addr y ↔ x < y := by
  rw [BitVec.lt_def, toNat_addr hx, toNat_addr hy]

/-- The header of a block of the list. -/
theorem FreeList.room (hf : FreeList h base l) (hq : q ∈ baseBlock base :: l) :
    ∃ c : Block, c.addr = q.addr ∧ h.Mapped c ∧ 8 ≤ c.len := by
  rcases List.mem_cons.mp hq with rfl | hq
  · exact ⟨header base, rfl, hf.mapped _ List.mem_cons_self, le_rfl⟩
  · refine ⟨q, rfl, hf.mapped q (List.mem_cons_of_mem _ hq), ?_⟩
    have hsize := hf.sizes q (List.mem_cons_of_mem _ hq)
    have hpos := hf.pos q hq
    omega

theorem FreeList.lt (hf : FreeList h base l) (hq : q ∈ baseBlock base :: l) :
    q.addr + 8 < 2 ^ 32 := by
  obtain ⟨c, hc, hm, h8⟩ := hf.room hq
  have := hm.1
  unfold Block.stop at this
  omega

/-- The pointer of a block of the list. -/
theorem FreeList.next (hf : FreeList h base l) (hq : baseBlock base :: l = m₁ ++ q :: m₂) :
    h.next q.addr = (m₂.map Block.addr).headD base := by
  have hlinks := hf.links
  rw [hq, List.map_append, Blocks.links_append] at hlinks
  exact hlinks.2.1

theorem FreeList.ptr (hf : FreeList h base l) (hq : q ∈ baseBlock base :: l) :
    h.ptr (addr q.addr) = some (addr (h.next q.addr)) := by
  obtain ⟨c, hc, hm, h8⟩ := hf.room hq
  rw [← hc]
  exact ptr_eq hm h8

/-- A block of the list is before those that follow it. -/
theorem FreeList.before (hf : FreeList h base l) (hq : baseBlock base :: l = m₁ ++ q :: m₂) :
    (∀ x ∈ m₂, q.stop < x.addr) ∧ ∀ x ∈ m₁, x.stop < q.addr := by
  have hco := hf.coalesced
  rw [hq] at hco
  obtain ⟨-, hq₂, hcross⟩ := List.pairwise_append.mp hco
  exact ⟨(List.pairwise_cons.mp hq₂).1, fun x hx => hcross x hx q List.mem_cons_self⟩

theorem FreeList.base_le (hf : FreeList h base l) (hq : q ∈ baseBlock base :: l) :
    base ≤ q.addr := by
  rcases List.mem_cons.mp hq with rfl | hq
  · exact le_rfl
  · have := hf.above q hq
    omega

/-- One round of the loop. -/
theorem freeLoop_step (hf : FreeList h base l) (hq : q ∈ baseBlock base :: l)
    (hb : b.addr < 2 ^ 32) :
    h.freeLoop (addr b.addr) (fuel + 1) (addr q.addr) =
      if (q.addr < b.addr ∧ b.addr < h.next q.addr) ∨
        (h.next q.addr ≤ q.addr ∧ (q.addr < b.addr ∨ b.addr < h.next q.addr)) then
        some (addr q.addr)
      else h.freeLoop (addr b.addr) fuel (addr (h.next q.addr)) := by
  have hq' : q.addr < 2 ^ 32 := by
    have := hf.lt hq
    omega
  have hn : h.next q.addr < 2 ^ 32 := BitVec.isLt _
  have hle : addr (h.next q.addr) ≤ addr q.addr ↔ h.next q.addr ≤ q.addr := by
    rw [← BitVec.not_lt, addr_lt hq' hn, not_lt]
  rw [Heap.freeLoop, hf.ptr hq]
  simp only [Option.bind_eq_bind, Option.bind_some, gt_iff_lt, ge_iff_le, addr_lt hq' hb,
    addr_lt hb hn, hle]
  by_cases h₁ : q.addr < b.addr ∧ b.addr < h.next q.addr
  · rw [if_pos h₁, if_pos (.inl h₁)]
  · by_cases h₂ : h.next q.addr ≤ q.addr ∧ (q.addr < b.addr ∨ b.addr < h.next q.addr)
    · rw [if_neg h₁, if_pos h₂, if_pos (.inr h₂)]
    · rw [if_neg h₁, if_neg h₂, if_neg (not_or.mpr ⟨h₁, h₂⟩)]

/-- It ends at the block before the one freed. -/
theorem freeLoop_here (hf : FreeList h base l) (hsplit : baseBlock base :: l = l₁ ++ p :: l₂)
    (hb : b.addr < 2 ^ 32) (hp : p.addr < b.addr) (hafter : ∀ x ∈ l₂, b.addr < x.addr) :
    h.freeLoop (addr b.addr) (fuel + 1) (addr p.addr) = some (addr p.addr) := by
  have hin : p ∈ baseBlock base :: l := hsplit ▸ List.mem_append_right _ List.mem_cons_self
  have hbase := hf.base_le hin
  rw [freeLoop_step hf hin hb, hf.next hsplit, if_pos]
  cases l₂ with
  | nil => exact .inr ⟨hbase, .inl hp⟩
  | cons a l₂ => exact .inl ⟨hp, hafter a List.mem_cons_self⟩

/-- It goes on from the others. -/
theorem freeLoop_on (hf : FreeList h base l) (hsplit : baseBlock base :: l = m₁ ++ q :: m₂)
    (hb : b.addr < 2 ^ 32) (hbase : base < b.addr)
    (hq : b.addr < q.addr ∨ ∃ x r, m₂ = x :: r ∧ x.addr < b.addr) :
    h.freeLoop (addr b.addr) (fuel + 1) (addr q.addr) =
      h.freeLoop (addr b.addr) fuel (addr ((m₂.map Block.addr).headD base)) := by
  have hin : q ∈ baseBlock base :: l := hsplit ▸ List.mem_append_right _ List.mem_cons_self
  have hlater := (hf.before hsplit).1
  rw [freeLoop_step hf hin hb, hf.next hsplit, if_neg]
  cases m₂ with
  | nil =>
    rcases hq with hq | ⟨x, r, hx, -⟩
    · rw [List.map_nil, List.headD_nil]
      omega
    · cases hx
  | cons a m₂ =>
    have ha := hlater a List.mem_cons_self
    unfold Block.stop at ha
    rw [List.map_cons, List.headD_cons]
    rcases hq with hq | ⟨x, r, hx, hxb⟩
    · omega
    · obtain ⟨rfl, -⟩ := List.cons.inj hx
      omega

/-- From a block after the one freed it gets to `base`. -/
theorem freeLoop_wrap (hf : FreeList h base l) (hsplit : baseBlock base :: l = m₁ ++ q :: m₂)
    (hb : b.addr < 2 ^ 32) (hbase : base < b.addr) (hq : b.addr < q.addr) :
    h.freeLoop (addr b.addr) (m₂.length + 1 + fuel) (addr q.addr) =
      h.freeLoop (addr b.addr) fuel (addr base) := by
  induction m₂ generalizing m₁ q with
  | nil =>
    have hsum : ([] : List Block).length + 1 + fuel = fuel + 1 := by
      rw [List.length_nil]
      omega
    rw [hsum, freeLoop_on hf hsplit hb hbase (.inl hq)]
    rfl
  | cons a m₂ ih =>
    have ha := (hf.before hsplit).1 a List.mem_cons_self
    have hsplit' : baseBlock base :: l = (m₁ ++ [q]) ++ a :: m₂ := by
      rw [hsplit, List.append_assoc]
      rfl
    have hsum : (a :: m₂).length + 1 + fuel = m₂.length + 1 + fuel + 1 := by
      rw [List.length_cons]
      omega
    unfold Block.stop at ha
    rw [hsum, freeLoop_on hf hsplit hb hbase (.inl hq)]
    exact ih hsplit' (by omega)

/-- From a block before it, to the last of them. -/
theorem freeLoop_ahead (hf : FreeList h base l)
    (hsplit : baseBlock base :: l = m₁ ++ q :: (m₂ ++ p :: l₂)) (hb : b.addr < 2 ^ 32)
    (hbase : base < b.addr) (hp : p.addr < b.addr) (hafter : ∀ x ∈ l₂, b.addr < x.addr) :
    h.freeLoop (addr b.addr) (m₂.length + 2 + fuel) (addr q.addr) = some (addr p.addr) := by
  induction m₂ generalizing m₁ q with
  | nil =>
    have hsum : ([] : List Block).length + 2 + fuel = fuel + 1 + 1 := by
      rw [List.length_nil]
      omega
    have hsplit' : baseBlock base :: l = (m₁ ++ [q]) ++ p :: l₂ := by
      rw [hsplit, List.append_assoc]
      rfl
    rw [hsum, freeLoop_on hf hsplit hb hbase (.inr ⟨p, l₂, rfl, hp⟩)]
    exact freeLoop_here hf hsplit' hb hp hafter
  | cons a m₂ ih =>
    have hsplit' : baseBlock base :: l = (m₁ ++ [q]) ++ a :: (m₂ ++ p :: l₂) := by
      rw [hsplit, List.append_assoc]
      rfl
    have ha := (hf.before hsplit').1 p (List.mem_append_right _ List.mem_cons_self)
    have hsum : (a :: m₂).length + 2 + fuel = m₂.length + 2 + fuel + 1 := by
      rw [List.length_cons]
      omega
    unfold Block.stop at ha
    rw [hsum, freeLoop_on hf hsplit hb hbase (.inr ⟨a, _, rfl, by omega⟩)]
    exact ih hsplit'

/-- From wherever `freep` is, `free` finds the block before the one it gets. -/
theorem freeLoop_finds (hf : FreeList h base l) (ht : Taken h base l b) :
    ∃ l₁ p l₂, baseBlock base :: l = l₁ ++ p :: l₂ ∧ p.addr < b.addr ∧
      (∀ x ∈ l₂, b.addr < x.addr) ∧ ∀ fuel, 2 * l.length + 4 ≤ fuel →
        h.freeLoop (addr b.addr) fuel h.freep = some (addr p.addr) := by
  have habove := ht.above
  have hb : b.addr < 2 ^ 32 := by
    have := ht.mapped.1
    unfold Block.stop at this
    omega
  have hbase : base < b.addr := by omega
  obtain ⟨l₁, p, l₂, hsplit, hp, hle⟩ := Blocks.exists_before (a := baseBlock base) (l := l) b.addr
    hbase
  have hafter : ∀ x ∈ l₂, b.addr < x.addr := by
    intro x hx
    have hx' : x ∈ baseBlock base :: l := hsplit ▸
      List.mem_append_right _ (List.mem_cons_of_mem _ hx)
    have hle' := hle hf.coalesced x hx
    rcases List.mem_cons.mp hx' with rfl | hx'
    · exact absurd hle' (not_le.mpr hbase)
    · have hpos := hf.pos x hx'
      have hposb := ht.pos
      have hapart := ht.apart x hx'
      unfold Block.Apart Block.stop at hapart
      omega
  have hlen : l₁.length + l₂.length = l.length := by
    have := congrArg List.length hsplit
    rw [List.length_cons, List.length_append, List.length_cons] at this
    omega
  refine ⟨l₁, p, l₂, hsplit, hp, hafter, fun fuel hfuel => ?_⟩
  -- from the first block of a list that ends with those up to `p`
  have hahead : ∀ m₁ q m₂ fuel, l₁ ++ [p] = m₁ ++ q :: m₂ → l.length + 2 ≤ fuel →
      h.freeLoop (addr b.addr) fuel (addr q.addr) = some (addr p.addr) := by
    intro m₁ q m₂ fuel hm hfuel
    have hmlen := congrArg List.length hm
    rw [List.length_append, List.length_append, List.length_singleton, List.length_cons] at hmlen
    rcases List.eq_nil_or_concat m₂ with rfl | ⟨m₂, x, rfl⟩
    · obtain ⟨fuel, rfl⟩ : ∃ n, fuel = n + 1 := ⟨fuel - 1, by omega⟩
      obtain ⟨-, hqp⟩ := List.append_inj' hm rfl
      obtain rfl := List.head_eq_of_cons_eq hqp
      exact freeLoop_here hf hsplit hb hp hafter
    · rw [List.concat_eq_append, ← List.cons_append, ← List.append_assoc] at hm
      obtain ⟨hm₁, hqp⟩ := List.append_inj' hm rfl
      obtain rfl := List.head_eq_of_cons_eq hqp
      have hsplit' : baseBlock base :: l = m₁ ++ q :: (m₂ ++ p :: l₂) := by
        rw [hsplit, hm₁, List.append_assoc]
        rfl
      rw [List.concat_eq_append, List.length_append, List.length_singleton] at hmlen
      obtain ⟨rest, rfl⟩ : ∃ n, fuel = m₂.length + 2 + n := ⟨fuel - (m₂.length + 2), by omega⟩
      exact freeLoop_ahead hf hsplit' hb hbase hp hafter
  obtain ⟨q, hq, hfreep⟩ := hf.freep
  rw [hfreep]
  rw [hsplit] at hq
  rcases List.mem_append.mp hq with hq | hq
  · obtain ⟨m₁, m₂, rfl⟩ := List.append_of_mem hq
    exact hahead m₁ q (m₂ ++ [p]) fuel (List.append_assoc ..) (by omega)
  · rcases List.mem_cons.mp hq with rfl | hq
    · exact hahead l₁ q [] fuel rfl (by omega)
    · -- `freep` is after it
      obtain ⟨m₁, m₂, rfl⟩ := List.append_of_mem hq
      have hsplit' : baseBlock base :: l = (l₁ ++ p :: m₁) ++ q :: m₂ := by
        rw [hsplit, List.append_assoc]
        rfl
      rw [List.length_append, List.length_cons] at hlen
      obtain ⟨rest, rfl⟩ : ∃ n, fuel = m₂.length + 1 + n := ⟨fuel - (m₂.length + 1), by omega⟩
      rw [freeLoop_wrap hf hsplit' hb hbase (hafter q hq)]
      -- the first block of the list is `base`
      cases l₁ with
      | nil =>
        obtain rfl := List.head_eq_of_cons_eq hsplit
        exact hahead [] _ [] rest rfl (by omega)
      | cons x l₁ =>
        obtain rfl := List.head_eq_of_cons_eq hsplit
        exact hahead [] _ (l₁ ++ [p]) rest rfl (by omega)

end

/-! ### Joining -/

/-- A part of the list in memory, which leads to the address `t`. -/
structure Stretch (h : Heap) (k : List Block) (t : ℕ) : Prop where
  links : Links h.next (k.map Block.addr) t
  sizes : ∀ b ∈ k, 8 * h.units b.addr = b.len

section

variable {h h' h₁ : Heap} {base t : ℕ} {l l₁ l₂ k k₁ k₂ r : List Block} {a b c p q : Block}

theorem stretch_append :
    Stretch h (k₁ ++ k₂) t ↔ Stretch h k₁ ((k₂.map Block.addr).headD t) ∧ Stretch h k₂ t := by
  constructor
  · rintro ⟨hlinks, hsizes⟩
    rw [List.map_append, Blocks.links_append] at hlinks
    exact ⟨⟨hlinks.1, fun x hx => hsizes x (List.mem_append_left _ hx)⟩,
      ⟨hlinks.2, fun x hx => hsizes x (List.mem_append_right _ hx)⟩⟩
  · rintro ⟨⟨hl₁, hs₁⟩, hl₂, hs₂⟩
    refine ⟨?_, fun x hx => (List.mem_append.mp hx).elim (hs₁ x) (hs₂ x)⟩
    rw [List.map_append, Blocks.links_append]
    exact ⟨hl₁, hl₂⟩

theorem stretch_cons : Stretch h (a :: k) t ↔
    (h.next a.addr = (k.map Block.addr).headD t ∧ 8 * h.units a.addr = a.len) ∧ Stretch h k t := by
  constructor
  · rintro ⟨⟨hnext, hlinks⟩, hsizes⟩
    obtain ⟨ha, hk⟩ := List.forall_mem_cons.mp hsizes
    exact ⟨⟨hnext, ha⟩, hlinks, hk⟩
  · rintro ⟨⟨hnext, ha⟩, hlinks, hk⟩
    exact ⟨⟨hnext, hlinks⟩, List.forall_mem_cons.mpr ⟨ha, hk⟩⟩

/-- Other headers may change. -/
theorem Stretch.congr {s : Set ℕ} (hs : Stretch h k t) (ho : Only h h' s)
    (hk : ∀ a ∈ k, a.addr + 8 ≤ 2 ^ 32 ∧ ∀ x ∈ s, a.addr + 8 ≤ x ∨ x + 8 ≤ a.addr) :
    Stretch h' k t := by
  refine ⟨hs.links.congr fun x hx => ?_, fun a ha => ?_⟩
  · obtain ⟨a, ha, rfl⟩ := List.mem_map.mp hx
    exact (ho.header (hk a ha).1 (hk a ha).2).1
  · rw [(ho.header (hk a ha).1 (hk a ha).2).2]
    exact hs.sizes a ha

theorem FreeList.stretch (hf : FreeList h base l) : Stretch h (baseBlock base :: l) base :=
  ⟨hf.links, hf.sizes⟩

/-- The headers of the list are apart. -/
theorem FreeList.header_le (hf : FreeList h base l) (hp : p ∈ baseBlock base :: l)
    (hq : q ∈ baseBlock base :: l) (hlt : p.stop < q.addr) : p.addr + 8 ≤ q.addr := by
  have hsize := hf.sizes p hp
  unfold Block.stop at hlt
  rcases List.mem_cons.mp hp with rfl | hpl
  · rcases List.mem_cons.mp hq with rfl | hq
    · exact absurd hlt (lt_irrefl _)
    · exact hf.above q hq
  · have hpos := hf.pos p hpl
    omega

/-- The headers of the list are apart from the block freed. -/
theorem Taken.header (ht : Taken h base l b) (hf : FreeList h base l)
    (hq : q ∈ baseBlock base :: l) : q.addr + 8 ≤ b.addr ∨ b.addr + 8 ≤ q.addr := by
  have h8 := ht.size
  have hpos := ht.pos
  rcases List.mem_cons.mp hq with rfl | hq
  · exact .inl ht.above
  · have hapart := ht.apart q hq
    have hsize := hf.sizes q (List.mem_cons_of_mem _ hq)
    have hposq := hf.pos q hq
    unfold Block.Apart Block.stop at hapart
    omega

/-- The bytes of units. -/
theorem addr_mul (n : ℕ) : addr n * 8 = addr (8 * n) := by
  have h8 : (8 : Word) = BitVec.ofNat 32 8 := rfl
  rw [h8, addr, ← BitVec.ofNat_mul, Nat.mul_comm]

/-- The pointer past the end of a block. -/
theorem addr_units (a n : ℕ) : addr a + addr n * 8 = addr (a + 8 * n) := by
  rw [addr_mul, addr, addr, addr, BitVec.ofNat_add]

theorem addr_inj {x y : ℕ} (hx : x < 2 ^ 32) (hy : y < 2 ^ 32) : addr x = addr y ↔ x = y := by
  refine ⟨fun he => ?_, fun he => congrArg addr he⟩
  rw [← toNat_addr hx, he, toNat_addr hy]

/-- The block is joined with the one after it. -/
theorem freeUpper_spec (hf : FreeList h base l) (ht : Taken h base l b)
    (hsplit : baseBlock base :: l = l₁ ++ p :: l₂) (hafter : ∀ x ∈ l₂, b.addr < x.addr) :
    ∃ h₁, h.freeUpper (addr p.addr) (addr b.addr) = some h₁ ∧ Only h h₁ {b.addr} ∧
      Stretch h₁ (Blocks.insert b l₂) base := by
  have hp : p ∈ baseBlock base :: l := hsplit ▸ List.mem_append_right _ List.mem_cons_self
  have hbend : b.stop < 2 ^ 32 := ht.mapped.1
  have hstop := hbend
  have habove := ht.above
  have hsize := ht.size
  have hpos := ht.pos
  unfold Block.stop at hstop
  have h8 : 8 ≤ b.len := by omega
  have hlist : Stretch h (p :: l₂) base := by
    have hall := hf.stretch
    rw [hsplit] at hall
    exact (stretch_append.mp hall).2
  have hrest := (stretch_cons.mp hlist).2
  have hl₂ : ∀ x ∈ l₂, x ∈ baseBlock base :: l := fun x hx =>
    hsplit ▸ List.mem_append_right _ (List.mem_cons_of_mem _ hx)
  have hapart : ∀ x ∈ l₂, x.addr + 8 ≤ 2 ^ 32 ∧
      ∀ y ∈ ({b.addr} : Set ℕ), x.addr + 8 ≤ y ∨ y + 8 ≤ x.addr := by
    intro x hx
    have := hf.lt (hl₂ x hx)
    refine ⟨by omega, fun y hy => ?_⟩
    obtain rfl := hy
    exact ht.header hf (hl₂ x hx)
  have hend : addr b.addr + addr (h.units b.addr) * 8 = addr b.stop := by
    rw [addr_units, hsize]
    rfl
  -- the block stays as it is
  have hkeep : ∀ n, (l₂.map Block.addr).headD base = n → h.setPtr (addr b.addr) (addr n) =
      some (h.put b.addr (addr n)) ∧ Only h (h.put b.addr (addr n)) {b.addr} ∧
      Stretch (h.put b.addr (addr n)) (b :: l₂) base := by
    intro n hn
    have hlt : n < 2 ^ 32 := by
      rw [← hn, ← hf.next hsplit]
      exact BitVec.isLt _
    have ho : Only h (h.put b.addr (addr n)) {b.addr} := only_put (by omega) (.inl rfl) _
    refine ⟨setPtr_eq ht.mapped h8 _, ho, stretch_cons.mpr ⟨⟨?_, ?_⟩, hrest.congr ho hapart⟩⟩
    · rw [next_put, toNat_addr hlt, hn]
    · rw [units_put_ptr (by omega), hsize]
  unfold Heap.freeUpper
  rw [hf.ptr hp, hf.next hsplit, size_eq ht.mapped h8]
  simp only [Option.bind_eq_bind, Option.bind_some, hend]
  cases l₂ with
  | nil =>
    have hne : ¬ addr b.stop = addr base := by
      rw [addr_inj hbend (by omega)]
      unfold Block.stop
      omega
    rw [List.map_nil, List.headD_nil, if_neg hne]
    exact ⟨_, hkeep base rfl⟩
  | cons a r =>
    have ha := hl₂ a List.mem_cons_self
    have halt := hf.lt ha
    rw [Blocks.insert_after (hafter a List.mem_cons_self)]
    rw [List.map_cons, List.headD_cons]
    by_cases hjoin : b.stop = a.addr
    · rw [if_pos (congrArg addr hjoin), if_pos hjoin]
      obtain ⟨ca, hca, hma, ha8⟩ := hf.room ha
      obtain ⟨cp, hcp, hmp, hp8⟩ := hf.room hp
      obtain ⟨⟨hnext, hlen⟩, hr⟩ := stretch_cons.mp hrest
      have hastop : a.addr + a.len < 2 ^ 32 := by
        rcases List.mem_cons.mp ha with rfl | ha
        · exact halt.trans_le' (Nat.le_add_right _ _)
        · exact (hf.mapped a (List.mem_cons_of_mem _ ha)).1
      -- b->size is set
      have ho₁ : Only h (h.put (b.addr + 4) (addr (h.units b.addr) + addr (h.units a.addr)))
          {b.addr} := only_put (by omega) (.inr rfl) _
      generalize hh₁ : h.put (b.addr + 4) (addr (h.units b.addr) + addr (h.units a.addr)) = h₁ at ho₁
      have hsum : addr (h.units b.addr) + addr (h.units a.addr) =
          addr (h.units b.addr + h.units a.addr) := addr_add _ _
      have hunits : h₁.units b.addr = h.units b.addr + h.units a.addr := by
        unfold Block.stop at hjoin
        rw [← hh₁, units_put, hsum, toNat_addr (by omega)]
      have hpnext : h₁.next p.addr = a.addr := by
        have hplt := hf.lt hp
        rw [(ho₁.header (by omega) fun x hx => by
          obtain rfl := hx
          exact ht.header hf hp).1, hf.next hsplit]
        rfl
      have hanext : h₁.next a.addr = h.next a.addr :=
        (ho₁.header (by omega) (hapart a List.mem_cons_self).2).1
      have hsz : h.size (addr a.addr) = some (addr (h.units a.addr)) := hca ▸ size_eq hma ha8
      have hpp : h₁.ptr (addr p.addr) = some (addr a.addr) := by
        rw [← hpnext, ← hcp]
        exact ptr_eq (ho₁.mappedBlock hmp) hp8
      have hpa : h₁.ptr (addr a.addr) = some (addr (h.next a.addr)) := by
        rw [← hanext, ← hca]
        exact ptr_eq (ho₁.mappedBlock hma) ha8
      have hmb := ho₁.mappedBlock ht.mapped
      have ho₂ : Only h₁ (h₁.put b.addr (addr (h.next a.addr))) {b.addr} :=
        only_put (by omega) (.inl rfl) _
      refine ⟨_, ?_, ho₁.trans ho₂, stretch_cons.mpr ⟨⟨?_, ?_⟩, ?_⟩⟩
      · rw [hsz, Option.bind_some, setSize_eq ht.mapped h8, hh₁, Option.bind_some, hpp,
          Option.bind_some, hpa, Option.bind_some, setPtr_eq hmb h8]
      · dsimp only [Block.join]
        have hlt : h.next a.addr < 2 ^ 32 := BitVec.isLt _
        rw [next_put, toNat_addr hlt, hnext]
      · dsimp only [Block.join]
        rw [units_put_ptr (by omega), hunits]
        omega
      · exact hr.congr (ho₁.trans ho₂) fun x hx => hapart x (List.mem_cons_of_mem _ hx)
    · have hne : ¬ addr b.stop = addr a.addr := by
        rw [addr_inj hbend (by omega)]
        exact hjoin
      rw [if_neg hne, if_neg hjoin]
      exact ⟨_, hkeep a.addr rfl⟩

/-- The block is joined with the one before it. -/
theorem freeLower_spec (hf : FreeList h base l) (ht : Taken h base l b)
    (hsplit : baseBlock base :: l = l₁ ++ p :: l₂) (hp : p.addr < b.addr)
    (hafter : ∀ x ∈ l₂, b.addr < x.addr) (ho : Only h h₁ {b.addr})
    (hs : Stretch h₁ (Blocks.insert b l₂) base) :
    ∃ h₂, h₁.freeLower (addr p.addr) (addr b.addr) = some h₂ ∧ Only h₁ h₂ {p.addr} ∧
      Stretch h₂ (Blocks.insert b (p :: l₂)) base := by
  have hin : p ∈ baseBlock base :: l := hsplit ▸ List.mem_append_right _ List.mem_cons_self
  have hl₂ : ∀ x ∈ l₂, x ∈ baseBlock base :: l := fun x hx =>
    hsplit ▸ List.mem_append_right _ (List.mem_cons_of_mem _ hx)
  have hbend : b.stop < 2 ^ 32 := ht.mapped.1
  have hstop := hbend
  have hsize := ht.size
  have hpos := ht.pos
  unfold Block.stop at hstop
  have hb8 : 8 ≤ b.len := by omega
  have hpheader := ht.header hf hin
  have hpb : p.stop ≤ b.addr := by
    rcases List.mem_cons.mp hin with rfl | hin
    · exact hp.le
    · have := ht.apart p hin
      unfold Block.Apart Block.stop at this
      unfold Block.stop
      omega
  -- the header of p
  obtain ⟨cp, hcp, hmp, hp8⟩ := hf.room hin
  have hmp₁ := ho.mappedBlock hmp
  have hmb₁ := ho.mappedBlock ht.mapped
  have hpunits : 8 * h₁.units p.addr = p.len := by
    rw [(ho.header (by omega) fun x hx => by
      obtain rfl := hx
      exact hpheader).2]
    exact hf.sizes p hin
  have hpsize : h₁.size (addr p.addr) = some (addr (h₁.units p.addr)) := hcp ▸ size_eq hmp₁ hp8
  have hpend : addr p.addr + addr (h₁.units p.addr) * 8 = addr p.stop := by
    rw [addr_units, hpunits]
    rfl
  -- what comes after it
  obtain ⟨c, r, hc, hcaddr, hr⟩ := Blocks.insert_first hafter
  rw [hc] at hs
  obtain ⟨⟨hcnext, hcunits⟩, hsr⟩ := stretch_cons.mp hs
  rw [hcaddr] at hcnext hcunits
  have hclt : c.stop < 2 ^ 32 := by
    rcases Blocks.stop_insert (hc ▸ List.mem_cons_self : c ∈ Blocks.insert b l₂) with he | ⟨x, hx, he⟩
    · exact he ▸ hbend
    · rw [he]
      rcases List.mem_cons.mp (hl₂ x hx) with rfl | hx
      · exact (hf.lt List.mem_cons_self).trans_le' (Nat.le_add_right _ _)
      · exact (hf.mapped x (List.mem_cons_of_mem _ hx)).1
  have hapart : ∀ x ∈ c :: r, x.addr + 8 ≤ 2 ^ 32 ∧
      ∀ y ∈ ({p.addr} : Set ℕ), x.addr + 8 ≤ y ∨ y + 8 ≤ x.addr := by
    intro x hx
    rcases List.mem_cons.mp hx with rfl | hx
    · refine ⟨by omega, fun y hy => ?_⟩
      obtain rfl := hy
      omega
    · have hx' := hl₂ x (hr x hx)
      have hxlt := hf.lt hx'
      have hxb := hafter x (hr x hx)
      refine ⟨by omega, fun y hy => ?_⟩
      obtain rfl := hy
      omega
  unfold Heap.freeLower
  rw [hpsize, Blocks.insert_before hpb]
  simp only [Option.bind_eq_bind, Option.bind_some, hpend]
  have hbsize : h₁.size (addr b.addr) = some (addr (h₁.units b.addr)) := size_eq hmb₁ hb8
  by_cases hjoin : p.stop = b.addr
  · rw [if_pos (congrArg addr hjoin), if_pos hjoin, Blocks.insert_join hjoin hafter hc]
    have ho₁ : Only h₁ (h₁.put (p.addr + 4) (addr (h₁.units p.addr) + addr (h₁.units b.addr)))
        {p.addr} := only_put (by omega) (.inr rfl) _
    generalize hh₂ : h₁.put (p.addr + 4) (addr (h₁.units p.addr) + addr (h₁.units b.addr)) = h₂
      at ho₁
    have hsum : addr (h₁.units p.addr) + addr (h₁.units b.addr) =
        addr (h₁.units p.addr + h₁.units b.addr) := addr_add _ _
    have hunits : h₂.units p.addr = h₁.units p.addr + h₁.units b.addr := by
      unfold Block.stop at hjoin hclt
      rw [← hh₂, units_put, hsum, toNat_addr (by omega)]
    have hbnext : h₂.next b.addr = h₁.next b.addr := by
      have hcapart := hapart c List.mem_cons_self
      rw [hcaddr] at hcapart
      exact (ho₁.header hcapart.1 hcapart.2).1
    have hset : h₁.setSize (addr p.addr) (addr (h₁.units p.addr) + addr (h₁.units b.addr)) =
        some h₂ := by
      rw [← hcp, setSize_eq hmp₁ hp8, hcp, hh₂]
    have hptr : h₂.ptr (addr b.addr) = some (addr (h₁.next b.addr)) := by
      rw [← hbnext]
      exact ptr_eq (ho₁.mappedBlock hmb₁) hb8
    have hset₂ : h₂.setPtr (addr p.addr) (addr (h₁.next b.addr)) =
        some (h₂.put p.addr (addr (h₁.next b.addr))) := by
      rw [← hcp]
      exact setPtr_eq (ho₁.mappedBlock hmp₁) hp8 _
    have ho₂ : Only h₂ (h₂.put p.addr (addr (h₁.next b.addr))) {p.addr} :=
      only_put (by omega) (.inl rfl) _
    refine ⟨_, ?_, ho₁.trans ho₂, stretch_cons.mpr ⟨⟨?_, ?_⟩, ?_⟩⟩
    · rw [hbsize, Option.bind_some, hset, Option.bind_some, hptr, Option.bind_some, hset₂]
    · dsimp only [Block.join]
      have hlt : h₁.next b.addr < 2 ^ 32 := BitVec.isLt _
      rw [next_put, toNat_addr hlt, hcnext]
    · dsimp only [Block.join]
      rw [units_put_ptr (by omega), hunits]
      omega
    · exact hsr.congr (ho₁.trans ho₂) fun x hx => hapart x (List.mem_cons_of_mem _ hx)
  · have hne : ¬ addr p.stop = addr b.addr := by
      rw [addr_inj (by omega) (by omega)]
      exact hjoin
    rw [if_neg hne, if_neg hjoin, hc]
    have ho₂ : Only h₁ (h₁.put p.addr (addr b.addr)) {p.addr} := only_put (by omega) (.inl rfl) _
    refine ⟨_, ?_, ho₂, stretch_cons.mpr ⟨⟨?_, ?_⟩, hs.congr ho₂ hapart⟩⟩
    · rw [← hcp]
      exact setPtr_eq hmp₁ hp8 _
    · rw [next_put, toNat_addr (by omega), List.map_cons, List.headD_cons, hcaddr]
    · rw [units_put_ptr (by omega), hpunits]

/-! ### free -/

/-- `free` puts the block into the list, joined with what is adjacent, and changes headers only. -/
theorem free_spec (hf : FreeList h base l) (ht : Taken h base l b) :
    ∃ h', (∀ fuel, 2 * l.length + 4 ≤ fuel → h.free fuel (addr (b.addr + 8)) = some h') ∧
      FreeList h' base (Blocks.insert b l) ∧
      Only h h' {x | ∃ c ∈ b :: baseBlock base :: l, x = c.addr} := by
  obtain ⟨l₁, p, l₂, hsplit, hp, hafter, hloop⟩ := freeLoop_finds hf ht
  obtain ⟨h₁, hupper, ho₁, hs₁⟩ := freeUpper_spec hf ht hsplit hafter
  obtain ⟨h₂, hlower, ho₂, hs₂⟩ := freeLower_spec hf ht hsplit hp hafter ho₁ hs₁
  have hin : p ∈ baseBlock base :: l := hsplit ▸ List.mem_append_right _ List.mem_cons_self
  have habove := ht.above
  have hbp : addr (b.addr + 8) - 8 = addr b.addr := by
    have h8 : addr (b.addr + 8) = addr b.addr + 8 := (addr_add b.addr 8).symm
    rw [h8, BitVec.add_sub_cancel]
  have ho : Only h h₂ {x | ∃ c ∈ b :: baseBlock base :: l, x = c.addr} := by
    refine (ho₁.mono ?_).trans (ho₂.mono ?_)
    · rintro x rfl
      exact ⟨b, List.mem_cons_self, rfl⟩
    · rintro x rfl
      exact ⟨p, List.mem_cons_of_mem b hin, rfl⟩
  have hinsert : Blocks.insert b (baseBlock base :: l) = baseBlock base :: Blocks.insert b l := by
    have hlt : (baseBlock base).stop < b.addr := by
      unfold Block.stop
      dsimp only
      omega
    rw [Blocks.insert, if_pos hlt]
  have hbefore : ∀ x ∈ l₁, x.stop < b.addr := fun x hx => ((hf.before hsplit).2 x hx).trans hp
  have happend : baseBlock base :: Blocks.insert b l = l₁ ++ Blocks.insert b (p :: l₂) := by
    rw [← hinsert, hsplit, Blocks.insert_append hbefore]
  -- what is before it stays
  have hl₁ : Stretch h l₁ p.addr := by
    have hall := hf.stretch
    rw [hsplit] at hall
    exact (stretch_append.mp hall).1
  have hstays : Stretch h₂ l₁ p.addr := by
    refine (hl₁.congr ho₁ fun x hx => ?_).congr ho₂ fun x hx => ?_
    · have hx' : x ∈ baseBlock base :: l := hsplit ▸ List.mem_append_left _ hx
      have hxlt := hf.lt hx'
      refine ⟨by omega, fun y hy => ?_⟩
      obtain rfl := hy
      exact ht.header hf hx'
    · have hx' : x ∈ baseBlock base :: l := hsplit ▸ List.mem_append_left _ hx
      have hxlt := hf.lt hx'
      refine ⟨by omega, fun y hy => ?_⟩
      obtain rfl := hy
      exact .inl (hf.header_le hx' hin ((hf.before hsplit).2 x hx))
  obtain ⟨c, r, hhead, hcaddr⟩ : ∃ c r, Blocks.insert b (p :: l₂) = c :: r ∧ c.addr = p.addr := by
    obtain ⟨c, r, hc, -, -⟩ := Blocks.insert_first hafter
    have hpb : p.stop ≤ b.addr := by
      rcases List.mem_cons.mp hin with rfl | hin
      · exact hp.le
      · have hapart := ht.apart p hin
        have hpos := ht.pos
        unfold Block.Apart Block.stop at hapart
        unfold Block.stop
        omega
    rw [Blocks.insert_before hpb]
    by_cases hjoin : p.stop = b.addr
    · rw [if_pos hjoin, Blocks.insert_join hjoin hafter hc]
      exact ⟨_, _, rfl, rfl⟩
    · rw [if_neg hjoin]
      exact ⟨p, _, rfl, rfl⟩
  have hwhole : Stretch h₂ (baseBlock base :: Blocks.insert b l) base := by
    rw [happend]
    refine stretch_append.mpr ⟨?_, hs₂⟩
    rw [hhead, List.map_cons, List.headD_cons, hcaddr]
    exact hstays
  refine ⟨{ h₂ with freep := addr p.addr }, fun fuel hfuel => ?_, ?_, ⟨ho.mem, ho.mapped, ho.sz⟩⟩
  · unfold Heap.free
    simp only [hbp, hloop fuel hfuel, hupper, hlower, Option.bind_eq_bind, Option.bind_some]
  · refine ⟨?_, fun x hx => ?_, fun x hx => ?_, hwhole.links, hwhole.sizes, fun x hx => ?_, ?_⟩
    · rw [← hinsert]
      refine hf.coalesced.insert fun a ha => ?_
      rcases List.mem_cons.mp ha with rfl | ha
      · left
        unfold Block.stop
        dsimp only
        omega
      · exact ht.apart a ha
    · rcases Blocks.addr_insert hx with he | ⟨y, hy, he⟩
      · exact he ▸ ht.above
      · exact he ▸ hf.above y hy
    · exact Blocks.len_insert ht.pos (fun a ha => hf.pos a ha) hx
    · refine (ho.mappedBlock ?_ : h₂.Mapped x)
      rcases List.mem_cons.mp hx with rfl | hx
      · exact hf.mapped _ List.mem_cons_self
      · refine ⟨?_, fun y hy => ?_⟩
        · rcases Blocks.stop_insert hx with he | ⟨z, hz, he⟩
          · exact he ▸ ht.mapped.1
          · exact he ▸ (hf.mapped z (List.mem_cons_of_mem _ hz)).1
        · have hcell : y ∈ b.cells ∪ Blocks.cells l := by
            rw [← Blocks.cells_insert]
            exact ⟨x, hx, hy⟩
          rcases hcell with hy | ⟨z, hz, hy⟩
          · exact ht.mapped.2 y hy
          · exact (hf.mapped z (List.mem_cons_of_mem _ hz)).2 y hy
    · refine ⟨c, ?_, congrArg addr hcaddr.symm⟩
      rw [happend, hhead]
      exact List.mem_append_right _ List.mem_cons_self

/-- `free` terminates and keeps the list in order and coalesced. -/
theorem free_coalesces (hf : FreeList h base l) (ht : Taken h base l b) :
    ∃ n, ∀ fuel, n ≤ fuel → ∃ h' l', h.free fuel (addr (b.addr + 8)) = some h' ∧
      FreeList h' base l' ∧ Blocks.cells l' = b.cells ∪ Blocks.cells l ∧ Blocks.Joined b l l' := by
  obtain ⟨h', hfree, hlist, -⟩ := free_spec hf ht
  exact ⟨2 * l.length + 4, fun fuel hfuel => ⟨h', _, hfree fuel hfuel, hlist, Blocks.cells_insert b l,
    Blocks.joined_insert (coalesced_cons.mp hf.coalesced).2 ht.apart ht.pos⟩⟩

end

/-- `base` and two blocks, with room for one between them, and `freep` at the last one. -/
def twoBlocks : Heap where
  mem := Bytes.writes (fun _ => 0) [(16, le 4 32), (32, le 4 48), (36, le 4 1), (44, le 4 1),
    (48, le 4 16), (52, le 4 1)]
  mapped v := v = 0
  sz := 4096
  freep := 48

theorem twoBlocks_list : FreeList twoBlocks 16 [⟨32, 8⟩, ⟨48, 8⟩] where
  coalesced := by simp [Coalesced, Block.stop]
  above := by simp
  pos := by simp
  links := ⟨by decide, by decide, by decide, trivial⟩
  sizes := by
    simp only [List.forall_mem_cons, List.not_mem_nil, false_imp_iff, implies_true, and_true]
    decide
  mapped := by
    simp only [List.forall_mem_cons, List.not_mem_nil, false_imp_iff, implies_true, and_true]
    refine ⟨⟨by decide, ?_⟩, ⟨by decide, ?_⟩, by decide, ?_⟩ <;> rintro x ⟨-, hx⟩
    all_goals exact decide_eq_true (Nat.div_eq_of_lt (hx.trans (by decide)))
  freep := ⟨⟨48, 8⟩, by simp, rfl⟩

theorem twoBlocks_taken : Taken twoBlocks 16 [⟨32, 8⟩, ⟨48, 8⟩] ⟨40, 8⟩ where
  above := by decide
  apart := by simp [Block.Apart, Block.stop]
  pos := by decide
  size := by decide
  mapped := by
    refine ⟨by decide, ?_⟩
    rintro x ⟨-, hx⟩
    exact decide_eq_true (Nat.div_eq_of_lt (hx.trans (by decide)))

/-- The block between them makes one of all three. -/
theorem free_coalesces_twoBlocks : ∃ n, ∀ fuel, n ≤ fuel → ∃ h' l',
    twoBlocks.free fuel 48 = some h' ∧ FreeList h' 16 l' ∧
      Blocks.cells l' = Block.cells ⟨40, 8⟩ ∪ Blocks.cells [⟨32, 8⟩, ⟨48, 8⟩] ∧
      Blocks.Joined ⟨40, 8⟩ [⟨32, 8⟩, ⟨48, 8⟩] l' :=
  free_coalesces twoBlocks_list twoBlocks_taken

end Xv6.Umalloc
