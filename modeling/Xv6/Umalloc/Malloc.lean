import Xv6.Memory.Growproc
import Xv6.Umalloc.Free

/-! @src umalloc.c sysproc.c proc.c vm.c | name:malloc | layer:proof

    `malloc` goes around the list once, from `freep` on, and takes the first block that is large enough
    or the end of it. When there is none, `morecore` frees what the kernel adds to the process, and the
    second time around there is one. -/

namespace Xv6.Umalloc
open Xv6.Schemes
open Xv6.Schemes.Blocks (Block Coalesced Links)
open Xv6.Schemes.X86 (Word)
open Xv6.Memory (PGSIZE KERNBASE pageUp pageUp_le)
open Heap

/-- The process has the pages from `lo` up to its size, and the variable `base` below `lo`. -/
structure Grown (h : Heap) (base lo : ℕ) : Prop where
  pos : 0 < base
  low : base + 8 ≤ lo
  le : lo ≤ h.sz.toNat
  max : h.sz < KERNBASE
  header : h.Mapped (header base)
  pages : ∀ v, lo / PGSIZE ≤ v → v < pageUp h.sz → h.mapped v = true

/-- The process is as large as before, or larger. -/
structure Extends (h h' : Heap) : Prop where
  sz : h.sz.toNat ≤ h'.sz.toNat
  mapped : ∀ v, h.mapped v = true → h'.mapped v = true

/-- The kernel has nothing for a request of `n` bytes. -/
def NoRoom (h : Heap) (room : Word → Bool) (n : ℕ) : Prop :=
  2 ^ 31 ≤ h.sz.toNat + n ∨ room (h.sz + addr n) = false

/-- The heap with `freep` at a block. -/
def Heap.startAt (h : Heap) (a : ℕ) : Heap := { h with freep := addr a }

/-- The free blocks and those handed out lie apart in the memory from `lo` on. -/
structure Arena (h : Heap) (base lo : ℕ) (l live : List Block) : Prop where
  grown : Grown h base lo
  list : FreeList h base l
  taken : ∀ b ∈ live, Taken h base l b
  apart : live.Pairwise Block.Apart
  above : ∀ b ∈ l ++ live, lo ≤ b.addr
  below : ∀ b ∈ l ++ live, b.stop ≤ h.sz.toNat

section

variable {h h' : Heap} {base lo n : ℕ} {l live : List Block} {a b c : Block}

theorem Extends.refl (h : Heap) : Extends h h := ⟨le_rfl, fun _ hv => hv⟩

theorem Extends.trans {h₁ h₂ h₃ : Heap} (he : Extends h₁ h₂) (he' : Extends h₂ h₃) : Extends h₁ h₃ :=
  ⟨he.sz.trans he'.sz, fun v hv => he'.mapped v (he.mapped v hv)⟩

theorem Heap.Only.extends {s : Set ℕ} (ho : Only h h' s) : Extends h h' :=
  ⟨(congrArg BitVec.toNat ho.sz).ge, fun _ hv => ho.mapped ▸ hv⟩

theorem Heap.Only.startAt {s : Set ℕ} (ho : Only h h' s) : Only h (h'.startAt n) s :=
  ⟨ho.mem, ho.mapped, ho.sz⟩

theorem Extends.block (he : Extends h h') (hb : h.Mapped b) : h'.Mapped b :=
  ⟨hb.1, fun x hx => he.mapped _ (hb.2 x hx)⟩

/-! ### The kernel -/

theorem Grown.sz_lt (hg : Grown h base lo) : h.sz.toNat < 2 ^ 31 := hg.max

/-- The memory of the process is mapped. -/
theorem Grown.mapped (hg : Grown h base lo) (hlo : lo ≤ b.addr) (hstop : b.stop ≤ h.sz.toNat) :
    h.Mapped b := by
  have hlt := hg.sz_lt
  refine ⟨by omega, fun x hx => ?_⟩
  have hx₁ : lo ≤ x := hlo.trans hx.1
  have hx₂ : x < h.sz.toNat := hx.2.trans_le hstop
  refine hg.pages _ (Nat.div_le_div_right hx₁) ?_
  rw [← not_le, pageUp_le (BitVec.le_of_lt hg.max), not_le]
  exact (Nat.div_mul_le_self x PGSIZE).trans_lt hx₂

/-- `sbrk` of a positive number fails and changes nothing, or gives memory behind the rest. -/
theorem sbrk_spec (hg : Grown h base lo) (room : Word → Bool) (hpos : 0 < n) (hn : n < 2 ^ 31) :
    (NoRoom h room n ∧ h.sbrk room (addr n) = (-1, h)) ∨
      ∃ h', h.sbrk room (addr n) = (h.sz, h') ∧ h'.sz.toNat = h.sz.toNat + n ∧ h'.freep = h.freep ∧
        Grown h' base lo ∧ Extends h h' ∧ ∀ x, x < h.sz.toNat → h'.mem (addr x) = h.mem (addr x) := by
  have hsz := hg.sz_lt
  have hnat : (addr n).toNat = n := toNat_addr (by omega)
  have hint : (addr n).toInt = n := by
    rw [BitVec.toInt_eq_toNat_of_lt (by omega), hnat]
  have hnew : (h.sz + addr n).toNat = h.sz.toNat + n := by
    rw [BitVec.toNat_add, hnat, Nat.mod_eq_of_lt (by omega)]
  have hge : ¬ h.sz + addr n < h.sz := by
    rw [BitVec.lt_def, hnew]
    omega
  have hne : h.sz + addr n ≠ 0 := by
    intro h0
    rw [h0] at hnew
    have hzero : (0 : Word).toNat = 0 := rfl
    omega
  have hlt : (0 : ℤ) < n := by omega
  have halloc : (NoRoom h room n ∧ h.allocuvm room (h.sz + addr n) = (0, h)) ∨
      h.sz + addr n < KERNBASE ∧ h.allocuvm room (h.sz + addr n) = (h.sz + addr n, { h with
        mapped := fun v => h.mapped v || newPages h.sz (h.sz + addr n) v
        mem := fun x => if newPages h.sz (h.sz + addr n) (x.toNat / PGSIZE) then 0 else h.mem x }) := by
    unfold Heap.allocuvm
    by_cases hbig : h.sz + addr n ≥ KERNBASE
    · have hle : 2 ^ 31 ≤ (h.sz + addr n).toNat := hbig
      exact .inl ⟨.inl (hnew ▸ hle), if_pos hbig⟩
    · rw [if_neg hbig, if_neg hge]
      split
      · rename_i hroom
        exact .inl ⟨.inr (Bool.not_eq_true _ ▸ hroom.2), rfl⟩
      · exact .inr ⟨BitVec.not_le.mp hbig, rfl⟩
  unfold Heap.sbrk Heap.growproc
  rw [hint, if_pos hlt]
  rcases halloc with ⟨hno, hz⟩ | ⟨hmax, hz⟩
  · rw [hz]
    exact .inl ⟨hno, rfl⟩
  · right
    simp only [hz, if_neg hne]
    refine ⟨_, rfl, hnew, rfl, ?_, ?_, fun x hx => ?_⟩
    · refine ⟨hg.pos, hg.low, hnew ▸ hg.le.trans (Nat.le_add_right _ _), hmax, ?_, fun v hv₁ hv₂ => ?_⟩
      · exact ⟨hg.header.1, fun x hx => Bool.or_eq_true_iff.mpr (.inl (hg.header.2 x hx))⟩
      · refine Bool.or_eq_true_iff.mpr ?_
        by_cases hold : v < pageUp h.sz
        · exact .inl (hg.pages v hv₁ hold)
        · right
          dsimp only at hv₂
          rw [← not_le, pageUp_le (BitVec.le_of_lt hmax), not_le] at hv₂
          unfold Heap.newPages
          rw [Bool.and_eq_true]
          exact ⟨decide_eq_true (not_lt.mp hold), decide_eq_true hv₂⟩
    · exact ⟨hnew ▸ Nat.le_add_right _ _, fun v hv => Bool.or_eq_true_iff.mpr (.inl hv)⟩
    · have hpage : newPages h.sz (h.sz + addr n) ((addr x).toNat / PGSIZE) = false := by
        unfold Heap.newPages
        rw [toNat_addr (by omega), Bool.and_eq_false_iff]
        left
        refine decide_eq_false ?_
        rw [pageUp_le (BitVec.le_of_lt hg.max), not_le]
        exact (Nat.div_mul_le_self x PGSIZE).trans_lt hx
      exact if_neg (hpage ▸ Bool.false_ne_true)

/-! ### Headers that stay -/

theorem Heap.Only.grown {s : Set ℕ} (ho : Only h h' s) (hg : Grown h base lo) :
    Grown h' base lo :=
  ⟨hg.pos, hg.low, ho.sz ▸ hg.le, ho.sz ▸ hg.max, ho.mappedBlock hg.header,
    fun v hv₁ hv₂ => ho.mapped ▸ hg.pages v hv₁ (ho.sz ▸ hv₂)⟩

theorem FreeList.congr (hf : FreeList h base l) (he : Extends h h') (hfreep : h'.freep = h.freep)
    (hsame : ∀ b ∈ baseBlock base :: l, h'.next b.addr = h.next b.addr ∧
      h'.units b.addr = h.units b.addr) : FreeList h' base l where
  coalesced := hf.coalesced
  above := hf.above
  pos := hf.pos
  links := by
    refine hf.links.congr fun x hx => ?_
    obtain ⟨b, hb, rfl⟩ := List.mem_map.mp hx
    exact (hsame b hb).1
  sizes b hb := by
    rw [(hsame b hb).2]
    exact hf.sizes b hb
  mapped b hb := he.block (hf.mapped b hb)
  freep := hfreep ▸ hf.freep

theorem Taken.congr {l' : List Block} (ht : Taken h base l b) (he : Extends h h')
    (hunits : h'.units b.addr = h.units b.addr) (hapart : ∀ a ∈ l', a.Apart b) :
    Taken h' base l' b :=
  ⟨ht.above, hapart, ht.pos, hunits ▸ ht.size, he.block ht.mapped⟩

theorem Taken.eight (ht : Taken h base l b) : 8 ≤ b.len := by
  have hsize := ht.size
  have hpos := ht.pos
  omega

theorem Arena.congr (ha : Arena h base lo l live) (he : Extends h h') (hg : Grown h' base lo)
    (hfreep : h'.freep = h.freep)
    (hsame : ∀ b ∈ baseBlock base :: (l ++ live), h'.next b.addr = h.next b.addr ∧
      h'.units b.addr = h.units b.addr) : Arena h' base lo l live where
  grown := hg
  list := by
    refine ha.list.congr he hfreep fun b hb => hsame b ?_
    rcases List.mem_cons.mp hb with rfl | hb
    · exact List.mem_cons_self
    · exact List.mem_cons_of_mem _ (List.mem_append_left live hb)
  taken b hb := by
    have hin : b ∈ baseBlock base :: (l ++ live) :=
      List.mem_cons_of_mem _ (List.mem_append_right l hb)
    exact (ha.taken b hb).congr he (hsame b hin).2 (ha.taken b hb).apart
  apart := ha.apart
  above := ha.above
  below b hb := (ha.below b hb).trans he.sz

/-- The order of the blocks handed out does not matter. -/
theorem Arena.perm {live' : List Block} (ha : Arena h base lo l live) (hp : live.Perm live') :
    Arena h base lo l live' where
  grown := ha.grown
  list := ha.list
  taken b hb := ha.taken b (hp.mem_iff.mpr hb)
  apart := hp.pairwise ha.apart fun {_ _} hab => hab.symm
  above b hb := ha.above b ((hp.append_left l).mem_iff.mpr hb)
  below b hb := ha.below b ((hp.append_left l).mem_iff.mpr hb)

/-! ### free and morecore -/

/-- `free` of a block handed out. -/
theorem Arena.free (ha : Arena h base lo l (b :: live)) :
    ∃ h', (∀ fuel, 2 * l.length + 4 ≤ fuel → h.free fuel (addr (b.addr + 8)) = some h') ∧
      Arena h' base lo (Blocks.insert b l) live ∧ Extends h h' := by
  obtain ⟨htb, ht⟩ := List.forall_mem_cons.mp ha.taken
  obtain ⟨hb, hlive⟩ := List.pairwise_cons.mp ha.apart
  obtain ⟨h', hfree, hlist, ho⟩ := free_spec ha.list htb
  have hsub : ∀ x ∈ l ++ live, x ∈ l ++ b :: live := fun x hx =>
    (List.mem_append.mp hx).elim (List.mem_append_left _)
      fun hx => List.mem_append_right l (List.mem_cons_of_mem b hx)
  have hbin : b ∈ l ++ b :: live := List.mem_append_right l List.mem_cons_self
  refine ⟨h', hfree, ?_, ho.extends⟩
  refine ⟨ho.grown ha.grown, hlist, fun t hmem => ?_, hlive, fun x hx => ?_, fun x hx => ?_⟩
  · -- the headers that change are those of free blocks
    have htt := ht t hmem
    have hbt := hb t hmem
    have hend := htt.mapped.1
    have h8 := htt.eight
    have h8b := htb.eight
    unfold Block.stop at hend
    refine htt.congr ho.extends (ho.header (by omega) ?_).2
      (Blocks.apart_insert hbt htt.apart htt.pos)
    rintro y ⟨c, hc, rfl⟩
    rcases List.mem_cons.mp hc with rfl | hc
    · unfold Block.Apart Block.stop at hbt
      omega
    · exact (htt.header ha.list hc).symm
  · rcases List.mem_append.mp hx with hx | hx
    · rcases Blocks.addr_insert hx with he | ⟨y, hy, he⟩
      · exact he ▸ ha.above b hbin
      · exact he ▸ ha.above y (List.mem_append_left _ hy)
    · exact ha.above x (hsub x (List.mem_append_right l hx))
  · rw [ho.sz]
    rcases List.mem_append.mp hx with hx | hx
    · rcases Blocks.stop_insert hx with he | ⟨y, hy, he⟩
      · exact he ▸ ha.below b hbin
      · exact he ▸ ha.below y (List.mem_append_left _ hy)
    · exact ha.below x (hsub x (List.mem_append_right l hx))

theorem Arena.cons (ha : Arena h base lo l live) (ht : Taken h base l b)
    (hapart : ∀ a ∈ live, b.Apart a) (hlo : lo ≤ b.addr) (hstop : b.stop ≤ h.sz.toNat) :
    Arena h base lo l (b :: live) where
  grown := ha.grown
  list := ha.list
  taken := List.forall_mem_cons.mpr ⟨ht, ha.taken⟩
  apart := List.pairwise_cons.mpr ⟨hapart, ha.apart⟩
  above x hx := by
    rcases List.mem_append.mp hx with hx | hx
    · exact ha.above x (List.mem_append_left live hx)
    · rcases List.mem_cons.mp hx with rfl | hx
      · exact hlo
      · exact ha.above x (List.mem_append_right l hx)
  below x hx := by
    rcases List.mem_append.mp hx with hx | hx
    · exact ha.below x (List.mem_append_left live hx)
    · rcases List.mem_cons.mp hx with rfl | hx
      · exact hstop
      · exact ha.below x (List.mem_append_right l hx)

theorem Arena.eight (ha : Arena h base lo l live) (hb : b ∈ l ++ live) : 8 ≤ b.len := by
  rcases List.mem_append.mp hb with hb | hb
  · have hsize := ha.list.sizes b (List.mem_cons_of_mem _ hb)
    have hpos := ha.list.pos b hb
    omega
  · exact (ha.taken b hb).eight

theorem Arena.freep_ne (ha : Arena h base lo l live) : h.freep ≠ 0 := by
  obtain ⟨q, hq, hfreep⟩ := ha.list.freep
  have hpos := ha.grown.pos
  have hle := ha.list.base_le hq
  have hlt := ha.list.lt hq
  intro h0
  have hnat : q.addr = (0 : Word).toNat := by
    rw [← h0, hfreep, toNat_addr (by omega)]
  have hzero : (0 : Word).toNat = 0 := rfl
  omega

/-- What `morecore` asks the kernel for. -/
def grant (nu : ℕ) : ℕ := if nu < 4096 then 4096 else nu

/-- `morecore` frees what the kernel adds. -/
theorem morecore_spec (ha : Arena h base lo l live) (room : Word → Bool) {nu : ℕ}
    (hnu : nu < 2 ^ 28) :
    (NoRoom h room (8 * grant nu) ∧ ∀ fuel, h.morecore room fuel (addr nu) = some (0, h)) ∨
    ∃ h' b, (∀ fuel, 2 * l.length + 4 ≤ fuel →
        h.morecore room fuel (addr nu) = some (h'.freep, h')) ∧
      Arena h' base lo (Blocks.insert b l) live ∧ Extends h h' ∧ 8 * nu ≤ b.len := by
  have hk : nu ≤ grant nu ∧ 0 < grant nu ∧ grant nu < 2 ^ 28 := by
    unfold grant
    split <;> omega
  have hask : (if addr nu < 4096 then 4096 else addr nu) = addr (grant nu) := by
    have hlt : addr nu < 4096 ↔ nu < 4096 := addr_lt (by omega) (by decide)
    unfold grant
    by_cases hsmall : nu < 4096
    · rw [if_pos hsmall, if_pos (hlt.mpr hsmall)]
      rfl
    · rw [if_neg hsmall, if_neg (mt hlt.mp hsmall)]
  have hsz := ha.grown.sz_lt
  unfold Heap.morecore
  simp only [hask, addr_mul]
  rcases sbrk_spec ha.grown room (n := 8 * grant nu) (by omega) (by omega) with
    ⟨hno, hfail⟩ | ⟨h₁, hsbrk, hsz₁, hfreep, hg₁, he₁, hmem⟩
  · left
    rw [hfail]
    exact ⟨hno, fun fuel => if_pos rfl⟩
  · right
    have hne : ¬ h.sz = -1 := by
      intro hsz'
      rw [hsz'] at hsz
      exact absurd hsz (by decide)
    -- the new block
    obtain ⟨b, hb⟩ : ∃ b : Block, b = ⟨h.sz.toNat, 8 * grant nu⟩ := ⟨_, rfl⟩
    have hbaddr : b.addr = h.sz.toNat := hb ▸ rfl
    have hblen : b.len = 8 * grant nu := hb ▸ rfl
    have hbstop : b.stop = h₁.sz.toNat := by
      unfold Block.stop
      omega
    have hlo : lo ≤ b.addr := hbaddr ▸ ha.grown.le
    have hmapped : h₁.Mapped b := hg₁.mapped hlo hbstop.le
    have ho : Only h₁ (h₁.put (b.addr + 4) (addr (grant nu))) {b.addr} :=
      only_put (by omega) (.inr rfl) _
    have hset : h₁.setSize h.sz (addr (grant nu)) = some (h₁.put (b.addr + 4) (addr (grant nu))) := by
      rw [← addr_toNat h.sz, ← hbaddr]
      exact setSize_eq hmapped (by omega) _
    have hunits : (h₁.put (b.addr + 4) (addr (grant nu))).units b.addr = grant nu := by
      rw [units_put, toNat_addr (by omega)]
    have hfreep₂ : (h₁.put (b.addr + 4) (addr (grant nu))).freep = h.freep := hfreep
    generalize h₁.put (b.addr + 4) (addr (grant nu)) = h₂ at ho hset hunits hfreep₂
    have hbelow : ∀ x ∈ baseBlock base :: (l ++ live), x.addr + 8 ≤ b.addr := by
      intro x hx
      rcases List.mem_cons.mp hx with rfl | hx
      · exact ha.grown.low.trans hlo
      · have h8 := ha.eight hx
        have hstop := ha.below x hx
        unfold Block.stop at hstop
        omega
    have hsame : ∀ x ∈ baseBlock base :: (l ++ live),
        h₂.next x.addr = h.next x.addr ∧ h₂.units x.addr = h.units x.addr := by
      intro x hx
      have hxb := hbelow x hx
      refine header_congr fun y hy₁ hy₂ => (ho.mem y (by omega) fun z hz => ?_).trans (hmem y (by omega))
      obtain rfl := hz
      exact .inl (by omega)
    have ha₂ : Arena h₂ base lo l live :=
      ha.congr (he₁.trans ho.extends) (ho.grown hg₁) hfreep₂ hsame
    have hapart : ∀ x ∈ l ++ live, x.Apart b := fun x hx => .inl (hbaddr ▸ ha.below x hx)
    have htaken : Taken h₂ base l b :=
      ⟨ha.grown.low.trans hlo, fun x hx => hapart x (List.mem_append_left live hx), by omega,
        by rw [hunits, hblen], ho.mappedBlock hmapped⟩
    obtain ⟨h', hfree, ha', he'⟩ := (ha₂.cons htaken
      (fun x hx => (hapart x (List.mem_append_right l hx)).symm) hlo (ho.sz ▸ hbstop.le)).free
    refine ⟨h', b, fun fuel hfuel => ?_, ha', (he₁.trans ho.extends).trans he', by omega⟩
    have hp : h.sz + 8 = addr (b.addr + 8) := by
      have hsum : addr b.addr + 8 = addr (b.addr + 8) := addr_add b.addr 8
      rw [← hsum, hbaddr, addr_toNat]
    rw [hsbrk]
    simp only [if_neg hne, hset, hp, Option.bind_eq_bind, Option.bind_some, hfree fuel hfuel]

/-! ### A block that is large enough -/

theorem addr_sub {x y : ℕ} (hxy : y ≤ x) : addr x - addr y = addr (x - y) := by
  have hsum : addr (x - y) + addr y = addr x := by
    rw [addr_add, Nat.sub_add_cancel hxy]
  rw [← hsum, BitVec.add_sub_cancel]

theorem next_put_size {x : ℕ} {v : Word} (hx : x + 8 ≤ 2 ^ 32) : (h.put (x + 4) v).next x = h.next x :=
  congrArg BitVec.toNat (word_write_other (by omega) (by omega) (by omega))

/-- What leads to a block of the list is just before it. -/
theorem FreeList.prev (hf : FreeList h base l) (ha : a ∈ baseBlock base :: l) (hc : c ∈ l)
    (hnext : h.next a.addr = c.addr) :
    ∃ m₁ m₂, baseBlock base :: l = m₁ ++ a :: c :: m₂ := by
  obtain ⟨m₁, m₂, hsplit⟩ := List.append_of_mem ha
  have habove := hf.above c hc
  rw [hf.next hsplit] at hnext
  cases m₂ with
  | nil =>
    rw [List.map_nil, List.headD_nil] at hnext
    omega
  | cons x m₂ =>
    have hx : x ∈ baseBlock base :: l := hsplit ▸
      List.mem_append_right m₁ (List.mem_cons_of_mem a List.mem_cons_self)
    obtain rfl := hf.coalesced.addr_inj hx (List.mem_cons_of_mem _ hc) hnext
    exact ⟨m₁, m₂, hsplit⟩

/-- Parts of free blocks are apart from what has been handed out. -/
theorem Arena.cut {l' : List Block} {s : Set ℕ} (ha : Arena h base lo l live)
    (hf : FreeList h' base l') (ht : Taken h' base l' b)
    (hin : ∀ x ∈ b :: l', ∃ c ∈ l, c.addr ≤ x.addr ∧ x.stop ≤ c.stop) (ho : Only h h' s)
    (hs : ∀ y ∈ s, y = base ∨ ∃ x ∈ b :: l', y = x.addr) : Arena h' base lo l' (b :: live) := by
  have hlen : ∀ x ∈ b :: l', 8 ≤ x.len := by
    refine List.forall_mem_cons.mpr ⟨ht.eight, fun x hx => ?_⟩
    have hsize := hf.sizes x (List.mem_cons_of_mem _ hx)
    have hpos := hf.pos x hx
    omega
  have hapart : ∀ t ∈ live, ∀ x ∈ b :: l', x.Apart t := by
    intro t hmem x hx
    obtain ⟨c, hc, hlo, hhi⟩ := hin x hx
    have hct := (ha.taken t hmem).apart c hc
    unfold Block.Apart at hct ⊢
    omega
  have hrange : ∀ x ∈ b :: l', lo ≤ x.addr ∧ x.stop ≤ h'.sz.toNat := by
    intro x hx
    obtain ⟨c, hc, hlo, hhi⟩ := hin x hx
    have hc' := List.mem_append_left live hc
    exact ⟨(ha.above c hc').trans hlo, ho.sz ▸ hhi.trans (ha.below c hc')⟩
  have hold : Arena h' base lo l' live := by
    refine ⟨ho.grown ha.grown, hf, fun t hmem => ?_, ha.apart, fun x hx => ?_, fun x hx => ?_⟩
    · have htt := ha.taken t hmem
      have hend := htt.mapped.1
      have h8 := htt.eight
      unfold Block.stop at hend
      refine htt.congr ho.extends (ho.header (by omega) fun y hy => ?_).2
        fun x hx => hapart t hmem x (List.mem_cons_of_mem b hx)
      rcases hs y hy with rfl | ⟨x, hx, rfl⟩
      · exact .inr htt.above
      · have hxt := hapart t hmem x hx
        have h8x := hlen x hx
        unfold Block.Apart Block.stop at hxt
        omega
    · rcases List.mem_append.mp hx with hx | hx
      · exact (hrange x (List.mem_cons_of_mem b hx)).1
      · exact ha.above x (List.mem_append_right l hx)
    · rcases List.mem_append.mp hx with hx | hx
      · exact (hrange x (List.mem_cons_of_mem b hx)).2
      · exact ho.sz ▸ ha.below x (List.mem_append_right l hx)
  exact hold.cons ht (fun t hmem => hapart t hmem b List.mem_cons_self)
    (hrange b List.mem_cons_self).1 (hrange b List.mem_cons_self).2

variable {nu : ℕ}

/-- The block before it leads past it. -/
theorem FreeList.unlink {m₁ m₂ : List Block} (hf : FreeList h base l)
    (hsplit : baseBlock base :: l = m₁ ++ a :: c :: m₂) :
    ∃ l', m₁ ++ a :: m₂ = baseBlock base :: l' ∧ l'.Sublist l ∧
      FreeList ((h.put a.addr (addr (h.next c.addr))).startAt a.addr) base l' := by
  have hin : a ∈ baseBlock base :: l := hsplit ▸ List.mem_append_right m₁ List.mem_cons_self
  have hsub : (m₁ ++ a :: m₂).Sublist (baseBlock base :: l) := by
    rw [hsplit]
    exact ((List.sublist_cons_self c m₂).cons_cons a).append_left m₁
  have hbefore := hf.before hsplit
  have halt := hf.lt hin
  have ho : Only h (h.put a.addr (addr (h.next c.addr))) {a.addr} := only_put (by omega) (.inl rfl) _
  have hheader : ∀ x ∈ m₁ ++ m₂, x.addr + 8 ≤ 2 ^ 32 ∧
      ∀ y ∈ ({a.addr} : Set ℕ), x.addr + 8 ≤ y ∨ y + 8 ≤ x.addr := by
    intro x hx
    have hxin : x ∈ baseBlock base :: l :=
      hsub.subset (((List.sublist_cons_self a m₂).append_left m₁).subset hx)
    have hxlt := hf.lt hxin
    refine ⟨by omega, fun y hy => ?_⟩
    obtain rfl := hy
    rcases List.mem_append.mp hx with hx | hx
    · exact .inl (hf.header_le hxin hin (hbefore.2 x hx))
    · exact .inr (hf.header_le hin hxin (hbefore.1 x (List.mem_cons_of_mem c hx)))
  have hwhole : Stretch (h.put a.addr (addr (h.next c.addr))) (m₁ ++ a :: m₂) base := by
    have hall := hf.stretch
    rw [hsplit] at hall
    obtain ⟨hm₁, hrest⟩ := stretch_append.mp hall
    obtain ⟨⟨-, hasize⟩, hrest⟩ := stretch_cons.mp hrest
    obtain ⟨⟨hcnext, -⟩, hm₂⟩ := stretch_cons.mp hrest
    have hlt : h.next c.addr < 2 ^ 32 := BitVec.isLt _
    refine stretch_append.mpr ⟨hm₁.congr ho fun x hx => hheader x (List.mem_append_left _ hx),
      stretch_cons.mpr ⟨⟨?_, ?_⟩, hm₂.congr ho fun x hx => hheader x (List.mem_append_right _ hx)⟩⟩
    · rw [next_put, toNat_addr hlt, hcnext]
    · rw [units_put_ptr (by omega), hasize]
  obtain ⟨l', hl'⟩ : ∃ l', m₁ ++ a :: m₂ = baseBlock base :: l' := by
    cases m₁ with
    | nil =>
      obtain rfl := List.head_eq_of_cons_eq hsplit
      exact ⟨m₂, rfl⟩
    | cons x m₁ =>
      obtain rfl := List.head_eq_of_cons_eq hsplit
      exact ⟨m₁ ++ a :: m₂, rfl⟩
  have hl'sub : l'.Sublist l := List.cons_sublist_cons.mp (hl' ▸ hsub)
  rw [hl'] at hwhole
  refine ⟨l', hl', hl'sub, ?_⟩
  exact {
    coalesced := hf.coalesced.sublist (hl'sub.cons_cons _)
    above := fun x hx => hf.above x (hl'sub.subset hx)
    pos := fun x hx => hf.pos x (hl'sub.subset hx)
    links := hwhole.links
    sizes := hwhole.sizes
    mapped := fun x hx => hf.mapped x ((hl'sub.cons_cons _).subset hx)
    freep := ⟨a, hl' ▸ List.mem_append_right _ List.mem_cons_self, rfl⟩ }

/-- A block of the size asked for leaves the list. -/
theorem take_exact (ha : Arena h base lo l live) (hin : a ∈ baseBlock base :: l) (hc : c ∈ l)
    (hnext : h.next a.addr = c.addr) (hlen : c.len = 8 * nu) :
    ∃ h' l', h.take (addr nu) (addr a.addr) (addr c.addr) = some (addr (c.addr + 8), h') ∧
      Arena h' base lo l' (c :: live) ∧ Extends h h' := by
  have hf := ha.list
  obtain ⟨m₁, m₂, hsplit⟩ := hf.prev hin hc hnext
  obtain ⟨l', hl', hsub, hlist⟩ := hf.unlink hsplit
  have hcin : c ∈ baseBlock base :: l := List.mem_cons_of_mem _ hc
  have hcm : h.Mapped c := hf.mapped c (List.mem_cons_of_mem _ hc)
  have hc8 : 8 ≤ c.len := ha.eight (List.mem_append_left live hc)
  have hsize := hf.sizes c hcin
  have halt := hf.lt hin
  have hclt := hf.lt hcin
  have hain : a ∈ baseBlock base :: l' := hl' ▸ List.mem_append_right _ List.mem_cons_self
  -- it is apart from what stays
  have hsplit' : baseBlock base :: l = (m₁ ++ [a]) ++ c :: m₂ := by
    rw [hsplit, List.append_assoc]
    rfl
  have hothers := hf.before hsplit'
  have hapart : ∀ x ∈ l', x.Apart c := by
    intro x hx
    have hx' : x ∈ m₁ ++ a :: m₂ := hl' ▸ List.mem_cons_of_mem _ hx
    rcases List.mem_append.mp hx' with hx' | hx'
    · exact .inl (hothers.2 x (List.mem_append_left _ hx')).le
    · rcases List.mem_cons.mp hx' with rfl | hx'
      · exact .inl (hothers.2 x (List.mem_append_right _ List.mem_cons_self)).le
      · exact .inr (hothers.1 x hx').le
  have ho : Only h ((h.put a.addr (addr (h.next c.addr))).startAt a.addr) {a.addr} :=
    (only_put (by omega) (.inl rfl) _).startAt
  have hset : h.setPtr (addr a.addr) (addr (h.next c.addr)) =
      some (h.put a.addr (addr (h.next c.addr))) := by
    obtain ⟨ca, hca, hma, ha8⟩ := hf.room hin
    rw [← hca]
    exact setPtr_eq hma ha8 _
  have htake : h.take (addr nu) (addr a.addr) (addr c.addr) =
      some (addr (c.addr + 8), (h.put a.addr (addr (h.next c.addr))).startAt a.addr) := by
    have hn : h.units c.addr = nu := by omega
    have hsum : addr c.addr + 8 = addr (c.addr + 8) := addr_add c.addr 8
    unfold Heap.take
    rw [size_eq hcm hc8, hn, Option.bind_eq_bind, Option.bind_some, if_pos rfl, ptr_eq hcm hc8]
    simp only [Option.bind_some, hset, hsum]
    rfl
  generalize (h.put a.addr (addr (h.next c.addr))).startAt a.addr = h' at ho htake hlist
  have hunits : h'.units c.addr = h.units c.addr := by
    refine (ho.header (by omega) fun y hy => ?_).2
    obtain rfl := hy
    exact .inr (hf.header_le hin hcin ((hf.before hsplit).1 c List.mem_cons_self))
  have htaken : Taken h' base l' c :=
    ⟨hf.above c hc, hapart, hf.pos c hc, hunits ▸ hsize, ho.mappedBlock hcm⟩
  refine ⟨h', l', htake, ha.cut hlist htaken (fun x hx => ?_) ho (fun y hy => ?_), ho.extends⟩
  · rcases List.mem_cons.mp hx with rfl | hx
    · exact ⟨x, hc, le_rfl, le_rfl⟩
    · exact ⟨x, hsub.subset hx, le_rfl, le_rfl⟩
  · obtain rfl := hy
    rcases List.mem_cons.mp hain with rfl | hal
    · exact .inl rfl
    · exact .inr ⟨a, List.mem_cons_of_mem c hal, rfl⟩

/-- A block of the list becomes shorter. -/
theorem FreeList.shorten {l₁ l₂ : List Block} (hf : FreeList h base (l₁ ++ c :: l₂))
    (haddr : b.addr = c.addr) (hpos : 0 < b.len) (hlen : b.len ≤ c.len) (he : Extends h h')
    (hnext : ∀ x ∈ baseBlock base :: (l₁ ++ c :: l₂), h'.next x.addr = h.next x.addr)
    (hunits : ∀ x ∈ baseBlock base :: (l₁ ++ l₂), h'.units x.addr = h.units x.addr)
    (hsize : 8 * h'.units b.addr = b.len)
    (hfreep : ∃ x ∈ baseBlock base :: (l₁ ++ c :: l₂), h'.freep = addr x.addr) :
    FreeList h' base (l₁ ++ b :: l₂) := by
  have hmem : ∀ x ∈ l₁ ++ b :: l₂, x = b ∨ x ∈ l₁ ++ l₂ := by
    intro x hx
    rcases List.mem_append.mp hx with hx | hx
    · exact .inr (List.mem_append_left _ hx)
    · exact (List.mem_cons.mp hx).imp_right (List.mem_append_right _)
  have hsub : ∀ x ∈ l₁ ++ l₂, x ∈ l₁ ++ c :: l₂ := fun x hx =>
    ((List.sublist_cons_self c l₂).append_left l₁).subset hx
  have hcin : c ∈ l₁ ++ c :: l₂ := List.mem_append_right _ List.mem_cons_self
  have hmap : (baseBlock base :: (l₁ ++ b :: l₂)).map Block.addr =
      (baseBlock base :: (l₁ ++ c :: l₂)).map Block.addr := by
    simp only [List.map_cons, List.map_append, haddr]
  refine ⟨?_, fun x hx => ?_, fun x hx => ?_, ?_, fun x hx => ?_, fun x hx => he.block ?_, ?_⟩
  · have hco := hf.coalesced
    rw [← List.cons_append] at hco ⊢
    exact hco.shorten haddr hlen
  · rcases hmem x hx with rfl | hx
    · exact haddr ▸ hf.above c hcin
    · exact hf.above x (hsub x hx)
  · rcases hmem x hx with rfl | hx
    · exact hpos
    · exact hf.pos x (hsub x hx)
  · rw [hmap]
    refine hf.links.congr fun y hy => ?_
    obtain ⟨x, hx, rfl⟩ := List.mem_map.mp hy
    exact hnext x hx
  · rcases List.mem_cons.mp hx with rfl | hx
    · rw [hunits _ List.mem_cons_self]
      exact hf.sizes _ List.mem_cons_self
    · rcases hmem x hx with rfl | hx
      · exact hsize
      · rw [hunits x (List.mem_cons_of_mem _ hx)]
        exact hf.sizes x (List.mem_cons_of_mem _ (hsub x hx))
  · rcases List.mem_cons.mp hx with rfl | hx
    · exact hf.mapped _ List.mem_cons_self
    · rcases hmem x hx with rfl | hx
      · obtain ⟨hend, hcells⟩ := hf.mapped c (List.mem_cons_of_mem _ hcin)
        have hstop : x.stop ≤ c.stop := by
          unfold Block.stop
          omega
        exact ⟨hstop.trans_lt hend, fun y hy => hcells y ⟨haddr ▸ hy.1, hy.2.trans_le hstop⟩⟩
      · exact hf.mapped x (List.mem_cons_of_mem _ (hsub x hx))
  · obtain ⟨x, hx, hfx⟩ := hfreep
    rcases List.mem_cons.mp hx with rfl | hx
    · exact ⟨_, List.mem_cons_self, hfx⟩
    · rcases List.mem_append.mp hx with hx | hx
      · exact ⟨x, List.mem_cons_of_mem _ (List.mem_append_left _ hx), hfx⟩
      · rcases List.mem_cons.mp hx with rfl | hx
        · exact ⟨b, List.mem_cons_of_mem _ (List.mem_append_right _ List.mem_cons_self), haddr ▸ hfx⟩
        · exact ⟨x, List.mem_cons_of_mem _ (List.mem_append_right _ (List.mem_cons_of_mem b hx)), hfx⟩

/-- The end of a block that is larger is handed out. -/
theorem take_split (ha : Arena h base lo l live) (hin : a ∈ baseBlock base :: l) (hc : c ∈ l)
    (hnu : 0 < nu) (hlen : 8 * nu < c.len) :
    ∃ h' l' b, h.take (addr nu) (addr a.addr) (addr c.addr) = some (addr (b.addr + 8), h') ∧
      b.len = 8 * nu ∧ Arena h' base lo l' (b :: live) ∧ Extends h h' := by
  have hf := ha.list
  have hcin : c ∈ baseBlock base :: l := List.mem_cons_of_mem _ hc
  have hcm : h.Mapped c := hf.mapped c (List.mem_cons_of_mem _ hc)
  have hsize := hf.sizes c hcin
  have hstop := hcm.1
  have habove := hf.above c hc
  unfold Block.stop at hstop
  obtain ⟨l₁, l₂, rfl⟩ := List.append_of_mem hc
  -- the two parts of the block
  obtain ⟨k, hk⟩ : ∃ k, k = h.units c.addr - nu := ⟨_, rfl⟩
  obtain ⟨rest, hrest⟩ : ∃ rest : Block, rest = ⟨c.addr, 8 * k⟩ := ⟨_, rfl⟩
  obtain ⟨b, hb⟩ : ∃ b : Block, b = ⟨c.addr + 8 * k, 8 * nu⟩ := ⟨_, rfl⟩
  have hrest₁ : rest.addr = c.addr := hrest ▸ rfl
  have hrest₂ : rest.len = 8 * k := hrest ▸ rfl
  have hb₁ : b.addr = c.addr + 8 * k := hb ▸ rfl
  have hb₂ : b.len = 8 * nu := hb ▸ rfl
  have hkpos : 0 < k := by omega
  have hbstop : b.stop = c.stop := by
    unfold Block.stop
    omega
  have hbm : h.Mapped b := by
    refine ⟨hbstop ▸ hcm.1, fun x hx => hcm.2 x ⟨?_, hbstop ▸ hx.2⟩⟩
    have := hx.1
    omega
  -- their sizes are set
  have ho₁ : Only h (h.put (c.addr + 4) (addr k)) {c.addr} := only_put (by omega) (.inr rfl) _
  have ho₂ : Only (h.put (c.addr + 4) (addr k)) ((h.put (c.addr + 4) (addr k)).put (b.addr + 4) (addr nu))
      {b.addr} := only_put (by omega) (.inr rfl) _
  have htake : h.take (addr nu) (addr a.addr) (addr c.addr) =
      some (addr (b.addr + 8),
        ((h.put (c.addr + 4) (addr k)).put (b.addr + 4) (addr nu)).startAt a.addr) := by
    have hne : ¬ addr (h.units c.addr) = addr nu := by
      rw [addr_inj (by omega) (by omega)]
      omega
    have hk₁ : (h.put (c.addr + 4) (addr k)).units c.addr = k := by
      rw [units_put, toNat_addr (by omega)]
    have hsize₁ := size_eq (ho₁.mappedBlock hcm) (by omega)
    have hset₁ := setSize_eq hcm (by omega) (addr k)
    have hset₂ := setSize_eq (ho₁.mappedBlock hbm) (by omega) (addr nu)
    have hend : addr c.addr + addr k * 8 = addr b.addr := by
      rw [addr_units, hb₁]
    have hsum : addr b.addr + 8 = addr (b.addr + 8) := addr_add b.addr 8
    rw [hk₁] at hsize₁
    unfold Heap.take
    rw [size_eq hcm (by omega), Option.bind_eq_bind, Option.bind_some, if_neg hne,
      addr_sub (by omega), ← hk]
    simp only [Option.bind_eq_bind, Option.bind_some, hset₁, hsize₁, hend, hset₂, hsum]
    rfl
  have hunits₁ : (h.put (c.addr + 4) (addr k)).units c.addr = k := by
    rw [units_put, toNat_addr (by omega)]
  have hnext₁ : (h.put (c.addr + 4) (addr k)).next c.addr = h.next c.addr := next_put_size (by omega)
  have hunits₂ : (((h.put (c.addr + 4) (addr k)).put (b.addr + 4) (addr nu)).startAt a.addr).units b.addr =
      nu := by
    change Heap.units (Heap.put _ (b.addr + 4) (addr nu)) b.addr = nu
    rw [units_put, toNat_addr (by omega)]
  have hfreep : (((h.put (c.addr + 4) (addr k)).put (b.addr + 4) (addr nu)).startAt a.addr).freep =
      addr a.addr := rfl
  have ho₂' := ho₂.startAt (n := a.addr)
  generalize ((h.put (c.addr + 4) (addr k)).put (b.addr + 4) (addr nu)).startAt a.addr = h'
    at htake hunits₂ hfreep ho₂'
  generalize h.put (c.addr + 4) (addr k) = h₁ at ho₁ hunits₁ hnext₁ ho₂'
  have ho : Only h h' {x | x = c.addr ∨ x = b.addr} :=
    (ho₁.mono fun x hx => .inl hx).trans (ho₂'.mono fun x hx => .inr hx)
  -- the other headers stay
  have hsame : h'.next c.addr = h₁.next c.addr ∧ h'.units c.addr = h₁.units c.addr := by
    refine ho₂'.header (by omega) fun y hy => ?_
    obtain rfl := hy
    exact .inl (by omega)
  have hothers : ∀ x ∈ baseBlock base :: (l₁ ++ l₂),
      h'.next x.addr = h.next x.addr ∧ h'.units x.addr = h.units x.addr := by
    intro x hx
    rw [← List.cons_append] at hx
    have hbefore := hf.before (List.cons_append ..).symm
    have hxin : x ∈ baseBlock base :: (l₁ ++ c :: l₂) := by
      rw [← List.cons_append]
      exact ((List.sublist_cons_self c l₂).append_left _).subset hx
    have hxlt := hf.lt hxin
    refine ho.header (by omega) fun y hy => ?_
    rcases List.mem_append.mp hx with hx | hx
    · have hle := hf.header_le hxin hcin (hbefore.2 x hx)
      rcases hy with rfl | rfl <;> omega
    · have hle := hf.header_le hcin hxin (hbefore.1 x hx)
      have hlt := hbefore.1 x hx
      unfold Block.stop at hlt
      rcases hy with rfl | rfl <;> omega
  have hnext : ∀ x ∈ baseBlock base :: (l₁ ++ c :: l₂), h'.next x.addr = h.next x.addr := by
    intro x hx
    by_cases hxc : x = c
    · rw [hxc, hsame.1, hnext₁]
    · refine (hothers x ?_).1
      rw [List.mem_cons, List.mem_append, List.mem_cons] at hx
      rw [List.mem_cons, List.mem_append]
      tauto
  have hlist : FreeList h' base (l₁ ++ rest :: l₂) :=
    hf.shorten hrest₁ (by omega) (by omega) ho.extends hnext (fun x hx => (hothers x hx).2)
      (by rw [hrest₁, hsame.2, hunits₁, hrest₂]) ⟨a, hin, hfreep⟩
  have hwithin : ∀ x ∈ b :: (l₁ ++ rest :: l₂), ∃ c' ∈ l₁ ++ c :: l₂,
      c'.addr ≤ x.addr ∧ x.stop ≤ c'.stop := by
    intro x hx
    rcases List.mem_cons.mp hx with rfl | hx
    · exact ⟨c, hc, by omega, hbstop.le⟩
    · rcases List.mem_append.mp hx with hx | hx
      · exact ⟨x, List.mem_append_left _ hx, le_rfl, le_rfl⟩
      · rcases List.mem_cons.mp hx with rfl | hx
        · refine ⟨c, hc, hrest₁.ge, ?_⟩
          unfold Block.stop
          omega
        · exact ⟨x, List.mem_append_right _ (List.mem_cons_of_mem c hx), le_rfl, le_rfl⟩
  have hapart : ∀ x ∈ l₁ ++ rest :: l₂, x.Apart b := by
    intro x hx
    have hbefore := hf.before (List.cons_append ..).symm
    unfold Block.Apart
    rcases List.mem_append.mp hx with hx | hx
    · have hlt := hbefore.2 x (List.mem_cons_of_mem _ hx)
      omega
    · rcases List.mem_cons.mp hx with rfl | hx
      · left
        unfold Block.stop
        omega
      · have hlt := hbefore.1 x hx
        omega
  have htaken : Taken h' base (l₁ ++ rest :: l₂) b :=
    ⟨by omega, hapart, by omega, by rw [hunits₂, hb₂], ho.mappedBlock hbm⟩
  refine ⟨h', _, b, htake, hb₂, ha.cut hlist htaken hwithin ho ?_, ho.extends⟩
  rintro y (rfl | rfl)
  · exact .inr ⟨rest, List.mem_cons_of_mem b (List.mem_append_right _ List.mem_cons_self), hrest₁.symm⟩
  · exact .inr ⟨b, List.mem_cons_self, rfl⟩

theorem take_spec (ha : Arena h base lo l live) (hin : a ∈ baseBlock base :: l) (hc : c ∈ l)
    (hnext : h.next a.addr = c.addr) (hnu : 0 < nu) (hlen : 8 * nu ≤ c.len) :
    ∃ h' l' b, h.take (addr nu) (addr a.addr) (addr c.addr) = some (addr (b.addr + 8), h') ∧
      b.len = 8 * nu ∧ Arena h' base lo l' (b :: live) ∧ Extends h h' := by
  rcases hlen.eq_or_lt with he | hlt
  · obtain ⟨h', l', htake, hrest⟩ := take_exact ha hin hc hnext he.symm
    exact ⟨h', l', c, htake, he.symm, hrest⟩
  · exact take_split ha hin hc hnu hlt

/-! ### Around the list -/

variable {room : Word → Bool} {fuel : ℕ} {prev : Word} {q : Block}

theorem FreeList.size (hf : FreeList h base l) (hq : q ∈ baseBlock base :: l) :
    h.size (addr q.addr) = some (addr (h.units q.addr)) := by
  obtain ⟨c, hc, hm, h8⟩ := hf.room hq
  rw [← hc]
  exact size_eq hm h8

theorem FreeList.enough (hf : FreeList h base l) (hq : q ∈ baseBlock base :: l) (hnu : nu < 2 ^ 32) :
    addr (h.units q.addr) ≥ addr nu ↔ 8 * nu ≤ q.len := by
  have hlt : h.units q.addr < 2 ^ 32 := BitVec.isLt _
  have hsize := hf.sizes q hq
  rw [ge_iff_le, ← BitVec.not_lt, addr_lt hlt hnu]
  omega

/-- A round of the loop at a block that is large enough, -/
theorem mallocLoop_found (hf : FreeList h base l) (hq : q ∈ baseBlock base :: l) (hnu : nu < 2 ^ 32)
    (hlen : 8 * nu ≤ q.len) :
    mallocLoop room (addr nu) (fuel + 1) h prev (addr q.addr) = h.take (addr nu) prev (addr q.addr) := by
  rw [mallocLoop, hf.size hq, Option.bind_eq_bind, Option.bind_some,
    if_pos ((hf.enough hq hnu).mpr hlen)]

/-- at one that is not, -/
theorem mallocLoop_on (hf : FreeList h base l) (hq : q ∈ baseBlock base :: l) (hnu : nu < 2 ^ 32)
    (hlen : q.len < 8 * nu) (hfreep : addr q.addr ≠ h.freep) :
    mallocLoop room (addr nu) (fuel + 1) h prev (addr q.addr) =
      mallocLoop room (addr nu) fuel h (addr q.addr) (addr (h.next q.addr)) := by
  rw [mallocLoop, hf.size hq, Option.bind_eq_bind, Option.bind_some,
    if_neg (mt (hf.enough hq hnu).mp (not_le.mpr hlen)), if_neg hfreep, hf.ptr hq, Option.bind_some]

/-- and at the last one. -/
theorem mallocLoop_more (hf : FreeList h base l) (hq : q ∈ baseBlock base :: l) (hnu : nu < 2 ^ 32)
    (hlen : q.len < 8 * nu) (hfreep : addr q.addr = h.freep) :
    mallocLoop room (addr nu) (fuel + 1) h prev (addr q.addr) =
      (h.morecore room fuel (addr nu)).bind fun r =>
        if r.1 = 0 then some (0, r.2)
        else (r.2.ptr r.1).bind fun next => mallocLoop room (addr nu) fuel r.2 r.1 next := by
  rw [mallocLoop, hf.size hq, Option.bind_eq_bind, Option.bind_some,
    if_neg (mt (hf.enough hq hnu).mp (not_le.mpr hlen)), if_pos hfreep]
  rfl

theorem FreeList.ptr_freep (hf : FreeList h base l) :
    h.ptr h.freep = some (addr (h.next h.freep.toNat)) := by
  obtain ⟨q, hq, hfreep⟩ := hf.freep
  have hqlt := hf.lt hq
  rw [hfreep, toNat_addr (by omega)]
  exact hf.ptr hq

/-- The list from `freep` on. -/
theorem FreeList.ring (hf : FreeList h base l) :
    ∃ f s, h.freep = addr f.addr ∧ (f :: s).Perm (baseBlock base :: l) ∧
      (∀ x ∈ s, addr x.addr ≠ h.freep) ∧ Links h.next ((f :: s).map Block.addr) f.addr := by
  obtain ⟨f, hin, hfreep⟩ := hf.freep
  obtain ⟨m₁, m₂, hsplit⟩ := List.append_of_mem hin
  have hperm : (f :: (m₂ ++ m₁)).Perm (baseBlock base :: l) := by
    rw [hsplit, ← List.cons_append]
    exact List.perm_append_comm
  have hbefore := hf.before hsplit
  refine ⟨f, m₂ ++ m₁, hfreep, hperm, fun x hx => ?_, ?_⟩
  · have hxlt := hf.lt (hperm.subset (List.mem_cons_of_mem f hx))
    have hflt := hf.lt hin
    rw [hfreep, ne_eq, addr_inj (by omega) (by omega)]
    rcases List.mem_append.mp hx with hx | hx
    · have hlt := hbefore.1 x hx
      unfold Block.stop at hlt
      omega
    · have hlt := hbefore.2 x hx
      unfold Block.stop at hlt
      omega
  · have hlinks := hf.links
    have hbase : base = (m₁.map Block.addr).headD f.addr := by
      cases m₁ with
      | nil =>
        obtain rfl := List.head_eq_of_cons_eq hsplit
        rfl
      | cons x m₁ =>
        obtain rfl := List.head_eq_of_cons_eq hsplit
        rfl
    rw [hsplit, List.map_append, List.map_cons] at hlinks
    rw [← List.cons_append, List.map_append, List.map_cons]
    refine Links.rotate ?_
    rw [← hbase]
    exact hlinks

/-- The loop goes past blocks that are too small. -/
theorem mallocLoop_walk (hf : FreeList h base l) (hnu : nu < 2 ^ 32) (room : Word → Bool)
    {m : List Block} (hq : q ∈ baseBlock base :: l)
    (hm : ∀ x ∈ m, x ∈ baseBlock base :: l ∧ x.len < 8 * nu ∧ addr x.addr ≠ h.freep)
    (hlinks : Links h.next ((q :: m).map Block.addr) c.addr) :
    ∃ a ∈ baseBlock base :: l, h.next a.addr = c.addr ∧ ∀ fuel,
      mallocLoop room (addr nu) (m.length + fuel) h (addr q.addr) (addr (h.next q.addr)) =
        mallocLoop room (addr nu) fuel h (addr a.addr) (addr c.addr) := by
  induction m generalizing q with
  | nil =>
    have hnext : h.next q.addr = c.addr := hlinks.1
    refine ⟨q, hq, hnext, fun fuel => ?_⟩
    rw [List.length_nil, Nat.zero_add, hnext]
  | cons x m ih =>
    obtain ⟨⟨hx, hlen, hfreep⟩, hm'⟩ := List.forall_mem_cons.mp hm
    have hnext : h.next q.addr = x.addr := hlinks.1
    obtain ⟨a, ha, hac, hloop⟩ := ih hx hm' hlinks.2
    refine ⟨a, ha, hac, fun fuel => ?_⟩
    have hsum : (x :: m).length + fuel = m.length + fuel + 1 := by
      rw [List.length_cons]
      omega
    rw [hsum, hnext, mallocLoop_on hf hx hnu hlen hfreep, hloop]

/-- When there is a block that is large enough, the loop takes one. -/
theorem mallocLoop_first (hf : FreeList h base l) (hpos : 0 < nu) (hnu : nu < 2 ^ 32)
    (room : Word → Bool) (hbig : ∃ c ∈ l, 8 * nu ≤ c.len) :
    ∃ a c, a ∈ baseBlock base :: l ∧ c ∈ l ∧ h.next a.addr = c.addr ∧ 8 * nu ≤ c.len ∧
      ∀ fuel, l.length + 1 ≤ fuel →
        mallocLoop room (addr nu) fuel h h.freep (addr (h.next h.freep.toNat)) =
          h.take (addr nu) (addr a.addr) (addr c.addr) := by
  obtain ⟨f, s, hfreep, hperm, hs, hlinks⟩ := hf.ring
  have hflt := hf.lt (hperm.subset List.mem_cons_self)
  have hfnat : h.freep.toNat = f.addr := by
    rw [hfreep, toNat_addr (by omega)]
  have hslen : s.length = l.length := by
    have := hperm.length_eq
    rw [List.length_cons, List.length_cons] at this
    omega
  -- the first block that is large enough
  obtain ⟨c₀, hc₀, hbig₀⟩ := hbig
  have hc₀in : c₀ ∈ s ++ [f] := by
    have hin : c₀ ∈ f :: s := hperm.symm.subset (List.mem_cons_of_mem _ hc₀)
    rw [List.mem_append, List.mem_singleton]
    exact (List.mem_cons.mp hin).symm
  obtain ⟨c, hfind⟩ : ∃ c, (s ++ [f]).find? (fun x => decide (8 * nu ≤ x.len)) = some c :=
    Option.isSome_iff_exists.mp (List.find?_isSome.mpr ⟨c₀, hc₀in, decide_eq_true hbig₀⟩)
  obtain ⟨hbigc, m₁, m₂, hsplit, hsmall⟩ := List.find?_eq_some_iff_append.mp hfind
  have hlen : 8 * nu ≤ c.len := of_decide_eq_true hbigc
  obtain ⟨r, hr, hhead⟩ : ∃ r, s = m₁ ++ r ∧ (r.map Block.addr).headD f.addr = c.addr := by
    rcases List.eq_nil_or_concat m₂ with rfl | ⟨m₂, x, rfl⟩
    · obtain ⟨hs, hfc⟩ := List.append_inj' hsplit rfl
      obtain rfl := List.head_eq_of_cons_eq hfc
      exact ⟨[], by rw [hs, List.append_nil], rfl⟩
    · rw [List.concat_eq_append, ← List.cons_append, ← List.append_assoc] at hsplit
      obtain ⟨hs, -⟩ := List.append_inj' hsplit rfl
      exact ⟨c :: m₂, hs, rfl⟩
  have hcin : c ∈ baseBlock base :: l := by
    refine hperm.subset ?_
    have hmem : c ∈ s ++ [f] := hsplit ▸ List.mem_append_right m₁ List.mem_cons_self
    rw [List.mem_append, List.mem_singleton] at hmem
    exact List.mem_cons.mpr hmem.symm
  have hcl : c ∈ l := by
    rcases List.mem_cons.mp hcin with rfl | hcl
    · dsimp only at hlen
      omega
    · exact hcl
  have hm : ∀ x ∈ m₁, x ∈ baseBlock base :: l ∧ x.len < 8 * nu ∧ addr x.addr ≠ h.freep := by
    intro x hx
    have hxs : x ∈ s := hr ▸ List.mem_append_left r hx
    have hno := hsmall x hx
    refine ⟨hperm.subset (List.mem_cons_of_mem f hxs), ?_, hs x hxs⟩
    rw [Bool.not_eq_true', decide_eq_false_iff_not, not_le] at hno
    exact hno
  have hpath : Links h.next ((f :: m₁).map Block.addr) c.addr := by
    rw [hr, ← List.cons_append, List.map_append, Blocks.links_append, hhead] at hlinks
    exact hlinks.1
  obtain ⟨a, ha, hac, hloop⟩ := mallocLoop_walk hf hnu room (hperm.subset List.mem_cons_self) hm hpath
  refine ⟨a, c, ha, hcl, hac, hlen, fun fuel hfuel => ?_⟩
  have hm₁ : m₁.length ≤ l.length := by
    rw [← hslen, hr, List.length_append]
    exact Nat.le_add_right _ _
  obtain ⟨k, rfl⟩ : ∃ k, fuel = m₁.length + (k + 1) := ⟨fuel - m₁.length - 1, by omega⟩
  rw [hfnat, hfreep, hloop, mallocLoop_found hf hcin hnu hlen]

/-- When there is none, it asks for more. -/
theorem mallocLoop_none (hf : FreeList h base l) (hpos : 0 < nu) (hnu : nu < 2 ^ 32)
    (room : Word → Bool) (hsmall : ∀ c ∈ l, c.len < 8 * nu) (fuel : ℕ) :
    mallocLoop room (addr nu) (l.length + (fuel + 1)) h h.freep (addr (h.next h.freep.toNat)) =
      (h.morecore room fuel (addr nu)).bind fun r =>
        if r.1 = 0 then some (0, r.2)
        else (r.2.ptr r.1).bind fun next => mallocLoop room (addr nu) fuel r.2 r.1 next := by
  obtain ⟨f, s, hfreep, hperm, hs, hlinks⟩ := hf.ring
  have hfin : f ∈ baseBlock base :: l := hperm.subset List.mem_cons_self
  have hflt := hf.lt hfin
  have hfnat : h.freep.toNat = f.addr := by
    rw [hfreep, toNat_addr (by omega)]
  have hslen : s.length = l.length := by
    have := hperm.length_eq
    rw [List.length_cons, List.length_cons] at this
    omega
  have hall : ∀ x ∈ baseBlock base :: l, x.len < 8 * nu := by
    refine List.forall_mem_cons.mpr ⟨?_, hsmall⟩
    dsimp only
    omega
  have hm : ∀ x ∈ s, x ∈ baseBlock base :: l ∧ x.len < 8 * nu ∧ addr x.addr ≠ h.freep := by
    intro x hx
    have hin := hperm.subset (List.mem_cons_of_mem f hx)
    exact ⟨hin, hall x hin, hs x hx⟩
  obtain ⟨a, -, -, hloop⟩ := mallocLoop_walk hf hnu room hfin hm hlinks
  rw [hfnat, ← hslen, hfreep, hloop]
  exact mallocLoop_more hf hfin hnu (hall f hfin) hfreep.symm

/-- A call that returns `r`. -/
def Returns {α : Type*} (f : ℕ → Option α) (r : α) : Prop := ∃ n, ∀ fuel, n ≤ fuel → f fuel = some r

/-- What the loop returns: nothing when the kernel gives nothing, or a block of the size asked for. -/
theorem mallocLoop_spec (ha : Arena h base lo l live) (hpos : 0 < nu) (hnu : nu < 2 ^ 28)
    (room : Word → Bool) :
    ∃ p h', Returns (fun fuel => mallocLoop room (addr nu) fuel h h.freep
        (addr (h.next h.freep.toNat))) (p, h') ∧ Extends h h' ∧
      ((p = 0 ∧ h' = h ∧ NoRoom h room (8 * grant nu)) ∨
        ∃ l' b, p = addr (b.addr + 8) ∧ b.len = 8 * nu ∧ Arena h' base lo l' (b :: live)) := by
  by_cases hbig : ∃ c ∈ l, 8 * nu ≤ c.len
  · obtain ⟨a, c, hin, hc, hnext, hlen, hloop⟩ := mallocLoop_first ha.list hpos (by omega) room hbig
    obtain ⟨h', l', b, htake, hb, ha', he⟩ := take_spec ha hin hc hnext hpos hlen
    exact ⟨_, h', ⟨l.length + 1, fun fuel hfuel => (hloop fuel hfuel).trans htake⟩, he,
      .inr ⟨l', b, rfl, hb, ha'⟩⟩
  · have hsmall : ∀ c ∈ l, c.len < 8 * nu := fun c hc => not_le.mp fun hlen => hbig ⟨c, hc, hlen⟩
    have hnone := mallocLoop_none ha.list hpos (by omega) room hsmall
    rcases morecore_spec ha room hnu with ⟨hno, hmore⟩ | ⟨h₁, d, hmore, ha₁, he₁, hd⟩
    · refine ⟨0, h, ⟨l.length + 1, fun fuel hfuel => ?_⟩, .refl h, .inl ⟨rfl, rfl, hno⟩⟩
      obtain ⟨k, rfl⟩ : ∃ k, fuel = l.length + (k + 1) := ⟨fuel - l.length - 1, by omega⟩
      dsimp only
      rw [hnone, hmore]
      rfl
    · -- the new block, or what it has been joined to, is large enough
      obtain ⟨c, hc, hlen⟩ := Blocks.exists_insert d l
      obtain ⟨a, c', hin, hc', hnext, hlen', hloop⟩ := mallocLoop_first ha₁.list hpos (by omega) room
        ⟨c, hc, hd.trans hlen⟩
      obtain ⟨h', l', b, htake, hb, ha', he⟩ := take_spec ha₁ hin hc' hnext hpos hlen'
      have hlength := Blocks.length_insert d l
      refine ⟨_, h', ⟨3 * l.length + 6, fun fuel hfuel => ?_⟩, he₁.trans he, .inr ⟨l', b, rfl, hb, ha'⟩⟩
      obtain ⟨k, rfl⟩ : ∃ k, fuel = l.length + (k + 1) := ⟨fuel - l.length - 1, by omega⟩
      dsimp only
      rw [hnone, hmore k (by omega), Option.bind_some, if_neg ha₁.freep_ne, ha₁.list.ptr_freep,
        Option.bind_some, hloop k (by omega), htake]

/-! ### malloc -/

/-- Between two calls. Before the first one there is no list. -/
def Ready (h : Heap) (base lo : ℕ) (live : List Block) : Prop :=
  (h.freep = 0 ∧ live = [] ∧ Grown h base lo) ∨ ∃ l, Arena h base lo l live

/-- The first call makes a list of `base`. -/
theorem init_spec (hr : Ready h base lo live) :
    ∃ h' l, h.init (addr base) = some h' ∧ Arena h' base lo l live ∧ Extends h h' ∧ h'.sz = h.sz := by
  rcases hr with ⟨hfreep, rfl, hg⟩ | ⟨l, ha⟩
  · have hend := hg.header.1
    have hstop : (header base).stop = base + 8 := rfl
    have hmapped := hg.header
    have ho₁ : Only h (h.put base (addr base)) {base} := only_put (by omega) (.inl rfl) _
    have ho₂ : Only (h.put base (addr base)) ((h.put base (addr base)).put (base + 4) 0) {base} :=
      only_put (by omega) (.inr rfl) _
    have ho := (ho₁.trans ho₂).startAt (n := base)
    have hset₁ : h.setPtr (addr base) (addr base) = some (h.put base (addr base)) :=
      setPtr_eq hmapped le_rfl _
    have hset₂ : (h.put base (addr base)).setSize (addr base) 0 =
        some ((h.put base (addr base)).put (base + 4) 0) :=
      setSize_eq (ho₁.mappedBlock hmapped) le_rfl _
    have hnext : ((h.put base (addr base)).put (base + 4) 0).next base = base := by
      rw [next_put_size (by omega), next_put, toNat_addr (by omega)]
    have hunits : ((h.put base (addr base)).put (base + 4) 0).units base = 0 := by
      rw [units_put]
      rfl
    have hinit : h.init (addr base) =
        some (((h.put base (addr base)).put (base + 4) 0).startAt base) := by
      unfold Heap.init
      rw [if_pos hfreep, hset₁, Option.bind_eq_bind, Option.bind_some, hset₂]
      rfl
    have hlist : FreeList (((h.put base (addr base)).put (base + 4) 0).startAt base) base [] := {
      coalesced := List.pairwise_singleton _ _
      above := fun b hb => absurd hb List.not_mem_nil
      pos := fun b hb => absurd hb List.not_mem_nil
      links := ⟨hnext, trivial⟩
      sizes := List.forall_mem_singleton.mpr (congrArg (8 * ·) hunits)
      mapped := List.forall_mem_singleton.mpr (ho.mappedBlock hmapped)
      freep := ⟨_, List.mem_cons_self, rfl⟩ }
    refine ⟨_, [], hinit, ?_, ho.extends, rfl⟩
    exact ⟨ho.grown hg, hlist, fun b hb => absurd hb List.not_mem_nil, .nil,
      fun b hb => absurd hb List.not_mem_nil, fun b hb => absurd hb List.not_mem_nil⟩
  · exact ⟨h, l, if_neg ha.freep_ne, ha, .refl h, rfl⟩

/-- The units of a request. -/
theorem toNat_nunits (nbytes : Word) :
    (nunits nbytes).toNat = (nbytes + 7).toNat / 8 + 1 := by
  have hsum : nbytes + 8 - 1 = nbytes + 7 := by bv_omega
  have hlt := (nbytes + 7).isLt
  have h8 : (8 : Word).toNat = 8 := rfl
  have h1 : (1 : Word).toNat = 1 := rfl
  unfold nunits
  rw [hsum, BitVec.toNat_add, BitVec.toNat_udiv, h8, h1, Nat.mod_eq_of_lt (by omega)]

/-- `malloc` returns, with nothing or with a block of the units asked for. -/
theorem malloc_spec (hr : Ready h base lo live) (room : Word → Bool) {nbytes : Word}
    (hnu : (nunits nbytes).toNat < 2 ^ 28) :
    ∃ p h', Returns (fun fuel => h.malloc (addr base) room fuel nbytes) (p, h') ∧ Extends h h' ∧
      ((p = 0 ∧ Ready h' base lo live ∧ NoRoom h room (8 * grant (nunits nbytes).toNat)) ∨
        ∃ l b, p.toNat = b.addr + 8 ∧ b.len = 8 * (nunits nbytes).toNat ∧
          Arena h' base lo l (b :: live)) := by
  have hpos : 0 < (nunits nbytes).toNat := by
    rw [toNat_nunits]
    omega
  obtain ⟨h₁, l, hinit, ha, he, hsz⟩ := init_spec hr
  obtain ⟨p, h', ⟨n, hloop⟩, he', hres⟩ := mallocLoop_spec ha hpos hnu room
  refine ⟨p, h', ⟨n, fun fuel hfuel => ?_⟩, he.trans he', hres.imp ?_ ?_⟩
  · have hret := hloop fuel hfuel
    rw [addr_toNat] at hret
    unfold Heap.malloc
    simp only [hinit, Option.bind_eq_bind, Option.bind_some, ha.list.ptr_freep]
    exact hret
  · rintro ⟨hp, rfl, hno⟩
    unfold NoRoom at hno ⊢
    exact ⟨hp, .inr ⟨l, ha⟩, hsz ▸ hno⟩
  · rintro ⟨l', b, rfl, hb, ha'⟩
    have hbt := ha'.taken b List.mem_cons_self
    have hend := hbt.mapped.1
    have h8 := hbt.eight
    unfold Block.stop at hend
    exact ⟨l', b, toNat_addr (by omega), hb, ha'⟩

/-! ### Any request

    The size of the process stays below `KERNBASE`, whatever is asked for. -/

theorem store_sz {x v : Word} (hs : h.store x v = some h') : h'.sz = h.sz := by
  unfold Heap.store at hs
  split at hs
  · obtain rfl := Option.some.inj hs
    rfl
  · cases hs

theorem freeUpper_sz {x bp : Word} (hs : h.freeUpper x bp = some h') : h'.sz = h.sz := by
  unfold Heap.freeUpper at hs
  simp only [Option.bind_eq_bind, Option.bind_eq_some_iff] at hs
  obtain ⟨_, -, _, -, hs⟩ := hs
  split at hs
  · simp only [Option.bind_eq_some_iff] at hs
    obtain ⟨_, -, h₁, hset, _, -, _, -, hs⟩ := hs
    exact (store_sz hs).trans (store_sz hset)
  · exact store_sz hs

theorem freeLower_sz {x bp : Word} (hs : h.freeLower x bp = some h') : h'.sz = h.sz := by
  unfold Heap.freeLower at hs
  simp only [Option.bind_eq_bind, Option.bind_eq_some_iff] at hs
  obtain ⟨_, -, hs⟩ := hs
  split at hs
  · simp only [Option.bind_eq_some_iff] at hs
    obtain ⟨_, -, h₁, hset, _, -, hs⟩ := hs
    exact (store_sz hs).trans (store_sz hset)
  · exact store_sz hs

theorem free_sz {ap : Word} (hs : h.free fuel ap = some h') : h'.sz = h.sz := by
  unfold Heap.free at hs
  simp only [Option.bind_eq_bind, Option.bind_eq_some_iff, Option.some.injEq] at hs
  obtain ⟨_, -, h₁, hupper, h₂, hlower, rfl⟩ := hs
  exact (freeLower_sz hlower).trans (freeUpper_sz hupper)

theorem take_sz {x v ap : Word} (hs : h.take x prev v = some (ap, h')) : h'.sz = h.sz := by
  unfold Heap.take at hs
  simp only [Option.bind_eq_bind, Option.bind_eq_some_iff] at hs
  obtain ⟨_, -, hs⟩ := hs
  split at hs
  · simp only [Option.bind_eq_some_iff, Option.some.injEq, Prod.mk.injEq] at hs
    obtain ⟨_, -, h₁, hset, -, rfl⟩ := hs
    have hsz := store_sz hset
    exact hsz
  · simp only [Option.bind_eq_some_iff, Option.some.injEq, Prod.mk.injEq] at hs
    obtain ⟨h₁, hset, _, -, h₂, hset', -, rfl⟩ := hs
    have hsz := (store_sz hset').trans (store_sz hset)
    exact hsz

theorem sbrk_max (hmax : h.sz < KERNBASE) (room : Word → Bool) (x : Word) :
    (h.sbrk room x).2.sz < KERNBASE := by
  have halloc : ∀ newsz, (h.allocuvm room newsz).1 < KERNBASE ∧ (h.allocuvm room newsz).2.sz = h.sz := by
    intro newsz
    unfold Heap.allocuvm
    have hzero : (0 : Word) < KERNBASE := by decide
    split_ifs with hbig
    · exact ⟨hzero, rfl⟩
    · exact ⟨hmax, rfl⟩
    · exact ⟨hzero, rfl⟩
    · exact ⟨BitVec.not_le.mp hbig, rfl⟩
  have hdealloc : ∀ newsz, (h.deallocuvm newsz).1 < KERNBASE ∧ (h.deallocuvm newsz).2.sz = h.sz := by
    intro newsz
    unfold Heap.deallocuvm
    split_ifs with hbig
    · exact ⟨hmax, rfl⟩
    · exact ⟨BitVec.lt_trans (BitVec.not_le.mp hbig) hmax, rfl⟩
  have hgrow : (h.growproc room x).2.sz < KERNBASE := by
    have hsz₁ := halloc (h.sz + x)
    have hsz₂ := hdealloc (h.sz + x)
    unfold Heap.growproc
    dsimp only
    split_ifs
    · exact hsz₁.2.symm ▸ hmax
    · exact hsz₁.1
    · exact hsz₂.2.symm ▸ hmax
    · exact hsz₂.1
    · exact hmax
  unfold Heap.sbrk
  dsimp only
  split <;> rename_i heq <;> rw [heq] at hgrow <;> exact hgrow

theorem morecore_max {x ap : Word} (hmax : h.sz < KERNBASE)
    (hs : h.morecore room fuel x = some (ap, h')) : h'.sz < KERNBASE := by
  unfold Heap.morecore at hs
  generalize (if x < 4096 then 4096 else x) = nu at hs
  have hsbrk := sbrk_max hmax room (nu * 8)
  dsimp only at hs
  split at hs
  · obtain ⟨-, rfl⟩ := Prod.mk.inj (Option.some.inj hs)
    exact hsbrk
  · simp only [Option.bind_eq_bind, Option.bind_eq_some_iff, Option.some.injEq, Prod.mk.injEq] at hs
    obtain ⟨h₁, hset, h₂, hfree, -, rfl⟩ := hs
    rw [free_sz hfree, store_sz hset]
    exact hsbrk

theorem mallocLoop_max {x v ap : Word} (hmax : h.sz < KERNBASE)
    (hs : mallocLoop room x fuel h prev v = some (ap, h')) : h'.sz < KERNBASE := by
  induction fuel generalizing h prev v with
  | zero => cases hs
  | succ fuel ih =>
    rw [mallocLoop] at hs
    simp only [Option.bind_eq_bind, Option.bind_eq_some_iff] at hs
    obtain ⟨_, -, hs⟩ := hs
    split at hs
    · exact take_sz hs ▸ hmax
    · split at hs
      · simp only [Option.bind_eq_some_iff, Prod.exists] at hs
        obtain ⟨q, h₁, hmore, hs⟩ := hs
        have hmax₁ := morecore_max hmax hmore
        split at hs
        · obtain ⟨-, rfl⟩ := Prod.mk.inj (Option.some.inj hs)
          exact hmax₁
        · obtain ⟨_, -, hs⟩ := Option.bind_eq_some_iff.mp hs
          exact ih hmax₁ hs
      · obtain ⟨_, -, hs⟩ := Option.bind_eq_some_iff.mp hs
        exact ih hmax hs

theorem malloc_max {bp nbytes ap : Word} (hmax : h.sz < KERNBASE)
    (hs : h.malloc bp room fuel nbytes = some (ap, h')) : h'.sz < KERNBASE := by
  unfold Heap.malloc at hs
  simp only [Option.bind_eq_bind, Option.bind_eq_some_iff] at hs
  obtain ⟨h₁, hinit, _, -, hloop⟩ := hs
  refine mallocLoop_max ?_ hloop
  unfold Heap.init at hinit
  split at hinit
  · simp only [Option.bind_eq_bind, Option.bind_eq_some_iff, Option.some.injEq] at hinit
    obtain ⟨h₂, hset, h₃, hset', rfl⟩ := hinit
    dsimp only
    rw [store_sz hset', store_sz hset]
    exact hmax
  · obtain rfl := Option.some.inj hinit
    exact hmax

end

end Xv6.Umalloc
