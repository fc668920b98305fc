import Mathlib.Data.Set.Lattice
import Mathlib.Data.List.Pairwise
import Mathlib.Data.List.Basic

/-! @scheme blocks | name:Free lists in address order | family:data-structures

    Free blocks are kept in the order of their addresses with no two adjacent. A block that is given
    back is joined with the one that ends where it begins and with the one that begins where it ends.
    The list hangs together through one field of each block, and the last leads to a block given. -/

namespace Xv6.Schemes.Blocks

/-- The cells from `addr` on. -/
structure Block where
  addr : ℕ
  len : ℕ
  deriving DecidableEq

namespace Block

def stop (b : Block) : ℕ := b.addr + b.len

def cells (b : Block) : Set ℕ := {x | b.addr ≤ x ∧ x < b.stop}

def Apart (a b : Block) : Prop := a.stop ≤ b.addr ∨ b.stop ≤ a.addr

/-- Two blocks, the second after the first. -/
def join (a b : Block) : Block := ⟨a.addr, a.len + b.len⟩

end Block

/-- In order, apart, and with a gap between any two. -/
def Coalesced (l : List Block) : Prop := l.Pairwise fun a b => a.stop < b.addr

/-- The cells of all blocks. -/
def cells (l : List Block) : Set ℕ := {x | ∃ b ∈ l, x ∈ b.cells}

/-- Giving a block back. -/
def insert (b : Block) : List Block → List Block
  | [] => [b]
  | a :: l =>
    if a.stop < b.addr then a :: insert b l
    else if a.stop = b.addr then insert (a.join b) l
    else if b.stop = a.addr then b.join a :: l
    else b :: a :: l

attribute [grind =] insert

/-- One block of the new list is `b` with the block that ends where it begins and the one that begins
    where it ends, if there are such, and the others have stayed. -/
def Joined (b : Block) (l l' : List Block) : Prop :=
  ∃ c ∈ l', (∀ x ∈ l', x = c ∨ x ∈ l) ∧
    (∀ a ∈ l, a.stop ≠ b.addr → b.stop ≠ a.addr → a ∈ l') ∧
    ((c.addr = b.addr ∧ ∀ a ∈ l, a.stop ≠ b.addr) ∨ ∃ a ∈ l, a.stop = b.addr ∧ c.addr = a.addr) ∧
    ((c.stop = b.stop ∧ ∀ a ∈ l, b.stop ≠ a.addr) ∨ ∃ a ∈ l, b.stop = a.addr ∧ c.stop = a.stop)

/-- Each address of the list has the next one in its field, the last one `t`. -/
def Links {α : Type*} (field : α → α) : List α → α → Prop
  | [], _ => True
  | a :: l, t => field a = l.headD t ∧ Links field l t

section

variable {a b c : Block} {l l₁ l₂ : List Block}

/-! ### Giving a block back -/

theorem Block.Apart.symm (h : a.Apart b) : b.Apart a := Or.symm h

theorem coalesced_cons : Coalesced (a :: l) ↔ (∀ b ∈ l, a.stop < b.addr) ∧ Coalesced l :=
  List.pairwise_cons

/-- A block of the list begins where one did before. -/
theorem addr_insert (h : c ∈ insert b l) : c.addr = b.addr ∨ ∃ a ∈ l, c.addr = a.addr := by
  induction l generalizing b with
  | nil =>
    obtain rfl := List.mem_singleton.mp h
    exact .inl rfl
  | cons a l ih =>
    rw [insert] at h
    split_ifs at h with h₁ h₂ h₃
    · rcases List.mem_cons.mp h with rfl | h
      · exact .inr ⟨c, List.mem_cons_self, rfl⟩
      · exact (ih h).imp_right fun ⟨x, hx, hs⟩ => ⟨x, List.mem_cons_of_mem a hx, hs⟩
    · rcases ih h with hs | ⟨x, hx, hs⟩
      · exact .inr ⟨a, List.mem_cons_self, hs⟩
      · exact .inr ⟨x, List.mem_cons_of_mem a hx, hs⟩
    · rcases List.mem_cons.mp h with rfl | h
      · exact .inl rfl
      · exact .inr ⟨c, List.mem_cons_of_mem a h, rfl⟩
    · rcases List.mem_cons.mp h with rfl | h
      · exact .inl rfl
      · exact .inr ⟨c, h, rfl⟩

/-- It ends where one did. -/
theorem stop_insert (h : c ∈ insert b l) : c.stop = b.stop ∨ ∃ a ∈ l, c.stop = a.stop := by
  induction l generalizing b with
  | nil =>
    obtain rfl := List.mem_singleton.mp h
    exact .inl rfl
  | cons a l ih =>
    rw [insert] at h
    split_ifs at h with h₁ h₂ h₃
    · rcases List.mem_cons.mp h with rfl | h
      · exact .inr ⟨c, List.mem_cons_self, rfl⟩
      · exact (ih h).imp_right fun ⟨x, hx, hs⟩ => ⟨x, List.mem_cons_of_mem a hx, hs⟩
    · have hjoin : (a.join b).stop = b.stop := by
        unfold Block.stop at h₂ ⊢
        dsimp only [Block.join]
        omega
      rcases ih h with hs | ⟨x, hx, hs⟩
      · exact .inl (hs.trans hjoin)
      · exact .inr ⟨x, List.mem_cons_of_mem a hx, hs⟩
    · have hjoin : (b.join a).stop = a.stop := by
        unfold Block.stop at h₃ ⊢
        dsimp only [Block.join]
        omega
      rcases List.mem_cons.mp h with rfl | h
      · exact .inr ⟨a, List.mem_cons_self, hjoin⟩
      · exact .inr ⟨c, List.mem_cons_of_mem a h, rfl⟩
    · rcases List.mem_cons.mp h with rfl | h
      · exact .inl rfl
      · exact .inr ⟨c, h, rfl⟩

/-- No block becomes shorter. -/
theorem len_insert {n : ℕ} (hb : n ≤ b.len) (hl : ∀ a ∈ l, n ≤ a.len) (h : c ∈ insert b l) :
    n ≤ c.len := by
  induction l generalizing b with
  | nil =>
    obtain rfl := List.mem_singleton.mp h
    exact hb
  | cons a l ih =>
    obtain ⟨ha, hl'⟩ := List.forall_mem_cons.mp hl
    rw [insert] at h
    split_ifs at h with h₁ h₂ h₃
    · rcases List.mem_cons.mp h with rfl | h
      · exact ha
      · exact ih hb hl' h
    · exact ih (ha.trans (Nat.le_add_right _ _)) hl' h
    · rcases List.mem_cons.mp h with rfl | h
      · exact hb.trans (Nat.le_add_right _ _)
      · exact hl' c h
    · rcases List.mem_cons.mp h with rfl | h
      · exact hb
      · exact hl c h

/-- The list stays in order. -/
theorem Coalesced.insert (h : Coalesced l) (hb : ∀ a ∈ l, a.Apart b) : Coalesced (insert b l) := by
  induction l generalizing b with
  | nil => exact List.pairwise_singleton _ b
  | cons a l ih =>
    obtain ⟨ha, hl⟩ := coalesced_cons.mp h
    have hab := hb a List.mem_cons_self
    have hbl : ∀ x ∈ l, x.Apart b := fun x hx => hb x (List.mem_cons_of_mem a hx)
    unfold Block.Apart Block.stop at hab
    unfold Block.stop at ha
    rw [Blocks.insert]
    split_ifs with h₁ h₂ h₃
    · refine coalesced_cons.mpr ⟨fun x hx => ?_, ih hl hbl⟩
      rcases addr_insert hx with hx | ⟨y, hy, hx⟩
      · rw [hx]
        exact h₁
      · rw [hx]
        exact ha y hy
    · refine ih hl fun x hx => ?_
      have hx₁ := ha x hx
      have hx₂ := hbl x hx
      unfold Block.Apart Block.stop at hx₂ ⊢
      unfold Block.stop at h₂
      dsimp only [Block.join]
      omega
    · refine coalesced_cons.mpr ⟨fun x hx => ?_, hl⟩
      have hx₁ := ha x hx
      unfold Block.stop at h₃ ⊢
      dsimp only [Block.join]
      omega
    · have hlt : b.stop < a.addr := by
        unfold Block.stop at h₁ h₂ h₃ ⊢
        omega
      refine coalesced_cons.mpr ⟨fun x hx => ?_, h⟩
      rcases List.mem_cons.mp hx with rfl | hx
      · exact hlt
      · have hx₁ := ha x hx
        omega

theorem cells_cons : cells (a :: l) = a.cells ∪ cells l := by
  ext x
  simp only [cells, Set.mem_ofPred_eq, List.mem_cons, exists_eq_or_imp, Set.mem_union]

theorem cells_join (h : a.stop = b.addr) : (a.join b).cells = a.cells ∪ b.cells := by
  ext x
  unfold Block.stop at h
  unfold Block.cells Block.join Block.stop
  simp only [Set.mem_ofPred_eq, Set.mem_union]
  omega

/-- Its cells are added. -/
theorem cells_insert (b : Block) (l : List Block) : cells (insert b l) = b.cells ∪ cells l := by
  induction l generalizing b with
  | nil => exact cells_cons
  | cons a l ih =>
    rw [insert]
    split_ifs with h₁ h₂ h₃
    · rw [cells_cons, ih, cells_cons, Set.union_left_comm]
    · rw [ih, cells_join h₂, cells_cons, Set.union_left_comm, Set.union_assoc]
    · rw [cells_cons, cells_join h₃, cells_cons, Set.union_assoc]
    · exact cells_cons

theorem length_insert (b : Block) (l : List Block) : (insert b l).length ≤ l.length + 1 := by
  induction l generalizing b with
  | nil => exact le_rfl
  | cons a l ih =>
    have hjoin := ih (a.join b)
    have hb := ih b
    rw [insert]
    split_ifs
    all_goals simp only [List.length_cons]
    all_goals omega

/-- What is apart from all of them is apart from what they are joined to. -/
theorem apart_insert (hb : b.Apart c) (hl : ∀ a ∈ l, a.Apart c) (hc : 0 < c.len) :
    ∀ a ∈ insert b l, a.Apart c := by
  induction l generalizing b with
  | nil => exact List.forall_mem_singleton.mpr hb
  | cons a l ih =>
    obtain ⟨ha, hl'⟩ := List.forall_mem_cons.mp hl
    have hjoin : ∀ x y : Block, x.Apart c → y.Apart c → x.stop = y.addr → (x.join y).Apart c := by
      intro x y hx hy hxy
      unfold Block.Apart Block.stop at hx hy ⊢
      unfold Block.stop at hxy
      dsimp only [Block.join]
      omega
    rw [insert]
    split_ifs with h₁ h₂ h₃
    · exact List.forall_mem_cons.mpr ⟨ha, ih hb hl'⟩
    · exact ih (hjoin a b ha hb h₂) hl'
    · exact List.forall_mem_cons.mpr ⟨hjoin b a hb ha h₃, hl'⟩
    · exact List.forall_mem_cons.mpr ⟨hb, hl⟩

/-- The block is part of one of the list. -/
theorem exists_insert (b : Block) (l : List Block) : ∃ c ∈ insert b l, b.len ≤ c.len := by
  induction l generalizing b with
  | nil => exact ⟨b, List.mem_cons_self, le_rfl⟩
  | cons a l ih =>
    rw [insert]
    split_ifs with h₁ h₂ h₃
    · obtain ⟨c, hc, hle⟩ := ih b
      exact ⟨c, List.mem_cons_of_mem a hc, hle⟩
    · obtain ⟨c, hc, hle⟩ := ih (a.join b)
      exact ⟨c, hc, (Nat.le_add_left b.len a.len).trans hle⟩
    · exact ⟨_, List.mem_cons_self, Nat.le_add_right _ _⟩
    · exact ⟨b, List.mem_cons_self, le_rfl⟩

/-- What is joined. -/
theorem joined_insert (h : Coalesced l) (hb : ∀ a ∈ l, a.Apart b) (hpos : 0 < b.len) :
    Joined b l (insert b l) := by
  induction l generalizing b with
  | nil =>
    refine ⟨b, List.mem_cons_self, fun x hx => .inl (List.mem_singleton.mp hx),
      fun a ha => absurd ha List.not_mem_nil, .inl ⟨rfl, fun a ha => absurd ha List.not_mem_nil⟩,
      .inl ⟨rfl, fun a ha => absurd ha List.not_mem_nil⟩⟩
  | cons a l ih =>
    obtain ⟨ha, hl⟩ := coalesced_cons.mp h
    obtain ⟨hab, hbl⟩ := List.forall_mem_cons.mp hb
    unfold Block.Apart at hab
    have hstop : b.stop = b.addr + b.len := rfl
    have hastop : a.stop = a.addr + a.len := rfl
    rw [insert]
    split_ifs with h₁ h₂ h₃
    · -- after the first block
      obtain ⟨c, hc, honly, hothers, hlo, hhi⟩ := ih hl hbl hpos
      refine ⟨c, List.mem_cons_of_mem a hc, fun x hx => ?_, fun x hx h₁ h₂ => ?_, ?_, ?_⟩
      · rcases List.mem_cons.mp hx with rfl | hx
        · exact .inr List.mem_cons_self
        · exact (honly x hx).imp_right (List.mem_cons_of_mem a)
      · rcases List.mem_cons.mp hx with rfl | hx
        · exact List.mem_cons_self
        · exact List.mem_cons_of_mem a (hothers x hx h₁ h₂)
      · rcases hlo with ⟨he, hno⟩ | ⟨x, hx, he⟩
        · exact .inl ⟨he, List.forall_mem_cons.mpr ⟨by omega, hno⟩⟩
        · exact .inr ⟨x, List.mem_cons_of_mem a hx, he⟩
      · rcases hhi with ⟨he, hno⟩ | ⟨x, hx, he⟩
        · exact .inl ⟨he, List.forall_mem_cons.mpr ⟨by omega, hno⟩⟩
        · exact .inr ⟨x, List.mem_cons_of_mem a hx, he⟩
    · -- joined with the first block
      have hjstop : (a.join b).stop = b.stop := by
        change a.addr + (a.len + b.len) = b.stop
        omega
      have hjaddr : (a.join b).addr = a.addr := rfl
      have hjapart : ∀ x ∈ l, x.Apart (a.join b) := by
        intro x hx
        have hx₁ := ha x hx
        have hx₂ := hbl x hx
        have hxstop : x.stop = x.addr + x.len := rfl
        unfold Block.Apart at hx₂ ⊢
        omega
      have hno : ∀ x ∈ l, x.stop ≠ a.addr := by
        intro x hx
        have hx₁ := ha x hx
        have hxstop : x.stop = x.addr + x.len := rfl
        omega
      obtain ⟨c, hc, honly, hothers, hlo, hhi⟩ := ih hl hjapart (hpos.trans_le (Nat.le_add_left _ _))
      rw [hjaddr] at hlo
      rw [hjstop] at hhi
      refine ⟨c, hc, fun x hx => (honly x hx).imp_right (List.mem_cons_of_mem a), fun x hx hne h₃ => ?_,
        .inr ⟨a, List.mem_cons_self, h₂, ?_⟩, ?_⟩
      · rcases List.mem_cons.mp hx with rfl | hx
        · exact absurd h₂ hne
        · exact hothers x hx (hno x hx) (hjstop ▸ h₃)
      · rcases hlo with ⟨he, -⟩ | ⟨x, hx, he, -⟩
        · exact he
        · exact absurd he (hno x hx)
      · rcases hhi with ⟨he, hno⟩ | ⟨x, hx, he⟩
        · exact .inl ⟨he, List.forall_mem_cons.mpr ⟨by omega, hno⟩⟩
        · exact .inr ⟨x, List.mem_cons_of_mem a hx, he⟩
    · -- the first block is joined
      have hno : ∀ x ∈ a :: l, x.stop ≠ b.addr := by
        intro x hx
        have hxstop : x.stop = x.addr + x.len := rfl
        rcases List.mem_cons.mp hx with rfl | hx
        · omega
        · have := ha x hx
          omega
      refine ⟨b.join a, List.mem_cons_self, fun x hx => ?_, fun x hx _ h₄ => ?_, .inl ⟨rfl, hno⟩,
        .inr ⟨a, List.mem_cons_self, h₃, ?_⟩⟩
      · exact (List.mem_cons.mp hx).imp_right (List.mem_cons_of_mem a)
      · rcases List.mem_cons.mp hx with rfl | hx
        · exact absurd h₃ h₄
        · exact List.mem_cons_of_mem _ hx
      · change b.addr + (b.len + a.len) = a.stop
        omega
    · -- apart from all
      have hafter : ∀ x ∈ a :: l, x.stop ≠ b.addr ∧ b.stop ≠ x.addr := by
        intro x hx
        have hxstop : x.stop = x.addr + x.len := rfl
        rcases List.mem_cons.mp hx with rfl | hx
        · omega
        · have := ha x hx
          omega
      exact ⟨b, List.mem_cons_self, fun x hx => List.mem_cons.mp hx,
        fun x hx _ _ => List.mem_cons_of_mem b hx, .inl ⟨rfl, fun x hx => (hafter x hx).1⟩,
        .inl ⟨rfl, fun x hx => (hafter x hx).2⟩⟩

/-- The blocks before it stay. -/
theorem insert_append (h : ∀ a ∈ l₁, a.stop < b.addr) : insert b (l₁ ++ l₂) = l₁ ++ insert b l₂ := by
  induction l₁ with
  | nil => rfl
  | cons a l₁ ih =>
    obtain ⟨ha, hl⟩ := List.forall_mem_cons.mp h
    rw [List.cons_append, insert, if_pos ha, ih hl, List.cons_append]

/-- The block after it is joined if it is adjacent. -/
theorem insert_after (h : b.addr < a.addr) :
    insert b (a :: l) = if b.stop = a.addr then b.join a :: l else b :: a :: l := by
  have h₁ : ¬ a.stop < b.addr := by
    unfold Block.stop
    omega
  have h₂ : ¬ a.stop = b.addr := by
    unfold Block.stop
    omega
  rw [insert, if_neg h₁, if_neg h₂]

/-- The block before it is joined if it is adjacent. -/
theorem insert_before (h : a.stop ≤ b.addr) :
    insert b (a :: l) = if a.stop = b.addr then insert (a.join b) l else a :: insert b l := by
  by_cases h₂ : a.stop = b.addr
  · rw [insert, if_neg (by omega), if_pos h₂, if_pos h₂]
  · rw [insert, if_pos (by omega), if_neg h₂]

/-- In front of all others the block comes first. -/
theorem insert_first (h : ∀ a ∈ l, b.addr < a.addr) :
    ∃ c r, insert b l = c :: r ∧ c.addr = b.addr ∧ ∀ x ∈ r, x ∈ l := by
  cases l with
  | nil => exact ⟨b, [], rfl, rfl, fun _ hx => hx⟩
  | cons a l =>
    rw [insert_after (h a List.mem_cons_self)]
    by_cases hb : b.stop = a.addr
    · rw [if_pos hb]
      exact ⟨b.join a, l, rfl, rfl, fun x hx => List.mem_cons_of_mem a hx⟩
    · rw [if_neg hb]
      exact ⟨b, a :: l, rfl, rfl, fun _ hx => hx⟩

/-- Joining with both neighbours. -/
theorem insert_join {r : List Block} (hp : a.stop = b.addr) (hl : ∀ x ∈ l, b.addr < x.addr)
    (h : insert b l = c :: r) : insert (a.join b) l = a.join c :: r := by
  cases l with
  | nil =>
    obtain ⟨rfl, rfl⟩ := List.cons.inj h
    rfl
  | cons x l =>
    have hx := hl x List.mem_cons_self
    have hax : (a.join b).addr < x.addr := by
      unfold Block.stop at hp
      dsimp only [Block.join]
      omega
    have hstop : (a.join b).stop = b.stop := by
      unfold Block.stop at hp ⊢
      dsimp only [Block.join]
      omega
    rw [insert_after hx] at h
    rw [insert_after hax, hstop]
    by_cases hb : b.stop = x.addr
    · rw [if_pos hb] at h ⊢
      obtain ⟨rfl, rfl⟩ := List.cons.inj h
      rw [Block.join, Block.join, Block.join, Block.join, Nat.add_assoc]
    · rw [if_neg hb] at h ⊢
      obtain ⟨rfl, rfl⟩ := List.cons.inj h
      rfl

/-- The block before an address. -/
theorem exists_before (n : ℕ) (h : a.addr < n) : ∃ l₁ p l₂, a :: l = l₁ ++ p :: l₂ ∧ p.addr < n ∧
    (Coalesced (a :: l) → ∀ x ∈ l₂, n ≤ x.addr) := by
  induction l generalizing a with
  | nil => exact ⟨[], a, [], rfl, h, fun _ _ hx => absurd hx List.not_mem_nil⟩
  | cons c l ih =>
    by_cases hc : c.addr < n
    · obtain ⟨l₁, p, l₂, heq, hp, hafter⟩ := ih hc
      exact ⟨a :: l₁, p, l₂, congrArg (a :: ·) heq, hp,
        fun hco => hafter (coalesced_cons.mp hco).2⟩
    · refine ⟨[], a, c :: l, rfl, h, fun hco x hx => ?_⟩
      rcases List.mem_cons.mp hx with rfl | hx
      · exact not_lt.mp hc
      · have hlt := (coalesced_cons.mp (coalesced_cons.mp hco).2).1 x hx
        unfold Block.stop at hlt
        omega

/-! ### Taking a block -/

theorem coalesced_append : Coalesced (l₁ ++ a :: l₂) ↔
    (∀ x ∈ l₁, x.stop < a.addr) ∧ (∀ x ∈ l₂, a.stop < x.addr) ∧ Coalesced (l₁ ++ l₂) := by
  unfold Coalesced
  rw [List.pairwise_append, List.pairwise_append, List.pairwise_cons]
  constructor
  · rintro ⟨h₁, ⟨ha, h₂⟩, hcross⟩
    exact ⟨fun x hx => hcross x hx a List.mem_cons_self, ha, h₁, h₂,
      fun x hx y hy => hcross x hx y (List.mem_cons_of_mem a hy)⟩
  · rintro ⟨hbefore, ha, h₁, h₂, hcross⟩
    refine ⟨h₁, ⟨ha, h₂⟩, fun x hx y hy => ?_⟩
    rcases List.mem_cons.mp hy with rfl | hy
    · exact hbefore x hx
    · exact hcross x hx y hy

/-- A block may become shorter. -/
theorem Coalesced.shorten (h : Coalesced (l₁ ++ a :: l₂)) (haddr : b.addr = a.addr)
    (hlen : b.len ≤ a.len) : Coalesced (l₁ ++ b :: l₂) := by
  obtain ⟨hbefore, hafter, hrest⟩ := coalesced_append.mp h
  refine coalesced_append.mpr ⟨fun x hx => haddr ▸ hbefore x hx, fun x hx => ?_, hrest⟩
  have hx' := hafter x hx
  unfold Block.stop at hx' ⊢
  omega

/-- An address is that of one block only. -/
theorem Coalesced.addr_inj (h : Coalesced l) (ha : a ∈ l) (hb : b ∈ l) (hab : a.addr = b.addr) :
    a = b := by
  obtain ⟨l₁, l₂, rfl⟩ := List.append_of_mem ha
  obtain ⟨hbefore, hafter, -⟩ := coalesced_append.mp h
  rcases List.mem_append.mp hb with hb | hb
  · have hlt := hbefore b hb
    unfold Block.stop at hlt
    omega
  · rcases List.mem_cons.mp hb with rfl | hb
    · rfl
    · have hlt := hafter b hb
      unfold Block.stop at hlt
      omega

/-! ### The fields -/

variable {α : Type*} {field field' : α → α} {x t : α} {k k₁ k₂ : List α}

theorem links_append : Links field (k₁ ++ k₂) t ↔ Links field k₁ (k₂.headD t) ∧ Links field k₂ t := by
  induction k₁ with
  | nil => exact (and_iff_right trivial).symm
  | cons a k₁ ih =>
    have hhead : (k₁ ++ k₂).headD t = k₁.headD (k₂.headD t) := by
      cases k₁ <;> rfl
    rw [List.cons_append, Links, Links, ih, hhead, and_assoc]

/-- Around a ring from any place. -/
theorem Links.rotate (h : Links field (k₁ ++ x :: k₂) (k₁.headD x)) :
    Links field (x :: k₂ ++ k₁) x :=
  links_append.mpr (links_append.mp h).symm

/-- Only the fields of the list matter. -/
theorem Links.congr (h : Links field k t) (hf : ∀ x ∈ k, field' x = field x) :
    Links field' k t := by
  induction k with
  | nil => trivial
  | cons a k ih =>
    obtain ⟨ha, hk⟩ := List.forall_mem_cons.mp hf
    exact ⟨ha.trans h.1, ih h.2 hk⟩

end

end Xv6.Schemes.Blocks
