import Mathlib.Data.List.Chain
import Mathlib.Data.List.Nodup
import Mathlib.Logic.Function.Basic

/-! @scheme circular | name:Circular doubly linked lists | family:pointers

    Nodes with a `next` and a `prev` pointer, in a ring through a head. A node is taken out by
    redirecting its two neighbours to each other, and put in right after the head. A walk along one
    of the pointers from the head is a search in the list or in its reverse. -/

namespace Xv6.Schemes

/-- The two pointers of each node. -/
structure Links (N : Type*) where
  next : N → N
  prev : N → N

namespace Links

variable {N : Type*}

/-- `b` comes right after `a`. -/
def Adjacent (k : Links N) (a b : N) : Prop := k.next a = b ∧ k.prev b = a

/-- From the head `h` round to it again are the nodes of `l`, each once. -/
structure Circular (k : Links N) (h : N) (l : List N) : Prop where
  nodup : (h :: l).Nodup
  chain : List.IsChain k.Adjacent (h :: l ++ [h])

section

variable [DecidableEq N]

/-- The neighbours of `x` are redirected to each other. -/
def unlink (k : Links N) (x : N) : Links N :=
  let k := { k with prev := Function.update k.prev (k.next x) (k.prev x) }
  { k with next := Function.update k.next (k.prev x) (k.next x) }

/-- `x` goes in after the head. -/
def insert (k : Links N) (h x : N) : Links N :=
  let k := { k with next := Function.update k.next x (k.next h) }
  let k := { k with prev := Function.update k.prev x h }
  let k := { k with prev := Function.update k.prev (k.next h) x }
  { k with next := Function.update k.next h x }

/-- A walk along `step` up to the head, for a node with the property. -/
def walk (step : N → N) (h : N) (p : N → Bool) : ℕ → N → Option N
  | 0, _ => none
  | n + 1, a => if a = h then none else if p a then some a else walk step h p n (step a)

end

variable {k k' : Links N} {h x : N} {l a b : List N}

/-- A chain with what holds of its consecutive nodes: the first is not the last node of all, and
    the second not the first. -/
theorem chain_imp {R S : N → N → Prop} {c : List N} {z : N} (hc : List.IsChain R (c ++ [z]))
    (himp : ∀ a ∈ c, ∀ b ∈ (c ++ [z]).tail, R a b → S a b) : List.IsChain S (c ++ [z]) := by
  induction c with
  | nil => exact List.IsChain.singleton z
  | cons a c ih =>
    cases c with
    | nil =>
      rw [List.singleton_append, List.isChain_pair] at hc ⊢
      exact himp a List.mem_cons_self z List.mem_cons_self hc
    | cons b c =>
      rw [List.cons_append, List.cons_append, List.isChain_cons_cons] at hc ⊢
      refine ⟨himp a List.mem_cons_self b List.mem_cons_self hc.1, ih hc.2 ?_⟩
      intro u hu v hv
      exact himp u (List.mem_cons_of_mem a hu) v (List.mem_cons_of_mem b hv)

/-- The search that a walk is. -/
theorem walk_eq [DecidableEq N] {R : N → N → Prop} {step : N → N} (hR : ∀ a b, R a b → step a = b)
    (p : N → Bool) (hc : List.IsChain R (l ++ [h])) (hh : h ∉ l) {x : N}
    (hx : (l ++ [h]).head? = some x) : walk step h p (l.length + 1) x = l.find? p := by
  induction l generalizing x with
  | nil =>
    obtain rfl : h = x := by simpa using hx
    simp [walk]
  | cons a l ih =>
    obtain rfl : a = x := by simpa using hx
    have hne : a ≠ h := by
      rintro rfl
      exact hh List.mem_cons_self
    have hrest : walk step h p (l.length + 1) (step a) = l.find? p := by
      cases l with
      | nil =>
        rw [List.singleton_append, List.isChain_pair] at hc
        exact ih (List.IsChain.singleton h) List.not_mem_nil (by simp [hR a h hc])
      | cons b l =>
        rw [List.cons_append, List.cons_append, List.isChain_cons_cons] at hc
        exact ih hc.2 (fun hm => hh (List.mem_cons_of_mem a hm)) (by simp [hR a b hc.1])
    rw [List.length_cons, walk, if_neg hne, List.find?_cons, hrest]
    cases p a <;> rfl

/-- Walking along `next` from the head. -/
theorem Circular.walk_next [DecidableEq N] (hk : k.Circular h l) (p : N → Bool) :
    walk k.next h p (l.length + 1) (k.next h) = l.find? p := by
  have hc := hk.chain
  refine walk_eq (fun a b hab => hab.1) p hc.tail (List.nodup_cons.mp hk.nodup).1 ?_
  cases l with
  | nil =>
    rw [List.singleton_append, List.isChain_pair] at hc
    simp [hc.1]
  | cons a l =>
    rw [List.cons_append, List.cons_append, List.isChain_cons_cons] at hc
    simp [hc.1.1]

/-- Walking along `prev` from the head. -/
theorem Circular.walk_prev [DecidableEq N] (hk : k.Circular h l) (p : N → Bool) :
    walk k.prev h p (l.length + 1) (k.prev h) = l.reverse.find? p := by
  have hc : List.IsChain (fun a b => k.Adjacent b a) (h :: l.reverse ++ [h]) := by
    have hr := List.isChain_reverse.mpr hk.chain
    simpa using hr
  rw [← List.length_reverse]
  refine walk_eq (R := fun a b => k.Adjacent b a) (fun a b hab => hab.2) p hc.tail ?_ ?_
  · rw [List.mem_reverse]
    exact (List.nodup_cons.mp hk.nodup).1
  · cases hl : l.reverse with
    | nil =>
      rw [hl, List.singleton_append, List.isChain_pair] at hc
      simp [hc.2]
    | cons a m =>
      rw [hl, List.cons_append, List.cons_append, List.isChain_cons_cons] at hc
      simp [hc.1.2]

variable [DecidableEq N]

theorem Circular.unlink (hk : k.Circular h (a ++ x :: b)) : (k.unlink x).Circular h (a ++ b) := by
  have hnodup : (h :: (a ++ b)).Nodup := by
    have := hk.nodup
    simp only [List.nodup_cons, List.nodup_append, List.mem_append, List.mem_cons] at this ⊢
    grind
  refine ⟨hnodup, ?_⟩
  -- The neighbours `p` and `n` may both be the head.
  obtain ⟨a', p, ha⟩ : ∃ a' p, h :: a = a' ++ [p] :=
    ⟨_, _, (List.dropLast_append_getLast (List.cons_ne_nil h a)).symm⟩
  obtain ⟨n, b', hb⟩ : ∃ n b', b ++ [h] = n :: b' := List.exists_cons_of_ne_nil (by simp)
  have hc := hk.chain
  have hshape : h :: (a ++ x :: b) ++ [h] = a' ++ p :: x :: n :: b' := by
    rw [← List.cons_append, ha]
    simp [hb]
  have hgoal : h :: (a ++ b) ++ [h] = a' ++ p :: n :: b' := by
    rw [← List.cons_append, ha]
    simp [hb]
  rw [hshape, List.isChain_append_cons_cons, List.isChain_cons_cons] at hc
  obtain ⟨hleft, hpx, hxn, hright⟩ := hc
  have hp : p ∈ h :: a := by simp [ha]
  have hn : n ∈ b ++ [h] := by simp [hb]
  have hdis := hk.nodup
  simp only [List.nodup_cons, List.nodup_append, List.mem_append, List.mem_cons] at hdis
  have hne : x ≠ n := by
    rintro rfl
    simp only [List.mem_append, List.mem_singleton] at hn
    grind
  have hnext : ∀ y, y ≠ p → (k.unlink x).next y = k.next y := by
    intro y hy
    simp [Links.unlink, hpx.2, hxn.1, hne, hy]
  have hprev : ∀ y, y ≠ n → (k.unlink x).prev y = k.prev y := by
    intro y hy
    simp [Links.unlink, hxn.1, hy]
  rw [hgoal, List.isChain_append_cons_cons]
  refine ⟨chain_imp hleft ?_, ?_, ?_⟩
  · intro u hu v hv huv
    rw [← ha, List.tail_cons] at hv
    have hup : u ≠ p := by
      have hd : (a' ++ [p]).Nodup := ha ▸ (List.nodup_cons.mpr ⟨by tauto, hdis.2.1⟩)
      rintro rfl
      simp [List.nodup_append] at hd
      exact hd.2 u hu rfl
    have hvn : v ≠ n := by
      rintro rfl
      simp only [List.mem_append, List.mem_singleton] at hn
      grind
    exact ⟨(hnext u hup).trans huv.1, (hprev v hvn).trans huv.2⟩
  · constructor
    · simp [Links.unlink, hpx.2, hxn.1, hne]
    · simp [Links.unlink, hpx.2, hxn.1]
  · rw [← hb] at hright ⊢
    refine chain_imp hright ?_
    intro u hu v hv huv
    rw [hb, List.tail_cons] at hv
    have hup : u ≠ p := by
      rintro rfl
      simp only [List.mem_cons] at hp
      grind
    have hvn : v ≠ n := by
      have hd : (n :: b').Nodup := by
        rw [← hb, List.nodup_append]
        grind
      rintro rfl
      exact (List.nodup_cons.mp hd).1 hv
    exact ⟨(hnext u hup).trans huv.1, (hprev v hvn).trans huv.2⟩

theorem Circular.insert (hk : k.Circular h l) (hx : x ∉ h :: l) :
    (k.insert h x).Circular h (x :: l) := by
  have hxh : x ≠ h := by
    rintro rfl
    exact hx List.mem_cons_self
  have hnodup : (h :: x :: l).Nodup := by
    have := hk.nodup
    simp only [List.nodup_cons, List.mem_cons] at this hx ⊢
    grind
  refine ⟨hnodup, ?_⟩
  obtain ⟨n, m, hl⟩ : ∃ n m, l ++ [h] = n :: m := List.exists_cons_of_ne_nil (by simp)
  have hc := hk.chain
  rw [List.cons_append, hl, List.isChain_cons_cons] at hc
  have hn : n ∈ l ++ [h] := by simp [hl]
  have hxn : x ≠ n := by
    rintro rfl
    simp only [List.mem_append, List.mem_singleton] at hn
    grind
  rw [List.cons_append, List.cons_append, hl, List.isChain_cons_cons, List.isChain_cons_cons]
  refine ⟨⟨?_, ?_⟩, ⟨?_, ?_⟩, ?_⟩
  · simp [Links.insert]
  · simp [Links.insert, hxh.symm, hc.1.1, hxn]
  · simp [Links.insert, hxh, hc.1.1]
  · simp [Links.insert, hxh.symm, hc.1.1]
  · have hright := hc.2
    rw [← hl] at hright ⊢
    refine chain_imp hright ?_
    intro u hu v hv huv
    rw [hl, List.tail_cons] at hv
    have huh : u ≠ h := by
      rintro rfl
      exact (List.nodup_cons.mp hk.nodup).1 hu
    have hux : u ≠ x := by
      rintro rfl
      exact hx (List.mem_cons_of_mem h hu)
    have hd : (n :: m).Nodup := by
      have := hk.nodup
      rw [← hl, List.nodup_append]
      simp only [List.nodup_cons] at this
      grind
    have hvn : v ≠ n := by
      rintro rfl
      exact (List.nodup_cons.mp hd).1 hv
    have hvx : v ≠ x := by
      rintro rfl
      have hm : v ∈ l ++ [h] := by
        rw [hl]
        exact List.mem_cons_of_mem n hv
      simp only [List.mem_append, List.mem_singleton] at hm
      grind
    constructor
    · simp [Links.insert, huh, hux, huv.1]
    · simp [Links.insert, hxh.symm, hc.1.1, hvn, hvx, huv.2]

end Links

end Xv6.Schemes
