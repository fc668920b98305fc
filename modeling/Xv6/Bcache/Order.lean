import Xv6.Bcache.Cache
import Mathlib.Data.Fintype.Card

/-! @src bio.c | name:The list of buffers is a ring in order of release | layer:proof

    The pointers always make a ring through `bcache.head` with each buffer once. From the head on,
    the buffers without references come in the order of their last release, so the one that `bget`
    finds from the other end was released the longest ago. -/

namespace Xv6.Bcache

open Xv6.Disk Xv6.Schemes

variable {τ : Type} {s t : Sys τ} {l : List Ptr} {b c : Ptr}

/-- The buffers from the head on are the ones of `l`. -/
def Ring (k : Links Node) (l : List Ptr) : Prop := k.Circular none (l.map some) ∧ ∀ b, b ∈ l

theorem Ring.nodup {k : Links Node} (h : Ring k l) : l.Nodup := by
  have := (List.nodup_cons.mp h.1.nodup).2
  exact this.of_map some

theorem Ring.length {k : Links Node} (h : Ring k l) : l.length = NBUF := by
  have := List.toFinset_card_of_nodup h.nodup
  rw [← this, Finset.eq_univ_of_forall (s := l.toFinset) fun b => List.mem_toFinset.mpr (h.2 b)]
  exact Fintype.card_fin NBUF

theorem ring_insert {k : Links Node} {l : List Ptr} (bs : List Ptr) (hk : k.Circular none (l.map some))
    (hd : (bs.reverse ++ l).Nodup) :
    (bs.foldl (fun k b => k.insert none (some b)) k).Circular none ((bs.reverse ++ l).map some) := by
  induction bs generalizing k l with
  | nil => exact hk
  | cons b bs ih =>
    have hb : b ∉ l := by
      simp only [List.reverse_cons, List.append_assoc, List.singleton_append, List.nodup_append,
        List.nodup_cons] at hd
      exact hd.2.1.1
    rw [List.reverse_cons, List.append_assoc, List.singleton_append] at hd ⊢
    refine ih ?_ hd
    exact hk.insert (by simpa using hb)

/-- `binit` makes a ring. -/
theorem ring_init : Ring initLinks (List.finRange NBUF).reverse := by
  have hempty : (⟨fun _ => none, fun _ => none⟩ : Links Node).Circular none (([] : List Ptr).map some) :=
    ⟨List.nodup_singleton _, List.isChain_pair.mpr ⟨rfl, rfl⟩⟩
  have := ring_insert (List.finRange NBUF) hempty (by simp [List.nodup_finRange])
  rw [List.append_nil] at this
  exact ⟨this, fun b => by simp⟩

/-- A buffer is moved to the head. -/
theorem Ring.front {k : Links Node} (h : Ring k l) (b : Ptr) :
    Ring ((k.unlink (some b)).insert none (some b)) (b :: l.erase b) := by
  obtain ⟨u, v, hl⟩ := List.append_of_mem (h.2 b)
  have hd := h.nodup
  have hcirc := h.1
  rw [hl, List.map_append, List.map_cons] at hcirc
  have herase : l.erase b = u ++ v := by
    rw [hl] at hd ⊢
    rw [List.erase_append_right _ (fun hm => by simp [List.nodup_append] at hd; exact hd.2.2 b hm |>.1 rfl)]
    simp
  rw [herase]
  refine ⟨?_, fun c => ?_⟩
  · have hun := hcirc.unlink
    rw [← List.map_append] at hun
    refine hun.insert ?_
    rw [hl] at hd
    simp [List.nodup_append] at hd ⊢
    grind
  · have := h.2 c
    rw [hl] at this
    simp at this ⊢
    tauto

theorem find_some (p : Ptr → Prop) [DecidablePred p] (l : List Ptr) :
    ((l.map some).find? fun n => n.any fun b => p b).join = l.find? fun b => p b := by
  induction l with
  | nil => rfl
  | cons b l ih =>
    rw [List.map_cons, List.find?_cons, List.find?_cons]
    by_cases hb : p b
    · simp [hb]
    · simpa [hb] using ih

/-- The first loop of `bget` finds the first buffer of the block. -/
theorem Ring.cached (h : Ring s.links l) (dev blockno : ℕ) : s.cached dev blockno =
    l.find? fun b => (s.buf b).dev = dev ∧ (s.buf b).blockno = blockno := by
  have := h.1.walk_next fun n => n.any fun b => (s.buf b).dev = dev ∧ (s.buf b).blockno = blockno
  rw [List.length_map, h.length] at this
  unfold Sys.cached
  rw [this]
  exact find_some (fun b => (s.buf b).dev = dev ∧ (s.buf b).blockno = blockno) l

/-- The second loop of `bget` finds the last unused buffer. -/
theorem Ring.unused (h : Ring s.links l) :
    s.unused = l.reverse.find? fun b => (s.buf b).refcnt = 0 ∧ (s.buf b).dirty = false := by
  have := h.1.walk_prev fun n => n.any fun b => (s.buf b).refcnt = 0 ∧ (s.buf b).dirty = false
  rw [List.length_map, h.length, ← List.map_reverse] at this
  unfold Sys.unused
  rw [this]
  exact find_some (fun b => (s.buf b).refcnt = 0 ∧ (s.buf b).dirty = false) l.reverse

/-! ### The order -/

/-- The buffers without references are in the order of their last release, the latest first. -/
def Ordered (s : Sys τ) (l : List Ptr) : Prop :=
  (∀ b, s.released b ≤ s.now) ∧
    l.Pairwise fun b c => (s.buf b).refcnt = 0 → (s.buf c).refcnt = 0 → s.released c ≤ s.released b

/-- The order stays when no buffer has lost its last reference. -/
theorem Ordered.keep (h : Ordered s l) (hnow : t.now = s.now) (hreleased : t.released = s.released)
    (hbuf : ∀ b, (t.buf b).refcnt = 0 → (s.buf b).refcnt = 0) : Ordered t l := by
  refine ⟨fun b => by rw [hreleased, hnow]; exact h.1 b, h.2.imp fun {b c} hbc hb hc => ?_⟩
  rw [hreleased]
  exact hbc (hbuf b hb) (hbuf c hc)

/-- `brelse` keeps the ring and the order. -/
theorem put_ordered (hr : Ring s.links l) (ho : Ordered s l) (b : Ptr) :
    ∃ m, Ring (s.put b).links m ∧ Ordered (s.put b) m := by
  have hother : ∀ c, c ≠ b → (s.put b).buf c = s.buf c := fun c hc => by
    simp [Sys.put, Sys.setBuf, hc]
  have hself : ((s.put b).buf b).refcnt = (s.buf b).refcnt - 1 := by simp [Sys.put, Sys.setBuf]
  have hreleased : ∀ c, (s.put b).released c = if c = b then s.now + 1 else s.released c := fun c => by
    simp [Sys.put, Sys.setBuf, Function.update_apply]
  have hle : ∀ c, (s.put b).released c ≤ (s.put b).now := by
    intro c
    rw [hreleased]
    have := ho.1 c
    split
    · exact le_rfl
    · exact this.trans (Nat.le_succ s.now)
  by_cases hzero : (s.buf b).refcnt - 1 = 0
  · refine ⟨b :: l.erase b, ?_, hle, ?_⟩
    · have hlinks : (s.put b).links = (s.links.unlink (some b)).insert none (some b) := by
        simp [Sys.put, Sys.setBuf, hzero]
      rw [hlinks]
      exact hr.front b
    · refine List.pairwise_cons.mpr ⟨fun c hc _ _ => ?_, ?_⟩
      · have hcb : c ≠ b := ((List.Nodup.mem_erase_iff hr.nodup).mp hc).1
        rw [hreleased, hreleased, if_neg hcb, if_pos rfl]
        exact (ho.1 c).trans (Nat.le_succ s.now)
      · refine (ho.2.sublist List.erase_sublist).imp_of_mem fun {c d} hc hd hcd h0 h0' => ?_
        have hcb : c ≠ b := ((List.Nodup.mem_erase_iff hr.nodup).mp hc).1
        have hdb : d ≠ b := ((List.Nodup.mem_erase_iff hr.nodup).mp hd).1
        rw [hother c hcb] at h0
        rw [hother d hdb] at h0'
        rw [hreleased, hreleased, if_neg hcb, if_neg hdb]
        exact hcd h0 h0'
  · refine ⟨l, ?_, hle, ho.2.imp fun {c d} hcd h0 h0' => ?_⟩
    · have hlinks : (s.put b).links = s.links := by
        simp [Sys.put, Sys.setBuf, hzero]
      rwa [hlinks]
    · have hcb : c ≠ b := by
        rintro rfl
        exact hzero (hself ▸ h0)
      have hdb : d ≠ b := by
        rintro rfl
        exact hzero (hself ▸ h0')
      rw [hother c hcb] at h0
      rw [hother d hdb] at h0'
      rw [hreleased, hreleased, if_neg hcb, if_neg hdb]
      exact hcd h0 h0'

/-- The buffer that `bget` gives to another block has no references and is not dirty, and of those
    it was released the longest ago. -/
theorem unused_oldest (hr : Ring s.links l) (ho : Ordered s l) (hb : s.unused = some b) :
    (s.buf b).refcnt = 0 ∧ (s.buf b).dirty = false ∧ ∀ c, (s.buf c).refcnt = 0 →
      (s.buf c).dirty = false → s.released b ≤ s.released c := by
  rw [hr.unused] at hb
  have hfree : (s.buf b).refcnt = 0 ∧ (s.buf b).dirty = false := by
    simpa using List.find?_some hb
  refine ⟨hfree.1, hfree.2, fun c hc hdirty => ?_⟩
  obtain ⟨-, u, v, hl, hnone⟩ := List.find?_eq_some_iff_append.mp hb
  have hl' : l = v.reverse ++ b :: u.reverse := by
    rw [← List.reverse_reverse l, hl]
    simp
  have hmem := hr.2 c
  have hord := ho.2
  rw [hl'] at hmem hord
  rcases List.mem_append.mp hmem with hm | hm
  · exact (List.pairwise_append.mp hord).2.2 c hm b List.mem_cons_self hc hfree.1
  · rcases List.mem_cons.mp hm with rfl | hm
    · exact le_rfl
    · have := hnone c (List.mem_reverse.mp hm)
      simp [hc, hdirty] at this

end Xv6.Bcache
