import Xv6.Bcache.Order
import Xv6.Schemes.Ledger

/-! @src bio.c log.c memide.c | name:The buffer cache is a coherent view of the disk | layer:proof

    A block of a device other than 0 is in one buffer at most. What `bread` returns is what the last
    holder of that buffer has left in it, or what is on the disk when there was none since the
    buffer got the block. A buffer without references that is not dirty is as on the disk, unless
    somebody has changed it and neither written nor logged it. -/

namespace Xv6.Bcache

open Xv6.Disk Xv6.Schemes
open Finset

variable {τ : Type} {s t : Sys τ} {b c : Ptr} {p q : τ} {n : ℕ}

/-- The process waits for the buffer, or has it in `brelse`. -/
def Place.uses (l : Place) (b : Ptr) : Prop := l = .asleep b ∨ l = .release b

instance (l : Place) (b : Ptr) : Decidable (l.uses b) := inferInstanceAs (Decidable (_ ∨ _))

/-- The holder of a buffer counts, and so does everyone who waits for it. -/
def count [Fintype τ] (s : Sys τ) (b : Ptr) : ℕ :=
  (if (s.buf b).lock = none then 0 else 1) + ∑ p, if (s.place p).uses b then 1 else 0

/-- Nobody has seen the data of the buffer since it was last unlocked. -/
def Quiet (s : Sys τ) (b : Ptr) : Prop := (s.buf b).lock = none ∨ ∃ p, s.place p = .check b

structure Inv [Fintype τ] (s : Sys τ) : Prop where
  ring : ∃ l, Ring s.links l ∧ Ordered s l
  distinct : ∀ b c, (s.buf b).dev ≠ 0 → (s.buf b).dev = (s.buf c).dev →
    (s.buf b).blockno = (s.buf c).blockno → b = c
  refs : ∀ b, (s.buf b).refcnt = count s b
  owner : ∀ p b, s.place p = .check b ∨ s.place p = .write b → (s.buf b).lock = some p
  held : ∀ p b, (s.buf b).lock = some p → s.place p = .check b ∨ (s.buf b).valid = true
  left : ∀ b d, s.left b = some d → (s.buf b).valid = true ∧ (Quiet s b → (s.buf b).data = d)
  fresh : ∀ b, s.left b = none → Quiet s b → (s.buf b).valid = false
  device : ∀ b, (s.buf b).valid = true → (s.buf b).dev = 1
  clean : ∀ b, (s.buf b).valid = false → (s.buf b).dirty = false
  saved : ∀ b, (s.buf b).valid = true → (s.buf b).dirty = false → s.unsaved b = false →
    (s.buf b).data = s.disk (s.buf b).blockno

/-! ### The contents of a block -/

/-- The buffer has the contents of block `n` of the disk. -/
def Sys.Caches (s : Sys τ) (b : Ptr) (n : ℕ) : Prop :=
  (s.buf b).dev = 1 ∧ (s.buf b).blockno = n ∧ (s.buf b).valid = true

instance (s : Sys τ) (b : Ptr) (n : ℕ) : Decidable (s.Caches b n) :=
  inferInstanceAs (Decidable (_ ∧ _ ∧ _))

/-- The contents of block `n`: in the cache, or else on the disk. -/
def Sys.content (s : Sys τ) (n : ℕ) : Block :=
  (((List.finRange NBUF).find? fun b => s.Caches b n).map fun b => (s.buf b).data).getD (s.disk n)

/-- No two buffers have the same block. -/
def Distinct (s : Sys τ) : Prop := ∀ b c, (s.buf b).dev ≠ 0 → (s.buf b).dev = (s.buf c).dev →
  (s.buf b).blockno = (s.buf c).blockno → b = c

theorem content_cached (hd : Distinct s) (hb : s.Caches b n) : s.content n = (s.buf b).data := by
  unfold Sys.content
  cases hf : (List.finRange NBUF).find? fun b => s.Caches b n with
  | none =>
    have := List.find?_eq_none.mp hf b (List.mem_finRange b)
    simp [hb] at this
  | some c =>
    have hc : s.Caches c n := by simpa using List.find?_some hf
    obtain rfl : c = b := hd c b (by rw [hc.1]; simp) (hc.1.trans hb.1.symm) (hc.2.1.trans hb.2.1.symm)
    rfl

theorem content_uncached (hno : ∀ b, ¬ s.Caches b n) : s.content n = s.disk n := by
  unfold Sys.content
  have hf : ((List.finRange NBUF).find? fun b => s.Caches b n) = none :=
    List.find?_eq_none.mpr fun b _ => by simp [hno b]
  rw [hf]
  rfl

/-- The contents are the same when each buffer of the block is. -/
theorem content_congr (hcaches : ∀ c, t.Caches c n ↔ s.Caches c n)
    (hdata : ∀ c, s.Caches c n → (t.buf c).data = (s.buf c).data) (hdisk : t.disk n = s.disk n) :
    t.content n = s.content n := by
  unfold Sys.content
  simp only [hcaches, hdisk]
  cases hf : (List.finRange NBUF).find? fun b => s.Caches b n with
  | none => rfl
  | some c =>
    have hc : s.Caches c n := by simpa using List.find?_some hf
    simp [hdata c hc]

/-! ### The count -/

section

variable [Fintype τ]

/-- A process goes to another place, and a buffer changes its count and its lock accordingly. -/
theorem count_move [DecidableEq τ] {x : Buf τ} {l : Place}
    (hbuf : t.buf = Function.update s.buf b x) (hplace : t.place = Function.update s.place p l)
    (hrefs : ∀ b, (s.buf b).refcnt = count s b)
    (hself : x.refcnt + ((if (s.buf b).lock = none then 0 else 1) +
        if (s.place p).uses b then 1 else 0) =
      (s.buf b).refcnt + ((if x.lock = none then 0 else 1) + if l.uses b then 1 else 0))
    (hother : ∀ c, c ≠ b → (l.uses c ↔ (s.place p).uses c)) (c : Ptr) :
    (t.buf c).refcnt = count t c := by
  have hsum := Ledger.sum_update s.place p l fun l => if l.uses c then 1 else 0
  have hc := hrefs c
  unfold count at hc ⊢
  rw [hbuf, hplace]
  rcases eq_or_ne c b with rfl | hne
  · rw [Function.update_self]
    omega
  · rw [Function.update_of_ne hne]
    simp only [hother c hne] at hsum
    omega

/-- A buffer without references has no holder, and nobody waits for it. -/
theorem Inv.unreferenced (h : Inv s) (hb : (s.buf b).refcnt = 0) :
    (s.buf b).lock = none ∧ ∀ p, ¬ (s.place p).uses b := by
  have hrefs := h.refs b
  unfold count at hrefs
  constructor
  · by_contra hne
    rw [if_neg hne] at hrefs
    omega
  · intro p hp
    have hle := Ledger.le_sum (fun p => if (s.place p).uses b then 1 else 0) p
    simp only [if_pos hp] at hle
    omega

variable [DecidableEq τ] {x : Buf τ} {l : Place}

/-- The process is at a place of the buffer, or at none. -/
def Place.At (l : Place) (b : Ptr) : Prop :=
  l = .out ∨ l = .asleep b ∨ l = .check b ∨ l = .write b ∨ l = .release b

theorem Place.At.ne (h : l.At b) (hc : c ≠ b) : l ≠ .check c ∧ l ≠ .write c ∧ ¬ l.uses c := by
  rcases h with rfl | rfl | rfl | rfl | rfl <;> simp [Place.uses, hc.symm]

/-- One process and one buffer change. -/
theorem Inv.move (h : Inv s) (hbuf : t.buf = Function.update s.buf b x)
    (hplace : t.place = Function.update s.place p l) (hs : (s.place p).At b) (hl : l.At b)
    (hring : ∃ l, Ring t.links l ∧ Ordered t l)
    (hkey : ∀ c, c ≠ b → x.dev ≠ 0 → x.dev = (s.buf c).dev → x.blockno ≠ (s.buf c).blockno)
    (hrefs : x.refcnt + ((if (s.buf b).lock = none then 0 else 1) +
        if (s.place p).uses b then 1 else 0) =
      (s.buf b).refcnt + ((if x.lock = none then 0 else 1) + if l.uses b then 1 else 0))
    (hlock : x.lock = (s.buf b).lock ∨ (s.buf b).lock = none ∨ (s.buf b).lock = some p)
    (howner : l = .check b ∨ l = .write b → x.lock = some p)
    (hheld : ∀ q, x.lock = some q → t.place q = .check b ∨ x.valid = true)
    (hleft : t.left = s.left ∨ ∃ d, t.left = Function.update s.left b d)
    (hkept : ∀ d, t.left b = some d → x.valid = true ∧ (Quiet t b → x.data = d))
    (hfresh : t.left b = none → Quiet t b → x.valid = false)
    (hdevice : x.valid = true → x.dev = 1) (hclean : x.valid = false → x.dirty = false)
    (hdisk : ∀ n, t.disk n = s.disk n ∨ (n = (s.buf b).blockno ∧ (s.buf b).dev = 1))
    (hunsaved : ∀ c, c ≠ b → t.unsaved c = s.unsaved c)
    (hsaved : x.valid = true → x.dirty = false → t.unsaved b = false → x.data = t.disk x.blockno) :
    Inv t := by
  have hself : t.buf b = x := by rw [hbuf, Function.update_self]
  have hother : ∀ {c}, c ≠ b → t.buf c = s.buf c := fun hc => by rw [hbuf, Function.update_of_ne hc]
  have hp : t.place p = l := by rw [hplace, Function.update_self]
  have hq : ∀ {q}, q ≠ p → t.place q = s.place q := fun hq => by rw [hplace, Function.update_of_ne hq]
  have hcheck : ∀ {c q}, c ≠ b → (t.place q = .check c ↔ s.place q = .check c) := by
    intro c q hc
    rcases eq_or_ne q p with rfl | hne
    · rw [hp]
      exact iff_of_false (hl.ne hc).1 (hs.ne hc).1
    · rw [hq hne]
  have hquiet : ∀ {c}, c ≠ b → Quiet t c → Quiet s c := by
    intro c hc
    unfold Quiet
    rw [hother hc]
    exact Or.imp_right fun ⟨q, hqc⟩ => ⟨q, (hcheck hc).mp hqc⟩
  have hleft' : ∀ {c}, c ≠ b → t.left c = s.left c := by
    intro c hc
    rcases hleft with he | ⟨d, he⟩
    · rw [he]
    · rw [he, Function.update_of_ne hc]
  constructor
  · exact hring
  · intro c d hc hdev hno
    by_cases hcb : c = b <;> by_cases hdb : d = b
    · rw [hcb, hdb]
    · subst hcb
      rw [hself] at hc hdev hno
      rw [hother hdb] at hdev hno
      exact absurd hno (hkey d hdb hc hdev)
    · subst hdb
      rw [hself] at hdev hno
      rw [hother hcb] at hc hdev hno
      exact absurd hno.symm (hkey c hcb (hdev ▸ hc) hdev.symm)
    · rw [hother hcb] at hc hdev hno
      rw [hother hdb] at hdev hno
      exact h.distinct c d hc hdev hno
  · refine count_move hbuf hplace h.refs hrefs fun c hc => ?_
    exact iff_of_false (hl.ne hc).2.2 (hs.ne hc).2.2
  · intro q c hqc
    rcases eq_or_ne q p with rfl | hne
    · rw [hp] at hqc
      have hcb : c = b := by
        by_contra hc
        rcases hqc with he | he
        · exact (hl.ne hc).1 he
        · exact (hl.ne hc).2.1 he
      subst hcb
      rw [hself]
      exact howner hqc
    · rw [hq hne] at hqc
      have hold := h.owner q c hqc
      rcases eq_or_ne c b with rfl | hcb
      · rw [hself]
        rcases hlock with he | he | he
        · rw [he, hold]
        · rw [hold] at he
          exact absurd he (by simp)
        · rw [hold] at he
          exact absurd (Option.some.inj he) hne
      · rwa [hother hcb]
  · intro q c hqc
    rcases eq_or_ne c b with rfl | hcb
    · rw [hself] at hqc ⊢
      exact hheld q hqc
    · rw [hother hcb] at hqc ⊢
      rw [hcheck hcb]
      exact h.held q c hqc
  · intro c d hd
    rcases eq_or_ne c b with rfl | hcb
    · rw [hself]
      exact hkept d hd
    · rw [hleft' hcb] at hd
      rw [hother hcb]
      exact (h.left c d hd).imp_right fun hdata hquiet' => hdata (hquiet hcb hquiet')
  · intro c hd hquiet'
    rcases eq_or_ne c b with rfl | hcb
    · rw [hself]
      exact hfresh hd hquiet'
    · rw [hleft' hcb] at hd
      rw [hother hcb]
      exact h.fresh c hd (hquiet hcb hquiet')
  · intro c hv
    rcases eq_or_ne c b with rfl | hcb
    · rw [hself] at hv ⊢
      exact hdevice hv
    · rw [hother hcb] at hv ⊢
      exact h.device c hv
  · intro c hv
    rcases eq_or_ne c b with rfl | hcb
    · rw [hself] at hv ⊢
      exact hclean hv
    · rw [hother hcb] at hv ⊢
      exact h.clean c hv
  · intro c hv hd hu
    rcases eq_or_ne c b with rfl | hcb
    · rw [hself] at hv hd ⊢
      exact hsaved hv hd hu
    · rw [hother hcb] at hv hd ⊢
      rw [hunsaved c hcb] at hu
      have hold := h.saved c hv hd hu
      rcases hdisk (s.buf c).blockno with he | ⟨he, hdev⟩
      · rw [he, hold]
      · have hdev' := h.device c hv
        exact absurd (h.distinct c b (by rw [hdev']; simp) (hdev'.trans hdev.symm) he) hcb

end

end Xv6.Bcache
