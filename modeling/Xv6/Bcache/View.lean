import Xv6.Bcache.Steps

/-! @src bio.c log.c memide.c | name:The cache over a whole run | layer:proof

    Every action keeps the invariant and is as it should be, so every run from `binit` is: the list,
    the blocks and the counts in each of its states, and what is recycled and what `bread` returns
    in each of its steps. -/

namespace Xv6.Bcache

open Xv6.Disk Xv6.Schemes

variable {τ : Type} [Fintype τ] [DecidableEq τ] {s t : Sys τ} {b c : Ptr} {p q : τ} {n : ℕ} {a : Act τ}

/-! ### The transfers -/

omit [Fintype τ] [DecidableEq τ] in
/-- A transfer leaves the block and the lock of each buffer alone. -/
theorem iderw_key (hi : s.iderw b = some t) (c : Ptr) : (t.buf c).dev = (s.buf c).dev ∧
    (t.buf c).blockno = (s.buf c).blockno ∧ (t.buf c).lock = (s.buf c).lock := by
  rcases eq_or_ne c b with rfl | hc
  · obtain ⟨-, ⟨-, rfl⟩ | ⟨-, -, rfl⟩⟩ := iderw_cases hi <;> simp [Sys.setBuf]
  · obtain ⟨-, ⟨-, rfl⟩ | ⟨-, -, rfl⟩⟩ := iderw_cases hi <;> simp [Sys.setBuf, hc]

omit [Fintype τ] [DecidableEq τ] in
theorem not_recycles (hkey : ∀ c, (t.buf c).dev = (s.buf c).dev ∧
    (t.buf c).blockno = (s.buf c).blockno) (c : Ptr) : ¬ Recycles s t c := by
  unfold Recycles
  rw [(hkey c).1, (hkey c).2]
  simp

/-- The buffer is valid: somebody has left its data there. -/
theorem stepOk_hit (h : Inv s) (hp : s.place p = .check b) (hv : (s.buf b).valid = true) :
    StepOk s (.check p) (s.goto p .out) where
  recycled := fun c hc => absurd hc (not_recycles (fun _ => ⟨rfl, rfl⟩) c)
  returned := by
    intro q c hq hplace _
    obtain rfl := Act.check.inj hq
    rw [hp] at hplace
    obtain rfl := Place.check.inj hplace
    have hcached := content_cached h.distinct ⟨h.device b hv, rfl, hv⟩
    refine ⟨⟨h.owner p b (Or.inl hp), Function.update_self ..⟩, ?_, hcached.symm⟩
    have hquiet : Quiet s b := Or.inr ⟨p, hp⟩
    cases hleft : s.left b with
    | none =>
      have hinvalid := h.fresh b hleft hquiet
      rw [hv] at hinvalid
      exact absurd hinvalid (by simp)
    | some d => exact (h.left b d hleft).2 hquiet
  kept := fun n => Or.inl rfl

/-- The buffer is not valid: nobody has had it since it got its block, and the data is read. -/
theorem stepOk_read (h : Inv s) (hp : s.place p = .check b) (hv : (s.buf b).valid = false)
    (hi : s.iderw b = some t) : StepOk s (.check p) (t.goto p .out) where
  recycled := fun c hc =>
    absurd hc (not_recycles (fun c => ⟨(iderw_key hi c).1, (iderw_key hi c).2.1⟩) c)
  returned := by
    intro q c hq hplace _
    obtain rfl := Act.check.inj hq
    rw [hp] at hplace
    obtain rfl := Place.check.inj hplace
    have hlock : ((t.goto p .out).buf b).lock = some p := by
      rw [← h.owner p b (Or.inl hp)]
      exact (iderw_key hi b).2.2
    have hunlogged : (s.buf b).dirty = true → (s.buf b).valid = true := by
      rw [h.clean b hv]
      simp
    have hinv := inv_read h hp hv hi
    obtain ⟨hdev, hno, hvalid⟩ : (t.goto p .out).Caches b (s.buf b).blockno := by
      have hvalid := hinv.valid ⟨hlock, Function.update_self ..⟩
      exact ⟨hinv.device b hvalid, (iderw_key hi b).2.1, hvalid⟩
    refine ⟨⟨hlock, Function.update_self ..⟩, ?_, ?_⟩
    swap
    · rw [← content_cached hinv.distinct ⟨hdev, hno, hvalid⟩]
      exact content_iderw h hi hunlogged _
    have hleft : s.left b = none := by
      by_contra hne
      obtain ⟨d, hd⟩ := Option.ne_none_iff_exists'.mp hne
      have := (h.left b d hd).1
      rw [hv] at this
      exact absurd this (by simp)
    obtain ⟨-, ⟨hdirty, -⟩ | ⟨-, -, rfl⟩⟩ := iderw_cases hi
    · rw [h.clean b hv] at hdirty
      exact absurd hdirty (by simp)
    · rw [hleft]
      simp [Sys.goto, Sys.setBuf]
  kept := by
    intro n
    refine Or.inl (content_iderw h hi (fun hdirty => ?_) n)
    rw [h.clean b hv] at hdirty
    exact absurd hdirty (by simp)

theorem stepOk_write (h : Inv s) (hp : s.place p = .write b) (hi : s.iderw b = some t) :
    StepOk s (.write p) (t.goto p .out) where
  recycled := fun c hc =>
    absurd hc (not_recycles (fun c => ⟨(iderw_key hi c).1, (iderw_key hi c).2.1⟩) c)
  returned := fun _ _ he => absurd he (by simp)
  kept := by
    intro n
    refine Or.inl (content_iderw h hi (fun _ => ?_) n)
    rcases h.held p b (h.owner p b (Or.inr hp)) with hc | hv
    · rw [hp] at hc
      exact absurd hc (by simp)
    · exact hv

/-! ### A step -/

/-- What an action does to a cache with the invariant. -/
def Good (s : Sys τ) (a : Act τ) (t : Sys τ) : Prop := Inv t ∧ StepOk s a t

theorem good_bread (h : Inv s) (hp : s.place p = .out) (dev blockno : ℕ) :
    Good s (.bread p dev blockno)
      (((s.bget dev blockno).map fun r => r.2.goto p (.asleep r.1)).getD s.panic) := by
  unfold Sys.bget
  cases hc : s.cached dev blockno with
  | some b =>
    exact ⟨inv_found h hp, StepOk.same (b := b) rfl rfl ⟨rfl, rfl, rfl, rfl⟩ fun _ => by simp⟩
  | none =>
    cases hu : s.unused with
    | some b => exact ⟨inv_recycle h hp hc hu, stepOk_recycle h hc hu fun _ => by simp⟩
    | none => exact ⟨h.panic, StepOk.panic⟩

theorem good_check (h : Inv s) (hp : s.place p = .check b) (ht : s.go p (.check p) = some t) :
    Good s (.check p) t := by
  simp only [Sys.go, hp] at ht
  cases hv : (s.buf b).valid with
  | true =>
    rw [if_pos hv] at ht
    cases ht
    exact ⟨inv_hit h hp hv, stepOk_hit h hp hv⟩
  | false =>
    rw [if_neg (by simp [hv])] at ht
    cases hi : s.iderw b with
    | none =>
      rw [hi] at ht
      cases ht
      exact ⟨h.panic, StepOk.panic⟩
    | some u =>
      rw [hi] at ht
      cases ht
      exact ⟨inv_read h hp hv hi, stepOk_read h hp hv hi⟩

theorem good_write (h : Inv s) (hp : s.place p = .write b) (ht : s.go p (.write p) = some t) :
    Good s (.write p) t := by
  simp only [Sys.go, hp] at ht
  cases hi : s.iderw b with
  | none =>
    rw [hi] at ht
    cases ht
    exact ⟨h.panic, StepOk.panic⟩
  | some u =>
    rw [hi] at ht
    cases ht
    exact ⟨inv_write h hp hi, stepOk_write h hp hi⟩

theorem good_go (h : Inv s) (a : Act τ) (ht : s.go p a = some t)
    (ha : a = .acquire p ∨ a = .check p ∨ a = .write p ∨ a = .release p) : Good s a t := by
  rcases ha with rfl | rfl | rfl | rfl
  · cases hp : s.place p with
    | asleep b =>
      simp only [Sys.go, hp] at ht
      split at ht
      · rename_i hlock
        cases ht
        refine ⟨inv_acquire h hp hlock, ?_⟩
        exact StepOk.same (b := b) rfl rfl ⟨rfl, rfl, rfl, rfl⟩ fun _ => by simp
      · exact absurd ht (by simp)
    | _ => simp [Sys.go, hp] at ht
  · cases hp : s.place p with
    | check b => exact good_check h hp ht
    | _ => simp [Sys.go, hp] at ht
  · cases hp : s.place p with
    | write b => exact good_write h hp ht
    | _ => simp [Sys.go, hp] at ht
  · cases hp : s.place p with
    | release b =>
      simp only [Sys.go, hp] at ht
      cases ht
      exact ⟨inv_release h hp, StepOk.same (b := b) rfl rfl ⟨rfl, rfl, rfl, rfl⟩ fun _ => by simp⟩
    | _ => simp [Sys.go, hp] at ht

theorem good_step (h : Inv s) (ht : s.Step a t) : Good s a t := by
  unfold Sys.Step Sys.next at ht
  split at ht
  · exact absurd ht (by simp)
  cases a with
  | bread p dev blockno =>
    simp only at ht
    split at ht
    · rename_i hp
      cases ht
      exact good_bread h hp dev blockno
    · exact absurd ht (by simp)
  | store p b d =>
    simp only at ht
    split at ht
    · rename_i hb
      cases ht
      exact ⟨inv_store h hb d, stepOk_store h hb d⟩
    · exact absurd ht (by simp)
  | logWrite p b =>
    simp only at ht
    split at ht
    · rename_i hb
      cases ht
      exact ⟨inv_logWrite h hb, StepOk.same (b := b) rfl rfl ⟨rfl, rfl, rfl, rfl⟩ fun _ => by simp⟩
    · exact absurd ht (by simp)
  | bwrite p b =>
    simp only at ht
    split at ht
    · rename_i hb
      cases ht
      exact ⟨inv_bwrite h hb, StepOk.same (b := b) rfl rfl ⟨rfl, rfl, rfl, rfl⟩ fun _ => by simp⟩
    · exact absurd ht (by simp)
  | brelse p b =>
    simp only at ht
    split at ht
    · rename_i hb
      cases ht
      exact ⟨inv_brelse h hb, StepOk.same (b := b) rfl rfl ⟨rfl, rfl, rfl, rfl⟩ fun _ => by simp⟩
    · exact absurd ht (by simp)
  | acquire p => exact good_go h _ ht (Or.inl rfl)
  | check p => exact good_go h _ ht (Or.inr (Or.inl rfl))
  | write p => exact good_go h _ ht (Or.inr (Or.inr (Or.inl rfl)))
  | release p => exact good_go h _ ht (Or.inr (Or.inr (Or.inr rfl)))

/-! ### A run -/

omit [DecidableEq τ] in
theorem inv_binit (disk : ℕ → Block) (disksize : ℕ) : Inv (Sys.binit disk disksize : Sys τ) where
  ring := ⟨_, ring_init, fun _ => le_rfl, List.pairwise_of_forall fun _ _ _ _ => le_rfl⟩
  distinct := fun b c hb => absurd rfl hb
  refs := fun b => by simp [count, Sys.binit, Place.uses]
  owner := fun p b hp => by simp [Sys.binit] at hp
  held := fun p b hb => absurd hb (by simp [Sys.binit])
  left := fun b d hd => absurd hd (by simp [Sys.binit])
  fresh := fun _ _ _ => rfl
  device := fun b hv => absurd hv (by simp [Sys.binit])
  clean := fun _ _ => rfl
  saved := fun b hv => absurd hv (by simp [Sys.binit])

/-- The list goes through each buffer once, no two buffers have the same block of a device other
    than 0, and a reference count is the holder and those who wait. -/
def Sound (s : Sys τ) : Prop :=
  (∃ l : List Ptr, s.links.Circular none (l.map some) ∧ l.Nodup ∧ ∀ b, b ∈ l) ∧
    Distinct s ∧ ∀ b, (s.buf b).refcnt = count s b

omit [DecidableEq τ] in
theorem Inv.sound (h : Inv s) : Sound s := by
  obtain ⟨l, hr, -⟩ := h.ring
  exact ⟨⟨l, hr.1, hr.nodup, hr.2⟩, h.distinct, h.refs⟩

/-- A process stores into block 5 and logs it, and the other one finds what it has left. -/
def storeAndReturn : List (Act Bool) :=
  [.bread false 1 5, .acquire false, .check false, .store false ⟨0, by decide⟩ (Block.zero.setByte 0 7),
    .logWrite false ⟨0, by decide⟩, .bread true 1 5, .brelse false ⟨0, by decide⟩, .acquire true,
    .release false, .check true]

end Xv6.Bcache
