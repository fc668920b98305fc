import Xv6.Bcache.Coherent

/-! @src bio.c log.c memide.c | name:Every step of the buffer cache | layer:proof

    Each action keeps the invariant of the cache, and the theorem: the structure of the list, the
    counts, which buffer is recycled, and what `bread` returns. -/

namespace Xv6.Bcache

open Xv6.Disk Xv6.Schemes

variable {τ : Type} [Fintype τ] [DecidableEq τ] {s t : Sys τ} {b c : Ptr} {p q : τ} {n : ℕ}

omit [DecidableEq τ] in
/-- Nobody else is at the test of `bread` with a buffer that is held. -/
theorem Inv.not_quiet (h : Inv s) (hlock : (s.buf b).lock = some p)
    (hplace : ∀ q, t.place q = .check b → s.place q = .check b ∧ q ≠ p)
    (hkeep : (t.buf b).lock = some p) : ¬ Quiet t b := by
  rintro (hnone | ⟨q, hq⟩)
  · rw [hkeep] at hnone
    exact absurd hnone (by simp)
  · obtain ⟨hs, hne⟩ := hplace q hq
    have := h.owner q b (Or.inl hs)
    rw [hlock] at this
    exact hne (Option.some.inj this).symm

omit [DecidableEq τ] in
/-- A holder has valid data. -/
theorem Inv.valid [DecidableEq τ] (h : Inv s) (hb : s.Holds p b) : (s.buf b).valid = true := by
  rcases h.held p b hb.1 with hc | hv
  · rw [hb.2] at hc
    exact absurd hc (by simp)
  · exact hv

omit [DecidableEq τ] in
theorem Inv.key (h : Inv s) (b : Ptr) : ∀ c, c ≠ b → (s.buf b).dev ≠ 0 →
    (s.buf b).dev = (s.buf c).dev → (s.buf b).blockno ≠ (s.buf c).blockno := by
  intro c hc hdev he hno
  exact hc (h.distinct b c hdev he hno).symm

omit [DecidableEq τ] in
/-- The list stays when no buffer has lost its last reference. -/
theorem Inv.ring_keep (h : Inv s) {x : Buf τ} (hbuf : t.buf = Function.update s.buf b x)
    (hrest : t.links = s.links ∧ t.now = s.now ∧ t.released = s.released)
    (hrefcnt : x.refcnt = 0 → (s.buf b).refcnt = 0) : ∃ l, Ring t.links l ∧ Ordered t l := by
  obtain ⟨l, hr, ho⟩ := h.ring
  refine ⟨l, hrest.1 ▸ hr, ho.keep hrest.2.1 hrest.2.2 fun c hc => ?_⟩
  rw [hbuf] at hc
  rcases eq_or_ne c b with rfl | hne
  · rw [Function.update_self] at hc
    exact hrefcnt hc
  · rwa [Function.update_of_ne hne] at hc

/-! ### The sleep lock -/

theorem inv_acquire (h : Inv s) (hp : s.place p = .asleep b) (hlock : (s.buf b).lock = none) :
    Inv ((s.setBuf b { s.buf b with lock := some p }).goto p (.check b)) := by
  refine h.move (b := b) (p := p) (l := .check b) rfl rfl (by simp [hp, Place.At]) (by simp [Place.At])
    (h.ring_keep rfl ⟨rfl, rfl, rfl⟩ id) (h.key b) ?_ (Or.inr (Or.inl hlock)) (fun _ => rfl)
    (fun q hq => ?_) (Or.inl rfl) (fun d hd => ?_) (fun hd _ => ?_) (h.device b) (h.clean b)
    (fun _ => Or.inl rfl) (fun _ _ => rfl) (h.saved b)
  · simp [hlock, hp, Place.uses]
  · obtain rfl := Option.some.inj hq
    exact Or.inl (Function.update_self ..)
  · exact (h.left b d hd).imp_right fun hdata _ => hdata (Or.inl hlock)
  · exact h.fresh b hd (Or.inl hlock)

/-- `releasesleep` in `brelse`: the data is left in the buffer. -/
theorem inv_brelse (h : Inv s) (hb : s.Holds p b) :
    Inv ({ s.setBuf b { s.buf b with lock := none } with
      left := Function.update s.left b (some (s.buf b).data) }.goto p (.release b)) := by
  refine h.move (b := b) (p := p) (l := .release b) rfl rfl (by simp [hb.2, Place.At])
    (by simp [Place.At]) (h.ring_keep rfl ⟨rfl, rfl, rfl⟩ id) (h.key b) ?_ (Or.inr (Or.inr hb.1))
    (by simp) (fun q hq => absurd hq (by simp)) (Or.inr ⟨_, rfl⟩) (fun d hd => ?_)
    (fun hd => absurd hd (by simp [Sys.goto])) (h.device b) (h.clean b) (fun _ => Or.inl rfl)
    (fun _ _ => rfl) (h.saved b)
  · simp [hb.1, hb.2, Place.uses]
  · simp only [Sys.goto, Function.update_self, Option.some.injEq] at hd
    exact ⟨h.valid hb, fun _ => hd⟩

/-! ### The data -/

/-- A step of the holder of a buffer that leaves its lock and its count alone. -/
theorem Inv.hold (h : Inv s) {x : Buf τ} {l : Place} (hlocked : (s.buf b).lock = some p)
    (hat : s.place p = .out ∨ s.place p = .check b ∨ s.place p = .write b)
    (hl : l = .out ∨ l = .write b) (hbuf : t.buf = Function.update s.buf b x)
    (hplace : t.place = Function.update s.place p l)
    (hrest : t.links = s.links ∧ t.now = s.now ∧ t.released = s.released) (hleft : t.left = s.left)
    (hsame : x.dev = (s.buf b).dev ∧ x.blockno = (s.buf b).blockno ∧ x.lock = (s.buf b).lock ∧
      x.refcnt = (s.buf b).refcnt) (hvalid : x.valid = true) (hdev : (s.buf b).dev = 1)
    (hdisk : ∀ n, t.disk n = s.disk n ∨ n = (s.buf b).blockno)
    (hunsaved : ∀ c, c ≠ b → t.unsaved c = s.unsaved c)
    (hsaved : x.dirty = false → t.unsaved b = false → x.data = t.disk x.blockno) : Inv t := by
  obtain ⟨hd, hn, hk, hr⟩ := hsame
  have hloud : ¬ Quiet t b := by
    refine h.not_quiet hlocked (fun q hq => ?_) (by rw [hbuf, Function.update_self, hk, hlocked])
    have hne : q ≠ p := by
      rintro rfl
      rw [hplace, Function.update_self] at hq
      rcases hl with rfl | rfl <;> exact absurd hq (by simp)
    rw [hplace, Function.update_of_ne hne] at hq
    exact ⟨hq, hne⟩
  have huses : ¬ (s.place p).uses b ∧ ¬ l.uses b := by
    rcases hat with he | he | he <;> rcases hl with rfl | rfl <;> rw [he] <;> simp [Place.uses]
  refine h.move (b := b) (p := p) hbuf hplace ?_ ?_ (h.ring_keep hbuf hrest (by rw [hr]; exact id)) ?_ ?_
    (Or.inl hk) (fun _ => by rw [hk, hlocked]) (fun q _ => Or.inr hvalid) (Or.inl hleft)
    (fun d _ => ⟨hvalid, fun hq => absurd hq hloud⟩) (fun _ hq => absurd hq hloud) (fun _ => hd ▸ hdev)
    (fun hv => absurd (hvalid.symm.trans hv) (by simp)) (fun n => (hdisk n).imp_right fun he => ⟨he, hdev⟩)
    hunsaved (fun _ => hsaved)
  · rcases hat with he | he | he <;> rw [he] <;> simp [Place.At]
  · rcases hl with rfl | rfl <;> simp [Place.At]
  · rw [hd, hn]
    exact h.key b
  · rw [hr, hk, if_neg huses.1, if_neg huses.2]

theorem inv_store (h : Inv s) (hb : s.Holds p b) (d : Block) :
    Inv { s.setBuf b { s.buf b with data := d } with
      unsaved := if (s.buf b).dirty then s.unsaved else Function.update s.unsaved b true } := by
  have hv := h.valid hb
  refine h.hold (b := b) (l := .out) hb.1 (Or.inl hb.2) (Or.inl rfl) rfl ?_ ⟨rfl, rfl, rfl⟩ rfl
    ⟨rfl, rfl, rfl, rfl⟩ hv (h.device b hv) (fun _ => Or.inl rfl) (fun c hc => ?_) (fun hd hu => ?_)
  · rw [← hb.2, Function.update_eq_self]
    rfl
  · dsimp only
    split
    · rfl
    · exact Function.update_of_ne hc ..
  · have hclean : (s.buf b).dirty = false := hd
    simp [hclean] at hu

theorem inv_logWrite (h : Inv s) (hb : s.Holds p b) :
    Inv { s.setBuf b { s.buf b with dirty := true } with
      unsaved := Function.update s.unsaved b false } := by
  have hv := h.valid hb
  refine h.hold (b := b) (l := .out) hb.1 (Or.inl hb.2) (Or.inl rfl) rfl ?_ ⟨rfl, rfl, rfl⟩ rfl
    ⟨rfl, rfl, rfl, rfl⟩ hv (h.device b hv) (fun _ => Or.inl rfl)
    (fun c hc => Function.update_of_ne hc ..) (fun hd => absurd hd (by simp))
  rw [← hb.2, Function.update_eq_self]
  rfl

theorem inv_bwrite (h : Inv s) (hb : s.Holds p b) :
    Inv ({ s.setBuf b { s.buf b with dirty := true } with
      unsaved := Function.update s.unsaved b false }.goto p (.write b)) := by
  have hv := h.valid hb
  exact h.hold (b := b) (l := .write b) hb.1 (Or.inl hb.2) (Or.inr rfl) rfl rfl ⟨rfl, rfl, rfl⟩ rfl
    ⟨rfl, rfl, rfl, rfl⟩ hv (h.device b hv) (fun _ => Or.inl rfl)
    (fun c hc => Function.update_of_ne hc ..) (fun hd => absurd hd (by simp))

omit [Fintype τ] [DecidableEq τ] in
/-- The transfer of `iderw`: to the disk if the buffer is dirty, and else from it. -/
theorem iderw_cases (hi : s.iderw b = some t) : (s.buf b).dev = 1 ∧
    (((s.buf b).dirty = true ∧ t = { s.setBuf b { s.buf b with valid := true, dirty := false } with
        disk := Function.update s.disk (s.buf b).blockno (s.buf b).data }) ∨
      ((s.buf b).dirty = false ∧ (s.buf b).valid = false ∧
        t = s.setBuf b { s.buf b with valid := true, data := s.disk (s.buf b).blockno })) := by
  unfold Sys.iderw at hi
  split at hi
  · exact absurd hi (by simp)
  split at hi
  · exact absurd hi (by simp)
  rename_i hnothing
  split at hi
  · exact absurd hi (by simp)
  rename_i hdev
  split at hi
  · exact absurd hi (by simp)
  split at hi <;> cases hi
  · rename_i hdirty
    exact ⟨not_not.mp hdev, Or.inl ⟨hdirty, rfl⟩⟩
  · rename_i hdirty
    refine ⟨not_not.mp hdev, Or.inr ⟨by simpa using hdirty, ?_, rfl⟩⟩
    simp only [Bool.and_eq_true, Bool.not_eq_true', not_and] at hnothing
    cases hv : (s.buf b).valid with
    | false => rfl
    | true => exact absurd (by simpa using hdirty) (hnothing hv)

theorem inv_read (h : Inv s) (hp : s.place p = .check b) (hv : (s.buf b).valid = false)
    (hi : s.iderw b = some t) : Inv (t.goto p .out) := by
  obtain ⟨hdev, ⟨hdirty, -⟩ | ⟨hdirty, -, rfl⟩⟩ := iderw_cases hi
  · rw [h.clean b hv] at hdirty
    exact absurd hdirty (by simp)
  · exact h.hold (b := b) (l := .out) (h.owner p b (Or.inl hp)) (Or.inr (Or.inl hp)) (Or.inl rfl) rfl rfl
      ⟨rfl, rfl, rfl⟩ rfl ⟨rfl, rfl, rfl, rfl⟩ rfl hdev (fun _ => Or.inl rfl) (fun _ _ => rfl)
      (fun _ _ => rfl)

theorem inv_hit (h : Inv s) (hp : s.place p = .check b) (hv : (s.buf b).valid = true) :
    Inv (s.goto p .out) :=
  h.hold (b := b) (l := .out) (h.owner p b (Or.inl hp)) (Or.inr (Or.inl hp)) (Or.inl rfl)
    (Function.update_eq_self b s.buf).symm rfl ⟨rfl, rfl, rfl⟩ rfl ⟨rfl, rfl, rfl, rfl⟩ hv (h.device b hv)
    (fun _ => Or.inl rfl) (fun _ _ => rfl) (h.saved b hv)

theorem inv_write (h : Inv s) (hp : s.place p = .write b) (hi : s.iderw b = some t) :
    Inv (t.goto p .out) := by
  have hlock := h.owner p b (Or.inr hp)
  have hv : (s.buf b).valid = true := by
    rcases h.held p b hlock with hc | hv
    · rw [hp] at hc
      exact absurd hc (by simp)
    · exact hv
  obtain ⟨hdev, ⟨-, rfl⟩ | ⟨-, hinvalid, -⟩⟩ := iderw_cases hi
  · refine h.hold (b := b) (l := .out) hlock (Or.inr (Or.inr hp)) (Or.inl rfl) rfl rfl ⟨rfl, rfl, rfl⟩ rfl
      ⟨rfl, rfl, rfl, rfl⟩ rfl hdev (fun n => ?_) (fun _ _ => rfl) (fun _ _ => ?_)
    · rcases eq_or_ne n (s.buf b).blockno with he | hne
      · exact Or.inr he
      · exact Or.inl (by simp [Sys.goto, Sys.setBuf, hne])
    · simp [Sys.goto, Sys.setBuf]
  · rw [hv] at hinvalid
    exact absurd hinvalid (by simp)

/-! ### The count and the list -/

theorem inv_release (h : Inv s) (hp : s.place p = .release b) : Inv ((s.put b).goto p .out) := by
  obtain ⟨l, hr, ho⟩ := h.ring
  have hpos : 1 ≤ (s.buf b).refcnt := by
    by_contra hz
    exact (h.unreferenced (by omega)).2 p (Or.inr hp)
  have hquiet : Quiet ((s.put b).goto p .out) b → Quiet s b := by
    refine Or.imp (fun hl => ?_) fun ⟨q, hq⟩ => ⟨q, ?_⟩
    · simpa [Sys.goto, Sys.put, Sys.setBuf] using hl
    · rcases eq_or_ne q p with rfl | hne
      · simp [Sys.goto] at hq
      · simpa [Sys.goto, Sys.put, Sys.setBuf, hne] using hq
  refine h.move (b := b) (p := p) (l := .out) (x := { s.buf b with refcnt := (s.buf b).refcnt - 1 }) rfl rfl
    (by simp [hp, Place.At]) (by simp [Place.At]) (put_ordered hr ho b) (h.key b) ?_ (Or.inl rfl)
    (by simp) (fun q hq => ?_) (Or.inl rfl)
    (fun d hd => (h.left b d hd).imp_right fun hdata hq => hdata (hquiet hq))
    (fun hd hq => h.fresh b hd (hquiet hq)) (h.device b) (h.clean b) (fun _ => Or.inl rfl)
    (fun _ _ => rfl) (h.saved b)
  · have hu : (s.place p).uses b := Or.inr hp
    have hout : ¬ Place.out.uses b := by simp [Place.uses]
    rw [if_pos hu, if_neg hout]
    dsimp only
    omega
  · rcases h.held q b hq with hc | hv
    · have hne : q ≠ p := by
        rintro rfl
        rw [hp] at hc
        exact absurd hc (by simp)
      exact Or.inl (by simpa [Sys.goto, Sys.put, Sys.setBuf, hne] using hc)
    · exact Or.inr hv

/-- `bget` finds the buffer of the block. -/
theorem inv_found (h : Inv s) (hp : s.place p = .out) :
    Inv ((s.setBuf b { s.buf b with refcnt := (s.buf b).refcnt + 1 }).goto p (.asleep b)) := by
  have hquiet : Quiet ((s.setBuf b { s.buf b with refcnt := (s.buf b).refcnt + 1 }).goto p
      (.asleep b)) b → Quiet s b := by
    refine Or.imp (fun hl => ?_) fun ⟨q, hq⟩ => ⟨q, ?_⟩
    · simpa [Sys.goto, Sys.setBuf] using hl
    · rcases eq_or_ne q p with rfl | hne
      · simp [Sys.goto] at hq
      · simpa [Sys.goto, Sys.setBuf, hne] using hq
  refine h.move (b := b) (p := p) (l := .asleep b) rfl rfl (by simp [hp, Place.At]) (by simp [Place.At])
    (h.ring_keep rfl ⟨rfl, rfl, rfl⟩ (fun hz => absurd hz (Nat.succ_ne_zero _))) (h.key b) ?_
    (Or.inl rfl) (by simp) (fun q hq => ?_) (Or.inl rfl)
    (fun d hd => (h.left b d hd).imp_right fun hdata hq => hdata (hquiet hq))
    (fun hd hq => h.fresh b hd (hquiet hq)) (h.device b) (h.clean b) (fun _ => Or.inl rfl)
    (fun _ _ => rfl) (h.saved b)
  · have hout : ¬ (s.place p).uses b := by simp [hp, Place.uses]
    have hin : (Place.asleep b).uses b := Or.inl rfl
    rw [if_neg hout, if_pos hin]
    dsimp only
    omega
  · rcases h.held q b hq with hc | hv
    · have hne : q ≠ p := by
        rintro rfl
        rw [hp] at hc
        exact absurd hc (by simp)
      exact Or.inl (by simpa [Sys.goto, Sys.setBuf, hne] using hc)
    · exact Or.inr hv

omit [DecidableEq τ] in
/-- No buffer has a block that the first loop of `bget` has not found. -/
theorem Inv.uncached (h : Inv s) {dev blockno : ℕ} (hc : s.cached dev blockno = none) (c : Ptr) :
    (s.buf c).dev = dev → (s.buf c).blockno ≠ blockno := by
  obtain ⟨l, hr, -⟩ := h.ring
  rw [hr.cached] at hc
  have := List.find?_eq_none.mp hc c (hr.2 c)
  simpa using this

/-- `bget` gives an unused buffer to the block. -/
theorem inv_recycle (h : Inv s) (hp : s.place p = .out) {dev blockno : ℕ}
    (hc : s.cached dev blockno = none) (hb : s.unused = some b) :
    Inv ((s.recycle b dev blockno).goto p (.asleep b)) := by
  obtain ⟨l, hr, ho⟩ := h.ring
  obtain ⟨hzero, -, -⟩ := unused_oldest hr ho hb
  obtain ⟨hlock, huses⟩ := h.unreferenced hzero
  refine h.move (b := b) (p := p) (l := .asleep b) rfl rfl (by simp [hp, Place.At]) (by simp [Place.At])
    (h.ring_keep rfl ⟨rfl, rfl, rfl⟩ (fun hz => absurd hz (by simp))) (fun c _ _ hd hn => ?_) ?_
    (Or.inl rfl) (by simp) (fun q hq => ?_) (Or.inr ⟨none, rfl⟩)
    (fun d hd => absurd hd (by simp [Sys.goto, Sys.recycle])) (fun _ _ => rfl)
    (fun hv => absurd hv (by simp)) (fun _ => rfl) (fun _ => Or.inl rfl)
    (fun c hc => Function.update_of_ne hc ..) (fun hv => absurd hv (by simp))
  · exact h.uncached hc c hd.symm hn.symm
  · have hin : (Place.asleep b).uses b := Or.inl rfl
    rw [if_neg (huses p), if_pos hin, hzero]
    dsimp only
    omega
  · have hq' : (s.buf b).lock = some q := hq
    rw [hlock] at hq'
    exact absurd hq' (by simp)

omit [DecidableEq τ] in
theorem Inv.panic (h : Inv s) : Inv s.panic :=
  ⟨h.ring, h.distinct, h.refs, h.owner, h.held, h.left, h.fresh, h.device, h.clean, h.saved⟩

/-! ### What a step does -/

/-- The buffer is given to another block. -/
def Recycles (s t : Sys τ) (b : Ptr) : Prop :=
  (t.buf b).dev ≠ (s.buf b).dev ∨ (t.buf b).blockno ≠ (s.buf b).blockno

/-- A step recycles only an unused buffer that was released the longest ago; `bread` returns what was
    left in the buffer, or what is on the disk, and so the contents of the block; and the contents of a block change only when its
    holder stores into it, or when a change is dropped that was neither written nor logged. -/
structure StepOk (s : Sys τ) (a : Act τ) (t : Sys τ) : Prop where
  recycled : ∀ b, Recycles s t b → (s.buf b).refcnt = 0 ∧ (s.buf b).dirty = false ∧
    ∀ c, (s.buf c).refcnt = 0 → (s.buf c).dirty = false → s.released b ≤ s.released c
  returned : ∀ p b, a = .check p → s.place p = .check b → t.panicked = false →
    t.Holds p b ∧ (t.buf b).data = (s.left b).getD (s.disk (s.buf b).blockno) ∧
      (t.buf b).data = s.content (s.buf b).blockno
  kept : ∀ n, t.content n = s.content n ∨
    (∃ p b d, a = .store p b d ∧ s.Holds p b ∧ s.Caches b n ∧ t.content n = d) ∨
      ∃ b, s.Caches b n ∧ s.unsaved b = true ∧ Recycles s t b

omit [Fintype τ] [DecidableEq τ] in
theorem content_setBuf {x : Buf τ} (hbuf : t.buf = Function.update s.buf b x) (hdisk : t.disk = s.disk)
    (hsame : x.dev = (s.buf b).dev ∧ x.blockno = (s.buf b).blockno ∧ x.valid = (s.buf b).valid ∧
      x.data = (s.buf b).data) (n : ℕ) : t.content n = s.content n := by
  refine content_congr (fun c => ?_) (fun c _ => ?_) (by rw [hdisk])
  · unfold Sys.Caches
    rw [hbuf]
    rcases eq_or_ne c b with rfl | hc
    · rw [Function.update_self, hsame.1, hsame.2.1, hsame.2.2.1]
    · rw [Function.update_of_ne hc]
  · rw [hbuf]
    rcases eq_or_ne c b with rfl | hc
    · rw [Function.update_self, hsame.2.2.2]
    · rw [Function.update_of_ne hc]

omit [Fintype τ] [DecidableEq τ] in
/-- A step that changes neither blocks nor data. -/
theorem StepOk.same {a : Act τ} {x : Buf τ} (hbuf : t.buf = Function.update s.buf b x)
    (hdisk : t.disk = s.disk) (hsame : x.dev = (s.buf b).dev ∧ x.blockno = (s.buf b).blockno ∧
      x.valid = (s.buf b).valid ∧ x.data = (s.buf b).data) (ha : ∀ p, a ≠ .check p) :
    StepOk s a t where
  recycled := by
    intro c hc
    unfold Recycles at hc
    rw [hbuf] at hc
    rcases eq_or_ne c b with rfl | hne
    · rw [Function.update_self, hsame.1, hsame.2.1] at hc
      simp at hc
    · rw [Function.update_of_ne hne] at hc
      simp at hc
  returned := fun p _ he => absurd he (ha p)
  kept := fun n => Or.inl (content_setBuf hbuf hdisk hsame n)

omit [Fintype τ] [DecidableEq τ] in
theorem StepOk.panic {a : Act τ} : StepOk s a s.panic where
  recycled := fun b hb => by
    rcases hb with hb | hb <;> exact absurd rfl hb
  returned := fun _ _ _ _ hp => absurd hp (by simp [Sys.panic])
  kept := fun _ => Or.inl rfl

theorem stepOk_recycle (h : Inv s) {dev blockno : ℕ} {a : Act τ}
    (hc : s.cached dev blockno = none) (hb : s.unused = some b) (ha : ∀ p, a ≠ .check p) :
    StepOk s a ((s.recycle b dev blockno).goto p (.asleep b)) := by
  obtain ⟨l, hr, ho⟩ := h.ring
  obtain ⟨hzero, hdirty, hold⟩ := unused_oldest hr ho hb
  have hself : (((s.recycle b dev blockno).goto p (.asleep b)).buf b).valid = false := by
    simp [Sys.goto, Sys.recycle, Sys.setBuf]
  have hother : ∀ {c}, c ≠ b → ((s.recycle b dev blockno).goto p (.asleep b)).buf c = s.buf c :=
    fun hc => by simp [Sys.goto, Sys.recycle, Sys.setBuf, hc]
  refine ⟨fun c hc' => ?_, fun q _ he => absurd he (ha q), fun n => ?_⟩
  · have hcb : c = b := by
      by_contra hne
      unfold Recycles at hc'
      rw [hother hne] at hc'
      simp at hc'
    subst hcb
    exact ⟨hzero, hdirty, hold⟩
  · by_cases hn : s.Caches b n
    · cases hu : s.unsaved b with
      | true =>
        refine Or.inr (Or.inr ⟨b, hn, hu, ?_⟩)
        by_contra hsame
        unfold Recycles at hsame
        rw [not_or, not_not, not_not] at hsame
        refine h.uncached hc b ?_ ?_
        · rw [← hsame.1]
          simp [Sys.goto, Sys.recycle, Sys.setBuf]
        · rw [← hsame.2]
          simp [Sys.goto, Sys.recycle, Sys.setBuf]
      | false =>
        left
        rw [content_cached h.distinct hn, h.saved b hn.2.2 hdirty hu, hn.2.1]
        refine content_uncached fun c hc' => ?_
        rcases eq_or_ne c b with rfl | hne
        · rw [hc'.2.2] at hself
          exact absurd hself (by simp)
        · unfold Sys.Caches at hc'
          rw [hother hne] at hc'
          exact hne (h.distinct c b (by rw [hc'.1]; simp) (hc'.1.trans hn.1.symm)
            (hc'.2.1.trans hn.2.1.symm))
    · left
      refine content_congr (fun c => ?_) (fun c hc' => ?_) rfl
      · rcases eq_or_ne c b with rfl | hne
        · refine iff_of_false (fun hc' => ?_) hn
          rw [hc'.2.2] at hself
          exact absurd hself (by simp)
        · unfold Sys.Caches
          rw [hother hne]
      · have hne : c ≠ b := by
          rintro rfl
          exact hn hc'
        rw [hother hne]

theorem stepOk_store (h : Inv s) (hb : s.Holds p b) (d : Block) :
    StepOk s (.store p b d) { s.setBuf b { s.buf b with data := d } with
      unsaved := if (s.buf b).dirty then s.unsaved else Function.update s.unsaved b true } := by
  generalize ht : ({ s.setBuf b { s.buf b with data := d } with
    unsaved := if (s.buf b).dirty then s.unsaved else Function.update s.unsaved b true } : Sys τ) = t
  have hbuf : t.buf = Function.update s.buf b { s.buf b with data := d } := by
    rw [← ht]
    rfl
  have hdisk : t.disk = s.disk := by
    rw [← ht]
    rfl
  have hinv : Inv t := by
    rw [← ht]
    exact inv_store h hb d
  have hkey : ∀ c, (t.buf c).dev = (s.buf c).dev ∧ (t.buf c).blockno = (s.buf c).blockno ∧
      (t.buf c).valid = (s.buf c).valid := by
    intro c
    rw [hbuf]
    rcases eq_or_ne c b with rfl | hne
    · rw [Function.update_self]
      exact ⟨rfl, rfl, rfl⟩
    · rw [Function.update_of_ne hne]
      exact ⟨rfl, rfl, rfl⟩
  have hcaches : ∀ c n, t.Caches c n ↔ s.Caches c n := by
    intro c n
    unfold Sys.Caches
    rw [(hkey c).1, (hkey c).2.1, (hkey c).2.2]
  refine ⟨fun c hc => ?_, fun q _ he => absurd he (by simp), fun n => ?_⟩
  · unfold Recycles at hc
    rw [(hkey c).1, (hkey c).2.1] at hc
    simp at hc
  · by_cases hn : s.Caches b n
    · refine Or.inr (Or.inl ⟨p, b, d, rfl, hb, hn, ?_⟩)
      rw [content_cached hinv.distinct ((hcaches b n).mpr hn), hbuf, Function.update_self]
    · left
      refine content_congr (fun c => hcaches c n) (fun c hc => ?_) (by rw [hdisk])
      have hne : c ≠ b := by
        rintro rfl
        exact hn hc
      rw [hbuf, Function.update_of_ne hne]

omit [DecidableEq τ] in
/-- The transfer of `iderw` does not change the contents of a block. -/
theorem content_iderw (h : Inv s) (hi : s.iderw b = some t)
    (hv : (s.buf b).dirty = true → (s.buf b).valid = true) (n : ℕ) : t.content n = s.content n := by
  obtain ⟨hdev, ⟨hdirty, rfl⟩ | ⟨-, hinvalid, rfl⟩⟩ := iderw_cases hi
  · have hb := hv hdirty
    have hcaches : ∀ c, Sys.Caches { s.setBuf b { s.buf b with valid := true, dirty := false } with
        disk := Function.update s.disk (s.buf b).blockno (s.buf b).data } c n ↔ s.Caches c n := by
      intro c
      rcases eq_or_ne c b with rfl | hne
      · simp [Sys.Caches, Sys.setBuf, hb]
      · simp [Sys.Caches, Sys.setBuf, hne]
    have hdata : ∀ c, (Sys.buf { s.setBuf b { s.buf b with valid := true, dirty := false } with
        disk := Function.update s.disk (s.buf b).blockno (s.buf b).data } c).data = (s.buf c).data := by
      intro c
      rcases eq_or_ne c b with rfl | hne
      · simp [Sys.setBuf]
      · simp [Sys.setBuf, hne]
    rcases eq_or_ne n (s.buf b).blockno with rfl | hn
    · have hold : s.Caches b (s.buf b).blockno := ⟨hdev, rfl, hb⟩
      have hdistinct : Distinct ({ s.setBuf b { s.buf b with valid := true, dirty := false } with
          disk := Function.update s.disk (s.buf b).blockno (s.buf b).data } : Sys τ) := by
        have hkey : ∀ c, (Sys.buf { s.setBuf b { s.buf b with valid := true, dirty := false } with
            disk := Function.update s.disk (s.buf b).blockno (s.buf b).data } c).dev = (s.buf c).dev ∧
            (Sys.buf { s.setBuf b { s.buf b with valid := true, dirty := false } with
              disk := Function.update s.disk (s.buf b).blockno (s.buf b).data } c).blockno =
                (s.buf c).blockno := by
          intro c
          rcases eq_or_ne c b with rfl | hne
          · simp [Sys.setBuf]
          · simp [Sys.setBuf, hne]
        intro c d
        rw [(hkey c).1, (hkey c).2, (hkey d).1, (hkey d).2]
        exact h.distinct c d
      rw [content_cached h.distinct hold, content_cached hdistinct ((hcaches b).mpr hold), hdata]
    · exact content_congr hcaches (fun c _ => hdata c) (Function.update_of_ne hn ..)
  · rcases eq_or_ne n (s.buf b).blockno with rfl | hn
    · have hself : (s.setBuf b { s.buf b with
          valid := true, data := s.disk (s.buf b).blockno }).Caches b (s.buf b).blockno := by
        simp [Sys.Caches, Sys.setBuf, hdev]
      have hdistinct : Distinct (s.setBuf b { s.buf b with
          valid := true, data := s.disk (s.buf b).blockno }) := by
        have hkey : ∀ c, ((s.setBuf b { s.buf b with
            valid := true, data := s.disk (s.buf b).blockno }).buf c).dev = (s.buf c).dev ∧
            ((s.setBuf b { s.buf b with
              valid := true, data := s.disk (s.buf b).blockno }).buf c).blockno = (s.buf c).blockno := by
          intro c
          rcases eq_or_ne c b with rfl | hne
          · simp [Sys.setBuf]
          · simp [Sys.setBuf, hne]
        intro c d
        rw [(hkey c).1, (hkey c).2, (hkey d).1, (hkey d).2]
        exact h.distinct c d
      have hno : ∀ c, ¬ s.Caches c (s.buf b).blockno := by
        intro c hc
        obtain rfl := h.distinct c b (by rw [hc.1]; simp) (hc.1.trans hdev.symm) hc.2.1
        rw [hc.2.2] at hinvalid
        exact absurd hinvalid (by simp)
      rw [content_cached hdistinct hself, content_uncached hno]
      simp [Sys.setBuf]
    · refine content_congr (fun c => ?_) (fun c hc => ?_) rfl
      · rcases eq_or_ne c b with rfl | hne
        · simp [Sys.Caches, Sys.setBuf, hn.symm]
        · simp [Sys.Caches, Sys.setBuf, hne]
      · have hne : c ≠ b := by
          rintro rfl
          exact hn hc.2.1.symm
        simp [Sys.setBuf, hne]

end Xv6.Bcache
