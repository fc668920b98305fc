import Xv6.Log.Pins
import Mathlib.Data.Fintype.Card
import Mathlib.Data.Finset.Card

/-! @src log.c bio.c | name:Log invariant | layer:proof

    One invariant couples the outstanding counter, the committing flag, the block list, the pinned
    buffers and the sleepers, and every atomic action keeps it. -/

set_option linter.unusedSectionVars false

namespace Xv6.Log
open Xv6.Disk Xv6.Schemes

/-! ### Counting the running operations -/

section Count

variable {P : Type} [Fintype P] [DecidableEq P]

/-- The number of processes between `begin_op` and `end_op`. -/
def opCount (pc : P → Pc) : ℕ := (Finset.univ.filter fun p => (pc p).isOp = true).card

theorem opCount_congr {pc pc' : P → Pc} (h : ∀ p, (pc' p).isOp = (pc p).isOp) :
    opCount pc' = opCount pc := by
  simp only [opCount, h]

theorem opCount_pos {pc : P → Pc} {p : P} (h : (pc p).isOp = true) : 0 < opCount pc :=
  Finset.card_pos.mpr ⟨p, by simp [h]⟩

theorem opCount_enter {pc : P → Pc} {p : P} {c : Pc} (hp : (pc p).isOp = false)
    (hc : c.isOp = true) : opCount (Function.update pc p c) = opCount pc + 1 := by
  have hins : (Finset.univ.filter fun q => (Function.update pc p c q).isOp = true) =
      insert p (Finset.univ.filter fun q => (pc q).isOp = true) := by
    ext q
    rcases eq_or_ne q p with rfl | hne
    · simp [hc]
    · simp [hne]
  rw [opCount, hins, Finset.card_insert_of_notMem (by simp [hp]), opCount]

theorem opCount_leave {pc : P → Pc} {p : P} {c : Pc} (hp : (pc p).isOp = true)
    (hc : c.isOp = false) : opCount (Function.update pc p c) = opCount pc - 1 := by
  have hers : (Finset.univ.filter fun q => (Function.update pc p c q).isOp = true) =
      (Finset.univ.filter fun q => (pc q).isOp = true).erase p := by
    ext q
    rcases eq_or_ne q p with rfl | hne
    · simp [hc]
    · simp [hne]
  rw [opCount, hers, Finset.card_erase_of_mem (by simp [hp]), opCount]

theorem opCount_eq_zero {pc : P → Pc} (h : opCount pc = 0) (p : P) : (pc p).isOp = false := by
  by_contra hp
  have hpos : 0 < opCount pc := opCount_pos (p := p) (by simpa using hp)
  omega

end Count

/-! ### The invariant -/

section Invariant

variable {P : Type} [Fintype P] [DecidableEq P]

/-- In `commit()`, after the first log block is written and before `log.lh.n = 0`. -/
def Pc.pastFirst : Pc → Bool
  | .writeLog (_ + 1) | .writeHead | .install _ => true
  | _ => false

/-- What holds between any two atomic actions. -/
structure Inv (s : Sys P) : Prop where
  count : s.outstanding = opCount s.pc
  commit : s.committing = true ↔ ∃ p, (s.pc p).isCommit = true
  one : ∀ p q, (s.pc p).isCommit = true → (s.pc q).isCommit = true → p = q
  quiet : s.committing = true → s.outstanding = 0
  drained : s.outstanding = 0 → s.committing = false → s.block = []
  nodup : s.block.Nodup
  exact : (∀ p, (s.pc p).isClearing = false) → ∀ b, b ∈ s.block ↔ b ∈ s.since
  cleared : ∀ p, (s.pc p).isClearing = true → s.block = []
  whole : ∀ b, b ∈ s.since ↔ (∃ o ∈ s.completed, b ∈ o) ∨ ∃ p, b ∈ s.logged p
  fresh : ∀ p, (s.pc p).isOp = false → s.logged p = []
  pinned : (∀ p, (s.pc p).pastFirst = true → s.block.length < s.size) →
    ∀ i (hi : i < s.block.length),
      (∀ p tail, s.pc p = .install tail → tail ≤ i) → Pinned s.block[i] s.bcache
  home : ∀ b ∈ s.block, s.IsHome b
  held : ∀ p b, s.pc p = .logWrite b → Holds p b s.bcache ∧ s.IsHome b
  sleeper : ∀ p, s.pc p = .asleep → s.committing = true ∨ 0 < s.outstanding

theorem inv_init (start size : ℕ) (bc : List (Buf P)) : Inv (Sys.init start size bc) where
  count := by simp [Sys.init, opCount, Pc.isOp]
  commit := by simp [Sys.init, Pc.isCommit]
  one := by simp [Sys.init, Pc.isCommit]
  quiet := by simp [Sys.init]
  drained := by simp [Sys.init]
  nodup := by simp [Sys.init]
  exact := by simp [Sys.init]
  cleared := by simp [Sys.init]
  whole := by simp [Sys.init]
  fresh := by simp [Sys.init]
  pinned := by simp [Sys.init]
  home := by simp [Sys.init]
  held := by simp [Sys.init]
  sleeper := by simp [Sys.init]

variable {s : Sys P} {p : P}

theorem Pc.isClearing_isCommit {c : Pc} (h : c.isClearing = true) : c.isCommit = true := by
  cases c <;> simp_all [Pc.isClearing, Pc.isCommit]

theorem Pc.pastFirst_isCommit {c : Pc} (h : c.pastFirst = true) : c.isCommit = true := by
  cases c <;> simp_all [Pc.pastFirst, Pc.isCommit]

theorem Pc.isCommit_not_isOp {c : Pc} (h : c.isCommit = true) : c.isOp = false := by
  cases c <;> simp_all [Pc.isOp, Pc.isCommit]

/-- From `a` to `c` a process neither begins nor ends an operation or a commit. -/
structure Pc.Moves (a c : Pc) : Prop where
  op : c.isOp = a.isOp
  com : c.isCommit = a.isCommit
  clr : c.isClearing = a.isClearing
  past : a.pastFirst = true → c.pastFirst = true

theorem update_self_of {pc : P → Pc} {p : P} {c : Pc} {β : Type} (f : Pc → β)
    (h : f c = f (pc p)) (q : P) : f (Function.update pc p c q) = f (pc q) := by
  rcases eq_or_ne q p with rfl | hne
  · rw [Function.update_self, h]
  · rw [Function.update_of_ne hne]

theorem update_cases {pc : P → Pc} {p q : P} {c : Pc} {β : Type} (f : Pc → β) {d : β}
    (h : f (Function.update pc p c q) = d) : (q = p ∧ f c = d) ∨ (q ≠ p ∧ f (pc q) = d) := by
  rcases eq_or_ne q p with rfl | hne
  · exact Or.inl ⟨rfl, by rwa [Function.update_self] at h⟩
  · exact Or.inr ⟨hne, by rwa [Function.update_of_ne hne] at h⟩

/-- A step of `p` that neither begins nor ends an operation or a commit: what is left to check is
    that the buffers keep the pins and the references of the others. -/
theorem inv_move (hi : Inv s) {c : Pc} {bc : List (Buf P)} (hm : (s.pc p).Moves c)
    (hheld : ∀ b, c = .logWrite b → Holds p b bc ∧ s.IsHome b)
    (hsleep : c = .asleep → s.committing = true ∨ 0 < s.outstanding)
    (hpin : (c.pastFirst = true → s.block.length < s.size) → ∀ i (hlt : i < s.block.length),
      (∀ t, c = .install t → t ≤ i) →
      (∀ t, s.pc p = .install t → t ≤ i) ∧ (Pinned s.block[i] s.bcache → Pinned s.block[i] bc))
    (hhold : ∀ q b, q ≠ p → Holds q b s.bcache → Holds q b bc) :
    Inv { s with bcache := bc, pc := Function.update s.pc p c } where
  count := hi.count.trans (opCount_congr (update_self_of _ hm.op)).symm
  commit := by simpa only [update_self_of _ hm.com] using hi.commit
  one := by simpa only [update_self_of _ hm.com] using hi.one
  quiet := hi.quiet
  drained := hi.drained
  nodup := hi.nodup
  exact := by simpa only [update_self_of _ hm.clr] using hi.exact
  cleared := by simpa only [update_self_of _ hm.clr] using hi.cleared
  whole := hi.whole
  fresh := by simpa only [update_self_of _ hm.op] using hi.fresh
  pinned := by
    intro hlen i hlt ht
    have hlen' : c.pastFirst = true → s.block.length < s.size :=
      fun h => hlen p ((congrArg Pc.pastFirst (Function.update_self ..)).trans h)
    obtain ⟨hold, hkeep⟩ := hpin hlen' i hlt fun t hc =>
      ht p t ((Function.update_self ..).trans hc)
    refine hkeep (hi.pinned (fun q hq => ?_) i hlt fun q tail hq => ?_)
    · rcases eq_or_ne q p with rfl | hne
      · exact hlen' (hm.past hq)
      · exact hlen q ((congrArg Pc.pastFirst (Function.update_of_ne hne ..)).trans hq)
    rcases eq_or_ne q p with rfl | hne
    · exact hold tail hq
    · exact ht q tail ((Function.update_of_ne hne ..).trans hq)
  home := hi.home
  held := by
    intro q b hq
    obtain ⟨rfl, hc⟩ | ⟨hne, hq⟩ := update_cases id hq
    · exact hheld b hc
    · exact ⟨hhold q b hne (hi.held q b hq).1, (hi.held q b hq).2⟩
  sleeper := by
    intro q hq
    obtain ⟨rfl, hc⟩ | ⟨hne, hq⟩ := update_cases id hq
    · exact hsleep hc
    · exact hi.sleeper q hq

/-- A step that only changes where `p` stands. -/
theorem inv_setPc (hi : Inv s) {c : Pc} (hm : (s.pc p).Moves c)
    (hinst : ∀ t, s.pc p ≠ .install t)
    (hheld : ∀ b, c = .logWrite b → Holds p b s.bcache ∧ s.IsHome b)
    (hsleep : c = .asleep → s.committing = true ∨ 0 < s.outstanding) : Inv (s.setPc p c) :=
  inv_move hi hm hheld hsleep
    (fun _ _ _ _ => ⟨fun t ht => absurd ht (hinst t), id⟩) (fun _ _ _ h => h)

/-- A step that only changes the buffers, by a process outside `log_write` and `commit()`. -/
theorem inv_cache (hi : Inv s) {bc : List (Buf P)} (hinst : ∀ t, s.pc p ≠ .install t)
    (hlog : ∀ b, s.pc p ≠ .logWrite b) (hpin : ∀ b, Pinned b s.bcache → Pinned b bc)
    (hhold : ∀ q b, q ≠ p → Holds q b s.bcache → Holds q b bc) :
    Inv { s with bcache := bc } := by
  have h : Inv { s with bcache := bc, pc := Function.update s.pc p (s.pc p) } :=
    inv_move hi ⟨rfl, rfl, rfl, id⟩
    (fun b hb => absurd hb (hlog b)) (hi.sleeper p)
    (fun _ _ _ _ => ⟨fun t ht => absurd ht (hinst t), hpin _⟩) hhold
  rwa [Function.update_eq_self] at h

/-- The step from a loop of `commit()` to the section after `log.lh.n = 0`. -/
theorem inv_clear (hi : Inv s) {c : Pc} (hp : (s.pc p).isCommit = true)
    (hop : c.isOp = false) (hcom : c.isCommit = true) (hclr : c.isClearing = true) :
    Inv { s with block := [], pc := Function.update s.pc p c } where
  count := by
    have h : c.isOp = (s.pc p).isOp := by rw [hop, Pc.isCommit_not_isOp hp]
    exact hi.count.trans (opCount_congr (update_self_of _ h)).symm
  commit := by simpa only [update_self_of _ (hcom.trans hp.symm)] using hi.commit
  one := by simpa only [update_self_of _ (hcom.trans hp.symm)] using hi.one
  quiet := hi.quiet
  drained := fun _ _ => rfl
  nodup := List.nodup_nil
  exact := by
    intro h
    have hpc := (congrArg Pc.isClearing (Function.update_self p c s.pc)).symm.trans (h p)
    rw [hclr] at hpc
    exact absurd hpc (by decide)
  cleared := fun _ _ => rfl
  whole := hi.whole
  fresh := by
    intro q hq
    obtain ⟨rfl, -⟩ | ⟨-, hq⟩ := update_cases Pc.isOp hq
    · exact hi.fresh q (Pc.isCommit_not_isOp hp)
    · exact hi.fresh q hq
  pinned := fun _ _ hlt => absurd hlt (Nat.not_lt_zero _)
  home := fun b hb => absurd hb (List.not_mem_nil)
  held := by
    intro q b hq
    obtain ⟨rfl, hc⟩ | ⟨-, hq⟩ := update_cases id hq
    · obtain rfl : c = .logWrite b := hc
      simp [Pc.isOp] at hop
    · exact hi.held q b hq
  sleeper := by
    intro q hq
    obtain ⟨rfl, hc⟩ | ⟨-, hq⟩ := update_cases id hq
    · obtain rfl : c = .asleep := hc
      exact absurd hcom (by decide)
    · exact hi.sleeper q hq

theorem inv_panic (hi : Inv s) (msg : String) : Inv (s.panic msg) :=
  ⟨hi.count, hi.commit, hi.one, hi.quiet, hi.drained, hi.nodup, hi.exact, hi.cleared, hi.whole,
    hi.fresh, hi.pinned, hi.home, hi.held, hi.sleeper⟩

/-- While some operation runs, nobody commits. -/
theorem Inv.not_committing (hi : Inv s) (hp : (s.pc p).isOp = true) :
    s.committing = false ∧ ∀ q, (s.pc q).isCommit = false := by
  have hpos := opCount_pos hp
  have hc : s.committing = false := by
    by_contra h
    have := hi.quiet (by simpa using h)
    have := hi.count
    omega
  refine ⟨hc, fun q => ?_⟩
  by_contra hq
  have := hi.commit.mpr ⟨q, by simpa using hq⟩
  simp [hc] at this

theorem Inv.not_past (hi : Inv s) (hp : (s.pc p).isOp = true) (q : P) :
    (s.pc q).pastFirst ≠ true := by
  intro h
  have := (hi.not_committing hp).2 q
  rw [Pc.pastFirst_isCommit h] at this
  exact absurd this (by decide)

/-- `begin_op` is admitted: one more operation runs. -/
theorem inv_tryBegin (hi : Inv s) (hp : s.pc p = .beginOp) : Inv (s.tryBegin p) := by
  unfold Sys.tryBegin
  split_ifs with hc hfull
  · exact inv_setPc hi (by rw [hp]; exact ⟨rfl, rfl, rfl, id⟩) (by simp [hp])
      (by simp) (fun _ => Or.inl hc)
  · refine inv_setPc hi (by rw [hp]; exact ⟨rfl, rfl, rfl, id⟩) (by simp [hp])
      (by simp) (fun _ => Or.inr ?_)
    by_contra h0
    have hb := hi.drained (by omega) (by simpa using hc)
    have h0' : s.outstanding = 0 := by omega
    rw [hb, h0'] at hfull
    exact absurd hfull (by decide)
  · have hlogged : Function.update s.logged p [] = s.logged :=
      Function.update_eq_iff.mpr ⟨(hi.fresh p (by rw [hp]; rfl)).symm, fun _ _ => rfl⟩
    have hcom := update_self_of (c := .inOp) Pc.isCommit (show _ = (s.pc p).isCommit by rw [hp]; rfl)
    have hclr := update_self_of (c := .inOp) Pc.isClearing
      (show _ = (s.pc p).isClearing by rw [hp]; rfl)
    have hpast := update_self_of (c := .inOp) Pc.pastFirst
      (show _ = (s.pc p).pastFirst by rw [hp]; rfl)
    simp only [Sys.setPc, hlogged]
    exact {
      count := by
        have h : opCount (Function.update s.pc p .inOp) = opCount s.pc + 1 :=
          opCount_enter (by rw [hp]; rfl) rfl
        simp only [h, hi.count]
      commit := by simpa only [hcom] using hi.commit
      one := by simpa only [hcom] using hi.one
      quiet := fun h => absurd h hc
      drained := fun h => absurd h (Nat.succ_ne_zero _)
      nodup := hi.nodup
      exact := by simpa only [hclr] using hi.exact
      cleared := by simpa only [hclr] using hi.cleared
      whole := hi.whole
      fresh := by
        intro q hq
        obtain ⟨rfl, hc⟩ | ⟨hne, hq⟩ := update_cases Pc.isOp hq
        · simp [Pc.isOp] at hc
        · exact hi.fresh q hq
      pinned := by
        intro hlen i hlt ht
        refine hi.pinned (fun q hq => hlen q (hpast q ▸ hq)) i hlt fun q tail hq => ?_
        have hne : q ≠ p := by rintro rfl; simp [hp] at hq
        exact ht q tail ((Function.update_of_ne hne ..).trans hq)
      home := hi.home
      held := by
        intro q b hq
        obtain ⟨rfl, hc⟩ | ⟨hne, hq⟩ := update_cases id hq
        · simp at hc
        · exact hi.held q b hq
      sleeper := fun _ _ => Or.inr (Nat.succ_pos _) }

theorem mem_absorb {l : List ℕ} {b c : ℕ} :
    c ∈ (if b ∈ l then l else l ++ [b]) ↔ c = b ∨ c ∈ l := by
  split_ifs with hb
  · exact ⟨Or.inr, fun h => h.elim (fun he => he ▸ hb) id⟩
  · rw [List.mem_append, List.mem_singleton, or_comm]

theorem nodup_absorb {l : List ℕ} {b : ℕ} (h : l.Nodup) :
    (if b ∈ l then l else l ++ [b]).Nodup := by
  split_ifs with hb
  · exact h
  · exact List.nodup_append.mpr ⟨h, List.nodup_singleton b,
      fun a ha c hc he => hb (by rw [← List.mem_singleton.mp hc, ← he]; exact ha)⟩

/-- What the operations have logged grows by the block just logged. -/
theorem mem_record (logged : P → List ℕ) (p : P) (b c : ℕ) :
    (∃ q, c ∈ Function.update logged p (if b ∈ logged p then logged p else b :: logged p) q) ↔
      c = b ∨ ∃ q, c ∈ logged q := by
  have hself : c ∈ (if b ∈ logged p then logged p else b :: logged p) ↔ c = b ∨ c ∈ logged p := by
    split_ifs with hb
    · exact ⟨Or.inr, fun h => h.elim (fun he => he ▸ hb) id⟩
    · exact List.mem_cons
  constructor
  · rintro ⟨q, hq⟩
    rcases eq_or_ne q p with rfl | hne
    · rw [Function.update_self] at hq
      exact (hself.mp hq).imp id fun h => ⟨q, h⟩
    · rw [Function.update_of_ne hne] at hq
      exact Or.inr ⟨q, hq⟩
  · rintro (rfl | ⟨q, hq⟩)
    · exact ⟨p, by rw [Function.update_self]; exact hself.mpr (Or.inl rfl)⟩
    · refine ⟨q, ?_⟩
      rcases eq_or_ne q p with rfl | hne
      · rw [Function.update_self]
        exact hself.mpr (Or.inr hq)
      · rwa [Function.update_of_ne hne]

/-- `log_write` records its block and pins the buffer the caller holds. -/
theorem inv_append (hi : Inv s) {b : ℕ} (hp : s.pc p = .logWrite b) : Inv (s.append p b) := by
  have hop : (s.pc p).isOp = true := by rw [hp]; rfl
  obtain ⟨hc, hnone⟩ := hi.not_committing hop
  obtain ⟨⟨x, hx, hxb, hxp⟩, hhome⟩ := hi.held p b hp
  have hcom := update_self_of (c := .inOp) Pc.isCommit (show _ = (s.pc p).isCommit by rw [hp]; rfl)
  have hclear : ∀ q, (s.pc q).isClearing = false := by
    intro q
    by_contra h
    rw [Bool.not_eq_false] at h
    simpa [hnone q] using Pc.isClearing_isCommit h
  have hpos : 0 < s.outstanding := hi.count ▸ opCount_pos hop
  have hdirty : ∀ c, Pinned c s.bcache →
      Pinned c (onBlock b (fun x => { x with dirty := true }) s.bcache) :=
    fun c h => hasBuf_onBlock (fun _ => rfl) (fun _ _ _ => rfl) h
  have hpinb : Pinned b (onBlock b (fun x => { x with dirty := true }) s.bcache) :=
    ⟨_, List.mem_map.mpr ⟨x, hx, rfl⟩, by rw [if_pos hxb]; exact ⟨hxb, rfl⟩⟩
  simp only [Sys.append, Sys.setPc]
  exact {
    count := hi.count.trans (opCount_congr (update_self_of _ (by rw [hp]; rfl))).symm
    commit := by simpa only [hcom] using hi.commit
    one := by simpa only [hcom] using hi.one
    quiet := hi.quiet
    drained := fun h _ => absurd h hpos.ne'
    nodup := nodup_absorb hi.nodup
    exact := fun _ c => mem_absorb.trans ((or_congr_right (hi.exact hclear c)).trans
      List.mem_cons.symm)
    cleared := by
      intro q hq
      obtain ⟨rfl, h⟩ | ⟨-, h⟩ := update_cases Pc.isClearing hq
      · exact absurd h (by decide)
      · exact absurd h (by simp [hclear q])
    whole := by
      intro c
      refine List.mem_cons.trans ((or_congr_right (hi.whole c)).trans ?_)
      exact or_left_comm.trans (or_congr_right (mem_record _ _ _ _).symm)
    fresh := by
      intro q hq
      obtain ⟨rfl, h⟩ | ⟨hne, hq⟩ := update_cases Pc.isOp hq
      · exact absurd h (by decide)
      · exact (Function.update_of_ne hne ..).trans (hi.fresh q hq)
    pinned := by
      intro _ i hlt _
      have hold : ∀ c ∈ s.block, Pinned c s.bcache := by
        intro c hc
        obtain ⟨j, hj, rfl⟩ := List.getElem_of_mem hc
        exact hi.pinned (fun q hq => absurd hq (hi.not_past hop q)) j hj fun q tail hq =>
          absurd (hnone q) (by simp [hq, Pc.isCommit])
      rcases mem_absorb.mp (List.getElem_mem hlt) with he | hin
      · exact (congrArg (Pinned · _) he).mpr hpinb
      · exact hdirty _ (hold _ hin)
    home := by
      intro c hcm
      rcases mem_absorb.mp hcm with rfl | hcm
      · exact hhome
      · exact hi.home c hcm
    held := by
      intro q c hq
      obtain ⟨rfl, h⟩ | ⟨-, hq⟩ := update_cases id hq
      · exact absurd h (by simp)
      · exact ⟨hasBuf_onBlock (fun _ => rfl) (fun _ _ h => h) (hi.held q c hq).1,
          (hi.held q c hq).2⟩
    sleeper := fun _ _ => Or.inr hpos }

/-! `wakeup` sends sleepers back to the test of `begin_op`; nothing else sees the difference. -/

theorem wakeup_of {β : Type} (f : Pc → β) (h : f .beginOp = f .asleep) (s : Sys P) (q : P) :
    f (s.wakeup.pc q) = f (s.pc q) := by
  simp only [Sys.wakeup]
  split_ifs with hq
  · rw [h, hq]
  · rfl

theorem wakeup_awake (s : Sys P) (q : P) : s.wakeup.pc q ≠ .asleep := by
  simp only [Sys.wakeup]
  split_ifs with hq
  · simp
  · exact hq

theorem wakeup_pc {q : P} {c : Pc} (hc : c ≠ .beginOp) (h : s.wakeup.pc q = c) : s.pc q = c := by
  simp only [Sys.wakeup] at h
  split_ifs at h with hq
  · exact absurd h.symm hc
  · exact h

theorem inv_wakeup (hi : Inv s) : Inv s.wakeup where
  count := hi.count.trans (opCount_congr (wakeup_of Pc.isOp rfl s)).symm
  commit := hi.commit.trans (exists_congr fun q => by rw [wakeup_of Pc.isCommit rfl])
  one := by simpa only [wakeup_of Pc.isCommit rfl] using hi.one
  quiet := hi.quiet
  drained := hi.drained
  nodup := hi.nodup
  exact := by
    intro h
    exact hi.exact fun q => (wakeup_of Pc.isClearing rfl s q).symm.trans (h q)
  cleared := fun q hq => hi.cleared q ((wakeup_of Pc.isClearing rfl s q).symm.trans hq)
  whole := hi.whole
  fresh := fun q hq => hi.fresh q ((wakeup_of Pc.isOp rfl s q).symm.trans hq)
  pinned := fun hlen i hlt ht => hi.pinned
    (fun q hq => hlen q ((wakeup_of Pc.pastFirst rfl s q).trans hq)) i hlt
    fun q tail hq => ht q tail (by simp only [Sys.wakeup, hq]; rfl)
  home := hi.home
  held := fun q b hq => hi.held q b (wakeup_pc (by simp) hq)
  sleeper := fun q hq => absurd hq (wakeup_awake s q)

/-- A completed operation moves from the running ones to the completed ones. -/
theorem mem_complete (logged : P → List ℕ) (p : P) (b : ℕ) (completed : List (List ℕ)) :
    ((∃ o ∈ completed, b ∈ o) ∨ ∃ q, b ∈ logged q) ↔
      (∃ o ∈ logged p :: completed, b ∈ o) ∨ ∃ q, b ∈ Function.update logged p [] q := by
  constructor
  · rintro (⟨o, ho, hb⟩ | ⟨q, hq⟩)
    · exact Or.inl ⟨o, List.mem_cons_of_mem _ ho, hb⟩
    · rcases eq_or_ne q p with rfl | hne
      · exact Or.inl ⟨_, List.mem_cons_self .., hq⟩
      · exact Or.inr ⟨q, by rwa [Function.update_of_ne hne]⟩
  · rintro (⟨o, ho, hb⟩ | ⟨q, hq⟩)
    · rcases List.mem_cons.mp ho with rfl | ho
      · exact Or.inr ⟨p, hb⟩
      · exact Or.inl ⟨o, ho, hb⟩
    · rcases eq_or_ne q p with rfl | hne
      · rw [Function.update_self] at hq
        exact absurd hq List.not_mem_nil
      · exact Or.inr ⟨q, by rwa [Function.update_of_ne hne] at hq⟩

/-- The locked section of `end_op`, up to the `wakeup`; the last operation turns to the commit. -/
theorem inv_leave (hi : Inv s) {c : Pc} (hp : s.pc p = .inOp) (hop : c.isOp = false)
    (hlast : s.outstanding - 1 = 0 ↔ c.isCommit = true) (hclr : c.isClearing = false) :
    Inv { s with
      pc := Function.update s.pc p c
      outstanding := s.outstanding - 1
      committing := decide (s.outstanding - 1 = 0)
      logged := Function.update s.logged p []
      completed := s.logged p :: s.completed } := by
  have hrun : (s.pc p).isOp = true := by rw [hp]; rfl
  obtain ⟨hc, hnone⟩ := hi.not_committing hrun
  have hclear := update_self_of Pc.isClearing
    (show c.isClearing = (s.pc p).isClearing by rw [hp, hclr]; rfl)
  have hcom : ∀ q, (Function.update s.pc p c q).isCommit = true → q = p ∧ c.isCommit = true := by
    intro q hq
    obtain h | ⟨-, h⟩ := update_cases Pc.isCommit hq
    · exact h
    · exact absurd h (by simp [hnone q])
  exact {
    count := by
      show s.outstanding - 1 = _
      rw [opCount_leave hrun hop, hi.count]
    commit := by
      refine decide_eq_true_iff.trans (hlast.trans ⟨fun h => ⟨p, ?_⟩, fun ⟨q, hq⟩ => (hcom q hq).2⟩)
      exact (congrArg Pc.isCommit (Function.update_self ..)).trans h
    one := fun q r hq hr => (hcom q hq).1.trans (hcom r hr).1.symm
    quiet := of_decide_eq_true
    drained := fun h0 h => absurd h0 (of_decide_eq_false h)
    nodup := hi.nodup
    exact := by simpa only [hclear] using hi.exact
    cleared := by simpa only [hclear] using hi.cleared
    whole := fun b => (hi.whole b).trans (mem_complete s.logged p b s.completed)
    fresh := by
      intro q hq
      obtain ⟨rfl, -⟩ | ⟨hne, hq⟩ := update_cases Pc.isOp hq
      · exact Function.update_self ..
      · exact (Function.update_of_ne hne ..).trans (hi.fresh q hq)
    pinned := by
      intro _ i hlt _
      refine hi.pinned (fun q hq => absurd hq (hi.not_past hrun q)) i hlt fun q tail hq => ?_
      simpa [hq, Pc.isCommit] using hnone q
    home := hi.home
    held := by
      intro q b hq
      obtain ⟨rfl, h⟩ | ⟨-, hq⟩ := update_cases id hq
      · obtain rfl : c = .logWrite b := h
        simp [Pc.isOp] at hop
      · exact hi.held q b hq
    sleeper := by
      intro q _
      by_cases h0 : s.outstanding - 1 = 0
      · exact Or.inl (decide_eq_true h0)
      · exact Or.inr (Nat.pos_of_ne_zero h0) }

theorem inv_endOp (hi : Inv s) (hp : s.pc p = .inOp) : Inv (s.endOp p) := by
  obtain ⟨hc, -⟩ := hi.not_committing (p := p) (by rw [hp]; rfl)
  have hleave := fun c h₁ h₂ h₃ => inv_leave (c := c) hi hp h₁ h₂ h₃
  simp only [Sys.endOp, hc, Bool.false_eq_true, if_false]
  by_cases h0 : s.outstanding - 1 = 0
  · have h := hleave .commit rfl (by simp [h0, Pc.isCommit]) rfl
    simp only [h0, decide_true] at h
    rw [if_pos h0]
    simpa only [Sys.setPc, h0, hc] using h
  · have h := inv_wakeup (hleave .idle rfl (by simp [h0, Pc.isCommit]) rfl)
    simp only [h0, decide_false] at h
    rw [if_neg h0]
    have hpc : Function.update (fun q => if s.pc q = .asleep then Pc.beginOp else s.pc q) p .idle =
        fun q => if Function.update s.pc p .idle q = .asleep then Pc.beginOp
          else Function.update s.pc p .idle q := by
      funext q
      rcases eq_or_ne q p with rfl | hne
      · simp
      · simp [hne]
    simpa only [Sys.setPc, Sys.wakeup, hpc, hc] using h

/-- The locked section at the end of `end_op`: nothing runs, sleeps or commits afterwards. -/
theorem inv_finish (hi : Inv s) (hp : s.pc p = .finish) :
    Inv { s.wakeup.setPc p .idle with committing := false, since := [], completed := [] } := by
  have hpc : s.committing = true := hi.commit.mpr ⟨p, by rw [hp]; rfl⟩
  have h0 := hi.quiet hpc
  have hop : ∀ q, (s.pc q).isOp = false := opCount_eq_zero (hi.count.symm.trans h0)
  have hcount := update_self_of Pc.isOp
    (show Pc.isOp .idle = (s.wakeup.pc p).isOp by rw [wakeup_of Pc.isOp rfl, hp]; rfl)
  have hcom : ∀ q, (Function.update s.wakeup.pc p .idle q).isCommit ≠ true := by
    intro q hq
    obtain ⟨-, h⟩ | ⟨hne, h⟩ := update_cases Pc.isCommit hq
    · exact absurd h (by decide)
    · rw [wakeup_of Pc.isCommit rfl] at h
      exact hne (hi.one q p h (by rw [hp]; rfl))
  have hblock : s.block = [] := hi.cleared p (by rw [hp]; rfl)
  exact {
    count := by
      refine (hi.count.trans (opCount_congr fun q => ?_).symm)
      exact (hcount q).trans (wakeup_of Pc.isOp rfl s q)
    commit := ⟨fun h => absurd h (by simp), fun ⟨q, hq⟩ => absurd hq (hcom q)⟩
    one := fun q _ hq _ => absurd hq (hcom q)
    quiet := fun _ => h0
    drained := fun _ _ => hblock
    nodup := hi.nodup
    exact := fun _ b => by
      show b ∈ s.block ↔ b ∈ []
      rw [hblock]
    cleared := fun _ _ => hblock
    whole := by
      intro b
      refine ⟨fun h => absurd h List.not_mem_nil, ?_⟩
      rintro (⟨o, ho, -⟩ | ⟨q, hq⟩)
      · exact absurd ho List.not_mem_nil
      · exact absurd (hi.fresh q (hop q) ▸ hq : b ∈ []) List.not_mem_nil
    fresh := fun q _ => hi.fresh q (hop q)
    pinned := by
      intro _ i hlt _
      have hlt' : i < s.block.length := hlt
      rw [hblock] at hlt'
      exact absurd hlt' (Nat.not_lt_zero _)
    home := hi.home
    held := by
      intro q b hq
      obtain ⟨-, h⟩ | ⟨-, h⟩ := update_cases id hq
      · exact absurd h (by simp)
      · exact hi.held q b (wakeup_pc (by simp) h)
    sleeper := by
      intro q hq
      obtain ⟨-, h⟩ | ⟨-, h⟩ := update_cases id hq
      · exact absurd h (by simp)
      · exact absurd h (wakeup_awake s q) }

theorem inv_withCache {bc : Option (List (Buf P))} {f : Sys P → Sys P} (hi : Inv s)
    (h : ∀ bc', bc = some bc' → Inv (f { s with bcache := bc' })) : Inv (s.withCache bc f) := by
  unfold Sys.withCache
  split
  · exact h _ rfl
  · exact inv_panic hi _

/-- Every step of `commit()`. The pins survive the writes because home blocks are not log blocks
    and `install_trans` reaches each home block once. -/
theorem inv_commitStep {t : Sys P} (hi : Inv s) (h : s.commitStep p (s.pc p) = some t) :
    Inv t := by
  -- a log block within the log is none of the home blocks
  have hlog : ∀ i (hlt : i < s.block.length) tail, tail < s.block.length →
      s.block.length < s.size → s.block[i] ≠ s.start + tail + 1 := by
    intro i hlt tail ht hlen he
    rcases hi.home _ (List.getElem_mem hlt) with h | h <;> omega
  have hhead : ∀ i (hlt : i < s.block.length), s.block.length < s.size →
      s.block[i] ≠ s.start := by
    intro i hlt hlen he
    rcases hi.home _ (List.getElem_mem hlt) with h | h <;> omega
  cases hp : s.pc p with
  | commit =>
    rw [hp] at h
    obtain rfl := Option.some.inj h
    split_ifs with hn
    · exact inv_setPc hi (by rw [hp]; exact ⟨rfl, rfl, rfl, id⟩) (by simp [hp])
        (by simp) (by simp)
    · have hnil : s.block = [] := List.eq_nil_of_length_eq_zero (by omega)
      have := inv_clear (p := p) (c := .finish) hi (by rw [hp]; rfl) rfl rfl rfl
      rwa [← hnil] at this
  | writeLog tail =>
    rw [hp] at h
    obtain rfl := Option.some.inj h
    split
    · rename_i b hb
      obtain ⟨ht, rfl⟩ := List.getElem?_eq_some_iff.mp hb
      refine inv_withCache hi fun bc' hbc => ?_
      exact inv_move hi (by rw [hp]; exact ⟨rfl, rfl, rfl, fun _ => rfl⟩) (by simp) (by simp)
        (fun hlen i hlt _ => ⟨by simp [hp], pinned_writeLogBlock hbc (hlog i hlt tail ht (hlen rfl))⟩)
        (fun q b hne hq => holds_writeLogBlock hne hbc hq)
    · exact inv_setPc hi (by rw [hp]; exact ⟨rfl, rfl, rfl, fun _ => rfl⟩) (by simp [hp])
        (by simp) (by simp)
  | writeHead =>
    rw [hp] at h
    obtain rfl := Option.some.inj h
    refine inv_withCache hi fun bc' hbc => ?_
    exact inv_move hi (by rw [hp]; exact ⟨rfl, rfl, rfl, id⟩) (by simp) (by simp)
      (fun hlen i hlt _ => ⟨by simp [hp], pinned_writeHeadBlock hbc (hhead i hlt (hlen rfl))⟩)
      (fun q b hne hq => holds_writeHeadBlock hne hbc hq)
  | install tail =>
    rw [hp] at h
    obtain rfl := Option.some.inj h
    split
    · rename_i b hb
      obtain ⟨ht, rfl⟩ := List.getElem?_eq_some_iff.mp hb
      refine inv_withCache hi fun bc' hbc => ?_
      refine inv_move hi (by rw [hp]; exact ⟨rfl, rfl, rfl, id⟩) (by simp) (by simp)
        (fun hlen i hlt hi' => ?_) (fun q b hne hq => holds_installBlock hne hbc hq)
      have hle : tail + 1 ≤ i := hi' _ rfl
      refine ⟨fun t' ht' => ?_, pinned_installBlock hbc fun he => ?_⟩
      · rw [hp, Pc.install.injEq] at ht'
        omega
      · have := (hi.nodup.getElem_inj_iff).mp he
        omega
    · exact inv_clear (p := p) (c := .clearHead) hi (by rw [hp]; rfl) rfl rfl rfl
  | clearHead =>
    rw [hp] at h
    obtain rfl := Option.some.inj h
    refine inv_withCache hi fun bc' hbc => ?_
    exact inv_move hi (by rw [hp]; exact ⟨rfl, rfl, rfl, id⟩) (by simp) (by simp)
      (fun _ i hlt _ => absurd hlt (by rw [hi.cleared p (by rw [hp]; rfl)]; exact Nat.not_lt_zero i))
      (fun q b hne hq => holds_writeHeadBlock hne hbc hq)
  | finish =>
    rw [hp] at h
    obtain rfl := Option.some.inj h
    exact inv_finish hi hp
  | idle | beginOp | asleep | inOp | logWrite b =>
    rw [hp] at h
    exact absurd h (by simp [Sys.commitStep])

/-- Every atomic action keeps the invariant. -/
theorem inv_step {t : Sys P} {a : Act P} (hi : Inv s) (h : s.Step a t) : Inv t := by
  obtain ⟨-, h⟩ := Sys.step_effect h
  cases a with
  | enter p =>
    obtain ⟨hp, rfl⟩ := h
    exact inv_setPc hi (by rw [hp]; exact ⟨rfl, rfl, rfl, id⟩) (by simp [hp])
      (by simp) (by simp)
  | tryBegin p =>
    obtain ⟨hp, rfl⟩ := h
    exact inv_tryBegin hi hp
  | kill p =>
    obtain ⟨hp, rfl⟩ := h
    exact inv_setPc hi (by rw [hp]; exact ⟨rfl, rfl, rfl, id⟩) (by simp [hp])
      (by simp) (by simp)
  | read p b =>
    obtain ⟨hp, rfl⟩ := h
    refine inv_withCache hi fun bc' hbc => ?_
    exact inv_cache (p := p) hi (by rcases hp with hp | hp <;> simp [hp])
      (by rcases hp with hp | hp <;> simp [hp]) (fun _ => hasBuf_bread keeps_dirty hbc)
      (fun q _ _ => hasBuf_bread (keeps_ref q) hbc)
  | release p b =>
    obtain ⟨⟨hp, -⟩, rfl⟩ := h
    exact inv_cache (p := p) hi (by rcases hp with hp | hp <;> simp [hp])
      (by rcases hp with hp | hp <;> simp [hp]) (fun _ => hasBuf_brelse fun _ h => h)
      (fun q _ hne => hasBuf_brelse fun x hx => (List.mem_erase_of_ne hne).mpr hx)
  | checkLog p b =>
    obtain ⟨⟨hp, hheld, hhome⟩, rfl⟩ := h
    unfold Sys.checkLog
    split_ifs
    · exact inv_panic hi _
    · exact inv_panic hi _
    · refine inv_setPc hi (by rw [hp]; exact ⟨rfl, rfl, rfl, id⟩) (by simp [hp])
        (fun c hc => ?_) (by simp)
      obtain rfl := Pc.logWrite.inj hc
      exact ⟨hheld, hhome⟩
  | append p =>
    obtain ⟨b, hp, rfl⟩ := h
    exact inv_append hi hp
  | endOp p =>
    obtain ⟨hp, rfl⟩ := h
    exact inv_endOp hi hp
  | commitStep p => exact inv_commitStep hi h

end Invariant

end Xv6.Log
