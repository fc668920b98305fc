import Xv6.Log.Invariant

/-! @src log.c bio.c | name:Group commit | layer:proof

    The system commits only when no operation is running, so a committed transaction is made of
    whole operations, and whoever sleeps in `begin_op` has somebody to wake it. -/

set_option linter.unusedSectionVars false

namespace Xv6.Log
open Xv6.Disk Xv6.Schemes

section Crowded

variable {P : Type} [Fintype P] [DecidableEq P] {s : Sys P} {p : P}

/-! ### A cache no larger than the log

    With as many buffers as log blocks, a list that fills the log pins the whole cache, so the first
    `bread` of `write_log` finds no buffer and nothing is installed. -/

/-- What a cache no larger than the log adds to the invariant. -/
structure Crowded (s : Sys P) : Prop where
  cache : s.bcache.length ≤ s.size
  room : s.block ≠ [] → 2 ≤ s.size
  check : ∀ p b, s.pc p = .logWrite b → 2 ≤ s.size
  copying : ∀ p tail, s.pc p = .writeLog tail → s.block ≠ []
  past : ∀ p, (s.pc p).pastFirst = true → s.block.length < s.size

/-- The points of a process that `Crowded` says nothing about. -/
def Pc.uncrowded : Pc → Prop
  | .logWrite _ | .writeLog _ | .writeHead | .install _ => False
  | _ => True

theorem crowded_of {t : Sys P} (hr : Crowded s) (hsize : t.size = s.size)
    (hcache : t.bcache.length = s.bcache.length) (hblock : t.block = s.block)
    (hpc : ∀ q, t.pc q = s.pc q ∨ (t.pc q).uncrowded) : Crowded t where
  cache := by rw [hsize, hcache]; exact hr.cache
  room := by rw [hsize, hblock]; exact hr.room
  check := by
    intro q b hq
    rcases hpc q with h | h
    · exact hsize ▸ hr.check q b (h.symm.trans hq)
    · exact absurd h (by rw [hq]; exact id)
  copying := by
    intro q tail hq
    rcases hpc q with h | h
    · exact hblock ▸ hr.copying q tail (h.symm.trans hq)
    · exact absurd h (by rw [hq]; exact id)
  past := by
    intro q hq
    rcases hpc q with h | h
    · rw [hsize, hblock]
      exact hr.past q (h ▸ hq)
    · cases hc : t.pc q <;> simp_all [Pc.pastFirst, Pc.uncrowded]

theorem crowded_move (hr : Crowded s) {c : Pc} {bc : List (Buf P)}
    (hcache : bc.length = s.bcache.length) (hcheck : ∀ b, c = .logWrite b → 2 ≤ s.size)
    (hcopy : ∀ tail, c = .writeLog tail → s.block ≠ [])
    (hpast : c.pastFirst = true → s.block.length < s.size) :
    Crowded ({ s with bcache := bc }.setPc p c) where
  cache := hcache.trans_le hr.cache
  room := hr.room
  check := by
    intro q b hq
    obtain ⟨-, h⟩ | ⟨-, h⟩ := update_cases id hq
    exacts [hcheck b h, hr.check q b h]
  copying := by
    intro q tail hq
    obtain ⟨-, h⟩ | ⟨-, h⟩ := update_cases id hq
    exacts [hcopy tail h, hr.copying q tail h]
  past := by
    intro q hq
    obtain ⟨-, h⟩ | ⟨-, h⟩ := update_cases Pc.pastFirst hq
    exacts [hpast h, hr.past q h]

theorem crowded_withCache {bc : Option (List (Buf P))} {f : Sys P → Sys P} (hr : Crowded s)
    (h : ∀ bc', bc = some bc' → Crowded (f { s with bcache := bc' })) :
    Crowded (s.withCache bc f) := by
  unfold Sys.withCache
  split
  · exact h _ rfl
  · exact ⟨hr.cache, hr.room, hr.check, hr.copying, hr.past⟩

theorem crowded_append (hi : Inv s) (hr : Crowded s) {b : ℕ} (hp : s.pc p = .logWrite b) :
    Crowded (s.append p b) := by
  have hop : (s.pc p).isOp = true := by rw [hp]; rfl
  have hnone := (hi.not_committing hop).2
  exact {
    cache := (length_onBlock ..).trans_le hr.cache
    room := fun _ => hr.check p b hp
    check := by
      intro q c hq
      obtain ⟨-, h⟩ | ⟨-, h⟩ := update_cases id hq
      · exact absurd h (by simp)
      · exact hr.check q c h
    copying := by
      intro q tail hq
      obtain ⟨-, h⟩ | ⟨-, h⟩ := update_cases id hq
      · exact absurd h (by simp)
      · exact absurd (hnone q) (by simp [show s.pc q = .writeLog tail from h, Pc.isCommit])
    past := by
      intro q hq
      obtain ⟨-, h⟩ | ⟨-, h⟩ := update_cases Pc.pastFirst hq
      · exact absurd h (by decide)
      · exact absurd h (hi.not_past hop q) }

/-- A list that fills the log is not copied: the cache has no buffer for the first log block. -/
theorem Crowded.fits (hr : Crowded s) (hi : Inv s) {bc' : List (Buf P)} {tail src : ℕ}
    (hp : s.pc p = .writeLog tail)
    (hbc : writeLogBlock p (s.start + tail + 1) src s.bcache = some bc') :
    s.block.length < s.size := by
  cases tail with
  | succ tail => exact hr.past p (by rw [hp]; rfl)
  | zero =>
    by_contra hfull
    have hsize := hr.room (hr.copying p 0 hp)
    have hinst : ∀ q t, s.pc q ≠ .install t := by
      intro q t hq
      obtain rfl := hi.one q p (by rw [hq]; rfl) (by rw [hp]; rfl)
      simp [hp] at hq
    have hnone : bread p (s.start + 0 + 1) s.bcache = none := by
      refine bread_crowded hi.nodup (fun c hc => ?_) (hr.cache.trans (not_lt.mp hfull))
        fun hmem => by rcases hi.home _ hmem with h | h <;> omega
      obtain ⟨i, hlt, rfl⟩ := List.getElem_of_mem hc
      exact hi.pinned hr.past i hlt fun q t hq => absurd hq (hinst q t)
    rw [writeLogBlock, hnone] at hbc
    simp at hbc

theorem crowded_commitStep {t : Sys P} (hi : Inv s) (hr : Crowded s)
    (h : s.commitStep p (s.pc p) = some t) : Crowded t := by
  cases hp : s.pc p with
  | commit =>
    rw [hp] at h
    obtain rfl := Option.some.inj h
    refine crowded_move hr rfl (fun b => by split_ifs <;> simp) (fun tail hc => ?_) fun hc => ?_
    · intro hnil
      simp [hnil] at hc
    · split_ifs at hc <;> simp [Pc.pastFirst] at hc
  | writeLog tail =>
    rw [hp] at h
    obtain rfl := Option.some.inj h
    split
    · refine crowded_withCache hr fun bc' hbc => ?_
      exact crowded_move hr (length_writeLogBlock hbc) (by simp)
        (fun _ _ => hr.copying p tail hp) fun _ => hr.fits hi hp hbc
    · rename_i hnone
      refine crowded_move hr rfl (by simp) (by simp) fun _ => ?_
      cases tail with
      | zero =>
        exact absurd (List.eq_nil_of_length_eq_zero
          (Nat.le_zero.mp (List.getElem?_eq_none_iff.mp hnone))) (hr.copying p 0 hp)
      | succ tail => exact hr.past p (by rw [hp]; rfl)
  | writeHead =>
    rw [hp] at h
    obtain rfl := Option.some.inj h
    refine crowded_withCache hr fun bc' hbc => ?_
    exact crowded_move hr (length_writeHeadBlock hbc) (by simp) (by simp)
      fun _ => hr.past p (by rw [hp]; rfl)
  | install tail =>
    rw [hp] at h
    obtain rfl := Option.some.inj h
    split
    · refine crowded_withCache hr fun bc' hbc => ?_
      exact crowded_move hr (length_installBlock hbc) (by simp) (by simp)
        fun _ => hr.past p (by rw [hp]; rfl)
    · exact {
        cache := hr.cache
        room := fun h => absurd rfl h
        check := by
          intro q b hq
          obtain ⟨-, h⟩ | ⟨-, h⟩ := update_cases id hq
          · exact absurd h (by simp)
          · exact hr.check q b h
        copying := by
          intro q tail' hq
          obtain ⟨-, h⟩ | ⟨hne, h⟩ := update_cases id hq
          · exact absurd h (by simp)
          · exact absurd (hi.one q p (by rw [show s.pc q = _ from h]; rfl) (by rw [hp]; rfl)) hne
        past := by
          intro q hq
          obtain ⟨-, h⟩ | ⟨hne, h⟩ := update_cases Pc.pastFirst hq
          · exact absurd h (by decide)
          · exact absurd (hi.one q p (Pc.pastFirst_isCommit h) (by rw [hp]; rfl)) hne }
  | clearHead =>
    rw [hp] at h
    obtain rfl := Option.some.inj h
    refine crowded_withCache hr fun bc' hbc => ?_
    exact crowded_move hr (length_writeHeadBlock hbc) (by simp) (by simp) (by simp [Pc.pastFirst])
  | finish =>
    rw [hp] at h
    obtain rfl := Option.some.inj h
    refine crowded_of hr rfl rfl rfl fun q => ?_
    rcases eq_or_ne q p with rfl | hne
    · exact Or.inr (by simp [Sys.setPc, Pc.uncrowded])
    · by_cases hq : s.pc q = .asleep
      · exact Or.inr (by simp [Sys.setPc, Sys.wakeup, hne, hq, Pc.uncrowded])
      · exact Or.inl (by simp [Sys.setPc, Sys.wakeup, hne, hq])
  | idle | beginOp | asleep | inOp | logWrite b =>
    rw [hp] at h
    exact absurd h (by simp [Sys.commitStep])

theorem crowded_setPc (hr : Crowded s) {c : Pc} (hc : c.uncrowded) : Crowded (s.setPc p c) := by
  refine crowded_of hr rfl rfl rfl fun q => ?_
  rcases eq_or_ne q p with rfl | hne
  · exact Or.inr ((congrArg Pc.uncrowded (Function.update_self ..)).mpr hc)
  · exact Or.inl (Function.update_of_ne hne ..)

theorem crowded_step {t : Sys P} {a : Act P} (hi : Inv s) (hr : Crowded s) (h : s.Step a t) :
    Crowded t := by
  obtain ⟨-, h⟩ := Sys.step_effect h
  cases a with
  | enter p | kill p =>
    obtain ⟨hp, rfl⟩ := h
    exact crowded_setPc hr trivial
  | tryBegin p =>
    obtain ⟨hp, rfl⟩ := h
    unfold Sys.tryBegin
    split_ifs
    · exact crowded_setPc hr trivial
    · exact crowded_setPc hr trivial
    · have := crowded_setPc (p := p) (c := .inOp) hr trivial
      exact ⟨this.cache, this.room, this.check, this.copying, this.past⟩
  | read p b =>
    obtain ⟨hp, rfl⟩ := h
    refine crowded_withCache hr fun bc' hbc => ?_
    exact crowded_of hr rfl (length_bread hbc) rfl fun _ => Or.inl rfl
  | release p b =>
    obtain ⟨-, rfl⟩ := h
    exact crowded_of hr rfl (length_brelse ..) rfl fun _ => Or.inl rfl
  | checkLog p b =>
    obtain ⟨-, rfl⟩ := h
    unfold Sys.checkLog
    split_ifs with hbig
    · exact ⟨hr.cache, hr.room, hr.check, hr.copying, hr.past⟩
    · exact ⟨hr.cache, hr.room, hr.check, hr.copying, hr.past⟩
    · exact crowded_move hr rfl (fun _ _ => by omega) (by simp) (by simp [Pc.pastFirst])
  | append p =>
    obtain ⟨b, hp, rfl⟩ := h
    exact crowded_append hi hr hp
  | endOp p =>
    obtain ⟨hp, rfl⟩ := h
    obtain ⟨hc, -⟩ := hi.not_committing (p := p) (by rw [hp]; rfl)
    simp only [Sys.endOp, hc, Bool.false_eq_true, if_false]
    split_ifs
    · have := crowded_setPc (p := p) (c := .commit) hr trivial
      exact ⟨this.cache, this.room, this.check, this.copying, this.past⟩
    · refine crowded_of hr rfl rfl rfl fun q => ?_
      rcases eq_or_ne q p with rfl | hne
      · exact Or.inr (by simp [Sys.setPc, Pc.uncrowded])
      · by_cases hq : s.pc q = .asleep
        · exact Or.inr (by simp [Sys.setPc, Sys.wakeup, hne, hq, Pc.uncrowded])
        · exact Or.inl (by simp [Sys.setPc, Sys.wakeup, hne, hq])
  | commitStep p => exact crowded_commitStep hi hr h

end Crowded

/-! ### The committed transactions -/

section Runs

variable {P : Type} [Fintype P] [DecidableEq P]

/-- What `log.lock` protects in a state in which it is free, with a cache of `nbuf` buffers and a log
    of `size` blocks. -/
structure GroupCommit (nbuf size : ℕ) (s : Sys P) : Prop where
  /-- While `committing` is set no operation runs and no `log_write` can start or go on. -/
  quiet : s.committing = true → s.outstanding = 0 ∧ (∀ p, (s.pc p).isOp = false) ∧
    ∀ p b, s.next (.checkLog p b) = none ∧ s.next (.append p) = none
  drained : s.outstanding = 0 → s.committing = false → s.block = []
  nodup : s.block.Nodup
  /-- Until `commit()` sets `log.lh.n = 0`, the list is what was logged since the last commit. -/
  exact : (∀ p, (s.pc p).isClearing = false) → ∀ b, b ∈ s.block ↔ b ∈ s.since
  cleared : ∀ p, (s.pc p).isClearing = true → s.block = []
  /-- A block not yet installed is pinned, if the list fits the log or the cache is no larger. -/
  pinned : s.block.length < s.size ∨ nbuf ≤ size →
    ∀ i (hi : i < s.block.length),
      (∀ p tail, s.pc p = .install tail → tail ≤ i) → Pinned s.block[i] s.bcache
  /-- The transaction being committed is all the writes of the operations completed since. -/
  whole : s.committing = true → (∀ p, (s.pc p).isClearing = false) →
    ∀ b, b ∈ s.block ↔ ∃ o ∈ s.completed, b ∈ o
  sleeper : ∀ p, s.pc p = .asleep → (s.committing = true ∨ 0 < s.outstanding) ∧
    ∃ q, (s.pc q).isOp = true ∨ (s.pc q).isCommit = true
  /-- The operation or the commit that a sleeper waits for ends with nobody asleep. -/
  woken : ∀ p t, (s.pc p = .inOp ∧ s.Step (.endOp p) t ∨
    s.pc p = .finish ∧ s.Step (.commitStep p) t) → t.committing = true ∨ ∀ q, t.pc q ≠ .asleep

theorem awake_update {s : Sys P} {p : P} (q : P) :
    Function.update s.wakeup.pc p .idle q ≠ .asleep := by
  intro hq
  obtain ⟨-, h⟩ | ⟨-, h⟩ := update_cases id hq
  · exact absurd h (by simp)
  · exact wakeup_awake s q h

theorem Inv.woken {s : Sys P} (hi : Inv s) {p : P} {t : Sys P}
    (h : s.pc p = .inOp ∧ s.Step (.endOp p) t ∨ s.pc p = .finish ∧ s.Step (.commitStep p) t) :
    t.committing = true ∨ ∀ q, t.pc q ≠ .asleep := by
  rcases h with ⟨hp, h⟩ | ⟨hp, h⟩
  · obtain ⟨hc, -⟩ := hi.not_committing (p := p) (by rw [hp]; rfl)
    obtain ⟨-, -, rfl⟩ := Sys.step_effect h
    simp only [Sys.endOp, hc, Bool.false_eq_true, if_false]
    split_ifs
    · exact Or.inl rfl
    · exact Or.inr awake_update
  · obtain ⟨-, h⟩ := Sys.step_effect h
    rw [Sys.Effect, hp] at h
    obtain rfl := Option.some.inj h
    exact Or.inr awake_update

theorem Inv.groupCommit {s : Sys P} {nbuf size : ℕ} (hi : Inv s)
    (hr : nbuf ≤ size → Crowded s) : GroupCommit nbuf size s where
  quiet := by
    intro hc
    have h0 := hi.quiet hc
    have hop : ∀ p, (s.pc p).isOp = false := opCount_eq_zero (hi.count.symm.trans h0)
    refine ⟨h0, hop, fun p b => ?_⟩
    constructor
    · by_contra hne
      obtain ⟨t, ht⟩ := Option.ne_none_iff_exists'.mp hne
      obtain ⟨-, ⟨hp, -⟩, -⟩ := Sys.step_effect (t := t) (a := .checkLog p b) ht
      exact absurd (hop p) (by simp [hp, Pc.isOp])
    · by_contra hne
      obtain ⟨t, ht⟩ := Option.ne_none_iff_exists'.mp hne
      obtain ⟨-, b, hp, -⟩ := Sys.step_effect (t := t) (a := .append p) ht
      exact absurd (hop p) (by simp [hp, Pc.isOp])
  drained := hi.drained
  nodup := hi.nodup
  exact := hi.exact
  cleared := hi.cleared
  pinned := by
    rintro (hlt | hle) i hlt' ht
    · exact hi.pinned (fun _ _ => hlt) i hlt' ht
    · exact hi.pinned (hr hle).past i hlt' ht
  whole := by
    intro hc hclr b
    have hop : ∀ p, (s.pc p).isOp = false := opCount_eq_zero (hi.count.symm.trans (hi.quiet hc))
    refine (hi.exact hclr b).trans ((hi.whole b).trans (or_iff_left ?_))
    rintro ⟨q, hq⟩
    rw [hi.fresh q (hop q)] at hq
    exact absurd hq List.not_mem_nil
  sleeper := by
    intro p hp
    refine ⟨hi.sleeper p hp, ?_⟩
    rcases hi.sleeper p hp with hc | hpos
    · obtain ⟨q, hq⟩ := hi.commit.mp hc
      exact ⟨q, Or.inr hq⟩
    · rw [hi.count, opCount, Finset.card_pos] at hpos
      obtain ⟨q, hq⟩ := hpos
      exact ⟨q, Or.inl (Finset.mem_filter.mp hq).2⟩
  woken := fun _ _ h => hi.woken h

theorem crowded_init {start size : ℕ} {bc : List (Buf P)} (h : bc.length ≤ size) :
    Crowded (Sys.init start size bc) where
  cache := h
  room := fun h => absurd rfl h
  check := by simp [Sys.init]
  copying := by simp [Sys.init]
  past := by simp [Sys.init, Pc.pastFirst]

/-- Group commit: whatever the interleaving, in every state with `log.lock` free the log holds
    exactly the writes of whole operations. -/
theorem group_commit {start size : ℕ} {bc : List (Buf P)} {s : Sys P}
    {l : List (Sys P × Act P)} (hrun : Run Sys.Step (Sys.init start size bc) l s) :
    GroupCommit bc.length size s := by
  have hi : Throughout Inv l s := hrun.invariant (C := fun _ _ => True)
    (fun _ _ _ hi _ h => inv_step hi h) (inv_init start size bc) fun _ _ => trivial
  refine hi.2.groupCommit fun hle => ?_
  have hr : Throughout (fun s => Inv s ∧ Crowded s) l s := hrun.invariant (C := fun _ _ => True)
    (fun _ _ _ h _ hst => ⟨inv_step h.1 hst, crowded_step h.1 h.2 hst⟩)
    ⟨inv_init start size bc, crowded_init hle⟩ fun _ _ => trivial
  exact hr.2.2

end Runs

/-! ### Where the plain statement fails -/

/-- One operation of process `p` on the blocks `bs`, up to its `end_op`. -/
def opActs {P : Type} (p : P) (bs : List ℕ) : List (Act P) :=
  .enter p :: .tryBegin p ::
    bs.flatMap fun b => [.read p b, .checkLog p b, .append p, .release p b]

/-- A transaction of block 40 in a log of `nlog` blocks, up to `log.lh.n = 0`. -/
def clearingRun : List (Act (Fin 1)) :=
  opActs 0 [40] ++ .endOp 0 :: List.replicate 6 (.commitStep 0)

/-- In a log of three blocks 2, 3 and 4, two processes pass the test of `log_write` together, and
    the third log block is the home block 5. -/
def overfullRun : List (Act (Fin 2)) :=
  opActs 0 [40] ++ .enter 1 :: .tryBegin 1 :: .read 0 41 :: .read 1 5 ::
    .checkLog 0 41 :: .checkLog 1 5 :: .append 0 :: .append 1 ::
    .endOp 0 :: .endOp 1 :: List.replicate 4 (.commitStep 1)

/-- `group_commit` along `clearingRun`, one step before its end. -/
theorem group_commit_one :
    ∃ s l, Run Sys.Step (Sys.init 2 nlog (binit (Fin 1) NBUF)) l s ∧
      s.block = [40] ∧ GroupCommit (binit (Fin 1) NBUF).length nlog s := by
  obtain ⟨s, l, hrun, hs⟩ := Run.of_exec_any Sys.next clearingRun.dropLast
    (Sys.init 2 nlog (binit (Fin 1) NBUF)) (fun s => s.block = [40]) (by decide +kernel)
  exact ⟨s, l, hrun, of_decide_eq_true hs, group_commit hrun⟩

/-- Between `log.lh.n = 0` and the end of the commit the list is no longer what was logged since
    the last commit; and if the list fills a small log, the last copy to the log unpins a home
    block that is not installed yet. -/
theorem group_commit_gaps :
    (∃ s l, Run Sys.Step (Sys.init 2 nlog (binit (Fin 1) NBUF)) l s ∧
      s.pc 0 = .clearHead ∧ s.since = [40] ∧ s.block = []) ∧
    (∃ s l, Run Sys.Step (Sys.init 2 3 (binit (Fin 2) NBUF)) l s ∧
      s.pc 0 = .idle ∧ s.pc 1 = .writeLog 3 ∧ 5 ∈ s.block ∧ ¬ Pinned 5 s.bcache) := by
  constructor
  · obtain ⟨s, l, hrun, hs⟩ := Run.of_exec_any Sys.next clearingRun
      (Sys.init 2 nlog (binit (Fin 1) NBUF)) (fun s => s.pc 0 = .clearHead ∧ s.since = [40] ∧ s.block = []) (by decide +kernel)
    exact ⟨s, l, hrun, of_decide_eq_true hs⟩
  · obtain ⟨s, l, hrun, hs⟩ := Run.of_exec_any Sys.next overfullRun
      (Sys.init 2 3 (binit (Fin 2) NBUF)) (fun s => s.pc 0 = .idle ∧ s.pc 1 = .writeLog 3 ∧ 5 ∈ s.block ∧
        ¬ Pinned 5 s.bcache) (by decide +kernel)
    exact ⟨s, l, hrun, of_decide_eq_true hs⟩

end Xv6.Log
