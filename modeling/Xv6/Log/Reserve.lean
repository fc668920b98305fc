import Xv6.Log.Invariant
import Mathlib.Algebra.BigOperators.Group.Finset.Basic
import Mathlib.Algebra.Order.BigOperators.Group.Finset

/-! @src log.c param.h mkfs.c | name:Log space reservation | layer:proof

    Every running operation has a share of `MAXOPBLOCKS` blocks, less what it has logged. The list
    and the shares together stay within the log as long as `begin_op` admits no operation whose
    share does not fit; its own test bounds them by `LOGSIZE` only, which is one block too many for
    a log of `nlog = LOGSIZE` blocks, header included. -/

set_option linter.unusedSectionVars false

namespace Xv6.Log
open Xv6.Disk Xv6.Schemes

section Reserve

variable {P : Type} [Fintype P] [DecidableEq P]

/-- The blocks an operation may still log. -/
def share (c : Pc) (logged : List ℕ) : ℕ := if c.isOp then MAXOPBLOCKS - logged.length else 0

/-- The shares of all running operations. -/
def reserved (s : Sys P) : ℕ := ∑ p, share (s.pc p) (s.logged p)

/-- An operation calls `log_write` on at most `MAXOPBLOCKS` distinct blocks. -/
def Disciplined (s : Sys P) : Act P → Prop
  | .checkLog p b => b ∈ s.logged p ∨ (s.logged p).length < MAXOPBLOCKS
  | _ => True

instance (s : Sys P) : (a : Act P) → Decidable (Disciplined s a)
  | .checkLog p b => inferInstanceAs (Decidable (b ∈ s.logged p ∨ _))
  | .enter _ | .tryBegin _ | .kill _ | .read _ _ | .release _ _ | .append _ | .endOp _
  | .commitStep _ => isTrue trivial

/-- The loop of `begin_op` would be left. -/
def Admitted (s : Sys P) : Prop :=
  s.committing = false ∧ s.block.length + (s.outstanding + 1) * MAXOPBLOCKS ≤ LOGSIZE

/-- An admitted operation's share fits in the log, and no block is logged again in a full log. -/
def RoomFor (s : Sys P) : Act P → Prop
  | .tryBegin _ => Admitted s → s.block.length + (s.outstanding + 1) * MAXOPBLOCKS ≤ nlog - 1
  | .checkLog p b => b ∈ s.logged p → s.block.length < nlog - 1
  | _ => True

instance (s : Sys P) : Decidable (Admitted s) := inferInstanceAs (Decidable (_ ∧ _))

instance (s : Sys P) : (a : Act P) → Decidable (RoomFor s a)
  | .tryBegin _ => inferInstanceAs (Decidable (Admitted s → _))
  | .checkLog p b => inferInstanceAs (Decidable (b ∈ s.logged p → _))
  | .enter _ | .kill _ | .read _ _ | .release _ _ | .append _ | .endOp _ | .commitStep _ =>
    isTrue trivial

/-- `log_write` has not run out of log space. -/
def WithinLog (s : Sys P) : Prop :=
  s.panicked ≠ some "too big a transaction" ∧ s.block.length ≤ s.size - 1

/-! ### The sum of the shares -/

theorem share_le (c : Pc) (logged : List ℕ) : share c logged ≤ MAXOPBLOCKS := by
  unfold share
  split_ifs
  · exact Nat.sub_le ..
  · exact Nat.zero_le _

theorem share_idle {c : Pc} (h : c.isOp = false) (logged : List ℕ) : share c logged = 0 := by
  simp [share, h]

theorem share_op {c : Pc} (h : c.isOp = true) (logged : List ℕ) :
    share c logged = MAXOPBLOCKS - logged.length := by
  simp [share, h]

theorem reserved_congr {s t : Sys P} (hop : ∀ q, (t.pc q).isOp = (s.pc q).isOp)
    (hlog : t.logged = s.logged) : reserved t = reserved s := by
  simp only [reserved, share, hop, hlog]

/-- If only the share of `p` changes, so does the sum, by as much. -/
theorem reserved_change {s t : Sys P} (p : P)
    (h : ∀ q, q ≠ p → share (t.pc q) (t.logged q) = share (s.pc q) (s.logged q)) :
    reserved t + share (s.pc p) (s.logged p) = reserved s + share (t.pc p) (t.logged p) := by
  have hrest : ∑ q ∈ Finset.univ.erase p, share (t.pc q) (t.logged q) =
      ∑ q ∈ Finset.univ.erase p, share (s.pc q) (s.logged q) :=
    Finset.sum_congr rfl fun q hq => h q (Finset.ne_of_mem_erase hq)
  have hs := Finset.sum_erase_add Finset.univ (fun q => share (s.pc q) (s.logged q))
    (Finset.mem_univ p)
  have ht := Finset.sum_erase_add Finset.univ (fun q => share (t.pc q) (t.logged q))
    (Finset.mem_univ p)
  rw [hrest] at ht
  rw [reserved, reserved, ← hs, ← ht]
  omega

/-- One share is part of the sum. -/
theorem share_le_reserved (s : Sys P) (p : P) : share (s.pc p) (s.logged p) ≤ reserved s :=
  Finset.single_le_sum (f := fun q => share (s.pc q) (s.logged q)) (fun _ _ => Nat.zero_le _)
    (Finset.mem_univ p)

/-- No more is reserved than `begin_op` accounts for. -/
theorem reserved_le {s : Sys P} (hi : Inv s) : reserved s ≤ s.outstanding * MAXOPBLOCKS := by
  rw [hi.count, opCount, reserved,
    ← Finset.sum_filter_add_sum_filter_not Finset.univ fun p => (s.pc p).isOp = true]
  have hidle : ∑ p ∈ Finset.univ.filter (fun p => ¬ (s.pc p).isOp = true),
      share (s.pc p) (s.logged p) = 0 :=
    Finset.sum_eq_zero fun p hp =>
      share_idle (by simpa using (Finset.mem_filter.mp hp).2) _
  rw [hidle, Nat.add_zero]
  exact Finset.sum_le_card_nsmul _ _ _ fun p _ => share_le ..

/-- What an operation logs is in the list until the commit. -/
theorem Inv.logged_block {s : Sys P} (hi : Inv s) {p : P} {b : ℕ} (hb : b ∈ s.logged p) :
    b ∈ s.block := by
  have hop : (s.pc p).isOp = true := by
    by_contra h
    rw [hi.fresh p (by simpa using h)] at hb
    exact absurd hb List.not_mem_nil
  refine (hi.exact (fun q => ?_) b).mpr ((hi.whole b).mpr (Or.inr ⟨p, hb⟩))
  by_contra hq
  have := (hi.not_committing hop).2 q
  rw [Pc.isClearing_isCommit (by simpa using hq)] at this
  exact absurd this (by decide)

/-! ### The invariant -/

/-- The list and the shares fit in the log, header aside. -/
structure Reserved (s : Sys P) : Prop where
  size : s.size = nlog
  fits : s.block.length + reserved s ≤ nlog - 1
  bound : ∀ p, (s.logged p).length ≤ MAXOPBLOCKS
  next : ∀ p b, s.pc p = .logWrite b → b ∈ s.logged p ∨ (s.logged p).length < MAXOPBLOCKS
  panicked : s.panicked ≠ some "too big a transaction"

theorem reserved_init (start : ℕ) (bc : List (Buf P)) : Reserved (Sys.init start nlog bc) where
  size := rfl
  fits := by
    have h : reserved (Sys.init start nlog bc) = 0 := Finset.sum_eq_zero fun _ _ => rfl
    rw [h]
    exact Nat.zero_le _
  bound := fun _ => Nat.zero_le _
  next := by simp [Sys.init]
  panicked := by simp [Sys.init]

theorem Reserved.within {s : Sys P} (h : Reserved s) : WithinLog s :=
  ⟨h.panicked, by rw [h.size]; exact le_trans (Nat.le_add_right ..) h.fits⟩

variable {s : Sys P} {p : P}

/-- A step that runs no part of `begin_op`, `log_write` or `end_op`. -/
theorem reserved_of {t : Sys P} (hr : Reserved s) (hsize : t.size = s.size)
    (hblock : t.block.length ≤ s.block.length) (hlog : t.logged = s.logged)
    (hop : ∀ q, (t.pc q).isOp = (s.pc q).isOp)
    (hnext : ∀ q b, t.pc q = .logWrite b → s.pc q = .logWrite b ∨
      b ∈ s.logged q ∨ (s.logged q).length < MAXOPBLOCKS)
    (hpan : t.panicked = s.panicked ∨ ∃ msg, t.panicked = some msg ∧
      msg ≠ "too big a transaction") : Reserved t where
  size := hsize.trans hr.size
  fits := by
    rw [reserved_congr hop hlog]
    exact le_trans (Nat.add_le_add_right hblock _) hr.fits
  bound := by rw [hlog]; exact hr.bound
  next := by
    intro q b hq
    rw [hlog]
    exact (hnext q b hq).elim (hr.next q b) id
  panicked := by
    rcases hpan with h | ⟨msg, h, hne⟩
    · rw [h]; exact hr.panicked
    · rw [h]; exact fun he => hne (Option.some.inj he)

theorem reserved_setPc (hr : Reserved s) {c : Pc} (hop : c.isOp = (s.pc p).isOp)
    (hnext : ∀ b, c = .logWrite b → b ∈ s.logged p ∨ (s.logged p).length < MAXOPBLOCKS) :
    Reserved (s.setPc p c) := by
  refine reserved_of hr rfl (le_refl _) rfl (update_self_of _ hop) (fun q b hq => ?_) (Or.inl rfl)
  obtain ⟨rfl, h⟩ | ⟨-, h⟩ := update_cases id hq
  · exact Or.inr (hnext b h)
  · exact Or.inl h

theorem reserved_withCache {bc : Option (List (Buf P))} {c : Pc} (hr : Reserved s)
    (hop : c.isOp = (s.pc p).isOp) (hc : ∀ b, c ≠ .logWrite b) :
    Reserved (s.withCache bc (·.setPc p c)) := by
  unfold Sys.withCache
  split
  · have := reserved_setPc hr hop fun b hb => absurd hb (hc b)
    exact ⟨this.size, this.fits, this.bound, this.next, this.panicked⟩
  · exact reserved_of hr rfl (le_refl _) rfl (fun _ => rfl) (fun _ _ => Or.inl)
      (Or.inr ⟨_, rfl, by decide⟩)

theorem reserved_tryBegin (hi : Inv s) (hr : Reserved s) (hp : s.pc p = .beginOp)
    (hfit : Admitted s → s.block.length + (s.outstanding + 1) * MAXOPBLOCKS ≤ nlog - 1) :
    Reserved (s.tryBegin p) := by
  unfold Sys.tryBegin
  split_ifs with hc hfull
  · exact reserved_setPc hr (by rw [hp]; rfl) (by simp)
  · exact reserved_setPc hr (by rw [hp]; rfl) (by simp)
  · have hroom := hfit ⟨by simpa using hc, by omega⟩
    have hle := reserved_le hi
    refine {
      size := hr.size
      fits := ?_
      bound := ?_
      next := ?_
      panicked := hr.panicked }
    · have h := reserved_change (s := s) (t := { s.setPc p .inOp with
        outstanding := s.outstanding + 1, logged := Function.update s.logged p [] }) p
        fun q hq => by simp only [Sys.setPc, Function.update_of_ne hq]
      rw [share_idle (c := s.pc p) (by rw [hp]; rfl)] at h
      have hshare := share_le (Function.update s.pc p Pc.inOp p) (Function.update s.logged p [] p)
      rw [Nat.add_mul] at hroom
      have hM := MAXOPBLOCKS_eq
      simp only [Sys.setPc] at h hshare ⊢
      omega
    · intro q
      rcases eq_or_ne q p with rfl | hne
      · simp [Function.update_self]
      · simp only [Function.update_of_ne hne]
        exact hr.bound q
    · intro q b hq
      obtain ⟨-, h⟩ | ⟨hne, h⟩ := update_cases id hq
      · exact absurd h (by simp)
      · simp only [Function.update_of_ne hne]
        exact hr.next q b h

theorem reserved_checkLog (hr : Reserved s) (hp : s.pc p = .inOp) {b : ℕ}
    (hdisc : b ∈ s.logged p ∨ (s.logged p).length < MAXOPBLOCKS)
    (hfit : b ∈ s.logged p → s.block.length < nlog - 1) : Reserved (s.checkLog p b) := by
  -- the operation's own share, or the condition on absorbed blocks, leaves a free log block
  have hlt : s.block.length < nlog - 1 := by
    rcases hdisc with hb | hlt
    · exact hfit hb
    · have hshare := share_le_reserved s p
      rw [share_op (by rw [hp]; rfl)] at hshare
      have := hr.fits
      omega
  have hL := LOGSIZE_eq
  have hn := nlog_eq
  have hsize := hr.size
  unfold Sys.checkLog
  split_ifs with hbig
  · omega
  · exact reserved_of hr rfl (le_refl _) rfl (fun _ => rfl) (fun _ _ => Or.inl)
      (Or.inr ⟨_, rfl, by decide⟩)
  · refine reserved_setPc hr (by rw [hp]; rfl) fun c hc => ?_
    obtain rfl := Pc.logWrite.inj hc
    exact hdisc

theorem reserved_append (hi : Inv s) (hr : Reserved s) {b : ℕ} (hp : s.pc p = .logWrite b) :
    Reserved (s.append p b) := by
  have hlogged : (s.append p b).logged = Function.update s.logged p
      (if b ∈ s.logged p then s.logged p else b :: s.logged p) := rfl
  refine {
    size := hr.size
    fits := ?_
    bound := ?_
    next := ?_
    panicked := hr.panicked }
  · have h := reserved_change (s := s) (t := s.append p b) p fun q hq => by
      simp only [Sys.append, Sys.setPc, Function.update_of_ne hq]
    rw [share_op (c := s.pc p) (by rw [hp]; rfl), share_op (c := (s.append p b).pc p)
      (by simp [Sys.append, Sys.setPc, Pc.isOp])] at h
    have hfits := hr.fits
    by_cases hb : b ∈ s.logged p
    · have hlog : ((s.append p b).logged p).length = (s.logged p).length := by
        simp [Sys.append, hb]
      have hblock : (s.append p b).block.length = s.block.length := by
        simp [Sys.append, hi.logged_block hb]
      omega
    · have hlog : ((s.append p b).logged p).length = (s.logged p).length + 1 := by
        simp [Sys.append, hb]
      have hblock : (s.append p b).block.length ≤ s.block.length + 1 := by
        simp only [Sys.append]
        split_ifs
        · omega
        · simp
      have := (hr.next p b hp).resolve_left hb
      omega
  · intro q
    rw [hlogged]
    rcases eq_or_ne q p with rfl | hne
    · rw [Function.update_self]
      split_ifs with hb
      · exact hr.bound q
      · exact (hr.next q b hp).resolve_left hb
    · rw [Function.update_of_ne hne]
      exact hr.bound q
  · intro q c hq
    obtain ⟨-, h⟩ | ⟨hne, h⟩ := update_cases id hq
    · exact absurd h (by simp)
    · rw [hlogged, Function.update_of_ne hne]
      exact hr.next q c h

theorem reserved_endOp (hi : Inv s) (hr : Reserved s) (hp : s.pc p = .inOp) :
    Reserved (s.endOp p) := by
  obtain ⟨hc, -⟩ := hi.not_committing (p := p) (by rw [hp]; rfl)
  have hpc : ∀ q, q ≠ p → ((s.endOp p).pc q).isOp = (s.pc q).isOp := by
    intro q hne
    simp only [Sys.endOp, hc, Bool.false_eq_true, if_false]
    split_ifs
    · simp [Sys.setPc, hne]
    · simp only [Sys.setPc, Function.update_of_ne hne]
      exact wakeup_of Pc.isOp rfl s q
  have hpp : ((s.endOp p).pc p).isOp = false := by
    simp only [Sys.endOp, hc, Bool.false_eq_true, if_false]
    split_ifs <;> simp [Sys.setPc, Pc.isOp]
  have hlog : (s.endOp p).logged = Function.update s.logged p [] := by
    simp only [Sys.endOp, hc, Bool.false_eq_true, if_false]
    split_ifs <;> rfl
  have hrest : (s.endOp p).size = s.size ∧ (s.endOp p).block = s.block ∧
      (s.endOp p).panicked = s.panicked := by
    simp only [Sys.endOp, hc, Bool.false_eq_true, if_false]
    split_ifs <;> exact ⟨rfl, rfl, rfl⟩
  refine {
    size := hrest.1.trans hr.size
    fits := ?_
    bound := ?_
    next := ?_
    panicked := hrest.2.2 ▸ hr.panicked }
  · have h := reserved_change (s := s) (t := s.endOp p) p fun q hq => by
      rw [share, hpc q hq, hlog, Function.update_of_ne hq, share]
    rw [share_idle hpp] at h
    have := hr.fits
    rw [hrest.2.1]
    omega
  · intro q
    rw [hlog]
    rcases eq_or_ne q p with rfl | hne
    · simp
    · rw [Function.update_of_ne hne]
      exact hr.bound q
  · intro q b hq
    have hne : q ≠ p := by
      rintro rfl
      simp [hq, Pc.isOp] at hpp
    rw [hlog, Function.update_of_ne hne]
    refine hr.next q b ?_
    simp only [Sys.endOp, hc, Bool.false_eq_true, if_false] at hq
    split_ifs at hq
    · exact (Function.update_of_ne hne ..).symm.trans hq
    · exact wakeup_pc (by simp) ((Function.update_of_ne hne ..).symm.trans hq)

theorem reserved_commitStep {t : Sys P} (hr : Reserved s)
    (h : s.commitStep p (s.pc p) = some t) : Reserved t := by
  cases hp : s.pc p with
  | commit =>
    rw [hp] at h
    obtain rfl := Option.some.inj h
    exact reserved_setPc hr (by rw [hp]; split_ifs <;> rfl) (fun b => by split_ifs <;> simp)
  | writeLog tail =>
    rw [hp] at h
    obtain rfl := Option.some.inj h
    split
    · exact reserved_withCache hr (by rw [hp]; rfl) (by simp)
    · exact reserved_setPc hr (by rw [hp]; rfl) (by simp)
  | writeHead | clearHead =>
    rw [hp] at h
    obtain rfl := Option.some.inj h
    exact reserved_withCache hr (by rw [hp]; rfl) (by simp)
  | install tail =>
    rw [hp] at h
    obtain rfl := Option.some.inj h
    split
    · exact reserved_withCache hr (by rw [hp]; rfl) (by simp)
    · refine reserved_of hr rfl (Nat.zero_le _) rfl (update_self_of _ (by rw [hp]; rfl))
        (fun q b hq => ?_) (Or.inl rfl)
      obtain ⟨-, h⟩ | ⟨-, h⟩ := update_cases id hq
      · exact absurd h (by simp)
      · exact Or.inl h
  | finish =>
    rw [hp] at h
    obtain rfl := Option.some.inj h
    refine reserved_of hr rfl (le_refl _) rfl (fun q => ?_) (fun q b hq => ?_) (Or.inl rfl)
    · have hp' : Pc.isOp .idle = (s.wakeup.pc p).isOp := by rw [wakeup_of Pc.isOp rfl, hp]; rfl
      exact (update_self_of Pc.isOp hp' q).trans (wakeup_of Pc.isOp rfl s q)
    · obtain ⟨-, h⟩ | ⟨-, h⟩ := update_cases id hq
      · exact absurd h (by simp)
      · exact Or.inl (wakeup_pc (by simp) h)
  | idle | beginOp | asleep | inOp | logWrite b =>
    rw [hp] at h
    exact absurd h (by simp [Sys.commitStep])

/-- A step of a disciplined operation that fits keeps the reservation. -/
theorem reserved_step {t : Sys P} {a : Act P} (hi : Inv s) (hr : Reserved s)
    (hd : Disciplined s a) (hf : RoomFor s a) (h : s.Step a t) : Reserved t := by
  obtain ⟨-, h⟩ := Sys.step_effect h
  cases a with
  | enter p | kill p =>
    obtain ⟨hp, rfl⟩ := h
    exact reserved_setPc hr (by rw [hp]; rfl) (by simp)
  | tryBegin p =>
    obtain ⟨hp, rfl⟩ := h
    exact reserved_tryBegin hi hr hp hf
  | read p b =>
    obtain ⟨hp, rfl⟩ := h
    unfold Sys.withCache
    split
    · exact reserved_of hr rfl (le_refl _) rfl (fun _ => rfl) (fun _ _ => Or.inl) (Or.inl rfl)
    · exact reserved_of hr rfl (le_refl _) rfl (fun _ => rfl) (fun _ _ => Or.inl)
        (Or.inr ⟨_, rfl, by decide⟩)
  | release p b =>
    obtain ⟨-, rfl⟩ := h
    exact reserved_of hr rfl (le_refl _) rfl (fun _ => rfl) (fun _ _ => Or.inl) (Or.inl rfl)
  | checkLog p b =>
    obtain ⟨⟨hp, -⟩, rfl⟩ := h
    exact reserved_checkLog hr hp hd hf
  | append p =>
    obtain ⟨b, hp, rfl⟩ := h
    exact reserved_append hi hr hp
  | endOp p =>
    obtain ⟨hp, rfl⟩ := h
    exact reserved_endOp hi hr hp
  | commitStep p => exact reserved_commitStep hr h

/-- Log space reservation: on a disk laid out by `mkfs`, operations of at most `MAXOPBLOCKS` blocks
    stay within the log in every run whose steps fit. -/
theorem reservation_sufficient {start : ℕ} {bc : List (Buf P)} {s : Sys P}
    {l : List (Sys P × Act P)} (hrun : Run Sys.Step (Sys.init start nlog bc) l s)
    (hops : Along Disciplined l) (hfits : Along RoomFor l) : Throughout WithinLog l s := by
  have h : Throughout (fun s => Inv s ∧ Reserved s) l s :=
    hrun.invariant (C := fun s a => Disciplined s a ∧ RoomFor s a)
      (fun _ _ _ h hC hst => ⟨inv_step h.1 hst, reserved_step h.1 h.2 hC.1 hC.2 hst⟩)
      ⟨inv_init start nlog bc, reserved_init start bc⟩ fun x hx => ⟨hops x hx, hfits x hx⟩
  exact h.mono fun _ h => h.2.within

end Reserve

/-! ### The third operation -/

/-- Three operations begin, and each logs ten blocks of its own; the last stops at the panic. -/
def threeOps : List (Act (Fin 3)) :=
  [.enter 0, .tryBegin 0, .enter 1, .tryBegin 1, .enter 2, .tryBegin 2] ++
    (List.range 29).flatMap (fun i =>
      let p : Fin 3 := Fin.ofNat 3 (i / 10)
      [.read p (40 + i), .checkLog p (40 + i), .append p]) ++
    [.read 2 69, .checkLog 2 69]

/-- Two operations on ten blocks each. -/
def twoOps : List (Act Bool) :=
  [.enter false, .tryBegin false, .enter true, .tryBegin true] ++
    (List.range 20).flatMap (fun i =>
      let p : Bool := 10 ≤ i
      [.read p (40 + i), .checkLog p (40 + i), .append p])

/-- `begin_op` admits three operations at once, but their thirty blocks do not fit: on a disk laid
    out by `mkfs` the thirtieth `log_write` panics. -/
theorem three_ops_panic :
    ∃ s l, Run Sys.Step (Sys.init 2 nlog (binit (Fin 3) NBUF)) l s ∧
      Along Disciplined l ∧ s.panicked = some "too big a transaction" := by
  have h : ((exec Sys.next (Sys.init 2 nlog (binit (Fin 3) NBUF)) threeOps).any fun s =>
      s.panicked = some "too big a transaction") = true := by decide +kernel
  obtain ⟨s, hs, hp⟩ := (Option.any_eq_true _ _).mp h
  refine ⟨s, _, Run.of_exec hs, ?_, of_decide_eq_true hp⟩
  unfold Along
  decide +kernel

/-- `reservation_sufficient` along `twoOps`. -/
theorem two_ops_fit :
    ∃ s l, Run Sys.Step (Sys.init 2 nlog (binit Bool NBUF)) l s ∧
      s.block.length = 20 ∧ Throughout WithinLog l s := by
  have h : ((exec Sys.next (Sys.init 2 nlog (binit Bool NBUF)) twoOps).any fun s =>
      s.block.length = 20) = true := by decide +kernel
  obtain ⟨s, hs, hp⟩ := (Option.any_eq_true _ _).mp h
  refine ⟨s, _, Run.of_exec hs, of_decide_eq_true hp,
    reservation_sufficient (Run.of_exec hs) ?_ ?_⟩
  · unfold Along
    decide +kernel
  · unfold Along
    decide +kernel

end Xv6.Log
