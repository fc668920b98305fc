import Xv6.Log.Recovery
import Mathlib.Logic.Relation
import Mathlib.Tactic.IntervalCases

/-! @src log.c bio.c | name:Crash atomicity of the log | layer:proof

    The writes of `commit()` are the log copies, the header, the home copies and the cleared header.
    The disk goes through three kinds of state: OLD (header clear, home blocks untouched), COMMITTED
    (header and log copies on disk, logged home blocks in any state) and NEW (header clear, home
    blocks overlaid). Every single write, of `commit()` or of a recovery, keeps the kind or moves to
    the next one, and a recovery that completes maps OLD to OLD and the other two to NEW. -/

namespace Xv6.Log
open Xv6.Disk Xv6.Schemes

/-! ### The header block -/

theorem getInt_putBlocks_low : ∀ (bs : LogHeader) (i : ℕ) (hb : Block) {j : ℕ}, j ≤ i →
    (putBlocks i bs hb).getInt j = hb.getInt j
  | [], _, _, _, _ => rfl
  | b :: bs, i, hb, j, hj => by
    rw [putBlocks, getInt_putBlocks_low bs (i + 1) _ (by omega),
      Block.getInt_putInt_other _ _ (by omega)]

theorem getInt_putBlocks : ∀ (bs : LogHeader) (i : ℕ) (hb : Block), i + bs.length < BSIZE / 4 →
    ∀ k (hk : k < bs.length), (putBlocks i bs hb).getInt (i + k + 1) = bs[k]
  | [], _, _, _, k, hk => absurd hk (by simp)
  | b :: bs, i, hb, hlen, k, hk => by
    simp only [List.length_cons] at hlen hk
    rw [putBlocks]
    cases k with
    | zero =>
      rw [getInt_putBlocks_low bs (i + 1) _ (by omega), Block.getInt_putInt_same _ (by omega)]
      rfl
    | succ k =>
      have h := getInt_putBlocks bs (i + 1) (hb.putInt (i + 1) b) (by omega) k (by omega)
      rw [show i + (k + 1) + 1 = i + 1 + k + 1 by omega, h]
      rfl

/-- The header block `h` announces exactly the logged blocks `lh`. -/
def Announces (h : Block) (lh : LogHeader) : Prop :=
  headN h = lh.length ∧ ∀ k (hk : k < lh.length), h.getInt (k + 1) = lh[k]

theorem putHead_announces (lh : LogHeader) (hb : Block) (hlen : lh.length ≤ LOGSIZE) :
    Announces (putHead lh hb) lh := by
  have hL := LOGSIZE_eq
  have hB := BSIZE_eq
  have h0 : (putHead lh hb).getInt 0 = UInt32.ofNat lh.length := by
    rw [putHead, getInt_putBlocks_low lh 0 _ (le_refl 0), Block.getInt_putInt_same _ (by decide)]
  have hn : (UInt32.ofNat lh.length).toNat = lh.length := by
    rw [UInt32.toNat_ofNat']; omega
  refine ⟨?_, fun k hk => ?_⟩
  · rw [headN, h0, hn, if_pos (by omega)]
  · have h := getInt_putBlocks lh 0 (hb.putInt 0 (UInt32.ofNat lh.length)) (by omega) k hk
    rwa [Nat.zero_add] at h

theorem announces_nil {h : Block} : Announces h [] ↔ headN h = 0 := by simp [Announces]

theorem headN_putHead_nil (hb : Block) : headN (putHead [] hb) = 0 :=
  announces_nil.mp (putHead_announces [] hb (Nat.zero_le _))

/-- `read_head` brings the announced blocks back into memory. -/
theorem readHead_eq {start : BlockNo} {s : Dev} {lh : LogHeader}
    (h : Announces (s.bread start) lh) : readHead start s = lh := by
  apply List.ext_getElem
  · simp [readHead, h.1]
  · intro k _ hk
    simp only [readHead, List.getElem_map, List.getElem_range]
    exact h.2 k hk

/-! ### What the loops write -/

/-- The writes of `write_log`, for the cached contents `C`. -/
def logWrites (start : BlockNo) (C : BlockNo → Block) : ℕ → LogHeader → List (BlockNo × Block)
  | _, [] => []
  | tail, b :: bs => (logBlock start tail, C b) :: logWrites start C (tail + 1) bs

/-- The writes of `install_trans`, when the log copies hold `C`. -/
def homeWrites (C : BlockNo → Block) (lh : LogHeader) : List (BlockNo × Block) :=
  lh.map fun b => (b, C b)

namespace Dev

/-- Issue a list of block writes. -/
def issue (ws : List (BlockNo × Block)) (s : Dev) : Dev where
  disk := applyWrites ws s.disk
  buf := applyWrites (ws.map fun w => (w.1, some w.2)) s.buf
  wrote := s.wrote ++ ws

theorem bwrite_issue (s : Dev) (b : BlockNo) (data : Block) (ws : List (BlockNo × Block)) :
    (s.bwrite b data).issue ws = s.issue ((b, data) :: ws) := by
  simp [issue, bwrite, applyWrites]

theorem issue_bwrite (s : Dev) (b : BlockNo) (data : Block) (ws : List (BlockNo × Block)) :
    (s.issue ws).bwrite b data = s.issue (ws ++ [(b, data)]) := by
  simp [issue, bwrite, applyWrites_concat]

theorem issue_nil (s : Dev) : s.issue [] = s := by simp [issue]

theorem issue_issue (s : Dev) (ws vs : List (BlockNo × Block)) :
    (s.issue ws).issue vs = s.issue (ws ++ vs) := by
  simp [issue, applyWrites_append]

theorem bread_bwrite (s : Dev) (b : BlockNo) (data : Block) :
    (s.bwrite b data).bread = Function.update s.bread b data := by
  funext x
  rcases eq_or_ne x b with rfl | hne
  · simp [bread, bwrite]
  · simp [bread, bwrite, hne]

/-- Reads see the writes issued, whether from the cache or from the disk. -/
theorem bread_issue (s : Dev) (ws : List (BlockNo × Block)) :
    (s.issue ws).bread = applyWrites ws s.bread := by
  induction ws generalizing s with
  | nil => rw [issue_nil]; rfl
  | cons w ws ih => rw [← bwrite_issue, ih, bread_bwrite]; rfl

theorem bread_boot (d : BlockNo → Block) : (boot d).bread = d := by
  funext b; simp [bread, boot]

end Dev

theorem logBlock_eq (start : BlockNo) (tail : ℕ) :
    logBlock start tail = start + UInt32.ofNat (tail + 1) := by
  rw [logBlock, UInt32.add_assoc, show (1 : UInt32) = UInt32.ofNat 1 from rfl,
    ← UInt32.ofNat_add]

theorem add_ofNat_inj {start : BlockNo} {i j : ℕ} (hi : i < 2 ^ 32) (hj : j < 2 ^ 32)
    (h : start + UInt32.ofNat i = start + UInt32.ofNat j) : i = j := by
  have h' := UInt32.toNat_inj.mpr (UInt32.add_right_inj start |>.mp h)
  rw [UInt32.toNat_ofNat', UInt32.toNat_ofNat'] at h'
  omega

theorem logBlock_inLog {start : BlockNo} {size tail : ℕ} (h : tail + 1 < size) :
    InLog start size (logBlock start tail) := ⟨tail + 1, h, logBlock_eq start tail⟩

theorem start_inLog {start : BlockNo} {size : ℕ} (h : 0 < size) : InLog start size start :=
  ⟨0, h, by simp⟩

theorem logBlock_ne_start {start : BlockNo} {tail : ℕ} (h : tail < LOGSIZE) :
    logBlock start tail ≠ start := by
  intro he
  have hL := LOGSIZE_eq
  have he' : start + UInt32.ofNat (tail + 1) = start + UInt32.ofNat 0 := by
    rw [← logBlock_eq, he]; exact (UInt32.add_zero start).symm
  have := add_ofNat_inj (by omega) (by omega) he'
  omega

theorem logBlock_inj {start : BlockNo} {i j : ℕ} (hi : i < LOGSIZE) (hj : j < LOGSIZE)
    (h : logBlock start i = logBlock start j) : i = j := by
  have hL := LOGSIZE_eq
  rw [logBlock_eq, logBlock_eq] at h
  have := add_ofNat_inj (by omega) (by omega) h
  omega

theorem length_logWrites (start : BlockNo) (C : BlockNo → Block) :
    ∀ (tail : ℕ) (bs : LogHeader), (logWrites start C tail bs).length = bs.length
  | _, [] => rfl
  | tail, _ :: bs => by simp [logWrites, length_logWrites start C (tail + 1) bs]

theorem logWrites_get (start : BlockNo) (C : BlockNo → Block) :
    ∀ (tail : ℕ) (bs : LogHeader), ∀ w ∈ logWrites start C tail bs,
      ∃ k, ∃ hk : k < bs.length, w = (logBlock start (tail + k), C bs[k])
  | _, [], w, hw => by simp [logWrites] at hw
  | tail, b :: bs, w, hw => by
    rcases List.mem_cons.mp hw with rfl | hw
    · exact ⟨0, by simp, rfl⟩
    · obtain ⟨k, hk, rfl⟩ := logWrites_get start C (tail + 1) bs w hw
      exact ⟨k + 1, by simpa using hk, by rw [show tail + 1 + k = tail + (k + 1) by omega]; rfl⟩

theorem logWrites_mem_key (start : BlockNo) (C : BlockNo → Block) :
    ∀ (tail : ℕ) (bs : LogHeader) {k : ℕ}, k < bs.length →
      logBlock start (tail + k) ∈ (logWrites start C tail bs).map Prod.fst
  | _, [], k, hk => absurd hk (by simp)
  | tail, b :: bs, 0, _ => by simp [logWrites]
  | tail, b :: bs, k + 1, hk => by
    have h := logWrites_mem_key start C (tail + 1) bs (k := k) (by simpa using hk)
    rw [show tail + (k + 1) = tail + 1 + k by omega, logWrites, List.map_cons]
    exact List.mem_cons_of_mem _ h

/-- `write_log` issues the log copies of the cached contents, home blocks being no log blocks. -/
theorem writeLog_issue {start : BlockNo} {C : BlockNo → Block} :
    ∀ (bs : LogHeader) (tail : ℕ) (s : Dev), (∀ b ∈ bs, s.bread b = C b) →
      (∀ b ∈ bs, ∀ k, k < tail + bs.length → b ≠ logBlock start k) →
      writeLog start tail bs s = s.issue (logWrites start C tail bs)
  | [], _, s, _, _ => (s.issue_nil).symm
  | b :: bs, tail, s, hC, hne => by
    obtain ⟨hb, hbs⟩ := List.forall_mem_cons.mp hC
    obtain ⟨_, hrest⟩ := List.forall_mem_cons.mp hne
    simp only [List.length_cons] at hrest
    rw [writeLog, hb, writeLog_issue bs (tail + 1), Dev.bwrite_issue, logWrites]
    · intro x hx
      rw [Dev.bread_bwrite, Function.update_of_ne (hrest x hx tail (by omega)), hbs x hx]
    · exact fun x hx k hk => hrest x hx k (by omega)

/-- `install_trans` issues the home copies of what the log blocks hold. -/
theorem installTrans_issue {start : BlockNo} {C : BlockNo → Block} :
    ∀ (bs : LogHeader) (tail : ℕ) (s : Dev),
      (∀ k (hk : k < bs.length), s.bread (logBlock start (tail + k)) = C bs[k]) →
      (∀ b ∈ bs, ∀ k, k < tail + bs.length → b ≠ logBlock start k) →
      installTrans start tail bs s = s.issue (homeWrites C bs)
  | [], _, s, _, _ => (s.issue_nil).symm
  | b :: bs, tail, s, hC, hne => by
    obtain ⟨hhead, hrest⟩ := List.forall_mem_cons.mp hne
    simp only [List.length_cons] at hhead hrest hC
    have hb : s.bread (logBlock start tail) = C b := hC 0 (by omega)
    rw [installTrans, hb, installTrans_issue bs (tail + 1), Dev.bwrite_issue]
    · rfl
    · intro k hk
      have hk' := hC (k + 1) (by omega)
      rw [Dev.bread_bwrite, Function.update_of_ne (hhead _ (by omega)).symm,
        show tail + 1 + k = tail + (k + 1) by omega, hk']
      rfl
    · exact fun x hx k hk => hrest x hx k (by omega)

/-! ### The three kinds of disk -/

section Kinds

variable (start : BlockNo) (size : ℕ) (lh : LogHeader) (C D : BlockNo → Block)

/-- `d` and `e` agree on the home blocks. -/
def HomeEq (d e : BlockNo → Block) : Prop := ∀ b, ¬ InLog start size b → d b = e b

/-- Not committed: the header is clear and the home blocks are those of `D`. -/
structure Old (d : BlockNo → Block) : Prop where
  head : headN (d start) = 0
  home : HomeEq start size d D

/-- Committed: header and log copies are on disk; only logged home blocks may have changed. -/
structure Committed (d : BlockNo → Block) : Prop where
  head : Announces (d start) lh
  copies : ∀ k (hk : k < lh.length), d (logBlock start k) = C lh[k]
  home : ∀ b, ¬ InLog start size b → b ∉ lh → d b = D b

/-- Installed: the header is clear and the home blocks are overlaid. -/
structure New (d : BlockNo → Block) : Prop where
  head : headN (d start) = 0
  home : HomeEq start size d (overlay lh C D)

/-- The header fits its block and the log region, and names no block of the region. -/
structure Fits : Prop where
  max : lh.length ≤ LOGSIZE
  room : lh.length < size
  home : ∀ b ∈ lh, ¬ InLog start size b

variable {start size lh} in
theorem Fits.size_pos (hF : Fits start size lh) : 0 < size := by
  have := hF.room
  omega

end Kinds

section Replay

variable {start : BlockNo} {size : ℕ} {lh : LogHeader} {C D : BlockNo → Block}

/-- A logged home block is none of the log blocks in use. -/
theorem home_ne_logBlock (hF : Fits start size lh) {b : BlockNo} (hb : b ∈ lh) {k : ℕ} (hk : k < lh.length) :
    b ≠ logBlock start k := fun he =>
  hF.home b hb (he ▸ logBlock_inLog (by have := hF.room; omega))

theorem home_ne_start (hF : Fits start size lh) {b : BlockNo} (hb : b ∈ lh) : b ≠ start := fun he =>
  hF.home b hb (he ▸ start_inLog hF.size_pos)

theorem logWrites_keeps_old (hF : Fits start size lh) {w : BlockNo × Block}
    (hw : w ∈ logWrites start C 0 lh) {d : BlockNo → Block} (hd : Old start size D d) :
    Old start size D (Function.update d w.1 w.2) := by
  obtain ⟨k, hk, rfl⟩ := logWrites_get start C 0 lh w hw
  rw [Nat.zero_add]
  refine ⟨?_, fun b hb => ?_⟩
  · rw [Function.update_of_ne (logBlock_ne_start (by have := hF.max; omega)).symm]; exact hd.head
  · have hne : b ≠ logBlock start k := fun he => hb (he ▸ logBlock_inLog (by have := hF.room; omega))
    rw [Function.update_of_ne hne]; exact hd.home b hb

/-- Clearing the header of a disk whose header is clear. -/
theorem clear_keeps_old (hsize : 0 < size) {h : Block} (hh : headN h = 0) {d : BlockNo → Block}
    (hd : Old start size D d) : Old start size D (Function.update d start h) := by
  refine ⟨by rw [Function.update_self, hh], fun b hb => ?_⟩
  have hne : b ≠ start := fun he => hb (he ▸ start_inLog hsize)
  rw [Function.update_of_ne hne]; exact hd.home b hb

theorem clear_keeps_new (hsize : 0 < size) {h : Block} (hh : headN h = 0) {d : BlockNo → Block}
    (hd : New start size lh C D d) : New start size lh C D (Function.update d start h) := by
  refine ⟨by rw [Function.update_self, hh], fun b hb => ?_⟩
  have hne : b ≠ start := fun he => hb (he ▸ start_inLog hsize)
  rw [Function.update_of_ne hne]; exact hd.home b hb

/-- One home copy of the replay keeps a committed disk committed. -/
theorem homeWrites_keeps_committed (hF : Fits start size lh) {w : BlockNo × Block}
    (hw : w ∈ homeWrites C lh) {d : BlockNo → Block} (hd : Committed start size lh C D d) :
    Committed start size lh C D (Function.update d w.1 w.2) := by
  obtain ⟨b, hb, rfl⟩ := List.mem_map.mp hw
  refine ⟨?_, fun k hk => ?_, fun x hx hxl => ?_⟩
  · rw [Function.update_of_ne (home_ne_start hF hb).symm]; exact hd.head
  · rw [Function.update_of_ne (home_ne_logBlock hF hb hk).symm]
    exact hd.copies k hk
  · have hne : x ≠ b := fun he => hxl (he ▸ hb)
    rw [Function.update_of_ne hne]; exact hd.home x hx hxl

/-- The log copies hold the cached contents once `write_log` is done. -/
theorem applyWrites_logWrites (hF : Fits start size lh) (k : ℕ) (hk : k < lh.length)
    (d : BlockNo → Block) : applyWrites (logWrites start C 0 lh) d (logBlock start k) = C lh[k] := by
  have hmax := hF.max
  have hfn : ∀ w ∈ logWrites start C 0 lh, w.1 = logBlock start k → w.2 = C lh[k] := by
    intro w hw he
    obtain ⟨j, hj, rfl⟩ := logWrites_get start C 0 lh w hw
    rw [Nat.zero_add] at he
    obtain rfl := logBlock_inj (by omega) (by omega) he
    rfl
  have hkey := logWrites_mem_key start C 0 lh hk
  rw [Nat.zero_add] at hkey
  exact applyWrites_const hfn hkey d

/-- A completed replay followed by the cleared header gives the installed disk. -/
theorem replay_new (hF : Fits start size lh) {h : Block} (hh : headN h = 0) {d : BlockNo → Block}
    (hd : Committed start size lh C D d) :
    New start size lh C D (applyWrites (homeWrites C lh ++ [(start, h)]) d) := by
  rw [applyWrites_concat]
  refine ⟨by rw [Function.update_self, hh], fun b hb => ?_⟩
  have hne : b ≠ start := fun he => hb (he ▸ start_inLog hF.size_pos)
  have hfn : ∀ w ∈ homeWrites C lh, w.2 = C w.1 := by
    intro w hw
    obtain ⟨x, _, rfl⟩ := List.mem_map.mp hw
    rfl
  have hkeys : (homeWrites C lh).map Prod.fst = lh := by simp [homeWrites, Function.comp_def]
  rw [Function.update_of_ne hne, applyWrites_fn hfn, overlay, hkeys]
  by_cases hbl : b ∈ lh
  · rw [if_pos hbl, if_pos hbl]
  · rw [if_neg hbl, if_neg hbl]; exact hd.home b hb hbl

/-- A crash during the replay leaves a committed disk or the installed one. -/
theorem replay_crash (hF : Fits start size lh) {h : Block} (hh : headN h = 0) {d : BlockNo → Block}
    (hd : Committed start size lh C D d) (k : ℕ) :
    Committed start size lh C D (applyWrites ((homeWrites C lh ++ [(start, h)]).take k) d) ∨
      New start size lh C D (applyWrites ((homeWrites C lh ++ [(start, h)]).take k) d) := by
  have hlen : (homeWrites C lh).length = lh.length := by simp [homeWrites]
  by_cases hk : k ≤ lh.length
  · left
    rw [List.take_append_of_le_length (by omega)]
    exact applyWrites_take_keeps
      (fun w hw e he => homeWrites_keeps_committed hF hw he) hd k
  · right
    rw [List.take_of_length_le (by rw [List.length_append, hlen, List.length_singleton]; omega)]
    exact replay_new hF hh hd

/-! ### Recovery -/

/-- On a clear header, recovery only rewrites the header. -/
theorem recover_clear {d : BlockNo → Block} (hd : headN (d start) = 0) :
    recoverFromLog start (Dev.boot d) =
      (Dev.boot d).issue [(start, putHead [] (d start))] := by
  have hr : readHead start (Dev.boot d) = [] :=
    readHead_eq (by rw [Dev.bread_boot]; exact announces_nil.mpr hd)
  rw [recoverFromLog, hr, installTrans, writeHead, Dev.bread_boot, ← Dev.bwrite_issue,
    Dev.issue_nil]

/-- On a committed disk, recovery replays the log and clears the header. -/
theorem recover_committed (hF : Fits start size lh) {d : BlockNo → Block}
    (hd : Committed start size lh C D d) :
    ∃ h, headN h = 0 ∧ recoverFromLog start (Dev.boot d) =
      (Dev.boot d).issue (homeWrites C lh ++ [(start, h)]) := by
  have hr : readHead start (Dev.boot d) = lh :=
    readHead_eq (by rw [Dev.bread_boot]; exact hd.head)
  have hi : installTrans start 0 lh (Dev.boot d) = (Dev.boot d).issue (homeWrites C lh) := by
    apply installTrans_issue
    · intro k hk
      rw [Dev.bread_boot, Nat.zero_add]; exact hd.copies k hk
    · intro b hb k hk
      exact home_ne_logBlock hF hb (by omega)
  refine ⟨putHead [] ((Dev.boot d).issue (homeWrites C lh) |>.bread start),
    headN_putHead_nil _, ?_⟩
  rw [recoverFromLog, hr, hi, writeHead, Dev.issue_bwrite]

theorem recoveryCrash_old (hsize : 0 < size) {d d' : BlockNo → Block} (hd : Old start size D d)
    (h : RecoveryCrash start d d') : Old start size D d' := by
  obtain ⟨k, rfl⟩ := h
  rw [recover_clear hd.head]
  refine applyWrites_take_keeps (fun w hw e he => ?_) hd k
  obtain rfl := List.mem_singleton.mp hw
  exact clear_keeps_old hsize (headN_putHead_nil _) he

theorem recoveryCrash_new (hsize : 0 < size) {d d' : BlockNo → Block}
    (hd : New start size lh C D d)
    (h : RecoveryCrash start d d') : New start size lh C D d' := by
  obtain ⟨k, rfl⟩ := h
  rw [recover_clear hd.head]
  refine applyWrites_take_keeps (fun w hw e he => ?_) hd k
  obtain rfl := List.mem_singleton.mp hw
  exact clear_keeps_new hsize (headN_putHead_nil _) he

theorem recoveryCrash_committed (hF : Fits start size lh) {d d' : BlockNo → Block}
    (hd : Committed start size lh C D d)
    (h : RecoveryCrash start d d') :
    Committed start size lh C D d' ∨ New start size lh C D d' := by
  obtain ⟨k, rfl⟩ := h
  obtain ⟨hb, hh, hrec⟩ := recover_committed hF hd
  rw [hrec]
  exact replay_crash hF hh hd k

theorem recovered_old (hsize : 0 < size) {d : BlockNo → Block} (hd : Old start size D d) :
    Old start size D (recovered start d) := by
  rw [recovered, recover_clear hd.head]
  exact clear_keeps_old hsize (headN_putHead_nil _) hd

theorem recovered_new (hsize : 0 < size) {d : BlockNo → Block} (hd : New start size lh C D d) :
    New start size lh C D (recovered start d) := by
  rw [recovered, recover_clear hd.head]
  exact clear_keeps_new hsize (headN_putHead_nil _) hd

theorem recovered_committed (hF : Fits start size lh) {d : BlockNo → Block}
    (hd : Committed start size lh C D d) :
    New start size lh C D (recovered start d) := by
  obtain ⟨hb, hh, hrec⟩ := recover_committed hF hd
  rw [recovered, hrec]
  exact replay_new hF hh hd

/-- Any number of crashes during recovery keep an uncommitted disk uncommitted. -/
theorem crashes_old (hsize : 0 < size) {d d' : BlockNo → Block} (hd : Old start size D d)
    (h : Relation.ReflTransGen (RecoveryCrash start) d d') : Old start size D d' := by
  induction h with
  | refl => exact hd
  | tail _ hst ih => exact recoveryCrash_old hsize ih hst

/-- Any number of crashes during recovery keep a committed transaction. -/
theorem crashes_committed (hF : Fits start size lh) {d d' : BlockNo → Block}
    (hd : Committed start size lh C D d ∨ New start size lh C D d)
    (h : Relation.ReflTransGen (RecoveryCrash start) d d') :
    Committed start size lh C D d' ∨ New start size lh C D d' := by
  induction h with
  | refl => exact hd
  | tail _ hst ih =>
    rcases ih with hc | hn
    · exact recoveryCrash_committed hF hc hst
    · exact Or.inr (recoveryCrash_new hF.size_pos hn hst)

/-! ### Commit -/

/-- The writes of `commit()`: log copies, header, home copies, cleared header. -/
theorem commit_issue (hF : Fits start size lh) (hn : 0 < lh.length) {s : Dev}
    (hC : ∀ b ∈ lh, s.bread b = C b) :
    ∃ h₁ h₂, Announces h₁ lh ∧ headN h₂ = 0 ∧
      commit start lh s =
        s.issue (logWrites start C 0 lh ++ (start, h₁) :: (homeWrites C lh ++ [(start, h₂)])) := by
  have hroom := hF.room
  have hmax := hF.max
  have hne : ∀ b ∈ lh, ∀ k, k < 0 + lh.length → b ≠ logBlock start k :=
    fun b hb k hk => home_ne_logBlock hF hb (by omega)
  have hw : writeLog start 0 lh s = s.issue (logWrites start C 0 lh) :=
    writeLog_issue lh 0 s hC hne
  set h₁ := putHead lh ((s.issue (logWrites start C 0 lh)).bread start) with hh₁
  set ws := logWrites start C 0 lh ++ [(start, h₁)] with hws
  have hhead : writeHead start lh (s.issue (logWrites start C 0 lh)) = s.issue ws := by
    rw [writeHead, ← hh₁, Dev.issue_bwrite]
  have hcopy : ∀ k (hk : k < lh.length), (s.issue ws).bread (logBlock start (0 + k)) = C lh[k] := by
    intro k hk
    rw [Nat.zero_add, Dev.bread_issue, hws, applyWrites_concat,
      Function.update_of_ne (logBlock_ne_start (by omega))]
    exact applyWrites_logWrites hF k hk s.bread
  have hi : installTrans start 0 lh (s.issue ws) = (s.issue ws).issue (homeWrites C lh) :=
    installTrans_issue lh 0 _ hcopy hne
  refine ⟨h₁, putHead [] ((s.issue (ws ++ homeWrites C lh)).bread start),
    putHead_announces lh _ hF.max, headN_putHead_nil _, ?_⟩
  rw [commit, if_pos hn, hw, hhead, hi, Dev.issue_issue, writeHead, Dev.issue_bwrite]
  simp [hws]

/-- The disk just after the header write is committed. -/
theorem committed_of_head (hF : Fits start size lh) {h : Block} (hh : Announces h lh)
    {d : BlockNo → Block} :
    Committed start size lh C d (applyWrites (logWrites start C 0 lh ++ [(start, h)]) d) := by
  have hmax := hF.max
  have hroom := hF.room
  rw [applyWrites_concat]
  refine ⟨by rw [Function.update_self]; exact hh, fun k hk => ?_, fun b hb hbl => ?_⟩
  · rw [Function.update_of_ne (logBlock_ne_start (by omega))]
    exact applyWrites_logWrites hF k hk d
  · have hne : b ≠ start := fun he => hb (he ▸ start_inLog hF.size_pos)
    rw [Function.update_of_ne hne, applyWrites_other]
    intro w hw he
    obtain ⟨k, hk, rfl⟩ := logWrites_get start C 0 lh w hw
    rw [Nat.zero_add] at he
    exact hb (he ▸ logBlock_inLog (by omega))

/-- A crash before the header write leaves the old disk. -/
theorem crashInCommit_old (hF : Fits start size lh) {s : Dev} (hC : ∀ b ∈ lh, s.bread b = C b)
    (hclean : headN (s.disk start) = 0) {k : ℕ} (hk : k ≤ lh.length) :
    Old start size s.disk (crashInCommit start lh s k) ∧ ¬ HeadReached start lh s k := by
  have hold : Old start size s.disk s.disk := ⟨hclean, fun _ _ => rfl⟩
  rcases Nat.eq_zero_or_pos lh.length with h0 | hn
  · have hw : (commit start lh { s with wrote := [] }).wrote = [] := by rw [commit, if_neg (by omega)]
    refine ⟨by simpa [crashInCommit, hw] using hold, ?_⟩
    rintro ⟨w, hmem, _⟩
    simp [hw] at hmem
  · obtain ⟨h₁, h₂, _, _, hcommit⟩ := commit_issue hF hn (s := { s with wrote := [] }) hC
    have htake : (commit start lh { s with wrote := [] }).wrote.take k =
        (logWrites start C 0 lh).take k := by
      rw [hcommit, Dev.issue, List.nil_append,
        List.take_append_of_le_length (by rw [length_logWrites]; omega)]
    refine ⟨?_, ?_⟩
    · rw [crashInCommit, htake]
      exact applyWrites_take_keeps (fun w hw d hd => logWrites_keeps_old hF hw hd) hold k
    · rintro ⟨w, hmem, hstart, _⟩
      rw [htake] at hmem
      obtain ⟨j, hj, rfl⟩ := logWrites_get start C 0 lh w (List.mem_of_mem_take hmem)
      have hmax := hF.max
      exact logBlock_ne_start (by omega) hstart

/-- A crash from the header write on leaves the committed disk or the installed one. -/
theorem crashInCommit_committed (hF : Fits start size lh) {s : Dev}
    (hC : ∀ b ∈ lh, s.bread b = C b) (hn : 0 < lh.length) {k : ℕ} (hk : lh.length < k) :
    (Committed start size lh C s.disk (crashInCommit start lh s k) ∨
      New start size lh C s.disk (crashInCommit start lh s k)) ∧ HeadReached start lh s k := by
  obtain ⟨h₁, h₂, hh₁, hh₂, hcommit⟩ := commit_issue hF hn (s := { s with wrote := [] }) hC
  have htake : (commit start lh { s with wrote := [] }).wrote.take k =
      logWrites start C 0 lh ++ (start, h₁) ::
        (homeWrites C lh ++ [(start, h₂)]).take (k - lh.length - 1) := by
    rw [hcommit, Dev.issue, List.nil_append, List.take_append, length_logWrites,
      List.take_of_length_le (by rw [length_logWrites]; omega),
      show k - lh.length = (k - lh.length - 1) + 1 by omega, List.take_succ_cons]
    simp
  refine ⟨?_, ?_⟩
  · rw [crashInCommit, htake, List.append_cons, applyWrites_append]
    exact replay_crash hF hh₂ (committed_of_head hF hh₁) _
  · refine ⟨(start, h₁), ?_, rfl, by rw [hh₁.1]; exact hn⟩
    rw [htake]
    simp

end Replay

/-- `LOGSIZE` home blocks, none of them in the log region `mkfs` lays out from block 2 on. -/
def fullHeader : LogHeader := (List.range LOGSIZE).map fun i => UInt32.ofNat (100 + i)

/-- A block of ones. -/
def ones : Block := fun _ => 1

/-- A zero disk whose blocks of `fullHeader` are cached with ones. -/
def fullDev : Dev where
  disk := fun _ => Block.zero
  buf := fun b => if b ∈ fullHeader then some ones else none
  wrote := []

end Xv6.Log
