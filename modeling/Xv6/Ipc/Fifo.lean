import Xv6.Ipc.Pipe
import Xv6.Schemes.Ring
import Xv6.Schemes.Run

/-! @src pipe.c | name:Pipes are lossless queues | layer:proof

    The counters of a pipe stay within `PIPESIZE` of each other and what lies between them is what
    has been stored and not yet read. A process sleeps only as long as the pipe is of no use to it,
    except that a writer which gives up with -1 wakes up no reader. -/

namespace Xv6.Ipc
open Xv6.Schemes
open Xv6.Schemes.X86 (Word)

theorem PIPESIZE_eq : PIPESIZE = 512 := rfl

namespace Pipe

/-- How many bytes the pipe holds. -/
def used (p : Pipe) : ℕ := Ring.count p.nread p.nwrite

/-- The bytes the pipe holds. -/
def buffered (p : Pipe) : List Byte := Ring.contents PIPESIZE p.data p.nread p.nwrite

variable {p : Pipe}

theorem full_iff : p.Full ↔ p.used = PIPESIZE := by
  unfold Full used Ring.count
  rw [PIPESIZE_eq]
  constructor
  · intro h
    rw [h]
    bv_omega
  · intro h
    bv_omega

theorem empty_iff : p.Empty ↔ p.used = 0 := Ring.count_eq_zero.symm

@[simp] theorem length_buffered : p.buffered.length = p.used := Ring.length_contents

theorem push_used (h : p.used < PIPESIZE) (b : Byte) : (p.push b).used = p.used + 1 := by
  have hc : Ring.count p.nread p.nwrite + 1 < 2 ^ 32 := by
    have := PIPESIZE_eq
    unfold used at h
    omega
  exact Ring.count_succ hc

theorem push_buffered (h : p.used < PIPESIZE) (b : Byte) :
    (p.push b).buffered = p.buffered ++ [b] :=
  Ring.contents_push (by decide) h (by unfold used at h; have := PIPESIZE_eq; omega) b

theorem pop_buffered (h : ¬ p.Empty) : p.buffered = p.pop.1 :: p.pop.2.buffered :=
  Ring.contents_pop (mt empty_iff.mpr h)

theorem pop_used (h : ¬ p.Empty) : p.used = p.pop.2.used + 1 :=
  Ring.count_pred (mt empty_iff.mpr h)

end Pipe

/-- The loop of `pipewrite` appends what it stores, and stops early only when the pipe is full. -/
theorem writeLoop_spec {p : Pipe} (h : p.used ≤ PIPESIZE) (rest : List Byte) :
    ∃ done left q, writeLoop rest p = (left, q) ∧ rest = done ++ left ∧
      q.buffered = p.buffered ++ done ∧ q.used ≤ PIPESIZE ∧ (left ≠ [] → q.Full) ∧
      q.readopen = p.readopen ∧ q.writeopen = p.writeopen := by
  induction rest generalizing p with
  | nil => exact ⟨[], [], p, rfl, rfl, by simp, h, fun hl => absurd rfl hl, rfl, rfl⟩
  | cons b bs ih =>
    by_cases hf : p.Full
    · exact ⟨[], b :: bs, p, by simp [writeLoop, hf], rfl, by simp, h, fun _ => hf, rfl, rfl⟩
    · have hlt : p.used < PIPESIZE := lt_of_le_of_ne h (mt Pipe.full_iff.mpr hf)
      obtain ⟨done, left, q, hl, hsplit, hbuf, hused, hfull, hr, hw⟩ :=
        ih (p := p.push b) (by rw [Pipe.push_used hlt]; exact hlt)
      refine ⟨b :: done, left, q, ?_, by rw [hsplit]; rfl, ?_, hused, hfull, hr, hw⟩
      · rw [writeLoop, if_neg hf, hl]
      · rw [hbuf, Pipe.push_buffered hlt, List.append_assoc]
        rfl

/-- The loop of `piperead` takes the oldest bytes, and none only from an empty pipe. -/
theorem readLoop_spec (n : ℕ) (p : Pipe) :
    ∃ bytes q, readLoop n p = (bytes, q) ∧ p.buffered = bytes ++ q.buffered ∧ q.used ≤ p.used ∧
      bytes.length ≤ n ∧ (bytes = [] → n = 0 ∨ p.Empty ∧ q = p) ∧ q.readopen = p.readopen ∧
      q.writeopen = p.writeopen := by
  induction n generalizing p with
  | zero => exact ⟨[], p, rfl, rfl, le_rfl, le_rfl, fun _ => Or.inl rfl, rfl, rfl⟩
  | succ n ih =>
    by_cases he : p.Empty
    · exact ⟨[], p, by simp [readLoop, he], rfl, le_rfl, Nat.zero_le _, fun _ => Or.inr ⟨he, rfl⟩,
        rfl, rfl⟩
    · obtain ⟨bytes, q, hl, hbuf, hused, hlen, -, hr, hw⟩ := ih p.pop.2
      refine ⟨p.pop.1 :: bytes, q, ?_, ?_, ?_, ?_, fun hn => absurd hn (by simp), hr, hw⟩
      · rw [readLoop, if_neg he]
        simp only [hl]
      · rw [Pipe.pop_buffered he, hbuf]
        rfl
      · have := Pipe.pop_used he
        omega
      · simpa using hlen

/-! ### The invariant -/

section

variable {τ : Type} [DecidableEq τ] {s t : Sys τ} {u v : τ}

/-- The pipe is a queue of what has been stored, and the sleepers have reason to sleep. -/
structure Sound (s : Sys τ) : Prop where
  bound : s.pipe.used ≤ PIPESIZE
  fifo : s.stored = s.delivered ++ s.pipe.buffered
  reader : ∀ t, (s.party t).place.On .nread → s.pipe.Empty ∧ s.pipe.writeopen = true
  writer : ∀ t, (s.party t).place.On .nwrite → s.pipe.Full ∧ s.pipe.readopen = true

/-- `piperead` returns 0, asked for more, only at the end of the stream. -/
def ReadsEof (s : Sys τ) (a : Act τ) : Prop :=
  ∀ t n u, a = .run t → (s.party t).place = .ready (.read n) → 0 < n.toInt → s.next a = some u →
    (u.party t).place = .out 0 → u.pipe.Empty ∧ u.pipe.writeopen = false

/-- A writer that will give up, killed or without readers, has no more to write than fits into the
    empty pipe of the readers asleep. -/
def Fits (s : Sys τ) : Act τ → Prop
  | .run t =>
    match (s.party t).place with
    | .ready (.write _ rest) =>
      (s.pipe.readopen = false ∨ (s.party t).killed) → (∃ r, (s.party r).place.On .nread) →
        rest.length ≤ PIPESIZE
    | .ready (.read _) | .out _ | .asleep _ _ => True
  | .piperead _ _ | .pipewrite _ _ _ | .pipeclose _ | .kill _ => True

omit [DecidableEq τ] in
theorem sound_pipealloc (data : ℕ → Byte) (killed : τ → Bool) :
    Sound (Sys.pipealloc data killed) where
  bound := by simp [Sys.pipealloc, Pipe.used]
  fifo := by simp [Sys.pipealloc, Pipe.buffered]
  reader := fun _ h => absurd h id
  writer := fun _ h => absurd h id

omit [DecidableEq τ] in
/-- After `wakeup` nobody sleeps on the channel. -/
theorem wakeup_on {ch ch' : Chan} :
    ((s.wakeup ch).party u).place.On ch' ↔ (s.party u).place.On ch' ∧ ch' ≠ ch := by
  unfold Sys.wakeup
  dsimp only
  cases hp : (s.party u).place with
  | out ret => simp [hp, Place.On]
  | ready call => simp [hp, Place.On]
  | asleep c call =>
    by_cases hc : c = ch
    · subst hc
      simp only [if_true, Place.On]
      constructor
      · exact fun h => absurd h id
      · rintro ⟨h, hne⟩
        exact hne h.symm
    · simp only [if_neg hc, hp, Place.On]
      constructor
      · intro h
        exact ⟨h, fun he => hc (h.trans he)⟩
      · exact fun h => h.1

theorem goto_on {ch : Chan} {x : Place} :
    ((s.goto u x).party v).place.On ch ↔
      v = u ∧ x.On ch ∨ v ≠ u ∧ (s.party v).place.On ch := by
  unfold Sys.goto
  rcases eq_or_ne v u with rfl | hne
  · simp
  · simp [hne]

/-- Going on without touching the pipe, and without falling asleep. -/
theorem Sound.goto (h : Sound s) {x : Place} (hx : ∀ ch, ¬ x.On ch) : Sound (s.goto u x) where
  bound := h.bound
  fifo := h.fifo
  reader := fun v hv => by
    rcases goto_on.mp hv with ⟨-, ho⟩ | ⟨-, ho⟩
    · exact absurd ho (hx _)
    · exact h.reader v ho
  writer := fun v hv => by
    rcases goto_on.mp hv with ⟨-, ho⟩ | ⟨-, ho⟩
    · exact absurd ho (hx _)
    · exact h.writer v ho

theorem sound_kill (h : Sound s) : Sound (s.kill u) := by
  have hon : ∀ v ch, ((s.kill u).party v).place.On ch → (s.party v).place.On ch := by
    intro v ch hv
    unfold Sys.kill at hv
    rcases eq_or_ne v u with rfl | hne
    · simp only [Function.update_self] at hv
      cases hp : (s.party v).place with
      | asleep c call =>
        rw [hp] at hv
        exact absurd hv id
      | out ret => rwa [hp] at hv
      | ready call => rwa [hp] at hv
    · simpa [hne] using hv
  exact ⟨h.bound, h.fifo, fun v hv => h.reader v (hon v _ hv), fun v hv => h.writer v (hon v _ hv)⟩

omit [DecidableEq τ] in
theorem sound_close (h : Sound s) (writable : Bool) : Sound (s.close writable) := by
  unfold Sys.close
  split
  · refine ⟨h.bound, h.fifo, fun v hv => ?_, fun v hv => ?_⟩
    · exact absurd rfl (wakeup_on.mp hv).2
    · exact h.writer v (wakeup_on.mp hv).1
  · refine ⟨h.bound, h.fifo, fun v hv => ?_, fun v hv => ?_⟩
    · exact h.reader v (wakeup_on.mp hv).1
    · exact absurd rfl (wakeup_on.mp hv).2

theorem sound_read (h : Sound s) (u : τ) (n : Word) : Sound (s.read u n) := by
  unfold Sys.read
  split
  · rename_i he
    split
    · exact h.goto fun _ => id
    · refine ⟨h.bound, h.fifo, fun v hv => he, fun v hv => ?_⟩
      rcases goto_on.mp hv with ⟨-, ho⟩ | ⟨-, ho⟩
      · exact absurd ho (by simp [Place.On])
      · exact h.writer v ho
  · rename_i hne
    obtain ⟨bytes, q, hl, hbuf, hused, -, -, hr, hw⟩ := readLoop_spec n.toInt.toNat s.pipe
    rw [hl]
    refine ⟨hused.trans h.bound, ?_, fun v hv => ?_, fun v hv => ?_⟩
    · change s.stored = (s.delivered ++ bytes) ++ q.buffered
      rw [h.fifo, hbuf, List.append_assoc]
    · rcases goto_on.mp hv with ⟨-, ho⟩ | ⟨-, ho⟩
      · exact absurd ho id
      · -- nobody reads as long as a reader sleeps
        exact absurd (h.reader v (wakeup_on.mp ho).1) hne
    · rcases goto_on.mp hv with ⟨-, ho⟩ | ⟨-, ho⟩
      · exact absurd ho id
      · exact absurd rfl (wakeup_on.mp ho).2

/-- What a section of `pipewrite` does: it stores a part `done`, and the rest does not fit. -/
theorem write_spec (h : Sound s) (u : τ) (n : Word) (rest : List Byte) :
    ∃ (done left : List Byte) (s₁ : Sys τ), rest = done ++ left ∧
      s₁ = { s with pipe := s₁.pipe, stored := s.stored ++ done } ∧
      s₁.pipe.buffered = s.pipe.buffered ++ done ∧ s₁.pipe.used = s.pipe.used + done.length ∧
      s₁.pipe.used ≤ PIPESIZE ∧ s₁.pipe.readopen = s.pipe.readopen ∧
      s₁.pipe.writeopen = s.pipe.writeopen ∧ (left ≠ [] → s₁.pipe.Full) ∧
      s.write u n rest =
        if left = [] then (s₁.wakeup .nread).goto u (.out n)
        else if s.pipe.readopen = false ∨ (s.party u).killed then s₁.goto u (.out (-1))
        else (s₁.wakeup .nread).goto u (.asleep .nwrite (.write n left)) := by
  obtain ⟨done, left, q, hl, hsplit, hbuf, hused, hfull, hr, hw⟩ := writeLoop_spec h.bound rest
  have hlen : q.used = s.pipe.used + done.length := by
    have := congrArg List.length hbuf
    simpa using this
  have htake : rest.take (rest.length - left.length) = done := by
    rw [hsplit]
    simp
  refine ⟨done, left, { s with pipe := q, stored := s.stored ++ done }, hsplit, rfl, hbuf, hlen,
    hused, hr, hw, hfull, ?_⟩
  unfold Sys.write
  simp only [hl, htake, hr]
  cases left with
  | nil => simp
  | cons b bs => simp

theorem sound_write (h : Sound s) {n : Word} {rest : List Byte}
    (hplace : (s.party u).place = .ready (.write n rest)) (hF : Fits s (.run u)) :
    Sound (s.write u n rest) := by
  obtain ⟨done, left, s₁, hsplit, hs₁, hbuf, hlen, hused, hr, hw, hfull, he⟩ :=
    write_spec h u n rest
  have hparty : s₁.party = s.party := by rw [hs₁]
  have hfifo : s₁.stored = s₁.delivered ++ s₁.pipe.buffered := by
    have hst : s₁.stored = s.stored ++ done := by rw [hs₁]
    have hde : s₁.delivered = s.delivered := by rw [hs₁]
    rw [hst, hde, hbuf, h.fifo, List.append_assoc]
  -- a full pipe stays full
  have hstay : s.pipe.Full → s₁.pipe.Full := by
    intro hf
    have := Pipe.full_iff.mp hf
    exact Pipe.full_iff.mpr (by omega)
  have hwriter : ∀ v, (s.party v).place.On .nwrite → s₁.pipe.Full ∧ s₁.pipe.readopen = true :=
    fun v hv => ⟨hstay (h.writer v hv).1, hr.trans (h.writer v hv).2⟩
  rw [he]
  split
  · refine ⟨hused, hfifo, fun v hv => ?_, fun v hv => ?_⟩
    · rcases goto_on.mp hv with ⟨-, ho⟩ | ⟨-, ho⟩
      · exact absurd ho id
      · exact absurd rfl (wakeup_on.mp ho).2
    · rcases goto_on.mp hv with ⟨-, ho⟩ | ⟨-, ho⟩
      · exact absurd ho id
      · exact hwriter v (hparty ▸ (wakeup_on.mp ho).1)
  · rename_i hleft
    split
    · rename_i hgive
      refine ⟨hused, hfifo, fun v hv => ?_, fun v hv => ?_⟩
      · rcases goto_on.mp hv with ⟨-, ho⟩ | ⟨-, ho⟩
        · exact absurd ho id
        · -- a reader asleep has left the whole pipe to the writer
          rw [hparty] at ho
          have hF' : rest.length ≤ PIPESIZE := by
            unfold Fits at hF
            simp only [hplace] at hF
            exact hF hgive ⟨v, ho⟩
          have hempty := Pipe.empty_iff.mp (h.reader v ho).1
          have hall := Pipe.full_iff.mp (hfull hleft)
          have hpos : 0 < left.length := List.length_pos_iff.mpr hleft
          have := congrArg List.length hsplit
          rw [List.length_append] at this
          omega
      · rcases goto_on.mp hv with ⟨-, ho⟩ | ⟨-, ho⟩
        · exact absurd ho id
        · exact hwriter v (hparty ▸ ho)
    · rename_i hgo
      refine ⟨hused, hfifo, fun v hv => ?_, fun v hv => ?_⟩
      · rcases goto_on.mp hv with ⟨-, ho⟩ | ⟨-, ho⟩
        · exact absurd ho (by simp [Place.On])
        · exact absurd rfl (wakeup_on.mp ho).2
      · have hopen : s.pipe.readopen = true := by
          have := (not_or.mp hgo).1
          simpa using this
        exact ⟨hfull hleft, hr.trans hopen⟩

/-- Every section keeps the invariant, as long as a writer that gives up has no sleepers to wake. -/
theorem sound_step {a : Act τ} (h : Sound s) (hF : Fits s a) (hst : s.Step a t) : Sound t := by
  replace hst := (Option.ite_none_left_eq_some.mp hst).2
  cases a with
  | piperead u n =>
    dsimp only at hst
    cases hp : (s.party u).place with
    | out ret =>
      rw [hp] at hst
      obtain rfl := Option.some.inj hst
      exact h.goto fun _ => id
    | ready | asleep =>
      rw [hp] at hst
      exact absurd hst (by simp)
  | pipewrite u addr n =>
    dsimp only at hst
    cases hp : (s.party u).place with
    | out ret =>
      rw [hp] at hst
      obtain rfl := Option.some.inj hst
      exact h.goto fun _ => id
    | ready | asleep =>
      rw [hp] at hst
      exact absurd hst (by simp)
  | run u =>
    dsimp only at hst
    cases hp : (s.party u).place with
    | ready call =>
      cases call with
      | read n =>
        rw [hp] at hst
        obtain rfl := Option.some.inj hst
        exact sound_read h u n
      | write n rest =>
        rw [hp] at hst
        obtain rfl := Option.some.inj hst
        exact sound_write h hp hF
    | out | asleep =>
      rw [hp] at hst
      exact absurd hst (by simp)
  | pipeclose writable =>
    obtain rfl := Option.some.inj hst
    exact sound_close h writable
  | kill u =>
    obtain rfl := Option.some.inj hst
    exact sound_kill h

/-- A writer that gives up in front of sleeping readers leaves them asleep before a full pipe. -/
theorem unfit_step {a : Act τ} (h : Sound s) (hF : ¬ Fits s a) (hst : s.Step a t) : ¬ Sound t := by
  replace hst := (Option.ite_none_left_eq_some.mp hst).2
  cases a with
  | run u =>
    dsimp only at hst
    cases hp : (s.party u).place with
    | ready call =>
      cases call with
      | read n => simp [Fits, hp] at hF
      | write n rest =>
        rw [hp] at hst
        obtain rfl := Option.some.inj hst
        simp only [Fits, hp] at hF
        obtain ⟨hgive, hF⟩ := Classical.not_imp.mp hF
        obtain ⟨⟨r, hr⟩, hlong⟩ := Classical.not_imp.mp hF
        obtain ⟨done, left, s₁, hsplit, hs₁, -, hlen, hused, -, -, hfull, he⟩ :=
          write_spec h u n rest
        have hempty := Pipe.empty_iff.mp (h.reader r hr).1
        have hleft : left ≠ [] := by
          rintro rfl
          have := congrArg List.length hsplit
          rw [List.append_nil] at this
          omega
        have hall := Pipe.full_iff.mp (hfull hleft)
        rw [he, if_neg hleft, if_pos hgive]
        intro hsound
        have hne : r ≠ u := by
          rintro rfl
          rw [hp] at hr
          exact hr
        have hparty : s₁.party = s.party := by rw [hs₁]
        have hstill : ((s₁.goto u (.out (-1))).party r).place.On .nread :=
          goto_on.mpr (Or.inr ⟨hne, by rwa [hparty]⟩)
        have hz : s₁.pipe.used = 0 := Pipe.empty_iff.mp (hsound.reader r hstill).1
        rw [hall, PIPESIZE_eq] at hz
        exact absurd hz (by decide)
    | out | asleep => simp [Fits, hp] at hF
  | piperead | pipewrite | pipeclose | kill => exact absurd trivial hF

/-- A read that returns 0 has found the pipe empty and the write end closed. -/
theorem readsEof (s : Sys τ) (a : Act τ) : ReadsEof s a := by
  rintro u n t rfl hp hn hst hret
  replace hst := (Option.ite_none_left_eq_some.mp hst).2
  dsimp only at hst
  rw [hp] at hst
  obtain rfl := Option.some.inj hst
  unfold Sys.read at hret ⊢
  split at hret
  · rename_i he
    split at hret
    · simp [Sys.goto] at hret
    · simp [Sys.goto] at hret
  · rename_i he
    rw [if_neg he]
    obtain ⟨bytes, q, hl, -, -, hlen, hnil, -, -⟩ := readLoop_spec n.toInt.toNat s.pipe
    rw [hl] at hret ⊢
    simp only [Sys.goto, Function.update_self, Place.out.injEq] at hret
    have hlt := BitVec.toInt_lt (x := n)
    have hz : bytes = [] := by
      have hzero := congrArg BitVec.toNat hret
      rw [BitVec.toNat_ofNat] at hzero
      refine List.length_eq_zero_iff.mp ?_
      have h0 : (0 : Word).toNat = 0 := rfl
      rw [h0] at hzero
      omega
    rcases hnil hz with h0 | ⟨hempty, rfl⟩
    · omega
    · have hw : s.pipe.writeopen = false := by
        simpa using fun ho => he ⟨hempty, ho⟩
      exact ⟨hempty, hw⟩

end

/-! ### Runs -/

/-- In every run of a pipe the counters, the stream and the sleepers are as they should be, and 0
    is the end of the stream, exactly if no writer gives up in front of sleeping readers with more
    to write than the pipe holds. -/
theorem lossless_iff {τ : Type} [DecidableEq τ] {data : ℕ → Byte} {killed : τ → Bool}
    {l : List (Sys τ × Act τ)} {u : Sys τ}
    (hrun : Run Sys.Step (Sys.pipealloc data killed) l u) :
    (Throughout Sound l u ∧ Along ReadsEof l) ↔ Along Fits l := by
  have hiff : Throughout Sound l u ↔ Along Fits l :=
    hrun.throughout_iff (fun _ _ _ => sound_step) (fun _ h => h) (fun _ _ _ => unfit_step)
      (sound_pipealloc data killed)
  exact ⟨fun h => hiff.mp h.1, fun hF => ⟨hiff.mpr hF, fun x _ => readsEof x.1 x.2⟩⟩

instance {τ : Type} [Fintype τ] (s : Sys τ) : (a : Act τ) → Decidable (Fits s a)
  | .run t =>
    match h : (s.party t).place with
    | .ready (.write _ rest) =>
      decidable_of_iff
        ((s.pipe.readopen = false ∨ (s.party t).killed) → (∃ r, (s.party r).place.On .nread) →
          rest.length ≤ PIPESIZE) (by simp [Fits, h])
    | .ready (.read _) | .out _ | .asleep _ _ => isTrue (by simp [Fits, h])
  | .piperead _ _ | .pipewrite _ _ _ | .pipeclose _ | .kill _ => isTrue trivial

/-- A read of 8 bytes waits for a write of 3 bytes, and then for the end of the stream. -/
def hands : List (Act Bool) :=
  [.piperead true 8, .run true, .pipewrite false (fun i => BitVec.ofNat 8 i) 3, .run false,
    .run true, .piperead true 8, .run true, .pipeclose true, .run true]

/-- `lossless_iff` along `hands`. -/
theorem hands_over :
    ∃ u l, Run Sys.Step (Sys.pipealloc (fun _ => 0) fun _ : Bool => false) l u ∧
      u.delivered = [0, 1, 2] ∧ Throughout Sound l u ∧ Along ReadsEof l := by
  have h : ((exec Sys.next (Sys.pipealloc (fun _ => 0) fun _ : Bool => false) hands).any fun u =>
      u.delivered = [0, 1, 2]) = true := by decide +kernel
  obtain ⟨u, hu, hd⟩ := (Option.any_eq_true _ _).mp h
  have hrun := Run.of_exec hu
  refine ⟨u, _, hrun, of_decide_eq_true hd, (lossless_iff hrun).mpr ?_⟩
  unfold Along
  decide +kernel

/-- A reader sleeps, and a writer of 513 bytes is killed before it takes the lock: it fills the
    pipe, gives up, and the reader sleeps on. -/
theorem killed_writer_wakes_nobody :
    ∃ u l, Run Sys.Step (Sys.pipealloc (fun _ => 0) fun _ : Bool => false) l u ∧
      (u.party true).place.On .nread ∧ u.pipe.Full ∧ ¬ Sound u := by
  obtain ⟨u, l, hrun, hu⟩ := Run.of_exec_any Sys.next
    [.piperead true 8, .run true, .pipewrite false (fun _ => 0) 513, .kill false, .run false]
    (Sys.pipealloc (fun _ => 0) fun _ : Bool => false)
    (fun u => (u.party true).place.On .nread ∧ u.pipe.Full) (by decide +kernel)
  obtain ⟨hon, hfull⟩ := of_decide_eq_true hu
  refine ⟨u, l, hrun, hon, hfull, fun h => ?_⟩
  have hz := Pipe.empty_iff.mp (h.reader true hon).1
  rw [Pipe.full_iff.mp hfull] at hz
  exact absurd hz (by decide)

end Xv6.Ipc
