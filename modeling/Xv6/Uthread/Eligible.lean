import Xv6.Uthread.Library
import Xv6.Schemes.Run

/-! @src uthread1.c trap.c | name:No user thread is lost | layer:proof

    A created thread stays eligible as long as it is `RUNNABLE` or current. The one way to lose it
    is a call of `thread_schedule` while it is current and still `RUNNING`, which the two lines
    commented out at the top of `thread_schedule` would have repaired. -/

namespace Xv6.Uthread
open Xv6.Schemes

/-- Every created thread is current or runnable, and the program exits only without any. -/
def Eligible (u : ULib) : Prop :=
  (∀ t, u.created t = true → u.current_thread = some t ∨ u.state t = .RUNNABLE) ∧
    (u.exited = true → ∀ t, u.created t = false)

instance (u : ULib) : Decidable (Eligible u) := inferInstanceAs (Decidable (_ ∧ _))

/-- The running thread, if it was created, has left the state `RUNNING`. -/
def Left (u : ULib) : Prop :=
  ∀ c, u.current_thread = some c → u.created c = true → u.state c ≠ .RUNNING

instance (u : ULib) : Decidable (Left u) := inferInstanceAs (Decidable (∀ _, _))

/-- `thread_schedule` is called, or forced, only once the running thread has left `RUNNING`. -/
def CalledReady (u : ULib) : Act → Prop
  | .schedule | .timer => Left u
  | _ => True

instance (u : ULib) : (a : Act) → Decidable (CalledReady u a)
  | .schedule | .timer => inferInstanceAs (Decidable (Left u))
  | .register | .setCurrent | .setRunning | .createFind | .createMark | .markRunnable
  | .markFree => isTrue trivial

/-- `Eligible`, and no created thread is `FREE`. -/
structure Inv (u : ULib) : Prop where
  eligible : Eligible u
  alive : ∀ t, u.created t = true → u.state t ≠ .FREE

theorem inv_init (low : ThreadState) : Inv (ULib.init low) where
  eligible := ⟨fun _ h => absurd h (by simp [ULib.init]), fun _ _ => rfl⟩
  alive := fun _ h => absurd h (by simp [ULib.init])

/-! ### thread_schedule -/

section Schedule

variable {u : ULib}

theorem findRunnable_some {t : Fin MAX_THREAD} (h : u.findRunnable = some t) :
    u.state t = .RUNNABLE ∧ u.current_thread ≠ some t := by
  unfold ULib.findRunnable at h
  simpa using List.find?_some h

theorem findRunnable_none (h : u.findRunnable = none) (t : Fin MAX_THREAD)
    (ht : u.state t = .RUNNABLE) : u.current_thread = some t := by
  have hno := List.find?_eq_none.mp h t (List.mem_finRange t)
  by_contra hne
  exact hno (decide_eq_true ⟨ht, hne⟩)

/-- The three ways `thread_schedule` can go. -/
theorem threadSchedule_cases (u : ULib) :
    (∃ t, u.state t = .RUNNABLE ∧ u.current_thread ≠ some t ∧
      u.threadSchedule = { u with
        state := Function.update u.state t .RUNNING
        current_thread := some t
        next_thread := none }) ∨
    (∃ c, u.findRunnable = none ∧ u.current_thread = some c ∧ u.state c = .RUNNABLE ∧
      u.threadSchedule = { u with next_thread := none }) ∨
    (u.findRunnable = none ∧ (∀ c, u.current_thread = some c → u.state c ≠ .RUNNABLE) ∧
      u.threadSchedule = { u with next_thread := none, exited := true }) := by
  unfold ULib.threadSchedule ULib.chooseNext
  cases hf : u.findRunnable with
  | some t =>
    obtain ⟨ht, hne⟩ := findRunnable_some hf
    exact Or.inl ⟨t, ht, hne, by simp [hne]⟩
  | none =>
    cases hc : u.current_thread with
    | none => exact Or.inr (Or.inr ⟨rfl, by simp, by simp⟩)
    | some c =>
      by_cases hr : u.state c = .RUNNABLE
      · exact Or.inr (Or.inl ⟨c, rfl, rfl, hr, by simp [ULib.stateOf, hr]⟩)
      · refine Or.inr (Or.inr ⟨rfl, ?_, by simp [ULib.stateOf, hr]⟩)
        rintro d hd
        obtain rfl := Option.some.inj hd
        exact hr

theorem inv_threadSchedule (hi : Inv u) (hl : Left u) : Inv u.threadSchedule := by
  -- a created thread that has left RUNNING is runnable, current or not
  have hrun : ∀ t, u.created t = true → u.state t = .RUNNABLE := by
    intro t ht
    rcases hi.eligible.1 t ht with hc | hr
    · cases hs : u.state t with
      | FREE => exact absurd hs (hi.alive t ht)
      | RUNNING => exact absurd hs (hl t hc ht)
      | RUNNABLE => rfl
    · exact hr
  rcases threadSchedule_cases u with ⟨t, -, hne, h⟩ | ⟨c, -, -, -, h⟩ | ⟨hf, hc, h⟩
  · rw [h]
    refine ⟨⟨fun q hq => ?_, hi.eligible.2⟩, fun q hq => ?_⟩
    · rcases eq_or_ne q t with rfl | hqt
      · exact Or.inl rfl
      · exact Or.inr ((Function.update_of_ne hqt ..).trans (hrun q hq))
    · rcases eq_or_ne q t with rfl | hqt
      · simp
      · simpa [hqt] using hi.alive q hq
  · rw [h]
    exact ⟨hi.eligible, hi.alive⟩
  · rw [h]
    have hnone : ∀ t, u.created t = false := by
      intro t
      by_contra ht
      have hr := hrun t (by simpa using ht)
      exact hc t (findRunnable_none hf t hr) hr
    exact ⟨⟨hi.eligible.1, fun _ => hnone⟩, hi.alive⟩

/-- A call made by a created thread that is `RUNNING` loses it, or ends the program with it. -/
theorem threadSchedule_loses (hl : ¬ Left u) : ¬ Eligible u.threadSchedule := by
  obtain ⟨c, hc⟩ := not_forall.mp hl
  obtain ⟨hcur, hrest⟩ := Classical.not_imp.mp hc
  obtain ⟨hcr, hst⟩ := Classical.not_imp.mp hrest
  replace hst : u.state c = .RUNNING := not_not.mp hst
  rintro ⟨helig, hexit⟩
  rcases threadSchedule_cases u with ⟨t, ht, hne, h⟩ | ⟨d, -, hd, hdr, -⟩ | ⟨-, -, h⟩
  · rw [h] at helig
    have hct : c ≠ t := by
      rintro rfl
      exact hne hcur
    rcases helig c hcr with h | h
    · exact hct (Option.some.inj h).symm
    · exact absurd (hst.symm.trans ((Function.update_of_ne hct ..).symm.trans h)) (by decide)
  · rw [hcur] at hd
    obtain rfl := Option.some.inj hd
    rw [hst] at hdr
    exact absurd hdr (by decide)
  · rw [h] at hexit
    have := hexit rfl c
    simp [hcr] at this

end Schedule

/-! ### Runs -/

/-- What a statement finds and does. -/
def Effect (u v : ULib) : Act → Prop
  | .register => v = { u with registered := true }
  | .setCurrent => u.current_thread = none ∧ v = { u with current_thread := some 0 }
  | .setRunning => u.created 0 = false ∧ v = u.markCurrent 0 .RUNNING
  | .createFind => ∃ s, v = { u with slot := s }
  | .createMark => ∃ t s, v = { u with
      state := Function.update u.state t .RUNNABLE
      created := Function.update u.created t true
      slot := s }
  | .markRunnable => ∃ c, v = u.markCurrent c .RUNNABLE
  | .markFree => ∃ c, v = { u.markCurrent c .FREE with
      created := Function.update u.created c false }
  | .schedule | .timer => v = u.threadSchedule

theorem step_effect {u v : ULib} {a : Act} (h : u.Step a v) : u.exited = false ∧ Effect u v a := by
  unfold ULib.Step ULib.next at h
  replace h := Option.ite_none_left_eq_some.mp h
  refine ⟨by simpa using h.1, ?_⟩
  replace h := h.2
  split at h
  · exact (Option.some.inj h).symm
  · rename_i hc
    obtain ⟨-, h⟩ := Option.ite_none_right_eq_some.mp h
    exact ⟨hc, (Option.some.inj h).symm⟩
  · obtain ⟨⟨-, -, h0⟩, h⟩ := Option.ite_none_right_eq_some.mp h
    exact ⟨h0, (Option.some.inj h).symm⟩
  · obtain ⟨-, h⟩ := Option.ite_none_left_eq_some.mp h
    obtain ⟨t, -, h⟩ := Option.map_eq_some_iff.mp h
    exact ⟨_, h.symm⟩
  · obtain ⟨t, -, h⟩ := Option.map_eq_some_iff.mp h
    exact ⟨t, _, h.symm⟩
  · obtain ⟨-, h⟩ := Option.ite_none_right_eq_some.mp h
    exact ⟨_, (Option.some.inj h).symm⟩
  · obtain ⟨-, h⟩ := Option.ite_none_right_eq_some.mp h
    exact ⟨_, (Option.some.inj h).symm⟩
  · obtain ⟨-, h⟩ := Option.ite_none_left_eq_some.mp h
    exact (Option.some.inj h).symm
  · obtain ⟨-, h⟩ := Option.ite_none_right_eq_some.mp h
    exact (Option.some.inj h).symm
  · exact absurd h (by simp)

/-- Every statement keeps the invariant, and so does a call of `thread_schedule` made in time. -/
theorem inv_step {u v : ULib} {a : Act} (hi : Inv u) (hr : CalledReady u a) (h : u.Step a v) :
    Inv v := by
  obtain ⟨hex, h⟩ := step_effect h
  have hexit : ∀ {w : ULib}, w.exited = u.exited → w.exited = true → ∀ t, w.created t = false :=
    fun he ht => absurd (he.symm.trans ht) (by simp [hex])
  cases a with
  | register =>
    subst h
    exact ⟨hi.eligible, hi.alive⟩
  | setCurrent =>
    obtain ⟨hc, rfl⟩ := h
    refine ⟨⟨fun t ht => Or.inr ?_, hexit rfl⟩, hi.alive⟩
    exact (hi.eligible.1 t ht).resolve_left (by simp [hc])
  | setRunning =>
    obtain ⟨h0, rfl⟩ := h
    have hne : ∀ t, u.created t = true → t ≠ 0 := by
      rintro t ht rfl
      simp [h0] at ht
    refine ⟨⟨fun t ht => ?_, hexit rfl⟩, fun t ht => ?_⟩
    · exact (hi.eligible.1 t ht).imp_right fun hs => (Function.update_of_ne (hne t ht) ..).trans hs
    · exact fun hs => hi.alive t ht ((Function.update_of_ne (hne t ht) ..).symm.trans hs)
  | createFind =>
    obtain ⟨s, rfl⟩ := h
    exact ⟨⟨hi.eligible.1, hexit rfl⟩, hi.alive⟩
  | createMark =>
    obtain ⟨t, s, rfl⟩ := h
    refine ⟨⟨fun q hq => ?_, fun he => absurd he (by simp [hex])⟩, fun q hq => ?_⟩
    · rcases eq_or_ne q t with rfl | hne
      · exact Or.inr (Function.update_self ..)
      · have hq' := (Function.update_of_ne hne ..).symm.trans hq
        exact (hi.eligible.1 q hq').imp_right fun hs => (Function.update_of_ne hne ..).trans hs
    · rcases eq_or_ne q t with rfl | hne
      · simp
      · have hq' := (Function.update_of_ne hne ..).symm.trans hq
        simpa [hne] using hi.alive q hq'
  | markRunnable =>
    obtain ⟨c, rfl⟩ := h
    refine ⟨⟨fun q hq => ?_, hexit rfl⟩, fun q hq => ?_⟩
    · rcases eq_or_ne q c with rfl | hne
      · exact Or.inr (Function.update_self ..)
      · exact (hi.eligible.1 q hq).imp_right fun hs => (Function.update_of_ne hne ..).trans hs
    · rcases eq_or_ne q c with rfl | hne
      · simp [ULib.markCurrent]
      · simpa [ULib.markCurrent, hne] using hi.alive q hq
  | markFree =>
    obtain ⟨c, rfl⟩ := h
    have hkeep : ∀ q, Function.update u.created c false q = true → q ≠ c ∧ u.created q = true := by
      intro q hq
      rcases eq_or_ne q c with rfl | hne
      · simp at hq
      · exact ⟨hne, by rwa [Function.update_of_ne hne] at hq⟩
    refine ⟨⟨fun q hq => ?_, fun he => absurd he (by simp [ULib.markCurrent, hex])⟩, fun q hq => ?_⟩
    · obtain ⟨hne, hq⟩ := hkeep q hq
      exact (hi.eligible.1 q hq).imp_right fun hs => (Function.update_of_ne hne ..).trans hs
    · obtain ⟨hne, hq⟩ := hkeep q hq
      simpa [ULib.markCurrent, hne] using hi.alive q hq
  | schedule | timer =>
    subst h
    exact inv_threadSchedule hi hr

/-- No user thread is lost, exactly in the runs in which `thread_schedule` is never entered by a
    created thread that is still `RUNNING`. -/
theorem no_thread_lost_iff {low : ThreadState} {l : List (ULib × Act)} {u : ULib}
    (hrun : Run ULib.Step (ULib.init low) l u) :
    Throughout Eligible l u ↔ Along CalledReady l := by
  refine hrun.throughout_iff (fun _ _ _ => inv_step) (fun _ hi => hi.eligible) ?_ (inv_init low)
  rintro u a v - hr hst
  obtain ⟨-, h⟩ := step_effect hst
  cases a with
  | schedule | timer =>
    subst h
    exact threadSchedule_loses hr
  | register | setCurrent | setRunning | createFind | createMark | markRunnable | markFree =>
    exact absurd trivial hr

/-- `main` of `uthread1.c` up to the first statement of the first thread. -/
def startUp : List Act :=
  [.register, .setCurrent, .setRunning, .createFind, .createMark, .createFind, .createMark,
    .schedule]

/-- Both threads run to their end, with a forced call in between. -/
def fullRun : List Act :=
  startUp ++ [.markRunnable, .timer, .markRunnable, .markFree, .schedule, .markFree, .schedule]

/-- `no_thread_lost_iff` along `fullRun`. -/
theorem full_run_keeps_threads :
    ∃ u l, Run ULib.Step (ULib.init .FREE) l u ∧ u.exited = true ∧ Throughout Eligible l u := by
  have h : ((exec ULib.next (ULib.init .FREE) fullRun).any fun u => u.exited) = true := by
    decide +kernel
  obtain ⟨u, hu, hex⟩ := (Option.any_eq_true _ _).mp h
  refine ⟨u, _, Run.of_exec hu, hex, (no_thread_lost_iff (Run.of_exec hu)).mpr ?_⟩
  unfold Along
  decide +kernel

/-- A forced call before the first statement of the first thread: it is neither current nor
    runnable any more. -/
theorem preempted_thread_lost :
    ∃ u l, Run ULib.Step (ULib.init .FREE) l u ∧ u.created 1 = true ∧ u.state 1 = .RUNNING ∧
      u.current_thread = some 2 ∧ ¬ Eligible u := by
  obtain ⟨u, l, hrun, hu⟩ := Run.of_exec_any ULib.next (startUp ++ [.timer]) (ULib.init .FREE)
    (fun u => u.created 1 = true ∧ u.state 1 = .RUNNING ∧ u.current_thread = some 2 ∧
      ¬ Eligible u) (by decide +kernel)
  exact ⟨u, l, hrun, of_decide_eq_true hu⟩

end Xv6.Uthread
