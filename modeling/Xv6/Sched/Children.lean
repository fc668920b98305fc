import Xv6.Sched.Family

/-! @src proc.c | name:No child is lost | layer:proof

    What the log of the system says about the processes in the table. The numbers of the processes
    in use are their own, so a child that `wait` has reported is never reported again. -/

namespace Xv6.Sched
open Xv6.Schemes
open Xv6.Schemes.X86 (Word)
open Xv6.Process (NPROC Slot ProcState Chan)

/-! ### The log -/

/-- The processes that `wait` has reported. -/
def reports (log : List Event) : List ℕ :=
  log.filterMap fun
    | .reported _ i => some i
    | .forked _ | .exited _ => none

/-- A process is reported after it was made by `fork` and has called `exit`. -/
def Ordered (log : List Event) : Prop :=
  ∀ l₁ x i l₂, log = l₁ ++ .reported x i :: l₂ → .forked i ∈ l₁ ∧ .exited i ∈ l₁

theorem Ordered.append {log : List Event} {e : Event} (h : Ordered log)
    (he : ∀ x i, e = .reported x i → .forked i ∈ log ∧ .exited i ∈ log) :
    Ordered (log ++ [e]) := by
  intro l₁ x i l₂ hl
  rcases List.eq_nil_or_concat l₂ with rfl | ⟨l', y, rfl⟩
  · obtain ⟨rfl, hy⟩ := List.append_inj' hl rfl
    exact he x i (List.cons.inj hy).1
  · have hl' : log ++ [e] = (l₁ ++ .reported x i :: l') ++ [y] := by
      rw [hl]
      simp
    exact h l₁ x i l' (List.append_inj' hl' rfl).1

/-! ### The processes in the table -/

variable {κ : Type} {s t : Sys κ} {c : κ} {p q np : Slot} {f : Proc → Proc}

/-- What the log says about the processes in the table. -/
structure History (s : Sys κ) : Prop where
  bound : ∀ p, (s.proc p).state ≠ .UNUSED → (s.proc p).num < s.born
  distinct : ∀ p q, (s.proc p).state ≠ .UNUSED → (s.proc q).state ≠ .UNUSED →
    (s.proc p).num = (s.proc q).num → p = q
  forked : ∀ p, p ≠ initproc → (s.proc p).state ≠ .UNUSED → (s.proc p).state ≠ .EMBRYO →
    .forked (s.proc p).num ∈ s.log
  exited : ∀ p, (s.proc p).state = .ZOMBIE → .exited (s.proc p).num ∈ s.log
  reported : ∀ i ∈ reports s.log, i < s.born ∧ ∀ p, (s.proc p).state ≠ .UNUSED →
    (s.proc p).num ≠ i
  once : (reports s.log).Nodup
  ordered : Ordered s.log

/-- States that say no more about the past. -/
def Later (st st' : ProcState) : Prop := st' = st ∨ Alive st ∧ Alive st' ∨ st' = .UNUSED

theorem Later.spec {st st' : ProcState} (h : Later st st') (hu : st' ≠ .UNUSED) :
    st ≠ .UNUSED ∧ (st' ≠ .EMBRYO → st ≠ .EMBRYO) ∧ (st' = .ZOMBIE → st = .ZOMBIE) := by
  rcases h with rfl | ⟨ha, ha'⟩ | h
  · exact ⟨hu, id, id⟩
  · exact ⟨ha.ne.1, fun _ => ha.ne.2.1, fun hz => absurd hz ha'.ne.2.2⟩
  · exact absurd h hu

/-- Steps that record nothing. -/
theorem History.keep (h : History s) (hlog : t.log = s.log) (hborn : t.born = s.born)
    (hq : ∀ q, (t.proc q).num = (s.proc q).num ∧ Later (s.proc q).state (t.proc q).state) :
    History t where
  bound := fun p hp => by
    rw [(hq p).1, hborn]
    exact h.bound p ((hq p).2.spec hp).1
  distinct := fun p q hp hq' hn => by
    rw [(hq p).1, (hq q).1] at hn
    exact h.distinct p q ((hq p).2.spec hp).1 ((hq q).2.spec hq').1 hn
  forked := fun p hp hu he => by
    rw [(hq p).1, hlog]
    exact h.forked p hp ((hq p).2.spec hu).1 (((hq p).2.spec hu).2.1 he)
  exited := fun p hz => by
    rw [(hq p).1, hlog]
    exact h.exited p (((hq p).2.spec (by simp [hz])).2.2 hz)
  reported := fun i hi => by
    rw [hlog] at hi
    rw [hborn]
    refine ⟨(h.reported i hi).1, fun p hp => ?_⟩
    rw [(hq p).1]
    exact (h.reported i hi).2 p ((hq p).2.spec hp).1
  once := hlog ▸ h.once
  ordered := hlog ▸ h.ordered

theorem History.modify (h : History s) (hnum : (f (s.proc p)).num = (s.proc p).num)
    (hstate : Later (s.proc p).state (f (s.proc p)).state) : History (s.modify p f) := by
  refine h.keep rfl rfl fun q => ?_
  rcases eq_or_ne q p with rfl | hne
  · rw [modify_self]
    exact ⟨hnum, hstate⟩
  · rw [modify_of_ne hne]
    exact ⟨rfl, Or.inl rfl⟩

/-- Waking processes up. -/
theorem History.soft {tbl : Slot → Proc} (h : History s)
    (hs : ∀ q, Soft (s.proc q) (tbl q)) (hnum : ∀ q, (tbl q).num = (s.proc q).num) :
    History { s with proc := tbl } := by
  refine h.keep rfl rfl fun q => ⟨hnum q, ?_⟩
  exact (hs q).2.imp id fun ⟨he, hr⟩ => Or.inl ⟨Or.inl he, Or.inr (Or.inl hr)⟩

theorem History.wakes (h : History s) (ch : Chan) :
    History { s with proc := wakeTable ch s.proc } := by
  refine h.soft (soft_wakeTable ch s.proc) fun q => ?_
  obtain ⟨st, he⟩ := wakeTable_eq ch s.proc q
  rw [he]

/-- `fork` and `exit` record what happens to a process. -/
theorem History.noted (h : History s) {e : Event} (hu : (s.proc p).state ≠ .UNUSED)
    (hnum : (f (s.proc p)).num = (s.proc p).num) (he : ∀ x i, e ≠ .reported x i)
    (hforked : (s.proc p).state = .EMBRYO → e = .forked (s.proc p).num)
    (hexited : (f (s.proc p)).state = .ZOMBIE → e = .exited (s.proc p).num) :
    History ((s.modify p f).note e) := by
  set t := (s.modify p f).note e with ht
  have htp : t.proc p = f (s.proc p) := by simp [ht]
  have htq : ∀ q, q ≠ p → t.proc q = s.proc q := fun q hq => by simp [ht, hq]
  have hnum' : ∀ q, (t.proc q).num = (s.proc q).num := fun q => by
    rcases eq_or_ne q p with rfl | hne
    · rw [htp, hnum]
    · rw [htq q hne]
  have hused : ∀ q, (t.proc q).state ≠ .UNUSED → (s.proc q).state ≠ .UNUSED := fun q hq => by
    rcases eq_or_ne q p with rfl | hne
    · exact hu
    · rwa [htq q hne] at hq
  have hlog : t.log = s.log ++ [e] := rfl
  have hreports : reports t.log = reports s.log := by
    cases e with
    | reported x i => exact absurd rfl (he x i)
    | forked i | exited i => simp [hlog, reports]
  refine ⟨fun q hq => ?_, fun q r hq hr hn => ?_, fun q hq hqu hqe => ?_, fun q hz => ?_,
    fun i hi => ?_, hreports ▸ h.once, ?_⟩
  · rw [hnum']
    exact h.bound q (hused q hq)
  · rw [hnum', hnum'] at hn
    exact h.distinct q r (hused q hq) (hused r hr) hn
  · rw [hnum', hlog]
    by_cases hqs : (s.proc q).state = .EMBRYO
    · obtain rfl : q = p := by
        by_contra hne
        exact hqe (htq q hne ▸ hqs)
      simp [hforked hqs]
    · exact List.mem_append_left _ (h.forked q hq (hused q hqu) hqs)
  · rw [hnum', hlog]
    rcases eq_or_ne q p with rfl | hne
    · rw [htp] at hz
      simp [hexited hz]
    · rw [htq q hne] at hz
      exact List.mem_append_left _ (h.exited q hz)
  · rw [hreports] at hi
    refine ⟨(h.reported i hi).1, fun q hq => ?_⟩
    rw [hnum']
    exact (h.reported i hi).2 q (hused q hq)
  · rw [hlog]
    exact h.ordered.append fun x i hx => absurd hx (he x i)

/-- `wait` records the child, which it takes from the table. -/
theorem History.reap (h : History s) {x : ℕ} (hroot : q ≠ initproc)
    (hz : (s.proc q).state = .ZOMBIE) :
    History ((s.modify q Proc.reap).note (.reported x (s.proc q).num)) := by
  have hu : (s.proc q).state ≠ .UNUSED := by simp [hz]
  set t := (s.modify q Proc.reap).note (.reported x (s.proc q).num) with ht
  have htq : t.proc q = (s.proc q).reap := by simp [ht]
  have htr : ∀ r, r ≠ q → t.proc r = s.proc r := fun r hr => by simp [ht, hr]
  have hother : ∀ r, (t.proc r).state ≠ .UNUSED → r ≠ q ∧ (s.proc r).state ≠ .UNUSED := by
    intro r hr
    have hne : r ≠ q := by
      rintro rfl
      rw [htq] at hr
      exact hr rfl
    exact ⟨hne, htr r hne ▸ hr⟩
  have hlog : t.log = s.log ++ [.reported x (s.proc q).num] := rfl
  have hreports : reports t.log = reports s.log ++ [(s.proc q).num] := by simp [hlog, reports]
  have hnew : (s.proc q).num ∉ reports s.log := fun hin => (h.reported _ hin).2 q hu rfl
  refine ⟨fun r hr => ?_, fun r r' hr hr' hn => ?_, fun r hr hru he => ?_, fun r hrz => ?_,
    fun i hi => ?_, ?_, ?_⟩
  · obtain ⟨hne, hr'⟩ := hother r hr
    rw [htr r hne]
    exact h.bound r hr'
  · obtain ⟨hne, hru⟩ := hother r hr
    obtain ⟨hne', hru'⟩ := hother r' hr'
    rw [htr r hne, htr r' hne'] at hn
    exact h.distinct r r' hru hru' hn
  · obtain ⟨hne, hru'⟩ := hother r hru
    rw [htr r hne] at he ⊢
    exact List.mem_append_left _ (h.forked r hr hru' he)
  · obtain ⟨hne, -⟩ := hother r (by simp [hrz])
    rw [htr r hne] at hrz ⊢
    exact List.mem_append_left _ (h.exited r hrz)
  · rw [hreports, List.mem_append, List.mem_singleton] at hi
    rcases hi with hi | rfl
    · refine ⟨(h.reported i hi).1, fun r hr => ?_⟩
      obtain ⟨hne, hr'⟩ := hother r hr
      rw [htr r hne]
      exact (h.reported i hi).2 r hr'
    · refine ⟨h.bound q hu, fun r hr hn => ?_⟩
      obtain ⟨hne, hr'⟩ := hother r hr
      rw [htr r hne] at hn
      exact hne (h.distinct r q hr' hu hn)
  · rw [hreports]
    exact h.once.append (by simp) (by simpa using hnew)
  · rw [hlog]
    refine h.ordered.append fun y i hy => ?_
    obtain ⟨-, rfl⟩ := Event.reported.inj hy
    exact ⟨h.forked q hroot hu (by simp [hz]), h.exited q hz⟩

/-- `allocproc` gives the process a number of its own. -/
theorem History.alloc (h : History s) (hu : (s.proc np).state = .UNUSED) {pid n : Word} :
    History { s.modify np fun r =>
      { r with state := .EMBRYO, pid := pid, num := s.born, marked := false } with
      nextpid := n, born := s.born + 1 } := by
  set t : Sys κ := { s.modify np fun r =>
    { r with state := .EMBRYO, pid := pid, num := s.born, marked := false } with
    nextpid := n, born := s.born + 1 } with ht
  have htp : t.proc np =
      { s.proc np with state := .EMBRYO, pid := pid, num := s.born, marked := false } := by
    simp [ht]
  have htq : ∀ q, q ≠ np → t.proc q = s.proc q := fun q hq => by simp [ht, hq]
  refine ⟨fun q hq => ?_, fun q r hq hr hn => ?_, fun q hq hqu he => ?_, fun q hz => ?_,
    fun i hi => ?_, h.once, h.ordered⟩
  · rcases eq_or_ne q np with rfl | hne
    · rw [htp]
      exact Nat.lt_succ_self _
    · rw [htq q hne] at hq ⊢
      exact Nat.lt_succ_of_lt (h.bound q hq)
  · by_cases hqn : q = np <;> by_cases hrn : r = np
    · exact hqn.trans hrn.symm
    · rw [hqn, htp, htq r hrn] at hn
      rw [htq r hrn] at hr
      exact absurd hn.symm (h.bound r hr).ne
    · rw [hrn, htp, htq q hqn] at hn
      rw [htq q hqn] at hq
      exact absurd hn (h.bound q hq).ne
    · rw [htq q hqn] at hq hn
      rw [htq r hrn] at hr hn
      exact h.distinct q r hq hr hn
  · rcases eq_or_ne q np with rfl | hne
    · rw [htp] at he
      exact absurd rfl he
    · rw [htq q hne] at hqu he ⊢
      exact h.forked q hq hqu he
  · rcases eq_or_ne q np with rfl | hne
    · rw [htp] at hz
      exact absurd hz (by simp)
    · rw [htq q hne] at hz ⊢
      exact h.exited q hz
  · obtain ⟨hlt, hother⟩ := h.reported i hi
    refine ⟨Nat.lt_succ_of_lt hlt, fun q hq => ?_⟩
    rcases eq_or_ne q np with rfl | hne
    · rw [htp]
      exact hlt.ne'
    · rw [htq q hne] at hq ⊢
      exact hother q hq

/-! ### Steps -/

section Steps

variable {st : Stmt} {rest : List Stmt} {ok : Bool} {l : List Stmt}

/-- A report that the step adds to the log is about a dead child of the process that executes. -/
def ReportsChild (s t : Sys κ) (p : Slot) : Prop :=
  ∀ x i, t.log = s.log ++ [.reported x i] → x = (s.proc p).num ∧
    ∃ q, i = (s.proc q).num ∧ (s.proc q).parent = some p ∧ (s.proc q).state = .ZOMBIE

theorem ReportsChild.quiet (h : t.log = s.log) : ReportsChild s t p := fun x i hx => by
  have := congrArg List.length (h.symm.trans hx)
  simp at this

theorem ReportsChild.other {e : Event} (h : t.log = s.log ++ [e]) (he : ∀ x i, e ≠ .reported x i) :
    ReportsChild s t p := fun x i hx => by
  have := List.append_cancel_left (h.symm.trans hx)
  exact absurd (List.cons.inj this).1 (he x i)

variable [DecidableEq κ]

theorem goto_log : (s.goto c l).log = s.log := by
  unfold Sys.goto
  split <;> rfl

theorem History.goto (h : History s) : History (s.goto c l) := by
  cases hc : (s.cpu c).thread with
  | some p =>
    rw [goto_some hc]
    exact h.modify rfl (Or.inl rfl)
  | none =>
    rw [goto_none hc]
    exact h.keep rfl rfl fun q => ⟨rfl, Or.inl rfl⟩

theorem History.acquire {lk : Lock} (h : History s) (ht : s.acquire c lk = some t) :
    History t ∧ t.log = s.log := by
  obtain ⟨-, ht⟩ := Option.ite_none_right_eq_some.mp ht
  exact Option.some.inj ht ▸ ⟨h.keep rfl rfl fun q => ⟨rfl, Or.inl rfl⟩, rfl⟩

theorem History.release {lk : Lock} (h : History s) (ht : s.release c lk = some t) :
    History t ∧ t.log = s.log := by
  obtain ⟨-, ht⟩ := Option.ite_none_right_eq_some.mp ht
  exact Option.some.inj ht ▸ ⟨h.keep rfl rfl fun q => ⟨rfl, Or.inl rfl⟩, rfl⟩

theorem History.waitLoop (h : History s) (hk : Kin s.proc)
    (ht : s.procStmt c p ok rest .waitLoop = some t) : History t ∧ ReportsChild s t p := by
  simp only [Sys.procStmt] at ht
  split at ht
  · rename_i q hq
    obtain rfl := Option.some.inj ht
    obtain ⟨hparent, hz⟩ := deadChild_some hq
    have hroot : q ≠ initproc := by
      rintro rfl
      exact hk.root.1.ne.2.2 hz
    refine ⟨(h.reap hroot hz).modify rfl (Or.inl rfl), fun x i hx => ?_⟩
    have := List.append_cancel_left hx
    obtain ⟨rfl, rfl⟩ := Event.reported.inj (List.cons.inj this).1
    exact ⟨rfl, q, rfl, hparent, hz⟩
  · split at ht
    · obtain rfl := Option.some.inj ht
      exact ⟨h.modify rfl (Or.inl rfl), .quiet rfl⟩
    · obtain rfl := Option.some.inj ht
      exact ⟨h.modify rfl (Or.inl rfl), .quiet rfl⟩

theorem History.allocproc (h : History s) (ht : s.procStmt c p ok rest .allocproc = some t) :
    History t ∧ ReportsChild s t p := by
  simp only [Sys.procStmt] at ht
  split at ht
  · rename_i np hnp
    obtain rfl := Option.some.inj ht
    have hu : (s.proc np).state = .UNUSED := by simpa using List.find?_some hnp
    exact ⟨(h.alloc hu).goto, .quiet goto_log⟩
  · obtain rfl := Option.some.inj ht
    exact ⟨h.modify rfl (Or.inl rfl), .quiet rfl⟩

/-- Every statement of a process keeps the history. -/
theorem history_procStmt (hi : Inv s) (hf : Family s) (h : History s)
    (hp : (s.cpu c).thread = some p) (hto : (s.proc p).todo = st :: rest)
    (ht : s.procStmt c p ok rest st = some t) : History t ∧ ReportsChild s t p := by
  have hrun : phase (s.proc p).todo ≠ .leaving → (s.proc p).state = .RUNNING :=
    hi.threads.running hp
  cases st with
  | acquire lk =>
    obtain ⟨hh, hlog⟩ := h.goto.acquire ht
    exact ⟨hh, .quiet (hlog.trans goto_log)⟩
  | release lk =>
    obtain ⟨hh, hlog⟩ := h.goto.release ht
    exact ⟨hh, .quiet (hlog.trans goto_log)⟩
  | setChan ch | clearChan | fault =>
    obtain rfl := Option.some.inj ht
    exact ⟨h.modify rfl (Or.inl rfl), .quiet rfl⟩
  | setState st =>
    have hr := hrun (by simp [hto, phase])
    have ha := alive_of_running hr
    obtain rfl := Option.some.inj ht
    split
    · rename_i hz
      subst hz
      refine ⟨h.noted ha.ne.1 rfl (by simp) (fun he => ?_) fun _ => rfl, .other rfl (by simp)⟩
      exact absurd he ha.ne.2.1
    · rename_i hz
      refine ⟨h.modify rfl (Or.inr (Or.inl ⟨ha, ?_⟩)), .quiet rfl⟩
      obtain ⟨-, -, ⟨hz', -⟩ | ⟨hst | hst, -⟩⟩ := hto ▸ hi.threads.wf p
      · exact absurd hz' hz
      · exact Or.inr (Or.inl hst)
      · exact Or.inl hst
  | swtch =>
    obtain ⟨-, ht⟩ := Option.ite_none_right_eq_some.mp ht
    obtain rfl := Option.some.inj ht
    exact ⟨h.goto.keep rfl rfl fun q => ⟨rfl, Or.inl rfl⟩, .quiet goto_log⟩
  | wakeup1 ch =>
    obtain rfl := Option.some.inj ht
    have hw := h.wakes ch
    exact ⟨hw.goto, .quiet goto_log⟩
  | kill pid =>
    obtain rfl := Option.some.inj ht
    have hk := h.soft (soft_killTable pid s.proc) fun q => by
      obtain ⟨st, k, m, he⟩ := kill_eq pid s.proc q
      rw [he]
    exact ⟨hk.modify rfl (Or.inl rfl), .quiet rfl⟩
  | wakeParent =>
    simp only [Sys.procStmt] at ht
    split at ht
    · rename_i r hr
      obtain rfl := Option.some.inj ht
      have hw := h.wakes (.proc r)
      exact ⟨hw.goto, .quiet goto_log⟩
    · obtain rfl := Option.some.inj ht
      exact ⟨h.goto, .quiet goto_log⟩
  | abandon =>
    obtain rfl := Option.some.inj ht
    have hw := h.soft (soft_abandonTable p s.proc) fun q => by
      obtain ⟨st, o, he⟩ := abandon_eq p s.proc q
      rw [he]
    exact ⟨hw.goto, .quiet goto_log⟩
  | waitLoop => exact h.waitLoop hf.kin ht
  | allocproc => exact h.allocproc ht
  | kstack np =>
    simp only [Sys.procStmt] at ht
    split at ht
    · obtain rfl := Option.some.inj ht
      refine ⟨History.goto (h.modify rfl (Or.inl rfl)), .quiet goto_log⟩
    · obtain rfl := Option.some.inj ht
      exact ⟨h.goto, .quiet goto_log⟩
  | unalloc np =>
    obtain rfl := Option.some.inj ht
    have hset : History (s.modify np fun r => { r with state := .UNUSED }) :=
      h.modify rfl (Or.inr (Or.inr rfl))
    exact ⟨hset.modify rfl (Or.inl rfl), .quiet rfl⟩
  | copyuvm np =>
    obtain rfl := Option.some.inj ht
    exact ⟨h.goto, .quiet goto_log⟩
  | inherit np =>
    obtain rfl := Option.some.inj ht
    refine ⟨History.goto (h.modify rfl (Or.inl rfl)), .quiet goto_log⟩
  | runnable np =>
    obtain ⟨he, -, -, -⟩ := hi.child_of (b := true) hp (by simp [hto, phase]) (by rw [hto]; rfl)
    obtain rfl := Option.some.inj ht
    have hborn : History ((s.modify np fun r => { r with state := .RUNNABLE }).note
        (.forked (s.proc np).num)) :=
      h.noted (by simp [he]) rfl (by simp) (fun _ => rfl) fun hz => absurd hz (by simp)
    exact ⟨hborn.modify rfl (Or.inl rfl), .other rfl (by simp)⟩
  | scan | back => exact absurd ht (by simp [Sys.procStmt])

theorem history_schedStmt (h : History s) (ht : s.schedStmt c rest st = some t) :
    History t ∧ t.log = s.log := by
  cases st with
  | acquire lk =>
    obtain ⟨hh, hlog⟩ := h.goto.acquire ht
    exact ⟨hh, hlog.trans goto_log⟩
  | release lk =>
    obtain ⟨hh, hlog⟩ := h.goto.release ht
    exact ⟨hh, hlog.trans goto_log⟩
  | wakeup1 ch =>
    obtain rfl := Option.some.inj ht
    have hw := h.wakes ch
    exact ⟨hw.goto, goto_log⟩
  | scan i =>
    simp only [Sys.schedStmt] at ht
    split at ht
    · split at ht
      · rename_i hr
        obtain rfl := Option.some.inj ht
        have hset : History (s.modify _ fun r => { r with state := .RUNNING }) :=
          h.modify rfl (Or.inr (Or.inl ⟨Or.inr (Or.inl hr), alive_of_running rfl⟩))
        exact ⟨hset.keep rfl rfl fun q => ⟨rfl, Or.inl rfl⟩, rfl⟩
      · obtain rfl := Option.some.inj ht
        exact ⟨h.goto, goto_log⟩
    · obtain rfl := Option.some.inj ht
      exact ⟨h.goto, goto_log⟩
  | back p =>
    obtain rfl := Option.some.inj ht
    exact ⟨h.keep rfl rfl fun q => ⟨rfl, Or.inl rfl⟩, rfl⟩
  | setChan | setState | swtch | clearChan | kill | fault | wakeParent | abandon | waitLoop
  | allocproc | kstack | unalloc | copyuvm | inherit | runnable =>
    exact absurd ht (by simp [Sys.schedStmt])

/-- A report is made by the process that is the parent at that moment, about a dead child. -/
def ReportsOwn (s : Sys κ) (a : Act κ) : Prop :=
  ∀ t x i, s.Step a t → t.log = s.log ++ [.reported x i] →
    ∃ c ok p q, a = .run c ok ∧ (s.cpu c).thread = some p ∧ x = (s.proc p).num ∧
      i = (s.proc q).num ∧ (s.proc q).parent = some p ∧ (s.proc q).state = .ZOMBIE

theorem history_step {a : Act κ} (hi : Inv s) (hf : Family s) (h : History s) (hst : s.Step a t) :
    History t ∧ ∀ x i, t.log = s.log ++ [.reported x i] →
      ∃ c ok p q, a = .run c ok ∧ (s.cpu c).thread = some p ∧ x = (s.proc p).num ∧
        i = (s.proc q).num ∧ (s.proc q).parent = some p ∧ (s.proc q).state = .ZOMBIE := by
  have hquiet : t.log = s.log → ∀ x i, t.log ≠ s.log ++ [.reported x i] := fun hlog x i hx => by
    have := congrArg List.length (hlog.symm.trans hx)
    simp at this
  cases stepped hst with
  | @proc c ok p _ _ hp hto ht =>
    obtain ⟨hh, hreports⟩ := history_procStmt hi hf h hp hto ht
    refine ⟨hh, fun x i hx => ?_⟩
    obtain ⟨hxp, q, hq⟩ := hreports x i hx
    exact ⟨c, ok, p, q, rfl, hp, hxp, hq⟩
  | sched _ _ ht =>
    obtain ⟨hh, hlog⟩ := history_schedStmt h ht
    exact ⟨hh, fun x i hx => absurd hx (hquiet hlog x i)⟩
  | call _ _ _ ht =>
    subst ht
    exact ⟨h.modify rfl (Or.inl rfl), fun x i hx => absurd hx (hquiet rfl x i)⟩
  | intr _ ht =>
    subst ht
    exact ⟨h.goto, fun x i hx => absurd hx (hquiet goto_log x i)⟩

end Steps

/-! ### Runs -/

theorem history_boot : History (Sys.boot : Sys κ) := by
  have hused : ∀ q, ((Sys.boot : Sys κ).proc q).state ≠ .UNUSED → q = initproc := fun q hq => by
    by_contra hne
    exact hq (by simp [Sys.boot, hne, Sys.zero])
  refine ⟨fun q hq => ?_, fun q r hq hr _ => (hused q hq).trans (hused r hr).symm,
    fun q hq hu => absurd (hused q hu) hq, fun q hz => ?_, fun i hi => ?_, ?_, ?_⟩
  · rw [hused q hq]
    simp [Sys.boot, Sys.zero]
  · have hq := hused q (by simp [hz])
    rw [hq] at hz
    simp [Sys.boot] at hz
  · simp [reports, Sys.boot] at hi
  · simp [reports, Sys.boot]
  · intro l₁ x i l₂ hl
    simp [Sys.boot] at hl

/-- What `exit` and `wait` promise: while the lock is free, every process but init has a parent that
    has not exited and nobody sleeps in `wait` with a dead child; no child is reported twice, or
    before it was made by `fork` and has exited. -/
structure NoneLost (s : Sys κ) : Prop where
  parent : s.lock .ptable = none → ∀ p, p ≠ initproc → (s.proc p).state ≠ .UNUSED →
    (s.proc p).state ≠ .EMBRYO → ∃ r, (s.proc p).parent = some r ∧
      (s.proc r).state ≠ .UNUSED ∧ (s.proc r).state ≠ .EMBRYO ∧ (s.proc r).state ≠ .ZOMBIE
  asleep : s.lock .ptable = none → ∀ p, (s.proc p).state = .SLEEPING →
    (s.proc p).chan = some (.proc p) → ∀ q, (s.proc q).parent = some p →
      (s.proc q).state ≠ .ZOMBIE
  once : (reports s.log).Nodup
  ordered : Ordered s.log

theorem Family.noneLost (h : Family s) (hh : History s) : NoneLost s where
  parent := fun _ p hp hu he => by
    obtain ⟨r, hr⟩ := Option.ne_none_iff_exists'.mp (h.kin.parent p hp hu he)
    exact ⟨r, hr, (h.kin.alive p r hr).2.ne⟩
  asleep := fun _ p hs hc q hq => h.kin.asleep p q ⟨hs, hc⟩ hq
  once := hh.once
  ordered := hh.ordered

/-- On any number of processors, no run loses a child, and every report goes to the parent. -/
theorem no_child_lost {κ : Type} [DecidableEq κ] {l : List (Sys κ × Act κ)} {u : Sys κ}
    (hrun : Run Sys.Step Sys.boot l u) : Throughout NoneLost l u ∧ Along ReportsOwn l := by
  have hinv : Throughout (fun s => Inv s ∧ Family s ∧ History s) l u := by
    refine hrun.invariant (C := fun _ _ => True) (fun s a t hs _ hst => ?_)
      ⟨inv_boot, family_boot, history_boot⟩ fun _ _ => trivial
    obtain ⟨hi, hf, hh⟩ := hs
    exact ⟨inv_step hi hst, family_step hi hf hst, (history_step hi hf hh hst).1⟩
  refine ⟨hinv.mono fun s ⟨_, hf, hh⟩ => hf.noneLost hh, fun x hx t y i hst hlog => ?_⟩
  obtain ⟨hi, hf, hh⟩ := hinv.1 x hx
  exact (history_step hi hf hh hst).2 y i hlog

/-- Init makes a child and waits for it; the child exits, which wakes init up. -/
def waitsForChild : List (Act Unit) :=
  runs 3 ++ [.call () .fork] ++ runs 9 ++ [.call () .wait] ++ runs 8 ++ [.call () .exit] ++ runs 74

/-- `no_child_lost` along `waitsForChild`, in which init gets the child it sleeps for. -/
theorem waited_child_reported :
    ∃ l u, Run Sys.Step (Sys.boot : Sys Unit) l u ∧ .reported 0 1 ∈ u.log ∧
      Throughout NoneLost l u ∧ Along ReportsOwn l := by
  have hend : ((exec Sys.next Sys.boot waitsForChild).any fun u => .reported 0 1 ∈ u.log) =
      true := by decide +kernel
  obtain ⟨u, hu, hreported⟩ := (Option.any_eq_true _ _).mp hend
  exact ⟨_, u, Run.of_exec hu, of_decide_eq_true hreported, no_child_lost (Run.of_exec hu)⟩

end Xv6.Sched
