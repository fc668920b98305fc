import Xv6.Sched.Invariant
import Xv6.Schemes.Run

/-! @src proc.c | name:The lock is handed over with the processor | layer:proof

    Every statement keeps the invariant of the kernel threads, also the ones that take the lock on
    one stack and have it released on another. So no two processors ever have the same process, and
    a `ZOMBIE` that `wait` finds has left its kernel stack. -/

namespace Xv6.Sched
open Xv6.Schemes
open Xv6.Schemes.X86 (Word)
open Xv6.Process (NPROC Slot ProcState Chan)

variable {κ : Type} {s t : Sys κ} {c d : κ} {p q np : Slot} {f : Proc → Proc} {l : List Stmt}

/-! ### The statements of a process -/

section Process

variable {ok : Bool} {st : Stmt} {rest : List Stmt} {tbl : Slot → Proc}

theorem inv_setState {st : ProcState} (h : Inv s) (hp : (s.cpu c).thread = some p)
    (hto : (s.proc p).todo = .setState st :: rest) :
    Inv (s.modify p fun r => { r with state := st, todo := rest }) := by
  have hwf := hto ▸ h.threads.wf p
  obtain ⟨hleaving, hrest, hst⟩ := hwf
  have hrun := h.threads.running hp (by simp [hto, phase])
  have hnot : ∀ np b, child (s.proc np).todo = some (p, b) → False := fun np b hn =>
    absurd (hrun.symm.trans (h.threads.embryo np p b hn).1) (by decide)
  have hch : ∀ q x, child ((s.modify p fun r => { r with state := st, todo := rest }).proc q).todo =
      some x → child (s.proc q).todo = some x := by
    intro q x hq
    rcases eq_or_ne q p with rfl | hne
    · rw [modify_self] at hq
      rw [hto]
      exact hq
    · rwa [modify_of_ne hne] at hq
  refine ⟨h.locks.keep rfl fun _ => rfl, h.holds.keep rfl fun d => ?_, ?_⟩
  · cases hd : (s.cpu d).thread with
    | some q =>
      rw [todo_some (p := q) hd, todo_some (p := q) (by simpa using hd)]
      rcases eq_or_ne q p with rfl | hne
      · rw [modify_self, hto]
        simp [hleaving, phase]
      · rw [modify_of_ne hne]
    | none => rw [todo_none hd, todo_none (by simpa using hd), modify_cpu]
  · constructor
    · intro q
      rcases eq_or_ne q p with rfl | hne
      · rw [modify_self]
        exact hrest
      · rw [modify_of_ne hne]
        exact h.threads.wf q
    · exact h.threads.wfSched
    · exact h.threads.current
    · intro d hd
      rcases h.threads.sched d hd with ⟨q, h₁, h₂, h₃, hl⟩ | hi
      · have hne : q ≠ p := by
          rintro rfl
          rw [hrun] at hl
          simp [Left] at hl
        exact Or.inl ⟨q, h₁, h₂, h₃, by rwa [modify_of_ne hne]⟩
      · exact Or.inr hi
    · exact h.threads.inj
    · intro d q hq
      rcases eq_or_ne q p with rfl | hne
      · rw [modify_self]
        unfold On
        dsimp only
        rw [if_pos hleaving]
        rcases hst with ⟨rfl, hr⟩ | ⟨hs, hr⟩
        · exact ⟨Or.inr (Or.inr rfl), iff_of_true rfl hr⟩
        · refine ⟨hs.imp_right Or.inl, iff_of_false ?_ hr⟩
          rcases hs with rfl | rfl <;> decide
      · rw [modify_of_ne hne]
        exact h.threads.on d q hq
    · intro q hq
      have hne : q ≠ p := by
        rintro rfl
        exact hq c hp
      rw [modify_of_ne hne]
      exact h.threads.off q hq
    · intro q np b hq
      have hq' := hch q _ hq
      have hne : np ≠ p := by
        rintro rfl
        exact hnot q b hq'
      rw [modify_of_ne hne]
      exact h.threads.embryo q np b hq'
    · exact fun q r np b b' hq hr => h.threads.forker q r np b b' (hch q _ hq) (hch r _ hr)

theorem inv_unalloc (h : Inv s) (hp : (s.cpu c).thread = some p)
    (hto : (s.proc p).todo = .unalloc np :: rest) :
    Inv ((s.modify np fun r => { r with state := .UNUSED }).modify p fun r =>
      { r with ret := -1, todo := rest }) := by
  obtain ⟨hfree, hwf, hchild⟩ := hto ▸ h.threads.wf p
  have hph : phase (s.proc p).todo = .free := by rw [hto]; rfl
  have hold : phase (s.proc p).todo ≠ .leaving := by simp [hph]
  have hc : child (s.proc p).todo = some (np, false) := by rw [hto]; rfl
  obtain ⟨he, hne, hgone, hrest⟩ := h.child_of hp hold hc
  have hself : Inv (s.modify p fun r => { r with ret := -1, todo := rest }) :=
    h.self hp hold rfl (by rw [hph, hfree]) rfl hwf (by simp [hchild])
  have hcomm : (s.modify np fun r => { r with state := .UNUSED }).modify p (fun r =>
      { r with ret := -1, todo := rest }) =
      (s.modify p fun r => { r with ret := -1, todo := rest }).modify np fun r =>
        { r with state := .UNUSED } := by
    simp [Sys.modify, hne, hne.symm, Function.update_comm hne]
  rw [hcomm]
  refine hself.idle hgone ?_ ?_ fun r b hr => ?_
  · simpa [Rest, hne.symm] using hrest
  · simpa [hne.symm] using hrest
  · rcases eq_or_ne r p with rfl | hrp
    · simp [hchild] at hr
    · rw [modify_of_ne hrp] at hr
      exact absurd (h.threads.forker r p np b false hr hc) hrp

variable [DecidableEq κ]

/-- Waking processes up, and going on. -/
theorem Inv.wakes (h : Inv s) (hp : (s.cpu c).thread = some p)
    (hto : (s.proc p).todo = st :: rest) (hst : phase (st :: rest) = .held)
    (hrest : phase rest = .held) (hwf : Wf rest) (hchild : child (st :: rest) = child rest)
    (hs : ∀ q, Soft (s.proc q) (tbl q)) : Inv (Sys.goto { s with proc := tbl } c rest) := by
  have hto' : (tbl p).todo = st :: rest := (hs p).1.trans hto
  rw [goto_some (p := p) (s := { s with proc := tbl }) hp]
  refine (h.soft hs).self hp ?_ rfl ?_ rfl hwf fun np b hl => Or.inl ?_
  · simp [hto', hst]
  · simp [hto', hst, hrest]
  · rw [← hl, ← hchild]
    exact congrArg child hto'

/-- `swtch` to the scheduler: the process keeps what it has to do when it comes back. -/
theorem inv_swtch (h : Inv s) (hp : (s.cpu c).thread = some p)
    (hto : (s.proc p).todo = .swtch :: rest) :
    Inv ((s.goto c rest).onCpu c fun k => { k with thread := none }) := by
  obtain ⟨hrest, hwf⟩ := hto ▸ h.threads.wf p
  obtain ⟨hproc, hcr3, hback⟩ := h.threads.current c p hp
  have hon := h.threads.on c p hp
  have hph : phase (Stmt.swtch :: rest) = .leaving := rfl
  rw [On, hto, if_pos hph] at hon
  obtain ⟨hleft, hz⟩ := hon
  rw [goto_some hp]
  set t := (s.modify p fun r => { r with todo := rest }).onCpu c fun k => { k with thread := none }
    with ht
  have hcpu : ∀ d, d ≠ c → t.cpu d = s.cpu d := fun d hd => by simp [ht, Sys.onCpu, hd]
  have hself : t.cpu c = { s.cpu c with thread := none } := by simp [ht, Sys.onCpu]
  have htp : t.proc p = { s.proc p with todo := rest } := by simp [ht, Sys.onCpu]
  have htq : ∀ q, q ≠ p → t.proc q = s.proc q := fun q hq => by simp [ht, Sys.onCpu, hq]
  have htproc : ∀ d, (t.cpu d).proc = (s.cpu d).proc := by
    intro d
    rcases eq_or_ne d c with rfl | hd
    · rw [hself]
    · rw [hcpu d hd]
  have hthread : ∀ d q, (t.cpu d).thread = some q → d ≠ c ∧ q ≠ p ∧ (s.cpu d).thread = some q := by
    intro d q hq
    have hd : d ≠ c := by
      rintro rfl
      rw [hself] at hq
      exact absurd hq (by simp)
    rw [hcpu d hd] at hq
    refine ⟨hd, ?_, hq⟩
    rintro rfl
    exact hd (h.threads.thread_inj hq hp)
  have hch : ∀ q x, child (t.proc q).todo = some x → child (s.proc q).todo = some x := by
    intro q x hq
    rcases eq_or_ne q p with rfl | hne
    · rw [htp] at hq
      rw [hto]
      exact hq
    · rwa [htq q hne] at hq
  have hrestp : Rest (t.proc p) := by
    rw [htp]
    unfold Rest
    dsimp only
    rcases hleft with hs | hs | hs
    · have hne : rest ≠ [] := fun hr => absurd (hz.mpr (by rw [hr])) (by simp [hs])
      simpa [hs] using hrest.resolve_left hne
    · have hne : rest ≠ [] := fun hr => absurd (hz.mpr (by rw [hr])) (by simp [hs])
      simpa [hs] using hrest.resolve_left hne
    · have hr := (List.cons.inj (hz.mp hs)).2
      simpa [hs] using hr
  refine ⟨?_, ?_, ?_⟩
  · refine h.locks.keep (by simp [ht, Sys.onCpu]) fun d => ?_
    rcases eq_or_ne d c with rfl | hd
    · rw [hself]
    · rw [hcpu d hd]
  · refine h.holds.keep (by simp [ht, Sys.onCpu]) fun d => ?_
    rcases eq_or_ne d c with rfl | hd
    · rw [todo_none (by rw [hself]), hself, todo_some hp, hto]
      simp [hback, phase]
    · unfold Sys.todo
      rw [hcpu d hd]
      split
      · rename_i q hq
        have hne : q ≠ p := by
          rintro rfl
          exact hd (h.threads.thread_inj hq hp)
        rw [htq q hne]
      · rfl
  · constructor
    · intro q
      rcases eq_or_ne q p with rfl | hne
      · rw [htp]
        exact hwf
      · rw [htq q hne]
        exact h.threads.wf q
    · intro d
      rcases eq_or_ne d c with rfl | hd
      · rw [hself]
        exact h.threads.wfSched d
      · rw [hcpu d hd]
        exact h.threads.wfSched d
    · intro d q hq
      obtain ⟨hd, -, hq'⟩ := hthread d q hq
      rw [hcpu d hd]
      exact h.threads.current d q hq'
    · intro d hd
      rcases eq_or_ne d c with rfl | hdc
      · left
        refine ⟨p, ?_⟩
        unfold Back
        rw [hself, htp]
        exact ⟨hback, hproc, hcr3, hleft⟩
      · rw [hcpu d hdc] at hd ⊢
        rcases h.threads.sched d hd with ⟨q, h₁, h₂, h₃, hl⟩ | hi
        · have hne : q ≠ p := by
            rintro rfl
            exact hdc (h.threads.inj d c q h₂ hproc)
          refine Or.inl ⟨q, ?_⟩
          unfold Back
          rw [hcpu d hdc, htq q hne]
          exact ⟨h₁, h₂, h₃, hl⟩
        · exact Or.inr hi
    · intro d e q hd he
      rw [htproc] at hd he
      exact h.threads.inj d e q hd he
    · intro d q hq
      obtain ⟨-, hne, hq'⟩ := hthread d q hq
      rw [htq q hne]
      exact h.threads.on d q hq'
    · intro q hq
      rcases eq_or_ne q p with rfl | hne
      · exact hrestp
      · rw [htq q hne]
        refine h.threads.off q fun d hd => ?_
        have hdc : d ≠ c := by
          rintro rfl
          exact hne (Option.some.inj (hd.symm.trans hp))
        exact hq d (by rwa [hcpu d hdc])
    · intro q np b hq
      obtain ⟨he, hf⟩ := h.threads.embryo q np b (hch q _ hq)
      have hne : np ≠ p := by
        rintro rfl
        rw [he] at hleft
        simp [Left] at hleft
      rw [htq np hne]
      exact ⟨he, hf⟩
    · exact fun q r np b b' hq hr => h.threads.forker q r np b b' (hch q _ hq) (hch r _ hr)

theorem inv_waitLoop (h : Inv s) (hp : (s.cpu c).thread = some p)
    (hto : (s.proc p).todo = .waitLoop :: rest)
    (ht : s.procStmt c p ok rest .waitLoop = some t) : Inv t := by
  have hph : phase (s.proc p).todo = .held := by rw [hto]; rfl
  have hold : phase (s.proc p).todo ≠ .leaving := by simp [hph]
  have hrun := h.threads.running hp hold
  simp only [Sys.procStmt] at ht
  split at ht
  · rename_i q hq
    obtain rfl := Option.some.inj ht
    have hz := (deadChild_some hq).2
    have hgone := h.zombie_gone hp hph hz
    have hne : p ≠ q := by
      rintro rfl
      exact absurd (hrun.symm.trans hz) (by decide)
    have hempty : (s.proc q).todo = [] := by
      have := h.threads.off q (h.threads.thread_ne hgone)
      rw [Rest, hz] at this
      exact this
    have hreap : Inv (s.modify q Proc.reap) := by
      refine h.idle hgone ?_ (Or.inl hempty) fun r b hr => ?_
      · simp [Rest, Proc.reap, hempty]
      · exact absurd hr (h.threads.not_embryo (by simp [hz]) r b)
    have hnote : Inv ((s.modify q Proc.reap).note (.reported (s.proc p).num (s.proc q).num)) :=
      hreap.congr rfl rfl rfl
    have hself : ((s.modify q Proc.reap).note
        (.reported (s.proc p).num (s.proc q).num)).proc p = s.proc p := modify_of_ne hne
    refine hnote.self hp ?_ rfl ?_ rfl ?_ (by simp [child])
    · rwa [hself]
    · rw [hself, hph]
      rfl
    · simp [Wf, phase]
  · split at ht
    · obtain rfl := Option.some.inj ht
      exact h.self hp hold rfl (by rw [hph]; rfl) rfl (by simp [Wf, phase]) (by simp [child])
    · obtain rfl := Option.some.inj ht
      refine h.self hp hold rfl (by rw [hph]; rfl) rfl ?_ ?_
      · simp [sleepInWait, Wf, phase]
      · simp [sleepInWait, child]

theorem inv_allocproc (h : Inv s) (hp : (s.cpu c).thread = some p)
    (hto : (s.proc p).todo = .allocproc :: rest)
    (ht : s.procStmt c p ok rest .allocproc = some t) : Inv t := by
  have hph : phase (s.proc p).todo = .held := by rw [hto]; rfl
  have hold : phase (s.proc p).todo ≠ .leaving := by simp [hph]
  have hrun := h.threads.running hp hold
  simp only [Sys.procStmt] at ht
  split at ht
  · rename_i np hnp
    obtain rfl := Option.some.inj ht
    have hu : (s.proc np).state = .UNUSED := by simpa using List.find?_some hnp
    have hne : p ≠ np := by
      rintro rfl
      exact absurd (hrun.symm.trans hu) (by decide)
    have hgone := h.threads.dormant (Or.inl hu)
    have hrest := h.threads.off np (h.threads.thread_ne hgone)
    rw [Rest, hu] at hrest
    have hnone := fun r b => h.threads.not_embryo (q := np) (by simp [hu]) r b
    have halloc : Inv { s.modify np fun r =>
        { r with state := .EMBRYO, pid := s.nextpid, num := s.born, marked := false } with
        nextpid := s.nextpid + 1, born := s.born + 1 } := by
      refine (h.idle (f := fun r => { r with
        state := .EMBRYO, pid := s.nextpid, num := s.born, marked := false }) hgone ?_ hrest
        fun r b hr => absurd hr (hnone r b)).congr rfl rfl rfl
      exact hrest
    rw [goto_some (p := p) (by exact hp)]
    refine halloc.advance (c := c) (p := p) (l := forkInto np) hp ?_ ?_ rfl rfl (by simp) (by simp) ?_ ?_ ?_
    · simpa [hne] using hold
    · simp [hne, hph, forkInto, phase]
    · simp [forkInto, Wf, phase, child]
    · intro x b hx
      obtain ⟨rfl, rfl⟩ : np = x ∧ false = b := by simpa [forkInto, child] using hx
      refine ⟨by simp, fun q b' hq hc => ?_⟩
      rcases eq_or_ne q np with rfl | hqn
      · rcases hrest with he | he <;> simp [he, forkret, child] at hc
      · exact hnone q b' (by simpa [hqn] using hc)
    · intro q hq
      rw [modify_of_ne hq]
      exact .rfl' _
  · obtain rfl := Option.some.inj ht
    exact h.self hp hold rfl (by rw [hph]; rfl) rfl (by simp [Wf, phase]) (by simp [child])

theorem inv_kstack (h : Inv s) (hp : (s.cpu c).thread = some p)
    (hto : (s.proc p).todo = .kstack np :: rest)
    (ht : s.procStmt c p ok rest (.kstack np) = some t) : Inv t := by
  obtain ⟨hfree, hwf, hchild⟩ := hto ▸ h.threads.wf p
  have hph : phase (s.proc p).todo = .free := by rw [hto]; rfl
  have hold : phase (s.proc p).todo ≠ .leaving := by simp [hph]
  have hc : child (s.proc p).todo = some (np, false) := by rw [hto]; rfl
  obtain ⟨he, hne, hgone, -⟩ := h.child_of hp hold hc
  simp only [Sys.procStmt] at ht
  split at ht
  · obtain rfl := Option.some.inj ht
    have hset : Inv (s.modify np fun r => { r with todo := forkret, call := none }) := by
      refine h.idle hgone ?_ (Or.inr rfl) fun r b hr => ⟨he, fun _ => rfl⟩
      simp [Rest, he]
    rw [goto_some (p := p) (by exact hp)]
    refine hset.advance (c := c) (p := p) (l := rest) hp ?_ ?_ rfl rfl (by simp) (by simp) hwf ?_ ?_
    · simpa [hne] using hold
    · simp [hne, hph, hfree]
    · intro x b hx
      obtain ⟨rfl, rfl⟩ : np = x ∧ true = b := by simpa [hchild] using hx
      refine ⟨⟨by simpa using he, by simp⟩, fun q b' hq hcq => ?_⟩
      rcases eq_or_ne q np with rfl | hqn
      · simp [forkret, child] at hcq
      · exact hq (h.threads.forker q p np b' false (by simpa [hqn] using hcq) hc)
    · intro q hq
      rw [modify_of_ne hq]
      exact .rfl' _
  · obtain rfl := Option.some.inj ht
    rw [goto_some hp]
    refine h.self hp hold rfl (by simp [hph, phase]) rfl (by simp [Wf, phase, child]) ?_
    intro x b hx
    left
    simpa [hc, child] using hx

theorem inv_runnable (h : Inv s) (hp : (s.cpu c).thread = some p)
    (hto : (s.proc p).todo = .runnable np :: rest)
    (ht : s.procStmt c p ok rest (.runnable np) = some t) : Inv t := by
  obtain ⟨hheld, hwf, hchild⟩ := hto ▸ h.threads.wf p
  have hph : phase (s.proc p).todo = .held := by rw [hto]; rfl
  have hold : phase (s.proc p).todo ≠ .leaving := by simp [hph]
  have hc : child (s.proc p).todo = some (np, true) := by rw [hto]; rfl
  obtain ⟨he, hne, hgone, -⟩ := h.child_of hp hold hc
  have hready := (h.threads.embryo p np true hc).2 rfl
  obtain rfl := Option.some.inj ht
  have hself : Inv (s.modify p fun r => { r with ret := (s.proc np).pid, todo := rest }) :=
    h.self hp hold rfl (by rw [hph, hheld]) rfl hwf (by simp [hchild])
  have hset : Inv ((s.modify p fun r => { r with ret := (s.proc np).pid, todo := rest }).modify np
      fun r => { r with state := .RUNNABLE }) := by
    refine hself.idle hgone ?_ ?_ fun r b hr => ?_
    · simp [Rest, hne.symm, hready, forkret, phase]
    · simp [hne.symm, hready]
    · rcases eq_or_ne r p with rfl | hrp
      · simp [hchild] at hr
      · rw [modify_of_ne hrp] at hr
        exact absurd (h.threads.forker r p np b true hr hc) hrp
  refine hset.congr rfl rfl ?_
  simp [Sys.modify, Sys.note, hne, hne.symm, Function.update_comm hne]

/-- Every statement of a process keeps the invariant. -/
theorem inv_procStmt (h : Inv s) (hp : (s.cpu c).thread = some p)
    (hto : (s.proc p).todo = st :: rest) (ht : s.procStmt c p ok rest st = some t) : Inv t := by
  have hwf := hto ▸ h.threads.wf p
  have htodo : s.todo c = st :: rest := (todo_some hp).trans hto
  cases st with
  | acquire lk => exact inv_acquire h htodo ht
  | release lk => exact inv_release h htodo ht
  | setChan ch | clearChan =>
    obtain rfl := Option.some.inj ht
    exact h.self hp (by simp [hto, phase]) rfl (by simp [hto, phase, hwf.1]) rfl hwf.2
      fun np b hl => Or.inl (by rw [hto]; exact hl)
  | fault =>
    obtain rfl := Option.some.inj ht
    exact h.self hp (by simp [hto, phase]) rfl (by simp [hto, phase, hwf.1]) rfl hwf.2
      fun np b hl => Or.inl (by rw [hto]; exact hl)
  | setState st =>
    obtain rfl := Option.some.inj ht
    have hset := inv_setState h hp hto
    split
    · exact hset.congr rfl rfl rfl
    · exact hset
  | swtch =>
    obtain ⟨-, ht⟩ := Option.ite_none_right_eq_some.mp ht
    obtain rfl := Option.some.inj ht
    exact inv_swtch h hp hto
  | wakeup1 ch =>
    obtain rfl := Option.some.inj ht
    exact inv_wakeup1 h htodo
  | kill pid =>
    obtain rfl := Option.some.inj ht
    have hsoft := soft_killTable pid s.proc
    refine (h.soft hsoft).self hp ?_ rfl ?_ rfl hwf.2 fun np b hl => Or.inl ?_
    · simp [(hsoft p).1, hto, phase]
    · simp [(hsoft p).1, hto, phase, hwf.1]
    · rw [show child (mark pid (killTable s.proc pid).2 p).todo = child (s.proc p).todo by
        rw [(hsoft p).1], hto]
      exact hl
  | wakeParent =>
    simp only [Sys.procStmt] at ht
    split at ht
    · obtain rfl := Option.some.inj ht
      exact h.wakes hp hto rfl hwf.1 hwf.2 rfl (soft_wakeTable _ s.proc)
    · obtain rfl := Option.some.inj ht
      exact h.tail htodo (by simp) (by simp [phase]) (by simp [phase, hwf.1]) hwf.2 rfl
  | abandon =>
    obtain rfl := Option.some.inj ht
    exact h.wakes hp hto rfl hwf.1 hwf.2 rfl (soft_abandonTable p s.proc)
  | waitLoop => exact inv_waitLoop h hp hto ht
  | allocproc => exact inv_allocproc h hp hto ht
  | kstack np => exact inv_kstack h hp hto ht
  | unalloc np =>
    obtain rfl := Option.some.inj ht
    exact inv_unalloc h hp hto
  | copyuvm np =>
    obtain rfl := Option.some.inj ht
    rw [goto_some hp]
    cases ok with
    | true =>
      refine h.self hp (by simp [hto, phase]) rfl (by simp [hto, phase, hwf.1]) rfl hwf.2.1 ?_
      intro x b hx
      left
      rw [hto]
      simpa [hwf.2.2, child] using hx
    | false =>
      refine h.self hp (by simp [hto, phase]) rfl (by simp [hto, phase]) rfl
        (by simp [Wf, phase, child]) ?_
      intro x b hx
      right
      obtain ⟨rfl, rfl⟩ : np = x ∧ false = b := by simpa [child] using hx
      exact ⟨rfl, by rw [hto]; rfl⟩
  | inherit np =>
    obtain rfl := Option.some.inj ht
    have hold : phase (s.proc p).todo ≠ .leaving := by simp [hto, phase]
    obtain ⟨-, hne, -, -⟩ := h.child_of (b := true) hp hold (by rw [hto]; rfl)
    rw [goto_some (p := p) (by exact hp)]
    refine h.advance' hp hold (by simp [hto, phase, hwf.1]) rfl rfl (by simp [hne]) (by simp)
      hwf.2.1 ?_ fun q hq => ?_
    · intro x b hx
      left
      rw [hto]
      simpa [hwf.2.2, child] using hx
    · rw [modify_of_ne hq]
      rcases eq_or_ne q np with rfl | hqn
      · rw [modify_self]
        exact ⟨rfl, Or.inl rfl⟩
      · rw [modify_of_ne hqn]
        exact .rfl' _
  | runnable np => exact inv_runnable h hp hto ht
  | scan | back => exact absurd ht (by simp [Sys.procStmt])

end Process

/-! ### The scheduler -/

section Scheduler

variable [DecidableEq κ] {st : Stmt} {rest : List Stmt}

/-- The scheduler goes on in the phase it is in. -/
theorem Inv.schedule (h : Inv s) (hc : (s.cpu c).thread = none) (hi : Idle (s.cpu c))
    (hl : Wf l) (hb : ∀ p, .back p ∉ l) (hnew : phase l = phase (s.cpu c).todo) :
    Inv (s.goto c l) where
  locks := h.locks.keep goto_lock fun _ => goto_ncli
  holds := h.holds.keep goto_lock fun d => by
    rcases eq_or_ne d c with rfl | hd
    · rw [goto_todo, hnew, todo_none hc]
    · rw [goto_todo_ne h.threads hd]
  threads := goto_none hc ▸ h.threads.schedule hc hi hl hb

omit [DecidableEq κ] in
/-- Under the lock of a scheduler, a process that is `RUNNABLE` has no processor: its thread would
    have the lock, or it would be `RUNNING`. -/
theorem Inv.runnable_gone (h : Inv s) (hc : (s.cpu c).thread = none) {i : ℕ}
    (hto : (s.cpu c).todo = .scan i :: rest) (hp : (s.proc p).state = .RUNNABLE) (d : κ) :
    (s.cpu d).proc ≠ some p := by
  have hlock : s.lock .ptable = some c := (h.holds c).mpr (by rw [todo_none hc, hto]; simp [phase])
  have hi := h.idle_cpu hc hto (by simp)
  intro hd
  cases ht : (s.cpu d).thread with
  | some r =>
    obtain rfl : r = p := Option.some.inj ((h.threads.current d r ht).1.symm.trans hd)
    have hon := h.threads.on d r ht
    unfold On at hon
    split at hon
    · rename_i hleaving
      have hdc := h.has_lock ht (by simp [hleaving])
      obtain rfl : d = c := Option.some.inj (hdc.symm.trans hlock)
      exact absurd (hc.symm.trans ht) (by simp)
    · exact absurd (hp.symm.trans hon) (by decide)
  | none =>
    rcases h.threads.sched d ht with ⟨r, hb, -⟩ | hid
    · have hdc : s.lock .ptable = some d :=
        (h.holds d).mpr (by rw [todo_none ht, hb]; simp [phase])
      obtain rfl : d = c := Option.some.inj (hdc.symm.trans hlock)
      exact absurd (hi.2.1.symm.trans hd) (by simp)
    · exact absurd (hid.2.1.symm.trans hd) (by simp)

/-- `scheduler` switches to a process that is `RUNNABLE`, and with it hands the lock over. -/
theorem inv_dispatch (h : Inv s) (hc : (s.cpu c).thread = none) {i : ℕ}
    (hto : (s.cpu c).todo = .scan i :: rest) (hp : (s.proc p).state = .RUNNABLE) :
    Inv ((s.modify p fun r => { r with state := .RUNNING }).onCpu c fun k =>
      { k with proc := some p, thread := some p, cr3 := some p, todo := [.back p] }) := by
  have hgone := h.runnable_gone hc hto hp
  have hrest := h.threads.off p (h.threads.thread_ne hgone)
  rw [Rest, hp] at hrest
  set t := (s.modify p fun r => { r with state := .RUNNING }).onCpu c fun k =>
    { k with proc := some p, thread := some p, cr3 := some p, todo := [.back p] } with ht
  have hcpu : ∀ d, d ≠ c → t.cpu d = s.cpu d := fun d hd => by simp [ht, Sys.onCpu, hd]
  have hself : t.cpu c = { s.cpu c with
      proc := some p, thread := some p, cr3 := some p, todo := [.back p] } := by
    simp [ht, Sys.onCpu]
  have htp : t.proc p = { s.proc p with state := .RUNNING } := by simp [ht, Sys.onCpu]
  have htq : ∀ q, q ≠ p → t.proc q = s.proc q := fun q hq => by simp [ht, Sys.onCpu, hq]
  have htodo : ∀ q, (t.proc q).todo = (s.proc q).todo := by
    intro q
    rcases eq_or_ne q p with rfl | hne
    · rw [htp]
    · rw [htq q hne]
  have hne : ∀ d q, d ≠ c → (s.cpu d).proc = some q → q ≠ p := by
    rintro d q - hd rfl
    exact hgone d hd
  refine ⟨?_, ?_, ?_⟩
  · refine h.locks.keep (by simp [ht, Sys.onCpu]) fun d => ?_
    rcases eq_or_ne d c with rfl | hd
    · rw [hself]
    · rw [hcpu d hd]
  · refine h.holds.keep (by simp [ht, Sys.onCpu]) fun d => ?_
    rcases eq_or_ne d c with rfl | hd
    · rw [todo_some (p := p) (by rw [hself]), htodo, todo_none hc, hto]
      simp [hrest, phase]
    · unfold Sys.todo
      rw [hcpu d hd]
      split
      · rw [htodo]
      · rfl
  · constructor
    · exact fun q => htodo q ▸ h.threads.wf q
    · intro d
      rcases eq_or_ne d c with rfl | hd
      · rw [hself]
        simp [Wf]
      · rw [hcpu d hd]
        exact h.threads.wfSched d
    · intro d q hq
      rcases eq_or_ne d c with rfl | hd
      · rw [hself] at hq ⊢
        obtain rfl := Option.some.inj hq
        exact ⟨rfl, rfl, rfl⟩
      · rw [hcpu d hd] at hq ⊢
        exact h.threads.current d q hq
    · intro d hd
      rcases eq_or_ne d c with rfl | hdc
      · rw [hself] at hd
        exact absurd hd (by simp)
      · rw [hcpu d hdc] at hd ⊢
        rcases h.threads.sched d hd with ⟨q, h₁, h₂, h₃, hl⟩ | hid
        · refine Or.inl ⟨q, ?_⟩
          unfold Back
          rw [hcpu d hdc, htq q (hne d q hdc h₂)]
          exact ⟨h₁, h₂, h₃, hl⟩
        · exact Or.inr hid
    · have hproc : ∀ d q, (t.cpu d).proc = some q → d = c ∧ q = p ∨ (s.cpu d).proc = some q := by
        intro d q hd
        rcases eq_or_ne d c with rfl | hdc
        · rw [hself] at hd
          exact Or.inl ⟨rfl, (Option.some.inj hd).symm⟩
        · exact Or.inr (by rwa [hcpu d hdc] at hd)
      intro d e q hd he
      rcases hproc d q hd with ⟨hdc, rfl⟩ | hd' <;> rcases hproc e _ he with ⟨hec, hq⟩ | he'
      · exact hdc.trans hec.symm
      · exact absurd he' (hgone e)
      · exact absurd (hq ▸ hd') (hgone d)
      · exact h.threads.inj d e q hd' he'
    · intro d q hq
      rcases eq_or_ne d c with rfl | hd
      · rw [hself] at hq
        obtain rfl := Option.some.inj hq
        rw [htp]
        simp [On, hrest]
      · rw [hcpu d hd] at hq
        rw [htq q (hne d q hd (h.threads.current d q hq).1)]
        exact h.threads.on d q hq
    · intro q hq
      have hqp : q ≠ p := by
        rintro rfl
        exact hq c (by rw [hself])
      rw [htq q hqp]
      refine h.threads.off q fun d hd => ?_
      have hdc : d ≠ c := by
        rintro rfl
        exact absurd (hc.symm.trans hd) (by simp)
      exact hq d (by rwa [hcpu d hdc])
    · intro q np b hq
      rw [htodo] at hq
      have hnp : np ≠ p := by
        rintro rfl
        exact absurd (hp.symm.trans (h.threads.embryo q np b hq).1) (by decide)
      rw [htq np hnp]
      exact h.threads.embryo q np b hq
    · intro q r np b b' hq hr
      rw [htodo] at hq hr
      exact h.threads.forker q r np b b' hq hr

/-- After the `swtch` of a process the scheduler gives it up. -/
theorem inv_back (h : Inv s) (hc : (s.cpu c).thread = none)
    (hto : (s.cpu c).todo = .back p :: rest) :
    Inv (s.onCpu c fun k => { k with proc := none, cr3 := none, todo := [.scan (p + 1)] }) := by
  set t := s.onCpu c fun k => { k with proc := none, cr3 := none, todo := [.scan (p + 1)] } with ht
  have hcpu : ∀ d, d ≠ c → t.cpu d = s.cpu d := fun d hd => by simp [ht, Sys.onCpu, hd]
  have hself : t.cpu c = { s.cpu c with
      proc := none, cr3 := none, todo := [.scan (p + 1)] } := by simp [ht, Sys.onCpu]
  have hthread : ∀ d, (t.cpu d).thread = (s.cpu d).thread := by
    intro d
    rcases eq_or_ne d c with rfl | hd
    · rw [hself]
    · rw [hcpu d hd]
  have hproc : ∀ d q, (t.cpu d).proc = some q → (s.cpu d).proc = some q := by
    intro d q hq
    rcases eq_or_ne d c with rfl | hd
    · rw [hself] at hq
      exact absurd hq (by simp)
    · rwa [hcpu d hd] at hq
  refine ⟨?_, ?_, ?_⟩
  · refine h.locks.keep rfl fun d => ?_
    rcases eq_or_ne d c with rfl | hd
    · rw [hself]
    · rw [hcpu d hd]
  · refine h.holds.keep rfl fun d => ?_
    rcases eq_or_ne d c with rfl | hd
    · rw [todo_none (by rw [hself]; exact hc), hself, todo_none hc, hto]
      simp [phase]
    · unfold Sys.todo
      rw [hcpu d hd]
      exact Iff.rfl
  · refine ⟨h.threads.wf, ?_, ?_, ?_, ?_, ?_, ?_, h.threads.embryo, h.threads.forker⟩
    · intro d
      rcases eq_or_ne d c with rfl | hd
      · rw [hself]
        simp [Wf]
      · rw [hcpu d hd]
        exact h.threads.wfSched d
    · intro d q hq
      have hd : d ≠ c := by
        rintro rfl
        rw [hthread] at hq
        exact absurd (hc.symm.trans hq) (by simp)
      rw [hcpu d hd] at hq ⊢
      exact h.threads.current d q hq
    · intro d hd
      rcases eq_or_ne d c with rfl | hdc
      · right
        rw [hself]
        exact ⟨by simp, rfl, rfl⟩
      · unfold Back
        rw [hcpu d hdc] at hd ⊢
        exact h.threads.sched d hd
    · exact fun d e q hd he => h.threads.inj d e q (hproc d q hd) (hproc e q he)
    · exact fun d q hq => h.threads.on d q (hthread d ▸ hq)
    · exact fun q hq => h.threads.off q fun d => hthread d ▸ hq d

theorem inv_schedStmt (h : Inv s) (hc : (s.cpu c).thread = none)
    (hto : (s.cpu c).todo = st :: rest) (ht : s.schedStmt c rest st = some t) : Inv t := by
  have htodo : s.todo c = st :: rest := (todo_none hc).trans hto
  cases st with
  | acquire lk => exact inv_acquire h htodo ht
  | release lk => exact inv_release h htodo ht
  | wakeup1 ch =>
    obtain rfl := Option.some.inj ht
    exact inv_wakeup1 h htodo
  | scan i =>
    simp only [Sys.schedStmt] at ht
    split at ht
    · split at ht
      · rename_i hp
        obtain rfl := Option.some.inj ht
        exact inv_dispatch h hc hto hp
      · obtain rfl := Option.some.inj ht
        exact h.schedule hc (h.idle_cpu hc hto (by simp)) (by simp [Wf]) (by simp)
          (by rw [hto]; rfl)
    · obtain rfl := Option.some.inj ht
      exact h.schedule hc (h.idle_cpu hc hto (by simp)) (by simp [Wf, Sched.idle, phase])
        (by simp [Sched.idle]) (by rw [hto]; rfl)
  | back p =>
    obtain rfl := Option.some.inj ht
    exact inv_back h hc hto
  | setChan | setState | swtch | clearChan | kill | fault | wakeParent | abandon | waitLoop
  | allocproc | kstack | unalloc | copyuvm | inherit | runnable =>
    exact absurd ht (by simp [Sys.schedStmt])

end Scheduler

/-! ### Steps -/

section Steps

variable [DecidableEq κ]

/-- What an action does: a processor executes the next statement of its process or of its scheduler,
    a process begins a call, or a handler goes in front of what a processor executes. -/
inductive Stepped (s t : Sys κ) : Act κ → Prop
  | proc {c : κ} {ok : Bool} {p : Slot} {st : Stmt} {rest : List Stmt} :
      (s.cpu c).thread = some p → (s.proc p).todo = st :: rest →
      s.procStmt c p ok rest st = some t → Stepped s t (.run c ok)
  | sched {c : κ} {ok : Bool} {st : Stmt} {rest : List Stmt} :
      (s.cpu c).thread = none → (s.cpu c).todo = st :: rest →
      s.schedStmt c rest st = some t → Stepped s t (.run c ok)
  | call {c : κ} {p : Slot} {f : Call} :
      (s.cpu c).thread = some p → (s.proc p).todo = [] → (f = .exit → p ≠ initproc) →
      t = (s.modify p fun r => { r with todo := f.code, call := some f, calls := r.calls + 1 }) →
      Stepped s t (.call c f)
  | intr {c : κ} {h : Handler} :
      (s.cpu c).ncli = 0 → t = s.goto c (h.code ++ s.todo c) → Stepped s t (.intr c h)

theorem stepped {a : Act κ} (hst : s.Step a t) : Stepped s t a := by
  cases a with
  | run c ok =>
    have hrun : s.run c ok = some t := hst
    unfold Sys.run at hrun
    split at hrun
    · rename_i st rest p hto hp
      exact .proc hp ((todo_some hp).symm.trans hto) hrun
    · rename_i st rest hto hc
      exact .sched hc ((todo_none hc).symm.trans hto) hrun
    · exact absurd hrun (by simp)
  | call c f =>
    obtain ⟨p, hp, ht⟩ := Option.bind_eq_some_iff.mp hst
    obtain ⟨⟨hto, hexit⟩, ht⟩ := Option.ite_none_right_eq_some.mp ht
    exact .call hp hto hexit (Option.some.inj ht).symm
  | intr c i =>
    obtain ⟨hncli, ht⟩ := Option.ite_none_right_eq_some.mp hst
    refine .intr (h := i) hncli ?_
    cases i with
    | wakeup lk a => exact (Option.some.inj ht).symm
    | yield =>
      obtain ⟨p, -, ht⟩ := Option.bind_eq_some_iff.mp ht
      exact (Option.some.inj (Option.ite_none_right_eq_some.mp ht).2).symm

omit [DecidableEq κ] in
theorem inv_call {f : Call} (h : Inv s) (hp : (s.cpu c).thread = some p)
    (hto : (s.proc p).todo = []) : Inv (s.modify p fun r =>
      { r with todo := f.code, call := some f, calls := r.calls + 1 }) := by
  obtain ⟨hwf, -, hchild⟩ := code_wf f
  refine h.self hp ?_ rfl ?_ rfl hwf (by simp [hchild])
  · simp [hto, phase]
  · simp [hto, call_free, phase]

omit [DecidableEq κ] in
/-- Interrupts come while the processor does not have the lock. -/
theorem Inv.intr_free (h : Inv s) (hncli : (s.cpu c).ncli = 0) : phase (s.todo c) = .free := by
  by_contra hn
  exact h.locks.none_held hncli .ptable ((h.holds c).mpr hn)

theorem inv_intr (h : Inv s) (hncli : (s.cpu c).ncli = 0) (i : Handler) :
    Inv (s.goto c (i.code ++ s.todo c)) := by
  have hfree := h.intr_free hncli
  obtain ⟨hwf, hph, hchild⟩ := handler_wf i hfree (h.todo_wf c)
  cases hc : (s.cpu c).thread with
  | some p =>
    rw [todo_some hc] at hfree hwf hph hchild ⊢
    rw [goto_some hc]
    exact h.self hc (by simp [hfree]) rfl (by rw [hph, hfree]) rfl hwf
      fun np b hl => Or.inl (hchild ▸ hl)
  | none =>
    rw [todo_none hc] at hfree hwf hph hchild ⊢
    have hi : Idle (s.cpu c) := by
      rcases h.threads.sched c hc with ⟨p, hto, -⟩ | hi
      · rw [hto] at hfree
        simp [phase] at hfree
      · exact hi
    refine h.schedule hc hi hwf (fun p hp => ?_) (by rw [hph, hfree])
    rcases List.mem_append.mp hp with hp | hp
    · cases i <;> simp [Handler.code] at hp
    · exact hi.1 p hp

/-- Every step keeps the invariant. -/
theorem inv_step {a : Act κ} (h : Inv s) (hst : s.Step a t) : Inv t := by
  cases stepped hst with
  | proc hp hto ht => exact inv_procStmt h hp hto ht
  | sched hc hto ht => exact inv_schedStmt h hc hto ht
  | call hp hto _ ht => exact ht ▸ inv_call h hp hto
  | intr hncli ht => exact ht ▸ inv_intr h hncli _

omit [DecidableEq κ] in
theorem inv_boot : Inv (Sys.boot : Sys κ) where
  locks := ⟨fun _ => ∅, fun lk c => by simp [Sys.boot], fun c => by simp [Sys.boot]⟩
  holds := fun c => by simp [Sys.boot, Sys.todo, Sched.idle, phase]
  threads := by
    have hto : ∀ p, ((Sys.boot : Sys κ).proc p).todo = [] ∨
        ((Sys.boot : Sys κ).proc p).todo = forkret := by
      intro p
      rcases eq_or_ne p initproc with rfl | hne
      · exact Or.inr (by simp [Sys.boot])
      · exact Or.inl (by simp [Sys.boot, hne, Sys.zero])
    have hchild : ∀ p, child ((Sys.boot : Sys κ).proc p).todo = none := by
      intro p
      rcases hto p with he | he <;> simp [he, forkret, child]
    constructor
    · intro p
      rcases hto p with he | he <;> simp [he, forkret, Wf, phase]
    · exact fun c => by simp [Sys.boot, Sched.idle, Wf, phase]
    · exact fun c p hp => by simp [Sys.boot] at hp
    · exact fun c _ => Or.inr ⟨by simp [Sys.boot, Sched.idle], rfl, rfl⟩
    · exact fun c d p hp => by simp [Sys.boot] at hp
    · exact fun c p hp => by simp [Sys.boot] at hp
    · intro p _
      rcases eq_or_ne p initproc with rfl | hne
      · simp [Sys.boot, Rest, forkret, phase]
      · simp [Sys.boot, Rest, hne, Sys.zero]
    · exact fun p np b hp => by simp [hchild] at hp
    · exact fun p q np b b' hp => by simp [hchild] at hp

/-- The invariant holds throughout every run. -/
theorem inv_run {l : List (Sys κ × Act κ)} {u : Sys κ} (hrun : Run Sys.Step Sys.boot l u) :
    Throughout Inv l u :=
  hrun.invariant (C := fun _ _ => True) (fun _ _ _ h _ hst => inv_step h hst) inv_boot
    fun _ _ => trivial

end Steps

/-- Executing `n` statements on a single processor. -/
def runs (n : ℕ) : List (Act Unit) := List.replicate n (.run () true)

/-! ### One processor per process -/

/-- No process is current on two processors, and when the lock is free the current ones are the
    `RUNNING` ones. -/
def OneCpu (s : Sys κ) : Prop :=
  (∀ c d p, (s.cpu c).proc = some p → (s.cpu d).proc = some p → c = d) ∧
    (s.lock .ptable = none →
      ∀ p, (s.proc p).state = .RUNNING ↔ ∃ c, (s.cpu c).proc = some p ∧
        ∀ d, (s.cpu d).proc = some p → d = c)

/-- What `wait` frees, no processor uses any more. -/
def FreesIdle (s : Sys κ) (a : Act κ) : Prop :=
  ∀ c p ok rest q, a = .run c ok → (s.cpu c).thread = some p → (s.proc p).todo = .waitLoop :: rest →
    deadChild s.proc p = some q → ∀ d, (s.cpu d).thread ≠ some q ∧ (s.cpu d).cr3 ≠ some q

theorem Inv.oneCpu (h : Inv s) : OneCpu s := by
  refine ⟨h.threads.inj, fun hlock p => ⟨fun hp => ?_, ?_⟩⟩
  · have hon : ∃ c, (s.cpu c).thread = some p := by
      by_contra hn
      have := h.threads.off p (not_exists.mp hn)
      rw [Rest, hp] at this
      exact this
    obtain ⟨c, hc⟩ := hon
    have hproc := (h.threads.current c p hc).1
    exact ⟨c, hproc, fun d hd => h.threads.inj d c p hd hproc⟩
  · rintro ⟨c, hc, -⟩
    have hfree : phase (s.todo c) = .free := by
      by_contra hn
      exact absurd (((h.holds c).mpr hn).symm.trans hlock) (by simp)
    cases ht : (s.cpu c).thread with
    | some q =>
      obtain rfl : q = p := Option.some.inj ((h.threads.current c q ht).1.symm.trans hc)
      rw [todo_some ht] at hfree
      exact h.threads.running ht (by simp [hfree])
    | none =>
      rcases h.threads.sched c ht with ⟨q, hto, -⟩ | hi
      · rw [todo_none ht, hto] at hfree
        simp [phase] at hfree
      · exact absurd (hi.2.1.symm.trans hc) (by simp)

theorem Inv.freesIdle (h : Inv s) (a : Act κ) : FreesIdle s a := by
  rintro c p ok rest q - hp hto hq d
  have hgone := h.zombie_gone hp (by rw [hto]; rfl) (deadChild_some hq).2
  refine ⟨h.threads.thread_ne hgone d, fun hd => ?_⟩
  cases ht : (s.cpu d).thread with
  | some r =>
    obtain ⟨hproc, hcr3, -⟩ := h.threads.current d r ht
    exact hgone d (hproc.trans (hcr3.symm.trans hd))
  | none =>
    rcases h.threads.sched d ht with ⟨r, -, hproc, hcr3, -⟩ | hi
    · exact hgone d (hproc.trans (hcr3.symm.trans hd))
    · exact absurd (hi.2.2.symm.trans hd) (by simp)

/-- On any number of processors, every run has one processor per process, and `wait` frees nothing
    that is in use. -/
theorem one_cpu_per_process {κ : Type} [DecidableEq κ] {l : List (Sys κ × Act κ)} {u : Sys κ}
    (hrun : Run Sys.Step Sys.boot l u) : Throughout OneCpu l u ∧ Along FreesIdle l := by
  have hinv := inv_run hrun
  exact ⟨hinv.mono fun _ h => h.oneCpu, fun x hx => (hinv.1 x hx).freesIdle x.2⟩

/-- The first processor runs init while the second one looks at the table. -/
theorem init_on_one_cpu :
    ∃ u l, Run Sys.Step (Sys.boot : Sys (Fin 2)) l u ∧ (u.cpu 0).proc = some initproc ∧
      Throughout OneCpu l u ∧ Along FreesIdle l := by
  obtain ⟨u, l, hrun, hu⟩ := Run.of_exec_any Sys.next
    [.run (0 : Fin 2) true, .run 0 true, .run 0 true, .run 1 true, .run 1 true] Sys.boot
    (fun u => (u.cpu 0).proc = some initproc) (by decide +kernel)
  exact ⟨u, l, hrun, by simpa using hu, one_cpu_per_process hrun⟩

end Xv6.Sched
