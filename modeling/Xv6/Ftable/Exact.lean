import Xv6.Ftable.Rights
import Xv6.Schemes.Run

/-! @src file.c pipe.c sysfile.c | name:File and pipe references are exact | layer:proof

    In every run the count of a file is the number of descriptors and of references in hand, but
    for the early descriptors; and an end of a pipe is closed once, by the `fileclose` that drops
    the last reference to its file, and then the page is freed once. -/

namespace Xv6.Ftable

open Xv6.Schemes
open Finset

variable {τ π : Type} [Fintype τ] [DecidableEq τ] [DecidableEq π] {s t : Sys τ π} {p np : τ}
  {k : Option π} {w : Work π} {rest : List (Work π)} {pc : Pc τ π} {o : Fd → Option Ptr} {life : Life}

omit [Fintype τ] [DecidableEq τ] [DecidableEq π] in
theorem drop_proc (s : Sys τ π) (f : Ptr) : (s.drop f).1.proc = s.proc := by
  unfold Sys.drop
  split
  · rfl
  · split <;> rfl

omit [Fintype τ] [DecidableEq π] in
/-- What `fileclose` leaves to do after its section. -/
theorem runWork_fileclose [DecidableEq π] {f : Ptr}
    (hx : s.proc p = ⟨life, o, pc, .fileclose f :: rest⟩) :
    s.runWork p rest (.fileclose f) = (s.drop f).1.setProc p
      ⟨life, o, pc, ((s.drop f).2.map Work.last).toList ++ rest⟩ := by
  have hx' : (s.drop f).1.proc p = ⟨life, o, pc, .fileclose f :: rest⟩ := by rw [drop_proc, hx]
  rcases hd : s.drop f with ⟨s', _ | ff⟩ <;> rw [hd] at hx' <;> dsimp only at hx' <;>
    simp only [Sys.runWork, hd, Sys.todo, hx'] <;> rfl

omit [Fintype τ] [DecidableEq π] in
theorem goto_of {s' : Sys τ π} (hproc : s'.proc = s.proc) {c : Pc τ π}
    {work : List (Work π)} (hx : s.proc p = ⟨life, o, pc, work⟩) :
    s'.goto p c = s'.setProc p ⟨life, o, c, work⟩ := by
  simp only [Sys.goto, hproc, hx]

omit [Fintype τ] [DecidableEq π] in
theorem goto_todo {c : Pc τ π} {work v : List (Work π)}
    (hx : s.proc p = ⟨life, o, pc, work⟩) :
    (s.todo p v).goto p c = s.setProc p ⟨life, o, c, v⟩ := by
  simp [Sys.goto, Sys.todo, Sys.setProc, hx]

omit [Fintype τ] [DecidableEq π] in
theorem goto_setOfile {u : Fd → Option Ptr} {c : Pc τ π} {work : List (Work π)}
    (hx : s.proc p = ⟨life, o, pc, work⟩) :
    (s.setOfile p u).goto p c = s.setProc p ⟨life, u, c, work⟩ := by
  simp [Sys.goto, Sys.setOfile, Sys.setProc, hx]

omit [Fintype τ] [DecidableEq τ] [DecidableEq π] in
theorem filedup_proc (s : Sys τ π) (f : Ptr) : (s.filedup f).proc = s.proc := by
  unfold Sys.filedup
  split <;> rfl

theorem pipes_runWork (h : Pipes s) (hu : Users s) (hx : s.proc p = ⟨life, o, pc, w :: rest⟩) :
    Pipes (s.runWork p rest w) := by
  have hfits := h.procs p
  rw [hx] at hfits
  obtain ⟨hfresh, huses, hnone⟩ := hfits.busy (List.cons_ne_nil w rest)
  have htail : ∀ w ∈ rest, ∃ f, w = .fileclose f := hfits.tail
  cases w with
  | fileclose f =>
    rw [runWork_fileclose hx]
    refine h.drop (v := fun r => (r.map Work.last).toList ++ rest) hu (hu.has_fileclose hx) ?_ hfresh
      huses hfits.pop_right (fun ff => ⟨rest, rfl, htail⟩) htail hnone
    rw [hx]
    rfl
  | last ff =>
    have hpop : ∀ {d}, ff.type = d → d ≠ .FD_PIPE → Pipes (s.setProc p ⟨life, o, pc, rest⟩) := by
      intro d hd hne
      refine h.pass hfits.pop (hfits.pop_right.trans ?_)
      rw [hx]
      exact (if_neg (hd ▸ hne)).symm
    cases htype : ff.type with
    | FD_PIPE =>
      obtain ⟨g, hpipe⟩ := Option.ne_none_iff_exists'.mp (hfits.last ff List.mem_cons_self htype)
      have hclose := h.pipeclose hu hx htype hpipe
      have hx' : (s.pipeclose g ff.writable).1.proc p = ⟨life, o, pc, .last ff :: rest⟩ := by
        rw [(pipeclose_frame s g ff.writable).1, hx]
      rcases hd : s.pipeclose g ff.writable with ⟨s', _ | _⟩ <;> rw [hd] at hclose hx' <;>
        dsimp only at hx' <;> simp only [Sys.runWork, htype, hpipe, hd, Sys.todo, hx'] <;> exact hclose
    | FD_NONE =>
      simp only [Sys.runWork, htype, Sys.todo, hx]
      exact hpop htype (by simp)
    | FD_INODE =>
      simp only [Sys.runWork, htype, Sys.todo, hx]
      exact hpop htype (by simp)
  | kfree g =>
    have hfree := h.kfree hu hx
    simp only [Sys.runWork, Sys.todo, (kfree_frame s g).1, hx]
    exact hfree

omit [Fintype τ] [DecidableEq π] in
/-- A call goes to a place where it has no file to set up, maybe with `fileclose`s to do. -/
theorem Pipes.go (h : Pipes s) (hx : s.proc p = ⟨life, o, pc, []⟩) {m : Life}
    {u : Fd → Option Ptr} {c : Pc τ π} {v : List (Work π)} (hfresh : c.fresh = [])
    (huses : c.uses = none) (hright' : c.right = none) (hright : pc.right = none)
    (hwork : ∀ w ∈ v, ∃ f, w = .fileclose f) : Pipes (s.setProc p ⟨m, u, c, v⟩) := by
  refine h.pass ⟨fun f hf => absurd hf (by simp [hfresh]),
    fun f g hf => absurd (huses.symm.trans hf) (by simp), fun ff hff => ?_,
    fun w hw => hwork w (List.mem_of_mem_tail hw), fun _ => ⟨hfresh, huses, hright'⟩⟩ ?_
  · obtain ⟨f, hf⟩ := hwork _ hff
    cases hf
  · rw [hx]
    rcases v with _ | ⟨w, rest⟩
    · exact hright'.trans hright.symm
    · obtain ⟨f, rfl⟩ := hwork w List.mem_cons_self
      exact hright.symm

omit [DecidableEq τ] [DecidableEq π] in
/-- The child of a `fork` is another process. -/
theorem Users.child_ne (hu : Users s) (hx : s.proc p = ⟨life, o, pc, []⟩) (hchild : pc.child = some np) :
    p ≠ np := by
  rintro rfl
  have hc : (s.proc p).pc.child = some p := by rw [hx, hchild]
  have hemb := hu.child p p hc
  have hidle := hu.idle p (by rw [hemb]; simp)
  rw [hidle.1] at hc
  exact absurd hc (by simp [Pc.child])

theorem pipes_runPc (h : Pipes s) (hu : Users s) (hx : s.proc p = ⟨life, o, pc, []⟩)
    (hrun : s.runPc p k pc = some t) : Pipes t := by
  have ho : (s.proc p).ofile = o := by rw [hx]
  have hfits := h.procs p
  rw [hx] at hfits
  have hgo := fun u c v => h.go hx (m := life) (u := u) (c := c) (v := v)
  have hnil : ∀ w ∈ ([] : List (Work π)), ∃ f, w = .fileclose f := fun w hw => absurd hw List.not_mem_nil
  cases pc with
  | out => exact absurd hrun (by simp [Sys.runPc])
  | openAlloc ip r w =>
    rcases ha : s.filealloc with _ | ⟨f, s'⟩ <;> simp only [Sys.runPc, ha] at hrun <;> cases hrun
    · simp only [Sys.goto, hx]
      exact hgo o .out [] rfl rfl rfl rfl hnil
    · simp only [Sys.goto, filealloc_proc ha, hx]
      exact h.alloc hu ha hx rfl rfl rfl rfl
  | openFd f ip r w =>
    rcases ha : fdalloc o f with _ | ⟨fd, u⟩ <;> simp only [Sys.runPc, ho, ha] at hrun <;> cases hrun
    · rw [goto_todo hx]
      exact hgo o .out [.fileclose f] rfl rfl rfl rfl (by simp)
    · rw [goto_setOfile hx]
      refine h.pass ⟨hfits.fresh, fun _ _ hf => absurd hf (by simp [Pc.uses]), hfits.last, hfits.tail,
        fun hne => absurd rfl hne⟩ ?_
      rw [hx]
      rfl
  | openSet f ip r w =>
    simp only [Sys.runPc] at hrun
    cases hrun
    have hset := h.openSet hu hx
    simp only [Sys.goto, Sys.setFile, hx] at hset ⊢
    exact hset
  | dup f =>
    simp only [Sys.runPc] at hrun
    cases hrun
    have hcredit : 1 ≤ (s.proc p).credit f := hu.has hx (by
      have h2 : 2 ≤ slots o f := by
        have := hu.knows p
        rwa [hx] at this
      simp only [Pc.early, List.count_singleton_self]
      omega)
    have hdup := h.filedup hu hcredit hx (c := .out) rfl rfl rfl rfl
    rw [goto_of (filedup_proc s f) hx]
    exact hdup
  | pipeAlloc0 =>
    rcases ha : s.filealloc with _ | ⟨f, s'⟩ <;> simp only [Sys.runPc, ha] at hrun <;> cases hrun
    · simp only [Sys.goto, hx]
      exact hgo o .out [] rfl rfl rfl rfl hnil
    · simp only [Sys.goto, filealloc_proc ha, hx]
      exact h.alloc hu ha hx rfl rfl rfl rfl
  | pipeAlloc1 f0 =>
    rcases ha : s.filealloc with _ | ⟨f, s'⟩ <;> simp only [Sys.runPc, ha] at hrun <;> cases hrun
    · rw [goto_todo hx]
      exact hgo o .out [.fileclose f0] rfl rfl rfl rfl (by simp)
    · simp only [Sys.goto, filealloc_proc ha, hx]
      exact h.alloc hu ha hx rfl rfl rfl rfl
  | pipeKalloc f0 f1 =>
    cases k with
    | none =>
      simp only [Sys.runPc] at hrun
      cases hrun
      rw [goto_todo hx]
      exact hgo o .out [.fileclose f0, .fileclose f1] rfl rfl rfl rfl (by simp)
    | some g =>
      obtain ⟨hfree, ht⟩ := Option.ite_none_right_eq_some.mp hrun
      cases ht
      have hproc : (s.setPage g .taken).proc = s.proc := rfl
      rw [goto_of hproc hx]
      exact h.kalloc hu hx hfree
  | pipeInit f0 f1 g =>
    simp only [Sys.runPc] at hrun
    cases hrun
    have hproc : (s.pipeinit f0 f1 g).proc = s.proc := rfl
    rw [goto_of hproc hx]
    exact h.pipeinit hu hx
  | pipeFd0 rf wf =>
    rcases ha : fdalloc o rf with _ | ⟨fd, u⟩ <;> simp only [Sys.runPc, ho, ha] at hrun <;> cases hrun
    · rw [goto_todo hx]
      exact hgo o .out [.fileclose rf, .fileclose wf] rfl rfl rfl rfl (by simp)
    · rw [goto_setOfile hx]
      exact hgo u _ [] rfl rfl rfl rfl hnil
  | pipeFd1 fd0 rf wf =>
    rcases ha : fdalloc o wf with _ | ⟨fd, u⟩ <;> simp only [Sys.runPc, ho, ha] at hrun <;> cases hrun
    · have he : ((s.setOfile p (Function.update o fd0 none)).todo p [.fileclose rf, .fileclose wf]).goto p
          .out = s.setProc p ⟨life, Function.update o fd0 none, .out, [.fileclose rf, .fileclose wf]⟩ := by
        simp [Sys.goto, Sys.todo, Sys.setOfile, Sys.setProc, hx]
      rw [he]
      exact hgo _ .out [.fileclose rf, .fileclose wf] rfl rfl rfl rfl (by simp)
    · rw [goto_setOfile hx]
      exact hgo u .out [] rfl rfl rfl rfl hnil
  | io f g =>
    have huses : (s.proc p).pc.uses = some (f, g) := by
      rw [hx]
      rfl
    simp only [Sys.runPc, h.access_eq hu huses] at hrun
    cases hrun
    simp only [Sys.goto, hx]
    exact hgo o .out [] rfl rfl rfl rfl hnil
  | fork np fds =>
    cases fds with
    | nil =>
      simp only [Sys.runPc] at hrun
      cases hrun
      have hborn := h.pass (p := np) (x := { s.proc np with life := .RUNNING })
        ((h.procs np).congr rfl rfl) rfl
      have hxp : (s.setProc np { s.proc np with life := .RUNNING }).proc p =
          ⟨life, o, .fork np [], []⟩ := by
        simp only [Sys.setProc, Function.update_of_ne (hu.child_ne hx rfl), hx]
      rw [goto_of (s := s.setProc np _) rfl hxp]
      exact hborn.go hxp rfl rfl rfl rfl hnil
    | cons fd fds =>
      rcases hfd : o fd with _ | f <;> simp only [Sys.runPc, ho, hfd] at hrun <;> cases hrun
      · simp only [Sys.goto, hx]
        exact hgo o _ [] rfl rfl rfl rfl hnil
      · rw [goto_of (filedup_proc s f) hx]
        exact h.filedup hu (hu.has_slot hx hfd rfl) hx rfl rfl rfl rfl
  | forkStore np fd f fds =>
    simp only [Sys.runPc] at hrun
    cases hrun
    have hstore := h.pass (p := np)
      (x := { s.proc np with ofile := Function.update (s.proc np).ofile fd (some f) })
      ((h.procs np).congr rfl rfl) rfl
    have hxp : (s.setOfile np (Function.update (s.proc np).ofile fd (some f))).proc p =
        ⟨life, o, .forkStore np fd f fds, []⟩ := by
      simp only [Sys.setOfile, Sys.setProc, Function.update_of_ne (hu.child_ne hx rfl), hx]
    rw [goto_of (s := s.setOfile np _) rfl hxp]
    exact hstore.go hxp rfl rfl rfl rfl hnil
  | exit fds =>
    cases fds with
    | nil =>
      simp only [Sys.runPc] at hrun
      cases hrun
      rw [hx]
      exact h.go hx rfl rfl rfl rfl hnil
    | cons fd fds =>
      rcases hfd : o fd with _ | f <;> simp only [Sys.runPc, ho, hfd] at hrun
      · cases hrun
        simp only [Sys.goto, hx]
        exact hgo o _ [] rfl rfl rfl rfl hnil
      · have hdrop : Pipes ((s.drop f).1.setProc p
            ⟨life, o, .exitClear fd fds, ((s.drop f).2.map Work.last).toList⟩) :=
          h.drop (v := fun r => (r.map Work.last).toList) hu (hu.has_slot hx hfd rfl)
            (by rw [hx]; rfl) rfl rfl rfl (fun ff => ⟨[], rfl, hnil⟩) hnil rfl
        have hproc := drop_proc s f
        rcases hd : s.drop f with ⟨s', _ | ff⟩ <;> simp only [hd] at hrun <;> cases hrun <;>
          rw [hd] at hdrop hproc
        · rw [goto_of hproc hx]
          exact hdrop
        · rw [goto_todo (hproc ▸ hx)]
          exact hdrop
  | exitClear fd fds =>
    simp only [Sys.runPc, ho] at hrun
    cases hrun
    rw [goto_setOfile hx]
    exact hgo _ _ [] rfl rfl rfl rfl hnil

omit [Fintype τ] [DecidableEq π] in
theorem pipes_call (h : Pipes s) {a : Act τ π} (hready : s.Ready p)
    (hcall : s.call p a = some t) : Pipes t := by
  have hx := hready.proc_eq
  generalize ho : (s.proc p).ofile = o at hx
  have hnil : ∀ w ∈ ([] : List (Work π)), ∃ f, w = .fileclose f := fun w hw => absurd hw List.not_mem_nil
  have hgo : ∀ pc : Pc τ π, pc.fresh = [] → pc.uses = none → pc.right = none → Pipes (s.goto p pc) := by
    intro pc hfresh huses hright
    rw [goto_of rfl hx]
    exact h.go hx hfresh huses hright rfl hnil
  cases a with
  | «open» q ip r w =>
    cases hcall
    exact hgo _ rfl rfl rfl
  | dup q fd =>
    rcases hfd : o fd with _ | f <;> simp only [Sys.call, ho, hfd] at hcall
    · cases hcall
      exact h
    rcases ha : fdalloc o f with _ | ⟨fd', u⟩ <;> simp only [ha] at hcall <;> cases hcall
    · exact h
    · rw [goto_setOfile hx]
      exact h.go hx rfl rfl rfl rfl hnil
  | close q fd =>
    rcases hfd : o fd with _ | f <;> simp only [Sys.call, ho, hfd] at hcall <;> cases hcall
    · exact h
    · have he : (s.setOfile p (Function.update o fd none)).todo p [.fileclose f] =
          s.setProc p ⟨.RUNNING, Function.update o fd none, .out, [.fileclose f]⟩ := by
        simp [Sys.todo, Sys.setOfile, Sys.setProc, hx]
      rw [he]
      exact h.go hx rfl rfl rfl rfl (by simp)
  | pipe q =>
    cases hcall
    exact hgo _ rfl rfl rfl
  | rw q fd writing =>
    rcases hfd : o fd with _ | f <;> simp only [Sys.call, ho, hfd] at hcall
    · cases hcall
      exact h
    generalize (if writing then (s.file f).writable else (s.file f).readable) = ok at hcall
    cases ok with
    | false =>
      cases hcall
      exact h
    | true =>
      cases htype : (s.file f).type <;> simp only [htype, reduceCtorEq, if_false] at hcall
      · cases hcall
        exact ⟨h.closed, h.whole, h.procs, h.custody, h.logged, h.safe⟩
      · obtain ⟨g, hpipe⟩ := Option.ne_none_iff_exists'.mp (h.whole f htype)
        simp only [hpipe] at hcall
        cases hcall
        rw [goto_of rfl hx]
        refine h.pass ⟨fun f hf => absurd hf List.not_mem_nil, fun f' g' hf => ?_,
          fun ff hff => absurd hff List.not_mem_nil, fun w hw => absurd hw List.not_mem_nil,
          fun hne => absurd rfl hne⟩ (by rw [hx]; rfl)
        obtain ⟨rfl, rfl⟩ := Prod.mk.inj (Option.some.inj hf)
        exact ⟨htype, hpipe⟩
      · cases hcall
        exact h
  | fork q np =>
    obtain ⟨hnp, ht⟩ := Option.ite_none_right_eq_some.mp hcall
    cases ht
    have hne : p ≠ np := by
      rintro rfl
      rw [hx] at hnp
      exact absurd hnp (by simp)
    have hemb := h.pass (p := np) (x := { s.proc np with life := .EMBRYO })
      ((h.procs np).congr rfl rfl) rfl
    have hxp : (s.setProc np { s.proc np with life := .EMBRYO }).proc p = ⟨.RUNNING, o, .out, []⟩ := by
      simp only [Sys.setProc, Function.update_of_ne hne, hx]
    rw [goto_of (s := s.setProc np _) rfl hxp]
    exact hemb.go hxp rfl rfl rfl rfl hnil
  | exit q =>
    cases hcall
    exact hgo _ rfl rfl rfl
  | run _ _ | touch _ | wait _ | take _ | give _ => exact absurd hcall (by simp [Sys.call])

omit [Fintype τ] [DecidableEq τ] in
/-- A page goes to the rest of the kernel, or comes back. -/
theorem Pipes.page (h : Pipes s) {g : π} {x : Page}
    (hg : s.page g = .free ∨ s.page g = .other) (hx : x = .free ∨ x = .other) :
    Pipes (s.setPage g x) where
  closed := h.closed
  whole := h.whole
  procs := h.procs
  custody := by
    have hsame : x.gives = (s.page g).gives := by
      funext k
      rcases hg with hg | hg <;> rcases hx with rfl | rfl <;> rw [hg] <;> rfl
    have hlive := live_congr hsame
    have hcustody := h.custody
    rw [← hlive] at hcustody
    exact hcustody
  logged := by
    refine h.logged.other (fun id ro wo => ?_) fun id ro wo => ?_
    · rcases hg with hg | hg <;> rw [hg] <;> simp
    · rcases hx with rfl | rfl <;> simp
  safe := h.safe

/-- Every step keeps the pipes, the entries and the processes together. -/
theorem pipes_step (h : Pipes s) (hu : Users s) {a : Act τ π} (hst : Sys.Step s a t) : Pipes t := by
  obtain ⟨-, hst⟩ := Option.ite_none_left_eq_some.mp hst
  cases a with
  | «open» p ip r w =>
    obtain ⟨hready, hcall⟩ := Option.ite_none_right_eq_some.mp hst
    exact pipes_call h hready hcall
  | dup p fd | close p fd =>
    obtain ⟨hready, hcall⟩ := Option.ite_none_right_eq_some.mp hst
    exact pipes_call h hready hcall
  | pipe p | exit p =>
    obtain ⟨hready, hcall⟩ := Option.ite_none_right_eq_some.mp hst
    exact pipes_call h hready hcall
  | rw p fd writing =>
    obtain ⟨hready, hcall⟩ := Option.ite_none_right_eq_some.mp hst
    exact pipes_call h hready hcall
  | fork p np =>
    obtain ⟨hready, hcall⟩ := Option.ite_none_right_eq_some.mp hst
    exact pipes_call h hready hcall
  | run p k =>
    have hx : s.proc p = ⟨(s.proc p).life, (s.proc p).ofile, (s.proc p).pc, (s.proc p).work⟩ := rfl
    rcases hw : (s.proc p).work with _ | ⟨w, rest⟩ <;> rw [hw] at hx <;> simp only [hw] at hst
    · exact pipes_runPc h hu hx hst
    · cases hst
      exact pipes_runWork h hu hx
  | touch p =>
    rcases hw : (s.proc p).work with _ | ⟨w, rest⟩ <;> simp only [hw] at hst
    · cases hpc : (s.proc p).pc <;> simp only [hpc, reduceCtorEq] at hst
      rename_i f g
      rw [h.access_eq (p := p) (f := f) hu (by rw [hpc]; rfl)] at hst
      cases hst
      exact h
    · exact absurd hst (by simp)
  | wait np =>
    obtain ⟨-, ht⟩ := Option.ite_none_right_eq_some.mp hst
    cases ht
    exact h.pass ((h.procs np).congr rfl rfl) rfl
  | take g =>
    obtain ⟨hg, ht⟩ := Option.ite_none_right_eq_some.mp hst
    cases ht
    exact h.page (Or.inl hg) (Or.inr rfl)
  | give g =>
    obtain ⟨hg, ht⟩ := Option.ite_none_right_eq_some.mp hst
    cases ht
    exact h.page (Or.inr hg) (Or.inl rfl)

omit [Fintype τ] [DecidableEq π] in
theorem pipes_boot (p : τ) (free : π → Bool) : Pipes (Sys.boot p free) where
  closed := fun _ _ => rfl
  whole := fun _ htype => absurd htype (by simp [Sys.boot])
  procs := fun _ => .idle _ _ _ rfl rfl
  custody := by
    have hlive : live (Sys.boot p free).page = ∅ := by
      refine Set.eq_empty_of_forall_notMem ?_
      rintro ⟨g, k⟩ hg
      have hgives : (if free g then Page.free else .other).gives k = true := hg
      split at hgives <;> exact absurd hgives (by simp [Page.gives])
    have hholds : holds (Sys.boot p free) = fun _ => none := by
      funext i
      cases i <;> rfl
    rw [hlive, hholds]
    exact Custody.nothing
  logged := Logged.boot free
  safe := rfl

/-! ### What holds in every state -/

/-- `i` has the end of the pipe: it is an open file of the table, or a `fileclose` on its way to
    `pipeclose`. -/
def Sys.HasEnd (s : Sys τ π) (id : ℕ) (w : Bool) (i : Ptr ⊕ τ) : Prop :=
  ∃ g ro wo, s.page g = .pipe id ro wo ∧ holds s i = some (g, .close w)

/-- References are exact: the count of each file; who may be handed an entry; each end of a pipe is
    with one holder or has been closed once; each pipe is in one page or has been freed once, after
    its ends were closed; a call that reads or writes a pipe does so for a file that has an end of it;
    and nothing has been done to a page that was not a pipe. -/
structure Exact (s : Sys τ π) : Prop where
  refs : ∀ f, (s.file f).ref + ∑ p, (s.proc p).early f =
    ∑ p, slots (s.proc p).ofile f + ∑ p, (s.proc p).held f
  handed : ∀ f t, s.filealloc = some (f, t) → (s.file f).ref = 0 ∧
    ∀ p, slots (s.proc p).ofile f + (s.proc p).held f = (s.proc p).early f
  ends : ∀ id < s.made, ∀ w, (s.closed.count (id, w) = 0 ∧ ∃! i, s.HasEnd id w i) ∨
    (s.closed.count (id, w) = 1 ∧ ∀ i, ¬ s.HasEnd id w i)
  pages : ∀ id < s.made, (s.freed.count id = 0 ∧ ∃! g, ∃ ro wo, s.page g = .pipe id ro wo) ∨
    (s.freed.count id = 1 ∧ (∀ g ro wo, s.page g ≠ .pipe id ro wo) ∧
      ∀ w, s.closed.count (id, w) = 1)
  due : ∀ g id, s.page g = .pipe id false false → ∃! p, (s.proc p).work.head? = some (.kfree g)
  used : ∀ p f g, (s.proc p).pc = .io f g →
    ∃ id, s.HasEnd id (s.file f).writable (.inl f) ∧ ∃ ro wo, s.page g = .pipe id ro wo
  safe : s.fault = false

omit [DecidableEq τ] [DecidableEq π] in
theorem Users.total (hu : Users s) (f : Ptr) : (s.file f).ref + ∑ p, (s.proc p).early f =
    ∑ p, slots (s.proc p).ofile f + ∑ p, (s.proc p).held f := by
  rw [hu.refs f, ← Finset.sum_add_distrib, ← Finset.sum_add_distrib]
  refine Finset.sum_congr rfl fun p _ => ?_
  rw [credit_eq (hu.knows p) f, held_eq]

omit [DecidableEq τ] [DecidableEq π] in
/-- Nobody has a reference to an entry that `filealloc` hands out. -/
theorem Users.unused (hu : Users s) {f : Ptr} (hz : (s.file f).ref = 0) (p : τ) :
    slots (s.proc p).ofile f + (s.proc p).held f = (s.proc p).early f := by
  have hc := credit_eq (hu.knows p) f
  have hle := hu.credit_le p f
  rw [held_eq]
  omega

omit [Fintype τ] [DecidableEq τ] [DecidableEq π] in
theorem Pipes.end_state (h : Pipes s) {id : ℕ} (hid : id < s.made) (w : Bool) :
    (s.closed.count (id, w) = 0 ∧ ∃! i, s.HasEnd id w i) ∨
      (s.closed.count (id, w) = 1 ∧ ∀ i, ¬ s.HasEnd id w i) := by
  have hone : (id, w) ∈ s.closed → s.closed.count (id, w) = 1 := List.count_eq_one_of_mem h.logged.once
  rcases (h.logged.all id).mp hid with hfreed | ⟨g, ro, wo, hg⟩
  · refine Or.inr ⟨hone (h.logged.past id hfreed w), ?_⟩
    rintro i ⟨g, ro, wo, hg, -⟩
    exact h.logged.kept hg hfreed
  · cases hopen : (s.page g).gives (.close w) with
    | true =>
      refine Or.inl ⟨List.count_eq_zero.mpr fun hc => ?_, ?_⟩
      · rw [(h.logged.shut hg w).mp hc] at hopen
        exact absurd hopen (by simp)
      · obtain ⟨i, hi⟩ := (h.custody.held (g, .close w)).mp hopen
        refine ⟨i, ⟨g, ro, wo, hg, hi⟩, ?_⟩
        rintro j ⟨g', ro', wo', hg', hj⟩
        obtain rfl := h.logged.one hg' hg
        exact h.custody.inj j i _ hj hi
    | false =>
      refine Or.inr ⟨hone ((h.logged.shut hg w).mpr hopen), ?_⟩
      rintro i ⟨g', ro', wo', hg', hi⟩
      obtain rfl := h.logged.one hg' hg
      have hlive : (s.page g').gives (.close w) = true := h.custody.live_of hi
      rw [hopen] at hlive
      exact absurd hlive (by simp)

omit [Fintype τ] [DecidableEq τ] [DecidableEq π] in
theorem Pipes.page_state (h : Pipes s) {id : ℕ} (hid : id < s.made) :
    (s.freed.count id = 0 ∧ ∃! g, ∃ ro wo, s.page g = .pipe id ro wo) ∨
      (s.freed.count id = 1 ∧ (∀ g ro wo, s.page g ≠ .pipe id ro wo) ∧
        ∀ w, s.closed.count (id, w) = 1) := by
  rcases (h.logged.all id).mp hid with hfreed | ⟨g, ro, wo, hg⟩
  · exact Or.inr ⟨List.count_eq_one_of_mem h.logged.onceFreed hfreed,
      fun g ro wo hg => h.logged.kept hg hfreed,
      fun w => List.count_eq_one_of_mem h.logged.once (h.logged.past id hfreed w)⟩
  · exact Or.inl ⟨List.count_eq_zero.mpr (h.logged.kept hg), g, ⟨ro, wo, hg⟩,
      by
        rintro g' ⟨ro', wo', hg'⟩
        exact h.logged.one hg' hg⟩

omit [Fintype τ] [DecidableEq τ] [DecidableEq π] in
theorem Pipes.freed_by (h : Pipes s) {g : π} {id : ℕ} (hg : s.page g = .pipe id false false) :
    ∃! p, (s.proc p).work.head? = some (.kfree g) := by
  have hlive : (g, Kind.free) ∈ live s.page := by
    rw [mem_live, hg]
    rfl
  have hholds : ∀ p, (s.proc p).work.head? = some (.kfree g) → holds s (.inr p) = some (g, .free) := by
    intro p hp
    obtain ⟨rest, hw⟩ := List.head?_eq_some_iff.mp hp
    simp [holds, Proc.right, hw, Work.right]
  have hfile : ∀ x : File π, x.right ≠ some (g, .free) := by
    intro x hx
    simp [File.right] at hx
  obtain ⟨i, hi⟩ := (h.custody.held (g, .free)).mp hlive
  cases i with
  | inl f =>
    have hentry : (s.file f).entry = some (g, .free) := hi
    unfold File.entry at hentry
    split at hentry
    · exact absurd hentry (by simp)
    · exact absurd hentry (hfile _)
  | inr p =>
    refine ⟨p, ?_, fun q hq => Sum.inr.inj (h.custody.inj _ _ _ (hholds q hq) hi)⟩
    have hright : (s.proc p).right = some (g, .free) := hi
    unfold Proc.right at hright
    rcases hw : (s.proc p).work with _ | ⟨w, rest⟩ <;> rw [hw] at hright
    · cases hpc : (s.proc p).pc <;> rw [hpc] at hright <;> simp [Pc.right] at hright
    · cases w with
      | fileclose f => exact absurd hright (by simp [Work.right])
      | last ff => exact absurd hright (hfile ff)
      | kfree g' =>
        obtain ⟨rfl, -⟩ := Prod.mk.inj (Option.some.inj hright)
        exact congrArg List.head? hw

omit [DecidableEq τ] [DecidableEq π] in
theorem Pipes.in_use (h : Pipes s) (hu : Users s) {f : Ptr} {g : π} (hpc : (s.proc p).pc = .io f g) :
    ∃ id, s.HasEnd id (s.file f).writable (.inl f) ∧ ∃ ro wo, s.page g = .pipe id ro wo := by
  have hi := h.uses_end hu (p := p) (f := f) (g := g) (by rw [hpc]; rfl)
  obtain ⟨id, ro, wo, hg, -⟩ := h.pipe_of hi
  exact ⟨id, ⟨g, ro, wo, hg, hi⟩, ro, wo, hg⟩

/-- References are exact in every state of every run, whatever the processes do and in what
    order. -/
theorem file_references_exact (p : τ) (free : π → Bool) {l : List (Sys τ π × Act τ π)}
    {t : Sys τ π} (hrun : Run Sys.Step (Sys.boot p free) l t) : Throughout Exact l t := by
  have hinv : Throughout (fun s => Users s ∧ Pipes s) l t := by
    refine hrun.invariant (C := fun _ _ => True) (fun s a t h _ hst => ?_)
      ⟨users_boot p free, pipes_boot p free⟩ fun _ _ => trivial
    exact ⟨users_step h.1 hst, pipes_step h.2 h.1 hst⟩
  refine hinv.mono ?_
  rintro s ⟨hu, h⟩
  exact ⟨hu.total, fun f _ ha => ⟨(filealloc_spec ha).1, hu.unused (filealloc_spec ha).1⟩,
    fun id hid w => h.end_state hid w, fun id hid => h.page_state hid, fun g id hg => h.freed_by hg,
    fun p f g hpc => h.in_use hu hpc, h.safe⟩

/-- A process makes a pipe and forks, both close both ends, the child by its exit. -/
theorem file_references_exact_pipe : ∃ l t,
    Run Sys.Step (Sys.boot (0 : Fin 2) fun _ : Fin 2 => true) l t ∧ Throughout Exact l t ∧
      t.closed = [(0, false), (0, true)] ∧ t.freed = [0] := by
  obtain ⟨t, l, hrun, ht⟩ := Run.of_exec_any Sys.next
    ([.pipe 0, .run 0 none, .run 0 none, .run 0 (some 1), .run 0 none, .run 0 none, .run 0 none,
      .fork 0 1] ++ List.replicate 19 (.run 0 none) ++
      [.close 0 0, .run 0 none, .close 0 1, .run 0 none, .rw 1 1 true, .run 1 none, .exit 1] ++
      List.replicate 22 (.run 1 none))
    (Sys.boot (0 : Fin 2) fun _ : Fin 2 => true)
    (fun t => t.closed = [(0, false), (0, true)] ∧ t.freed = [0]) (by decide +kernel)
  exact ⟨l, t, hrun, file_references_exact 0 _ hrun, by simpa using ht⟩

/-- Between `fdalloc` and `filedup` of `dup` the count is one less than the descriptors. -/
theorem dup_slot_early : ¬ ∀ l t, Run Sys.Step (Sys.boot (0 : Fin 1) fun _ : Fin 1 => true) l t →
    ∀ f, (t.file f).ref = ∑ p, slots (t.proc p).ofile f + ∑ p, (t.proc p).held f := by
  intro h
  obtain ⟨t, l, hrun, ht⟩ := Run.of_exec_any Sys.next
    [.open 0 1 true true, .run 0 none, .run 0 none, .run 0 none, .dup 0 0]
    (Sys.boot (0 : Fin 1) fun _ : Fin 1 => true)
    (fun t => (t.file 0).ref ≠ ∑ p, slots (t.proc p).ofile 0 + ∑ p, (t.proc p).held 0)
    (by decide +kernel)
  exact of_decide_eq_true ht (h l t hrun 0)

end Xv6.Ftable
