import Mathlib.Data.List.Perm.Subperm
import Mathlib.Data.List.FinRange
import Xv6.Schemes.Run
import Xv6.Shell.Accept
import Xv6.Shell.Runcmd

/-! @src sh.c sysfile.c proc.c | name:What a command line starts | layer:proof

    From three open descriptors, each simple command of a line is started at most once, with the three
    descriptors that the tree gives it and no other: a pipe has its write end in what is left of it
    and its read end in what is right of it. -/

namespace Xv6.Shell
open Xv6.Schemes
open Xv6.Ftable (NOFILE Fd)

/-- The first three descriptors are open, and no others. -/
def Std (o : Fds) : Prop := ∀ fd, (o fd).isSome ↔ fd.val < 3

/-- The redirections of a command are of the first three descriptors. -/
def Cmd.Redirects : Cmd → Prop
  | .exec _ => True
  | .redir cmd _ _ _ fd => fd < 3 ∧ cmd.Redirects
  | .pipe left right => left.Redirects ∧ right.Redirects
  | .list left right => left.Redirects ∧ right.Redirects
  | .back cmd => cmd.Redirects

/-- A descriptor is given something else. -/
def Fds.put (o : Fds) (fd : ℕ) (d : Desc) : Fds :=
  fun x => if x.val = fd then some d else o x

/-- The simple commands under a node, with the descriptors they are to be started with; `P` says
    which pipe a node makes. -/
def wire (P : Path → ℕ) : Path → Cmd → Fds → List Started
  | _, .exec [], _ => []
  | _, .exec argv, o => [⟨argv, o⟩]
  | π, .redir cmd file efile mode fd, o => wire P π cmd (o.put fd (.file file efile mode))
  | π, .list left right, o => wire P (false :: π) left o ++ wire P (true :: π) right o
  | π, .pipe left right, o =>
    wire P (false :: π) left (o.put 1 (.pipe (P π) true)) ++
      wire P (true :: π) right (o.put 0 (.pipe (P π) false))
  | π, .back cmd, o => wire P π cmd o

/-- What a shell process will start. -/
def Code.future (P : Path → ℕ) : Code → Fds → ℕ × ℕ → List Started
  | .exit, _, _ => []
  | .exec argv, o, _ => [⟨argv, o⟩]
  | .close fd k, o, p => k.future P (o.close fd) p
  | .open file efile mode k, o, p =>
    match o.alloc (.file file efile mode) with
    | none => []
    | some (_, o) => k.future P o p
  | .fork child k, o, p => child.future P o p ++ k.future P o p
  | .wait k, o, p => k.future P o p
  | .pipe node k, o, _ =>
    match o.pipe (P node) with
    | none => []
    | some (p, o) => k.future P o p
  | .dupEnd w k, o, p => k.future P (o.dup (if w then p.2 else p.1)) p
  | .closeEnd w k, o, p => k.future P (o.close (if w then p.2 else p.1)) p

/-- The nodes whose pipes a shell process will make. -/
def Code.nodes : Code → List Path
  | .exit | .exec _ => []
  | .close _ k | .open _ _ _ k | .wait k | .dupEnd _ k | .closeEnd _ k => k.nodes
  | .fork child k => child.nodes ++ k.nodes
  | .pipe node k => node :: k.nodes

section

variable {o : Fds} {d : Desc} {fd : Fd} {P : Path → ℕ} {π : Path} {cmd : Cmd} {n : ℕ}

/-! ### Descriptors -/

/-- The lowest free descriptor is taken. -/
theorem Fds.alloc_eq (hfree : o fd = none) (hlow : ∀ x < fd, o x ≠ none) :
    o.alloc d = some (fd, o.put fd d) := by
  have hfind : (List.finRange NOFILE).find? (fun fd => decide (o fd = none)) = some fd := by
    rw [List.find?_eq_some_iff_getElem]
    refine ⟨decide_eq_true hfree, fd.val, by simp, by simp, fun j hj => ?_⟩
    rw [Bool.not_eq_true', decide_eq_false_iff_not, List.getElem_finRange]
    exact hlow _ hj
  have hput : Function.update o fd (some d) = o.put fd d := by
    funext x
    unfold Fds.put
    rw [Function.update_apply]
    exact if_congr Fin.ext_iff rfl rfl
  unfold Fds.alloc
  rw [hfind, ← hput]
  rfl

theorem Fds.close_apply (x : Fd) : o.close n x = if x.val = n then none else o x := by
  unfold Fds.close
  split_ifs with hn hx
  · have he : x = ⟨n, hn⟩ := Fin.ext hx
    rw [he, Function.update_self]
  · rw [Function.update_of_ne fun he => hx (congrArg Fin.val he)]
  · rename_i hx
    exact absurd (hx ▸ x.isLt) hn
  · rfl

theorem Std.isSome (ho : Std o) (h : fd.val < 3) : o fd ≠ none :=
  Option.isSome_iff_ne_none.mp ((ho fd).mpr h)

theorem Std.isNone (ho : Std o) (h : 3 ≤ fd.val) : o fd = none := by
  rw [← Option.not_isSome_iff_eq_none, ho fd]
  omega

theorem Std.put (ho : Std o) (hn : n < 3) : Std (o.put n d) := by
  intro x
  unfold Fds.put
  split_ifs with hx
  · exact iff_of_true rfl (hx ▸ hn)
  · exact ho x

/-- A low descriptor that has been closed is the next to be taken. -/
theorem Fds.alloc_close (hlow : ∀ x : Fd, x.val < n → o x ≠ none) (hn : n < NOFILE) :
    (o.close n).alloc d = some (⟨n, hn⟩, o.put n d) := by
  have hfree : o.close n ⟨n, hn⟩ = none := by
    rw [Fds.close_apply, if_pos rfl]
  have hopen : ∀ x < (⟨n, hn⟩ : Fd), o.close n x ≠ none := by
    intro x hx
    have hlt : x.val < n := hx
    rw [Fds.close_apply, if_neg hlt.ne]
    exact hlow x hlt
  rw [Fds.alloc_eq hfree hopen]
  refine congrArg (fun u => some (_, u)) (funext fun x => ?_)
  unfold Fds.put
  rw [Fds.close_apply]
  by_cases hx : x.val = n
  · rw [if_pos hx, if_pos hx]
  · rw [if_neg hx, if_neg hx, if_neg hx]

/-- The ends of a pipe are the descriptors 3 and 4. -/
theorem Std.pipe (ho : Std o) (id : ℕ) :
    o.pipe id = some ((3, 4), (o.put 3 (.pipe id false)).put 4 (.pipe id true)) := by
  have h₃ : o.alloc (.pipe id false) = some ((3 : Fd), o.put 3 (.pipe id false)) :=
    Fds.alloc_eq (ho.isNone (by decide)) fun x hx => ho.isSome hx
  have h₄ : (o.put 3 (.pipe id false)).alloc (.pipe id true) =
      some ((4 : Fd), (o.put 3 (.pipe id false)).put 4 (.pipe id true)) := by
    refine Fds.alloc_eq (ho.isNone (by decide)) fun x hx => ?_
    have hx' : x.val < 4 := hx
    unfold Fds.put
    split_ifs with h3
    · exact Option.some_ne_none _
    · exact ho.isSome (by omega)
  unfold Fds.pipe
  rw [h₃, Option.bind_eq_bind, Option.bind_some]
  dsimp only
  rw [h₄]
  rfl

/-- One end goes to a low descriptor, and 3 and 4 are closed. -/
theorem Std.replace (ho : Std o) (d₀ d₁ : Desc) (w : Bool) (hn : n < 3) :
    (((((o.put 3 d₀).put 4 d₁).close n).dup (if w then 4 else 3)).close 3).close 4 =
      o.put n (if w then d₁ else d₀) := by
  have hlow : ∀ x : Fd, x.val < n → ((o.put 3 d₀).put 4 d₁) x ≠ none := by
    intro x hx
    unfold Fds.put
    rw [if_neg (by omega), if_neg (by omega)]
    exact ho.isSome (by omega)
  have hget : (((o.put 3 d₀).put 4 d₁).close n).get (if w then 4 else 3) =
      some (if w then d₁ else d₀) := by
    cases w
    · change (((o.put 3 d₀).put 4 d₁).close n) 3 = some d₀
      rw [Fds.close_apply, if_neg (by change 3 ≠ n; omega)]
      rfl
    · change (((o.put 3 d₀).put 4 d₁).close n) 4 = some d₁
      rw [Fds.close_apply, if_neg (by change 4 ≠ n; omega)]
      rfl
  have hdup : (((o.put 3 d₀).put 4 d₁).close n).dup (if w then 4 else 3) =
      ((o.put 3 d₀).put 4 d₁).put n (if w then d₁ else d₀) := by
    unfold Fds.dup
    rw [hget]
    dsimp only
    rw [Fds.alloc_close hlow (by unfold NOFILE; omega)]
  rw [hdup]
  funext x
  rw [Fds.close_apply, Fds.close_apply]
  unfold Fds.put
  by_cases h4 : x.val = 4
  · rw [if_pos h4, if_neg (by omega)]
    exact (ho.isNone (by omega)).symm
  · by_cases h3 : x.val = 3
    · rw [if_neg h4, if_pos h3, if_neg (by omega)]
      exact (ho.isNone (by omega)).symm
    · rw [if_neg h4, if_neg h3, if_neg h4, if_neg h3]

/-! ### What runcmd does -/

/-- Run alone, `runcmd` starts the simple commands of the tree, with the descriptors of the tree. -/
theorem future_runcmd (hc : cmd.Redirects) (ho : Std o) (p : ℕ × ℕ) :
    (runcmd π cmd).future P o p = wire P π cmd o := by
  induction cmd generalizing π o p with
  | exec argv => cases argv <;> rfl
  | redir cmd file efile mode fd ih =>
    obtain ⟨hfd, hc⟩ := hc
    have hlow : ∀ x : Fd, x.val < fd → o x ≠ none := fun x hx => ho.isSome (by omega)
    rw [runcmd, Code.future, Code.future, Fds.alloc_close hlow (by unfold NOFILE; omega)]
    exact ih hc (ho.put hfd) p
  | pipe left right ihl ihr =>
    obtain ⟨hl, hr⟩ := hc
    rw [runcmd, Code.future, ho.pipe]
    simp only [Code.future, List.append_nil]
    have hleft := ho.replace (.pipe (P π) false) (.pipe (P π) true) true (by decide : 1 < 3)
    have hright := ho.replace (.pipe (P π) false) (.pipe (P π) true) false (by decide : 0 < 3)
    simp only [if_true, Bool.false_eq_true, if_false] at hleft hright ⊢
    rw [hleft, hright, ihl hl (ho.put (by decide)), ihr hr (ho.put (by decide))]
    rfl
  | list left right ihl ihr =>
    obtain ⟨hl, hr⟩ := hc
    rw [runcmd, Code.future, Code.future, ihl hl ho, ihr hr ho]
    rfl
  | back cmd ih =>
    rw [runcmd, Code.future, ih hc ho]
    exact List.append_nil _

end

/-! ### Turns -/

/-- A process that runs the shell, by what it has to do. -/
abbrev Running : Type := Code × Fds × (ℕ × ℕ)

def Task.running (t : Task) : Option Running :=
  match t.stage with
  | .shell code => some (code, t.fds, t.p)
  | .program | .zombie => none

def Procs.running (s : Procs) : List Running := s.tasks.filterMap Task.running

/-- What a turn makes of a process that runs the shell, with the pipes it makes and what it starts;
    `n` pipes have been made. -/
inductive Move (n : ℕ) : Bool → Running → List Running → List Path → List Started → Prop
  | exit {fail o p} : Move n fail (.exit, o, p) [] [] []
  | exec {argv o p} : Move n false (.exec argv, o, p) [] [] [⟨argv, o⟩]
  | noExec {argv o p} : Move n true (.exec argv, o, p) [(.exit, o, p)] [] []
  | close {fail fd k o p} : Move n fail (.close fd k, o, p) [(k, o.close fd, p)] [] []
  | open {fail file efile mode k o p fd o'} (h : o.alloc (.file file efile mode) = some (fd, o')) :
      Move n fail (.open file efile mode k, o, p) [(k, o', p)] [] []
  | noOpen {fail file efile mode k o p} (h : fail = true ∨ o.alloc (.file file efile mode) = none) :
      Move n fail (.open file efile mode k, o, p) [(.exit, o, p)] [] []
  | fork {fail child k o p} : Move n fail (.fork child k, o, p) [(child, o, p), (k, o, p)] [] []
  | noFork {child k o p} : Move n true (.fork child k, o, p) [(.exit, o, p)] [] []
  | wait {fail k o p} : Move n fail (.wait k, o, p) [(k, o, p)] [] []
  | pipe {fail node k o p p' o'} (h : o.pipe n = some (p', o')) :
      Move n fail (.pipe node k, o, p) [(k, o', p')] [node] []
  | noPipe {fail node k o p} (h : fail = true ∨ o.pipe n = none) :
      Move n fail (.pipe node k, o, p) [(.exit, o, p)] [] []
  | dupEnd {fail w k o p} :
      Move n fail (.dupEnd w k, o, p) [(k, o.dup (if w then p.2 else p.1), p)] [] []
  | closeEnd {fail w k o p} :
      Move n fail (.closeEnd w k, o, p) [(k, o.close (if w then p.2 else p.1), p)] [] []

section

variable {s s' : Procs} {a : Turn} {t t' z : Task} {i j : ℕ}

theorem running_eraseIdx (hi : s.tasks[i]? = some t) :
    s.running.Perm (t.running.toList ++ (s.tasks.eraseIdx i).filterMap Task.running) := by
  obtain ⟨hlt, rfl⟩ := List.getElem?_eq_some_iff.mp hi
  have hperm := (List.getElem_cons_eraseIdx_perm hlt).symm.filterMap Task.running
  refine hperm.trans (List.Perm.of_eq ?_)
  rw [List.filterMap_cons]
  cases Task.running s.tasks[i] <;> rfl

theorem running_set (hi : s.tasks[i]? = some t) (t' : Task) :
    ((s.tasks.set i t').filterMap Task.running).Perm
      (t'.running.toList ++ (s.tasks.eraseIdx i).filterMap Task.running) := by
  obtain ⟨hlt, -⟩ := List.getElem?_eq_some_iff.mp hi
  have hperm := (List.set_perm_cons_eraseIdx hlt t').filterMap Task.running
  refine hperm.trans (List.Perm.of_eq ?_)
  rw [List.filterMap_cons]
  cases Task.running t' <;> rfl

/-- A process exits, and its children go to init. -/
theorem running_exit (hi : s.tasks[i]? = some t) :
    (s.exit i t).running.Perm ((s.tasks.eraseIdx i).filterMap Task.running) := by
  have hsame : (Task.running ∘ fun c : Task => if c.parent = t.pid then { c with parent := INIT } else c) =
      Task.running := by
    funext c
    dsimp only [Function.comp]
    split_ifs
    · rfl
    · rfl
  unfold Procs.exit Procs.running
  dsimp only
  rw [List.filterMap_map, hsame]
  exact running_set hi _

/-- Where the shell goes on in the same process. -/
theorem running_goes (hi : s.tasks[i]? = some t) (k : Code) (o : Fds) (p : ℕ × ℕ) :
    (s.set i { t with stage := .shell k, fds := o, p := p }).running.Perm
      ([(k, o, p)] ++ (s.tasks.eraseIdx i).filterMap Task.running) :=
  running_set hi _

/-- A child that has exited is reaped. -/
theorem running_reap {l : List Task} (hj : l[j]? = some z) (hz : z.stage = .zombie) :
    ((l.eraseIdx j).filterMap Task.running).Perm (l.filterMap Task.running) := by
  obtain ⟨hlt, rfl⟩ := List.getElem?_eq_some_iff.mp hj
  have hnone : Task.running l[j] = none := by
    unfold Task.running
    rw [hz]
  have hperm := (List.getElem_cons_eraseIdx_perm hlt).filterMap Task.running
  rw [List.filterMap_cons_none hnone] at hperm
  exact hperm

/-- What a call of the shell does. -/
theorem call_running {code : Code} (hi : s.tasks[a.i]? = some t) (h : s.call a t code = some s') :
    ∃ new ms st, s'.running.Perm (new ++ (s.tasks.eraseIdx a.i).filterMap Task.running) ∧
      s'.made = s.made ++ ms ∧ s'.started = s.started ++ st ∧
      Move s.made.length a.fail (code, t.fds, t.p) new ms st := by
  cases code with
  | exit =>
    obtain rfl := Option.some.inj h
    exact ⟨[], [], [], running_exit hi, (List.append_nil _).symm, (List.append_nil _).symm, .exit⟩
  | exec argv =>
    rw [Procs.call] at h
    cases hf : a.fail with
    | true =>
      rw [if_pos hf] at h
      obtain rfl := Option.some.inj h
      exact ⟨_, [], [], running_goes hi _ _ _, (List.append_nil _).symm, (List.append_nil _).symm, .noExec⟩
    | false =>
      rw [if_neg (by rw [hf]; decide)] at h
      obtain rfl := Option.some.inj h
      exact ⟨[], [], _, running_set hi _, (List.append_nil _).symm, rfl, .exec⟩
  | close fd k =>
    obtain rfl := Option.some.inj h
    exact ⟨_, [], [], running_goes hi _ _ _, (List.append_nil _).symm, (List.append_nil _).symm, .close⟩
  | «open» file efile mode k =>
    rw [Procs.call] at h
    split at h
    · rename_i hnone
      obtain rfl := Option.some.inj h
      refine ⟨_, [], [], running_goes hi _ _ _, (List.append_nil _).symm, (List.append_nil _).symm,
        .noOpen ?_⟩
      split at hnone
      · rename_i hf
        exact .inl hf
      · exact .inr hnone
    · rename_i fd o hsome
      obtain rfl := Option.some.inj h
      split at hsome
      · cases hsome
      · exact ⟨_, [], [], running_goes hi _ _ _, (List.append_nil _).symm, (List.append_nil _).symm,
          .open hsome⟩
  | fork child k =>
    rw [Procs.call] at h
    cases hf : a.fail with
    | true =>
      rw [if_pos hf] at h
      obtain rfl := Option.some.inj h
      exact ⟨_, [], [], running_goes hi _ _ _, (List.append_nil _).symm, (List.append_nil _).symm, .noFork⟩
    | false =>
      rw [if_neg (by rw [hf]; decide)] at h
      obtain rfl := Option.some.inj h
      refine ⟨[(child, t.fds, t.p), (k, t.fds, t.p)], [], [], ?_, (List.append_nil _).symm,
        (List.append_nil _).symm, .fork⟩
      have hgoes := running_goes hi k t.fds t.p
      unfold Procs.running at hgoes ⊢
      rw [List.filterMap_append]
      refine List.perm_append_comm.trans ?_
      exact hgoes.cons (child, t.fds, t.p)
  | wait k =>
    rw [Procs.call] at h
    split at h
    · split at h
      · cases h
      · obtain rfl := Option.some.inj h
        exact ⟨_, [], [], running_goes hi _ _ _, (List.append_nil _).symm, (List.append_nil _).symm, .wait⟩
    · rename_i z hj
      split at h
      · rename_i hz
        obtain rfl := Option.some.inj h
        refine ⟨_, [], [], ?_, (List.append_nil _).symm, (List.append_nil _).symm, .wait⟩
        have hj' : (s.tasks.set a.i { t with stage := .shell k })[a.j]? = some z := by
          rw [List.getElem?_set_ne hz.2.2, hj]
        exact (running_reap hj' hz.2.1).trans (running_goes hi k t.fds t.p)
      · cases h
  | pipe node k =>
    rw [Procs.call] at h
    split at h
    · rename_i hnone
      obtain rfl := Option.some.inj h
      refine ⟨_, [], [], running_goes hi _ _ _, (List.append_nil _).symm, (List.append_nil _).symm,
        .noPipe ?_⟩
      split at hnone
      · rename_i hf
        exact .inl hf
      · exact .inr hnone
    · rename_i p o hsome
      obtain rfl := Option.some.inj h
      split at hsome
      · cases hsome
      · exact ⟨_, _, [], running_goes hi _ _ _, rfl, (List.append_nil _).symm, .pipe hsome⟩
  | dupEnd w k =>
    obtain rfl := Option.some.inj h
    exact ⟨_, [], [], running_goes hi _ _ _, (List.append_nil _).symm, (List.append_nil _).symm, .dupEnd⟩
  | closeEnd w k =>
    obtain rfl := Option.some.inj h
    exact ⟨_, [], [], running_goes hi _ _ _, (List.append_nil _).symm, (List.append_nil _).symm,
      .closeEnd⟩

/-- What one turn does. -/
theorem next_running (h : s.next a = some s') :
    (s'.running.Perm s.running ∧ s'.made = s.made ∧ s'.started = s.started) ∨
      ∃ c rest new ms st, s.running.Perm (c :: rest) ∧ s'.running.Perm (new ++ rest) ∧
        s'.made = s.made ++ ms ∧ s'.started = s.started ++ st ∧
        Move s.made.length a.fail c new ms st := by
  unfold Procs.next at h
  cases hi : s.tasks[a.i]? with
  | none =>
    rw [hi] at h
    cases h
  | some t =>
    rw [hi] at h
    dsimp only at h
    have hold := running_eraseIdx hi
    cases hst : t.stage with
    | shell code =>
      rw [hst] at h
      have hrun : t.running = some (code, t.fds, t.p) := by
        unfold Task.running
        rw [hst]
      rw [hrun] at hold
      obtain ⟨new, ms, st, hrest⟩ := call_running hi h
      exact .inr ⟨_, _, new, ms, st, hold, hrest⟩
    | program =>
      rw [hst] at h
      obtain rfl := Option.some.inj h
      have hrun : t.running = none := by
        unfold Task.running
        rw [hst]
      rw [hrun] at hold
      exact .inl ⟨(running_exit hi).trans hold.symm, rfl, rfl⟩
    | zombie =>
      rw [hst] at h
      dsimp only at h
      split at h
      · obtain rfl := Option.some.inj h
        exact .inl ⟨running_reap hi hst, rfl, rfl⟩
      · cases h

end

end Xv6.Shell
