import Mathlib.Algebra.GroupWithZero.Nat
import Mathlib.Algebra.Order.BigOperators.Group.List
import Mathlib.Algebra.Order.Group.Nat
import Mathlib.Data.List.Nodup
import Mathlib.Logic.Equiv.List
import Xv6.Shell.Wiring

/-! @src sh.c sysfile.c proc.c | name:A command line to its end | layer:proof

    What has been started, and what the shell processes will start, is what the tree says; a turn
    moves some of it from the second to the first, or loses it when a call fails. A process waits only
    for younger ones, so that the youngest one alive is never stuck. -/

namespace Xv6.Shell
open Xv6.Schemes
open Xv6.Ftable (Fd)

/-- Redirections are of descriptors 0 and 1. -/
theorem Cmd.Redirects.wrap {rs : List (Token × Token)} {c : Cmd} (h : c.Redirects) :
    (Xv6.Shell.wrap rs c).Redirects := by
  induction rs generalizing c with
  | nil => exact h
  | cons r rs ih =>
    refine ih ?_
    dsimp only [redirect]
    split_ifs
    · exact ⟨by decide, h⟩
    · exact ⟨by decide, h⟩
    · exact ⟨by decide, h⟩
    · exact h

theorem Cmd.Redirects.backs {amps : List Token} {c : Cmd} (h : c.Redirects) :
    (Xv6.Shell.backs amps c).Redirects := by
  induction amps generalizing c with
  | nil => exact h
  | cons t amps ih => exact ih h

theorem Derives.redirects {n : Sym} {ts : List Token} {c : Cmd} (h : Derives n ts c) :
    c.Redirects := by
  induction h with
  | last hp hamps ih => exact ih.backs
  | list hp hamps hsemi hl ihp ihl => exact ⟨ihp.backs, ihl⟩
  | single he ih => exact ih
  | pipe he hbar hp ihe ihp => exact ⟨ihe, ihp⟩
  | block hlparen hl hrparen hr ih => exact ih.wrap
  | simple hr ha hargs => exact Cmd.Redirects.wrap trivial

/-! ### What is started -/

def Running.future (P : Path → ℕ) (c : Running) : List Started := c.1.future P c.2.1 c.2.2

def Running.nodes (c : Running) : List Path := c.1.nodes

/-- What has been started, and what is still to be. -/
def Procs.future (s : Procs) (P : Path → ℕ) : List Started :=
  s.started ++ s.running.flatMap (Running.future P)

/-- The nodes whose pipes have been made, or will be. -/
def Procs.nodes (s : Procs) : List Path := s.made ++ s.running.flatMap Running.nodes

/-- `P` knows the pipes that have been made. -/
def Numbers (P : Path → ℕ) (made : List Path) : Prop := ∀ i π, made[i]? = some π → P π = i

section

variable {P : Path → ℕ} {n : ℕ} {fail : Bool} {c : Running} {new : List Running} {ms : List Path}
  {st : List Started} {s s' u : Procs} {a : Turn} {l : List (Procs × Turn)} {o : Fds}

theorem Fds.alloc_eq_none {d : Desc} : o.alloc d = none ↔ ∀ fd, o fd ≠ none := by
  unfold Fds.alloc
  rw [Option.map_eq_none_iff, List.find?_eq_none]
  exact ⟨fun h fd hfd => h fd (List.mem_finRange fd) (decide_eq_true hfd),
    fun h fd _ hfd => h fd (of_decide_eq_true hfd)⟩

/-- Which descriptor is taken does not depend on what it is for. -/
theorem Fds.alloc_other {d : Desc} {fd : Fd} {o' : Fds} (d' : Desc) (h : o.alloc d = some (fd, o')) :
    o' = Function.update o fd (some d) ∧ o.alloc d' = some (fd, Function.update o fd (some d')) := by
  unfold Fds.alloc at h ⊢
  obtain ⟨x, hx, he⟩ := Option.map_eq_some_iff.mp h
  cases he
  rw [hx]
  exact ⟨rfl, rfl⟩

/-- Whether there is room for a pipe does not depend on the pipe. -/
theorem Fds.pipe_eq_none {m : ℕ} (h : o.pipe n = none) : o.pipe m = none := by
  unfold Fds.pipe at h ⊢
  simp only [Option.bind_eq_bind, Option.bind_eq_none_iff] at h ⊢
  rintro ⟨fd, o₁⟩ h₁ ⟨fd', o₂⟩ h₂
  obtain ⟨rfl, hn⟩ := Fds.alloc_other (.pipe n false) h₁
  have hfull : ∀ x, Function.update o fd (some (.pipe n false)) x ≠ none := by
    refine (Fds.alloc_eq_none (d := .pipe n true)).mp ?_
    refine Option.eq_none_iff_forall_ne_some.mpr fun r hr => ?_
    exact absurd (h _ hn r hr) (Option.some_ne_none _)
  have hnone : Fds.alloc (Function.update o fd (some (.pipe m false))) (.pipe m true) = none := by
    refine Fds.alloc_eq_none.mpr fun x => ?_
    have hx := hfull x
    rw [Function.update_apply] at hx ⊢
    split_ifs at hx ⊢
    · exact Option.some_ne_none _
    · exact hx
  exact absurd (h₂.symm.trans hnone) (Option.some_ne_none _)

/-- A turn starts some of what it has to and leaves the rest, or fails and leaves nothing. -/
theorem Move.future (h : Move n fail c new ms st) (hP : ∀ π ∈ ms, P π = n) :
    st ++ new.flatMap (Running.future P) = c.future P ∨
      fail = true ∧ st ++ new.flatMap (Running.future P) = [] := by
  cases h with
  | exit | exec | close | wait | dupEnd | closeEnd => exact .inl (List.append_nil _)
  | noExec | noFork => exact .inr ⟨rfl, rfl⟩
  | fork =>
    refine .inl (congrArg (Code.future P _ _ _ ++ ·) ?_)
    exact List.append_nil _
  | «open» h =>
    refine .inl ((List.append_nil _).trans ?_)
    unfold Running.future
    rw [Code.future, h]
  | noOpen h =>
    rcases h with h | h
    · exact .inr ⟨h, rfl⟩
    · refine .inl ?_
      unfold Running.future
      rw [Code.future, h]
      rfl
  | pipe h =>
    refine .inl ((List.append_nil _).trans ?_)
    unfold Running.future
    rw [Code.future, hP _ (List.mem_singleton_self _), h]
  | noPipe h =>
    rcases h with h | h
    · exact .inr ⟨h, rfl⟩
    · refine .inl ?_
      unfold Running.future
      rw [Code.future, Fds.pipe_eq_none h]
      rfl

theorem Move.nodes (h : Move n fail c new ms st) :
    ms ++ new.flatMap Running.nodes = c.nodes ∨ ms ++ new.flatMap Running.nodes = [] := by
  cases h with
  | exit | exec => exact .inl rfl
  | close | «open» _ | wait | dupEnd | closeEnd => exact .inl (List.append_nil _)
  | pipe _ => exact .inl (congrArg (_ :: ·) (List.append_nil _))
  | noExec | noOpen _ | noFork | noPipe _ => exact .inr rfl
  | fork =>
    refine .inl (congrArg (Code.nodes _ ++ ·) ?_)
    exact List.append_nil _

/-- A turn makes one pipe at most, and its number is the next. -/
theorem Move.numbers {made : List Path} (h : Move made.length fail c new ms st)
    (hP : Numbers P (made ++ ms)) : ∀ π ∈ ms, P π = made.length := by
  intro π hπ
  cases h with
  | pipe _ =>
    obtain rfl := List.mem_singleton.mp hπ
    exact hP _ _ List.getElem?_concat_length
  | _ => cases hπ

theorem next_made (h : s.next a = some s') : s.made <+: s'.made := by
  obtain ⟨-, hm, -⟩ | ⟨-, -, -, ms, -, -, -, hm, -⟩ := next_running h
  · rw [hm]
  · exact ⟨ms, hm.symm⟩

/-- A turn keeps what has been started and is to be, or loses some of it to a failure. -/
theorem next_future (h : s.next a = some s') (hP : Numbers P s'.made) :
    (s'.future P).Perm (s.future P) ∨ a.fail = true ∧ (s'.future P).Subperm (s.future P) := by
  unfold Procs.future
  obtain ⟨hrun, -, hst⟩ | ⟨c, rest, new, ms, st, hold, hnew, hmade, hst, hmove⟩ := next_running h
  · rw [hst]
    exact .inl ((hrun.flatMap_right _).append_left _)
  · have hnum := hmove.numbers (hmade ▸ hP)
    have hold' := hold.flatMap_right (Running.future P)
    have hnew' := hnew.flatMap_right (Running.future P)
    rw [List.flatMap_cons] at hold'
    rw [List.flatMap_append] at hnew'
    have hsplit : (s'.started ++ s'.running.flatMap (Running.future P)).Perm
        (s.started ++ (st ++ new.flatMap (Running.future P) ++ rest.flatMap (Running.future P))) := by
      rw [hst, List.append_assoc, List.append_assoc]
      exact (hnew'.append_left st).append_left s.started
    rcases hmove.future hnum with he | ⟨hf, he⟩
    · rw [he] at hsplit
      exact .inl (hsplit.trans (hold'.symm.append_left _))
    · rw [he] at hsplit
      refine .inr ⟨hf, hsplit.subperm.trans ?_⟩
      refine List.Subperm.trans ?_ (hold'.symm.append_left s.started).subperm
      exact (List.Sublist.append_left (List.sublist_append_right _ _) _).subperm

theorem next_nodes (h : s.next a = some s') : s'.nodes.Subperm s.nodes := by
  unfold Procs.nodes
  obtain ⟨hrun, hmade, -⟩ | ⟨c, rest, new, ms, st, hold, hnew, hmade, -, hmove⟩ := next_running h
  · rw [hmade]
    exact ((hrun.flatMap_right _).append_left _).subperm
  · have hold' := hold.flatMap_right Running.nodes
    have hnew' := hnew.flatMap_right Running.nodes
    rw [List.flatMap_cons] at hold'
    rw [List.flatMap_append] at hnew'
    have hsplit : (s'.made ++ s'.running.flatMap Running.nodes).Perm
        (s.made ++ (ms ++ new.flatMap Running.nodes ++ rest.flatMap Running.nodes)) := by
      rw [hmade, List.append_assoc, List.append_assoc]
      exact (hnew'.append_left ms).append_left s.made
    refine hsplit.subperm.trans ?_
    refine List.Subperm.trans ?_ (hold'.symm.append_left s.made).subperm
    rcases hmove.nodes with he | he
    · rw [he]
    · rw [he]
      exact (List.Sublist.append_left (List.sublist_append_right _ _) _).subperm

/-! ### Whole runs -/

theorem run_made (h : Schemes.Run Procs.Step s l u) : s.made <+: u.made := by
  induction h with
  | nil s => exact List.prefix_rfl
  | cons hst _ ih => exact (next_made hst).trans ih

theorem run_nodes (h : Schemes.Run Procs.Step s l u) : u.nodes.Subperm s.nodes := by
  induction h with
  | nil s => exact List.Subperm.refl _
  | cons hst _ ih => exact ih.trans (next_nodes hst)

theorem Numbers.of_prefix {made made' : List Path} (h : Numbers P made') (hpre : made <+: made') :
    Numbers P made := by
  obtain ⟨ms, rfl⟩ := hpre
  intro i π hi
  refine h i π ?_
  rw [List.getElem?_append_left (List.getElem?_eq_some_iff.mp hi).1, hi]

theorem run_future (h : Schemes.Run Procs.Step s l u) (hP : Numbers P u.made) :
    (u.future P).Subperm (s.future P) ∧
      ((∀ x ∈ l, x.2.fail = false) → (u.future P).Perm (s.future P)) := by
  induction h with
  | nil s => exact ⟨List.Subperm.refl _, fun _ => List.Perm.refl _⟩
  | @cons s t u a l hst hrun ih =>
    obtain ⟨hsub, hperm⟩ := ih hP
    have hnext := next_future hst (hP.of_prefix (run_made hrun))
    constructor
    · rcases hnext with h | ⟨-, h⟩
      · exact hsub.trans h.subperm
      · exact hsub.trans h
    · intro hall
      have hfirst : a.fail = false := hall (s, a) List.mem_cons_self
      rcases hnext with h | ⟨hf, -⟩
      · exact (hperm fun x hx => hall x (List.mem_cons_of_mem _ hx)).trans h
      · exact absurd (hf.symm.trans hfirst) (by decide)

/-- The numbers of pipes made at different nodes, continued to all nodes. -/
theorem exists_numbers {made : List Path} (h : made.Nodup) :
    ∃ P : Path → ℕ, P.Injective ∧ Numbers P made := by
  refine ⟨fun π => if π ∈ made then made.idxOf π else made.length + Encodable.encode π, ?_, ?_⟩
  · intro π ρ he
    dsimp only at he
    split_ifs at he with hπ hρ hρ
    · exact (List.idxOf_inj hπ).mp he
    · have := List.idxOf_lt_length_of_mem hπ
      omega
    · have := List.idxOf_lt_length_of_mem hρ
      omega
    · exact Encodable.encode_injective (by omega)
  · intro i π hi
    obtain ⟨hlt, rfl⟩ := List.getElem?_eq_some_iff.mp hi
    exact (if_pos (List.getElem_mem hlt)).trans (h.idxOf_getElem i hlt)

/-- The nodes under a node end in it. -/
theorem nodes_suffix {cmd : Cmd} {π ρ : Path} (h : ρ ∈ (runcmd π cmd).nodes) : π <:+ ρ := by
  induction cmd generalizing π with
  | exec argv => cases argv <;> cases h
  | redir cmd file efile mode fd ih => exact ih h
  | back cmd ih =>
    rw [runcmd, Code.nodes, Code.nodes, List.append_nil] at h
    exact ih h
  | list left right ihl ihr =>
    rw [runcmd, Code.nodes, List.mem_append] at h
    rcases h with h | h
    · exact (List.suffix_cons _ _).trans (ihl h)
    · exact (List.suffix_cons _ _).trans (ihr h)
  | pipe left right ihl ihr =>
    simp only [runcmd, Code.nodes, List.mem_cons, List.mem_append, List.append_nil] at h
    rcases h with rfl | h | h
    · exact List.suffix_rfl
    · exact (List.suffix_cons _ _).trans (ihl h)
    · exact (List.suffix_cons _ _).trans (ihr h)

/-- What is left of a node is not right of it. -/
theorem nodes_disjoint (left right : Cmd) (π : Path) :
    (runcmd (false :: π) left).nodes.Disjoint (runcmd (true :: π) right).nodes := by
  intro ρ hl hr
  have hle := List.suffix_of_suffix_length_le (nodes_suffix hl) (nodes_suffix hr) le_rfl
  have he := hle.eq_of_length rfl
  cases he

theorem nodup_nodes (cmd : Cmd) (π : Path) : (runcmd π cmd).nodes.Nodup := by
  induction cmd generalizing π with
  | exec argv => cases argv <;> exact List.nodup_nil
  | redir cmd file efile mode fd ih => exact ih π
  | back cmd ih =>
    rw [runcmd, Code.nodes, Code.nodes, List.append_nil]
    exact ih π
  | list left right ihl ihr =>
    rw [runcmd, Code.nodes]
    exact (ihl _).append (ihr _) (nodes_disjoint left right π)
  | pipe left right ihl ihr =>
    simp only [runcmd, Code.nodes, List.append_nil]
    refine List.nodup_cons.mpr ⟨fun h => ?_, (ihl _).append (ihr _) (nodes_disjoint left right π)⟩
    have hlen : ∀ b : Bool, ¬ (b :: π) <:+ π := fun b hb => by
      have := hb.length_le
      rw [List.length_cons] at this
      omega
    rcases List.mem_append.mp h with h | h
    · exact hlen _ (nodes_suffix h)
    · exact hlen _ (nodes_suffix h)

theorem wire_std {cmd : Cmd} {π : Path} (hc : cmd.Redirects) (ho : Std o) :
    ∀ c ∈ wire P π cmd o, Std c.fds := by
  induction cmd generalizing π o with
  | exec argv =>
    cases argv with
    | nil => exact List.forall_mem_nil _
    | cons w ws => exact List.forall_mem_singleton.mpr ho
  | redir cmd file efile mode fd ih => exact ih hc.2 (ho.put hc.1)
  | back cmd ih => exact ih hc ho
  | list left right ihl ihr => exact List.forall_mem_append.mpr ⟨ihl hc.1 ho, ihr hc.2 ho⟩
  | pipe left right ihl ihr =>
    exact List.forall_mem_append.mpr
      ⟨ihl hc.1 (ho.put (by decide)), ihr hc.2 (ho.put (by decide))⟩

/-! ### How long it takes -/

/-- A bound on the turns. -/
def Code.size : Code → ℕ
  | .exit => 0
  | .exec _ => 1
  | .close _ k | .open _ _ _ k | .wait k | .pipe _ k | .dupEnd _ k | .closeEnd _ k => k.size + 1
  | .fork child k => child.size + k.size + 3

def Task.weight (t : Task) : ℕ :=
  match t.stage with
  | .shell code => code.size + 2
  | .program => 2
  | .zombie => 1

def Procs.weight (s : Procs) : ℕ := (s.tasks.map Task.weight).sum

/-- A process goes on, with less to do. -/
structure Task.Goes (t t' : Task) : Prop where
  pid : t'.pid = t.pid
  parent : t'.parent = t.parent
  weight : t'.weight < t.weight

/-- What a turn does with the processes. -/
inductive Procs.Turned (s : Procs) (t : Task) (i : ℕ) : Procs → Prop
  | goes {v t'} (ht : t.Goes t') (htasks : v.tasks = s.tasks.set i t')
      (hpid : v.nextpid = s.nextpid) : Turned s t i v
  | exit (ht : t.stage ≠ .zombie) : Turned s t i (s.exit i t)
  | fork {v t' c} (ht : t.Goes t') (hc : c.parent = t.pid) (hpid : c.pid = s.nextpid)
      (hweight : t'.weight + c.weight < t.weight) (htasks : v.tasks = s.tasks.set i t' ++ [c])
      (hnext : v.nextpid = s.nextpid + 1) : Turned s t i v
  | reap {v t' j} (ht : t.Goes t') (htasks : v.tasks = (s.tasks.set i t').eraseIdx j)
      (hpid : v.nextpid = s.nextpid) : Turned s t i v
  | reaped (htasks : v.tasks = s.tasks.eraseIdx i) (hpid : v.nextpid = s.nextpid) : Turned s t i v

variable {t : Task}

theorem Task.Goes.shell {k code : Code} {o : Fds} {p : ℕ × ℕ} (ht : t.stage = .shell code)
    (hlt : k.size < code.size) : t.Goes { t with stage := .shell k, fds := o, p := p } := by
  refine ⟨rfl, rfl, ?_⟩
  unfold Task.weight
  rw [ht]
  exact Nat.add_lt_add_right hlt 2

theorem call_goes {code : Code} (ht : t.stage = .shell code) (h : s.call a t code = some s') :
    s.Turned t a.i s' := by
  cases code with
  | exit =>
    obtain rfl := Option.some.inj h
    exact .exit (by rw [ht]; exact Stage.noConfusion)
  | exec argv =>
    rw [Procs.call] at h
    split_ifs at h
    · obtain rfl := Option.some.inj h
      exact .goes (.shell (k := .exit) ht Nat.one_pos) rfl rfl
    · obtain rfl := Option.some.inj h
      have hgoes : t.Goes { t with stage := .program } := by
        refine ⟨rfl, rfl, ?_⟩
        unfold Task.weight
        rw [ht]
        exact Nat.lt_succ_self 2
      exact .goes hgoes rfl rfl
  | close fd k =>
    obtain rfl := Option.some.inj h
    exact .goes (.shell ht (Nat.lt_succ_self _)) rfl rfl
  | «open» file efile mode k =>
    rw [Procs.call] at h
    split at h
    · obtain rfl := Option.some.inj h
      exact .goes (.shell (k := .exit) ht (Nat.succ_pos _)) rfl rfl
    · obtain rfl := Option.some.inj h
      exact .goes (.shell ht (Nat.lt_succ_self _)) rfl rfl
  | fork child k =>
    rw [Procs.call] at h
    have hlt : k.size < (Code.fork child k).size := by
      rw [Code.size]
      omega
    split_ifs at h
    · obtain rfl := Option.some.inj h
      exact .goes (.shell (k := .exit) ht (Nat.succ_pos _)) rfl rfl
    · obtain rfl := Option.some.inj h
      refine .fork (.shell ht hlt) rfl rfl ?_ rfl rfl
      unfold Task.weight
      rw [ht]
      dsimp only [Code.size]
      omega
  | wait k =>
    rw [Procs.call] at h
    split at h
    · split at h
      · cases h
      · obtain rfl := Option.some.inj h
        exact .goes (.shell ht (Nat.lt_succ_self _)) rfl rfl
    · split at h
      · obtain rfl := Option.some.inj h
        exact .reap (.shell ht (Nat.lt_succ_self _)) rfl rfl
      · cases h
  | pipe node k =>
    rw [Procs.call] at h
    split at h
    · obtain rfl := Option.some.inj h
      exact .goes (.shell (k := .exit) ht (Nat.succ_pos _)) rfl rfl
    · obtain rfl := Option.some.inj h
      exact .goes (.shell ht (Nat.lt_succ_self _)) rfl rfl
  | dupEnd w k =>
    obtain rfl := Option.some.inj h
    exact .goes (.shell ht (Nat.lt_succ_self _)) rfl rfl
  | closeEnd w k =>
    obtain rfl := Option.some.inj h
    exact .goes (.shell ht (Nat.lt_succ_self _)) rfl rfl

theorem next_goes (h : s.next a = some s') : ∃ t, s.tasks[a.i]? = some t ∧ s.Turned t a.i s' := by
  unfold Procs.next at h
  cases hi : s.tasks[a.i]? with
  | none =>
    rw [hi] at h
    cases h
  | some t =>
    rw [hi] at h
    dsimp only at h
    refine ⟨t, rfl, ?_⟩
    cases hst : t.stage with
    | shell code =>
      rw [hst] at h
      exact call_goes hst h
    | program =>
      rw [hst] at h
      obtain rfl := Option.some.inj h
      exact .exit (by rw [hst]; exact Stage.noConfusion)
    | zombie =>
      rw [hst] at h
      dsimp only at h
      split at h
      · obtain rfl := Option.some.inj h
        exact .reaped rfl rfl
      · cases h

theorem weight_set {i : ℕ} (hi : s.tasks[i]? = some t) (t' : Task) :
    ((s.tasks.set i t').map Task.weight).sum + t.weight = s.weight + t'.weight := by
  obtain ⟨hlt, rfl⟩ := List.getElem?_eq_some_iff.mp hi
  have hnew := ((List.set_perm_cons_eraseIdx hlt t').map Task.weight).sum_eq
  have hold := ((List.getElem_cons_eraseIdx_perm hlt).map Task.weight).sum_eq
  rw [List.map_cons, List.sum_cons] at hnew hold
  unfold Procs.weight
  omega

theorem Task.weight_pos (t : Task) : 0 < t.weight := by
  unfold Task.weight
  split <;> omega

/-- Each turn leaves less to do. -/
theorem next_weight (h : s.next a = some s') : s'.weight < s.weight := by
  obtain ⟨t, hi, hturn⟩ := next_goes h
  cases hturn with
  | @goes _ t' ht htasks _ =>
    have hset := weight_set hi t'
    have := ht.weight
    rw [Procs.weight, htasks]
    omega
  | exit ht =>
    have hset := weight_set hi { t with stage := .zombie, fds := fun _ => none }
    have hlt : ({ t with stage := .zombie, fds := fun _ => none } : Task).weight < t.weight := by
      unfold Task.weight
      cases hst : t.stage with
      | zombie => exact absurd hst ht
      | program => exact Nat.lt_succ_self 1
      | shell code => exact Nat.lt_of_lt_of_le (Nat.lt_succ_self 1) (Nat.le_add_left 2 code.size)
    have hsame : (Task.weight ∘ fun c : Task =>
        if c.parent = t.pid then { c with parent := INIT } else c) = Task.weight := by
      funext c
      dsimp only [Function.comp]
      split_ifs <;> rfl
    have hexit : (s.exit a.i t).weight =
        ((s.tasks.set a.i { t with stage := .zombie, fds := fun _ => none }).map Task.weight).sum := by
      unfold Procs.weight Procs.exit
      dsimp only
      rw [List.map_map, hsame]
    omega
  | @fork _ t' c ht _ _ hweight htasks _ =>
    have hset := weight_set hi t'
    rw [Procs.weight, htasks, List.map_append, List.sum_append, List.map_singleton, List.sum_singleton]
    omega
  | @reap _ t' j ht htasks _ =>
    have hset := weight_set hi t'
    have := ht.weight
    have hle : (((s.tasks.set a.i t').eraseIdx j).map Task.weight).sum ≤
        ((s.tasks.set a.i t').map Task.weight).sum :=
      ((List.eraseIdx_sublist _ j).map Task.weight).sum_le_sum fun _ _ => Nat.zero_le _
    rw [Procs.weight, htasks]
    omega
  | reaped htasks _ =>
    obtain ⟨hlt, rfl⟩ := List.getElem?_eq_some_iff.mp hi
    have hold := ((List.getElem_cons_eraseIdx_perm hlt).map Task.weight).sum_eq
    have := Task.weight_pos s.tasks[a.i]
    rw [List.map_cons, List.sum_cons] at hold
    rw [Procs.weight, htasks, Procs.weight]
    omega

theorem run_weight (h : Schemes.Run Procs.Step s l u) : l.length + u.weight ≤ s.weight := by
  induction h with
  | nil s => exact (Nat.zero_add _).le
  | cons hst _ ih =>
    have := next_weight hst
    rw [List.length_cons]
    omega

/-! ### Nobody waits for ever -/

/-- A process is younger than its parent, and than init. -/
structure Task.Young (n : ℕ) (t : Task) : Prop where
  parent : t.parent < t.pid
  init : INIT < t.pid
  next : t.pid < n

def Procs.Young (s : Procs) : Prop := ∀ t ∈ s.tasks, t.Young s.nextpid

theorem Task.Goes.young {t' : Task} (h : t.Goes t') (ht : t.Young n) : t'.Young n :=
  ⟨by rw [h.pid, h.parent]; exact ht.parent, h.pid ▸ ht.init, h.pid ▸ ht.next⟩

theorem next_young (hs : s.Young) (h : s.next a = some s') : s'.Young := by
  obtain ⟨t, hi, hturn⟩ := next_goes h
  have ht := hs t (List.mem_of_getElem? hi)
  have hset : ∀ t', t'.Young s.nextpid → ∀ x ∈ s.tasks.set a.i t', x.Young s.nextpid := by
    intro t' ht' x hx
    rcases List.mem_or_eq_of_mem_set hx with hx | rfl
    · exact hs x hx
    · exact ht'
  intro x hx
  cases hturn with
  | goes hgo htasks hpid =>
    rw [hpid]
    exact hset _ (hgo.young ht) x (htasks ▸ hx)
  | exit _ =>
    obtain ⟨y, hy, rfl⟩ := List.mem_map.mp hx
    have hyoung := hset { t with stage := .zombie, fds := fun _ => none }
      ⟨ht.parent, ht.init, ht.next⟩ y hy
    split_ifs
    · exact ⟨hyoung.init, hyoung.init, hyoung.next⟩
    · exact hyoung
  | fork hgo hc hpid _ htasks hnext =>
    have hlt := ht.next
    have hinit := ht.init
    rw [hnext]
    rw [htasks] at hx
    rcases List.mem_append.mp hx with hx | hx
    · have hyoung := hset _ (hgo.young ht) x hx
      exact ⟨hyoung.parent, hyoung.init, hyoung.next.trans (Nat.lt_succ_self _)⟩
    · obtain rfl := List.mem_singleton.mp hx
      exact ⟨by omega, by omega, by omega⟩
  | reap hgo htasks hpid =>
    rw [hpid]
    exact hset _ (hgo.young ht) x (List.mem_of_mem_eraseIdx (htasks ▸ hx))
  | reaped htasks hpid =>
    rw [hpid]
    exact hs x (List.mem_of_mem_eraseIdx (htasks ▸ hx))

theorem run_young (hs : s.Young) (h : Schemes.Run Procs.Step s l u) : u.Young := by
  induction h with
  | nil s => exact hs
  | cons hst _ ih => exact ih (next_young hs hst)

/-- If the kernel fails no call, somebody alive can go on. -/
theorem progress (hs : s.Young) (ht : t ∈ s.tasks) (halive : t.stage ≠ .zombie) :
    ∃ a, s.next a ≠ none := by
  induction hn : s.nextpid - t.pid using Nat.strong_induction_on generalizing t with
  | _ n ih =>
    obtain ⟨i, hi⟩ := List.getElem?_of_mem ht
    cases hst : t.stage with
    | zombie => exact absurd hst halive
    | program =>
      have hnext : s.next ⟨i, false, 0⟩ = some (s.exit i t) := by simp only [Procs.next, hi, hst]
      exact ⟨⟨i, false, 0⟩, by rw [hnext]; exact Option.some_ne_none _⟩
    | shell code =>
      have hnext : ∀ j, s.next ⟨i, false, j⟩ = s.call ⟨i, false, j⟩ t code := fun j => by
        simp only [Procs.next, hi, hst]
      cases code with
      | wait k =>
        by_cases hchild : s.HasChild t
        · obtain ⟨c, hc, hparent⟩ := hchild
          by_cases hz : c.stage = .zombie
          · obtain ⟨j, hj⟩ := List.getElem?_of_mem hc
            have hij : i ≠ j := by
              rintro rfl
              exact halive (Option.some.inj (hi.symm.trans hj) ▸ hz)
            refine ⟨⟨i, false, j⟩, ?_⟩
            rw [hnext, Procs.call]
            dsimp only
            rw [hj]
            dsimp only
            rw [if_pos ⟨hparent, hz, hij⟩]
            exact Option.some_ne_none _
          · have hlt := (hs c hc).parent
            have hc' := (hs c hc).next
            exact ih _ (by omega) hc hz rfl
        · refine ⟨⟨i, false, s.tasks.length⟩, ?_⟩
          rw [hnext, Procs.call]
          dsimp only
          rw [List.getElem?_eq_none le_rfl]
          dsimp only
          rw [if_neg hchild]
          exact Option.some_ne_none _
      | «open» file efile mode k =>
        refine ⟨⟨i, false, 0⟩, ?_⟩
        rw [hnext, Procs.call]
        split <;> exact Option.some_ne_none _
      | pipe node k =>
        refine ⟨⟨i, false, 0⟩, ?_⟩
        rw [hnext, Procs.call]
        split <;> exact Option.some_ne_none _
      | _ =>
        refine ⟨⟨i, false, 0⟩, ?_⟩
        rw [hnext]
        exact Option.some_ne_none _

/-- When no turn is possible, no shell process is left. -/
theorem running_of_stuck (hs : s.Young) (h : ∀ a, s.next a = none) : s.running = [] := by
  refine List.filterMap_eq_nil_iff.mpr fun t ht => ?_
  by_contra hrun
  have halive : t.stage ≠ .zombie := by
    intro hz
    refine hrun ?_
    unfold Task.running
    rw [hz]
  obtain ⟨a, ha⟩ := progress hs ht halive
  exact ha (h a)

/-- In every run of a line, each of its simple commands is started at most once, with the three
    descriptors of the tree; a run has an end, and if the kernel fails no call, all of them have been
    started then. -/
theorem line_started {line : CString} {fuel pid parent : ℕ} {cmd : Cmd} {buf : Option (List Byte)}
    (hcmd : parsecmd fuel line = .ok (cmd, buf)) (ho : Std o) (hparent : parent < pid)
    (hinit : INIT < pid) (h : Schemes.Run Procs.Step (.start pid parent o cmd) l u) :
    l.length ≤ (runcmd [] cmd).size + 2 ∧
      ∃ P : Path → ℕ, P.Injective ∧ Numbers P u.made ∧
        u.started.Subperm (wire P [] cmd o) ∧ (∀ c ∈ u.started, Std c.fds) ∧
        ((∀ x ∈ l, x.2.fail = false) → (∀ a, u.next a = none) →
          u.started.Perm (wire P [] cmd o)) := by
  have hred : cmd.Redirects := (parsecmd_sound hcmd).1.redirects
  have hyoung : (Procs.start pid parent o cmd).Young :=
    List.forall_mem_singleton.mpr ⟨hparent, hinit, Nat.lt_succ_self pid⟩
  have hnodes : (Procs.start pid parent o cmd).nodes.Nodup := by
    have hall : (Procs.start pid parent o cmd).nodes = (runcmd [] cmd).nodes := List.append_nil _
    exact hall ▸ nodup_nodes cmd []
  have hmade : u.made.Nodup := by
    obtain ⟨ns, hns, hsub⟩ := run_nodes h
    have hnd := hns.nodup_iff.mp (hnodes.sublist hsub)
    exact (List.nodup_append.mp hnd).1
  obtain ⟨P, hinj, hP⟩ := exists_numbers hmade
  have hstart : (Procs.start pid parent o cmd).future P = wire P [] cmd o :=
    (List.append_nil _).trans (future_runcmd hred ho (0, 0))
  obtain ⟨hsub, hperm⟩ := run_future h hP
  rw [hstart] at hsub hperm
  have hstarted : u.started.Subperm (wire P [] cmd o) :=
    (List.sublist_append_left _ _).subperm.trans hsub
  constructor
  · have hw := run_weight h
    have hone : (Procs.start pid parent o cmd).weight = (runcmd [] cmd).size + 2 := Nat.add_zero _
    omega
  · refine ⟨P, hinj, hP, hstarted, fun c hc => wire_std hred ho c (hstarted.subset hc), ?_⟩
    intro hnofail hstuck
    have hall := hperm hnofail
    unfold Procs.future at hall
    rwa [running_of_stuck (run_young hyoung h) hstuck, List.flatMap_nil, List.append_nil] at hall

end

/-- `a|b`. -/
def piped : CString := ⟨[ascii 'a', ascii '|', ascii 'b'], by decide⟩

/-- The shell's descriptors. -/
def stdFds : Fds := fun fd => if fd.val < 3 then some (.given fd.val) else none

/-- The left side starts before the right one is forked. -/
def pipedTurns : List Turn :=
  [0, 0, 1, 1, 1, 1, 1, 0, 2, 2, 2, 2, 2].map fun i => ⟨i, false, 0⟩

theorem line_started_piped : ∃ u l,
    Schemes.Run Procs.Step (.start 3 2 stdFds (.pipe (.exec [(0, 1)]) (.exec [(2, 3)]))) l u ∧
      u.started.length = 2 ∧ l.length ≤ 23 ∧
      ∃ P : Path → ℕ, P.Injective ∧ Numbers P u.made ∧
        u.started.Subperm (wire P [] (.pipe (.exec [(0, 1)]) (.exec [(2, 3)])) stdFds) ∧
        (∀ c ∈ u.started, Std c.fds) ∧
        ((∀ x ∈ l, x.2.fail = false) → (∀ a, u.next a = none) →
          u.started.Perm (wire P [] (.pipe (.exec [(0, 1)]) (.exec [(2, 3)])) stdFds)) := by
  obtain ⟨u, l, h, htest⟩ := Run.of_exec_any Procs.next pipedTurns
    (.start 3 2 stdFds (.pipe (.exec [(0, 1)]) (.exec [(2, 3)])))
    (fun u => u.started.length = 2) rfl
  have hstd : Std stdFds := by
    unfold Std stdFds
    decide
  have hcmd : parsecmd 10 piped =
      .ok (.pipe (.exec [(0, 1)]) (.exec [(2, 3)]), some [ascii 'a', 0, ascii 'b', 0]) := rfl
  exact ⟨u, l, h, of_decide_eq_true htest,
    line_started hcmd hstd (by decide) (by decide) h⟩

end Xv6.Shell
