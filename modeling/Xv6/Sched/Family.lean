import Xv6.Sched.Handover

/-! @src proc.c | name:Parents and children | layer:proof

    Every process but init has a parent that can still call `wait`, and nobody sleeps in `wait` with
    a `ZOMBIE` among its children. `exit` and `wait` rely on what they have found or arranged earlier
    under the same lock: those are the duties of the statements that they are about to execute. -/

namespace Xv6.Sched
open Xv6.Schemes
open Xv6.Schemes.X86 (Word)
open Xv6.Process (NPROC Slot ProcState Chan)

/-! ### The table -/

/-- States of a process that can be a parent. -/
def Alive (st : ProcState) : Prop := st = .SLEEPING ∨ st = .RUNNABLE ∨ st = .RUNNING

/-- The process sleeps in `wait`. -/
def Waiting (p : Slot) (r : Proc) : Prop := r.state = .SLEEPING ∧ r.chan = some (.proc p)

structure Kin (tbl : Slot → Proc) : Prop where
  root : Alive (tbl initproc).state ∧ (tbl initproc).parent = none
  parent : ∀ q, q ≠ initproc → (tbl q).state ≠ .UNUSED → (tbl q).state ≠ .EMBRYO →
    (tbl q).parent ≠ none
  alive : ∀ q r, (tbl q).parent = some r → r ≠ q ∧ Alive (tbl r).state
  asleep : ∀ p q, Waiting p (tbl p) → (tbl q).parent = some p → (tbl q).state ≠ .ZOMBIE

theorem Alive.ne {st : ProcState} (h : Alive st) :
    st ≠ .UNUSED ∧ st ≠ .EMBRYO ∧ st ≠ .ZOMBIE := by
  rcases h with rfl | rfl | rfl <;> decide

theorem alive_of_running {st : ProcState} (h : st = .RUNNING) : Alive st := Or.inr (Or.inr h)

/-- What most steps do to a record: no change of the parent, and neither birth nor death. -/
structure Tame (p : Slot) (r r' : Proc) : Prop where
  parent : r'.parent = r.parent
  state : r'.state = r.state ∨ Alive r.state ∧ Alive r'.state
  waiting : Waiting p r' → Waiting p r

theorem Tame.rfl' (p : Slot) (r : Proc) : Tame p r r := ⟨rfl, Or.inl rfl, id⟩

theorem Tame.alive {p : Slot} {r r' : Proc} (h : Tame p r r') (ha : Alive r.state) :
    Alive r'.state := by
  rcases h.state with he | ⟨-, ha'⟩
  · rwa [he]
  · exact ha'

/-- States that are neither before birth nor after death stay so, and the others stay as they are. -/
theorem Tame.state_iff {p : Slot} {r r' : Proc} {st : ProcState} (h : Tame p r r')
    (hst : ¬ Alive st) : r'.state = st ↔ r.state = st := by
  rcases h.state with he | ⟨ha, ha'⟩
  · rw [he]
  · exact iff_of_false (fun he => hst (he ▸ ha')) fun he => hst (he ▸ ha)

theorem not_alive_zombie : ¬ Alive .ZOMBIE := fun h => h.ne.2.2 rfl

variable {tbl tbl' : Slot → Proc} {p q np : Slot}

theorem Kin.tame (h : Kin tbl) (ht : ∀ q, Tame q (tbl q) (tbl' q)) : Kin tbl' where
  root := ⟨(ht _).alive h.root.1, (ht _).parent.trans h.root.2⟩
  parent := fun q hq hu he => by
    rw [(ht q).parent]
    refine h.parent q hq ?_ ?_
    · exact fun h' => hu (((ht q).state_iff fun ha => ha.ne.1 rfl).mpr h')
    · exact fun h' => he (((ht q).state_iff fun ha => ha.ne.2.1 rfl).mpr h')
  alive := fun q r hr => by
    rw [(ht q).parent] at hr
    obtain ⟨hne, ha⟩ := h.alive q r hr
    exact ⟨hne, (ht r).alive ha⟩
  asleep := fun p q hw hq hz => by
    rw [(ht q).parent] at hq
    exact h.asleep p q ((ht p).waiting hw) hq (((ht q).state_iff not_alive_zombie).mp hz)

/-- A record changes for good: the process is born, goes to sleep, dies or makes room. -/
theorem Kin.change (h : Kin tbl) (hothers : ∀ q, q ≠ np → tbl' q = tbl q)
    (hroot : np = initproc → Alive (tbl' np).state ∧ (tbl' np).parent = none)
    (hborn : np = initproc ∨ (tbl' np).state = .UNUSED ∨ (tbl' np).state = .EMBRYO ∨
      (tbl' np).parent ≠ none)
    (hparent : ∀ r, (tbl' np).parent = some r → r ≠ np ∧ Alive (tbl r).state ∧
      ((tbl' np).state = .ZOMBIE → ¬ Waiting r (tbl r)))
    (halive : Alive (tbl' np).state ∨ ∀ q, (tbl q).parent ≠ some np)
    (hasleep : Waiting np (tbl' np) → ∀ q, (tbl q).parent = some np → (tbl q).state ≠ .ZOMBIE) :
    Kin tbl' where
  root := by
    rcases eq_or_ne initproc np with he | hne
    · exact he ▸ hroot he.symm
    · rw [hothers _ hne]
      exact h.root
  parent := fun q hq hu he => by
    rcases eq_or_ne q np with rfl | hne
    · rcases hborn with hb | hb | hb | hb
      · exact absurd hb hq
      · exact absurd hb hu
      · exact absurd hb he
      · exact hb
    · rw [hothers q hne] at hu he ⊢
      exact h.parent q hq hu he
  alive := fun q r hr => by
    rcases eq_or_ne q np with rfl | hne
    · obtain ⟨hrq, ha, -⟩ := hparent r hr
      exact ⟨hrq, (hothers r hrq).symm ▸ ha⟩
    · rw [hothers q hne] at hr
      obtain ⟨hrq, ha⟩ := h.alive q r hr
      refine ⟨hrq, ?_⟩
      rcases eq_or_ne r np with rfl | hrn
      · exact halive.resolve_right fun hn => hn q hr
      · rwa [hothers r hrn]
  asleep := fun p q hw hq hz => by
    rcases eq_or_ne q np with rfl | hne
    · obtain ⟨hpq, -, hnot⟩ := hparent p hq
      exact hnot hz (hothers p hpq ▸ hw)
    · rw [hothers q hne] at hq hz
      rcases eq_or_ne p np with rfl | hpn
      · exact hasleep hw q hq hz
      · exact h.asleep p q (hothers p hpn ▸ hw) hq hz

/-- Waking a process up. -/
theorem Soft.tame {r r' : Proc} (h : Soft r r') (hparent : r'.parent = r.parent)
    (hchan : r'.chan = r.chan) : Tame p r r' := by
  refine ⟨hparent, ?_, fun hw => ?_⟩
  · exact h.2.imp_right fun ⟨hs, hr⟩ => ⟨Or.inl hs, Or.inr (Or.inl hr)⟩
  · rcases h.2 with he | ⟨-, hr⟩
    · exact ⟨he ▸ hw.1, hchan ▸ hw.2⟩
    · exact absurd (hr.symm.trans hw.1) (by decide)

theorem tame_wakeTable (ch : Chan) (tbl : Slot → Proc) (q : Slot) :
    Tame q (tbl q) (wakeTable ch tbl q) := by
  obtain ⟨st, he⟩ := wakeTable_eq ch tbl q
  exact (soft_wakeTable ch tbl q).tame (by rw [he]) (by rw [he])

theorem not_waiting_wakeTable (p : Slot) (tbl : Slot → Proc) :
    ¬ Waiting p (wakeTable (.proc p) tbl p) := by
  unfold wakeTable
  split
  · exact fun hw => absurd hw.1 (by simp)
  · rename_i hn
    exact hn

theorem orphans_state (p : Slot) (tbl : Slot → Proc) (q : Slot) :
    (orphans p tbl q).state = (tbl q).state := by
  unfold orphans
  split <;> rfl

theorem orphans_chan (p : Slot) (tbl : Slot → Proc) (q : Slot) :
    (orphans p tbl q).chan = (tbl q).chan := by
  unfold orphans
  split <;> rfl

theorem orphans_parent {r : Slot} (h : (orphans p tbl q).parent = some r) :
    r ≠ p ∧ (tbl q).parent = some r ∨ r = initproc ∧ (tbl q).parent = some p := by
  unfold orphans at h
  split at h
  · rename_i hq
    exact Or.inr ⟨(Option.some.inj h).symm, hq⟩
  · rename_i hq
    exact Or.inl ⟨fun hr => hq (hr ▸ h), h⟩

/-- Passing the children on, unless init sleeps and one of them is dead. -/
theorem Kin.passOn (h : Kin tbl) (hinit : Waiting initproc (tbl initproc) →
      ∀ q, (tbl q).parent = some p → (tbl q).state ≠ .ZOMBIE) : Kin (orphans p tbl) where
  root := by
    refine ⟨(orphans_state p tbl _).symm ▸ h.root.1, ?_⟩
    cases hr : (orphans p tbl initproc).parent with
    | none => rfl
    | some r =>
      rcases orphans_parent hr with ⟨-, h'⟩ | ⟨-, h'⟩ <;>
        exact absurd (h.root.2.symm.trans h') (by simp)
  parent := fun q hq hu he => by
    rw [orphans_state] at hu he
    have := h.parent q hq hu he
    unfold orphans
    split
    · simp
    · exact this
  alive := fun q r hr => by
    rw [orphans_state]
    rcases orphans_parent hr with ⟨-, h'⟩ | ⟨rfl, h'⟩
    · exact h.alive q r h'
    · refine ⟨?_, h.root.1⟩
      rintro rfl
      exact absurd (h.root.2.symm.trans h') (by simp)
  asleep := fun r q hw hq => by
    rw [orphans_state]
    have hw' : Waiting r (tbl r) := by
      unfold Waiting at hw
      rwa [orphans_state, orphans_chan] at hw
    rcases orphans_parent hq with ⟨-, h'⟩ | ⟨rfl, h'⟩
    · exact h.asleep r q hw' h'
    · exact hinit hw' q h'

theorem Kin.abandon (h : Kin tbl) : Kin (abandonTable p tbl) := by
  unfold abandonTable
  split
  · -- init does not sleep when it gets its dead children
    have hwake : Kin (orphans p (wakeTable (.proc initproc) tbl)) := by
      refine (h.tame (tame_wakeTable _ tbl)).passOn fun hw => ?_
      exact absurd hw (not_waiting_wakeTable initproc tbl)
    have hcomm : wakeTable (.proc initproc) (orphans p tbl) =
        orphans p (wakeTable (.proc initproc) tbl) := by
      funext q
      by_cases hq : (tbl q).parent = some p <;>
        by_cases hw : (tbl q).state = .SLEEPING ∧ (tbl q).chan = some (.proc initproc) <;>
          simp [wakeTable, orphans, hq, hw]
    rwa [hcomm]
  · rename_i hnone
    refine h.passOn fun _ q hq hz => hnone (List.any_eq_true.mpr ⟨q, List.mem_finRange q, ?_⟩)
    simp [hq, hz]

/-! ### What a thread is going to do -/

/-- The next statement does not rely on what happened before under the same lock. -/
def Plain : List Stmt → Prop
  | .abandon :: _ | .setState .ZOMBIE :: _ | .setState .SLEEPING :: _ | .setChan (.proc _) :: _ =>
    False
  | _ => True

/-- What can come after a statement of the process `p`. -/
def Follows (p : Slot) (rest : List Stmt) : Stmt → Prop
  | .wakeParent => p ≠ initproc ∧ rest = [.abandon, .setState .ZOMBIE, .swtch]
  | .abandon => p ≠ initproc ∧ rest = [.setState .ZOMBIE, .swtch]
  | .setChan ch => (∀ q, ch = .proc q → q = p) ∧ ∃ l, rest = .setState .SLEEPING :: l
  | .kstack np =>
    rest = [.copyuvm np, .inherit np, .acquire .ptable, .runnable np, .release .ptable]
  | .copyuvm np => rest = [.inherit np, .acquire .ptable, .runnable np, .release .ptable]
  | _ => Plain rest

/-- Every statement is followed by what can come after it. -/
def Shape (p : Slot) : List Stmt → Prop
  | [] => True
  | st :: rest => Follows p rest st ∧ Shape p rest

theorem plain_of_free {l : List Stmt} (h : phase l = .free) : Plain l := by
  cases l with
  | nil => trivial
  | cons st rest => cases st <;> trivial

theorem code_shape {f : Call} (h : f = .exit → p ≠ initproc) : Shape p f.code := by
  cases f <;> simp [Call.code, Shape, Follows, Plain, h]

theorem handler_shape {l : List Stmt} (h : Handler) (hl : Shape p l) (hf : phase l = .free) :
    Shape p (h.code ++ l) ∧ Plain (h.code ++ l) := by
  have hplain := plain_of_free hf
  cases h with
  | wakeup lk a => exact ⟨⟨trivial, trivial, trivial, trivial, hplain, hl⟩, trivial⟩
  | yield => exact ⟨⟨trivial, trivial, trivial, hplain, hl⟩, trivial⟩

/-- A `fork` that has not made its process `RUNNABLE` yet is filling that process. -/
theorem fork_child {l : List Stmt} {st : Stmt} (hwf : Wf l) (h : st ∈ l)
    (hst : st = .runnable np ∨ st = .inherit np) : ∃ b, child l = some (np, b) := by
  have htail : ∀ {st' : Stmt} {rest : List Stmt}, st ∈ st' :: rest → (st ≠ st') → st ∈ rest :=
    fun h' hne => (List.mem_cons.mp h').resolve_left hne
  induction l with
  | nil => simp at h
  | cons st' rest ih =>
    have hin : st ≠ st' → Wf rest → ∃ b, child rest = some (np, b) := fun hne hw =>
      ih hw (htail h hne)
    cases st' with
    | kstack x | copyuvm x =>
      obtain ⟨b, hb⟩ := hin (by rcases hst with rfl | rfl <;> simp) hwf.2.1
      rw [hwf.2.2] at hb
      obtain ⟨rfl, -⟩ := Prod.mk.inj (Option.some.inj hb)
      exact ⟨_, rfl⟩
    | inherit x =>
      by_cases hx : st = .inherit x
      · obtain rfl : np = x := by
          rcases hst with rfl | rfl
          · exact absurd hx (by simp)
          · exact Stmt.inherit.inj hx
        exact ⟨true, rfl⟩
      · obtain ⟨b, hb⟩ := hin hx hwf.2.1
        rw [hwf.2.2] at hb
        obtain ⟨rfl, -⟩ := Prod.mk.inj (Option.some.inj hb)
        exact ⟨_, rfl⟩
    | unalloc x =>
      obtain ⟨b, hb⟩ := hin (by rcases hst with rfl | rfl <;> simp) hwf.2.1
      exact absurd (hwf.2.2.symm.trans hb) (by simp)
    | runnable x =>
      by_cases hx : st = .runnable x
      · obtain rfl : np = x := by
          rcases hst with rfl | rfl
          · exact Stmt.runnable.inj hx
          · exact absurd hx (by simp)
        exact ⟨true, rfl⟩
      · obtain ⟨b, hb⟩ := hin hx hwf.2.1
        exact absurd (hwf.2.2.symm.trans hb) (by simp)
    | acquire lk | release lk =>
      cases lk <;> exact hin (by rcases hst with rfl | rfl <;> simp) hwf.2
    | setState st => exact hin (by rcases hst with rfl | rfl <;> simp) hwf.2.1
    | swtch | fault | setChan | clearChan | wakeup1 | kill | wakeParent | abandon =>
      exact hin (by rcases hst with rfl | rfl <;> simp) hwf.2
    | waitLoop | allocproc | scan | back =>
      obtain rfl : rest = [] := hwf
      exact absurd (htail h (by rcases hst with rfl | rfl <;> simp)) (by simp)

variable {κ : Type} {s t : Sys κ} {c d : κ}

/-- What the next statement of the process relies on. -/
structure Duty (s : Sys κ) (p : Slot) : Prop where
  exit : ∀ rest, (s.proc p).todo = .setState .ZOMBIE :: rest →
    p ≠ initproc ∧ ∀ q, (s.proc q).parent ≠ some p
  wait : ∀ rest, (s.proc p).todo = .setChan (.proc p) :: rest ∨
      (s.proc p).todo = .setState .SLEEPING :: rest ∧ (s.proc p).chan = some (.proc p) →
    ∀ q, (s.proc q).parent = some p → (s.proc q).state ≠ .ZOMBIE
  parent : ∀ rest, (s.proc p).todo = .abandon :: rest ∨
      (s.proc p).todo = .setState .ZOMBIE :: rest →
    ∀ r, (s.proc p).parent = some r → ¬ Waiting r (s.proc r)

theorem Duty.of_plain (h : Plain (s.proc p).todo) : Duty s p where
  exit := fun rest hr => by simp [hr, Plain] at h
  wait := fun rest hr => by
    rcases hr with hr | ⟨hr, -⟩ <;> simp [hr, Plain] at h
  parent := fun rest hr => by
    rcases hr with hr | hr <;> simp [hr, Plain] at h

/-- A duty that others do not interfere with. -/
theorem Duty.keep (h : Duty s p) (hto : (t.proc p).todo = (s.proc p).todo)
    (hchan : (t.proc p).chan = (s.proc p).chan) (hparent : (t.proc p).parent = (s.proc p).parent)
    (hkids : ∀ q, (t.proc q).parent = some p →
      (s.proc q).parent = some p ∧ ((t.proc q).state = .ZOMBIE → (s.proc q).state = .ZOMBIE))
    (hw : ∀ r, Waiting r (t.proc r) → Waiting r (s.proc r)) : Duty t p where
  exit := fun rest hr => by
    obtain ⟨hne, hno⟩ := h.exit rest (hto ▸ hr)
    exact ⟨hne, fun q hq => hno q (hkids q hq).1⟩
  wait := fun rest hr q hq hz => by
    rw [hto, hchan] at hr
    exact h.wait rest hr q (hkids q hq).1 ((hkids q hq).2 hz)
  parent := fun rest hr r hr' hw' => by
    rw [hto] at hr
    rw [hparent] at hr'
    exact h.parent rest hr r hr' (hw r hw')

/-- What the threads are going to do fits what they have done. -/
structure Code (s : Sys κ) : Prop where
  shape : ∀ p, Shape p (s.proc p).todo
  off : ∀ p, (∀ c, (s.cpu c).thread ≠ some p) → Plain (s.proc p).todo
  fork : ∀ p np, .runnable np ∈ (s.proc p).todo →
    .inherit np ∈ (s.proc p).todo ∨ (s.proc np).parent = some p
  duty : ∀ c p, (s.cpu c).thread = some p → Duty s p

/-- The new statements of a thread are in order. -/
structure Ready (s : Sys κ) (p : Slot) : Prop where
  shape : Shape p (s.proc p).todo
  fork : ∀ np, .runnable np ∈ (s.proc p).todo →
    .inherit np ∈ (s.proc p).todo ∨ (s.proc np).parent = some p
  duty : Plain (s.proc p).todo ∨ (∃ c, (s.cpu c).thread = some p) ∧ Duty s p

/-- A thread is where it was, with its duty as it was. -/
structure Stays (s t : Sys κ) (p : Slot) : Prop where
  todo : (t.proc p).todo = (s.proc p).todo
  thread : ∀ d, (t.cpu d).thread = some p ↔ (s.cpu d).thread = some p
  fork : ∀ np, .runnable np ∈ (s.proc p).todo → (s.proc np).parent = some p →
    (t.proc np).parent = some p
  duty : (∃ d, (s.cpu d).thread = some p) → Duty s p → Duty t p

theorem Code.move (h : Code s) (hmove : ∀ p, Stays s t p ∨ Ready t p) : Code t where
  shape := fun p => (hmove p).elim (fun hs => hs.todo ▸ h.shape p) fun hr => hr.shape
  off := fun p hp => by
    rcases hmove p with hs | hr
    · exact hs.todo ▸ h.off p fun d hd => hp d ((hs.thread d).mpr hd)
    · rcases hr.duty with hplain | ⟨⟨d, hd⟩, -⟩
      · exact hplain
      · exact absurd hd (hp d)
  fork := fun p np hin => by
    rcases hmove p with hs | hr
    · rw [hs.todo] at hin ⊢
      exact (h.fork p np hin).imp_right (hs.fork np hin)
    · exact hr.fork np hin
  duty := fun d p hd => by
    rcases hmove p with hs | hr
    · have hd' := (hs.thread d).mp hd
      exact hs.duty ⟨d, hd'⟩ (h.duty d p hd')
    · rcases hr.duty with hplain | ⟨-, hduty⟩
      · exact .of_plain hplain
      · exact hduty

structure Family (s : Sys κ) : Prop where
  kin : Kin s.proc
  code : Code s

/-- A thread that does not move while no relation in the table changes. -/
theorem Stays.tame (htame : ∀ q, Tame q (s.proc q) (t.proc q))
    (hto : (t.proc p).todo = (s.proc p).todo) (hchan : (t.proc p).chan = (s.proc p).chan)
    (hthread : ∀ d, (t.cpu d).thread = some p ↔ (s.cpu d).thread = some p) : Stays s t p := by
  refine ⟨hto, hthread, fun np _ hnp => (htame np).parent.trans hnp, fun _ hduty => ?_⟩
  refine hduty.keep hto hchan (htame p).parent (fun q hq => ?_) fun r => (htame r).waiting
  exact ⟨(htame q).parent ▸ hq, ((htame q).state_iff not_alive_zombie).mp⟩

/-- Only the table and the threads of the processors matter. -/
theorem Family.congr (h : Family s) (hproc : t.proc = s.proc)
    (hthread : ∀ d, (t.cpu d).thread = (s.cpu d).thread) : Family t where
  kin := hproc ▸ h.kin
  code := h.code.move fun q => by
    refine Or.inl (.tame (fun x => ?_) (by rw [hproc]) (by rw [hproc]) fun d => by rw [hthread])
    rw [hproc]
    exact .rfl' x _

/-- The table changes without a change of its relations. -/
theorem Family.table {tbl : Slot → Proc} (h : Family s) (htame : ∀ q, Tame q (s.proc q) (tbl q))
    (hto : ∀ q, (tbl q).todo = (s.proc q).todo) (hchan : ∀ q, (tbl q).chan = (s.proc q).chan) :
    Family { s with proc := tbl } where
  kin := h.kin.tame htame
  code := h.code.move fun q => Or.inl (.tame htame (hto q) (hchan q) fun _ => Iff.rfl)

/-- The thread of `p` goes on, which changes no relation in the table. -/
theorem Family.self {f : Proc → Proc} (h : Family s) (htame : Tame p (s.proc p) (f (s.proc p)))
    (hready : Ready (s.modify p f) p) : Family (s.modify p f) := by
  have hall : ∀ q, Tame q (s.proc q) ((s.modify p f).proc q) := by
    intro q
    rcases eq_or_ne q p with rfl | hne
    · rwa [modify_self]
    · rw [modify_of_ne hne]
      exact .rfl' q _
  refine ⟨h.kin.tame hall, h.code.move fun q => ?_⟩
  rcases eq_or_ne q p with rfl | hne
  · exact Or.inr hready
  · exact Or.inl (.tame hall (by rw [modify_of_ne hne]) (by rw [modify_of_ne hne]) fun _ => Iff.rfl)

/-- While one thread is under the lock, the next statements of the others are plain. -/
theorem Inv.others_plain (hi : Inv s) (hp : (s.cpu c).thread = some p)
    (hph : phase (s.proc p).todo ≠ .free) (hq : (s.cpu d).thread = some q) (hne : q ≠ p) :
    Plain (s.proc q).todo := by
  refine plain_of_free ?_
  rw [← todo_some hq]
  refine hi.holds.alone (hi.has_lock hp hph) ?_
  rintro rfl
  exact hne (Option.some.inj (hq.symm.trans hp))

/-! ### The statements -/

section Statements

variable {st : Stmt} {rest : List Stmt} {f : Proc → Proc}

/-- What is left of the statements of a thread. -/
theorem Family.tail_ready (h : Family s) (hto : (s.proc p).todo = st :: rest) (hplain : Plain rest)
    (hst : ∀ np, st ≠ .inherit np) (hpt : (t.proc p).todo = rest)
    (hparent : ∀ np, (t.proc np).parent = (s.proc np).parent) : Ready t p where
  shape := by
    have := hto ▸ h.code.shape p
    exact hpt ▸ this.2
  fork := fun np hin => by
    rw [hpt] at hin ⊢
    rw [hparent]
    have := h.code.fork p np (hto ▸ List.mem_cons_of_mem st hin)
    rw [hto] at this
    exact this.imp_left fun h' => (List.mem_cons.mp h').resolve_left fun he => hst np he.symm
  duty := Or.inl (hpt ▸ hplain)

/-- A statement that changes only the record of its process. -/
theorem Family.tail (h : Family s) (hto : (s.proc p).todo = st :: rest) (hplain : Plain rest)
    (hst : ∀ np, st ≠ .inherit np) (hpt : (f (s.proc p)).todo = rest)
    (htame : Tame p (s.proc p) (f (s.proc p))) : Family (s.modify p f) := by
  refine h.self htame (h.tail_ready hto hplain hst (by rw [modify_self, hpt]) fun np => ?_)
  rcases eq_or_ne np p with rfl | hne
  · rw [modify_self]
    exact htame.parent
  · rw [modify_of_ne hne]

/-- New statements for a thread, without a `fork` and without duties. -/
theorem Family.fresh {l : List Stmt} (h : Family s) (hpt : (f (s.proc p)).todo = l)
    (htame : Tame p (s.proc p) (f (s.proc p))) (hshape : Shape p l) (hplain : Plain l)
    (hfork : ∀ np, .runnable np ∉ l) : Family (s.modify p f) := by
  refine h.self htame ⟨?_, fun np hin => ?_, Or.inl ?_⟩
  · rwa [modify_self, hpt]
  · rw [modify_self, hpt] at hin
    exact absurd hin (hfork np)
  · rwa [modify_self, hpt]

/-- A change of a record whose process is not running, and neither dies nor waits. -/
theorem Family.record (h : Family s) (hi : Inv s) (hgone : ∀ c, (s.cpu c).thread ≠ some np)
    (hkin : Kin (s.modify np f).proc) (hto : (f (s.proc np)).todo = (s.proc np).todo)
    (hparent : ∀ r, (f (s.proc np)).parent = some r →
      (s.proc np).parent = some r ∨ Plain (s.proc r).todo)
    (hfork : ∀ q b, child (s.proc q).todo = some (np, b) → (s.proc np).parent = some q →
      (f (s.proc np)).parent = some q)
    (hz : (f (s.proc np)).state ≠ .ZOMBIE) (hw : ¬ Waiting np (f (s.proc np))) :
    Family (s.modify np f) := by
  have hself : (s.modify np f).proc np = f (s.proc np) := modify_self
  have hto' : ∀ q, ((s.modify np f).proc q).todo = (s.proc q).todo := by
    intro q
    rcases eq_or_ne q np with rfl | hne
    · rw [hself, hto]
    · rw [modify_of_ne hne]
  refine ⟨hkin, h.code.move fun q => Or.inl ⟨hto' q, fun _ => Iff.rfl, ?_, ?_⟩⟩
  · intro x hin hx
    rcases eq_or_ne x np with rfl | hne
    · obtain ⟨b, hb⟩ := fork_child (hi.threads.wf q) hin (Or.inl rfl)
      rw [hself]
      exact hfork q b hb hx
    · rwa [modify_of_ne hne]
  · rintro ⟨d, hd⟩ hduty
    have hqn : q ≠ np := by
      rintro rfl
      exact hgone d hd
    by_cases hplain : Plain (s.proc q).todo
    · exact .of_plain (by rwa [hto'])
    refine hduty.keep (hto' q) (by rw [modify_of_ne hqn]) (by rw [modify_of_ne hqn]) ?_ ?_
    · intro x hx
      rcases eq_or_ne x np with rfl | hne
      · rw [hself] at hx ⊢
        exact ⟨(hparent q hx).resolve_right hplain, fun h' => absurd h' hz⟩
      · rw [modify_of_ne hne] at hx ⊢
        exact ⟨hx, id⟩
    · intro r hr
      rcases eq_or_ne r np with rfl | hne
      · rw [hself] at hr
        exact absurd hr hw
      · rwa [modify_of_ne hne] at hr

/-- A record that is neither alive nor dead can change its state before birth. -/
theorem Kin.unborn (h : Kin s.proc) (hdead : ¬ Alive (s.proc np).state)
    (hstate : (f (s.proc np)).state = .UNUSED ∨ (f (s.proc np)).state = .EMBRYO)
    (hparent : ∀ r, (f (s.proc np)).parent = some r → r ≠ np ∧ Alive (s.proc r).state) :
    Kin (s.modify np f).proc := by
  have hself : (s.modify np f).proc np = f (s.proc np) := modify_self
  refine h.change (fun q (hq : q ≠ np) => modify_of_ne hq) ?_ ?_ ?_ ?_ ?_
  · rintro rfl
    exact absurd h.root.1 hdead
  · rw [hself]
    exact Or.inr (hstate.imp_right Or.inl)
  · intro r hr
    rw [hself] at hr ⊢
    obtain ⟨hne, ha⟩ := hparent r hr
    refine ⟨hne, ha, fun hz => ?_⟩
    rcases hstate with hs | hs <;> exact absurd (hs.symm.trans hz) (by decide)
  · exact Or.inr fun q hq => hdead (h.alive q np hq).2
  · intro hw
    rw [hself] at hw
    rcases hstate with hs | hs <;> exact absurd (hs.symm.trans hw.1) (by decide)

theorem Family.alloc (h : Family s) (hi : Inv s) (hu : (s.proc np).state = .UNUSED) {pid : Word}
    {num : ℕ} : Family (s.modify np fun r =>
      { r with state := .EMBRYO, pid := pid, num := num, marked := false }) := by
  have hgone := hi.threads.thread_ne (hi.threads.dormant (Or.inl hu))
  have hdead : ¬ Alive (s.proc np).state := fun ha => ha.ne.1 hu
  refine h.record hi hgone ?_ rfl (fun r hr => Or.inl hr) (fun q b _ hq => hq) (by simp) ?_
  · exact h.kin.unborn hdead (Or.inr rfl) fun r hr => h.kin.alive np r hr
  · exact fun hw => absurd hw.1 (by simp)

theorem Family.unalloc (h : Family s) (hi : Inv s) (he : (s.proc np).state = .EMBRYO) :
    Family (s.modify np fun r => { r with state := .UNUSED }) := by
  have hgone := hi.threads.thread_ne (hi.threads.dormant (Or.inr he))
  have hdead : ¬ Alive (s.proc np).state := fun ha => ha.ne.2.1 he
  refine h.record hi hgone ?_ rfl (fun r hr => Or.inl hr) (fun q b _ hq => hq) (by simp) ?_
  · exact h.kin.unborn hdead (Or.inl rfl) fun r hr => h.kin.alive np r hr
  · exact fun hw => absurd hw.1 (by simp)

theorem Family.reap (h : Family s) (hi : Inv s) (hz : (s.proc q).state = .ZOMBIE)
    (hgone : ∀ c, (s.cpu c).thread ≠ some q) : Family (s.modify q Proc.reap) := by
  have hdead : ¬ Alive (s.proc q).state := fun ha => ha.ne.2.2 hz
  refine h.record hi hgone ?_ rfl (fun r hr => ?_) (fun p b hb _ => ?_) ?_ ?_
  · exact h.kin.unborn hdead (Or.inl rfl) fun r hr => absurd hr (by simp [Proc.reap])
  · exact absurd hr (by simp [Proc.reap])
  · exact absurd hb (hi.threads.not_embryo (by simp [hz]) p b)
  · simp [Proc.reap]
  · exact fun hw => absurd hw.1 (by simp [Proc.reap])

theorem Family.inherit (h : Family s) (hi : Inv s) (hp : (s.cpu c).thread = some p)
    (hto : (s.proc p).todo = .inherit np :: rest) :
    Family (s.modify np fun r => { r with parent := some p, ret := 0 }) := by
  have hold : phase (s.proc p).todo ≠ .leaving := by simp [hto, phase]
  have hc : child (s.proc p).todo = some (np, true) := by rw [hto]; rfl
  obtain ⟨he, hne, hgone, -⟩ := hi.child_of hp hold hc
  have hrun := hi.threads.running hp hold
  have hdead : ¬ Alive (s.proc np).state := fun ha => ha.ne.2.1 he
  refine h.record hi (hi.threads.thread_ne hgone) ?_ rfl (fun r hr => Or.inr ?_)
    (fun q b hb _ => ?_) (by simp [he]) ?_
  · refine h.kin.unborn hdead (Or.inr he) fun r hr => ?_
    obtain rfl := Option.some.inj hr
    exact ⟨hne, alive_of_running hrun⟩
  · obtain rfl := Option.some.inj hr
    rw [hto]
    trivial
  · exact congrArg some (hi.threads.forker p q np true b hc hb)
  · exact fun hw => absurd (he.symm.trans hw.1) (by decide)

theorem Family.runnable (h : Family s) (hi : Inv s) (hp : (s.cpu c).thread = some p)
    (hto : (s.proc p).todo = .runnable np :: rest) :
    Family (s.modify np fun r => { r with state := .RUNNABLE }) := by
  have hold : phase (s.proc p).todo ≠ .leaving := by simp [hto, phase]
  have hc : child (s.proc p).todo = some (np, true) := by rw [hto]; rfl
  obtain ⟨he, -, hgone, -⟩ := hi.child_of hp hold hc
  obtain ⟨-, hwf, hnone⟩ := hto ▸ hi.threads.wf p
  -- the parent has been set: no `inherit` is left to do
  have hparent : (s.proc np).parent = some p := by
    refine (h.code.fork p np (by simp [hto])).resolve_left fun hin => ?_
    rw [hto] at hin
    obtain ⟨b, hb⟩ := fork_child hwf ((List.mem_cons.mp hin).resolve_left (by simp)) (Or.inr rfl)
    exact absurd (hnone.symm.trans hb) (by simp)
  have hself : (s.modify np fun r => { r with state := .RUNNABLE }).proc np =
      { s.proc np with state := .RUNNABLE } := modify_self
  refine h.record hi (hi.threads.thread_ne hgone) ?_ rfl (fun r hr => Or.inl hr)
    (fun q b _ hq => hq) (by simp) fun hw => absurd hw.1 (by simp)
  refine h.kin.change (fun q (hq : q ≠ np) => modify_of_ne hq) ?_ ?_ ?_ ?_ ?_
  · rintro rfl
    exact absurd he h.kin.root.1.ne.2.1
  · rw [hself]
    exact Or.inr (Or.inr (Or.inr (by simp [hparent])))
  · intro r hr
    rw [hself] at hr ⊢
    obtain ⟨hne, ha⟩ := h.kin.alive np r hr
    exact ⟨hne, ha, fun hz => absurd hz (by simp)⟩
  · rw [hself]
    exact Or.inl (Or.inr (Or.inl rfl))
  · intro hw
    rw [hself] at hw
    exact absurd hw.1 (by simp)

/-- `p->state = ...` before `swtch`: a yield, going to sleep, or the end. -/
theorem Family.setState (h : Family s) (hi : Inv s) (hp : (s.cpu c).thread = some p)
    {st : ProcState} (hto : (s.proc p).todo = .setState st :: rest) :
    Family (s.modify p fun r => { r with state := st, todo := rest }) := by
  have hph : phase (s.proc p).todo = .held := by rw [hto]; rfl
  have hrun := hi.threads.running hp (by simp [hph])
  have halive := alive_of_running hrun
  have hduty := h.code.duty c p hp
  obtain ⟨hplain, hshape⟩ := hto ▸ h.code.shape p
  have hself : (s.modify p fun r => { r with state := st, todo := rest }).proc p =
      { s.proc p with state := st, todo := rest } := modify_self
  have hready : Ready (s.modify p fun r => { r with state := st, todo := rest }) p := by
    refine h.tail_ready hto hplain (by simp) (by rw [hself]) fun np => ?_
    rcases eq_or_ne np p with rfl | hne
    · rw [hself]
    · rw [modify_of_ne hne]
  have hcode : Code (s.modify p fun r => { r with state := st, todo := rest }) := by
    refine h.code.move fun q => ?_
    rcases eq_or_ne q p with rfl | hne
    · exact Or.inr hready
    · refine Or.inl ⟨by rw [modify_of_ne hne], fun _ => Iff.rfl, fun np _ hnp => ?_, ?_⟩
      · rcases eq_or_ne np p with rfl | hnp'
        · rw [hself]
          exact hnp
        · rwa [modify_of_ne hnp']
      · rintro ⟨d, hd⟩ -
        refine .of_plain ?_
        rw [modify_of_ne hne]
        exact hi.others_plain hp (by simp [hph]) hd hne
  refine ⟨?_, hcode⟩
  have hst : st = .ZOMBIE ∨ Alive st := by
    obtain ⟨-, -, ⟨hz, -⟩ | ⟨hr | hs, -⟩⟩ := hto ▸ hi.threads.wf p
    · exact Or.inl hz
    · exact Or.inr (Or.inr (Or.inl hr))
    · exact Or.inr (Or.inl hs)
  refine h.kin.change (fun q (hq : q ≠ p) => modify_of_ne hq) ?_ ?_ ?_ ?_ ?_
  · rintro rfl
    rw [hself]
    refine ⟨hst.resolve_left ?_, h.kin.root.2⟩
    rintro rfl
    exact (hduty.exit rest hto).1 rfl
  · rw [hself]
    by_cases hroot : p = initproc
    · exact Or.inl hroot
    · exact Or.inr (Or.inr (Or.inr (h.kin.parent p hroot halive.ne.1 halive.ne.2.1)))
  · intro r hr
    rw [hself] at hr ⊢
    obtain ⟨hne, ha⟩ := h.kin.alive p r hr
    refine ⟨hne, ha, ?_⟩
    rintro rfl
    exact hduty.parent rest (Or.inr hto) r hr
  · rw [hself]
    rcases hst with rfl | ha
    · exact Or.inr (hduty.exit rest hto).2
    · exact Or.inl ha
  · intro hw
    rw [hself] at hw
    obtain ⟨rfl, hchan⟩ := hw
    exact hduty.wait rest (Or.inr ⟨hto, hchan⟩)

/-- `exit` passes its children on; from then on it has none. -/
theorem Family.abandon (h : Family s) (hi : Inv s) (hp : (s.cpu c).thread = some p)
    (hto : (s.proc p).todo = .abandon :: rest) :
    Family (Sys.modify { s with proc := abandonTable p s.proc } p
      fun r => { r with todo := rest }) := by
  have hph : phase (s.proc p).todo = .held := by rw [hto]; rfl
  have hduty := h.code.duty c p hp
  obtain ⟨⟨hroot, hrest⟩, hshape⟩ := hto ▸ h.code.shape p
  have hsoft := soft_abandonTable p s.proc
  have hwait : ∀ q, Waiting q (abandonTable p s.proc q) → Waiting q (s.proc q) := by
    intro q hw
    have horphan : Waiting q (orphans p s.proc q) → Waiting q (s.proc q) := by
      unfold Waiting
      rw [orphans_state, orphans_chan]
      exact id
    unfold abandonTable at hw
    split at hw
    · exact horphan ((tame_wakeTable _ _ q).waiting hw)
    · exact horphan hw
  have hparent : ∀ q, (abandonTable p s.proc q).parent = (orphans p s.proc q).parent := by
    intro q
    unfold abandonTable
    split
    · exact (tame_wakeTable _ _ q).parent
    · rfl
  set t := Sys.modify { s with proc := abandonTable p s.proc } p fun r => { r with todo := rest }
    with ht
  have htp : t.proc p = { abandonTable p s.proc p with todo := rest } := modify_self
  have htq : ∀ q, q ≠ p → t.proc q = abandonTable p s.proc q := fun q hq => modify_of_ne hq
  have hpar : ∀ q, (t.proc q).parent = (orphans p s.proc q).parent := by
    intro q
    rcases eq_or_ne q p with rfl | hne
    · rw [htp]
      exact hparent q
    · rw [htq q hne]
      exact hparent q
  have hw : ∀ q, Waiting q (t.proc q) → Waiting q (s.proc q) := by
    intro q hq
    rcases eq_or_ne q p with rfl | hne
    · rw [htp] at hq
      exact hwait q hq
    · rw [htq q hne] at hq
      exact hwait q hq
  refine ⟨?_, h.code.move fun q => ?_⟩
  · refine (h.kin.abandon (p := p)).tame fun q => ?_
    rcases eq_or_ne q p with rfl | hne
    · rw [htp]
      exact ⟨rfl, Or.inl rfl, id⟩
    · rw [htq q hne]
      exact .rfl' q _
  · rcases eq_or_ne q p with rfl | hne
    · refine Or.inr ⟨?_, fun np hin => ?_, Or.inr ⟨⟨c, hp⟩, ?_, ?_, ?_⟩⟩
      · rw [htp]
        exact hshape
      · rw [htp, hrest] at hin
        simp at hin
      · refine fun _ _ => ⟨hroot, fun x hx => ?_⟩
        rw [hpar] at hx
        rcases orphans_parent hx with ⟨hne, -⟩ | ⟨he, -⟩
        · exact hne rfl
        · exact hroot he
      · intro l hl
        rw [htp, hrest] at hl
        simp at hl
      · intro l _ r hr hwr
        rw [hpar] at hr
        rcases orphans_parent hr with ⟨-, hr'⟩ | ⟨-, hr'⟩
        · exact hduty.parent rest (Or.inl hto) r hr' (hw r hwr)
        · exact absurd rfl (h.kin.alive q q hr').1
    · refine Or.inl ⟨?_, fun _ => Iff.rfl, fun np _ hnp => ?_, ?_⟩
      · rw [htq q hne]
        exact (hsoft q).1
      · rw [hpar]
        unfold orphans
        rw [if_neg]
        · exact hnp
        · rw [hnp]
          exact fun he => hne (Option.some.inj he)
      · rintro ⟨d, hd⟩ -
        refine .of_plain ?_
        rw [htq q hne, (hsoft q).1]
        exact hi.others_plain hp (by simp [hph]) hd hne

/-- `wakeup1(curproc->parent)`: the parent does not sleep in `wait` any more. -/
theorem Family.wakeParent (h : Family s) (hp : (s.cpu c).thread = some p) {r : Slot}
    (hr : (s.proc p).parent = some r) (hto : (s.proc p).todo = .wakeParent :: rest) :
    Family (Sys.modify { s with proc := wakeTable (.proc r) s.proc } p
      fun r => { r with todo := rest }) := by
  have htame := tame_wakeTable (.proc r) s.proc
  have hsoft := soft_wakeTable (.proc r) s.proc
  have hchan : ∀ q, (wakeTable (.proc r) s.proc q).chan = (s.proc q).chan := fun q => by
    obtain ⟨st, he⟩ := wakeTable_eq (.proc r) s.proc q
    rw [he]
  obtain ⟨⟨hroot, hrest⟩, hshape⟩ := hto ▸ h.code.shape p
  have hw : Family { s with proc := wakeTable (.proc r) s.proc } :=
    h.table htame (fun q => (hsoft q).1) hchan
  refine hw.self ⟨rfl, Or.inl rfl, id⟩ ⟨?_, fun np hin => ?_, Or.inr ⟨⟨c, hp⟩, ?_, ?_, ?_⟩⟩
  · rw [modify_self]
    exact hshape
  · rw [modify_self, hrest] at hin
    simp at hin
  · intro l hl
    rw [modify_self, hrest] at hl
    simp at hl
  · intro l hl
    rw [modify_self, hrest] at hl
    simp at hl
  · intro l _ x hx hwx
    rw [modify_self] at hx
    have hx' : (s.proc p).parent = some x := (htame p).parent ▸ hx
    obtain rfl : r = x := Option.some.inj (hr.symm.trans hx')
    have hne := (h.kin.alive p r hr).1
    rw [modify_of_ne hne] at hwx
    exact not_waiting_wakeTable r s.proc hwx

theorem Family.setChan (h : Family s) (hi : Inv s) (hp : (s.cpu c).thread = some p) {ch : Chan}
    (hto : (s.proc p).todo = .setChan ch :: rest) :
    Family (s.modify p fun r => { r with chan := some ch, todo := rest }) := by
  have hrun := hi.threads.running hp (by simp [hto, phase])
  have hduty := h.code.duty c p hp
  obtain ⟨⟨hown, l, hrest⟩, hshape⟩ := hto ▸ h.code.shape p
  refine h.self ⟨rfl, Or.inl rfl, fun hw => ?_⟩
    ⟨?_, fun np hin => ?_, Or.inr ⟨⟨c, hp⟩, ?_, ?_, ?_⟩⟩
  · exact absurd (hrun.symm.trans hw.1) (by decide)
  · rw [modify_self]
    exact hshape
  · rw [modify_self] at hin ⊢
    have := h.code.fork p np (hto ▸ List.mem_cons_of_mem _ hin)
    rw [hto] at this
    refine this.imp (fun h' => (List.mem_cons.mp h').resolve_left (by simp)) fun hnp => ?_
    rcases eq_or_ne np p with rfl | hne
    · rw [modify_self]
      exact hnp
    · rwa [modify_of_ne hne]
  · intro l' hl
    rw [modify_self] at hl
    simp [hrest] at hl
  · intro l' hl q hq
    rw [modify_self] at hl
    obtain ⟨-, hch⟩ : l = l' ∧ ch = .proc p := by simpa [hrest] using hl
    have hkids := hduty.wait rest (Or.inl (hch ▸ hto)) q
    rcases eq_or_ne q p with rfl | hne
    · rw [modify_self] at hq ⊢
      exact hkids hq
    · rw [modify_of_ne hne] at hq ⊢
      exact hkids hq
  · intro l' hl
    rw [modify_self] at hl
    simp [hrest] at hl

theorem deadChild_none {tbl : Slot → Proc} (h : deadChild tbl p = none)
    (hq : (tbl q).parent = some p) : (tbl q).state ≠ .ZOMBIE := by
  have := List.find?_eq_none.mp h q (by simp [children, hq])
  simpa using this

/-- A thread that leaves the code of its call for a `release` and the end. -/
theorem Family.leave {v : Word} (h : Family s) :
    Family (s.modify p fun r => { r with ret := v, todo := [.release .ptable] }) :=
  h.fresh rfl ⟨rfl, Or.inl rfl, id⟩ ⟨trivial, trivial⟩ trivial (by simp)

theorem Family.waitLoop {ok : Bool} (h : Family s) (hi : Inv s) (hp : (s.cpu c).thread = some p)
    (hto : (s.proc p).todo = .waitLoop :: rest) [DecidableEq κ]
    (ht : s.procStmt c p ok rest .waitLoop = some t) : Family t := by
  have hph : phase (s.proc p).todo = .held := by rw [hto]; rfl
  simp only [Sys.procStmt] at ht
  split at ht
  · rename_i q hq
    obtain rfl := Option.some.inj ht
    have hz := (deadChild_some hq).2
    have hreap := h.reap hi hz (hi.threads.thread_ne (hi.zombie_gone hp hph hz))
    exact Family.leave (s := (s.modify q Proc.reap).note _) (hreap.congr rfl fun _ => rfl)
  · rename_i hnone
    split at ht
    · obtain rfl := Option.some.inj ht
      exact h.leave
    · obtain rfl := Option.some.inj ht
      refine h.self ⟨rfl, Or.inl rfl, id⟩
        ⟨?_, fun np hin => ?_, Or.inr ⟨⟨c, hp⟩, ?_, ?_, ?_⟩⟩
      · rw [modify_self]
        exact ⟨⟨fun q hq => (Chan.proc.inj hq).symm, _, rfl⟩, trivial, trivial, trivial, trivial,
          trivial⟩
      · rw [modify_self] at hin
        simp [sleepInWait] at hin
      · intro l hl
        rw [modify_self] at hl
        simp [sleepInWait] at hl
      · intro l _ q hq
        rcases eq_or_ne q p with rfl | hne
        · rw [modify_self] at hq ⊢
          exact deadChild_none hnone hq
        · rw [modify_of_ne hne] at hq ⊢
          exact deadChild_none hnone hq
      · intro l hl
        rw [modify_self] at hl
        simp [sleepInWait] at hl

theorem Family.allocproc {ok : Bool} (h : Family s) (hi : Inv s) (hp : (s.cpu c).thread = some p)
    [DecidableEq κ] (ht : s.procStmt c p ok rest .allocproc = some t) : Family t := by
  simp only [Sys.procStmt] at ht
  split at ht
  · rename_i np hnp
    obtain rfl := Option.some.inj ht
    have hu : (s.proc np).state = .UNUSED := by simpa using List.find?_some hnp
    have halloc : Family { s.modify np fun r =>
        { r with state := .EMBRYO, pid := s.nextpid, num := s.born, marked := false } with
        nextpid := s.nextpid + 1, born := s.born + 1 } :=
      (h.alloc hi hu).congr rfl fun _ => rfl
    rw [goto_some (p := p) (by exact hp)]
    refine halloc.self ⟨rfl, Or.inl rfl, id⟩ ⟨?_, fun x hin => Or.inl ?_, Or.inl ?_⟩
    · rw [modify_self]
      simp [forkInto, Shape, Follows, Plain]
    · rw [modify_self] at hin ⊢
      simpa [forkInto] using hin
    · rw [modify_self]
      trivial
  · obtain rfl := Option.some.inj ht
    exact h.leave

theorem Family.kstack {ok : Bool} (h : Family s) (hp : (s.cpu c).thread = some p) [DecidableEq κ]
    (hi : Inv s) (hto : (s.proc p).todo = .kstack np :: rest)
    (ht : s.procStmt c p ok rest (.kstack np) = some t) : Family t := by
  obtain ⟨hrest, -⟩ := hto ▸ h.code.shape p
  have hplain : Plain rest := hrest ▸ trivial
  obtain ⟨-, hne, -, -⟩ := hi.child_of (b := false) hp (by simp [hto, phase]) (by rw [hto]; rfl)
  simp only [Sys.procStmt] at ht
  split at ht
  · obtain rfl := Option.some.inj ht
    have hset : Family (s.modify np fun r => { r with todo := forkret, call := none }) :=
      h.fresh rfl ⟨rfl, Or.inl rfl, id⟩ ⟨trivial, trivial⟩ trivial (by simp [forkret])
    rw [goto_some (p := p) (by exact hp)]
    refine hset.tail (?_ : _ = Stmt.kstack np :: _) hplain (by simp) rfl ⟨rfl, Or.inl rfl, id⟩
    rwa [modify_of_ne hne]
  · obtain rfl := Option.some.inj ht
    rw [goto_some hp]
    exact h.fresh rfl ⟨rfl, Or.inl rfl, id⟩ ⟨trivial, trivial⟩ trivial (by simp)

variable [DecidableEq κ]

theorem relock_thread {lk : Lock} {o : Option κ} {n : ℕ} (d : κ) :
    ((s.relock c lk o n).cpu d).thread = (s.cpu d).thread := by
  rcases eq_or_ne d c with rfl | hd
  · simp [Sys.relock]
  · simp [Sys.relock, hd]

theorem Family.acquire {lk : Lock} (h : Family s) (ht : s.acquire c lk = some t) : Family t := by
  obtain ⟨-, ht⟩ := Option.ite_none_right_eq_some.mp ht
  exact Option.some.inj ht ▸ h.congr rfl relock_thread

theorem Family.release {lk : Lock} (h : Family s) (ht : s.release c lk = some t) : Family t := by
  obtain ⟨-, ht⟩ := Option.ite_none_right_eq_some.mp ht
  exact Option.some.inj ht ▸ h.congr rfl relock_thread

/-- A statement that leaves the table as it is. -/
theorem Family.goto (h : Family s) (hp : (s.cpu c).thread = some p)
    (hto : (s.proc p).todo = st :: rest) (hplain : Plain rest) (hst : ∀ np, st ≠ .inherit np) :
    Family (s.goto c rest) := by
  rw [goto_some hp]
  exact h.tail hto hplain hst rfl ⟨rfl, Or.inl rfl, id⟩

/-- The scheduler goes on. -/
theorem Family.schedule {l : List Stmt} (h : Family s) (hc : (s.cpu c).thread = none) :
    Family (s.goto c l) := by
  refine h.congr ?_ fun d => goto_thread
  rw [goto_none hc]
  rfl

omit [DecidableEq κ] in
theorem Family.wakeup1 {ch : Chan} (h : Family s) :
    Family { s with proc := wakeTable ch s.proc } := by
  refine h.table (tame_wakeTable ch s.proc) (fun q => (soft_wakeTable ch s.proc q).1) fun q => ?_
  obtain ⟨st, he⟩ := wakeTable_eq ch s.proc q
  rw [he]

/-- The thread leaves the processor with plain statements to come back to. -/
theorem Family.swtch (h : Family s) (hp : (s.cpu c).thread = some p)
    (hto : (s.proc p).todo = .swtch :: rest) :
    Family ((s.goto c rest).onCpu c fun k => { k with thread := none }) := by
  have hgo := h.goto hp hto (hto ▸ h.code.shape p).1 (by simp)
  have hthread : ∀ d, d ≠ c → (((s.goto c rest).onCpu c fun k =>
      { k with thread := none }).cpu d).thread = ((s.goto c rest).cpu d).thread := fun d hd => by
    simp [Sys.onCpu, hd]
  have hself : (((s.goto c rest).onCpu c fun k => { k with thread := none }).cpu c).thread =
      none := by simp [Sys.onCpu]
  have htodo : ((s.goto c rest).proc p).todo = rest := by simp [goto_some hp]
  refine ⟨hgo.kin, hgo.code.move fun q => ?_⟩
  rcases eq_or_ne q p with rfl | hne
  · refine Or.inr ⟨hgo.code.shape q, hgo.code.fork q, Or.inl ?_⟩
    exact htodo.symm ▸ (hto ▸ h.code.shape q).1
  · refine Or.inl (.tame (fun x => .rfl' x _) rfl rfl fun d => ?_)
    rcases eq_or_ne d c with rfl | hd
    · rw [hself, goto_thread, hp]
      simp [hne.symm]
    · rw [hthread d hd]

/-- `fork` enters the parent, and goes on to make the process `RUNNABLE`. -/
theorem Family.inherits (h : Family s) (hi : Inv s) (hp : (s.cpu c).thread = some p)
    (hto : (s.proc p).todo = .inherit np :: rest) :
    Family ((s.modify np fun r => { r with parent := some p, ret := 0 }).goto c rest) := by
  have hplain : Plain rest := (hto ▸ h.code.shape p).1
  obtain ⟨-, hne, -, -⟩ := hi.child_of (b := true) hp (by simp [hto, phase]) (by rw [hto]; rfl)
  obtain ⟨-, hwf, hchild⟩ := hto ▸ hi.threads.wf p
  rw [goto_some (p := p) (by exact hp)]
  refine (h.inherit hi hp hto).self ⟨rfl, Or.inl rfl, id⟩ ⟨?_, fun x hin => Or.inr ?_, Or.inl ?_⟩
  · rw [modify_self]
    exact (hto ▸ h.code.shape p).2
  · rw [modify_self] at hin
    obtain ⟨b, hb⟩ := fork_child hwf hin (Or.inl rfl)
    obtain ⟨rfl, -⟩ := Prod.mk.inj (Option.some.inj (hchild.symm.trans hb))
    rw [modify_of_ne hne.symm, modify_self]
  · rwa [modify_self]

/-- Every statement of a process keeps the relations. -/
theorem family_procStmt {ok : Bool} (hi : Inv s) (h : Family s) (hp : (s.cpu c).thread = some p)
    (hto : (s.proc p).todo = st :: rest) (ht : s.procStmt c p ok rest st = some t) :
    Family t := by
  have hrun : phase (s.proc p).todo ≠ .leaving → (s.proc p).state = .RUNNING :=
    hi.threads.running hp
  have hshape := hto ▸ h.code.shape p
  cases st with
  | acquire lk => exact (h.goto hp hto hshape.1 (by simp)).acquire ht
  | release lk => exact (h.goto hp hto hshape.1 (by simp)).release ht
  | setChan ch =>
    obtain rfl := Option.some.inj ht
    exact h.setChan hi hp hto
  | setState st =>
    obtain rfl := Option.some.inj ht
    have hset := h.setState hi hp hto
    split
    · exact hset.congr rfl fun _ => rfl
    · exact hset
  | swtch =>
    obtain ⟨-, ht⟩ := Option.ite_none_right_eq_some.mp ht
    obtain rfl := Option.some.inj ht
    exact h.swtch hp hto
  | clearChan =>
    obtain rfl := Option.some.inj ht
    have hr := hrun (by simp [hto, phase])
    refine h.tail hto hshape.1 (by simp) rfl ⟨rfl, Or.inl rfl, fun hw => ?_⟩
    exact absurd (hr.symm.trans hw.1) (by decide)
  | wakeup1 ch =>
    obtain rfl := Option.some.inj ht
    exact h.wakeup1.goto hp ((soft_wakeTable ch s.proc p).1.trans hto) hshape.1 (by simp)
  | kill pid =>
    obtain rfl := Option.some.inj ht
    have hsame : ∀ q, (mark pid (killTable s.proc pid).2 q).parent = (s.proc q).parent ∧
        (mark pid (killTable s.proc pid).2 q).chan = (s.proc q).chan := fun q => by
      obtain ⟨st, k, m, he⟩ := kill_eq pid s.proc q
      rw [he]
      exact ⟨rfl, rfl⟩
    have hsoft := soft_killTable pid s.proc
    have htable : Family { s with proc := mark pid (killTable s.proc pid).2 } :=
      h.table (fun q => (hsoft q).tame (hsame q).1 (hsame q).2) (fun q => (hsoft q).1)
        fun q => (hsame q).2
    exact htable.tail ((hsoft p).1.trans hto) hshape.1 (by simp) rfl
      ⟨rfl, Or.inl rfl, id⟩
  | fault =>
    obtain rfl := Option.some.inj ht
    exact h.tail hto hshape.1 (by simp) rfl ⟨rfl, Or.inl rfl, id⟩
  | wakeParent =>
    simp only [Sys.procStmt] at ht
    split at ht
    · rename_i r hr
      obtain rfl := Option.some.inj ht
      rw [goto_some (p := p) (by exact hp)]
      exact h.wakeParent hp hr hto
    · rename_i hnone
      have ha := alive_of_running (hrun (by simp [hto, phase]))
      exact absurd hnone (h.kin.parent p hshape.1.1 ha.ne.1 ha.ne.2.1)
  | abandon =>
    obtain rfl := Option.some.inj ht
    rw [goto_some (p := p) (by exact hp)]
    exact h.abandon hi hp hto
  | waitLoop => exact h.waitLoop hi hp hto ht
  | allocproc => exact h.allocproc hi hp ht
  | kstack np => exact h.kstack hp hi hto ht
  | unalloc np =>
    obtain rfl := Option.some.inj ht
    obtain ⟨he, hne, -, -⟩ := hi.child_of (b := false) hp (by simp [hto, phase])
      (by rw [hto]; rfl)
    refine (h.unalloc hi he).tail (?_ : _ = Stmt.unalloc np :: _) hshape.1 (by simp) rfl
      ⟨rfl, Or.inl rfl, id⟩
    rwa [modify_of_ne hne]
  | copyuvm np =>
    obtain rfl := Option.some.inj ht
    cases ok with
    | true => exact h.goto hp hto (hshape.1 ▸ trivial) (by simp)
    | false =>
      rw [goto_some hp]
      exact h.fresh rfl ⟨rfl, Or.inl rfl, id⟩ ⟨trivial, trivial⟩ trivial (by simp)
  | inherit np =>
    obtain rfl := Option.some.inj ht
    exact h.inherits hi hp hto
  | runnable np =>
    obtain rfl := Option.some.inj ht
    obtain ⟨-, hne, -, -⟩ := hi.child_of (b := true) hp (by simp [hto, phase])
      (by rw [hto]; rfl)
    have hborn : Family ((s.modify np fun r => { r with state := .RUNNABLE }).note
        (.forked (s.proc np).num)) := (h.runnable hi hp hto).congr rfl fun _ => rfl
    refine hborn.tail (?_ : _ = Stmt.runnable np :: _) hshape.1 (by simp) rfl ⟨rfl, Or.inl rfl, id⟩
    exact (congrArg Proc.todo (modify_of_ne (f := fun r => { r with state := .RUNNABLE })
      hne)).trans hto
  | scan | back => exact absurd ht (by simp [Sys.procStmt])

/-- `scheduler` switches to a process that has plain statements to come back to. -/
theorem Family.dispatch (hi : Inv s) (h : Family s) (hc : (s.cpu c).thread = none) {i : ℕ}
    (hto : (s.cpu c).todo = .scan i :: rest) (hr : (s.proc p).state = .RUNNABLE) :
    Family ((s.modify p fun r => { r with state := .RUNNING }).onCpu c fun k =>
      { k with proc := some p, thread := some p, cr3 := some p, todo := [.back p] }) := by
  have hplain := h.code.off p (hi.threads.thread_ne (hi.runnable_gone hc hto hr))
  have hset : Family (s.modify p fun r => { r with state := .RUNNING }) := by
    refine h.self ⟨rfl, Or.inr ⟨?_, alive_of_running rfl⟩, fun hw => absurd hw.1 (by simp)⟩
      ⟨?_, fun np hin => ?_, Or.inl ?_⟩
    · exact Or.inr (Or.inl hr)
    · rw [modify_self]
      exact h.code.shape p
    · rw [modify_self] at hin ⊢
      refine (h.code.fork p np hin).imp_right fun hnp => ?_
      rcases eq_or_ne np p with rfl | hne
      · rwa [modify_self]
      · rwa [modify_of_ne hne]
    · rwa [modify_self]
  refine ⟨hset.kin, hset.code.move fun q => ?_⟩
  rcases eq_or_ne q p with rfl | hne
  · refine Or.inr ⟨hset.code.shape q, hset.code.fork q, Or.inl ?_⟩
    simpa [Sys.onCpu] using hplain
  · refine Or.inl (.tame (fun x => .rfl' x _) rfl rfl fun d => ?_)
    rcases eq_or_ne d c with rfl | hd
    · simp [Sys.onCpu, hc, hne.symm]
    · simp [Sys.onCpu, hd]

theorem family_schedStmt (hi : Inv s) (h : Family s) (hc : (s.cpu c).thread = none)
    (hto : (s.cpu c).todo = st :: rest) (ht : s.schedStmt c rest st = some t) : Family t := by
  cases st with
  | acquire lk => exact (h.schedule hc).acquire ht
  | release lk => exact (h.schedule hc).release ht
  | wakeup1 ch =>
    obtain rfl := Option.some.inj ht
    exact h.wakeup1.schedule hc
  | scan i =>
    simp only [Sys.schedStmt] at ht
    split at ht
    · split at ht
      · rename_i hr
        obtain rfl := Option.some.inj ht
        exact Family.dispatch hi h hc hto hr
      · obtain rfl := Option.some.inj ht
        exact h.schedule hc
    · obtain rfl := Option.some.inj ht
      exact h.schedule hc
  | back p =>
    obtain rfl := Option.some.inj ht
    refine h.congr rfl fun d => ?_
    rcases eq_or_ne d c with rfl | hd
    · simp [Sys.onCpu]
    · simp [Sys.onCpu, hd]
  | setChan | setState | swtch | clearChan | kill | fault | wakeParent | abandon | waitLoop
  | allocproc | kstack | unalloc | copyuvm | inherit | runnable =>
    exact absurd ht (by simp [Sys.schedStmt])

/-- A handler goes in front of what a thread executes. -/
theorem Family.intr (h : Family s) (hi : Inv s) (hncli : (s.cpu c).ncli = 0) (i : Handler) :
    Family (s.goto c (i.code ++ s.todo c)) := by
  have hfree := hi.intr_free hncli
  cases hc : (s.cpu c).thread with
  | none => exact h.schedule hc
  | some p =>
    rw [todo_some hc] at hfree ⊢
    obtain ⟨hshape, hplain⟩ := handler_shape i (h.code.shape p) hfree
    have hnot : ∀ np, .runnable np ∉ i.code := fun np => by
      cases i <;> simp [Handler.code]
    rw [goto_some hc]
    refine h.self ⟨rfl, Or.inl rfl, id⟩ ⟨?_, fun np hin => ?_, Or.inl ?_⟩
    · rwa [modify_self]
    · rw [modify_self] at hin ⊢
      refine (h.code.fork p np ((List.mem_append.mp hin).resolve_left (hnot np))).imp
        (fun h' => List.mem_append_right _ h') fun hnp => ?_
      rcases eq_or_ne np p with rfl | hne
      · rw [modify_self]
        exact hnp
      · rwa [modify_of_ne hne]
    · rwa [modify_self]

theorem family_step {a : Act κ} (hi : Inv s) (h : Family s) (hst : s.Step a t) : Family t := by
  cases stepped hst with
  | proc hp hto ht => exact family_procStmt hi h hp hto ht
  | sched hc hto ht => exact family_schedStmt hi h hc hto ht
  | @call c p f hp _ hexit ht =>
    subst ht
    refine h.fresh rfl ⟨rfl, Or.inl rfl, id⟩ (code_shape hexit) (plain_of_free call_free) fun np => ?_
    cases f <;> simp [Call.code]
  | intr hncli ht => exact ht ▸ h.intr hi hncli _

end Statements

theorem family_boot : Family (Sys.boot : Sys κ) := by
  have hparent : ∀ q, ((Sys.boot : Sys κ).proc q).parent = none := fun q => by
    rcases eq_or_ne q initproc with rfl | hne
    · simp [Sys.boot, Sys.zero]
    · simp [Sys.boot, hne, Sys.zero]
  have hto : ∀ q, ((Sys.boot : Sys κ).proc q).todo = [] ∨
      ((Sys.boot : Sys κ).proc q).todo = forkret := fun q => by
    rcases eq_or_ne q initproc with rfl | hne
    · exact Or.inr (by simp [Sys.boot])
    · exact Or.inl (by simp [Sys.boot, hne, Sys.zero])
  have hplain : ∀ q, Plain ((Sys.boot : Sys κ).proc q).todo := fun q => by
    rcases hto q with he | he <;> rw [he] <;> trivial
  refine ⟨⟨⟨?_, hparent _⟩, fun q hq hu => ?_, fun q r hr => ?_, fun p q _ hq => ?_⟩, ?_⟩
  · exact Or.inr (Or.inl (by simp [Sys.boot]))
  · exact absurd (by simp [Sys.boot, hq, Sys.zero]) hu
  · rw [hparent] at hr
    exact absurd hr (by simp)
  · rw [hparent] at hq
    exact absurd hq (by simp)
  · refine ⟨fun q => ?_, fun q _ => hplain q, fun q np hin => ?_, fun _ q _ => .of_plain (hplain q)⟩
    · rcases hto q with he | he
      · rw [he]
        trivial
      · rw [he]
        exact ⟨trivial, trivial⟩
    · rcases hto q with he | he <;> simp [he, forkret] at hin

end Xv6.Sched
