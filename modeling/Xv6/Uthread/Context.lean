import Xv6.Schemes.Flat
import Xv6.Uthread.Table

/-! @src uthread_switch.S uthread1.c | name:The context of a thread | layer:model,proof

    Threads that call `thread_switch`, on one memory. The running thread does what it likes with its
    registers and its own stack; the stack pointers of the others, their stacks and `current_thread`
    are not its to change. What a thread has left when it called `thread_switch` is recorded, and read
    by no step. -/

namespace Xv6.Uthread.Context

open Xv6.Schemes Xv6.Schemes.Bytes Xv6.Schemes.X86

variable {ι : Type}

/-- What belongs to threads: their `sp`, `state` and stack, and the two variables. -/
inductive Region (ι : Type) where
  | sp (t : ι)
  | state (t : ι)
  | stack (t : ι)
  | current
  | next

/-- Where the threads and their stacks are. -/
structure Places (ι : Type) where
  layout : Layout
  thread : ι → Word
  bottom : ι → Word
  size : ι → ℕ

namespace Places

def base (T : Places ι) : Region ι → Word
  | .sp t => T.thread t
  | .state t => stateOf (T.thread t)
  | .stack t => T.bottom t
  | .current => T.layout.current_thread
  | .next => T.layout.next_thread

def length (T : Places ι) : Region ι → ℕ
  | .stack t => T.size t
  | _ => 4

/-- The address is in the region. -/
def In (T : Places ι) (r : Region ι) (x : Word) : Prop := Within (T.base r) (T.length r) x

/-- The top of a stack. -/
def top (T : Places ι) (t : ι) : Word := T.bottom t + BitVec.ofNat 32 (T.size t)

end Places

/-- Nothing overlaps. -/
structure Threads (ι : Type) extends Places ι where
  apart : ∀ r r', r ≠ r' → ∀ x, ¬ (toPlaces.In r x ∧ toPlaces.In r' x)

/-- How a thread goes on: after its call of `thread_switch`, made in the state `m` with this return
    address, or at the start of its function. -/
inductive Ctx where
  | called (m : Flat Loc) (ra : Word)
  | fresh (func : Word)

/-- The machine, the thread that runs, and what the others have left. -/
structure Sys (ι : Type) where
  m : Flat Loc
  running : ι
  ctx : ι → Option Ctx

/-- The running thread computes, sets up another thread, or calls `thread_switch`. -/
inductive Move (ι : Type) where
  | run (m : Flat Loc)
  | create (t : ι) (func : Word)
  | switch (t : ι) (ra : Word)

/-- What a running thread does not change by itself. -/
def Protected (T : Places ι) (running : ι) (x : Word) : Prop :=
  T.In .current x ∨ ∃ t, T.In (.sp t) x ∨ (t ≠ running ∧ T.In (.stack t) x)

/-- `call thread_switch`. -/
def enter (m : Flat Loc) (ra : Word) : Flat Loc := (m.push ra).goto (.switch 0)

/-- What the running thread pushes when it switches is on its own stack. -/
def HasRoom (T : Places ι) (s : Sys ι) : Prop :=
  ∀ x, Within (s.m.regs.esp - 36) 36 x → T.In (.stack s.running) x

namespace Sys

variable [DecidableEq ι]

/-- The running thread has called `thread_switch`. -/
def left (s : Sys ι) (ra : Word) : ι → Option Ctx :=
  Function.update s.ctx s.running (some (.called s.m ra))

def Step (T : Places ι) (s : Sys ι) : Move ι → Sys ι → Prop
  | .run m, s' => (∀ x, Protected T s.running x → m.mem x = s.m.mem x) ∧ s' = { s with m := m }
  | .create t func, s' =>
    t ≠ s.running ∧ T.bottom t = stackOf (T.thread t) ∧ T.size t = STACK_SIZE ∧
      s' = { s with
        m := { s.m with mem := setUp (T.thread t) func s.m.mem }
        ctx := Function.update s.ctx t (some (.fresh func)) }
  | .switch t ra, s' =>
    load s.m.mem T.layout.next_thread = T.thread t ∧ HasRoom T s ∧ (s.left ra t).isSome ∧
      (enter s.m ra).steps T.layout.image 9 = some s'.m ∧ s'.running = t ∧ s'.ctx = s.left ra

/-- After `thread_init`: one thread runs, and no other has been set up. -/
def Initial (T : Places ι) (s : Sys ι) : Prop :=
  load s.m.mem T.layout.current_thread = T.thread s.running ∧ ∀ t, s.ctx t = none

/-- A thread goes on as it has left: with its registers, its stack and its return address, or at its
    function on an empty stack. Below the stack pointer there is what `thread_switch` has pushed. -/
def GoesOn (T : Places ι) (t : ι) (m : Flat Loc) : Ctx → Prop
  | .called before ra => m.regs = before.regs ∧ m.pc = T.layout.decode ra ∧
      ∀ x, T.In (.stack t) x → ¬ Within (before.regs.esp - 36) 36 x → m.mem x = before.mem x
  | .fresh func => m.pc = T.layout.decode func ∧ m.regs.esp = T.top t

/-- A switch to `t` has been right. -/
structure Switched (T : Places ι) (s : Sys ι) (t : ι) (ra : Word) (s' : Sys ι) : Prop where
  goesOn : ∃ c, s.left ra t = some c ∧ GoesOn T t s'.m c
  current : load s'.m.mem T.layout.current_thread = T.thread t
  next : load s'.m.mem T.layout.next_thread = 0
  running : s'.running = t

end Sys

/-! ### The instructions of `thread_switch` -/

section

variable (L : Layout) (r : Regs) (zf cf : Bool) (mem : Mem 32)

/-- The memory after `pushal`. -/
def pushed : Mem 32 := Bytes.write mem (r.esp - 32) (ofWords (Flat.saved r))

theorem push_steps : (⟨r, .switch 0, zf, cf, mem⟩ : Flat Loc).steps L.image 1 =
    some ⟨{ r with esp := r.esp - 32 }, .switch 0x01, zf, cf, pushed r mem⟩ := by
  simp only [Flat.steps, Flat.step, Layout.image, Layout.switchCode, Option.map_some, Option.bind_some,
    Flat.exec, Flat.pusha, Flat.goto, pushed]

theorem save_steps : (⟨r, .switch 0x01, zf, cf, mem⟩ : Flat Loc).steps L.image 2 =
    some ⟨{ r with eax := load mem L.current_thread }, .switch 0x08, zf, cf,
      store mem (load mem L.current_thread + 0) r.esp⟩ := by
  simp only [Flat.steps, Flat.step, Layout.image, Layout.switchCode, Option.map_some, Option.bind_some,
    Flat.exec, Flat.read, Flat.write, Flat.goto, Regs.get, Regs.set]

theorem load_steps : (⟨r, .switch 0x08, zf, cf, mem⟩ : Flat Loc).steps L.image 3 =
    some ⟨{ r with eax := load mem L.next_thread, esp := load mem (load mem L.next_thread + 0) },
      .switch 0x14, zf, cf, store mem L.current_thread (load mem L.next_thread)⟩ := by
  simp only [Flat.steps, Flat.step, Layout.image, Layout.switchCode, Option.map_some, Option.bind_some,
    Flat.exec, Flat.read, Flat.write, Flat.goto, Regs.get, Regs.set]

theorem restore_steps {m : Flat Loc} (hpc : m.pc = .switch 0x14) : m.steps L.image 3 =
    some ⟨{ m.popa.regs with esp := m.popa.regs.esp + 4 },
      L.decode (load (store m.mem L.next_thread 0) m.popa.regs.esp), m.zf, m.cf,
      store m.mem L.next_thread 0⟩ := by
  simp only [Flat.steps, Flat.step, Layout.image, Layout.switchCode, Option.map_some, Option.bind_some,
    Flat.exec, Flat.read, Flat.write, Flat.goto, hpc]
  rfl

end

/-- The memory after `call thread_switch` and `pushal`. -/
def calledMem (m : Flat Loc) (ra : Word) : Mem 32 :=
  pushed { m.regs with esp := m.regs.esp - 4 } (store m.mem (m.regs.esp - 4) ra)

/-- The memory after `movl %esp, (%eax)`. -/
def savedMem (L : Layout) (m : Flat Loc) (ra : Word) : Mem 32 :=
  store (calledMem m ra) (load (calledMem m ra) L.current_thread + 0) (m.regs.esp - 4 - 32)

/-- From the call to the `ret`; `n` is the machine before `popal`. -/
theorem switch_steps (L : Layout) (m : Flat Loc) (ra : Word) : ∃ n : Flat Loc,
    n.mem = store (savedMem L m ra) L.current_thread (load (savedMem L m ra) L.next_thread) ∧
    n.regs.esp = load (savedMem L m ra) (load (savedMem L m ra) L.next_thread) ∧
    (enter m ra).steps L.image 9 = some ⟨{ n.popa.regs with esp := n.popa.regs.esp + 4 },
      L.decode (load (store n.mem L.next_thread 0) n.popa.regs.esp), n.zf, n.cf,
      store n.mem L.next_thread 0⟩ := by
  have hpush := push_steps L { m.regs with esp := m.regs.esp - 4 } m.zf m.cf
    (store m.mem (m.regs.esp - 4) ra)
  refine ⟨_, ?_, ?_, (Flat.steps_add 8 hpush).trans ((Flat.steps_add 6 (save_steps ..)).trans
    ((Flat.steps_add 3 (load_steps ..)).trans (restore_steps L rfl)))⟩
  · rfl
  · exact congrArg (load _) (BitVec.add_zero _)

/-! ### What a thread leaves -/

/-- The stack pointer that a thread goes on with. -/
def Ctx.esp (T : Places ι) (t : ι) : Ctx → Word
  | .called m _ => m.regs.esp
  | .fresh _ => T.top t

/-- Where a thread goes on. -/
def Ctx.ra : Ctx → Word
  | .called _ ra => ra
  | .fresh func => func

/-- What a thread that does not run has in memory. -/
structure Ready (T : Places ι) (mem : Mem 32) (t : ι) (c : Ctx) : Prop where
  sp : load mem (T.thread t) = c.esp T t - 36
  ra : load mem (c.esp T t - 4) = c.ra
  inside : ∀ x, Within (c.esp T t - 36) 36 x → T.In (.stack t) x
  regs : ∀ m ra, c = .called m ra → ∀ i (hi : i < 8),
    load mem (m.regs.esp - 36 + BitVec.ofNat 32 (4 * i)) =
      (Flat.saved { m.regs with esp := m.regs.esp - 4 })[i]
  kept : ∀ m ra, c = .called m ra → ∀ x, T.In (.stack t) x → ¬ Within (m.regs.esp - 36) 36 x →
    mem x = m.mem x

section

variable {T : Threads ι} {s s' : Sys ι} {t : ι} {c : Ctx} {e ra func x : Word} {mem mem' : Mem 32}

/-- A word of the frame below a stack pointer. -/
theorem within_frame {i : ℕ} (hi : i < 8) (hx : Within (e - 36 + BitVec.ofNat 32 (4 * i)) 4 x) :
    Within (e - 36) 36 x := by
  unfold Within at *
  bv_omega

theorem within_ra (hx : Within (e - 4) 4 x) : Within (e - 36) 36 x := by
  unfold Within at *
  bv_omega

/-- A thread depends on its own stack and its stack pointer only. -/
theorem Ready.congr (h : Ready T.toPlaces mem t c)
    (hsp : ∀ x, T.In (.sp t) x → mem' x = mem x) (hstack : ∀ x, T.In (.stack t) x → mem' x = mem x) :
    Ready T.toPlaces mem' t c where
  sp := (load_congr fun x hx => hsp x hx).trans h.sp
  ra := (load_congr fun x hx => hstack x (h.inside x (within_ra hx))).trans h.ra
  inside := h.inside
  regs := by
    rintro m ra rfl i hi
    exact (load_congr fun x hx => hstack x (h.inside x (within_frame hi hx))).trans (h.regs m ra rfl i hi)
  kept := fun m ra hc x hx hframe => (hstack x hx).trans (h.kept m ra hc x hx hframe)

/-- A byte of one region is not in another. -/
theorem Threads.not_in (T : Threads ι) {r q : Region ι} (hx : T.In r x) (hne : r ≠ q) : ¬ T.In q x :=
  fun hx' => T.apart r q hne x ⟨hx, hx'⟩

theorem sub_frame (e : Word) : e - 4 - 32 = e - 36 := by bv_omega

/-- What is pushed is below the stack pointer. -/
theorem calledMem_other (m : Flat Loc) (hx : ¬ Within (m.regs.esp - 36) 36 x) :
    calledMem m ra x = m.mem x := by
  unfold calledMem pushed
  rw [write_other, store_other fun h => hx (within_ra h)]
  intro h
  refine hx ?_
  rw [length_ofWords] at h
  have h : (x - (m.regs.esp - 4 - 32)).toNat < 32 := h
  rw [sub_frame] at h
  exact h.trans (by decide)

/-- `current_thread` is still the thread that has called. -/
theorem calledMem_current (hroom : HasRoom T.toPlaces s)
    (hcur : load s.m.mem T.layout.current_thread = T.thread s.running) :
    load (calledMem s.m ra) T.layout.current_thread = T.thread s.running := by
  rw [← hcur]
  refine load_congr fun x hx => calledMem_other s.m fun hframe => ?_
  exact T.not_in (r := .current) hx (by simp) (hroom x hframe)

theorem savedMem_eq (hroom : HasRoom T.toPlaces s)
    (hcur : load s.m.mem T.layout.current_thread = T.thread s.running) :
    savedMem T.layout s.m ra =
      store (calledMem s.m ra) (T.thread s.running) (s.m.regs.esp - 36) := by
  have hzero : T.thread s.running + 0 = T.thread s.running := BitVec.add_zero _
  rw [savedMem, calledMem_current hroom hcur, hzero, sub_frame]

/-- Only the frame and the stack pointer of the thread are written. -/
theorem savedMem_other (hroom : HasRoom T.toPlaces s)
    (hcur : load s.m.mem T.layout.current_thread = T.thread s.running)
    (hframe : ¬ Within (s.m.regs.esp - 36) 36 x) (hsp : ¬ T.In (.sp s.running) x) :
    savedMem T.layout s.m ra x = s.m.mem x := by
  rw [savedMem_eq hroom hcur]
  exact (store_other hsp).trans (calledMem_other s.m hframe)

/-- The thread that has called is ready to go on. -/
theorem ready_saved (hroom : HasRoom T.toPlaces s)
    (hcur : load s.m.mem T.layout.current_thread = T.thread s.running) :
    Ready T.toPlaces (savedMem T.layout s.m ra) s.running (.called s.m ra) := by
  have hframe : ∀ {a : Word}, (∀ x, Within a 4 x → Within (s.m.regs.esp - 36) 36 x) →
      Apart (T.thread s.running) 4 a 4 := fun h x hx =>
    T.not_in (r := .sp s.running) hx.1 (by simp) (hroom x (h x hx.2))
  refine ⟨?_, ?_, hroom, ?_, ?_⟩
  · rw [savedMem_eq hroom hcur, load_store]
    rfl
  · show load _ (s.m.regs.esp - 4) = ra
    have hpush : Apart (s.m.regs.esp - 36) (4 * 8) (s.m.regs.esp - 4) 4 :=
      Apart.of_sub (by bv_omega) (by bv_omega)
    rw [savedMem_eq hroom hcur, load_store_apart (hframe fun x => within_ra), calledMem, pushed, sub_frame]
    have hkeep : load (Bytes.write (store s.m.mem (s.m.regs.esp - 4) ra) (s.m.regs.esp - 36)
        (ofWords (Flat.saved { s.m.regs with esp := s.m.regs.esp - 4 }))) (s.m.regs.esp - 4) =
        load (store s.m.mem (s.m.regs.esp - 4) ra) (s.m.regs.esp - 4) :=
      load_congr fun x hx => write_other fun h => hpush x ⟨by rwa [length_ofWords] at h, hx⟩
    exact hkeep.trans (load_store _ _ _)
  · rintro m ra' ⟨⟩ i hi
    have hlen : (Flat.saved { s.m.regs with esp := s.m.regs.esp - 4 }).length = 8 := rfl
    rw [savedMem_eq hroom hcur, load_store_apart (hframe fun x => within_frame hi), calledMem, pushed,
      sub_frame]
    exact load_write_words _ _ hi (by rw [hlen]; decide)
  · rintro m ra' ⟨⟩ x hx hout
    exact savedMem_other hroom hcur hout fun hsp => T.not_in hsp (by simp) hx

/-- The two variables are all that changes from there on. -/
theorem variables_other {v w : Word} (hcur : ¬ T.In .current x) (hnext : ¬ T.In .next x) :
    store (store mem T.layout.current_thread v) T.layout.next_thread w x = mem x :=
  (store_other hnext).trans (store_other hcur)

theorem stack_other {v w : Word} (hx : T.In (.stack t) x) :
    store (store mem T.layout.current_thread v) T.layout.next_thread w x = mem x :=
  variables_other (T.not_in hx (by simp)) (T.not_in hx (by simp))

/-- A thread that is ready goes on when its stack pointer is loaded. -/
theorem goesOn_restored {n : Flat Loc} (h : Ready T.toPlaces mem t c)
    (hmem : n.mem = store mem T.layout.current_thread (T.thread t))
    (hesp : n.regs.esp = load mem (T.thread t)) :
    Sys.GoesOn T.toPlaces t ⟨{ n.popa.regs with esp := n.popa.regs.esp + 4 },
      T.layout.decode (load (store n.mem T.layout.next_thread 0) n.popa.regs.esp), n.zf, n.cf,
      store n.mem T.layout.next_thread 0⟩ c := by
  have hsp : n.regs.esp = c.esp T.toPlaces t - 36 := hesp.trans h.sp
  have hpop : n.popa.regs.esp = c.esp T.toPlaces t - 4 := by
    show n.regs.esp + 32 = _
    rw [hsp]
    bv_omega
  have hret : n.popa.regs.esp + 4 = c.esp T.toPlaces t := by
    rw [hpop, BitVec.sub_add_cancel]
  have hra : load (store n.mem T.layout.next_thread 0) n.popa.regs.esp = c.ra := by
    rw [hpop, hmem, ← h.ra]
    exact load_congr fun x hx => stack_other (h.inside x (within_ra hx))
  rw [hra, hret]
  cases c with
  | fresh func => exact ⟨rfl, rfl⟩
  | called m ra =>
    refine ⟨?_, rfl, fun x hx hframe => ?_⟩
    · have hregs : n.popa.regs = { m.regs with esp := m.regs.esp - 36 + 32 } := by
        refine Flat.popa_of_saved (r := { m.regs with esp := m.regs.esp - 4 }) hsp fun i hi => ?_
        rw [← h.regs m ra rfl i hi, hmem]
        refine load_congr fun x hx => store_other ?_
        exact T.not_in (q := .current) (h.inside x (within_frame hi hx)) (by simp)
      rw [hregs]
      rfl
    · rw [hmem]
      exact (stack_other hx).trans (h.kept m ra rfl x hx hframe)

/-- `current_thread` is the thread that runs, and the others are ready. -/
structure Inv (T : Places ι) (s : Sys ι) : Prop where
  current : load s.m.mem T.layout.current_thread = T.thread s.running
  ready : ∀ t c, t ≠ s.running → s.ctx t = some c → Ready T s.m.mem t c

theorem Sys.Initial.inv (h : s.Initial T.toPlaces) : Inv T.toPlaces s :=
  ⟨h.1, fun t c _ hc => absurd ((h.2 t).symm.trans hc) (by simp)⟩

variable [DecidableEq ι]

/-- When the stack pointer is saved, all threads that have a context are ready. -/
theorem Inv.ready_saved (h : Inv T.toPlaces s) (hroom : HasRoom T.toPlaces s)
    (hc : s.left ra t = some c) : Ready T.toPlaces (savedMem T.layout s.m ra) t c := by
  rcases eq_or_ne t s.running with rfl | hne
  · rw [Sys.left, Function.update_self] at hc
    obtain rfl := Option.some.inj hc
    exact Context.ready_saved hroom h.current
  · rw [Sys.left, Function.update_of_ne hne] at hc
    refine (h.ready t c hne hc).congr (fun x hx => ?_) fun x hx => ?_
    · exact savedMem_other hroom h.current (fun hf => T.not_in hx (by simp) (hroom x hf))
        (T.not_in hx (by simp [hne]))
    · exact savedMem_other hroom h.current (fun hf => T.not_in hx (by simp [hne]) (hroom x hf))
        (T.not_in hx (by simp))

/-- A switch, and what it leaves in memory. -/
theorem switched (h : Inv T.toPlaces s) (hs : Sys.Step T.toPlaces s (.switch t ra) s') :
    s.Switched T.toPlaces t ra s' ∧ s'.ctx = s.left ra ∧ ∀ x, ¬ T.In .current x → ¬ T.In .next x →
      s'.m.mem x = savedMem T.layout s.m ra x := by
  obtain ⟨hnext, hroom, hsome, hsteps, hrunning, hctx⟩ := hs
  obtain ⟨c, hc⟩ := Option.isSome_iff_exists.mp hsome
  have hready := h.ready_saved hroom hc
  have hnext : load (savedMem T.layout s.m ra) T.layout.next_thread = T.thread t := by
    rw [← hnext]
    refine load_congr fun x hx => savedMem_other hroom h.current ?_ ?_
    · exact fun hf => T.not_in (r := .next) hx (by simp) (hroom x hf)
    · exact T.not_in (r := .next) hx (by simp)
  obtain ⟨n, hmem, hesp, hn⟩ := switch_steps T.layout s.m ra
  rw [hnext] at hmem hesp
  have hm := Option.some.inj (hsteps.symm.trans hn)
  refine ⟨⟨⟨c, hc, hm ▸ goesOn_restored hready hmem hesp⟩, ?_, ?_, hrunning⟩, hctx, ?_⟩
  · have hapart : Apart T.layout.next_thread 4 T.layout.current_thread 4 := fun x hx =>
      T.not_in (r := .next) (q := .current) hx.1 (by simp) hx.2
    rw [hm]
    show load (store n.mem T.layout.next_thread 0) _ = _
    rw [hmem, load_store_apart hapart, load_store]
  · rw [hm]
    exact load_store _ _ _
  · intro x hxc hxn
    rw [hm]
    show store n.mem T.layout.next_thread 0 x = _
    rw [hmem]
    exact variables_other hxc hxn

theorem inv_step {a : Move ι} (h : Inv T.toPlaces s) (hs : Sys.Step T.toPlaces s a s') :
    Inv T.toPlaces s' := by
  cases a with
  | run m =>
    obtain ⟨hkeep, rfl⟩ := hs
    refine ⟨(load_congr fun x hx => hkeep x (Or.inl hx)).trans h.current, fun t c ht hc => ?_⟩
    exact (h.ready t c ht hc).congr (fun x hx => hkeep x (Or.inr ⟨t, Or.inl hx⟩))
      fun x hx => hkeep x (Or.inr ⟨t, Or.inr ⟨ht, hx⟩⟩)
  | create t func =>
    obtain ⟨ht, hbottom, hsize, rfl⟩ := hs
    have hfunc {x : Word} (hx : Within (T.thread t + 0x2000) 4 x) : T.In (.stack t) x := by
      show (x - T.bottom t).toNat < T.size t
      rw [hbottom, hsize, stackOf]
      show (x - (T.thread t + 4)).toNat < 8192
      unfold Within at hx
      bv_omega
    have hother {r : Region ι} {x : Word} (hx : T.In r x) (hsp : r ≠ .sp t) (hstate : r ≠ .state t)
        (hstack : r ≠ .stack t) : setUp (T.thread t) func s.m.mem x = s.m.mem x := by
      have hsp : ¬ T.In (.sp t) x := T.not_in hx hsp
      have hstate : ¬ T.In (.state t) x := T.not_in hx hstate
      have hstack : ¬ T.In (.stack t) x := T.not_in hx hstack
      exact setUp_other hsp (fun h => hstack (hfunc h)) hstate
    refine ⟨?_, fun u c hu hc => ?_⟩
    · refine (load_congr fun x hx => ?_).trans h.current
      exact hother (r := .current) hx (by simp) (by simp) (by simp)
    have hc : Function.update s.ctx t (some (.fresh func)) u = some c := hc
    rcases eq_or_ne u t with rfl | hne
    · rw [Function.update_self] at hc
      obtain rfl := Option.some.inj hc
      have htop : T.top u = T.thread u + 0x2004 := by
        show T.bottom u + BitVec.ofNat 32 (T.size u) = _
        rw [hbottom, hsize, stackOf]
        show T.thread u + 4 + 8192 = _
        bv_omega
      refine ⟨?_, ?_, fun x hx => ?_, fun m ra hm => absurd hm (by simp),
        fun m ra hm => absurd hm (by simp)⟩
      · show load (setUp (T.thread u) func s.m.mem) (T.thread u) = T.top u - 36
        rw [load_setUp_sp, htop, firstSp]
        bv_omega
      · have hra : T.top u - 4 = T.thread u + 0x2000 := by
          rw [htop]
          bv_omega
        show load (setUp (T.thread u) func s.m.mem) (T.top u - 4) = func
        rw [hra, load_setUp_func]
      · have hx : Within (T.top u - 36) 36 x := hx
        show (x - T.bottom u).toNat < T.size u
        rw [hbottom, hsize, stackOf]
        show (x - (T.thread u + 4)).toNat < 8192
        rw [htop] at hx
        unfold Within at hx
        bv_omega
    · rw [Function.update_of_ne hne] at hc
      refine (h.ready u c hu hc).congr (fun x hx => ?_) fun x hx => ?_
      · exact hother hx (by simp [hne]) (by simp) (by simp)
      · exact hother hx (by simp) (by simp) (by simp [hne])
  | switch t ra =>
    obtain ⟨hsw, hctx, hmem⟩ := switched h hs
    refine ⟨hsw.current.trans (congrArg T.thread hsw.running.symm), fun u c hu hc => ?_⟩
    rw [hctx] at hc
    refine (h.ready_saved hs.2.1 hc).congr (fun x hx => ?_) fun x hx => ?_
    · exact hmem x (T.not_in hx (by simp)) (T.not_in hx (by simp))
    · exact hmem x (T.not_in hx (by simp)) (T.not_in hx (by simp))

/-- In every run, each switch makes its thread go on as it has left, or start as it was set up. -/
theorem thread_switch_faithful {T : Threads ι} {s₀ s s' : Sys ι} {l : List (Sys ι × Move ι)}
    (h₀ : s₀.Initial T.toPlaces) (h : Run (Sys.Step T.toPlaces) s₀ l s)
    (hs : Sys.Step T.toPlaces s (.switch t ra) s') : s.Switched T.toPlaces t ra s' :=
  (switched ((h.invariant (I := Inv T.toPlaces) (C := fun _ _ => True)
    (fun _ _ _ hi _ hst => inv_step hi hst) h₀.inv fun _ _ => trivial).2) hs).1

end

/-- The main thread of `uthread1` on its own stack, and the thread in the second entry. -/
def two : Threads Bool where
  layout := .uthread1
  thread := fun t => if t then 0x2d68 else 0xd60
  bottom := fun t => if t then 0x2d6c else 0x10000
  size := fun t => if t then 0x2000 else 0x1000
  apart := by
    intro r r' hne
    refine Apart.of_sub ?_ ?_ <;>
      rcases r with (_ | _) | (_ | _) | (_ | _) | _ | _ <;>
      rcases r' with (_ | _) | (_ | _) | (_ | _) | _ | _ <;>
      first
      | exact absurd rfl hne
      | decide

/-- `main` has called `thread_init`, and `next_thread` is the second entry. -/
def started : Sys Bool where
  m := ⟨⟨0, 0, 0, 0, 0x10f00, 0x10f28, 0, 0⟩, .elsewhere 0x300, false, false,
    store (store (fun _ => 0) 0xd40 0xd60) 0xd44 0x2d68⟩
  running := false
  ctx := fun _ => none

/-- It has called `thread_create`. -/
def created : Sys Bool where
  m := { started.m with mem := setUp 0x2d68 0x1d6 started.m.mem }
  running := false
  ctx := Function.update started.ctx true (some (.fresh 0x1d6))

/-- The first switch to a thread that `thread_create` has set up. -/
theorem thread_switch_faithful_started : started.Initial two.toPlaces ∧
    Run (Sys.Step two.toPlaces) started [(started, .create true 0x1d6)] created ∧
    ∃ s, Sys.Step two.toPlaces created (.switch true 0xb3) s ∧
      created.Switched two.toPlaces true 0xb3 s := by
  have hcurrent : load started.m.mem 0xd40 = 0xd60 := by decide +kernel
  have hinit : started.Initial two.toPlaces := ⟨hcurrent, fun _ => rfl⟩
  have hcreate : Sys.Step two.toPlaces started (.create true 0x1d6) created := by
    refine ⟨by decide, by decide, rfl, rfl⟩
  have hrun : Run (Sys.Step two.toPlaces) started [(started, .create true 0x1d6)] created :=
    .cons hcreate (.nil _)
  have hnext : load created.m.mem 0xd44 = 0x2d68 := by decide +kernel
  have hroom : HasRoom two.toPlaces created := by
    intro x hx
    have hx : (x - (0x10f00 - 36)).toNat < 36 := hx
    show (x - 0x10000).toNat < 0x1000
    bv_omega
  obtain ⟨n, -, -, hn⟩ := switch_steps Layout.uthread1 created.m 0xb3
  have hswitch : Sys.Step two.toPlaces created (.switch true 0xb3) ⟨_, true, created.left 0xb3⟩ :=
    ⟨hnext, hroom, rfl, hn, rfl, rfl⟩
  exact ⟨hinit, hrun, _, hswitch, thread_switch_faithful hinit hrun hswitch⟩

end Xv6.Uthread.Context
