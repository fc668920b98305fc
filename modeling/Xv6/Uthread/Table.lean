import Xv6.Schemes.Run
import Xv6.Schemes.Words
import Xv6.Uthread.Activation
import Xv6.Uthread.Library
import Mathlib.Data.Finset.Card
import Mathlib.Data.Finset.Range

/-! @src uthread1.c | name:thread_create in memory | layer:model,proof

    `thread_create` on the bytes of `all_thread`. When no entry is `FREE` its loop ends with a pointer
    to what follows the table, and it sets up a thread there. -/

namespace Xv6.Uthread

open Xv6.Schemes Xv6.Schemes.Bytes Xv6.Schemes.X86

abbrev STACK_SIZE : ℕ := 8192

abbrev FREE : Word := 0
abbrev RUNNING : Word := 1
abbrev RUNNABLE : Word := 2

/-- `sizeof(thread_t)`. -/
abbrev THREAD_SIZE : ℕ := 0x2008

/-- `&t->stack` and `&t->state`; `sp` comes first. -/
def stackOf (t : Word) : Word := t + 4
def stateOf (t : Word) : Word := t + 0x2004

/-- The loop of `thread_create`, over `n` entries from `t` on. -/
def findFree (mem : Mem 32) (t : Word) : ℕ → Word
  | 0 => t
  | n + 1 => if load mem (stateOf t) = FREE then t else findFree mem (t + 0x2008) n

/-- What `thread_create` does to the entry `t`. -/
def setUp (t func : Word) (mem : Mem 32) : Mem 32 :=
  let mem := store mem t (stackOf t + BitVec.ofNat 32 STACK_SIZE)
  let mem := store mem t (load mem t - 4)
  let mem := store mem (load mem t) func
  let mem := store mem t (load mem t - 32)
  store mem (stateOf t) RUNNABLE

def thread_create (L : Layout) (func : Word) (mem : Mem 32) : Mem 32 :=
  setUp (findFree mem (L.thread 0) MAX_THREAD) func mem

/-! ### Setting up an entry -/

section

variable {t func x : Word} {mem mem' : Mem 32}

/-- The stack pointer that a new thread gets. -/
def firstSp (t : Word) : Word := t + 0x1fe0

theorem setUp_eq (t func : Word) (mem : Mem 32) : setUp t func mem =
    store (store (store (store (store mem t (stackOf t + BitVec.ofNat 32 STACK_SIZE)) t (t + 0x2000))
      (t + 0x2000) func) t (firstSp t)) (stateOf t) RUNNABLE := by
  have htop : stackOf t + BitVec.ofNat 32 STACK_SIZE - 4 = t + 0x2000 := by
    show t + 4 + 0x2000 - 4 = t + 0x2000
    bv_omega
  have hsp : t + 0x2000 - 32 = firstSp t := by
    unfold firstSp
    bv_omega
  have hapart : Apart (t + 0x2000) 4 t 4 := Apart.of_sub (by bv_omega) (by bv_omega)
  unfold setUp
  simp only [load_store, htop, load_store_apart hapart, hsp]

theorem load_setUp_sp : load (setUp t func mem) t = firstSp t := by
  have hstate : Apart (stateOf t) 4 t 4 := by
    unfold stateOf
    exact Apart.of_sub (by bv_omega) (by bv_omega)
  rw [setUp_eq, load_store_apart hstate, load_store]

theorem load_setUp_func : load (setUp t func mem) (t + 0x2000) = func := by
  have hstate : Apart (stateOf t) 4 (t + 0x2000) 4 := by
    unfold stateOf
    exact Apart.of_sub (by bv_omega) (by bv_omega)
  have hsp : Apart t 4 (t + 0x2000) 4 := Apart.of_sub (by bv_omega) (by bv_omega)
  rw [setUp_eq, load_store_apart hstate, load_store_apart hsp, load_store]

theorem load_setUp_state : load (setUp t func mem) (stateOf t) = RUNNABLE := by
  rw [setUp_eq, load_store]

/-- Three words are set. -/
theorem setUp_other (hsp : ¬ Within t 4 x) (hfunc : ¬ Within (t + 0x2000) 4 x)
    (hstate : ¬ Within (stateOf t) 4 x) : setUp t func mem x = mem x := by
  rw [setUp_eq, store_other hstate, store_other hsp, store_other hfunc, store_other hsp, store_other hsp]

/-- Only the entry is written. -/
theorem setUp_outside (hx : ¬ Within t THREAD_SIZE x) : setUp t func mem x = mem x := by
  have hx : ¬ (x - t).toNat < 0x2008 := hx
  refine setUp_other ?_ ?_ ?_
  · unfold Within
    omega
  · unfold Within
    bv_omega
  · unfold Within stateOf
    bv_omega

/-- The three words are as `thread_create` sets them already. -/
def IsSetUp (mem : Mem 32) (t func : Word) : Prop :=
  load mem t = firstSp t ∧ load mem (t + 0x2000) = func ∧ load mem (stateOf t) = RUNNABLE

theorem setUp_eq_self_iff : setUp t func mem = mem ↔ IsSetUp mem t func := by
  constructor
  · intro h
    unfold IsSetUp
    rw [← h, load_setUp_sp, load_setUp_func, load_setUp_state]
    exact ⟨rfl, rfl, rfl⟩
  · rintro ⟨hsp, hfunc, hstate⟩
    funext x
    by_cases h0 : Within t 4 x
    · exact eq_of_load (load_setUp_sp.trans hsp.symm) h0
    by_cases h1 : Within (t + 0x2000) 4 x
    · exact eq_of_load (load_setUp_func.trans hfunc.symm) h1
    by_cases h2 : Within (stateOf t) 4 x
    · exact eq_of_load (load_setUp_state.trans hstate.symm) h2
    · exact setUp_other h0 h1 h2

end

/-! ### Entries of the table -/

section

variable {L : Layout} {i j n : ℕ} {func x : Word} {mem : Mem 32}

/-- The entries, and what follows the last one, do not overlap. -/
theorem entries_apart (hi : i ≤ MAX_THREAD) (hj : j ≤ MAX_THREAD) (hij : i ≠ j) :
    Apart (L.thread i) THREAD_SIZE (L.thread j) THREAD_SIZE := by
  have hi : i ≤ 4 := hi
  have hj : j ≤ 4 := hj
  have hsub (i j : ℕ) (hi : i ≤ 4) (hj : j ≤ 4) (hij : i ≠ j) :
      0x2008 ≤ (L.thread j - L.thread i).toNat := by
    have hti := toNat_thread L hi
    have htj := toNat_thread L hj
    have hcases := toNat_sub_cases (L.thread j) (L.thread i)
    omega
  exact Apart.of_sub (hsub i j hi hj hij) (hsub j i hj hi (Ne.symm hij))

theorem state_within (t : Word) {x : Word} (hx : Within (stateOf t) 4 x) : Within t THREAD_SIZE x := by
  show (x - t).toNat < 0x2008
  unfold Within stateOf at hx
  bv_omega

/-- What is set up in one entry does not change the state in another. -/
theorem load_setUp_state_of_ne (hi : i ≤ MAX_THREAD) (hj : j ≤ MAX_THREAD) (hij : i ≠ j) :
    load (setUp (L.thread i) func mem) (stateOf (L.thread j)) = load mem (stateOf (L.thread j)) :=
  load_congr fun _ hx => setUp_outside fun hi' =>
    entries_apart hi hj hij _ ⟨hi', state_within _ hx⟩

/-- `all_thread[i].state == FREE`. -/
def IsFree (L : Layout) (mem : Mem 32) (i : ℕ) : Prop := load mem (stateOf (L.thread i)) = FREE

instance (L : Layout) (mem : Mem 32) : DecidablePred (IsFree L mem) :=
  fun _ => inferInstanceAs (Decidable (_ = _))

/-- The loop finds the first free entry, or ends behind the table. -/
theorem findFree_cases (L : Layout) (mem : Mem 32) (i n : ℕ) :
    (∃ k, i ≤ k ∧ k < i + n ∧ IsFree L mem k ∧ findFree mem (L.thread i) n = L.thread k) ∨
      (∀ k, i ≤ k → k < i + n → ¬ IsFree L mem k) ∧ findFree mem (L.thread i) n = L.thread (i + n) := by
  induction n generalizing i with
  | zero => exact Or.inr ⟨fun k hk hk' => absurd hk' (by omega), rfl⟩
  | succ n ih =>
    unfold findFree
    by_cases hfree : IsFree L mem i
    · exact Or.inl ⟨i, le_rfl, by omega, hfree, if_pos hfree⟩
    · have hnext : (if load mem (stateOf (L.thread i)) = FREE then L.thread i
          else findFree mem (L.thread i + 0x2008) n) = findFree mem (L.thread (i + 1)) n := by
        rw [thread_succ]
        exact if_neg hfree
      rw [hnext]
      rcases ih (i + 1) with ⟨k, hk, hk', hf, heq⟩ | ⟨hnone, heq⟩
      · exact Or.inl ⟨k, by omega, by omega, hf, heq⟩
      · refine Or.inr ⟨fun k hk hk' => ?_, ?_⟩
        · rcases Nat.eq_or_lt_of_le hk with rfl | hlt
          · exact hfree
          · exact hnone k hlt (by omega)
        · rw [heq, Nat.add_right_comm, Nat.add_assoc]

/-- What `thread_create` does: it sets up a free entry, or what follows the table. -/
theorem thread_create_cases (L : Layout) (func : Word) (mem : Mem 32) :
    (∃ i < MAX_THREAD, IsFree L mem i ∧ thread_create L func mem = setUp (L.thread i) func mem) ∨
      (∀ i < MAX_THREAD, ¬ IsFree L mem i) ∧
        thread_create L func mem = setUp (L.thread MAX_THREAD) func mem := by
  unfold thread_create
  rcases findFree_cases L mem 0 MAX_THREAD with ⟨k, -, hk, hf, heq⟩ | ⟨hnone, heq⟩
  · rw [heq]
    exact Or.inl ⟨k, by omega, hf, rfl⟩
  · rw [heq, Nat.zero_add]
    exact Or.inr ⟨fun i hi => hnone i (Nat.zero_le i) (by omega), rfl⟩

/-! ### A call that is right -/

/-- The new thread is in the entry `i`, which was free, and nothing else is written. -/
structure Placed (L : Layout) (func : Word) (mem mem' : Mem 32) (i : ℕ) : Prop where
  free : IsFree L mem i
  only : ∀ x, ¬ Within (L.thread i) THREAD_SIZE x → mem' x = mem x
  others : ∀ j < MAX_THREAD, j ≠ i → ∀ x, Within (L.thread j) THREAD_SIZE x → mem' x = mem x
  state : load mem' (stateOf (L.thread i)) = RUNNABLE
  sp : Within (stackOf (L.thread i)) STACK_SIZE (load mem' (L.thread i))
  func : load mem' (load mem' (L.thread i) + 32) = func

/-- A free entry is used, or there is none and nothing changes. -/
def CallOk (L : Layout) (func : Word) (mem : Mem 32) : Prop :=
  (∃ i < MAX_THREAD, Placed L func mem (thread_create L func mem) i) ∨
    (∀ i < MAX_THREAD, ¬ IsFree L mem i) ∧ thread_create L func mem = mem

theorem placed_setUp (hi : i < MAX_THREAD) (hfree : IsFree L mem i) :
    Placed L func mem (setUp (L.thread i) func mem) i where
  free := hfree
  only := fun _ => setUp_outside
  others := fun j hj hji x hx => setUp_outside fun hx' => entries_apart hj.le hi.le hji x ⟨hx, hx'⟩
  state := load_setUp_state
  sp := by
    rw [load_setUp_sp]
    show (firstSp (L.thread i) - stackOf (L.thread i)).toNat < 8192
    unfold firstSp stackOf
    bv_omega
  func := by
    have htop : firstSp (L.thread i) + 32 = L.thread i + 0x2000 := by
      unfold firstSp
      bv_omega
    rw [load_setUp_sp, htop, load_setUp_func]

/-- A call is right iff there is a free entry, or what follows the table happens to be as it will be
    set. -/
theorem callOk_iff : CallOk L func mem ↔
    (∃ i < MAX_THREAD, IsFree L mem i) ∨ IsSetUp mem (L.thread MAX_THREAD) func := by
  unfold CallOk
  rcases thread_create_cases L func mem with ⟨i, hi, hfree, heq⟩ | ⟨hnone, heq⟩
  · rw [heq]
    exact iff_of_true (Or.inl ⟨i, hi, placed_setUp hi hfree⟩) (Or.inl ⟨i, hi, hfree⟩)
  · rw [heq, setUp_eq_self_iff]
    constructor
    · rintro (⟨i, hi, hplaced⟩ | ⟨-, h⟩)
      · exact absurd hplaced.free (hnone i hi)
      · exact Or.inr h
    · rintro (⟨i, hi, hfree⟩ | h)
      · exact absurd hfree (hnone i hi)
      · exact Or.inr ⟨hnone, h⟩

end

/-! ### Runs of creations and exits -/

/-- The memory, and how many threads there are that have not finished, the main thread included. -/
structure Creating where
  mem : Mem 32
  live : ℕ

/-- A call of `thread_create`, a thread marking itself `FREE`, or anything else that threads and
    `thread_schedule` do. -/
inductive Op where
  | create (func : Word)
  | finish (i : ℕ)
  | other (mem : Mem 32)

namespace Creating

/-- A call of `thread_create`. A thread behind the table is none. -/
def create (L : Layout) (func : Word) (s : Creating) : Creating where
  mem := thread_create L func s.mem
  live := if s.live < MAX_THREAD then s.live + 1 else s.live

def Step (L : Layout) (s : Creating) : Op → Creating → Prop
  | .create func, t => t = s.create L func
  | .finish i, t => i < MAX_THREAD ∧ ¬ IsFree L s.mem i ∧
    t = ⟨store s.mem (stateOf (L.thread i)) FREE, s.live - 1⟩
  | .other mem, t => (∀ i < MAX_THREAD, IsFree L mem i ↔ IsFree L s.mem i) ∧ t = ⟨mem, s.live⟩

/-- After `thread_init`: the main thread has the first entry. -/
def Initial (L : Layout) (s : Creating) : Prop :=
  s.live = 1 ∧ ∀ i < MAX_THREAD, IsFree L s.mem i ↔ i ≠ 0

/-- A call of `thread_create` is right. -/
def Ok (L : Layout) (s : Creating) : Op → Prop
  | .create func => CallOk L func s.mem
  | _ => True

/-- There are fewer threads than entries, or what follows the table is as it will be set. -/
def Room (L : Layout) (s : Creating) : Op → Prop
  | .create func => s.live < MAX_THREAD ∨ IsSetUp s.mem (L.thread MAX_THREAD) func
  | _ => True

/-- The entries in use. -/
def inUse (L : Layout) (mem : Mem 32) : Finset ℕ := {i ∈ Finset.range MAX_THREAD | ¬ IsFree L mem i}

section

variable {L : Layout} {i : ℕ} {func : Word} {mem mem' : Mem 32} {s t : Creating}

theorem mem_inUse : i ∈ inUse L mem ↔ i < MAX_THREAD ∧ ¬ IsFree L mem i := by
  rw [inUse, Finset.mem_filter, Finset.mem_range]

theorem not_isFree_setUp : ¬ IsFree L (setUp (L.thread i) func mem) i := by
  unfold IsFree
  rw [load_setUp_state]
  decide

theorem inUse_setUp (hi : i < MAX_THREAD) :
    inUse L (setUp (L.thread i) func mem) = insert i (inUse L mem) := by
  ext j
  rw [Finset.mem_insert, mem_inUse, mem_inUse]
  rcases eq_or_ne j i with rfl | hji
  · exact iff_of_true ⟨hi, not_isFree_setUp⟩ (Or.inl rfl)
  · rw [or_iff_right hji]
    refine and_congr_right fun hj => ?_
    unfold IsFree
    rw [load_setUp_state_of_ne hi.le hj.le hji.symm]

theorem inUse_setUp_end : inUse L (setUp (L.thread MAX_THREAD) func mem) = inUse L mem := by
  ext j
  rw [mem_inUse, mem_inUse]
  refine and_congr_right fun hj => ?_
  unfold IsFree
  rw [load_setUp_state_of_ne le_rfl hj.le hj.ne']

theorem inUse_store (hi : i < MAX_THREAD) :
    inUse L (store mem (stateOf (L.thread i)) FREE) = (inUse L mem).erase i := by
  ext j
  rw [Finset.mem_erase, mem_inUse, mem_inUse]
  rcases eq_or_ne j i with rfl | hji
  · refine iff_of_false (fun h => h.2 ?_) fun h => h.1 rfl
    exact load_store _ _ _
  · rw [and_iff_right hji]
    refine and_congr_right fun hj => ?_
    have hapart : Apart (stateOf (L.thread i)) 4 (stateOf (L.thread j)) 4 := fun x hx =>
      entries_apart hi.le hj.le hji.symm x ⟨state_within _ hx.1, state_within _ hx.2⟩
    unfold IsFree
    rw [load_store_apart hapart]

theorem card_inUse_lt_iff : (inUse L mem).card < MAX_THREAD ↔ ∃ i < MAX_THREAD, IsFree L mem i := by
  have hsub : inUse L mem ⊆ Finset.range MAX_THREAD := Finset.filter_subset _ _
  constructor
  · intro h
    by_contra hno
    have hall : inUse L mem = Finset.range MAX_THREAD := by
      refine Finset.filter_eq_self.mpr fun i hi hfree => hno ⟨i, Finset.mem_range.mp hi, hfree⟩
    rw [hall, Finset.card_range] at h
    exact absurd h (lt_irrefl _)
  · rintro ⟨i, hi, hfree⟩
    have hne : inUse L mem ≠ Finset.range MAX_THREAD := by
      intro heq
      exact (mem_inUse.mp (heq ▸ Finset.mem_range.mpr hi)).2 hfree
    exact (Finset.card_lt_card (hsub.ssubset_of_ne hne)).trans_eq (Finset.card_range _)

/-- There are as many threads as entries in use. -/
def Inv (L : Layout) (s : Creating) : Prop := s.live = (inUse L s.mem).card

theorem Initial.inv (h : Initial L s) : Inv L s := by
  obtain ⟨hlive, hfree⟩ := h
  have hone : inUse L s.mem = {0} := by
    ext i
    rw [mem_inUse, Finset.mem_singleton]
    constructor
    · rintro ⟨hi, hn⟩
      by_contra h0
      exact hn ((hfree i hi).mpr h0)
    · rintro rfl
      exact ⟨by decide, fun h => (hfree 0 (by decide)).mp h rfl⟩
  unfold Inv
  rw [hlive, hone, Finset.card_singleton]

theorem inv_create (func : Word) (h : Inv L s) : Inv L (s.create L func) := by
  show (if s.live < MAX_THREAD then s.live + 1 else s.live) = (inUse L (thread_create L func s.mem)).card
  unfold Inv at h
  rcases thread_create_cases L func s.mem with ⟨i, hi, hfree, heq⟩ | ⟨hnone, heq⟩
  · have hlt := card_inUse_lt_iff.mpr ⟨i, hi, hfree⟩
    have hnew : i ∉ inUse L s.mem := fun hin => (mem_inUse.mp hin).2 hfree
    rw [if_pos (h ▸ hlt), heq, inUse_setUp hi, Finset.card_insert_of_notMem hnew, h]
  · have hge : ¬ (inUse L s.mem).card < MAX_THREAD := by
      rw [card_inUse_lt_iff]
      rintro ⟨i, hi, hfree⟩
      exact hnone i hi hfree
    rw [if_neg (h ▸ hge), heq, inUse_setUp_end, h]

theorem inv_step {op : Op} (h : Inv L s) (hs : Step L s op t) : Inv L t := by
  cases op with
  | create func =>
    obtain rfl := hs
    exact inv_create func h
  | finish i =>
    obtain ⟨hi, hused, rfl⟩ := hs
    unfold Inv at h ⊢
    show s.live - 1 = _
    rw [inUse_store hi, Finset.card_erase_of_mem (mem_inUse.mpr ⟨hi, hused⟩), h]
  | other mem =>
    obtain ⟨hsame, rfl⟩ := hs
    have heq : inUse L mem = inUse L s.mem := by
      ext i
      rw [mem_inUse, mem_inUse]
      exact and_congr_right fun hi => not_congr (hsame i hi)
    exact h.trans (congrArg Finset.card heq.symm)

theorem ok_iff {op : Op} (h : Inv L s) : Ok L s op ↔ Room L s op := by
  cases op with
  | create func =>
    show CallOk L func s.mem ↔ s.live < MAX_THREAD ∨ IsSetUp s.mem (L.thread MAX_THREAD) func
    rw [callOk_iff, ← card_inUse_lt_iff, ← h]
  | finish | other => exact Iff.rfl

/-- Every call of `thread_create` is right iff, at each, fewer than `MAX_THREAD` threads have not
    finished, or what follows the table happens to be as it will be set. -/
theorem thread_create_ok_iff {l : List (Creating × Op)} (hs : Initial L s) (h : Run (Step L) s l t) :
    Along (Ok L) l ↔ Along (Room L) l :=
  h.along_iff (I := Inv L) (fun _ _ _ hi _ => inv_step hi) (fun _ _ hi => ok_iff hi) hs.inv

end

/-- The memory of `uthread1` after `thread_init`. -/
def booted : Creating where
  mem := fun x => if x = 0xd60 + 0x2004 then 1 else 0
  live := 1

theorem booted_initial : Initial Layout.uthread1 booted := by
  refine ⟨rfl, ?_⟩
  decide +kernel

theorem thread_create_ok_iff_booted : ∃ l t, Initial Layout.uthread1 booted ∧
    Run (Step Layout.uthread1) booted l t ∧ l.map Prod.snd = [.create 0x1d6] ∧
    Along (Ok Layout.uthread1) l := by
  have hrun : Run (Step Layout.uthread1) booted [(booted, .create 0x1d6)]
      (booted.create Layout.uthread1 0x1d6) := .cons rfl (.nil _)
  refine ⟨_, _, booted_initial, hrun, rfl, (thread_create_ok_iff booted_initial hrun).mpr ?_⟩
  exact along_cons.mpr ⟨Or.inl (by decide), along_nil⟩

/-- As long as there is room, what follows the table is left alone. -/
theorem load_create_end {L : Layout} {s : Creating} (func : Word) (h : Inv L s)
    (hroom : s.live < MAX_THREAD) :
    load (s.create L func).mem (stateOf (L.thread MAX_THREAD)) =
      load s.mem (stateOf (L.thread MAX_THREAD)) := by
  rcases thread_create_cases L func s.mem with ⟨i, hi, -, heq⟩ | ⟨hnone, -⟩
  · show load (thread_create L func s.mem) _ = _
    rw [heq, load_setUp_state_of_ne hi.le le_rfl hi.ne]
  · obtain ⟨i, hi, hfree⟩ := card_inUse_lt_iff.mp (h ▸ hroom)
    exact absurd hfree (hnone i hi)

/-- The fourth thread beside the main one. -/
theorem fourth_thread_outside : ∃ l t, Initial Layout.uthread1 booted ∧
    Run (Step Layout.uthread1) booted l t ∧ l.map Prod.snd = List.replicate 4 (.create 0x1d6) ∧
    ¬ Along (Ok Layout.uthread1) l := by
  have hstep (s : Creating) : Step Layout.uthread1 s (.create 0x1d6) (s.create Layout.uthread1 0x1d6) := rfl
  have h0 := booted_initial.inv
  have h1 := inv_create 0x1d6 h0
  have h2 := inv_create 0x1d6 h1
  have h3 := inv_create 0x1d6 h2
  refine ⟨_, _, booted_initial,
    .cons (hstep _) (.cons (hstep _) (.cons (hstep _) (.cons (hstep _) (.nil _)))), rfl, fun hok => ?_⟩
  obtain ⟨-, hok⟩ := along_cons.mp hok
  obtain ⟨-, hok⟩ := along_cons.mp hok
  obtain ⟨-, hok⟩ := along_cons.mp hok
  rcases (ok_iff h3).mp (along_cons.mp hok).1 with hroom | ⟨-, -, hstate⟩
  · exact absurd hroom (by decide)
  · rw [load_create_end _ h2 (by decide), load_create_end _ h1 (by decide),
      load_create_end _ h0 (by decide)] at hstate
    revert hstate
    decide +kernel

end Creating

end Xv6.Uthread
