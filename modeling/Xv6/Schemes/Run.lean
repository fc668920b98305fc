import Mathlib.Data.List.Basic

/-! @scheme run | name:Runs of a labelled transition system | family:invariants

    A run is the list of `(state, action)` pairs it went through, with the state it ends in. An
    invariant that every step keeps holds in every state of every run; when the steps that break a
    property are exactly the ones a condition on the state before the step rules out, a run has the
    property throughout iff all of its steps meet that condition. -/

namespace Xv6.Schemes

variable {σ α : Type*}

/-- A run of `step`: the states left, each with the action taken there, and the last state. -/
inductive Run (step : σ → α → σ → Prop) : σ → List (σ × α) → σ → Prop
  | nil (s : σ) : Run step s [] s
  | cons {s t u : σ} {a : α} {l : List (σ × α)} :
      step s a t → Run step t l u → Run step s ((s, a) :: l) u

/-- Every step of the run meets the condition `C` on its state and its action. -/
def Along (C : σ → α → Prop) (l : List (σ × α)) : Prop := ∀ x ∈ l, C x.1 x.2

instance (C : σ → α → Prop) [∀ s a, Decidable (C s a)] (l : List (σ × α)) :
    Decidable (Along C l) :=
  inferInstanceAs (Decidable (∀ x ∈ l, _))

/-- Every state of the run, the last one included, has the property `P`. -/
def Throughout (P : σ → Prop) (l : List (σ × α)) (u : σ) : Prop := (∀ x ∈ l, P x.1) ∧ P u

attribute [grind =] Along Throughout

variable {step : σ → α → σ → Prop} {C : σ → α → Prop} {P I : σ → Prop}

theorem along_nil : Along C ([] : List (σ × α)) := by simp [Along]

theorem along_cons {s : σ} {a : α} {l : List (σ × α)} :
    Along C ((s, a) :: l) ↔ C s a ∧ Along C l := by simp [Along]

theorem throughout_nil {u : σ} : Throughout P ([] : List (σ × α)) u ↔ P u := by simp [Throughout]

theorem throughout_cons {s u : σ} {a : α} {l : List (σ × α)} :
    Throughout P ((s, a) :: l) u ↔ P s ∧ Throughout P l u := by
  simp [Throughout, and_assoc]

theorem Throughout.mono {Q : σ → Prop} {l : List (σ × α)} {u : σ} (hPQ : ∀ s, P s → Q s)
    (h : Throughout P l u) : Throughout Q l u :=
  ⟨fun x hx => hPQ _ (h.1 x hx), hPQ _ h.2⟩

/-- The first state of a run is one of its states. -/
theorem Run.first {s u : σ} {l : List (σ × α)} (h : Run step s l u) (ht : Throughout P l u) :
    P s := by
  cases h with
  | nil => exact ht.2
  | cons _ _ => exact (throughout_cons.mp ht).1

/-- Invariant rule: what each step meeting `C` keeps holds in every state of the run. -/
theorem Run.invariant {s u : σ} {l : List (σ × α)}
    (hstep : ∀ s a t, I s → C s a → step s a t → I t)
    (h : Run step s l u) (hs : I s) (hC : Along C l) : Throughout I l u := by
  induction h with
  | nil s => exact throughout_nil.mpr hs
  | cons hst _ ih =>
    obtain ⟨hc, hrest⟩ := along_cons.mp hC
    exact throughout_cons.mpr ⟨hs, ih (hstep _ _ _ hs hc hst) hrest⟩

/-- Exactness rule: if steps meeting `C` keep the invariant, the invariant gives `P`, and a step
    that does not meet `C` leaves a state without `P`, then a run has `P` throughout iff each of
    its steps meets `C`. -/
theorem Run.throughout_iff {s u : σ} {l : List (σ × α)}
    (hstep : ∀ s a t, I s → C s a → step s a t → I t) (hIP : ∀ s, I s → P s)
    (hbad : ∀ s a t, I s → ¬ C s a → step s a t → ¬ P t)
    (h : Run step s l u) (hs : I s) : Throughout P l u ↔ Along C l := by
  constructor
  · intro hP
    induction h with
    | nil s => exact along_nil
    | @cons s t u a l hst hrun ih =>
      obtain ⟨_, hrest⟩ := throughout_cons.mp hP
      have hc : C s a := by
        by_contra hn
        exact hbad _ _ _ hs hn hst (hrun.first hrest)
      exact along_cons.mpr ⟨hc, ih (hstep _ _ _ hs hc hst) hrest⟩
  · intro hC
    exact (h.invariant hstep hs hC).mono hIP

/-- Exactness rule for a property of steps: while the invariant holds, a step has it iff it meets
    the condition under which the invariant is kept. -/
theorem Run.along_iff {Q : σ → α → Prop} {s u : σ} {l : List (σ × α)}
    (hstep : ∀ s a t, I s → C s a → step s a t → I t) (hQ : ∀ s a, I s → (Q s a ↔ C s a))
    (h : Run step s l u) (hs : I s) : Along Q l ↔ Along C l := by
  induction h with
  | nil s => exact iff_of_true along_nil along_nil
  | @cons s t u a l hst _ ih =>
    rw [along_cons, along_cons, hQ s a hs]
    exact and_congr_right fun hc => ih (hstep s a t hs hc hst)

/-- Each step of a run whose steps meet `C` starts in a state with the invariant. -/
theorem Run.steps {s u : σ} {l : List (σ × α)}
    (hstep : ∀ s a t, I s → C s a → step s a t → I t) (h : Run step s l u) (hs : I s)
    (hC : Along C l) : ∀ x ∈ l, I x.1 ∧ ∃ t, step x.1 x.2 t := by
  induction h with
  | nil s => exact fun x hx => absurd hx List.not_mem_nil
  | @cons s t u a l hst _ ih =>
    obtain ⟨hc, hrest⟩ := along_cons.mp hC
    intro x hx
    rcases List.mem_cons.mp hx with rfl | hx
    · exact ⟨hs, t, hst⟩
    · exact ih (hstep s a t hs hc hst) hrest x hx

theorem Run.append {s t u : σ} {l l' : List (σ × α)} (h : Run step s l t)
    (h' : Run step t l' u) : Run step s (l ++ l') u := by
  induction h with
  | nil s => exact h'
  | cons hst _ ih => exact .cons hst (ih h')

/-- Steps that all meet a condition are steps of the system restricted to it. -/
theorem Run.restrict {s u : σ} {l : List (σ × α)} (h : Run step s l u) (hC : Along C l) :
    Run (fun s a t => step s a t ∧ C s a) s l u := by
  induction h with
  | nil s => exact .nil s
  | cons hst _ ih =>
    obtain ⟨hc, hrest⟩ := along_cons.mp hC
    exact .cons ⟨hst, hc⟩ (ih hrest)

/-- A run of one system is a run of any that has all its steps. -/
theorem Run.mono {step' : σ → α → σ → Prop} {s u : σ} {l : List (σ × α)}
    (hsub : ∀ s a t, step s a t → step' s a t) (h : Run step s l u) : Run step' s l u := by
  induction h with
  | nil s => exact .nil s
  | cons hst _ ih => exact .cons (hsub _ _ _ hst) ih

/-- Executing a list of actions with a partial step function. -/
def exec (next : σ → α → Option σ) : σ → List α → Option σ
  | s, [] => some s
  | s, a :: as => (next s a).bind fun t => exec next t as

attribute [grind =] exec

theorem exec_append {next : σ → α → Option σ} {s : σ} {l l' : List α} :
    exec next s (l ++ l') = (exec next s l).bind fun t => exec next t l' := by
  induction l generalizing s with
  | nil => rfl
  | cons a l ih => simp only [List.cons_append, exec, ih, Option.bind_assoc]

/-- The states and actions an execution goes through. -/
def visited (next : σ → α → Option σ) : σ → List α → List (σ × α)
  | _, [] => []
  | s, a :: as => (s, a) :: ((next s a).map fun t => visited next t as).getD []

/-- An execution that does not get stuck is a run. -/
theorem Run.of_exec {next : σ → α → Option σ} :
    ∀ {as : List α} {s u : σ}, exec next s as = some u →
      Run (fun s a t => next s a = some t) s (visited next s as) u
  | [], s, u, h => by
    obtain rfl : s = u := by simpa [exec] using h
    exact .nil s
  | a :: as, s, u, h => by
    obtain ⟨t, ht, hrest⟩ := Option.bind_eq_some_iff.mp h
    simp only [visited, ht, Option.map_some, Option.getD_some]
    exact .cons ht (Run.of_exec hrest)

/-- What a test finds after an execution, it finds after a run. -/
theorem Run.of_exec_any (next : σ → α → Option σ) (as : List α) (s : σ) (test : σ → Bool)
    (h : (exec next s as).any test = true) :
    ∃ u l, Run (fun s a t => next s a = some t) s l u ∧ test u = true := by
  obtain ⟨u, hu, ht⟩ := (Option.any_eq_true _ _).mp h
  exact ⟨u, _, Run.of_exec hu, ht⟩

end Xv6.Schemes
