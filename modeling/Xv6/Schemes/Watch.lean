import Xv6.Schemes.Program

/-! @scheme watch | name:Programs that are watched | family:program logic

    A watch goes along with a program: its state changes with every operation, and it may stop the
    program before one. What holds of the watched program says something of the operations of the
    program: along the trace the watch stops in no other ways than those that are tolerated. -/

namespace Xv6.Schemes

variable {Op : Type} {Ans : Op → Type} {σ μ α : Type}

/-- The watch. -/
abbrev Watch (Op : Type) (μ : Type) : Type := Op → μ → Outcome μ

/-- The machine with a watch. -/
def Machine.watch (M : Machine Op Ans σ) (W : Watch Op μ) : Machine Op Ans (σ × μ) := fun o s =>
  (W o s.2).bind fun d => (M o s.1).bind fun r => .ok (r.1, (r.2, d))

/-- The watch over some operations. -/
def Watch.along (W : Watch Op μ) : List Op → μ → Outcome μ
  | [], d => .ok d
  | o :: l, d => (W o d).bind fun d => W.along l d

variable {M : Machine Op Ans σ} {W : Watch Op μ} {E : End → Prop} {m : Prog Op Ans α}
  {Q : α → σ × μ → Prop} {s t : σ} {d d' : μ} {a : α}

/-- What stops the watch is tolerated. -/
theorem Wp.along (h : Wp (M.watch W) E m (s, d) Q) {l : List Op} (hl : l <+: m.trace M s) {e : End}
    (he : W.along l d = .error e) : E e := by
  induction m generalizing s d l with
  | ret a =>
    rw [Prog.trace, List.prefix_nil] at hl
    rw [hl] at he
    cases he
  | op o k ih =>
    cases l with
    | nil => cases he
    | cons o' l =>
      rw [Prog.trace, List.cons_prefix_cons] at hl
      obtain ⟨rfl, hl⟩ := hl
      rw [Wp, Prog.run, Machine.watch] at h
      rw [Watch.along] at he
      cases hw : W o' d with
      | error e' =>
        rw [hw] at h he
        obtain rfl : e' = e := Except.error.inj he
        exact h
      | ok d' =>
        rw [hw] at h he
        cases hm : M o' s with
        | error e' =>
          rw [hm] at hl
          rw [List.prefix_nil] at hl
          rw [hl] at he
          cases he
        | ok r =>
          rw [hm] at h hl
          exact ih r.1 h hl he

/-- What the watch has come to, if the program returns. -/
theorem run_watch (h : m.run (M.watch W) (s, d) = .ok (a, (t, d'))) :
    m.run M s = .ok (a, t) ∧ W.along (m.trace M s) d = .ok d' := by
  induction m generalizing s d with
  | ret b =>
    cases h
    exact ⟨rfl, rfl⟩
  | op o k ih =>
    rw [Prog.run, Machine.watch] at h
    rw [Prog.run, Prog.trace, Watch.along]
    cases hw : W o d with
    | error e =>
      rw [hw] at h
      cases h
    | ok d' =>
      rw [hw] at h
      cases hm : M o s with
      | error e =>
        rw [hm] at h
        cases h
      | ok r =>
        rw [hm] at h
        exact ih r.1 h

/-- One operation, which the watch lets pass. -/
theorem Wp.watch_bind {o : Op} {β : Type} {g : Ans o → Prog Op Ans β} {R : β → σ × μ → Prop}
    (hw : W o d = .ok d') (hE : ∀ e, M o s = .error e → E e)
    (h : ∀ a t, M o s = .ok (a, t) → Wp (M.watch W) E (g a) (t, d') R) :
    Wp (M.watch W) E (Prog.perform o >>= g) (s, d) R := by
  rw [Wp, run_bind, Prog.perform, Prog.run, Machine.watch, hw]
  cases hm : M o s with
  | error e => exact hE e hm
  | ok r => exact h r.1 r.2 hm

end Xv6.Schemes
