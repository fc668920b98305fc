import Xv6.Fs.Sequential
import Mathlib.Data.Finset.Insert
import Mathlib.Data.Finset.Lattice.Lemmas

/-! @src log.c | name:What a program logs | layer:proof

    The blocks that are passed to `log_write` in a transaction, read off the trace of a program, and
    the rules for a run together with the blocks that it logs. -/

namespace Xv6.Fs
open Xv6.Disk Xv6.Schemes

/-- The distinct blocks passed to `log_write` since `begin_op`. -/
def note (D : Finset ℕ) : Op → Finset ℕ
  | .beginOp => ∅
  | .logWrite n => insert n D
  | _ => D

/-- The distinct blocks passed to `log_write` since the last `begin_op` of a trace. -/
def pending (l : List Op) : Finset ℕ := l.foldl note ∅

section

variable {τ α β : Type} [DecidableEq τ] {p : τ} {x : Option (List UInt8)} {s t u : Sys τ}
  {m : Code α} {f : α → Code β} {a : α} {b : β} {n : ℕ} {L L' : Finset ℕ}

/-- Within a transaction the program runs from `s` to `t`, returns `a`, and logs the blocks of `L`. -/
structure Logs (p : τ) (x : Option (List UInt8)) (m : Code α) (s : Sys τ) (a : α) (t : Sys τ)
    (L : Finset ℕ) : Prop where
  run : m.run (Sys.act p x) s = .ok (a, t)
  trace : ∀ D, (m.trace (Sys.act p x) s).foldl note D = D ∪ L

theorem Logs.pure (s : Sys τ) (a : α) : Logs p x (pure a) s a s ∅ :=
  ⟨rfl, fun D => (Finset.union_empty D).symm⟩

theorem Logs.bind (h : Logs p x m s a t L) (h' : Logs p x (f a) t b u L') :
    Logs p x (m >>= f) s b u (L ∪ L') where
  run := by
    rw [run_bind, h.run]
    exact h'.run
  trace D := by
    rw [trace_bind, h.run, List.foldl_append, h.trace]
    change ((f a).trace _ t).foldl note _ = _
    rw [h'.trace, Finset.union_assoc]

theorem Logs.perform {o : Op} {a : Ans o} {f : Ans o → Code β} {K : Finset ℕ}
    (h : Sys.act p x o s = .ok (a, t)) (hn : ∀ D, note D o = D ∪ K)
    (h' : Logs p x (f a) t b u L) : Logs p x (perform o >>= f) s b u (K ∪ L) where
  run := by
    rw [run_bind, Fs.perform, Prog.perform, Prog.run, h]
    exact h'.run
  trace D := by
    rw [trace_bind, Fs.perform, Prog.perform, Prog.run, Prog.trace, h]
    change ((f a).trace _ t).foldl note (note D o) = _
    rw [hn, h'.trace, Finset.union_assoc]

/-- An operation that logs nothing. -/
theorem Logs.op {o : Op} {a : Ans o} {f : Ans o → Code β} (h : Sys.act p x o s = .ok (a, t))
    (hn : ∀ D, note D o = D) (h' : Logs p x (f a) t b u L) :
    Logs p x (Fs.perform o >>= f) s b u L := by
  have hp := Logs.perform (K := ∅) h (fun D => (hn D).trans (Finset.union_empty D).symm) h'
  rwa [Finset.empty_union] at hp

theorem Logs.bread {l : Loc} {f : ℕ × Block → Code β} (hn : l.at s.sb < s.disksize)
    (hb : s.buf (l.at s.sb) = none)
    (h : Logs p x (f (l.at s.sb, s.blk (l.at s.sb))) (s.setBuf (l.at s.sb) (some p)) b u L) :
    Logs p x (Fs.bread l >>= f) s b u L := by
  refine .op ?_ (fun _ => rfl) h
  rw [Sys.act, if_neg (not_le.mpr hn), hb]
  rfl

theorem Logs.brelse {f : Unit → Code β} (hb : s.buf n = some p)
    (h : Logs p x (f ()) (s.setBuf n none) b u L) : Logs p x (Fs.brelse n >>= f) s b u L := by
  refine .op ?_ (fun _ => rfl) h
  rw [Sys.act, if_pos hb]
  rfl

theorem Logs.logged {c : Block} {f : Unit → Code β} (ho : 1 ≤ s.outstanding)
    (h : Logs p x (f ()) (s.setBlk n c) b u L) :
    Logs p x (Fs.logged n c >>= f) s b u (insert n L) := by
  have hact : Sys.act p x (.logWrite n) (s.setBlk n c) = .ok ((), s.setBlk n c) :=
    if_neg (Nat.not_lt.mpr ho)
  rw [Fs.logged, Prog.bind_assoc, Finset.insert_eq]
  refine .op rfl (fun _ => rfl) ?_
  exact .perform (K := {n}) hact (fun D => (Finset.union_singleton n D).symm) h

end

end Xv6.Fs
