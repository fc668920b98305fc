import Mathlib.Logic.Basic

/-! @scheme traced | name:Fallible computations that leave a trace | family:hoare

    A computation fails or returns a value, and either way has touched a list of things. What it
    may touch and what its value satisfies are shown together, by one rule for each construct. -/

namespace Xv6.Schemes

universe u
variable {ι α β : Type u}

/-- A computation that may fail, with all it has touched. -/
structure Traced (ι α : Type u) where
  ret : Option α
  trace : List ι

namespace Traced

/-- Failing, without touching anything. -/
def fail : Traced ι α := ⟨none, []⟩

/-- Touching `i` on the way to the value `a`. -/
def touch (i : ι) (a : α) : Traced ι α := ⟨some a, [i]⟩

/-- The rest of a computation runs only if the first part returns. -/
def andThen (x : Traced ι α) (f : α → Traced ι β) : Traced ι β :=
  match x.ret with
  | none => ⟨none, x.trace⟩
  | some a => ⟨(f a).ret, x.trace ++ (f a).trace⟩

instance : Monad (Traced ι) where
  pure a := ⟨some a, []⟩
  bind := andThen

/-- Only what meets `S` is touched, and a value that is returned meets `Q`. -/
structure Ensures (S : ι → Prop) (x : Traced ι α) (Q : α → Prop) : Prop where
  inside : ∀ i ∈ x.trace, S i
  post : ∀ a, x.ret = some a → Q a

variable {S : ι → Prop} {x : Traced ι α} {f : α → Traced ι β} {Q Q' : α → Prop} {R : β → Prop}

theorem Ensures.fail : Ensures S (fail : Traced ι α) Q :=
  ⟨fun i hi => by simp [Traced.fail] at hi, fun a ha => by simp [Traced.fail] at ha⟩

theorem Ensures.pure {a : α} (h : Q a) : Ensures S (Pure.pure a : Traced ι α) Q := by
  refine ⟨fun i hi => ?_, fun b hb => ?_⟩
  · simp [Pure.pure] at hi
  · obtain rfl := Option.some.inj hb
    exact h

theorem Ensures.touch {i : ι} {a : α} (hi : S i) (h : Q a) : Ensures S (touch i a) Q := by
  refine ⟨fun j hj => ?_, fun b hb => ?_⟩
  · obtain rfl : j = i := by simpa [Traced.touch] using hj
    exact hi
  · obtain rfl := Option.some.inj hb
    exact h

/-- Composition: the rest may rely on what the first part has returned. -/
theorem Ensures.bind (hx : Ensures S x Q) (hf : ∀ a, Q a → Ensures S (f a) R) :
    Ensures S (x >>= f) R := by
  change Ensures S (x.andThen f) R
  unfold andThen
  cases hr : x.ret with
  | none => exact ⟨hx.inside, fun b hb => by simp at hb⟩
  | some a =>
    have ha := hf a (hx.post a hr)
    refine ⟨fun i hi => ?_, ha.post⟩
    rcases List.mem_append.mp hi with hi | hi
    · exact hx.inside i hi
    · exact ha.inside i hi

theorem Ensures.mono (h : Ensures S x Q) (hQ : ∀ a, Q a → Q' a) : Ensures S x Q' :=
  ⟨h.inside, fun a ha => hQ a (h.post a ha)⟩

/-- A value that a composition returns comes from a value of its first part. -/
theorem bind_ret : (x >>= f).ret = x.ret.bind fun a => (f a).ret := by
  change (x.andThen f).ret = _
  unfold andThen
  cases x.ret <;> rfl

end Traced

end Xv6.Schemes
