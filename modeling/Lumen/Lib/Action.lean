import Mathlib.Logic.Basic

/-!
# Actions that write a state and may throw

`Action σ ε α` reads and writes a state `σ` and returns an `α` or throws an `ε`; what it has written
before it throws stays written. `Triple P x Q R`: from a state of `P` the action `x` returns in a
state of `Q`, or throws in a state of `R`. There is one rule for each way to build an action.
-/

set_option autoImplicit false

namespace Lumen.Lib

abbrev Action (σ ε α : Type) := ExceptT ε (StateM σ) α

namespace Action

variable {σ ε α β : Type}

/-- How the action ends, and the state it leaves. -/
def exec (x : Action σ ε α) (s : σ) : Except ε α × σ := x.run.run s

theorem exec_bind (x : Action σ ε α) (f : α → Action σ ε β) (s : σ) :
    (x >>= f).exec s =
      match x.exec s with
      | (.ok a, s') => (f a).exec s'
      | (.error e, s') => (.error e, s') := by
  show ExceptT.bindCont f (x.exec s).1 (x.exec s).2 = _
  rcases x.exec s with ⟨_ | _, _⟩ <;> rfl

/-- An action that returns has returned from its parts. -/
theorem exec_bind_ok {x : Action σ ε α} {f : α → Action σ ε β} {s s' : σ} {b : β} :
    (x >>= f).exec s = (.ok b, s') ↔
      ∃ a s1, x.exec s = (.ok a, s1) ∧ (f a).exec s1 = (.ok b, s') := by
  rw [exec_bind]
  generalize x.exec s = r
  obtain ⟨e | a, s1⟩ := r
  · exact ⟨fun h => (by cases h), fun ⟨_, _, h, _⟩ => (by cases h)⟩
  · exact ⟨fun h => ⟨a, s1, rfl, h⟩, fun ⟨_, _, h, hf⟩ => (by cases h; exact hf)⟩

theorem exec_modify {f : σ → σ} {s s' : σ} {a : PUnit} :
    (modify f : Action σ ε PUnit).exec s = (.ok a, s') ↔ s' = f s :=
  ⟨fun h => (by cases h; rfl), fun h => (by rw [h]; rfl)⟩

/-- A computed value, or the exception, and then the rest. -/
theorem exec_lift_bind (r : Except ε α) (f : α → Action σ ε β) (s : σ) :
    ((liftM r : Action σ ε α) >>= f).exec s =
      match r with
      | .ok a => (f a).exec s
      | .error e => (.error e, s) := by
  rw [exec_bind]
  show (match (r, s) with
    | (.ok a, s') => (f a).exec s'
    | (.error e, s') => (.error e, s')) = _
  cases r <;> rfl

theorem exec_modify_bind (g : σ → σ) (f : PUnit → Action σ ε β) (s : σ) :
    ((modify g : Action σ ε PUnit) >>= f).exec s = (f ⟨⟩).exec (g s) := exec_bind _ f s

def Triple (P : σ → Prop) (x : Action σ ε α) (Q : α → σ → Prop) (R : σ → Prop) : Prop :=
  ∀ s, P s → match x.exec s with
    | (.ok a, s') => Q a s'
    | (.error _, s') => R s'

namespace Triple

variable {P : σ → Prop} {Q : α → σ → Prop} {Q' : β → σ → Prop} {R : σ → Prop}
  {x : Action σ ε α}

theorem ret {a : α} (h : ∀ s, P s → Q a s) : Triple P (pure a : Action σ ε α) Q R := h

theorem write {f : σ → σ} {Q : PUnit → σ → Prop} (h : ∀ s, P s → Q ⟨⟩ (f s)) :
    Triple P (modify f : Action σ ε PUnit) Q R := h

/-- What only computes a value, or throws. -/
theorem lift {r : Except ε α} (h : ∀ a s, P s → Q a s) (hr : ∀ s, P s → R s) :
    Triple P (liftM r : Action σ ε α) Q R := by
  intro s hs
  show match (r, s) with | (.ok a, s') => Q a s' | (.error _, s') => R s'
  cases r with
  | ok a => exact h a s hs
  | error e => exact hr s hs

theorem seq {f : α → Action σ ε β} (hx : Triple P x Q R)
    (hf : ∀ a, Triple (Q a) (f a) Q' R) : Triple P (x >>= f) Q' R := by
  intro s hs
  have hx := hx s hs
  rw [exec_bind]
  generalize x.exec s = r at hx ⊢
  obtain ⟨e | a, s'⟩ := r
  · exact hx
  · exact hf a s' hx

/-- A value is computed, and the rest goes on with it. -/
theorem read {r : Except ε α} {f : α → Action σ ε β} (hr : ∀ s, P s → R s)
    (hf : ∀ a, Triple P (f a) Q' R) : Triple P ((liftM r : Action σ ε α) >>= f) Q' R :=
  .seq (.lift (fun _ _ hs => hs) hr) hf

/-- The state is written, and the rest goes on from `M`. -/
theorem assign {f : σ → σ} {y : PUnit → Action σ ε β} (M : σ → Prop) (h : ∀ s, P s → M (f s))
    (hy : Triple M (y ⟨⟩) Q' R) : Triple P ((modify f : Action σ ε PUnit) >>= y) Q' R :=
  .seq (Q := fun _ => M) (.write h) fun _ => hy

/-- What holds however the action ends. -/
theorem after {Q : σ → Prop} {s : σ} (hx : Triple P x (fun _ => Q) Q) (hs : P s) :
    Q (x.exec s).2 := by
  have hx := hx s hs
  generalize x.exec s = r at hx ⊢
  obtain ⟨e | a, s'⟩ := r <;> exact hx

end Triple
end Action
end Lumen.Lib
