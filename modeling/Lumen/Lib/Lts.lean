import Mathlib.Data.List.Basic
import Mathlib.Logic.Function.Basic

/-!
# Transition systems with a history

A system moves from state to state by labelled actions; a label fixes the whole step (which thread
moves, what the environment answers), so `step` is a function. Each step shows a list of events,
and the *history* of a run is the concatenation of what its steps showed. Properties of runs are
predicates on the history and the state reached.

* `Reach h s`: some run from an initial state shows `h` and ends in `s`.
* `ReachIf C h s`: the same, every step of the run meeting the condition `C` on the history, the
  state before it and its label.
* `Reach.inv`, `Reach.inv_while`, `ReachIf.inv`: the invariant rules.
* `Past P h`: every event of `h` is related by `P` to the events before it.
* `exec`: the run of a given list of labels, for segments of runs and for concrete runs; `Along`:
  the condition on its steps.
* `Since mark h0 h1 s`: a run that has shown `h0` with its last step of the kind `mark`, and `h1`
  since.
* `Both`, `exec_both`: a relation that every step keeps relates what any two runs of the same labels
  show and reach.
-/

set_option autoImplicit false

namespace Lumen.Lib

/-- A transition system over the states `σ`: `step s l` is what the action `l` does in `s`, with
the events it shows, and `none` where `l` is not enabled. -/
structure Lts (σ ℓ ε : Type*) where
  init : σ → Prop
  step : σ → ℓ → Option (List ε × σ)

/-- Every event of `h` meets `P` with the events before it. -/
def Past {ε : Type*} (P : List ε → ε → Prop) (h : List ε) : Prop :=
  ∀ h1 e h2, h = h1 ++ e :: h2 → P h1 e

namespace Past

variable {ε : Type*} {P : List ε → ε → Prop} {h : List ε}

theorem nil : Past P [] := fun _ _ _ he => by simp at he

/-- Only the new events have to be looked at. -/
theorem append {es : List ε} (hp : Past P h)
    (he : ∀ es1 e es2, es = es1 ++ e :: es2 → P (h ++ es1) e) : Past P (h ++ es) := by
  intro h1 e h2 heq
  rcases List.append_eq_append_iff.1 heq with ⟨a, rfl, hes⟩ | ⟨a, rfl, hcons⟩
  · exact he a e h2 hes
  · cases a with
    | nil =>
      simpa using he [] e h2 hcons.symm
    | cons b a =>
      rw [List.cons_append, List.cons.injEq] at hcons
      obtain ⟨rfl, rfl⟩ := hcons
      exact hp h1 e a rfl

theorem append_nil (hp : Past P h) : Past P (h ++ []) := by rwa [List.append_nil]

theorem append_one {e : ε} (hp : Past P h) (he : P h e) : Past P (h ++ [e]) := by
  refine hp.append fun es1 e' es2 heq => ?_
  obtain ⟨rfl, rfl, rfl⟩ : es1 = [] ∧ e' = e ∧ es2 = [] := by
    cases es1 with
    | nil => simpa [eq_comm] using heq
    | cons => simp at heq
  rwa [List.append_nil]

theorem of_append_one {e : ε} (hp : Past P (h ++ [e])) : Past P h ∧ P h e :=
  ⟨fun es1 e' es2 heq => hp es1 e' (es2 ++ [e]) (by rw [heq, List.append_assoc, List.cons_append]),
    hp h e [] rfl⟩

end Past

namespace Lts

variable {σ ℓ ε : Type*} (T : Lts σ ℓ ε)

/-- The runs whose steps all meet `C`. -/
inductive ReachIf (C : List ε → σ → ℓ → Prop) : List ε → σ → Prop
  | init {s : σ} : T.init s → ReachIf C [] s
  | step {h : List ε} {s : σ} {l : ℓ} {es : List ε} {s' : σ} :
      ReachIf C h s → C h s l → T.step s l = some (es, s') → ReachIf C (h ++ es) s'

/-- All runs. -/
def Reach : List ε → σ → Prop := T.ReachIf fun _ _ _ => True

/-- The run of the labels `ls` from `s`. -/
def exec : σ → List ℓ → Option (List ε × σ)
  | s, [] => some ([], s)
  | s, l :: ls => (T.step s l).bind fun p => (exec p.2 ls).map fun q => (p.1 ++ q.1, q.2)

variable {T} {C : List ε → σ → ℓ → Prop} {h : List ε} {s s' : σ}

theorem Reach.init (h0 : T.init s) : T.Reach [] s := ReachIf.init h0

theorem Reach.step {l : ℓ} {es : List ε} (hr : T.Reach h s) (hs : T.step s l = some (es, s')) :
    T.Reach (h ++ es) s' := ReachIf.step hr trivial hs

theorem ReachIf.reach (hr : T.ReachIf C h s) : T.Reach h s := by
  induction hr with
  | init h0 => exact .init h0
  | step _ _ hs ih => exact ih.step hs

theorem ReachIf.mono {C' : List ε → σ → ℓ → Prop} (hC : ∀ h s l, C h s l → C' h s l)
    (hr : T.ReachIf C h s) : T.ReachIf C' h s := by
  induction hr with
  | init h0 => exact .init h0
  | step _ hc hs ih => exact ih.step (hC _ _ _ hc) hs

/-! ## Invariants -/

theorem ReachIf.inv {I : List ε → σ → Prop} (h0 : ∀ s, T.init s → I [] s)
    (hs : ∀ h s l es s', I h s → C h s l → T.step s l = some (es, s') → I (h ++ es) s')
    (hr : T.ReachIf C h s) : I h s := by
  induction hr with
  | init hi => exact h0 _ hi
  | step _ hc hst ih => exact hs _ _ _ _ _ ih hc hst

/-- The same, where what is known of all runs helps to keep the invariant. -/
theorem ReachIf.inv_of_reach {I : List ε → σ → Prop} (h0 : ∀ s, T.init s → I [] s)
    (hs : ∀ h s l es s', T.ReachIf C h s → I h s → C h s l → T.step s l = some (es, s') →
      I (h ++ es) s') (hr : T.ReachIf C h s) : I h s := by
  induction hr with
  | init hi => exact h0 _ hi
  | step hr hc hst ih => exact hs _ _ _ _ _ hr ih hc hst

theorem Reach.inv {I : List ε → σ → Prop} (h0 : ∀ s, T.init s → I [] s)
    (hs : ∀ h s l es s', I h s → T.step s l = some (es, s') → I (h ++ es) s')
    (hr : T.Reach h s) : I h s :=
  ReachIf.inv h0 (fun h s l es s' hi _ => hs h s l es s' hi) hr

/-- Invariants of the runs that stay within a bound `B`, which once left is never met again. -/
theorem Reach.inv_while {I : List ε → σ → Prop} {B : List ε → σ → Prop}
    (hB : ∀ h s l es s', T.step s l = some (es, s') → B (h ++ es) s' → B h s)
    (h0 : ∀ s, T.init s → I [] s)
    (hs : ∀ h s l es s', T.Reach h s → B (h ++ es) s' → I h s → T.step s l = some (es, s') →
      I (h ++ es) s')
    (hr : T.Reach h s) : B h s → I h s :=
  ReachIf.inv_of_reach (I := fun h s => B h s → I h s) (fun s hi _ => h0 s hi)
    (fun h s l es s' hr ih _ hst hb => hs h s l es s' hr hb (ih (hB h s l es s' hst hb)) hst) hr

/-! ## Segments of runs -/

@[simp] theorem exec_nil : T.exec s [] = some ([], s) := rfl

theorem exec_cons {l : ℓ} {ls : List ℓ} {p : List ε × σ} :
    T.exec s (l :: ls) = some p ↔ ∃ es s' h, T.step s l = some (es, s') ∧
      T.exec s' ls = some (h, p.2) ∧ p.1 = es ++ h := by
  obtain ⟨p1, p2⟩ := p
  simp only [exec, Option.bind_eq_some_iff, Option.map_eq_some_iff, Prod.mk.injEq]
  constructor
  · rintro ⟨⟨es, s1⟩, hst, ⟨h, s2⟩, he, rfl, rfl⟩
    exact ⟨es, s1, h, hst, he, rfl⟩
  · rintro ⟨es, s1, h, hst, he, rfl⟩
    exact ⟨(es, s1), hst, (h, p2), he, rfl, rfl⟩

/-- What every step keeps, a segment of a run keeps. -/
theorem exec_inv {I : σ → Prop} (hI : ∀ s l es s', I s → T.step s l = some (es, s') → I s')
    {ls : List ℓ} {h : List ε} (hs : I s) (he : T.exec s ls = some (h, s')) : I s' := by
  induction ls generalizing s h with
  | nil =>
    cases he
    exact hs
  | cons l ls ih =>
    obtain ⟨es, s1, k, hst, he', -⟩ := exec_cons.1 he
    exact ih (hI s l es s1 hs hst) he'

theorem exec_append (s : σ) (ls ls' : List ℓ) :
    T.exec s (ls ++ ls') = (T.exec s ls).bind fun p =>
      (T.exec p.2 ls').map fun q => (p.1 ++ q.1, q.2) := by
  induction ls generalizing s with
  | nil => simp
  | cons l ls ih =>
    simp only [List.cons_append, exec, ih]
    cases T.step s l with
    | none => rfl
    | some p =>
      simp only [Option.bind_some]
      cases T.exec p.2 ls with
      | none => rfl
      | some q =>
        simp only [Option.bind_some, Option.map_some, Option.map_map, List.append_assoc]
        rfl

/-- The conditions met along the run of `ls` from `s`, where `h` has been shown. -/
def Along (T : Lts σ ℓ ε) (C : List ε → σ → ℓ → Prop) : List ε → σ → List ℓ → Prop
  | _, _, [] => True
  | h, s, l :: ls => C h s l ∧ (T.step s l).elim True fun p => Along T C (h ++ p.1) p.2 ls

instance Along.decidable [∀ h s l, Decidable (C h s l)] :
    ∀ ls h s, Decidable (T.Along C h s ls)
  | [], _, _ => .isTrue trivial
  | l :: ls, h, s =>
    haveI : Decidable ((T.step s l).elim True fun p => T.Along C (h ++ p.1) p.2 ls) :=
      match T.step s l with
      | none => .isTrue trivial
      | some p => Along.decidable ls (h ++ p.1) p.2
    inferInstanceAs (Decidable (_ ∧ _))

theorem ReachIf.along {ls : List ℓ} {h' : List ε} (hr : T.ReachIf C h s) (hC : T.Along C h s ls)
    (he : T.exec s ls = some (h', s')) : T.ReachIf C (h ++ h') s' := by
  induction ls generalizing s h h' with
  | nil =>
    simp only [exec_nil, Option.some.injEq, Prod.mk.injEq] at he
    obtain ⟨rfl, rfl⟩ := he
    simpa using hr
  | cons l ls ih =>
    obtain ⟨es, s1, k, hst, he', rfl⟩ := exec_cons.1 he
    rw [← List.append_assoc]
    have hC' := hC.2
    rw [hst] at hC'
    exact ih (hr.step hC.1 hst) hC' he'

/-- Where every label of the run meets the condition in any state. -/
theorem along_of_forall {ls : List ℓ} (hC : ∀ l ∈ ls, ∀ h s, C h s l) : T.Along C h s ls := by
  induction ls generalizing h s with
  | nil => trivial
  | cons l ls ih =>
    refine ⟨hC l List.mem_cons_self h s, ?_⟩
    cases T.step s l with
    | none => trivial
    | some p => exact ih fun l hl => hC l (List.mem_cons_of_mem _ hl)

theorem ReachIf.exec {ls : List ℓ} {h' : List ε} (hC : ∀ l ∈ ls, ∀ h s, C h s l)
    (hr : T.ReachIf C h s) (he : T.exec s ls = some (h', s')) : T.ReachIf C (h ++ h') s' :=
  hr.along (along_of_forall hC) he

theorem Reach.exec {ls : List ℓ} {h' : List ε} (hr : T.Reach h s)
    (he : T.exec s ls = some (h', s')) : T.Reach (h ++ h') s' :=
  ReachIf.exec (fun _ _ _ _ => trivial) hr he

/-! ## The last step of a kind -/

/-- A run, its steps all meeting `C`, ends in `s`. It has shown `h0` with its last step of the kind
`mark`, and `h1` since. -/
inductive Since (T : Lts σ ℓ ε) (C : List ε → σ → ℓ → Prop) (mark : σ → ℓ → Prop) :
    List ε → List ε → σ → Prop
  | mark {h : List ε} {s : σ} {l : ℓ} {es : List ε} {s' : σ} :
      T.ReachIf C h s → C h s l → mark s l → T.step s l = some (es, s') →
      Since T C mark (h ++ es) [] s'
  | step {h0 h1 : List ε} {s : σ} {l : ℓ} {es : List ε} {s' : σ} :
      Since T C mark h0 h1 s → C (h0 ++ h1) s l → ¬ mark s l → T.step s l = some (es, s') →
      Since T C mark h0 (h1 ++ es) s'

section
variable {mark : σ → ℓ → Prop} {h0 h1 : List ε}

theorem Since.reach (hs : T.Since C mark h0 h1 s) : T.ReachIf C (h0 ++ h1) s := by
  induction hs with
  | mark hr hc _ hst =>
    rw [List.append_nil]
    exact hr.step hc hst
  | step _ hc _ hst ih =>
    rw [← List.append_assoc]
    exact ih.step hc hst

/-- What only a marked step makes so is so since the last one. -/
theorem ReachIf.since {Q : σ → Prop} (hinit : ∀ s, T.init s → ¬ Q s)
    (hstep : ∀ s l es s', T.step s l = some (es, s') → ¬ mark s l → Q s' → Q s)
    (hr : T.ReachIf C h s) (hq : Q s) : ∃ h0 h1, h = h0 ++ h1 ∧ T.Since C mark h0 h1 s := by
  induction hr with
  | init hi => exact absurd hq (hinit _ hi)
  | @step h s l es s' hr hc hst ih =>
    by_cases hm : mark s l
    · exact ⟨h ++ es, [], (List.append_nil _).symm, .mark hr hc hm hst⟩
    · obtain ⟨h0, h1, rfl, hs⟩ := ih (hstep s l es s' hst hm hq)
      exact ⟨h0, h1 ++ es, List.append_assoc _ _ _, .step hs hc hm hst⟩

end

/-! ## States that no run tells apart -/

/-- Both are enabled or neither is; they show the same and lead to related states. -/
def Both (R : σ → σ → Prop) : Option (List ε × σ) → Option (List ε × σ) → Prop :=
  Option.Rel fun p q => p.1 = q.1 ∧ R p.2 q.2

theorem both_ite {R : σ → σ → Prop} {c : Prop} [Decidable c] {a a' b b' : Option (List ε × σ)}
    (ht : c → Both R a a') (hf : ¬ c → Both R b b') :
    Both R (if c then a else b) (if c then a' else b') := by
  by_cases hc : c
  · rw [if_pos hc, if_pos hc]
    exact ht hc
  · rw [if_neg hc, if_neg hc]
    exact hf hc

/-- What every step keeps, every run keeps. -/
theorem exec_both {R : σ → σ → Prop} {t : σ} {ls : List ℓ}
    (hR : ∀ s t l, R s t → Both R (T.step s l) (T.step t l)) (h : R s t) :
    Both R (T.exec s ls) (T.exec t ls) := by
  induction ls generalizing s t with
  | nil => exact .some ⟨rfl, h⟩
  | cons l ls ih =>
    have hstep := hR s t l h
    simp only [exec]
    generalize T.step s l = p, T.step t l = q at hstep ⊢
    cases hstep with
    | none => exact .none
    | @some p q hpq =>
      have hrest := ih hpq.2
      simp only [Option.bind_some]
      generalize T.exec p.2 ls = p', T.exec q.2 ls = q' at hrest ⊢
      cases hrest with
      | none => exact .none
      | some hpq' => exact .some ⟨congrArg₂ (· ++ ·) hpq.1 hpq'.1, hpq'.2⟩

/-- A concrete run from an initial state. -/
theorem Reach.of_exec {ls : List ℓ} (h0 : T.init s) (he : T.exec s ls = some (h, s')) :
    T.Reach h s' := by
  simpa using (Reach.init h0).exec he

end Lts
end Lumen.Lib
