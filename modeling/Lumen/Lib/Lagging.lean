import Lumen.Lib.Refinement

/-!
# Answers that lag

In `M` an operation may show what it has done, and return, some steps after it has taken effect,
while in `A` it does both at once: so `A` is ahead of `M` by what the threads of `M` still have to
show (`pending`). Thread by thread the two then show the same.
-/

set_option autoImplicit false

namespace Lumen.Lib.Shared

variable {ι α ρ ε : Type*}

/-- Whether it is an event of thread `i`. -/
def Event.by [DecidableEq ι] (i : ι) : Event ι α ρ ε → Bool
  | .call j _ | .ret j _ | .obs j _ => decide (j = i)

/-- What a thread shows and returns, as events of thread `i`. -/
def Event.out (i : ι) : ε ⊕ ρ → Event ι α ρ ε
  | .inl e => .obs i e
  | .inr r => .ret i r

/-- What a step shows and returns. -/
def shown (os : List ε) (r : Option ρ) : List (ε ⊕ ρ) := os.map .inl ++ (r.map .inr).toList

/-- The events of thread `i`. -/
def eventsBy [DecidableEq ι] (i : ι) (h : List (Event ι α ρ ε)) : List (Event ι α ρ ε) :=
  h.filter (Event.by i)

section
variable [DecidableEq ι] {i j : ι}

@[simp] theorem eventsBy_append (h h' : List (Event ι α ρ ε)) :
    eventsBy i (h ++ h') = eventsBy i h ++ eventsBy i h' := List.filter_append ..

theorem eventsBy_self (e : Event ι α ρ ε) : ∃ i, Event.by i e = true := by
  cases e <;> exact ⟨_, decide_eq_true rfl⟩

/-- Histories that are the same thread by thread have the same events. -/
theorem perm_of_eventsBy {h h' : List (Event ι α ρ ε)} (he : ∀ i, eventsBy i h = eventsBy i h') :
    h.Perm h' := by
  classical
  refine List.perm_iff_count.2 fun e => ?_
  obtain ⟨i, hi⟩ := eventsBy_self e
  have hcount := congrArg (List.count e) (he i)
  rwa [eventsBy, eventsBy, List.count_filter hi, List.count_filter hi] at hcount

theorem mem_of_eventsBy {h h' : List (Event ι α ρ ε)} {e : Event ι α ρ ε} {rest : ι → List _}
    (he : ∀ i, eventsBy i h' = eventsBy i h ++ rest i) (hm : e ∈ h) : e ∈ h' := by
  obtain ⟨i, hi⟩ := eventsBy_self e
  have hmem : e ∈ eventsBy i h' := by
    rw [he i]
    exact List.mem_append_left _ (List.mem_filter.2 ⟨hm, hi⟩)
  exact (List.mem_filter.1 hmem).1

theorem eventsBy_out (l : List (ε ⊕ ρ)) :
    eventsBy i (l.map (Event.out (α := α) i)) = l.map (Event.out i) := by
  refine List.filter_eq_self.2 fun e he => ?_
  obtain ⟨x, -, rfl⟩ := List.mem_map.1 he
  cases x <;> simp [Event.out, Event.by]

theorem eventsBy_out_ne (hj : j ≠ i) (l : List (ε ⊕ ρ)) :
    eventsBy j (l.map (Event.out (α := α) i)) = [] := by
  refine List.filter_eq_nil_iff.2 fun e he => ?_
  obtain ⟨x, -, rfl⟩ := List.mem_map.1 he
  cases x <;> simpa [Event.out, Event.by] using hj.symm

end

theorem out_shown (i : ι) (os : List ε) (r : Option ρ) :
    (shown os r).map (Event.out (α := α) i) = os.map (.obs i) ++ (r.map (.ret i)).toList := by
  rw [shown, List.map_append, List.map_map]
  congr 1
  cases r <;> rfl

namespace Impl

variable {μ π χ ν θ ζ δ τ : Type*} [DecidableEq ι]

/-- `A`, whose steps meet `D`, follows `M`, whose steps meet `C`, and may be ahead of it. -/
structure Lags [DecidableEq π] [DecidableEq θ] (M : Impl ι μ π χ α ρ ε) (A : Impl ι ν θ ζ α ρ δ)
    (f : ε → Option τ) (g : δ → Option τ) (C : State ι μ π → ι × Act α χ → Prop)
    (D : State ι ν θ → ι × Act α ζ → Prop) (pending : π → List (τ ⊕ ρ))
    (R : State ι μ π → State ι ν θ → Prop) : Prop where
  init : R M.init A.init
  idle : pending M.idle = []
  free : ∀ t i c, D t (i, .run c)
  call : ∀ s t i op, R s t → C s (i, .call op) → s.pc i = M.idle →
    t.pc i = A.idle ∧ D t (i, .call op) ∧ pending (M.entry op) = [] ∧
      R (s.moved i s.mem (M.entry op)) (t.moved i t.mem (A.entry op))
  run : ∀ h s t i c o, M.lts.ReachIf (fun _ => C) h s → R s t → C s (i, .run c) →
    M.run i s.mem c (s.pc i) = some o → ∃ os r m p, A.Moves i t.mem (t.pc i) os r m p ∧
      pending (s.pc i) ++ shown (os.filterMap g) r =
        shown (o.obs.filterMap f) o.ret ++ pending o.pc ∧
      R (s.moved i o.mem o.pc) (t.moved i m p)

variable [DecidableEq π] [DecidableEq θ] {M : Impl ι μ π χ α ρ ε} {A : Impl ι ν θ ζ α ρ δ}
  {f : ε → Option τ} {g : δ → Option τ} {C : State ι μ π → ι × Act α χ → Prop}
  {D : State ι ν θ → ι × Act α ζ → Prop} {pending : π → List (τ ⊕ ρ)}
  {R : State ι μ π → State ι ν θ → Prop}

/-- Each thread of `A` has shown what the thread of `M` has, and what that has pending. -/
def Agrees (f : ε → Option τ) (g : δ → Option τ) (pending : π → List (τ ⊕ ρ)) (pc : ι → π)
    (h : List (Event ι α ρ ε)) (h' : List (Event ι α ρ δ)) : Prop :=
  ∀ i, eventsBy i (h'.filterMap (Event.through g)) =
    eventsBy i (h.filterMap (Event.through f)) ++ (pending (pc i)).map (Event.out i)

omit [DecidableEq π] in
theorem Agrees.call {pc : ι → π} {h : List (Event ι α ρ ε)} {h' : List (Event ι α ρ δ)}
    (ha : Agrees f g pending pc h h') {i : ι} {op : α} {p : π} (h0 : pending (pc i) = [])
    (h1 : pending p = []) :
    Agrees f g pending (Function.update pc i p) (h ++ [.call i op]) (h' ++ [.call i op]) := by
  intro j
  have haj := ha j
  by_cases hj : j = i
  · subst hj
    rw [h0, List.map_nil, List.append_nil] at haj
    simp [Event.through, haj, h1]
  · have hne : eventsBy j [(.call i op : Event ι α ρ τ)] = [] := by
      simp [eventsBy, Event.by, Ne.symm hj]
    rw [List.filterMap_append, List.filterMap_append, eventsBy_append, eventsBy_append, haj,
      Function.update_of_ne hj]
    simp only [List.filterMap_cons, Event.through, List.filterMap_nil, hne, List.append_nil]

omit [DecidableEq π] in
theorem Agrees.run {pc : ι → π} {h : List (Event ι α ρ ε)} {h' : List (Event ι α ρ δ)}
    (ha : Agrees f g pending pc h h') {i : ι} {p : π} {idle : π} {o : Outcome μ ρ ε idle}
    {os : List δ} {r : Option ρ} (hp : pending (pc i) ++ shown (os.filterMap g) r =
      shown (o.obs.filterMap f) o.ret ++ pending p) :
    Agrees f g pending (Function.update pc i p) (h ++ o.events i)
      (h' ++ (os.map (.obs i) ++ (r.map (.ret i)).toList)) := by
  intro j
  have haj := ha j
  have hA : (h' ++ (os.map (Event.obs i) ++ (r.map (Event.ret i)).toList)).filterMap
        (Event.through g) =
      h'.filterMap (Event.through g) ++ (shown (os.filterMap g) r).map (Event.out i) := by
    rw [List.filterMap_append, out_shown]
    exact congrArg _ (through_events g ({ obs := os, ret := r, mem := (), pc := () } :
      Outcome Unit ρ δ ()) i)
  have hM : (h ++ o.events i).filterMap (Event.through f) =
      h.filterMap (Event.through f) ++ (shown (o.obs.filterMap f) o.ret).map (Event.out i) := by
    rw [List.filterMap_append, out_shown, through_events]
  rw [hA, hM, eventsBy_append, eventsBy_append, haj]
  by_cases hj : j = i
  · subst hj
    rw [eventsBy_out, eventsBy_out, Function.update_self, List.append_assoc, List.append_assoc,
      ← List.map_append, ← List.map_append, hp]
  · rw [eventsBy_out_ne hj, eventsBy_out_ne hj, Function.update_of_ne hj, List.append_nil,
      List.append_nil]

/-- Every run of `M` has a run of `A` that agrees with it. -/
theorem Lags.reach (hL : M.Lags A f g C D pending R) {h : List (Event ι α ρ ε)} {s : State ι μ π}
    (hr : M.lts.ReachIf (fun _ => C) h s) : ∃ h' t, A.lts.ReachIf (fun _ => D) h' t ∧ R s t ∧
      Agrees f g pending s.pc h h' := by
  induction hr with
  | init h0 =>
    obtain rfl := h0
    refine ⟨[], A.init, .init rfl, hL.init, fun i => ?_⟩
    rw [show (M.init).pc i = M.idle from rfl, hL.idle]
    rfl
  | @step h s l es s' hr hc hs ih =>
    obtain ⟨h', t, ht, hrel, ha⟩ := ih
    obtain ⟨i, op | c⟩ := l
    · obtain ⟨hpc, rfl, rfl⟩ := step_call.1 hs
      obtain ⟨hidle, hD, hentry, hrel'⟩ := hL.call s t i op hrel hc hpc
      exact ⟨_, _, ht.step hD (step_call.2 ⟨hidle, rfl, rfl⟩), hrel',
        ha.call (by rw [hpc, hL.idle]) hentry⟩
    · obtain ⟨o, ho, rfl, rfl⟩ := step_run.1 hs
      obtain ⟨os, r, m, p, hm, hp, hrel'⟩ := hL.run h s t i c o hr hrel hc ho
      obtain ⟨cs, hcs⟩ := hm.exec rfl rfl
      refine ⟨_, _, Lts.ReachIf.exec (fun l hl _ t => ?_) ht hcs, hrel', ha.run hp⟩
      obtain ⟨c, -, rfl⟩ := List.mem_map.1 hl
      exact hL.free t i c

end Impl
end Lumen.Lib.Shared
