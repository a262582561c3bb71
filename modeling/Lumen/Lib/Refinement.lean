import Lumen.Lib.Shared

/-!
# An object in the place of another

* `Impl.Refines`: each step of `M` that meets `C` is followed by steps of the same thread of `A`,
  which return what it returns and show what `f` keeps of its observations. The relation is between
  the states, so that it can be used inside larger states.
* `Refines.reachIf`: the calls and returns of every run of `M` are those of a run of `A`.
* `Impl.atomic`: the object whose operations take effect in one step each, between call and return.
-/

set_option autoImplicit false

namespace Lumen.Lib.Shared

variable {ι : Type*}

/-- What is kept of an event when `f` says what is kept of the observations. -/
def Event.through {α ρ ε δ : Type*} (f : ε → Option δ) : Event ι α ρ ε → Option (Event ι α ρ δ)
  | .call i op => some (.call i op)
  | .ret i r => some (.ret i r)
  | .obs i e => (f e).map (.obs i)

namespace State

variable {μ π : Type*} [DecidableEq ι]

/-- The state once thread `i` has moved. -/
def moved (s : State ι μ π) (i : ι) (m : μ) (p : π) : State ι μ π :=
  { mem := m, pc := Function.update s.pc i p }

variable {s : State ι μ π} {i : ι} {m m' : μ} {p p' : π}

@[simp] theorem moved_mem : (s.moved i m p).mem = m := rfl

@[simp] theorem moved_pc : (s.moved i m p).pc i = p := Function.update_self ..

theorem moved_pc_ne {j : ι} (h : j ≠ i) : (s.moved i m p).pc j = s.pc j :=
  Function.update_of_ne h ..

@[simp] theorem moved_moved : (s.moved i m p).moved i m' p' = s.moved i m' p' := by
  simp [moved]

theorem moved_self : s.moved i s.mem (s.pc i) = s := by
  simp [moved]

/-- A relation of the program counters, after a step of `i` on both sides. -/
theorem pcs_moved {ν θ : Type*} {P : ι → π → θ → Prop} {t : State ι ν θ} {n : ν} {q : θ}
    (hq : P i p q) (h : ∀ j, j ≠ i → P j (s.pc j) (t.pc j)) (j : ι) :
    P j ((s.moved i m p).pc j) ((t.moved i n q).pc j) := by
  by_cases hj : j = i
  · subst hj
    simpa using hq
  · rw [moved_pc_ne hj, moved_pc_ne hj]
    exact h j hj

end State

namespace Impl

/-! ## Refinement -/

section
variable {μ π χ α ρ ε ν θ ζ δ : Type*}

/-- Thread `i` takes steps from the memory `m`, where it is at `p`, to `m'` and `p'`, and shows
`os`; the last of them returns `r`, if that is a result. -/
inductive Moves (A : Impl ι ν θ ζ α ρ δ) (i : ι) : ν → θ → List δ → Option ρ → ν → θ → Prop
  | stay {m : ν} {p : θ} : Moves A i m p [] none m p
  | ret {m : ν} {p : θ} {c : ζ} {o : Outcome ν ρ δ A.idle} {r : ρ} :
      A.run i m c p = some o → o.ret = some r → Moves A i m p o.obs (some r) o.mem o.pc
  | next {m m' : ν} {p p' : θ} {c : ζ} {o : Outcome ν ρ δ A.idle} {os : List δ} {r : Option ρ} :
      A.run i m c p = some o → o.ret = none → Moves A i o.mem o.pc os r m' p' →
      Moves A i m p (o.obs ++ os) r m' p'

/-- A thread that returns is idle. -/
def Returns (M : Impl ι μ π χ α ρ ε) : Prop :=
  ∀ i m c p o r, M.run i m c p = some o → o.ret = some r → o.pc = M.idle

theorem through_events (f : ε → Option δ) {idle : π} (o : Outcome μ ρ ε idle) (i : ι) :
    (o.events i : List (Event ι α ρ ε)).filterMap (Event.through f) =
      (o.obs.filterMap f).map (.obs i) ++ (o.ret.map (.ret i)).toList := by
  rw [Outcome.events, List.filterMap_append, List.filterMap_map, List.map_filterMap]
  congr 1
  cases o.ret <;> rfl

/-- One step. -/
theorem Moves.one {A : Impl ι ν θ ζ α ρ δ} {i : ι} {m : ν} {c : ζ} {p : θ}
    {o : Outcome ν ρ δ A.idle} (ho : A.run i m c p = some o) :
    A.Moves i m p o.obs o.ret o.mem o.pc := by
  cases hr : o.ret with
  | none =>
    rw [← List.append_nil o.obs]
    exact .next ho hr .stay
  | some r => exact .ret ho hr

theorem Moves.trans {A : Impl ι ν θ ζ α ρ δ} {i : ι} {m m' m'' : ν} {p p' p'' : θ}
    {os os' : List δ} {r : Option ρ} (h : A.Moves i m p os none m' p')
    (h' : A.Moves i m' p' os' r m'' p'') : A.Moves i m p (os ++ os') r m'' p'' := by
  generalize hn : (none : Option ρ) = n at h
  induction h with
  | stay => exact h'
  | ret => cases hn
  | next ho hr _ ih =>
    rw [List.append_assoc]
    exact .next ho hr (ih h' hn)

theorem Moves.idle {A : Impl ι ν θ ζ α ρ δ} (hA : A.Returns) {i : ι} {m m' : ν} {p p' : θ}
    {os : List δ} {r : ρ} (hm : A.Moves i m p os (some r) m' p') : p' = A.idle := by
  generalize hr : some r = ro at hm
  induction hm with
  | stay => cases hr
  | ret ho hret => exact hA _ _ _ _ _ _ ho hret
  | next _ _ _ ih => exact ih hr

/-- From where each step returns there is at most one step. -/
theorem Moves.of_ret {A : Impl ι ν θ ζ α ρ δ} {i : ι} {m m' : ν} {p p' : θ} {os : List δ}
    {r : Option ρ} (hp : ∀ c o, A.run i m c p = some o → o.ret ≠ none)
    (hm : A.Moves i m p os r m' p') : (r = none ∧ m' = m ∧ p' = p) ∨
      ∃ c o, A.run i m c p = some o ∧ r = o.ret ∧ m' = o.mem ∧ p' = o.pc := by
  cases hm with
  | stay => exact .inl ⟨rfl, rfl, rfl⟩
  | ret ho hr => exact .inr ⟨_, _, ho, hr.symm, rfl, rfl⟩
  | next ho hr => exact absurd hr (hp _ _ ho)

/-- A thread that has returned takes no more steps; so what one segment returns, and the other,
are the result of both. -/
theorem Moves.append {A : Impl ι ν θ ζ α ρ δ} (hA : A.Returns)
    (hidle : ∀ i m c, A.run i m c A.idle = none) {i : ι} {m m' m'' : ν} {p p' p'' : θ}
    {os os' : List δ} {r r' : Option ρ} (h : A.Moves i m p os r m' p')
    (h' : A.Moves i m' p' os' r' m'' p'') :
    ∃ x, A.Moves i m p (os ++ os') x m'' p'' ∧ x.toList = r.toList ++ r'.toList := by
  cases r with
  | none => exact ⟨r', h.trans h', rfl⟩
  | some x =>
    obtain rfl := h.idle hA
    cases h' with
    | stay => exact ⟨some x, by rwa [List.append_nil], rfl⟩
    | ret ho =>
      rw [hidle] at ho
      cases ho
    | next ho =>
      rw [hidle] at ho
      cases ho

variable [DecidableEq ι]

/-- `A` follows `M`, as long as the steps of `M` meet `C`. -/
structure Refines (M : Impl ι μ π χ α ρ ε) (A : Impl ι ν θ ζ α ρ δ) (f : ε → Option δ)
    (C : State ι μ π → ι × Act α χ → Prop) (R : State ι μ π → State ι ν θ → Prop) : Prop where
  init : R M.init A.init
  call : ∀ s t i op, R s t → C s (i, .call op) → s.pc i = M.idle →
    t.pc i = A.idle ∧ R (s.moved i s.mem (M.entry op)) (t.moved i t.mem (A.entry op))
  run : ∀ s t i c o, R s t → C s (i, .run c) → M.run i s.mem c (s.pc i) = some o →
    ∃ m p, A.Moves i t.mem (t.pc i) (o.obs.filterMap f) o.ret m p ∧
      R (s.moved i o.mem o.pc) (t.moved i m p)

variable [DecidableEq π] [DecidableEq θ] {M : Impl ι μ π χ α ρ ε} {A : Impl ι ν θ ζ α ρ δ}
  {f : ε → Option δ} {C : State ι μ π → ι × Act α χ → Prop}
  {R : State ι μ π → State ι ν θ → Prop} {i : ι}

omit [DecidableEq π] [DecidableEq θ] in
theorem Refines.weaken (hR : M.Refines A f C R) {C' : State ι μ π → ι × Act α χ → Prop}
    (hC : ∀ s l, C' s l → C s l) : M.Refines A f C' R where
  init := hR.init
  call s t i op hrel hc := hR.call s t i op hrel (hC _ _ hc)
  run s t i c o hrel hc := hR.run s t i c o hrel (hC _ _ hc)

omit [DecidableEq ι] in
@[simp] theorem filterMap_through_some (h : List (Event ι α ρ ε)) :
    h.filterMap (Event.through some) = h := by
  have hthrough : (Event.through some : Event ι α ρ ε → _) = some := by
    funext e
    cases e <;> rfl
  rw [hthrough, List.filterMap_some]

/-- The steps of a thread, as a run of all threads. -/
theorem Moves.exec {m m' : ν} {p p' : θ} {os : List δ} {r : Option ρ}
    (hm : A.Moves i m p os r m' p') {t : State ι ν θ} (ht : t.mem = m) (hp : t.pc i = p) :
    ∃ cs : List ζ, A.lts.exec t (cs.map fun c => (i, .run c)) =
      some (os.map (.obs i) ++ (r.map (.ret i)).toList, t.moved i m' p') := by
  induction hm generalizing t with
  | @stay m p =>
    subst ht hp
    exact ⟨[], by simp [State.moved_self]⟩
  | @ret m p c o r ho hr =>
    subst ht hp
    refine ⟨[c], Lts.exec_cons.2 ⟨_, _, [], step_run.2 ⟨o, ho, rfl, rfl⟩, rfl, ?_⟩⟩
    simp [Outcome.events, hr]
  | @next m m' p p' c o os r ho hr hrest ih =>
    subst ht hp
    obtain ⟨cs, hcs⟩ := ih (t := t.moved i o.mem o.pc) rfl State.moved_pc
    rw [State.moved_moved] at hcs
    refine ⟨c :: cs, Lts.exec_cons.2 ⟨o.events i, t.moved i o.mem o.pc, _,
      step_run.2 ⟨o, ho, rfl, rfl⟩, hcs, ?_⟩⟩
    simp [Outcome.events, hr]

/-- The calls and returns of `M`, and what `f` keeps of its observations, are those of a run of `A`,
whose calls meet `D`. -/
theorem Refines.reachIf (hR : M.Refines A f C R) {D : State ι ν θ → ι × Act α ζ → Prop}
    (hfree : ∀ t i c, D t (i, .run c))
    (hcall : ∀ s t i op, R s t → C s (i, .call op) → D t (i, .call op))
    {h : List (Event ι α ρ ε)} {s : State ι μ π} (hr : M.lts.ReachIf (fun _ => C) h s) :
    ∃ t, A.lts.ReachIf (fun _ => D) (h.filterMap (Event.through f)) t ∧ R s t := by
  induction hr with
  | init h0 =>
    obtain rfl := h0
    exact ⟨A.init, .init rfl, hR.init⟩
  | @step h s l es s' _ hc hs ih =>
    obtain ⟨t, ht, hrel⟩ := ih
    rw [List.filterMap_append]
    obtain ⟨i, op | c⟩ := l
    · obtain ⟨hpc, rfl, rfl⟩ := step_call.1 hs
      obtain ⟨hidle, hrel'⟩ := hR.call s t i op hrel hc hpc
      exact ⟨_, ht.step (hcall s t i op hrel hc) (step_call.2 ⟨hidle, rfl, rfl⟩), hrel'⟩
    · obtain ⟨o, ho, rfl, rfl⟩ := step_run.1 hs
      obtain ⟨m, p, hm, hrel'⟩ := hR.run s t i c o hrel hc ho
      obtain ⟨cs, hcs⟩ := hm.exec rfl rfl
      rw [through_events]
      refine ⟨_, Lts.ReachIf.exec (fun l hl _ t => ?_) ht hcs, hrel'⟩
      obtain ⟨c, -, rfl⟩ := List.mem_map.1 hl
      exact hfree t i c

theorem Refines.reach (hR : M.Refines A f C R) {h : List (Event ι α ρ ε)} {s : State ι μ π}
    (hr : M.lts.ReachIf (fun _ => C) h s) :
    ∃ t, A.lts.Reach (h.filterMap (Event.through f)) t ∧ R s t :=
  hR.reachIf (D := fun _ _ => True) (fun _ _ _ => trivial) (fun _ _ _ _ _ _ => trivial) hr

end

/-! ## Atomic objects -/

section
variable {σ α ρ : Type*}

/-- A thread has called an operation, or knows its answer. -/
inductive AtomicPc (α ρ : Type*)
  | idle
  | call (op : α)
  | answer (r : ρ)
  deriving DecidableEq

/-- The object whose operations are `effect`, where they are enabled. -/
def atomic (ι : Type*) (start : σ) (effect : σ → α → Option (ρ × σ)) :
    Impl ι σ (AtomicPc α ρ) Unit α ρ Empty where
  start := start
  idle := .idle
  entry := .call
  run _ m _
    | .idle => none
    | .call op => (effect m op).map fun (r, m) => { mem := m, pc := .answer r }
    | .answer r => some { ret := some r, mem := m }

variable {start : σ} {effect : σ → α → Option (ρ × σ)} {i : ι} {m m' : σ} {op : α} {r : ρ}

/-- A thread returns its answer. -/
theorem atomic_ret {c : Unit} {p : AtomicPc α ρ}
    {o : Outcome σ ρ Empty (atomic ι start effect).idle}
    (ho : (atomic ι start effect).run i m c p = some o) (hr : o.ret = some r) :
    p = .answer r ∧ o = { ret := some r, mem := m } := by
  cases p with
  | idle => cases ho
  | call op =>
    obtain ⟨x, -, rfl⟩ := Option.map_eq_some_iff.1 ho
    cases hr
  | answer r =>
    cases ho
    cases hr
    exact ⟨rfl, rfl⟩

theorem atomic_returns : (atomic ι start effect).Returns := by
  intro i m c p o r ho hr
  obtain ⟨-, rfl⟩ := atomic_ret ho hr
  rfl

theorem Moves.takes (h : effect m op = some (r, m')) :
    (atomic ι start effect).Moves i m (.call op) [] none m' (.answer r) :=
  .one (A := atomic ι start effect) (c := ()) (o := { mem := m', pc := .answer r })
    (Option.map_eq_some_iff.2 ⟨_, h, rfl⟩)

theorem Moves.returns : (atomic ι start effect).Moves i m (.answer r) [] (some r) m .idle :=
  .one (A := atomic ι start effect) (c := ()) (o := { ret := some r, mem := m }) rfl

end

end Impl
end Lumen.Lib.Shared
