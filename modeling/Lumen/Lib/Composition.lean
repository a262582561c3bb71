import Lumen.Lib.Refinement

/-!
# Code that calls an object

* `Impl.atop`: the code `P` with an object `O` that it calls at the points its `Hook` names.
* `Refines.atop`: an object may take the place of one that it refines, in any code that calls it.
* `Impl.pair`, `Refines.pair`: two objects as one.
* `callee_reach`, `left_reach`, `right_reach`: what an object does in such a run is a run of its
  own; `callee_enabled`, `left_enabled`, `right_enabled`: what it can do, the code can.
-/

set_option autoImplicit false

namespace Lumen.Lib.Shared

variable {ι : Type*}

namespace Impl

/-! ## Code that calls an object -/

section
variable {μ π χ β σ ε : Type*}

/-- Where `P` calls an object, and how it goes on with the answer. -/
structure Hook (P : Impl ι μ π χ β σ ε) (α ρ : Type*) where
  invoke : π → Option α
  resume : ι → μ → π → ρ → Outcome μ σ ε P.idle

/-- A thread is in its own code, or in the object it has called at `p`. -/
inductive Site (π π' : Type*)
  | own (p : π)
  | inside (p : π) (q : π')
  deriving DecidableEq

/-- A step of such code: it calls the object, takes a step of its own, or one inside the object. -/
inductive Turn (χ χ' : Type*)
  | call
  | own (c : χ)
  | inside (c : χ')

variable {μ' π' χ' α ρ ε' : Type*}

/-- An outcome of the own code, with the memory `m'` of the object. -/
def ownOutcome {P : Impl ι μ π χ β σ ε} (m' : μ') (o : Outcome μ σ ε P.idle) :
    Outcome (μ × μ') σ ε (Site.own P.idle : Site π π') :=
  { obs := o.obs, ret := o.ret, mem := (o.mem, m'), pc := .own o.pc }

/-- An outcome of the object called at `p`: its thread goes on, or the code does with the answer. -/
def calleeOutcome {P : Impl ι μ π χ β σ ε} (hook : Hook P α ρ) (i : ι) (m : μ) (p : π)
    {idle : π'} (o : Outcome μ' ρ ε' idle) :
    Outcome (μ × μ') σ ε (Site.own P.idle : Site π π') :=
  match o.ret with
  | none => { mem := (m, o.mem), pc := .inside p o.pc }
  | some r => ownOutcome o.mem (hook.resume i m p r)

theorem calleeOutcome_none {P : Impl ι μ π χ β σ ε} {hook : Hook P α ρ} {i : ι} {m : μ} {p : π}
    {idle : π'} {o : Outcome μ' ρ ε' idle} (hr : o.ret = none) :
    calleeOutcome hook i m p o = { mem := (m, o.mem), pc := .inside p o.pc } := by
  simp only [calleeOutcome, hr]

theorem calleeOutcome_some {P : Impl ι μ π χ β σ ε} {hook : Hook P α ρ} {i : ι} {m : μ} {p : π}
    {idle : π'} {o : Outcome μ' ρ ε' idle} {r : ρ} (hr : o.ret = some r) :
    calleeOutcome hook i m p o = ownOutcome o.mem (hook.resume i m p r) := by
  simp only [calleeOutcome, hr]

/-- `P` with the object `O` at the points of the hook; what `O` observes is not shown. -/
def atop (P : Impl ι μ π χ β σ ε) (hook : Hook P α ρ) (O : Impl ι μ' π' χ' α ρ ε') :
    Impl ι (μ × μ') (Site π π') (Turn χ χ') β σ ε where
  start := (P.start, O.start)
  idle := .own P.idle
  entry op := .own (P.entry op)
  run i m c
    | .own p =>
      match hook.invoke p, c with
      | some op, .call => some { mem := m, pc := .inside p (O.entry op) }
      | none, .own c => (P.run i m.1 c p).map (ownOutcome m.2)
      | _, _ => none
    | .inside p q =>
      match c with
      | .inside c => (O.run i m.2 c q).map (calleeOutcome hook i m.1 p)
      | _ => none

section
variable {π π' : Type*}

/-- Where the caller is. -/
def Site.caller : Site π π' → Site π Unit
  | .own p => .own p
  | .inside p _ => .inside p ()

/-- Where the thread is in the object. -/
def Site.callee (idle : π') : Site π π' → π'
  | .own _ => idle
  | .inside _ q => q

end

/-- The state of the object. -/
def callee (O : Impl ι μ' π' χ' α ρ ε') (s : State ι (μ × μ') (Site π π')) : State ι μ' π' :=
  { mem := s.mem.2, pc := fun i => (s.pc i).callee O.idle }

/-- The steps of the object meet `C`. -/
def Hook.Within {P : Impl ι μ π χ β σ ε} (hook : Hook P α ρ) (O : Impl ι μ' π' χ' α ρ ε')
    (C : State ι μ' π' → ι × Act α χ' → Prop) (s : State ι (μ × μ') (Site π π')) :
    ι × Act β (Turn χ χ') → Prop
  | (_, .call _) => True
  | (i, .run c) =>
    (∀ p op, s.pc i = .own p → hook.invoke p = some op → C (callee O s) (i, .call op)) ∧
      ∀ p q c', s.pc i = .inside p q → c = .inside c' → C (callee O s) (i, .run c')

variable {ν θ ζ δ : Type*} {A : Impl ι ν θ ζ α ρ δ} {M : Impl ι μ' π' χ' α ρ ε'}
  {P : Impl ι μ π χ β σ ε} {hook : Hook P α ρ}

section
variable {O : Impl ι μ' π' χ' α ρ ε'} {i : ι} {m : μ × μ'} {c : Turn χ χ'} {p : π} {q : π'}
  {o : Outcome (μ × μ') σ ε (P.atop hook O).idle}

theorem atop_call {op : α} (hinv : hook.invoke p = some op) :
    (P.atop hook O).run i m c (.own p) = some o ↔
      c = .call ∧ o = { mem := m, pc := .inside p (O.entry op) } := by
  cases c <;> simp only [atop, hinv, reduceCtorEq, false_and, true_and]
  exact ⟨fun h => (Option.some.inj h).symm, fun h => congrArg some h.symm⟩

theorem atop_own (hinv : hook.invoke p = none) : (P.atop hook O).run i m c (.own p) = some o ↔
    ∃ c' o', c = .own c' ∧ P.run i m.1 c' p = some o' ∧ o = ownOutcome m.2 o' := by
  cases c <;> simp only [atop, hinv, reduceCtorEq, false_and, exists_false]
  constructor
  · intro h
    obtain ⟨o', ho, rfl⟩ := Option.map_eq_some_iff.1 h
    exact ⟨_, o', rfl, ho, rfl⟩
  · rintro ⟨c', o', hc, ho, rfl⟩
    cases hc
    exact Option.map_eq_some_iff.2 ⟨o', ho, rfl⟩

theorem atop_inside : (P.atop hook O).run i m c (.inside p q) = some o ↔
    ∃ c' o', c = .inside c' ∧ O.run i m.2 c' q = some o' ∧ o = calleeOutcome hook i m.1 p o' := by
  cases c <;> simp only [atop, reduceCtorEq, false_and, exists_false]
  constructor
  · intro h
    obtain ⟨o', ho, rfl⟩ := Option.map_eq_some_iff.1 h
    exact ⟨_, o', rfl, ho, rfl⟩
  · rintro ⟨c', o', hc, ho, rfl⟩
    cases hc
    exact Option.map_eq_some_iff.2 ⟨o', ho, rfl⟩

end

/-- The steps of the object inside the code that calls it. -/
theorem Moves.inside (hook : Hook P α ρ) {i : ι} {m m' : ν} {q q' : θ} {os : List δ} {r : Option ρ}
    (hm : A.Moves i m q os r m' q') (m0 : μ) (p : π) :
    (r = none → (P.atop hook A).Moves i (m0, m) (.inside p q) [] none (m0, m') (.inside p q')) ∧
      ∀ x, r = some x → (P.atop hook A).Moves i (m0, m) (.inside p q) (hook.resume i m0 p x).obs
        (hook.resume i m0 p x).ret ((hook.resume i m0 p x).mem, m')
        (.own (hook.resume i m0 p x).pc) := by
  induction hm with
  | stay => exact ⟨fun _ => .stay, fun x hx => by cases hx⟩
  | @ret m q c o r ho hr =>
    refine ⟨fun hx => (by cases hx), fun x hx => ?_⟩
    cases hx
    exact .one (atop_inside.2 ⟨c, o, rfl, ho, (calleeOutcome_some hr).symm⟩)
  | @next m m' q q' c o os r ho hr _ ih =>
    have hstep : (P.atop hook A).run i (m0, m) (.inside c) (.inside p q) =
        some { mem := (m0, o.mem), pc := .inside p o.pc } :=
      atop_inside.2 ⟨c, o, rfl, ho, (calleeOutcome_none hr).symm⟩
    exact ⟨fun h => .next hstep rfl (ih.1 h), fun x hx => .next hstep rfl (ih.2 x hx)⟩

/-- The callers are at the same points, and the objects are related. -/
structure AtopRel (M : Impl ι μ' π' χ' α ρ ε') (A : Impl ι ν θ ζ α ρ δ)
    (R : State ι μ' π' → State ι ν θ → Prop) (s : State ι (μ × μ') (Site π π'))
    (t : State ι (μ × ν) (Site π θ)) : Prop where
  own : t.mem.1 = s.mem.1
  caller : ∀ i, (t.pc i).caller = (s.pc i).caller
  callee : R (callee M s) (callee A t)

section
variable {R : State ι μ' π' → State ι ν θ → Prop} {s : State ι (μ × μ') (Site π π')}
  {t : State ι (μ × ν) (Site π θ)} {i : ι} {p : π}

theorem AtopRel.own_eq (h : AtopRel M A R s t) (hp : s.pc i = .own p) : t.pc i = .own p := by
  have hc := h.caller i
  rw [hp] at hc
  cases ht : t.pc i <;> rw [ht] at hc <;> cases hc
  rfl

theorem AtopRel.inside_eq (h : AtopRel M A R s t) {q : π'} (hp : s.pc i = .inside p q) :
    ∃ q', t.pc i = .inside p q' := by
  have hc := h.caller i
  rw [hp] at hc
  cases ht : t.pc i with
  | own p' =>
    rw [ht] at hc
    cases hc
  | inside p' q' =>
    rw [ht] at hc
    cases hc
    exact ⟨q', rfl⟩

variable [DecidableEq ι]

theorem callee_moved {O : Impl ι μ' π' χ' α ρ ε'} {s : State ι (μ × μ') (Site π π')} {i : ι}
    {m : μ × μ'} {p : Site π π'} :
    callee O (s.moved i m p) = (callee O s).moved i m.2 (p.callee O.idle) := by
  simp only [callee, State.moved, State.mk.injEq, true_and]
  funext j
  by_cases hj : j = i
  · subst hj
    simp
  · simp [hj]

theorem AtopRel.moved (h : AtopRel M A R s t) {m : μ} {m' : μ'} {n' : ν} {x : Site π π'}
    {y : Site π θ} (hxy : y.caller = x.caller)
    (hR : R ((Impl.callee M s).moved i m' (x.callee M.idle))
      ((Impl.callee A t).moved i n' (y.callee A.idle))) :
    AtopRel M A R (s.moved i (m, m') x) (t.moved i (m, n') y) := by
  refine ⟨rfl, fun j => ?_, by rwa [callee_moved, callee_moved]⟩
  by_cases hj : j = i
  · subst hj
    simpa using hxy
  · rw [State.moved_pc_ne hj, State.moved_pc_ne hj]
    exact h.caller j

/-- A thread in its own code is idle in the object. -/
theorem AtopRel.callee_own (h : AtopRel M A R s t) (hp : s.pc i = .own p) :
    R ((Impl.callee M s).moved i s.mem.2 M.idle) ((Impl.callee A t).moved i t.mem.2 A.idle) := by
  have hs : (Impl.callee M s).pc i = M.idle := by simp [Impl.callee, hp, Site.callee]
  have ht : (Impl.callee A t).pc i = A.idle := by simp [Impl.callee, h.own_eq hp, Site.callee]
  have hR := h.callee
  rwa [← State.moved_self (s := Impl.callee M s) (i := i), hs,
    ← State.moved_self (s := Impl.callee A t) (i := i), ht] at hR

/-- An object may take the place of one that it refines. -/
theorem Refines.atop [DecidableEq π] (P : Impl ι μ π χ β σ ε) (hook : Hook P α ρ)
    {f : ε' → Option δ} {C : State ι μ' π' → ι × Act α χ' → Prop} (hR : M.Refines A f C R)
    (hM : M.Returns) (hA : A.Returns) :
    (P.atop hook M).Refines (P.atop hook A) some (hook.Within M C) (AtopRel M A R) where
  init := ⟨rfl, fun _ => rfl, hR.init⟩
  call := by
    intro s t i op hrel _ hpc
    refine ⟨hrel.own_eq hpc, ?_⟩
    have hmem : t.mem = (s.mem.1, t.mem.2) := by rw [← hrel.own]
    rw [hmem]
    exact hrel.moved rfl (hrel.callee_own hpc)
  run := by
    intro s t i c o hrel hC ho
    rw [List.filterMap_some]
    cases hpc : s.pc i with
    | own p =>
      rw [hpc] at ho
      rw [hrel.own_eq hpc]
      cases hinv : hook.invoke p with
      | some op =>
        obtain ⟨rfl, rfl⟩ := (atop_call hinv).1 ho
        have hs : (Impl.callee M s).pc i = M.idle := by simp [Impl.callee, hpc, Site.callee]
        obtain ⟨-, hcall⟩ := hR.call _ _ i op hrel.callee (hC.1 p op hpc hinv) hs
        refine ⟨(s.mem.1, t.mem.2), .inside p (A.entry op), ?_, hrel.moved rfl hcall⟩
        rw [← hrel.own]
        exact .one ((atop_call hinv).2 ⟨rfl, rfl⟩)
      | none =>
        obtain ⟨c, o, rfl, ho', rfl⟩ := (atop_own hinv).1 ho
        refine ⟨(o.mem, t.mem.2), .own o.pc, ?_, hrel.moved rfl (hrel.callee_own hpc)⟩
        exact .one ((atop_own hinv).2 ⟨c, o, rfl, hrel.own ▸ ho', rfl⟩)
    | inside p q =>
      obtain ⟨q', ht⟩ := hrel.inside_eq hpc
      rw [hpc] at ho
      rw [ht]
      obtain ⟨c, o, rfl, ho', rfl⟩ := atop_inside.1 ho
      obtain ⟨m', p', hmoves, hR'⟩ := hR.run (Impl.callee M s) (Impl.callee A t) i c o hrel.callee
        (hC.2 p q c hpc rfl) (by simpa [Impl.callee, hpc, Site.callee] using ho')
      have hq' : (Impl.callee A t).pc i = q' := by simp [Impl.callee, ht, Site.callee]
      rw [hq'] at hmoves
      obtain ⟨hgo, hret⟩ := hmoves.inside hook s.mem.1 p
      have hmem : t.mem = (s.mem.1, t.mem.2) := by rw [← hrel.own]
      rw [hmem]
      cases hr : o.ret with
      | none =>
        rw [calleeOutcome_none hr]
        exact ⟨(s.mem.1, m'), .inside p p', hgo hr, hrel.moved rfl hR'⟩
      | some r =>
        rw [hM _ _ _ _ _ _ ho' hr] at hR'
        rw [hr] at hmoves
        rw [hmoves.idle hA] at hR'
        rw [calleeOutcome_some hr]
        exact ⟨_, _, hret r hr, hrel.moved rfl hR'⟩

/-- The object can take a step in the code that calls it. -/
theorem callee_enabled [DecidableEq π] [DecidableEq π'] {O : Impl ι μ' π' χ' α ρ ε'} {c : χ'}
    (hpc : (callee O s).pc i ≠ O.idle)
    (h : (O.run i (callee O s).mem c ((callee O s).pc i)).isSome) :
    ((P.atop hook O).step s (i, .run (.inside c))).isSome := by
  rw [step_isSome]
  cases hs : s.pc i with
  | own p => exact absurd (by simp only [callee, hs, Site.callee]) hpc
  | inside p q =>
    simp only [callee, hs, Site.callee] at h
    exact Option.isSome_map.trans h

/-- What the object does inside the code that calls it. -/
theorem callee_reach [DecidableEq π] [DecidableEq π'] {O : Impl ι μ' π' χ' α ρ ε'} (hO : O.Returns)
    {C : State ι μ' π' → ι × Act α χ' → Prop} {h : List (Event ι β σ ε)}
    (hr : (P.atop hook O).lts.ReachIf (fun _ => hook.Within O C) h s) :
    ∃ h', O.lts.ReachIf (fun _ => C) h' (callee O s) := by
  refine hr.inv (I := fun _ s => ∃ h', O.lts.ReachIf (fun _ => C) h' (callee O s))
    (fun s h0 => ?_) fun h s l es s' hi hl hs => ?_
  · obtain rfl : s = (P.atop hook O).init := h0
    exact ⟨[], .init rfl⟩
  obtain ⟨h', hi⟩ := hi
  -- a step outside the object
  have hown : ∀ {i : ι} {m : μ} {p : π}, (s.pc i).callee O.idle = O.idle →
      callee O (s.moved i (m, s.mem.2) (.own p)) = callee O s := by
    intro i m p hp
    rw [callee_moved]
    show (callee O s).moved i (callee O s).mem O.idle = callee O s
    rw [← hp]
    exact State.moved_self (s := callee O s)
  obtain ⟨i, op | c⟩ := l
  · obtain ⟨hpc, -, rfl⟩ := step_call.1 hs
    refine ⟨h', ?_⟩
    have hsame : callee O (s.moved i s.mem (.own (P.entry op))) = callee O s :=
      hown (by rw [hpc]; rfl)
    exact hsame.symm ▸ hi
  · obtain ⟨o, ho, -, rfl⟩ := step_run.1 hs
    obtain ⟨hcall, hrun⟩ := hl
    cases hpc : s.pc i with
    | own p =>
      rw [hpc] at ho
      have hidle : (callee O s).pc i = O.idle := by simp only [callee, hpc, Site.callee]
      cases hinv : hook.invoke p with
      | some op =>
        obtain ⟨rfl, rfl⟩ := (atop_call hinv).1 ho
        refine ⟨_, hi.step (hcall p op hpc hinv) (step_call.2 ⟨hidle, rfl, ?_⟩)⟩
        exact callee_moved
      | none =>
        obtain ⟨c', o', rfl, -, rfl⟩ := (atop_own hinv).1 ho
        have hsame : callee O (s.moved i (o'.mem, s.mem.2) (.own o'.pc)) = callee O s :=
          hown (by rw [hpc]; rfl)
        exact ⟨h', hsame.symm ▸ hi⟩
    | inside p q =>
      rw [hpc] at ho
      obtain ⟨c', o', rfl, ho', rfl⟩ := atop_inside.1 ho
      have hq : (callee O s).pc i = q := by simp only [callee, hpc, Site.callee]
      refine ⟨_, hi.step (hrun p q c' hpc rfl) (step_run.2 ⟨o', by rw [hq]; exact ho', rfl, ?_⟩)⟩
      refine callee_moved.trans ?_
      cases hret : o'.ret with
      | none =>
        rw [calleeOutcome_none hret]
        rfl
      | some r =>
        rw [calleeOutcome_some hret, hO _ _ _ _ _ _ ho' hret]
        rfl

end

end
/-! ## Two objects -/

section
variable {μ π χ α ρ ε μ' π' χ' α' ρ' ε' : Type*}

/-- A thread is in neither object, or in one of them. -/
inductive Side (π π' : Type*)
  | idle
  | fst (q : π)
  | snd (q : π')
  deriving DecidableEq

/-- The objects `O` and `O'`; what they observe is not shown. -/
def pair (O : Impl ι μ π χ α ρ ε) (O' : Impl ι μ' π' χ' α' ρ' ε') :
    Impl ι (μ × μ') (Side π π') (χ ⊕ χ') (α ⊕ α') (ρ ⊕ ρ') Empty where
  start := (O.start, O'.start)
  idle := .idle
  entry
    | .inl op => .fst (O.entry op)
    | .inr op => .snd (O'.entry op)
  run i m c
    | .idle => none
    | .fst q =>
      match c with
      | .inl c => (O.run i m.1 c q).map fun o =>
        { ret := o.ret.map .inl, mem := (o.mem, m.2),
          pc := if o.ret.isSome then .idle else .fst o.pc }
      | .inr _ => none
    | .snd q =>
      match c with
      | .inl _ => none
      | .inr c => (O'.run i m.2 c q).map fun o =>
        { ret := o.ret.map .inr, mem := (m.1, o.mem),
          pc := if o.ret.isSome then .idle else .snd o.pc }

section
variable {O : Impl ι μ π χ α ρ ε} {O' : Impl ι μ' π' χ' α' ρ' ε'} {i : ι} {m : μ × μ'}
  {c : χ ⊕ χ'} {o : Outcome (μ × μ') (ρ ⊕ ρ') Empty (O.pair O').idle}

theorem pair_fst {q : π} : (O.pair O').run i m c (.fst q) = some o ↔
    ∃ c' o', c = .inl c' ∧ O.run i m.1 c' q = some o' ∧
      o = { ret := o'.ret.map .inl, mem := (o'.mem, m.2),
            pc := if o'.ret.isSome then .idle else .fst o'.pc } := by
  cases c <;> simp only [pair, reduceCtorEq, false_and, exists_false]
  constructor
  · intro h
    obtain ⟨o', ho, rfl⟩ := Option.map_eq_some_iff.1 h
    exact ⟨_, o', rfl, ho, rfl⟩
  · rintro ⟨c', o', hc, ho, rfl⟩
    cases hc
    exact Option.map_eq_some_iff.2 ⟨o', ho, rfl⟩

theorem pair_snd {q : π'} : (O.pair O').run i m c (.snd q) = some o ↔
    ∃ c' o', c = .inr c' ∧ O'.run i m.2 c' q = some o' ∧
      o = { ret := o'.ret.map .inr, mem := (m.1, o'.mem),
            pc := if o'.ret.isSome then .idle else .snd o'.pc } := by
  cases c <;> simp only [pair, reduceCtorEq, false_and, exists_false]
  constructor
  · intro h
    obtain ⟨o', ho, rfl⟩ := Option.map_eq_some_iff.1 h
    exact ⟨_, o', rfl, ho, rfl⟩
  · rintro ⟨c', o', hc, ho, rfl⟩
    cases hc
    exact Option.map_eq_some_iff.2 ⟨o', ho, rfl⟩

end

theorem pair_returns (O : Impl ι μ π χ α ρ ε) (O' : Impl ι μ' π' χ' α' ρ' ε') :
    (O.pair O').Returns := by
  intro i m c p o r ho hr
  cases p with
  | idle => cases ho
  | fst q =>
    obtain ⟨c', o', -, -, rfl⟩ := pair_fst.1 ho
    cases h : o'.ret <;> simp_all [pair]
  | snd q =>
    obtain ⟨c', o', -, -, rfl⟩ := pair_snd.1 ho
    cases h : o'.ret <;> simp_all [pair]

/-- Which object the thread is in. -/
def Side.side : Side π π' → Side Unit Unit
  | .idle => .idle
  | .fst _ => .fst ()
  | .snd _ => .snd ()

def Side.left (idle : π) : Side π π' → π
  | .fst q => q
  | _ => idle

def Side.right (idle : π') : Side π π' → π'
  | .snd q => q
  | _ => idle

/-- The state of the first object. -/
def left (O : Impl ι μ π χ α ρ ε) (s : State ι (μ × μ') (Side π π')) : State ι μ π :=
  { mem := s.mem.1, pc := fun i => (s.pc i).left O.idle }

/-- The state of the second object. -/
def right (O' : Impl ι μ' π' χ' α' ρ' ε') (s : State ι (μ × μ') (Side π π')) : State ι μ' π' :=
  { mem := s.mem.2, pc := fun i => (s.pc i).right O'.idle }

/-- The steps of each object meet its condition. -/
def PairWithin (O : Impl ι μ π χ α ρ ε) (O' : Impl ι μ' π' χ' α' ρ' ε')
    (C : State ι μ π → ι × Act α χ → Prop) (C' : State ι μ' π' → ι × Act α' χ' → Prop)
    (s : State ι (μ × μ') (Side π π')) : ι × Act (α ⊕ α') (χ ⊕ χ') → Prop
  | (i, .call (.inl op)) => C (left O s) (i, .call op)
  | (i, .call (.inr op)) => C' (right O' s) (i, .call op)
  | (i, .run (.inl c)) => C (left O s) (i, .run c)
  | (i, .run (.inr c)) => C' (right O' s) (i, .run c)

variable {ν θ ζ δ ν' θ' ζ' δ' : Type*} {M : Impl ι μ π χ α ρ ε} {M' : Impl ι μ' π' χ' α' ρ' ε'}
  {A : Impl ι ν θ ζ α ρ δ} {A' : Impl ι ν' θ' ζ' α' ρ' δ'}

theorem Moves.fst {i : ι} {m m' : ν} {q q' : θ} {os : List δ} {r : Option ρ}
    (hm : A.Moves i m q os r m' q') (n : ν') : (A.pair A').Moves i (m, n) (.fst q) []
      (r.map .inl) (m', n) (if r.isSome then .idle else .fst q') := by
  induction hm with
  | stay => exact .stay
  | @ret m q c o r ho hr =>
    have hone := Moves.one (pair_fst.2 ⟨c, o, rfl, ho, rfl⟩ : (A.pair A').run i (m, n) _ _ = _)
    rwa [hr] at hone
  | @next m m' q q' c o os r ho hr _ ih =>
    refine .next (pair_fst.2 ⟨c, o, rfl, ho, rfl⟩) (by rw [hr]; rfl) ?_
    simpa only [hr, Option.isSome_none, Bool.false_eq_true, if_false] using ih

theorem Moves.snd {i : ι} {m m' : ν'} {q q' : θ'} {os : List δ'} {r : Option ρ'}
    (hm : A'.Moves i m q os r m' q') (n : ν) : (A.pair A').Moves i (n, m) (.snd q) []
      (r.map .inr) (n, m') (if r.isSome then .idle else .snd q') := by
  induction hm with
  | stay => exact .stay
  | @ret m q c o r ho hr =>
    have hone := Moves.one (pair_snd.2 ⟨c, o, rfl, ho, rfl⟩ : (A.pair A').run i (n, m) _ _ = _)
    rwa [hr] at hone
  | @next m m' q q' c o os r ho hr _ ih =>
    refine .next (pair_snd.2 ⟨c, o, rfl, ho, rfl⟩) (by rw [hr]; rfl) ?_
    simpa only [hr, Option.isSome_none, Bool.false_eq_true, if_false] using ih

/-- Each thread is in the same object, and the objects are related. -/
structure PairRel (M : Impl ι μ π χ α ρ ε) (M' : Impl ι μ' π' χ' α' ρ' ε')
    (A : Impl ι ν θ ζ α ρ δ) (A' : Impl ι ν' θ' ζ' α' ρ' δ')
    (R : State ι μ π → State ι ν θ → Prop) (R' : State ι μ' π' → State ι ν' θ' → Prop)
    (s : State ι (μ × μ') (Side π π')) (t : State ι (ν × ν') (Side θ θ')) : Prop where
  side : ∀ i, (t.pc i).side = (s.pc i).side
  left : R (left M s) (left A t)
  right : R' (right M' s) (right A' t)

variable [DecidableEq ι] {R : State ι μ π → State ι ν θ → Prop}
  {R' : State ι μ' π' → State ι ν' θ' → Prop} {s : State ι (μ × μ') (Side π π')}
  {t : State ι (ν × ν') (Side θ θ')} {i : ι}

theorem left_moved {m : μ × μ'} {p : Side π π'} :
    left M (s.moved i m p) = (left M s).moved i m.1 (p.left M.idle) := by
  simp only [Impl.left, State.moved, State.mk.injEq, true_and]
  funext j
  by_cases hj : j = i
  · subst hj
    simp
  · simp [hj]

theorem right_moved {m : μ × μ'} {p : Side π π'} :
    right M' (s.moved i m p) = (right M' s).moved i m.2 (p.right M'.idle) := by
  simp only [Impl.right, State.moved, State.mk.injEq, true_and]
  funext j
  by_cases hj : j = i
  · subst hj
    simp
  · simp [hj]

/-- A step that leaves the first object alone. -/
theorem left_same (M : Impl ι μ π χ α ρ ε) {m' : μ'} {p : Side π π'}
    (h : p.left M.idle = (s.pc i).left M.idle) : left M (s.moved i (s.mem.1, m') p) = left M s := by
  rw [left_moved, h]
  exact State.moved_self (s := left M s)

theorem right_same (M' : Impl ι μ' π' χ' α' ρ' ε') {m : μ} {p : Side π π'}
    (h : p.right M'.idle = (s.pc i).right M'.idle) :
    right M' (s.moved i (m, s.mem.2) p) = right M' s := by
  rw [right_moved, h]
  exact State.moved_self (s := right M' s)

theorem side_moved {m : μ × μ'} {n : ν × ν'} {p : Side π π'} {q : Side θ θ'}
    (h : ∀ j, (t.pc j).side = (s.pc j).side) (hpq : q.side = p.side) :
    ∀ j, ((t.moved i n q).pc j).side = ((s.moved i m p).pc j).side := by
  intro j
  by_cases hj : j = i
  · subst hj
    simpa using hpq
  · rw [State.moved_pc_ne hj, State.moved_pc_ne hj]
    exact h j

/-- Two objects together refine the two that they refine. -/
theorem Refines.pair {f : ε → Option δ} {f' : ε' → Option δ'}
    {C : State ι μ π → ι × Act α χ → Prop} {C' : State ι μ' π' → ι × Act α' χ' → Prop}
    (hR : M.Refines A f C R) (hR' : M'.Refines A' f' C' R') (hM : M.Returns) (hM' : M'.Returns)
    (hA : A.Returns) (hA' : A'.Returns) :
    (M.pair M').Refines (A.pair A') some (PairWithin M M' C C')
      (PairRel M M' A A' R R') where
  init := ⟨fun _ => rfl, hR.init, hR'.init⟩
  call := by
    intro s t i op hrel hC hpc
    have ht : t.pc i = .idle := by
      have hside := hrel.side i
      rw [hpc] at hside
      cases h : t.pc i <;> rw [h] at hside <;> cases hside
    refine ⟨ht, ?_⟩
    cases op with
    | inl op =>
      obtain ⟨-, hcall⟩ := hR.call _ _ i op hrel.left hC (by simp [Impl.left, hpc, Side.left]; rfl)
      refine ⟨side_moved hrel.side rfl, ?_, ?_⟩
      · rw [left_moved, left_moved]
        exact hcall
      · rw [right_same M' (s := s) (by rw [hpc]; rfl), right_same A' (by rw [ht]; rfl)]
        exact hrel.right
    | inr op =>
      obtain ⟨-, hcall⟩ := hR'.call _ _ i op hrel.right hC (by simp [Impl.right, hpc]; rfl)
      refine ⟨side_moved hrel.side rfl, ?_, ?_⟩
      · rw [left_same M (s := s) (by rw [hpc]; rfl), left_same A (by rw [ht]; rfl)]
        exact hrel.left
      · rw [right_moved, right_moved]
        exact hcall
  run := by
    intro s t i c o hrel hC ho
    have hside := hrel.side i
    cases hpc : s.pc i with
    | idle =>
      rw [hpc] at ho
      cases ho
    | fst q =>
      rw [hpc] at ho hside
      obtain ⟨c, o, rfl, ho', rfl⟩ := pair_fst.1 ho
      obtain ⟨q', ht⟩ : ∃ q', t.pc i = .fst q' := by
        cases h : t.pc i <;> rw [h] at hside <;> cases hside
        exact ⟨_, rfl⟩
      obtain ⟨m', p', hmoves, hrun⟩ := hR.run _ _ i c o hrel.left hC
        (by simpa [Impl.left, hpc, Side.left] using ho')
      have hq' : (Impl.left A t).pc i = q' := by simp [Impl.left, ht, Side.left]
      rw [hq'] at hmoves
      refine ⟨(m', t.mem.2), if o.ret.isSome then .idle else .fst p', ?_,
        side_moved hrel.side ?_, ?_, ?_⟩
      · rw [ht]
        exact hmoves.fst t.mem.2
      · cases o.ret <;> rfl
      · rw [left_moved, left_moved]
        cases hr : o.ret with
        | none => exact hrun
        | some r =>
          rw [hr] at hmoves
          rw [hM _ _ _ _ _ _ ho' hr, hmoves.idle hA] at hrun
          exact hrun
      · rw [right_same M' (by rw [hpc]; cases o.ret <;> rfl),
          right_same A' (by rw [ht]; cases o.ret <;> rfl)]
        exact hrel.right
    | snd q =>
      rw [hpc] at ho hside
      obtain ⟨c, o, rfl, ho', rfl⟩ := pair_snd.1 ho
      obtain ⟨q', ht⟩ : ∃ q', t.pc i = .snd q' := by
        cases h : t.pc i <;> rw [h] at hside <;> cases hside
        exact ⟨_, rfl⟩
      obtain ⟨m', p', hmoves, hrun⟩ := hR'.run _ _ i c o hrel.right hC
        (by simpa [Impl.right, hpc, Side.right] using ho')
      have hq' : (Impl.right A' t).pc i = q' := by simp [Impl.right, ht, Side.right]
      rw [hq'] at hmoves
      refine ⟨(t.mem.1, m'), if o.ret.isSome then .idle else .snd p', ?_,
        side_moved hrel.side ?_, ?_, ?_⟩
      · rw [ht]
        exact hmoves.snd t.mem.1
      · cases o.ret <;> rfl
      · rw [left_same M (by rw [hpc]; cases o.ret <;> rfl),
          left_same A (by rw [ht]; cases o.ret <;> rfl)]
        exact hrel.left
      · rw [right_moved, right_moved]
        cases hr : o.ret with
        | none => exact hrun
        | some r =>
          rw [hr] at hmoves
          rw [hM' _ _ _ _ _ _ ho' hr, hmoves.idle hA'] at hrun
          exact hrun

omit [DecidableEq ι] in
theorem left_enabled (M' : Impl ι μ' π' χ' α' ρ' ε') {c : χ} (hpc : (left M s).pc i ≠ M.idle)
    (h : (M.run i (left M s).mem c ((left M s).pc i)).isSome) :
    s.pc i ≠ (M.pair M').idle ∧ ((M.pair M').run i s.mem (.inl c) (s.pc i)).isSome := by
  cases hs : s.pc i with
  | fst q =>
    simp only [Impl.left, hs, Side.left] at h
    exact ⟨by simp [Impl.pair], Option.isSome_map.trans h⟩
  | idle => exact absurd (by simp only [Impl.left, hs, Side.left]) hpc
  | snd q => exact absurd (by simp only [Impl.left, hs, Side.left]) hpc

omit [DecidableEq ι] in
theorem right_enabled (M : Impl ι μ π χ α ρ ε) {c : χ'} (hpc : (right M' s).pc i ≠ M'.idle)
    (h : (M'.run i (right M' s).mem c ((right M' s).pc i)).isSome) :
    s.pc i ≠ (M.pair M').idle ∧ ((M.pair M').run i s.mem (.inr c) (s.pc i)).isSome := by
  cases hs : s.pc i with
  | snd q =>
    simp only [Impl.right, hs, Side.right] at h
    exact ⟨by simp [Impl.pair], Option.isSome_map.trans h⟩
  | idle => exact absurd (by simp only [Impl.right, hs, Side.right]) hpc
  | fst q => exact absurd (by simp only [Impl.right, hs, Side.right]) hpc

/-- What the first object does. -/
theorem left_reach [DecidableEq π] [DecidableEq π'] (hM : M.Returns)
    {C : State ι μ π → ι × Act α χ → Prop} {C' : State ι μ' π' → ι × Act α' χ' → Prop}
    {h : List (Event ι (α ⊕ α') (ρ ⊕ ρ') Empty)}
    (hr : (M.pair M').lts.ReachIf (fun _ => PairWithin M M' C C') h s) :
    ∃ h', M.lts.ReachIf (fun _ => C) h' (left M s) := by
  refine hr.inv (I := fun _ s => ∃ h', M.lts.ReachIf (fun _ => C) h' (left M s))
    (fun s h0 => ?_) fun h s l es s' hi hl hs => ?_
  · obtain rfl : s = (M.pair M').init := h0
    exact ⟨[], .init rfl⟩
  obtain ⟨h', hi⟩ := hi
  obtain ⟨i, op | c⟩ := l
  · obtain ⟨hpc, -, rfl⟩ := step_call.1 hs
    have hidle : (left M s).pc i = M.idle := by simp only [Impl.left, hpc]; rfl
    cases op with
    | inl op => exact ⟨_, hi.step hl (step_call.2 ⟨hidle, rfl, left_moved⟩)⟩
    | inr op =>
      have hsame : left M (s.moved i (s.mem.1, s.mem.2) (.snd (M'.entry op))) = left M s :=
        left_same M (by rw [hpc]; rfl)
      exact ⟨h', hsame.symm ▸ hi⟩
  · obtain ⟨o, ho, -, rfl⟩ := step_run.1 hs
    cases hpc : s.pc i with
    | idle =>
      rw [hpc] at ho
      cases ho
    | fst q =>
      rw [hpc] at ho
      obtain ⟨c', o', rfl, ho', rfl⟩ := pair_fst.1 ho
      have hq : (left M s).pc i = q := by simp only [Impl.left, hpc]; rfl
      refine ⟨_, hi.step hl (step_run.2 ⟨o', by rw [hq]; exact ho', rfl, left_moved.trans ?_⟩)⟩
      cases hret : o'.ret with
      | none => rfl
      | some r =>
        rw [hM _ _ _ _ _ _ ho' hret]
        rfl
    | snd q =>
      rw [hpc] at ho
      obtain ⟨c', o', rfl, -, rfl⟩ := pair_snd.1 ho
      have hsame : left M (s.moved i (s.mem.1, o'.mem) (if o'.ret.isSome then .idle else
          .snd o'.pc)) = left M s := left_same M (by rw [hpc]; cases o'.ret <;> rfl)
      exact ⟨h', hsame.symm ▸ hi⟩

/-- What the second object does. -/
theorem right_reach [DecidableEq π] [DecidableEq π'] (hM' : M'.Returns)
    {C : State ι μ π → ι × Act α χ → Prop} {C' : State ι μ' π' → ι × Act α' χ' → Prop}
    {h : List (Event ι (α ⊕ α') (ρ ⊕ ρ') Empty)}
    (hr : (M.pair M').lts.ReachIf (fun _ => PairWithin M M' C C') h s) :
    ∃ h', M'.lts.ReachIf (fun _ => C') h' (right M' s) := by
  refine hr.inv (I := fun _ s => ∃ h', M'.lts.ReachIf (fun _ => C') h' (right M' s))
    (fun s h0 => ?_) fun h s l es s' hi hl hs => ?_
  · obtain rfl : s = (M.pair M').init := h0
    exact ⟨[], .init rfl⟩
  obtain ⟨h', hi⟩ := hi
  obtain ⟨i, op | c⟩ := l
  · obtain ⟨hpc, -, rfl⟩ := step_call.1 hs
    have hidle : (right M' s).pc i = M'.idle := by simp only [Impl.right, hpc]; rfl
    cases op with
    | inl op =>
      have hsame : right M' (s.moved i (s.mem.1, s.mem.2) (.fst (M.entry op))) = right M' s :=
        right_same M' (by rw [hpc]; rfl)
      exact ⟨h', hsame.symm ▸ hi⟩
    | inr op => exact ⟨_, hi.step hl (step_call.2 ⟨hidle, rfl, right_moved⟩)⟩
  · obtain ⟨o, ho, -, rfl⟩ := step_run.1 hs
    cases hpc : s.pc i with
    | idle =>
      rw [hpc] at ho
      cases ho
    | fst q =>
      rw [hpc] at ho
      obtain ⟨c', o', rfl, -, rfl⟩ := pair_fst.1 ho
      have hsame : right M' (s.moved i (o'.mem, s.mem.2) (if o'.ret.isSome then .idle else
          .fst o'.pc)) = right M' s := right_same M' (by rw [hpc]; cases o'.ret <;> rfl)
      exact ⟨h', hsame.symm ▸ hi⟩
    | snd q =>
      rw [hpc] at ho
      obtain ⟨c', o', rfl, ho', rfl⟩ := pair_snd.1 ho
      have hq : (right M' s).pc i = q := by simp only [Impl.right, hpc]; rfl
      refine ⟨_, hi.step hl (step_run.2 ⟨o', by rw [hq]; exact ho', rfl, right_moved.trans ?_⟩)⟩
      cases hret : o'.ret with
      | none => rfl
      | some r =>
        rw [hM' _ _ _ _ _ _ ho' hret]
        rfl

end

end Impl
end Lumen.Lib.Shared
