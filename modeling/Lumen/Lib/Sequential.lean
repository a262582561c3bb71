import Lumen.Lib.Shared

/-!
# Calls made one at a time

A sequential specification `Spec` gives the result of an operation and the next value. `Legal` is
a sequence of operations and results that it allows.

`SeqRun M s tr s'`: from `s` the calls of `tr`, each made by some thread and run alone from its
start to its return, give the results of `tr` and lead to `s'`.

`Finishes M c s i op`: a call of `op` that runs alone from `s` returns. Nothing is chosen for it:
wherever it has come, whatever the choices were, it is never blocked and comes to its return as soon
as its accesses go on with the choice `c`, the one that stands for nothing happening.

* `RunsTo.sound`, `Completes.of_rank`: the rules for one call running alone, by an invariant of its
  accesses and by a rank that they bring down with the choice `c`.
* `Alone.of_stages`: the rule for an object whose calls, each running alone, do what the
  specification does; other calls may be in flight whose threads do not move.
* `Implements.legal`, `Implements.returns`: an object whose calls one by one do what the
  specification does returns, over whole sequences of calls, what the specification returns.
-/

set_option autoImplicit false

namespace Lumen.Lib.Shared

/-! ## Specifications -/

/-- What an operation returns and makes of the value. -/
abbrev Spec (κ α ρ : Type*) := κ → α → ρ × κ

namespace Spec

variable {κ α ρ : Type*} (S : Spec κ α ρ)

/-- The results of a sequence of operations. -/
def results : κ → List α → List ρ
  | _, [] => []
  | q, op :: ops => (S q op).1 :: results (S q op).2 ops

/-- The value after a sequence of operations. -/
def after : κ → List α → κ
  | q, [] => q
  | q, op :: ops => after (S q op).2 ops

/-- The operations, with these results, are a run of the specification from `q` to `q'`. -/
def Legal (q : κ) (tr : List (α × ρ)) (q' : κ) : Prop :=
  tr.map Prod.snd = S.results q (tr.map Prod.fst) ∧ S.after q (tr.map Prod.fst) = q'

variable {S} {q q' q'' : κ}

theorem legal_nil : S.Legal q [] q := ⟨rfl, rfl⟩

theorem legal_cons {op : α} {r : ρ} {tr : List (α × ρ)} :
    S.Legal q ((op, r) :: tr) q' ↔ r = (S q op).1 ∧ S.Legal (S q op).2 tr q' := by
  simp only [Legal, List.map_cons, results, after, List.cons.injEq, and_assoc]

theorem legal_append {tr tr' : List (α × ρ)} :
    S.Legal q (tr ++ tr') q'' ↔ ∃ q', S.Legal q tr q' ∧ S.Legal q' tr' q'' := by
  induction tr generalizing q with
  | nil =>
    refine ⟨fun h => ⟨q, legal_nil, h⟩, fun ⟨q', h, h'⟩ => ?_⟩
    obtain rfl : q = q' := h.2
    exact h'
  | cons x tr ih =>
    obtain ⟨op, r⟩ := x
    rw [List.cons_append, legal_cons, ih]
    constructor
    · rintro ⟨hr, q', hl, hl'⟩
      exact ⟨q', legal_cons.2 ⟨hr, hl⟩, hl'⟩
    · rintro ⟨q', hl, hl'⟩
      obtain ⟨hr, hl⟩ := legal_cons.1 hl
      exact ⟨hr, q', hl, hl'⟩

theorem Legal.append {tr tr' : List (α × ρ)} (h : S.Legal q tr q') (h' : S.Legal q' tr' q'') :
    S.Legal q (tr ++ tr') q'' := legal_append.2 ⟨q', h, h'⟩

/-- An operation whose result does not depend on the value. -/
theorem Legal.result_eq (op : α) {r r' : ρ} (hop : ∀ q, (S q op).1 = r) {tr : List (α × ρ)}
    (h : S.Legal q tr q') (hmem : (op, r') ∈ tr) : r' = r := by
  induction tr generalizing q with
  | nil => cases hmem
  | cons x tr ih =>
    obtain ⟨op', r''⟩ := x
    obtain ⟨hr, hl⟩ := legal_cons.1 h
    rcases List.mem_cons.1 hmem with heq | hmem
    · cases heq
      exact hr.trans (hop q)
    · exact ih hl hmem

theorem legal_single {op : α} {r : ρ} (h : S q op = (r, q')) : S.Legal q [(op, r)] q' :=
  legal_cons.2 ⟨by rw [h], by rw [h]; exact legal_nil⟩

end Spec

/-! ## One call alone -/

/-- What an access returns to its caller. -/
def retOf {ι α ρ ε : Type*} (es : List (Event ι α ρ ε)) : Option ρ :=
  es.findSome? fun
    | .ret _ r => some r
    | _ => none

theorem retOf_events {ι μ α ρ ε π : Type*} {idle : π} (o : Outcome μ ρ ε idle) (i : ι) :
    retOf (α := α) (o.events i) = o.ret := by
  have hobs : (o.obs.map (Event.obs (α := α) (ρ := ρ) i)).findSome? (fun
      | .ret _ r => some r
      | _ => none) = none := by simp
  simp only [retOf, Outcome.events, List.findSome?_append, hobs, Option.none_or]
  cases o.ret <;> rfl

section
variable {ι μ π χ α ρ ε : Type*} [DecidableEq ι] [DecidableEq π] (M : Impl ι μ π χ α ρ ε)

/-- Thread `i` runs alone until its call returns `r`. -/
inductive RunsTo (i : ι) : State ι μ π → ρ → State ι μ π → Prop
  | ret {s s' : State ι μ π} {c : χ} {es : List (Event ι α ρ ε)} {r : ρ} :
      M.step s (i, .run c) = some (es, s') → retOf es = some r → RunsTo i s r s'
  | next {s s1 s' : State ι μ π} {c : χ} {es : List (Event ι α ρ ε)} {r : ρ} :
      M.step s (i, .run c) = some (es, s1) → retOf es = none → RunsTo i s1 r s' → RunsTo i s r s'

/-- Thread `i` runs alone, and its call has not returned. -/
inductive Runs (i : ι) : State ι μ π → State ι μ π → Prop
  | here (s : State ι μ π) : Runs i s s
  | next {s s1 s' : State ι μ π} {c : χ} {es : List (Event ι α ρ ε)} :
      M.step s (i, .run c) = some (es, s1) → retOf es = none → Runs i s1 s' → Runs i s s'

/-- Thread `i`, alone and with the choice `c` in each access, comes to the return of its call. -/
inductive Completes (c : χ) (i : ι) : State ι μ π → Prop
  | ret {s s' : State ι μ π} {es : List (Event ι α ρ ε)} {r : ρ} :
      M.step s (i, .run c) = some (es, s') → retOf es = some r → Completes c i s
  | next {s s1 : State ι μ π} {es : List (Event ι α ρ ε)} :
      M.step s (i, .run c) = some (es, s1) → retOf es = none → Completes c i s1 → Completes c i s

/-- Thread `i` can call `op`, and wherever its call has come alone, it returns once its accesses go
on with the choice `c`. -/
def Finishes (c : χ) (s : State ι μ π) (i : ι) (op : α) : Prop :=
  ∃ es s1, M.step s (i, .call op) = some (es, s1) ∧ ∀ s', Runs M i s1 s' → Completes M c i s'

/-- A whole call of thread `i`. -/
def SoloBy (i : ι) (s : State ι μ π) (op : α) (r : ρ) (s' : State ι μ π) : Prop :=
  ∃ es s1, M.step s (i, .call op) = some (es, s1) ∧ RunsTo M i s1 r s'

/-- A whole call. -/
def Solo (s : State ι μ π) (op : α) (r : ρ) (s' : State ι μ π) : Prop :=
  ∃ i es s1, M.step s (i, .call op) = some (es, s1) ∧ RunsTo M i s1 r s'

variable {M} in
theorem SoloBy.solo {i : ι} {s s' : State ι μ π} {op : α} {r : ρ} (h : SoloBy M i s op r s') :
    Solo M s op r s' := ⟨i, h⟩

inductive SeqRun : State ι μ π → List (α × ρ) → State ι μ π → Prop
  | nil (s : State ι μ π) : SeqRun s [] s
  | cons {s s1 s' : State ι μ π} {op : α} {r : ρ} {tr : List (α × ρ)} :
      Solo M s op r s1 → SeqRun s1 tr s' → SeqRun s ((op, r) :: tr) s'

variable {M} {i : ι} {P : μ → π → Prop} {Q : ρ → μ → Prop}

/-- What every access of a lone call at a stage keeps or returns, the whole call returns. -/
theorem RunsTo.sound
    (hs : ∀ m p c o, P m p → M.run i m c p = some o →
      (o.ret = none ∧ P o.mem o.pc) ∨ ∃ r, o.ret = some r ∧ o.pc = M.idle ∧ Q r o.mem)
    {s s' : State ι μ π} {r : ρ} (h : RunsTo M i s r s') (h0 : P s.mem (s.pc i)) :
    Q r s'.mem ∧ s'.pc = Function.update s.pc i M.idle := by
  induction h with
  | ret hst hr =>
    obtain ⟨o, ho, rfl, rfl⟩ := Impl.step_run.1 hst
    rw [retOf_events] at hr
    rcases hs _ _ _ _ h0 ho with ⟨h, -⟩ | ⟨r', h1, h2, h3⟩
    · rw [h] at hr
      cases hr
    · rw [h1, Option.some.injEq] at hr
      subst hr
      exact ⟨h3, by rw [h2]⟩
  | next hst hr _ ih =>
    obtain ⟨o, ho, rfl, rfl⟩ := Impl.step_run.1 hst
    rw [retOf_events] at hr
    rcases hs _ _ _ _ h0 ho with ⟨-, h⟩ | ⟨r', h1, -⟩
    · obtain ⟨h1, h2⟩ := ih (by simpa using h)
      exact ⟨h1, by simpa using h2⟩
    · rw [h1] at hr
      cases hr

/-- A lone call that returns with its first access. -/
theorem Solo.of_first {s s' : State ι μ π} {op : α} {r : ρ} (h : Solo M s op r s')
    (hs : ∀ i c o, M.run i s.mem c (M.entry op) = some o →
      ∃ r, o.ret = some r ∧ o.pc = M.idle ∧ Q r o.mem) : Q r s'.mem := by
  obtain ⟨i, es, s1, hc, hrun⟩ := h
  obtain ⟨-, -, rfl⟩ := Impl.step_call.1 hc
  refine (hrun.sound (P := fun m p => m = s.mem ∧ p = M.entry op) ?_ ?_).1
  · rintro m p c o ⟨rfl, rfl⟩ ho
    exact .inr (hs i c o ho)
  · exact ⟨rfl, Function.update_self _ _ _⟩

/-- What every access of a lone call at a stage keeps as long as it has not returned. -/
theorem Runs.keep (hs : ∀ m p c o, P m p → M.run i m c p = some o → o.ret = none → P o.mem o.pc)
    {s s' : State ι μ π} (h : Runs M i s s') (h0 : P s.mem (s.pc i)) : P s'.mem (s'.pc i) := by
  induction h with
  | here s => exact h0
  | next hst hr _ ih =>
    obtain ⟨o, ho, rfl, rfl⟩ := Impl.step_run.1 hst
    rw [retOf_events] at hr
    exact ih (by simpa using hs _ _ _ _ h0 ho hr)

/-- A lone call that is not blocked, and whose accesses bring down a rank, comes to its return. -/
theorem Completes.of_rank {c : χ} (rank : π → Nat)
    (hs : ∀ m p, P m p → ∃ o, M.run i m c p = some o ∧
      (o.ret = none → P o.mem o.pc ∧ rank o.pc < rank p))
    {s : State ι μ π} (h0 : P s.mem (s.pc i)) : Completes M c i s := by
  generalize hn : rank (s.pc i) = n
  induction n using Nat.strongRecOn generalizing s with
  | _ n ih =>
    obtain ⟨o, ho, hnext⟩ := hs _ _ h0
    have hst : M.step s (i, .run c) = _ := Impl.step_run.2 ⟨o, ho, rfl, rfl⟩
    cases hr : o.ret with
    | some r => exact .ret hst (by rw [retOf_events, hr])
    | none =>
      obtain ⟨h1, h2⟩ := hnext hr
      have hrest : Completes M c i ⟨o.mem, Function.update s.pc i o.pc⟩ :=
        ih (rank o.pc) (hn ▸ h2) (by simpa using h1) (by simp)
      exact .next hst (by rw [retOf_events, hr]) hrest

/-- A call that completes is a whole call. -/
theorem Completes.runsTo {c : χ} {s : State ι μ π} (h : Completes M c i s) :
    ∃ r s', RunsTo M i s r s' := by
  induction h with
  | ret hst hr => exact ⟨_, _, .ret hst hr⟩
  | next hst hr _ ih =>
    obtain ⟨r, s', h⟩ := ih
    exact ⟨r, s', .next hst hr h⟩

theorem Finishes.soloBy {c : χ} {s : State ι μ π} {op : α} (h : Finishes M c s i op) :
    ∃ r s', SoloBy M i s op r s' := by
  obtain ⟨es, s1, hst, hall⟩ := h
  obtain ⟨r, s', hrun⟩ := (hall s1 (.here s1)).runsTo
  exact ⟨r, s', es, s1, hst, hrun⟩

/-- Sequential runs are runs. -/
theorem RunsTo.reach {s s' : State ι μ π} {r : ρ} (hrun : RunsTo M i s r s')
    {h : List (Event ι α ρ ε)} (hr : M.lts.Reach h s) :
    ∃ h', M.lts.Reach (h ++ h') s' ∧ ∀ j op, .call j op ∉ h' := by
  induction hrun generalizing h with
  | ret hst _ =>
    obtain ⟨o, -, rfl, -⟩ := Impl.step_run.1 hst
    exact ⟨_, Impl.reach_step hr hst, o.call_notMem i⟩
  | next hst _ _ ih =>
    obtain ⟨h', h1, h2⟩ := ih (Impl.reach_step hr hst)
    obtain ⟨o, -, rfl, -⟩ := Impl.step_run.1 hst
    refine ⟨o.events i ++ h', by rwa [← List.append_assoc], fun j op hm => ?_⟩
    rcases List.mem_append.1 hm with hm | hm
    · exact o.call_notMem i j op hm
    · exact h2 j op hm

theorem SeqRun.reach {s s' : State ι μ π} {tr : List (α × ρ)} (hrun : SeqRun M s tr s')
    {h : List (Event ι α ρ ε)} (hr : M.lts.Reach h s) :
    ∃ h', M.lts.Reach (h ++ h') s' ∧ ∀ j op, .call j op ∈ h' → op ∈ tr.map Prod.fst := by
  induction hrun generalizing h with
  | nil s => exact ⟨[], by simpa using hr, fun _ _ hm => nomatch hm⟩
  | cons hs _ ih =>
    obtain ⟨i, es, s1, hst, hrun⟩ := hs
    obtain ⟨h1, hr1, hc1⟩ := hrun.reach (Impl.reach_step hr hst)
    obtain ⟨h2, hr2, hc2⟩ := ih hr1
    obtain ⟨-, rfl, -⟩ := Impl.step_call.1 hst
    refine ⟨_ :: (h1 ++ h2), by simpa using hr2, fun j op hm => ?_⟩
    rcases List.mem_cons.1 hm with hm | hm
    · cases hm
      exact List.mem_cons_self
    · rcases List.mem_append.1 hm with hm | hm
      · exact absurd hm (hc1 j op)
      · exact List.mem_cons_of_mem _ (hc2 j op hm)

end

/-! ## Implementing a specification -/

section
variable {ι μ π χ α ρ ε κ : Type*} [DecidableEq ι] [DecidableEq π]

/-- `Rep q m`: the memory `m` stands for the value `q`. From there, where `ok` allows the operation,
one call alone returns and does what the specification does, whatever calls are in flight. -/
structure Alone (M : Impl ι μ π χ α ρ ε) (c : χ) (S : Spec κ α ρ) (ok : κ → α → Prop)
    (Rep : κ → μ → Prop) : Prop where
  sound : ∀ {q s op r s'}, Rep q s.mem → ok q op → Solo M s op r s' →
    r = (S q op).1 ∧ Rep (S q op).2 s'.mem ∧ s'.pc = s.pc
  total : ∀ {q s op i}, s.pc i = M.idle → Rep q s.mem → ok q op → Finishes M c s i op

/-- The same of the idle object. -/
structure Implements (M : Impl ι μ π χ α ρ ε) (c : χ) (S : Spec κ α ρ) (ok : κ → α → Prop)
    (Rep : κ → μ → Prop) : Prop where
  sound : ∀ {q s op r s'}, Rep q s.mem → M.Quiescent s → ok q op → Solo M s op r s' →
    r = (S q op).1 ∧ Rep (S q op).2 s'.mem ∧ M.Quiescent s'
  total : ∀ {q s op i}, Rep q s.mem → M.Quiescent s → ok q op → Finishes M c s i op

namespace Alone

variable {M : Impl ι μ π χ α ρ ε} {c0 : χ} {S : Spec κ α ρ} {ok : κ → α → Prop}
  {Rep : κ → μ → Prop}

/-- The rule: each operation has its stages, kept by its accesses, and a rank that the accesses
bring down when the choice is `c0`. -/
theorem of_stages (Stage : κ → α → μ → π → Prop) (rank : π → Nat)
    (h0 : ∀ q op m, Rep q m → ok q op → Stage q op m (M.entry op))
    (hs : ∀ i q op m p c o, Stage q op m p → M.run i m c p = some o →
      (o.ret = none ∧ Stage q op o.mem o.pc ∧ (c = c0 → rank o.pc < rank p)) ∨
        (o.ret = some (S q op).1 ∧ o.pc = M.idle ∧ Rep (S q op).2 o.mem))
    (ht : ∀ i q op m p, Stage q op m p → ∃ o, M.run i m c0 p = some o) :
    Alone M c0 S ok Rep where
  sound := by
    rintro q s op r s' hR hok ⟨i, es, s1, hc, hr⟩
    obtain ⟨hidle, -, rfl⟩ := Impl.step_call.1 hc
    have hstage : ∀ m p c o, Stage q op m p → M.run i m c p = some o →
        (o.ret = none ∧ Stage q op o.mem o.pc) ∨ ∃ r, o.ret = some r ∧ o.pc = M.idle ∧
          r = (S q op).1 ∧ Rep (S q op).2 o.mem := by
      intro m p c o hst ho
      rcases hs i q op m p c o hst ho with ⟨h1, h2, -⟩ | ⟨h1, h2, h3⟩
      · exact .inl ⟨h1, h2⟩
      · exact .inr ⟨_, h1, h2, rfl, h3⟩
    obtain ⟨⟨h1, h2⟩, h3⟩ := hr.sound (P := Stage q op)
      (Q := fun r m => r = (S q op).1 ∧ Rep (S q op).2 m) hstage (by simpa using h0 q op _ hR hok)
    refine ⟨h1, h2, ?_⟩
    rw [h3, Function.update_idem, ← hidle, Function.update_eq_self]
  total := by
    intro q s op i hidle hR hok
    refine ⟨_, _, Impl.step_call.2 ⟨hidle, rfl, rfl⟩, fun s' hruns => ?_⟩
    have hstage : Stage q op s'.mem (s'.pc i) := by
      refine hruns.keep (fun m p c o hst ho hn => ?_) (by simpa using h0 q op _ hR hok)
      rcases hs i q op m p c o hst ho with ⟨-, h1, -⟩ | ⟨h1, -⟩
      · exact h1
      · rw [hn] at h1
        cases h1
    refine Completes.of_rank (P := Stage q op) rank (fun m p hst => ?_) hstage
    obtain ⟨o, ho⟩ := ht i q op m p hst
    refine ⟨o, ho, fun hn => ?_⟩
    rcases hs i q op m p c0 o hst ho with ⟨-, h1, h2⟩ | ⟨h1, -⟩
    · exact ⟨h1, h2 rfl⟩
    · rw [hn] at h1
      cases h1

theorem implements (hM : Alone M c0 S ok Rep) : Implements M c0 S ok Rep where
  sound hR hq hok hsolo := by
    obtain ⟨h1, h2, h3⟩ := hM.sound hR hok hsolo
    refine ⟨h1, h2, fun i => ?_⟩
    rw [h3]
    exact hq i
  total hR hq hok := hM.total (hq _) hR hok

end Alone

/-- Every operation of the sequence is allowed at the value it meets. -/
def Allowed (S : Spec κ α ρ) (ok : κ → α → Prop) : κ → List α → Prop
  | _, [] => True
  | q, op :: ops => ok q op ∧ Allowed S ok (S q op).2 ops

namespace Implements

variable {M : Impl ι μ π χ α ρ ε} {c0 : χ} {S : Spec κ α ρ} {ok : κ → α → Prop}
  {Rep : κ → μ → Prop}

variable (hM : Implements M c0 S ok Rep)
include hM

/-- Whatever a sequence of calls returns is what the specification returns. -/
theorem legal {tr : List (α × ρ)} {q : κ} {s s' : State ι μ π} (hrun : SeqRun M s tr s')
    (hR : Rep q s.mem) (hq : M.Quiescent s) (ha : Allowed S ok q (tr.map Prod.fst)) :
    ∃ q', S.Legal q tr q' ∧ Rep q' s'.mem ∧ M.Quiescent s' := by
  induction hrun generalizing q with
  | nil s => exact ⟨q, Spec.legal_nil, hR, hq⟩
  | cons hs _ ih =>
    obtain ⟨h1, h2, h3⟩ := hM.sound hR hq ha.1 hs
    obtain ⟨q', hl, h⟩ := ih h2 h3 ha.2
    exact ⟨q', Spec.legal_cons.2 ⟨h1, hl⟩, h⟩

/-- The same where no call could have returned that is not allowed. -/
theorem legal_of {P : α → Prop} (hP : ∀ {q s op r s'}, P op → Rep q s.mem → M.Quiescent s →
      Solo M s op r s' → ok q op) {tr : List (α × ρ)} {q : κ} {s s' : State ι μ π}
    (hrun : SeqRun M s tr s') (hR : Rep q s.mem) (hq : M.Quiescent s) (htr : ∀ x ∈ tr, P x.1) :
    ∃ q', S.Legal q tr q' ∧ Rep q' s'.mem ∧ M.Quiescent s' := by
  induction hrun generalizing q with
  | nil s => exact ⟨q, Spec.legal_nil, hR, hq⟩
  | cons hs _ ih =>
    rw [List.forall_mem_cons] at htr
    obtain ⟨h1, h2, h3⟩ := hM.sound hR hq (hP htr.1 hR hq hs) hs
    obtain ⟨q', hl, h⟩ := ih h2 h3 htr.2
    exact ⟨q', Spec.legal_cons.2 ⟨h1, hl⟩, h⟩

/-- Every sequence of calls returns. -/
theorem seqRun [Nonempty ι] (ops : List α) {q : κ} {s : State ι μ π} (hR : Rep q s.mem)
    (hq : M.Quiescent s) (ha : Allowed S ok q ops) :
    ∃ s', SeqRun M s (ops.zip (S.results q ops)) s' := by
  induction ops generalizing q s with
  | nil => exact ⟨s, .nil s⟩
  | cons op ops ih =>
    obtain ⟨i⟩ := ‹Nonempty ι›
    obtain ⟨r, s1, hs⟩ := (hM.total (i := i) hR hq ha.1).soloBy
    obtain ⟨h1, h2, h3⟩ := hM.sound hR hq ha.1 hs.solo
    obtain ⟨s', h⟩ := ih h2 h3 ha.2
    exact ⟨s', .cons (h1 ▸ hs.solo) h⟩

end Implements

/-- Called one operation at a time from its initial state, the object returns `rs`: wherever the
calls so far have led, the next one finishes, whichever thread makes it, and a sequence of calls
that have returned has returned nothing else. -/
structure Returns (M : Impl ι μ π χ α ρ ε) (c : χ) (ops : List α) (rs : List ρ) : Prop where
  finishes : ∀ done op rest tr s i, ops = done ++ op :: rest → SeqRun M M.init tr s →
    tr.map Prod.fst = done → Finishes M c s i op
  results : ∀ tr s, SeqRun M M.init tr s → tr.map Prod.fst = ops → tr.map Prod.snd = rs

theorem allowed_append {S : Spec κ α ρ} {ok : κ → α → Prop} {q : κ} {ops ops' : List α} :
    Allowed S ok q (ops ++ ops') ↔ Allowed S ok q ops ∧ Allowed S ok (S.after q ops) ops' := by
  induction ops generalizing q with
  | nil => exact ⟨fun h => ⟨trivial, h⟩, fun h => h.2⟩
  | cons op ops ih =>
    rw [List.cons_append]
    exact (and_congr_right fun _ => ih).trans and_assoc.symm

theorem Implements.returns {M : Impl ι μ π χ α ρ ε} {c0 : χ} {S : Spec κ α ρ}
    {ok : κ → α → Prop} {Rep : κ → μ → Prop} {ops : List α} (hM : Implements M c0 S ok Rep) {q : κ}
    (h0 : Rep q M.start) (ha : Allowed S ok q ops) :
    Returns M c0 ops (S.results q ops) := by
  have hq : M.Quiescent M.init := fun _ => rfl
  refine ⟨fun done op rest tr s i heq hrun hdone => ?_, fun tr s hrun heq => ?_⟩
  · rw [heq, allowed_append, ← hdone] at ha
    obtain ⟨q', hl, hR, hq'⟩ := hM.legal hrun h0 hq ha.1
    have hnext := ha.2.1
    rw [hl.2] at hnext
    exact hM.total hR hq' hnext
  · subst heq
    obtain ⟨q', hl, -⟩ := hM.legal hrun h0 hq ha
    exact hl.1

end
end Lumen.Lib.Shared
