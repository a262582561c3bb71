import Lumen.Concurrency.Proof.SPSCInv

/-!
# The size of `SPSCTaskQueue`

`size` loads `tail`, then `head`, and subtracts. While a third thread is between the two loads the
consumer may pop tasks that were pushed since the first: then `head` is ahead of the value of `tail`
and the difference, a 64-bit word, wraps (`size_wraps`). `InTime` says when it does not, and
`size_in_range` that nothing else can make a size exceed 1023. The two threads of the queue are
always in time (`SizeSince.inTime_own`).
-/

set_option autoImplicit false

namespace Lumen.Concurrency.SPSCTaskQueue

open Lumen.Lib Lumen.Lib.Shared Lumen.Core ITaskQueue

/-- `P` tasks were pushed before the load of `tail`, `H` are popped at the load of `head`: no more
than were pushed, or so many more that the words are close again. -/
def InTime (P H : Nat) : Prop := H ≤ P ∨ (H - P + 1023) % 2 ^ 64 ≤ 1023

instance (P H : Nat) : Decidable (InTime P H) := inferInstanceAs (Decidable (_ ∨ _))

theorem sub64_le_iff {P H : Nat} (h : P ≤ H + 1023) :
    sub64 (P % 2 ^ 64) (H % 2 ^ 64) ≤ 1023 ↔ InTime P H := by
  unfold sub64 InTime
  omega

variable {ι : Type*}

/-! ## The load of `tail` -/

/-- Thread `i` loads `tail` for a size. -/
def TailLoad (i : ι) (s : State ι) : ι × Act Unit → Prop
  | (j, .run _) => j = i ∧ ∃ e, s.pc i = .sizeTail e
  | (_, .call _) => False

theorem run_sizeHead {m : Mem} {q : Pc} {o : Outcome} {e : Bool} {t : Nat}
    (ho : run m q = some o) (hq : o.pc = .sizeHead e t) :
    q = .sizeTail e ∧ t = m.tail ∧ o.obs = [] ∧ o.ret = none := by
  cases q <;> simp only [run] at ho
  case sizeTail e' =>
    cases ho
    cases hq
    exact ⟨rfl, rfl, rfl, rfl⟩
  case popStore ctx h task =>
    cases ho
    cases ctx <;> cases hq
  all_goals
    (repeat' split at ho) <;> cases ho <;> cases hq

theorem run_pushed {m : Mem} {q : Pc} {o : Outcome} {i : ι} (ho : run m q = some o)
    (hne : pushed (o.events i : List (Event ι Obs)) ≠ []) : ∃ task t, q = .pushStore task t := by
  cases q <;> simp only [run] at ho
  case pushStore task t => exact ⟨task, t, rfl⟩
  case popStore ctx h task =>
    cases ho
    cases ctx <;> exact absurd rfl hne
  all_goals
    (repeat' split at ho) <;> cases ho <;> exact absurd rfl hne

theorem run_popped {m : Mem} {q : Pc} {o : Outcome} {i : ι} (ho : run m q = some o)
    (hne : popped (o.events i : List (Event ι Obs)) ≠ []) :
    ∃ ctx h task, q = .popStore ctx h task := by
  cases q <;> simp only [run] at ho
  case popStore ctx h task => exact ⟨ctx, h, task, rfl⟩
  all_goals
    (repeat' split at ho) <;> cases ho <;> exact absurd rfl hne

section
variable {p c i : ι} {h h0 h1 : List (Event ι Obs)} {s : State ι} {e : Bool} {t : Nat}

/-- What a thread between its two loads has, and what the producer and the consumer cannot have done
while they are such a thread themselves. -/
structure Loaded (p c i : ι) (h0 h1 : List (Event ι Obs)) (t : Nat) : Prop where
  tail_eq : t = (pushed h0).length % 2 ^ 64
  le : (popped h0).length ≤ (pushed h0).length
  push : i = p → pushed h1 = []
  pop : i = c → popped h1 = []

/-- An access of another thread. -/
theorem Loaded.step {W R : List InferenceTask} {j : ι} {o : Outcome} (hl : Loaded p c i h0 h1 t)
    (hi : Inv p c W R s) (hj : i ≠ j) (ho : run s.mem (s.pc j) = some o) :
    Loaded p c i h0 (h1 ++ o.events j) t := by
  have hok := hi.thread j
  refine ⟨hl.tail_eq, hl.le, fun hp => ?_, fun hc => ?_⟩
  · rw [pushed_append, hl.push hp, List.nil_append]
    by_contra hne
    obtain ⟨task, t', hpc⟩ := run_pushed ho hne
    rw [hpc] at hok
    exact hj (hp.trans hok.1.symm)
  · rw [popped_append, hl.pop hc, List.nil_append]
    by_contra hne
    obtain ⟨ctx, k, task, hpc⟩ := run_popped ho hne
    rw [hpc] at hok
    exact hj (hc.trans hok.1.symm)

variable [DecidableEq ι]

/-- A run with one producer and one consumer that had shown `h0` when thread `i` loaded `tail` for a
size for the last time, and has shown `h1` since. -/
def SizeSince (p c i : ι) (h0 h1 : List (Event ι Obs)) (s : State ι) : Prop :=
  (lts ι).Since (Roles p c) (TailLoad i) h0 h1 s

theorem SizeSince.loaded (hs : SizeSince p c i h0 h1 s) (hpc : s.pc i = .sizeHead e t) :
    Loaded p c i h0 h1 t := by
  induction hs with
  | @mark h s l es s' hr _ hm hst =>
    obtain ⟨j, op | u⟩ := l
    · exact hm.elim
    · obtain ⟨rfl, hm⟩ := hm
      obtain ⟨o, ho, rfl, rfl⟩ := Impl.step_run.1 hst
      simp only [Function.update_self] at hpc
      obtain ⟨-, rfl, hobs, hret⟩ := run_sizeHead ho hpc
      have hes : o.events j = ([] : List (Event ι Obs)) := by simp [Outcome.events, hobs, hret]
      have hring := (inv hr).ring
      rw [hes, List.append_nil]
      exact ⟨hring.tail_eq, hring.le, fun _ => rfl, fun _ => rfl⟩
  | @step h0 h1 s l es s' hs hc hm hst ih =>
    obtain ⟨j, op | u⟩ := l
    · obtain ⟨-, rfl, rfl⟩ := Impl.step_call.1 hst
      by_cases hj : i = j
      · subst hj
        simp only [Function.update_self] at hpc
        cases op <;> cases hpc
      · simp only [Function.update_of_ne hj] at hpc
        obtain ⟨htail, hle, hpush, hpop⟩ := ih hpc
        exact ⟨htail, hle, fun hp => by rw [pushed_append, hpush hp]; rfl,
          fun hc => by rw [popped_append, hpop hc]; rfl⟩
    · obtain ⟨o, ho, rfl, rfl⟩ := Impl.step_run.1 hst
      by_cases hj : i = j
      · subst hj
        simp only [Function.update_self] at hpc
        exact absurd ⟨rfl, e, (run_sizeHead ho hpc).1⟩ hm
      · simp only [Function.update_of_ne hj] at hpc
        exact (ih hpc).step (inv hs.reach) hj ho

/-- A thread between its two loads has made the first. -/
theorem exists_sizeSince (hr : (lts ι).ReachIf (Roles p c) h s) (hpc : s.pc i = .sizeHead e t) :
    ∃ h0 h1, h = h0 ++ h1 ∧ SizeSince p c i h0 h1 s := by
  refine Lts.ReachIf.since (Q := fun s => s.pc i = .sizeHead e t) ?_ ?_ hr hpc
  · rintro s rfl hpc
    cases hpc
  · intro s l es s' hst hm hpc
    obtain ⟨j, op | u⟩ := l
    · obtain ⟨-, -, rfl⟩ := Impl.step_call.1 hst
      by_cases hj : i = j
      · subst hj
        simp only [Function.update_self] at hpc
        cases op <;> cases hpc
      · simpa only [Function.update_of_ne hj] using hpc
    · obtain ⟨o, ho, -, rfl⟩ := Impl.step_run.1 hst
      by_cases hj : i = j
      · subst hj
        simp only [Function.update_self] at hpc
        exact absurd ⟨rfl, e, (run_sizeHead ho hpc).1⟩ hm
      · simpa only [Function.update_of_ne hj] using hpc

/-! ## The load of `head` -/

/-- The difference is a size if and only if the load of `head` is in time. -/
theorem SizeSince.size_iff (hs : SizeSince p c i h0 h1 s) (hpc : s.pc i = .sizeHead e t) :
    sub64 t s.mem.head ≤ 1023 ↔ InTime (pushed h0).length (popped (h0 ++ h1)).length := by
  have hring := (inv hs.reach).ring
  have hcap := hring.le_cap
  rw [pushed_append, List.length_append] at hcap
  rw [(hs.loaded hpc).tail_eq, hring.head_eq]
  exact sub64_le_iff (by omega)

/-- The producer and the consumer themselves are always in time. -/
theorem SizeSince.inTime_own (hs : SizeSince p c i h0 h1 s) (hpc : s.pc i = .sizeHead e t)
    (hown : i = p ∨ i = c) : InTime (pushed h0).length (popped (h0 ++ h1)).length := by
  have hl := hs.loaded hpc
  refine .inl ?_
  rcases hown with hp | hc
  · have hle := (inv hs.reach).ring.le
    rwa [pushed_append, hl.push hp, List.append_nil] at hle
  · rw [popped_append, hl.pop hc, List.append_nil]
    exact hl.le

/-- If the step is the load of `head` of a size, it is in time. -/
def Timely (p c : ι) (h : List (Event ι Obs)) (s : State ι) : ι × Act Unit → Prop
  | (i, .run _) => ∀ e t h0 h1, s.pc i = .sizeHead e t → h = h0 ++ h1 →
      SizeSince p c i h0 h1 s → InTime (pushed h0).length (popped h).length
  | (_, .call _) => True

/-- The value of `tail` that a thread about to load `head` for a size has. -/
def Pc.sizing : Pc → Option Nat
  | .sizeHead _ t => some t
  | _ => none

theorem sizing_eq_some {q : Pc} : q.sizing = some t ↔ ∃ e, q = .sizeHead e t := by
  cases q <;> simp [Pc.sizing]

/-- If the step is the load of `head` of a size, the difference is a size. -/
def InRange (s : State ι) : ι × Act Unit → Prop
  | (i, .run _) => ∀ t ∈ (s.pc i).sizing, sub64 t s.mem.head ≤ 1023
  | (_, .call _) => True

instance (s : State ι) : ∀ l, Decidable (InRange s l)
  | (i, .run _) => inferInstanceAs (Decidable (∀ t ∈ (s.pc i).sizing, sub64 t s.mem.head ≤ 1023))
  | (_, .call _) => .isTrue trivial

theorem timely_iff (hr : (lts ι).ReachIf (Roles p c) h s) (l : ι × Act Unit) :
    Timely p c h s l ↔ InRange s l := by
  obtain ⟨i, op | u⟩ := l
  · exact Iff.rfl
  constructor
  · intro ht t hsize
    obtain ⟨e, hpc⟩ := sizing_eq_some.1 hsize
    obtain ⟨h0, h1, rfl, hs⟩ := exists_sizeSince hr hpc
    exact (hs.size_iff hpc).2 (ht e t h0 h1 hpc rfl hs)
  · rintro hin e t h0 h1 hpc rfl hs
    exact (hs.size_iff hpc).1 (hin t (sizing_eq_some.2 ⟨e, hpc⟩))

/-- The runs whose sizes are in range are the runs whose loads of `head` are in time. -/
theorem reach_timely (hr : (lts ι).ReachIf (fun h s l => Roles p c h s l ∧ InRange s l) h s) :
    (lts ι).ReachIf (fun h s l => Roles p c h s l ∧ Timely p c h s l) h s := by
  induction hr with
  | init h0 => exact .init h0
  | @step h s l es s' hr hc hst ih =>
    exact ih.step ⟨hc.1, (timely_iff (hr.mono fun _ _ _ hc => hc.1) l).2 hc.2⟩ hst

/-- A size that is returned is at most 1023. -/
def SizeOk (_ : List (Event ι Obs)) (ev : Event ι Obs) : Prop :=
  ∀ i n, ev = .ret i (.size n) → n ≤ 1023

theorem run_size {m : Mem} {q : Pc} {o : Outcome} {n : Nat} (ho : run m q = some o)
    (hret : o.ret = some (.size n)) : ∃ e t, q = .sizeHead e t ∧ n = sub64 t m.head := by
  cases q <;> simp only [run] at ho
  case sizeHead e t =>
    cases ho
    cases e <;> simp only [sizeRet, Option.some.injEq, Bool.false_eq_true, if_false, if_true,
      reduceCtorEq, Ret.size.injEq] at hret
    exact ⟨_, _, rfl, hret.symm⟩
  case popTail ctx h =>
    (repeat' split at ho) <;> cases ho <;> cases ctx <;> cases hret
  case popStore ctx h task =>
    cases ho
    cases ctx <;> cases hret
  all_goals
    (repeat' split at ho) <;> cases ho <;> cases hret

theorem past_sizeOk
    (hr : (lts ι).ReachIf (fun h s l => Roles p c h s l ∧ Timely p c h s l) h s) :
    Past SizeOk h := by
  refine hr.inv_of_reach (I := fun h _ => Past SizeOk h) (fun _ _ => .nil)
    fun h s l es s' hr hp ⟨hroles, htimely⟩ hs => ?_
  obtain ⟨i, op | u⟩ := l
  · obtain ⟨-, rfl, rfl⟩ := Impl.step_call.1 hs
    exact hp.append_one fun _ _ he => by cases he
  · obtain ⟨o, ho, rfl, rfl⟩ := Impl.step_run.1 hs
    refine past_events hp (fun _ _ _ _ _ _ he => by cases he) fun r hret j n he => ?_
    cases he
    obtain ⟨e, t, hpc, rfl⟩ := run_size ho hret
    exact (timely_iff (hr.mono fun _ _ _ hc => hc.1) _).1 htimely t (sizing_eq_some.2 ⟨e, hpc⟩)

/-- **The size** of a ring with one producer and one consumer, asked for by any thread. In a run
whose loads of `head` are all in time every size returned is at most 1023; and a thread about to
make that load will get such a size if and only if it is in time. -/
theorem size_in_range (hr : (lts ι).ReachIf (Roles p c) h s) :
    ((lts ι).ReachIf (fun h s l => Roles p c h s l ∧ Timely p c h s l) h s →
      ∀ i n, .ret i (.size n) ∈ h → n ≤ 1023) ∧
    ∀ i e t, s.pc i = .sizeHead e t →
      (lts ι).step s (i, .run ()) = some ([.ret i (sizeRet e t s.mem.head)],
        ⟨s.mem, Function.update s.pc i .idle⟩) ∧
      (∃ h0 h1, h = h0 ++ h1 ∧ SizeSince p c i h0 h1 s) ∧
      ∀ h0 h1, h = h0 ++ h1 → SizeSince p c i h0 h1 s →
        (sub64 t s.mem.head ≤ 1023 ↔ InTime (pushed h0).length (popped h).length) := by
  refine ⟨fun ht i n hm => ?_, fun i e t hpc => ⟨?_, exists_sizeSince hr hpc, ?_⟩⟩
  · obtain ⟨h1, h2, rfl⟩ := List.append_of_mem hm
    exact past_sizeOk ht h1 _ h2 rfl i n rfl
  · refine Impl.step_run.2 ⟨{ ret := some (sizeRet e t s.mem.head), mem := s.mem }, ?_, rfl, rfl⟩
    rw [hpc]
    rfl
  · rintro h0 h1 rfl hs
    exact hs.size_iff hpc

end

/-- `p` pushes a task, `m` asks for the size twice, `c` pops the task before the second answer. -/
def betweenSizes {ι : Type*} (p c m : ι) : List (ι × Act Unit) :=
  (p, .call (.push .empty)) :: List.replicate 5 (p, .run ()) ++
    [(m, .call .size), (m, .run ()), (m, .run ()), (m, .call .size), (m, .run ())] ++
    (c, .call .pop) :: List.replicate 4 (c, .run ())

theorem size_in_range_run : ∃ h s, (lts (Fin 3)).ReachIf (Roles 0 1) h s ∧
    .ret 2 (.size 1) ∈ h ∧ (∀ i n, .ret i (.size n) ∈ h → n ≤ 1023) ∧
    s.pc 2 = .sizeHead false 1 ∧ sub64 1 s.mem.head = 0 ∧
    ∃ h0 h1, h = h0 ++ h1 ∧ SizeSince 0 1 2 h0 h1 s ∧
      InTime (pushed h0).length (popped h).length := by
  have hC : (lts (Fin 3)).Along (fun h s l => Roles 0 1 h s l ∧ InRange s l) [] (impl (Fin 3)).init
      (betweenSizes 0 1 2) := by decide
  have hrun : ((lts (Fin 3)).exec (impl (Fin 3)).init (betweenSizes 0 1 2)).map (fun r =>
      (decide (.ret 2 (.size 1) ∈ r.1), r.2.pc 2, sub64 1 r.2.mem.head)) =
      some (true, .sizeHead false 1, 0) := by decide
  obtain ⟨⟨h, s⟩, he, heq⟩ := Option.map_eq_some_iff.1 hrun
  obtain ⟨hret, heq⟩ := Prod.mk.inj heq
  obtain ⟨hpc, hsize⟩ := Prod.mk.inj heq
  have hin := (Lts.ReachIf.init rfl).along hC he
  have hr := hin.mono fun _ _ _ hc => hc.1
  obtain ⟨hsizes, hnext⟩ := size_in_range hr
  obtain ⟨-, ⟨h0, h1, hh, hs⟩, hiff⟩ := hnext 2 false 1 hpc
  exact ⟨h, s, hr, of_decide_eq_true hret, hsizes (reach_timely hin), hpc, hsize, h0, h1, hh, hs,
    (hiff h0 h1 hh hs).1 (hsize.trans_le (Nat.zero_le _))⟩

/-- `m` loads `tail`, `p` pushes a task, `c` pops it and `m` loads `head`. -/
def overtaken {ι : Type*} (p c m : ι) : List (ι × Act Unit) :=
  (m, .call .size) :: (m, .run ()) ::
    (p, .call (.push .empty)) :: List.replicate 5 (p, .run ()) ++
    (c, .call .pop) :: List.replicate 4 (c, .run ()) ++ [(m, .run ())]

/-- **A wrapped size**: a third thread gets `2 ^ 64 - 1`. -/
theorem size_wraps : ¬ ∀ h s, (lts (Fin 3)).ReachIf (Roles 0 1) h s →
    ∀ i n, .ret i (.size n) ∈ h → n ≤ 1023 := by
  intro hall
  have hrun : ((lts (Fin 3)).exec (impl (Fin 3)).init (overtaken 0 1 2)).map (fun r =>
      decide (.ret 2 (.size (2 ^ 64 - 1)) ∈ r.1)) = some true := by decide
  obtain ⟨⟨h, s⟩, he, heq⟩ := Option.map_eq_some_iff.1 hrun
  have hr : (lts (Fin 3)).ReachIf (Roles 0 1) h s := by
    refine Lts.ReachIf.exec (fun l hl h s => ?_) (.init rfl) he
    simp only [overtaken, List.mem_append, List.mem_cons, List.mem_replicate, List.not_mem_nil,
      or_false] at hl
    rcases hl with ((rfl | rfl | rfl | ⟨-, rfl⟩) | rfl | ⟨-, rfl⟩) | rfl <;> trivial
  exact absurd (hall h s hr 2 (2 ^ 64 - 1) (of_decide_eq_true heq)) (by decide)

end Lumen.Concurrency.SPSCTaskQueue
