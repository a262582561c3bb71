import Lumen.Telemetry.Proof.TraceInv
import Mathlib.Data.List.DropRight

/-!
# What `shutdown` leaves unreported

When `shutdown` clears `m_running`, the reporter still swaps the buffer once more only if it has
passed its loop test: then it is on its way to the swap (`Pc.draining`) or leaves with the buffer
empty. At any other place it ends at its loop test, and what is in the buffer stays there
(`lostTrace_run`). `shutdown_reports`: where the buffer holds no trace whose `capture_trace`
returned before the call, or the reporter is on its way to the swap, each such trace is passed to
`process_snapshot` exactly once before the call returns.
-/

set_option autoImplicit false

namespace Lumen.Telemetry.TelemetryManager

open Lumen.Lib Lumen.Lib.Shared Lumen.Core Lumen.Utils

variable {ι : Type*}

/-- The traces are passed to `process_snapshot` in the order of their captures, each at most once;
and when a call of `shutdown` returns, those whose `capture_trace` returned before it was called
have all been passed. -/
def Reported (h : List (Event ι)) (e : Event ι) : Prop :=
  ∀ i, e = .ret i .stopped → processed h <+: captured h ∧
    ∀ h0 h1, h = h0 ++ .call i .shutdown :: h1 → (captured h0).take (returned h0) <+: processed h

/-! ## The traces that are due -/

/-- How many calls of `capture_trace` had returned when `shutdown` was last called. -/
def due (h : List (Event ι)) : Nat :=
  returned (h.rdropWhile fun
    | .call _ .shutdown => false
    | _ => true)

theorem due_shutdown (h : List (Event ι)) (i : ι) :
    due (h ++ [.call i .shutdown]) = returned h := by
  rw [due, List.rdropWhile_concat_neg _ _ _ (by simp), returned_append, returned_call, add_zero]

theorem due_append (h es : List (Event ι)) (he : ∀ i, .call i .shutdown ∉ es) :
    due (h ++ es) = due h := by
  induction es using List.reverseRecOn with
  | nil => rw [List.append_nil]
  | append_singleton es e ih =>
    rw [← List.append_assoc, due, List.rdropWhile_concat_pos]
    · exact ih fun i hm => he i (List.mem_append_left _ hm)
    · cases e with
      | call i op =>
        cases op with
        | shutdown => exact absurd (List.mem_append_right _ List.mem_cons_self) (he i)
        | captureTrace => rfl
        | reportingLoop => rfl
      | ret => rfl
      | obs => rfl

theorem due_le (h : List (Event ι)) : due h ≤ returned h := by
  obtain ⟨t, ht⟩ := List.rdropWhile_prefix (fun e : Event ι =>
    match e with
    | .call _ .shutdown => false
    | _ => true) h
  have hr := congrArg returned ht
  rw [returned_append] at hr
  exact hr ▸ Nat.le_add_right _ _

/-- What is due to the last call is due to every earlier one. -/
theorem returned_le_due (h0 h1 : List (Event ι)) (i : ι) :
    returned h0 ≤ due (h0 ++ .call i .shutdown :: h1) := by
  induction h1 using List.reverseRecOn with
  | nil => rw [due_shutdown]
  | append_singleton h1 e ih =>
    rw [← List.cons_append, ← List.append_assoc]
    by_cases he : ∃ j, e = .call j .shutdown
    · obtain ⟨j, rfl⟩ := he
      rw [due_shutdown, returned_append]
      exact Nat.le_add_right _ _
    · rwa [due_append _ _ fun j hj => he ⟨j, (List.mem_singleton.1 hj).symm⟩]

/-! ## The condition -/

/-- The reporter has passed its loop test and has not yet swapped the buffer. -/
def Pc.draining : Pc → Bool
  | .repLock | .repPred | .repWait | .repRelock _ | .repCheck | .repSwap => true
  | _ => false

/-- No trace that is due is in the buffer, or the reporter is about to swap it. -/
def Drained (rp : ι) (h : List (Event ι)) (s : State ι) : Prop :=
  due h + s.mem.traceBuffer.length ≤ (captured h).length ∨ (s.pc rp).draining = true

/-- The step by which a call of `shutdown` clears `m_running`, or finds it cleared. -/
def Clears (s : State ι) (i : ι) : Prop :=
  s.pc i = .stopStore ∨ (s.pc i = .stopTest ∧ s.mem.running = false)

/-- Whenever `shutdown` clears `m_running`, the traces that are due are drained. -/
def InTime (rp : ι) (h : List (Event ι)) (s : State ι) : Label ι → Prop
  | (i, .run _) => Clears s i → Drained rp h s
  | (_, .call _) => True

section
variable [DecidableEq ι]

instance (rp : ι) (h : List (Event ι)) (s : State ι) : Decidable (Drained rp h s) :=
  inferInstanceAs (Decidable (_ ∨ _))

instance (s : State ι) (i : ι) : Decidable (Clears s i) := inferInstanceAs (Decidable (_ ∨ _))

instance (rp : ι) (h : List (Event ι)) (s : State ι) : ∀ l, Decidable (InTime rp h s l)
  | (i, .run _) => inferInstanceAs (Decidable (Clears s i → Drained rp h s))
  | (_, .call _) => .isTrue trivial

end

/-! ## The reporter drains -/

section
variable [DecidableEq ι] {sv mn rp i : ι} {h : List (Event ι)} {s s' : State ι}
  {config : ConfigManager} {file : Option (List CsvLine)}

theorem run_hand {m : Mem ι} {c : Choice ι} {p : Pc} {o : Outcome ι}
    (ho : run config i m c p = some o) :
    p.hand.length ≤ (processed (o.events i)).length + o.pc.hand.length := by
  cases p <;> simp only [run, lock, save] at ho
  all_goals
    (repeat' split at ho) <;> cases ho <;>
      simp_all [processed, Shared.Outcome.events, Pc.hand]

theorem run_draining {m : Mem ι} {c : Choice ι} {p : Pc} {o : Outcome ι}
    (ho : run config i m c p = some o) (hp : p.draining = true) :
    o.pc.draining = true ∨ o.mem.traceBuffer = [] := by
  cases p <;> simp only [Pc.draining, Bool.false_eq_true] at hp <;>
    simp only [run, lock] at ho
  all_goals
    (repeat' split at ho) <;> cases ho <;> simp_all [Pc.draining]

/-- Once drained, the due traces stay so: the reporter comes to its swap. -/
theorem Drained.run (hd : Drained rp h s) (hi : Inv sv mn rp h s) {c : Choice ι} {o : Outcome ι}
    (ho : TelemetryManager.run config i s.mem c (s.pc i) = some o) :
    Drained rp (h ++ o.events i) ⟨o.mem, Function.update s.pc i o.pc⟩ := by
  have hi' := hi.run ho
  have hdue : due (h ++ o.events i) = due h := due_append _ _ fun j => o.call_notMem i j _
  have htr := congrArg List.length hi.traces
  have htr' := congrArg List.length hi'.traces
  have hret := hi'.returned_eq
  have hle := due_le (h ++ o.events i)
  simp only [List.length_append, processed_append] at htr htr'
  rw [Drained, hdue]
  rw [hdue] at hle
  by_cases hrp : rp = i
  · subst hrp
    simp only [Function.update_self] at htr' ⊢
    rcases hd with hd | hd
    · have := run_hand ho
      exact .inl (by omega)
    · rcases run_draining ho hd with hd | hb
      · exact .inr hd
      · exact .inl (by rw [hb, List.length_nil]; omega)
  · simp only [Function.update_of_ne hrp] at htr' ⊢
    exact hd.imp_left fun hd => by omega

/-- A call of `shutdown` that has not yet read or cleared `m_running`. -/
def Pc.deciding : Pc → Bool
  | .stopTest | .stopStore => true
  | _ => false

theorem run_deciding {c : Choice ι} {o : Outcome ι}
    (ho : run config i s.mem c (s.pc i) = some o) (hp : (s.pc i).deciding = true)
    (hp' : o.pc.deciding = false) : Clears s i := by
  cases hpc : s.pc i with
  | stopStore => exact .inl hpc
  | stopTest =>
    rw [hpc] at ho
    simp only [run] at ho
    split at ho <;> rename_i hrun
    · cases ho
      cases hp'
    · exact .inr ⟨hpc, by simpa using hrun⟩
  | _ =>
    rw [hpc] at hp
    cases hp

/-- Where every call of `shutdown` is in time, the due traces are drained once the call has cleared
`m_running`, and reported when it returns. -/
structure Ends (mn rp : ι) (h : List (Event ι)) (s : State ι) : Prop where
  drained : (s.pc mn).deciding = false → Drained rp h s
  reported : Past Reported h

theorem Ends.call (he : Ends mn rp h s) {op : Op} (hpc : s.pc i = .idle)
    (hop : Roles sv mn rp h (i, .call op)) :
    Ends mn rp (h ++ [.call i op]) ⟨s.mem, Function.update s.pc i (entry op)⟩ := by
  refine ⟨fun hd => ?_, he.reported.append_one fun _ he => nomatch he⟩
  have hop' : op ≠ .shutdown := by
    rintro rfl
    obtain rfl : i = mn := hop
    simp [Pc.deciding, entry] at hd
  have hd' : (s.pc mn).deciding = false := by
    by_cases hmn : mn = i
    · rw [hmn, hpc]
      rfl
    · simpa only [Function.update_of_ne hmn] using hd
  have hdue : due (h ++ [.call i op]) = due h := due_append _ _ fun j hj => by
    simp only [List.mem_singleton, Shared.Event.call.injEq] at hj
    exact hop' hj.2.symm
  rw [Drained, hdue, captured_append, captured_call, List.append_nil]
  refine (he.drained hd').imp_right fun hdr => ?_
  have hrp : rp ≠ i := by
    rintro rfl
    rw [hpc] at hdr
    cases hdr
  simpa only [Function.update_of_ne hrp] using hdr

/-- The reporter has ended when `shutdown` returns. -/
theorem Inv.ended_of_stopped (hi : Inv sv mn rp h s) {c : Choice ι} {o : Outcome ι}
    (ho : TelemetryManager.run config i s.mem c (s.pc i) = some o) (hr : o.ret = some .stopped) :
    i = mn ∧ s.mem.ended = true ∧ ((s.pc i).deciding = true → Clears s i) := by
  cases hpc : s.pc i <;> simp only [hpc, TelemetryManager.run, lock, save] at ho
  case stopTest =>
    have hmn := hi.stopper i (by rw [hpc]; rfl)
    split at ho <;> rename_i hrun
    · cases ho
      cases hr
    · have hrun : s.mem.running = false := by simpa using hrun
      refine ⟨hmn, (hi.stopped hrun).resolve_left ?_, fun _ => .inr ⟨hpc, hrun⟩⟩
      rw [← hmn, hpc]
      exact Bool.false_ne_true
  case stopJoin =>
    refine ⟨hi.stopper i (by rw [hpc]; rfl), ?_, fun hd => by cases hd⟩
    split at ho <;> rename_i hj
    · split at ho <;> rename_i he
      · exact he
      · cases ho
    · exact hi.joinable.resolve_left hj
  all_goals
    (repeat' split at ho) <;> cases ho <;> cases hr

theorem Ends.run (he : Ends mn rp h s) (hi : Inv sv mn rp h s) {c : Choice ι} {o : Outcome ι}
    (ht : InTime rp h s (i, .run c))
    (ho : TelemetryManager.run config i s.mem c (s.pc i) = some o) :
    Ends mn rp (h ++ o.events i) ⟨o.mem, Function.update s.pc i o.pc⟩ := by
  refine ⟨fun hd => ?_, past_events he.reported (fun _ _ _ _ _ hx => nomatch hx) ?_⟩
  · refine Drained.run ?_ hi ho
    by_cases hmn : mn = i
    · subst hmn
      simp only [Function.update_self] at hd
      cases hp : (s.pc mn).deciding with
      | false => exact he.drained hp
      | true => exact ht (run_deciding ho hp hd)
    · simp only [Function.update_of_ne hmn] at hd
      exact he.drained hd
  · rintro r hr j hj
    obtain ⟨rfl, rfl⟩ : i = j ∧ r = .stopped := by simpa using hj
    obtain ⟨rfl, hended, hclears⟩ := hi.ended_of_stopped ho hr
    have hobs : o.obs = [] := by
      cases hpc : s.pc i <;> simp only [hpc, TelemetryManager.run, lock, save] at ho
      all_goals
        (repeat' split at ho) <;> cases ho <;> first | rfl | cases hr
    rw [hobs, List.map_nil, List.append_nil]
    have hdr : Drained rp h s := by
      cases hp : (s.pc i).deciding with
      | false => exact he.drained hp
      | true => exact ht (hclears hp)
    have hrep := (hi.ended hended).2 rp
    have htr := hi.traces
    rw [Pc.hand_of_reporting hrep, List.append_nil] at htr
    have hpre : processed h <+: captured h := ⟨_, htr.symm⟩
    refine ⟨hpre, fun h0 h1 heq => ?_⟩
    have hdue : due h ≤ (processed h).length := by
      rcases hdr with hdr | hdr
      · rw [htr, List.length_append] at hdr
        omega
      · cases hpc : s.pc rp <;> simp [hpc, Pc.draining, Pc.reporting] at hdr hrep
    have hpre0 : captured h0 <+: captured h := by
      rw [heq, captured_append]
      exact List.prefix_append _ _
    refine List.prefix_of_prefix_length_le ((List.take_prefix _ _).trans hpre0) hpre ?_
    have := returned_le_due h0 h1 i
    rw [← heq] at this
    rw [List.length_take]
    omega

/-- **Shutdown**: in every run of the server thread, the main thread and the reporter in which the
due traces are drained whenever `shutdown` clears `m_running`, every trace whose `capture_trace`
returned before a call of `shutdown` is passed to `process_snapshot` exactly once before the call
returns. -/
theorem shutdown_reports
    (hr : (lts ι config file).ReachIf (fun h s l => Roles sv mn rp h l ∧ InTime rp h s l) h s) :
    Past Reported h := by
  refine (Lts.ReachIf.inv_of_reach (I := Ends mn rp) (fun s h0 => ?_)
    (fun h s l es s' hr he ⟨hl, ht⟩ hs => ?_) hr).reported
  · obtain rfl : s = (impl ι config file).init := h0
    exact ⟨fun _ => .inl (Nat.le_refl 0), .nil⟩
  · have hi : Inv sv mn rp h s := inv (fun _ _ _ hc => hc.1) hr
    obtain ⟨i, op | c⟩ := l
    · obtain ⟨hpc, rfl, rfl⟩ := Impl.step_call.1 hs
      exact he.call hpc hl
    · obtain ⟨o, ho, rfl, rfl⟩ := Impl.step_run.1 hs
      exact he.run hi ht ho

end

/-! ## Two runs -/

def trace (id : Nat) : Trace := some { requestId := id, startTs := 0 }

/-- The server captures a trace; the reporter comes to `process_snapshot` with it. -/
def capture (sv : ι) (id : Nat) : List (Label ι) :=
  (sv, .call (.captureTrace (trace id))) :: List.replicate 4 (sv, .run (.notify none))

def report (rp : ι) : List (Label ι) :=
  (rp, .call .reportingLoop) :: List.replicate 6 (rp, .run .none)

/-- `mn` clears `m_running`; the reporter ends, and `mn` has joined it. -/
def stop (mn rp : ι) : List (Label ι) :=
  (mn, .call .shutdown) :: List.replicate 3 (mn, .run .none) ++
    List.replicate 6 (rp, .run (.save true 0)) ++ [(mn, .run .none)]

/-- The trace is with the reporter when `m_running` is cleared. -/
theorem shutdown_reports_run : ∃ h s,
    (lts (Fin 2) {} none).ReachIf (fun h s l => Roles 0 0 1 h l ∧ InTime 1 h s l) h s ∧
      h = [.call 0 (.captureTrace (trace 0)), .obs 0 (.captured (trace 0)), .ret 0 .captured,
        .call 1 .reportingLoop, .call 0 .shutdown, .obs 1 (.snapshot [trace 0]),
        .obs 1 (.printed (snapshot [trace 0])), .ret 1 .reported, .ret 0 .stopped] ∧
      Past Reported h := by
  obtain ⟨s, he⟩ : ∃ s, (lts (Fin 2) {} none).exec (impl (Fin 2) {} none).init
      (capture 0 0 ++ report 1 ++ stop 0 1) = some ([.call 0 (.captureTrace (trace 0)),
        .obs 0 (.captured (trace 0)), .ret 0 .captured, .call 1 .reportingLoop, .call 0 .shutdown,
        .obs 1 (.snapshot [trace 0]), .obs 1 (.printed (snapshot [trace 0])), .ret 1 .reported,
        .ret 0 .stopped], s) := ⟨_, rfl⟩
  have hr := Lts.ReachIf.along (C := fun h s l => Roles 0 0 1 h l ∧ InTime 1 h s l) (.init rfl)
    (by decide) he
  exact ⟨_, s, hr, rfl, shutdown_reports hr⟩

/-- A second trace comes while the reporter is at `process_snapshot` with the first: the call of
`shutdown` that follows returns without it. -/
theorem lostTrace_run : ∃ h s,
    (lts (Fin 2) {} none).ReachIf (fun h _ l => Roles 0 0 1 h l) h s ∧
      h = [.call 0 (.captureTrace (trace 0)), .obs 0 (.captured (trace 0)), .ret 0 .captured,
        .call 1 .reportingLoop, .call 0 (.captureTrace (trace 1)), .obs 0 (.captured (trace 1)),
        .ret 0 .captured, .call 0 .shutdown, .obs 1 (.snapshot [trace 0]),
        .obs 1 (.printed (snapshot [trace 0])), .ret 1 .reported, .ret 0 .stopped] ∧
      ¬ Past Reported h := by
  obtain ⟨s, he⟩ : ∃ s, (lts (Fin 2) {} none).exec (impl (Fin 2) {} none).init
      (capture 0 0 ++ report 1 ++ capture 0 1 ++ stop 0 1) =
        some ([.call 0 (.captureTrace (trace 0)),
        .obs 0 (.captured (trace 0)), .ret 0 .captured, .call 1 .reportingLoop,
        .call 0 (.captureTrace (trace 1)), .obs 0 (.captured (trace 1)), .ret 0 .captured,
        .call 0 .shutdown, .obs 1 (.snapshot [trace 0]), .obs 1 (.printed (snapshot [trace 0])),
        .ret 1 .reported, .ret 0 .stopped], s) := ⟨_, rfl⟩
  have hr := Lts.ReachIf.along (C := fun h _ l => Roles 0 0 1 h l) (.init rfl) (by decide) he
  refine ⟨_, s, hr, rfl, fun hp => ?_⟩
  have hlast := (hp (_ :: _ :: _ :: _ :: _ :: _ :: _ :: _ :: _ :: _ :: _ :: []) _ [] rfl 0 rfl).2
    (_ :: _ :: _ :: _ :: _ :: _ :: _ :: []) _ rfl
  exact absurd hlast.length_le (by decide)

end Lumen.Telemetry.TelemetryManager
