import Lumen.Telemetry.TelemetryManager

/-!
# Where the captured traces are

The captured traces are those passed to `process_snapshot`, then the reporter's batch that is not
yet passed to it, then the buffer (`Inv.traces`); one trace at most is captured by a call that has
not returned (`Inv.returned_eq`). `inv` shows this, and who is at work, of every state that is
reached with one server thread, one thread that shuts down and one reporter.

The steps of a thread are looked at once each: `run_class` (a thread stays in its operation),
`run_traces` (what happens to the traces), `run_returned` and `run_flags`.
-/

set_option autoImplicit false

namespace Lumen.Telemetry.TelemetryManager

open Lumen.Lib Lumen.Lib.Shared Lumen.Core Lumen.Utils

variable {ι : Type*}

/-! ## Histories -/

/-- The traces in the order in which they entered the buffer. -/
def captured (h : List (Event ι)) : List Trace :=
  h.filterMap fun
    | .obs _ (.captured trace) => some trace
    | _ => none

/-- The traces passed to `process_snapshot`, in order. -/
def processed (h : List (Event ι)) : List Trace :=
  h.flatMap fun
    | .obs _ (.snapshot batch) => batch
    | _ => []

/-- How many calls of `capture_trace` have returned. -/
def returned (h : List (Event ι)) : Nat :=
  h.countP fun
    | .ret _ .captured => true
    | _ => false

@[simp] theorem captured_append (h h' : List (Event ι)) :
    captured (h ++ h') = captured h ++ captured h' := List.filterMap_append

@[simp] theorem processed_append (h h' : List (Event ι)) :
    processed (h ++ h') = processed h ++ processed h' := List.flatMap_append

@[simp] theorem returned_append (h h' : List (Event ι)) :
    returned (h ++ h') = returned h + returned h' := List.countP_append

@[simp] theorem captured_call (i : ι) (op : Op) : captured [.call i op] = [] := rfl
@[simp] theorem processed_call (i : ι) (op : Op) : processed [.call i op] = [] := rfl
@[simp] theorem returned_call (i : ι) (op : Op) : returned [.call i op] = 0 := rfl

/-! ## Program counters -/

namespace Pc

def capturing : Pc → Bool
  | .capLock _ | .capPush _ | .capUnlock | .capNotify => true
  | _ => false

def stopping : Pc → Bool
  | .stopTest | .stopStore | .stopNotify | .stopJoin => true
  | _ => false

def reporting : Pc → Bool
  | .repTest | .repLock | .repPred | .repWait | .repRelock _ | .repCheck | .repBreak | .repSwap
  | .repUnlock _ | .repProcess _ | .repSave _ _ | .repPrint _ | .repReturn => true
  | _ => false

/-- The traces swapped out of the buffer and not yet passed to `process_snapshot`. -/
def hand : Pc → List Trace
  | .repUnlock localBatch | .repProcess localBatch => localBatch
  | _ => []

/-- The captures that have taken place and not returned. -/
def unreturned : Pc → Nat
  | .capUnlock | .capNotify => 1
  | _ => 0

/-- `m_running` is cleared by this call, which has not returned. -/
def joining : Pc → Bool
  | .stopNotify | .stopJoin => true
  | _ => false

theorem hand_of_reporting {p : Pc} (h : p.reporting = false) : p.hand = [] := by
  cases p <;> simp_all [reporting, hand]

theorem unreturned_of_capturing {p : Pc} (h : p.capturing = false) : p.unreturned = 0 := by
  cases p <;> simp_all [capturing, unreturned]

theorem stopping_of_joining {p : Pc} (h : p.joining = true) : p.stopping = true := by
  cases p <;> simp_all [joining, stopping]

end Pc

/-! ## The steps -/

section
variable [DecidableEq ι] {config : ConfigManager} {i : ι} {m : Mem ι} {c : Choice ι} {p : Pc}
  {o : Outcome ι}

/-- A thread stays in the operation it performs. -/
theorem run_class (ho : run config i m c p = some o) :
    (o.pc.capturing = true → p.capturing = true) ∧ (o.pc.stopping = true → p.stopping = true) ∧
      (o.pc.reporting = true → p.reporting = true) := by
  cases p <;> simp only [run, lock, save] at ho
  all_goals
    (repeat' split at ho) <;> cases ho <;>
      simp [Pc.capturing, Pc.stopping, Pc.reporting]

/-- No trace appears or gets lost, and their order stays. -/
theorem run_traces (ho : run config i m c p = some o) :
    p.hand ++ m.traceBuffer ++ captured (o.events i) =
      processed (o.events i) ++ o.pc.hand ++ o.mem.traceBuffer := by
  cases p <;> simp only [run, lock, save] at ho
  case capPush trace =>
    cases ho
    rfl
  case repSwap =>
    cases ho
    rfl
  case repUnlock localBatch =>
    split at ho <;> rename_i hb <;> cases ho
    · subst hb
      exact List.append_nil _
    · exact List.append_nil _
  case repProcess localBatch =>
    cases ho
    simp [captured, processed, Shared.Outcome.events, Pc.hand]
  all_goals
    (repeat' split at ho) <;> cases ho <;> exact List.append_nil _

/-- Only the reporter passes traces on. -/
theorem run_processed (ho : run config i m c p = some o) (hp : p.reporting = false) :
    processed (o.events i) = [] := by
  cases p <;> simp only [Pc.reporting, Bool.true_eq_false] at hp <;> simp only [run, lock] at ho
  all_goals
    (repeat' split at ho) <;> cases ho <;> rfl

/-- A capture enters the trace, then returns. -/
theorem run_returned (ho : run config i m c p = some o) :
    returned (o.events i) + o.pc.unreturned = p.unreturned + (captured (o.events i)).length := by
  cases p <;> simp only [run, lock, save] at ho
  all_goals
    (repeat' split at ho) <;> cases ho <;> rfl

/-- Who changes the flags. -/
theorem run_flags (ho : run config i m c p = some o) :
    (o.mem.running = false → m.running = false ∨ o.pc.joining = true) ∧
      (p.joining = true → o.pc.joining = true ∨ m.joinable = false ∨ m.ended = true) ∧
      (o.mem.joinable = false → m.joinable = false ∨ m.ended = true) ∧
      (m.ended = true → o.mem.ended = true) ∧
      (o.mem.ended = true → m.ended = true ∨ (p.reporting = true ∧ o.pc.reporting = false)) := by
  cases p <;> simp only [run, lock, save] at ho
  all_goals
    (repeat' split at ho) <;> cases ho <;> simp_all [Pc.joining, Pc.reporting]

end

/-! ## The invariant -/

structure Inv (sv mn rp : ι) (h : List (Event ι)) (s : State ι) : Prop where
  capturer : ∀ i, (s.pc i).capturing = true → i = sv
  stopper : ∀ i, (s.pc i).stopping = true → i = mn
  reporter : ∀ i, (s.pc i).reporting = true → i = rp ∧ .call rp .reportingLoop ∈ h
  traces : captured h = processed h ++ (s.pc rp).hand ++ s.mem.traceBuffer
  returned_eq : returned h + (s.pc sv).unreturned = (captured h).length
  stopped : s.mem.running = false → (s.pc mn).joining = true ∨ s.mem.ended = true
  joinable : s.mem.joinable = true ∨ s.mem.ended = true
  ended : s.mem.ended = true →
    .call rp .reportingLoop ∈ h ∧ ∀ i, (s.pc i).reporting = false

section
variable [DecidableEq ι] {sv mn rp i : ι} {h : List (Event ι)} {s s' : State ι}
  {config : ConfigManager} {file : Option (List CsvLine)}

theorem Inv.init : Inv sv mn rp [] (impl ι config file).init where
  capturer i hc := by cases hc
  stopper i hc := by cases hc
  reporter i hc := by cases hc
  traces := rfl
  returned_eq := rfl
  stopped hr := by cases hr
  joinable := .inl rfl
  ended he := by cases he

/-- The traces of a step of any thread, where one thread only is a reporter. -/
theorem run_handed (hrep : ∀ j, (s.pc j).reporting = true → j = rp) {c : Choice ι} {o : Outcome ι}
    (ho : run config i s.mem c (s.pc i) = some o) :
    (s.pc rp).hand ++ s.mem.traceBuffer ++ captured (o.events i) =
      processed (o.events i) ++ (Function.update s.pc i o.pc rp).hand ++ o.mem.traceBuffer := by
  have ht := run_traces ho
  by_cases hrp : rp = i
  · subst hrp
    rwa [Function.update_self]
  · have hp : (s.pc i).reporting = false := by
      rw [Bool.eq_false_iff]
      exact fun hp => hrp (hrep i hp).symm
    have hp' : o.pc.reporting = false := by
      rw [Bool.eq_false_iff] at hp ⊢
      exact fun h' => hp ((run_class ho).2.2 h')
    rw [Pc.hand_of_reporting hp, Pc.hand_of_reporting hp', run_processed ho hp] at ht
    rw [Function.update_of_ne hrp, run_processed ho hp, List.append_assoc]
    simpa using ht

/-- A call hands nothing over. -/
theorem call_handed (rp : ι) (op : Op) (hpc : s.pc i = .idle) :
    (Function.update s.pc i (entry op) rp).hand = (s.pc rp).hand := by
  by_cases hrp : rp = i
  · subst hrp
    rw [Function.update_self, hpc]
    cases op <;> rfl
  · rw [Function.update_of_ne hrp]

theorem Inv.call (hi : Inv sv mn rp h s) {op : Op} (hpc : s.pc i = .idle)
    (hop : Roles sv mn rp h (i, .call op)) :
    Inv sv mn rp (h ++ [.call i op]) ⟨s.mem, Function.update s.pc i (entry op)⟩ where
  capturer := forall_update (P := fun j (p : Pc) => p.capturing = true → j = sv)
    (fun hc => by cases op <;> first | exact hop | cases hc) fun j _ => hi.capturer j
  stopper := forall_update (P := fun j (p : Pc) => p.stopping = true → j = mn)
    (fun hc => by cases op <;> first | exact hop | cases hc) fun j _ => hi.stopper j
  reporter := by
    refine forall_update (P := fun j (p : Pc) => p.reporting = true → j = rp ∧ _)
      (fun hc => ?_) fun j _ hr =>
      ⟨(hi.reporter j hr).1, List.mem_append_left _ (hi.reporter j hr).2⟩
    cases op with
    | reportingLoop =>
      obtain ⟨rfl, -⟩ := hop
      exact ⟨rfl, List.mem_append_right _ List.mem_cons_self⟩
    | captureTrace => cases hc
    | shutdown => cases hc
  traces := by
    have hh := call_handed rp op hpc
    simpa [hh] using hi.traces
  returned_eq := by
    have hh : (Function.update s.pc i (entry op) sv).unreturned = (s.pc sv).unreturned := by
      by_cases hsv : sv = i
      · subst hsv
        rw [Function.update_self, hpc]
        cases op <;> rfl
      · rw [Function.update_of_ne hsv]
    simpa [hh] using hi.returned_eq
  stopped hr := by
    refine (hi.stopped hr).imp_left fun hj => ?_
    have hmn : mn ≠ i := by
      rintro rfl
      rw [hpc] at hj
      cases hj
    simpa only [Function.update_of_ne hmn] using hj
  joinable := hi.joinable
  ended he := by
    refine ⟨List.mem_append_left _ (hi.ended he).1, ?_⟩
    refine forall_update (P := fun _ (p : Pc) => p.reporting = false) ?_
      fun j _ => (hi.ended he).2 j
    cases op with
    | reportingLoop => exact absurd (hop.1 ▸ (hi.ended he).1) (hop.1 ▸ hop.2)
    | captureTrace => rfl
    | shutdown => rfl

theorem Inv.run (hi : Inv sv mn rp h s) {c : Choice ι} {o : Outcome ι}
    (ho : run config i s.mem c (s.pc i) = some o) :
    Inv sv mn rp (h ++ o.events i) ⟨o.mem, Function.update s.pc i o.pc⟩ := by
  obtain ⟨hcap, hstop, hrep⟩ := run_class ho
  obtain ⟨hrun, hjoin, hjoinable, hend, hended⟩ := run_flags ho
  refine ⟨?_, ?_, ?_, ?_, ?_, fun hr => ?_, ?_, fun he => ?_⟩
  · exact forall_update (P := fun j (p : Pc) => p.capturing = true → j = sv)
      (fun hc => hi.capturer i (hcap hc)) fun j _ => hi.capturer j
  · exact forall_update (P := fun j (p : Pc) => p.stopping = true → j = mn)
      (fun hc => hi.stopper i (hstop hc)) fun j _ => hi.stopper j
  · have hr : ∀ j, (s.pc j).reporting = true →
        j = rp ∧ .call rp .reportingLoop ∈ h ++ o.events i := fun j hr =>
      ⟨(hi.reporter j hr).1, List.mem_append_left _ (hi.reporter j hr).2⟩
    exact forall_update (P := fun j (p : Pc) => p.reporting = true → j = rp ∧ _)
      (fun hc => hr i (hrep hc))
      fun j _ => hr j
  · rw [captured_append, processed_append, hi.traces]
    simpa [List.append_assoc] using run_handed (fun j hj => (hi.reporter j hj).1) ho
  · have h1 := run_returned ho
    have h2 := hi.returned_eq
    simp only [captured_append, returned_append, List.length_append]
    by_cases hsv : sv = i
    · subst hsv
      rw [Function.update_self]
      omega
    · have hp : (s.pc i).capturing = false := by
        rw [Bool.eq_false_iff]
        exact fun hp => hsv (hi.capturer i hp).symm
      have hp' : o.pc.capturing = false := by
        rw [Bool.eq_false_iff] at hp ⊢
        exact fun h' => hp (hcap h')
      rw [Pc.unreturned_of_capturing hp, Pc.unreturned_of_capturing hp'] at h1
      rw [Function.update_of_ne hsv]
      omega
  · change (Function.update s.pc i o.pc mn).joining = true ∨ o.mem.ended = true
    by_cases hmn : mn = i
    · subst hmn
      rw [Function.update_self]
      rcases hrun hr with hr | hj
      · rcases hi.stopped hr with hj | he
        · rcases hjoin hj with hj | hj | he
          · exact .inl hj
          · exact .inr (hend (hi.joinable.resolve_left (by simp [hj])))
          · exact .inr (hend he)
        · exact .inr (hend he)
      · exact .inl hj
    · rw [Function.update_of_ne hmn]
      rcases hrun hr with hr | hj
      · exact (hi.stopped hr).imp_right hend
      · exact absurd (hi.stopper i (hstop (Pc.stopping_of_joining hj))).symm hmn
  · cases hj : o.mem.joinable with
    | true => exact .inl rfl
    | false =>
      refine .inr (hend ?_)
      rcases hjoinable hj with hj | he
      · exact hi.joinable.resolve_left (by simp [hj])
      · exact he
  · rcases hended he with he | ⟨hp, hp'⟩
    · refine ⟨List.mem_append_left _ (hi.ended he).1, ?_⟩
      refine forall_update (P := fun _ (p : Pc) => p.reporting = false) ?_
        fun j _ => (hi.ended he).2 j
      have := (hi.ended he).2 i
      rw [Bool.eq_false_iff] at this ⊢
      exact fun h' => this (hrep h')
    · obtain ⟨hirp, hm⟩ := hi.reporter i hp
      refine ⟨List.mem_append_left _ hm, ?_⟩
      refine forall_update (P := fun _ (p : Pc) => p.reporting = false) hp' fun j hj => ?_
      rw [Bool.eq_false_iff]
      exact fun h' => hj ((hi.reporter j h').1.trans hirp.symm)

theorem Inv.step (hi : Inv sv mn rp h s) {l : Label ι} {es : List (Event ι)}
    (hl : Roles sv mn rp h l) (hs : (lts ι config file).step s l = some (es, s')) :
    Inv sv mn rp (h ++ es) s' := by
  obtain ⟨i, op | c⟩ := l
  · obtain ⟨hpc, rfl, rfl⟩ := Impl.step_call.1 hs
    exact hi.call hpc hl
  · obtain ⟨o, ho, rfl, rfl⟩ := Impl.step_run.1 hs
    exact hi.run ho

theorem inv {C : List (Event ι) → State ι → Label ι → Prop}
    (hC : ∀ h s l, C h s l → Roles sv mn rp h l) (hr : (lts ι config file).ReachIf C h s) :
    Inv sv mn rp h s := by
  refine hr.inv (fun s h0 => ?_) fun h s l es s' hi hc hs => hi.step (hC h s l hc) hs
  obtain rfl : s = (impl ι config file).init := h0
  exact .init

end

end Lumen.Telemetry.TelemetryManager
