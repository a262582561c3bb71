import Lumen.Telemetry.Proof.Shutdown

/-!
# The telemetry file is a log of the captures

The reporter is the only thread that writes the file, and each row is written by one `save_to_csv`
that decides about the header anew. `Inv` relates the file to the traces that have been saved so
far: those passed to `process_snapshot` up to the place of its loop (`Pc.unsaved`). How the captures
fell into batches does not occur in it.
-/

set_option autoImplicit false

namespace Lumen.Telemetry.TelemetryManager

open Lumen.Lib Lumen.Lib.Shared Lumen.Core Lumen.Utils

variable {ι : Type*}

/-! ## The file -/

/-- The row of a trace: its id and its four times with their sum, under the names of the queue and
the allocator that run. The timestamp is the clock's. -/
structure RowOf (config : ConfigManager) (row : CsvRow) (trace : InferenceTrace) : Prop where
  requestId : row.requestId = trace.requestId
  queueType : row.queueType = queueName config.queueType
  allocType : row.allocType = allocName config.allocType
  queueMs : row.queueMs = trace.queueWaitMs
  preprocessMs : row.preprocessMs = trace.preprocessMs
  inferenceMs : row.inferenceMs = trace.inferenceMs
  postprocessMs : row.postprocessMs = trace.postprocessMs
  totalMs : row.totalMs =
    trace.queueWaitMs + trace.preprocessMs + trace.inferenceMs + trace.postprocessMs

theorem rowOf_csvRow (config : ConfigManager) (timestamp : Int) (trace : InferenceTrace) :
    RowOf config (csvRow config timestamp trace) trace :=
  ⟨rfl, rfl, rfl, rfl, rfl, rfl, rfl, rfl⟩

/-- Nothing, or the header and one row for each saved trace, in order. -/
def Log (config : ConfigManager) (saved : List InferenceTrace) (file : Option (List CsvLine)) :
    Prop :=
  if saved = [] then file.getD [] = []
  else ∃ rows : List CsvRow, file = some (csvHeader :: rows.map .row) ∧
    List.Forall₂ (RowOf config) rows saved

section
variable {config : ConfigManager} {saved : List InferenceTrace} {file : Option (List CsvLine)}

/-- `save_to_csv` appends one row, and the header before the first one. -/
theorem Log.save (h : Log config saved file) (timestamp : Int) (trace : InferenceTrace) :
    Log config (saved ++ [trace]) (saveToCsv config true timestamp trace file) := by
  have hrow : List.Forall₂ (RowOf config) [csvRow config timestamp trace] [trace] :=
    .cons (rowOf_csvRow config timestamp trace) .nil
  unfold Log at h ⊢
  rw [if_neg (by simp)]
  simp only [saveToCsv, if_true]
  split at h
  · rename_i hsaved
    rw [hsaved, h]
    exact ⟨_, rfl, hrow⟩
  · obtain ⟨rows, rfl, hrows⟩ := h
    refine ⟨rows ++ [csvRow config timestamp trace], ?_, List.rel_append hrows hrow⟩
    rw [List.map_append]
    rfl

end

/-! ## The steps -/

/-- The traces of the batch that the loop of `process_snapshot` has not come to. -/
def Pc.unsaved : Pc → List Trace
  | .repSave _ rest => rest
  | _ => []

theorem Pc.unsaved_of_reporting {p : Pc} (h : p.reporting = false) : p.unsaved = [] := by
  cases p <;> simp_all [reporting, unsaved]

/-- The trace that a capture puts into the buffer. -/
def Pc.arg : Pc → Option Trace
  | .capLock trace | .capPush trace => some trace
  | _ => none

/-- Opening the file succeeds. -/
def Opens : Choice ι → Prop
  | .save isOpen _ => isOpen = true
  | _ => True

/-- Captured traces are not null, and one thread is the reporter. -/
def Logged (rp : ι) (_ : List (Event ι)) (_ : State ι) : Label ι → Prop
  | (_, .call (.captureTrace trace)) => trace ≠ none
  | (i, .call .reportingLoop) => i = rp
  | (_, .call .shutdown) => True
  | (_, .run c) => Opens c

instance : ∀ c : Choice ι, Decidable (Opens c)
  | .save isOpen _ => inferInstanceAs (Decidable (isOpen = true))
  | .none | .notify _ | .wake _ => .isTrue trivial

section
variable [DecidableEq ι] {config : ConfigManager} {i : ι} {m : Mem ι} {c : Choice ι} {p : Pc}
  {o : Outcome ι}

instance (rp : ι) (h : List (Event ι)) (s : State ι) : ∀ l, Decidable (Logged rp h s l)
  | (_, .call (.captureTrace trace)) => inferInstanceAs (Decidable (trace ≠ none))
  | (i, .call .reportingLoop) => inferInstanceAs (Decidable (i = rp))
  | (_, .call .shutdown) => .isTrue trivial
  | (_, .run c) => inferInstanceAs (Decidable (Opens c))

/-- A step saves the next trace of the batch, or leaves the file alone. -/
theorem run_saved (hpath : config.telemetryPath ≠ "") (hopen : Opens c) (hnone : none ∉ p.unsaved)
    (ho : run config i m c p = some o) :
    (o.mem.file = m.file ∧ o.pc.unsaved = p.unsaved ++ processed (o.events i)) ∨
      ∃ trace timestamp, p.unsaved = some trace :: o.pc.unsaved ∧ processed (o.events i) = [] ∧
        o.mem.file = saveToCsv config true timestamp trace m.file := by
  cases p <;> simp only [run, lock, save] at ho
  case repSave batch rest =>
    cases rest with
    | nil =>
      cases ho
      exact .inl ⟨rfl, rfl⟩
    | cons trace rest =>
      cases trace with
      | none => exact absurd List.mem_cons_self hnone
      | some trace =>
        simp only [hpath, if_false] at ho
        cases c with
        | save isOpen timestamp =>
          cases ho
          obtain rfl : isOpen = true := hopen
          exact .inr ⟨trace, timestamp, rfl, rfl, rfl⟩
        | none => cases ho
        | notify j => cases ho
        | wake timedOut => cases ho
  all_goals
    left
    (repeat' split at ho) <;> cases ho <;>
      simp [processed, Shared.Outcome.events, Pc.unsaved]

/-- What is captured is the argument of the call. -/
theorem run_arg (ho : run config i m c p = some o) :
    (∀ trace ∈ o.pc.arg, p.arg = some trace) ∧
      ∀ trace ∈ captured (o.events i), p.arg = some trace := by
  cases p <;> simp only [run, lock, save] at ho
  all_goals
    (repeat' split at ho) <;> cases ho <;> simp [captured, Shared.Outcome.events, Pc.arg]

end

/-! ## The invariant -/

structure LogInv (config : ConfigManager) (rp : ι) (h : List (Event ι)) (s : State ι) : Prop where
  reporter : ∀ i, (s.pc i).reporting = true → i = rp
  args : ∀ i, (s.pc i).arg ≠ some none
  present : none ∉ captured h
  traces : captured h = processed h ++ (s.pc rp).hand ++ s.mem.traceBuffer
  log : ∃ saved, processed h = saved.map some ++ (s.pc rp).unsaved ∧ Log config saved s.mem.file

section
variable [DecidableEq ι] {config : ConfigManager} {file : Option (List CsvLine)} {rp i : ι}
  {h : List (Event ι)} {s s' : State ι}

theorem LogInv.init (hfile : file = none ∨ file = some []) :
    LogInv config rp [] (impl ι config file).init where
  reporter i hp := by cases hp
  args i hp := by cases hp
  present hm := by cases hm
  traces := rfl
  log := by
    refine ⟨[], rfl, ?_⟩
    obtain rfl | rfl := hfile <;> rfl

theorem LogInv.call (hi : LogInv config rp h s) {op : Op} (hpc : s.pc i = .idle)
    (hop : Logged rp h s (i, .call op)) :
    LogInv config rp (h ++ [.call i op]) ⟨s.mem, Function.update s.pc i (entry op)⟩ where
  reporter := forall_update (P := fun j (p : Pc) => p.reporting = true → j = rp)
    (fun hp => by cases op <;> first | exact hop | cases hp) fun j _ => hi.reporter j
  args := by
    refine forall_update (P := fun _ (p : Pc) => p.arg ≠ some none) ?_ fun j _ => hi.args j
    cases op with
    | captureTrace trace => exact fun h => hop (Option.some.inj h)
    | shutdown => simp [entry, Pc.arg]
    | reportingLoop => simp [entry, Pc.arg]
  present := by simpa using hi.present
  traces := by simpa [call_handed rp op hpc] using hi.traces
  log := by
    have hunsaved : (Function.update s.pc i (entry op) rp).unsaved = (s.pc rp).unsaved := by
      by_cases hrp : rp = i
      · subst hrp
        rw [Function.update_self, hpc]
        cases op <;> rfl
      · rw [Function.update_of_ne hrp]
    simpa [hunsaved] using hi.log

theorem LogInv.run (hi : LogInv config rp h s) (hpath : config.telemetryPath ≠ "") {c : Choice ι}
    {o : Outcome ι} (hopen : Opens c) (ho : run config i s.mem c (s.pc i) = some o) :
    LogInv config rp (h ++ o.events i) ⟨o.mem, Function.update s.pc i o.pc⟩ := by
  obtain ⟨harg, hcap⟩ := run_arg ho
  have hpresent : none ∉ captured (h ++ o.events i) := by
    rw [captured_append, List.mem_append, not_or]
    exact ⟨hi.present, fun hm => hi.args i (hcap none hm)⟩
  refine ⟨?_, ?_, hpresent, ?_, ?_⟩
  · exact forall_update (P := fun j (p : Pc) => p.reporting = true → j = rp)
      (fun hp => hi.reporter i ((run_class ho).2.2 hp)) fun j _ => hi.reporter j
  · exact forall_update (P := fun _ (p : Pc) => p.arg ≠ some none)
      (fun hp => hi.args i (harg none hp)) fun j _ => hi.args j
  · rw [captured_append, processed_append, hi.traces]
    simpa [List.append_assoc] using run_handed hi.reporter ho
  · obtain ⟨saved, hsaved, hlog⟩ := hi.log
    have hnone : none ∉ (s.pc rp).unsaved := fun hm => hi.present (by
      rw [hi.traces, hsaved]
      simp [hm])
    by_cases hrp : rp = i
    · subst hrp
      simp only [Function.update_self, processed_append, hsaved, List.append_assoc]
      rcases run_saved hpath hopen hnone ho with ⟨hf, hu⟩ | ⟨trace, timestamp, hu, hp, hf⟩
      · exact ⟨saved, by rw [hu], hf ▸ hlog⟩
      · refine ⟨saved ++ [trace], ?_, hf ▸ hlog.save timestamp trace⟩
        rw [hu, hp]
        simp
    · -- only the reporter has a batch, and only it writes
      have hp : (s.pc i).reporting = false := by
        rw [Bool.eq_false_iff]
        exact fun hp => hrp (hi.reporter i hp).symm
      have hunsaved := Pc.unsaved_of_reporting hp
      have hfile : o.mem.file = s.mem.file := by
        rcases run_saved hpath hopen (by simp [hunsaved]) ho with ⟨hf, -⟩ | ⟨trace, _, hu, -, -⟩
        · exact hf
        · rw [hunsaved] at hu
          cases hu
      simp only [Function.update_of_ne hrp, processed_append, run_processed ho hp, List.append_nil,
        hfile]
      exact ⟨saved, hsaved, hlog⟩

theorem LogInv.step (hi : LogInv config rp h s) (hpath : config.telemetryPath ≠ "") {l : Label ι}
    {es : List (Event ι)} (hl : Logged rp h s l)
    (hs : (lts ι config file).step s l = some (es, s')) : LogInv config rp (h ++ es) s' := by
  obtain ⟨i, op | c⟩ := l
  · obtain ⟨hpc, rfl, rfl⟩ := Impl.step_call.1 hs
    exact hi.call hpc hl
  · obtain ⟨o, ho, rfl, rfl⟩ := Impl.step_run.1 hs
    exact hi.run hpath hl ho

/-! ## The theorem -/

/-- **The telemetry file** of a fixed path where opening succeeds, from no file or an empty one,
with any number of capturing threads: at every moment the captures are the traces that have been
passed to `process_snapshot`, then the batch the reporter has swapped out, then the buffer; and the
file holds nothing, or the header and one row for each of the traces that have been saved, all in
the order of the captures. -/
theorem csv_log (hpath : config.telemetryPath ≠ "") (hfile : file = none ∨ file = some [])
    (hr : (lts ι config file).ReachIf (Logged rp) h s) :
    captured h = processed h ++ (s.pc rp).hand ++ s.mem.traceBuffer ∧
    ∃ saved, processed h = saved.map some ++ (s.pc rp).unsaved ∧ Log config saved s.mem.file := by
  have hi : LogInv config rp h s := by
    refine hr.inv (fun s h0 => ?_) fun h s l es s' hi hc hs => hi.step hpath hc hs
    obtain rfl : s = (impl ι config file).init := h0
    exact .init hfile
  exact ⟨hi.traces, hi.log⟩

end

/-- A trace with four times. -/
def timed (id : Nat) (queue pre infer post : Rat) : Trace :=
  some { requestId := id, startTs := 0, queueWaitMs := queue, preprocessMs := pre,
         inferenceMs := infer, postprocessMs := post }

def timedRow (id : Nat) (queue pre infer post total : Rat) : CsvLine :=
  .row { timestamp := 1700000000, requestId := id, queueType := "Naive", allocType := "Standard",
         queueMs := queue, preprocessMs := pre, inferenceMs := infer, postprocessMs := post,
         totalMs := total }

/-- `sv` captures two traces, the second while `rp` has the first. -/
def twoBatches (sv rp : ι) : List (Label ι) :=
  (sv, .call (.captureTrace (timed 8 1 2 3 4))) :: List.replicate 4 (sv, .run (.notify none)) ++
    report rp ++
    (sv, .call (.captureTrace (timed 9 5 6 7 8))) :: List.replicate 4 (sv, .run (.notify none)) ++
    List.replicate 12 (rp, .run (.save true 1700000000))

theorem csv_log_run : ∃ h s, (lts (Fin 2) {} none).ReachIf (Logged 1) h s ∧
    captured h = [timed 8 1 2 3 4, timed 9 5 6 7 8] ∧
    s.mem.file = some [.header ["timestamp", "request_id", "queue_type", "alloc_type", "queue_ms",
      "preprocess_ms", "inference_ms", "postprocess_ms", "total_ms"],
      timedRow 8 1 2 3 4 10, timedRow 9 5 6 7 8 26] ∧
    ∃ saved, processed h = saved.map some ++ (s.pc 1).unsaved ∧ Log {} saved s.mem.file := by
  have he : ((lts (Fin 2) {} none).exec (impl (Fin 2) {} none).init (twoBatches 0 1)).map
      (fun q => (captured q.1, q.2.mem.file)) = some ([timed 8 1 2 3 4, timed 9 5 6 7 8],
        some [csvHeader, timedRow 8 1 2 3 4 10, timedRow 9 5 6 7 8 26]) := by decide +kernel
  obtain ⟨⟨h, s⟩, he, hq⟩ := Option.map_eq_some_iff.1 he
  obtain ⟨hcap, hfile⟩ := Prod.mk.inj hq
  have hr := Lts.ReachIf.along (C := Logged 1) (.init rfl) (by decide) he
  exact ⟨_, s, hr, hcap, hfile, (csv_log (by decide) (.inl rfl) hr).2⟩

end Lumen.Telemetry.TelemetryManager
