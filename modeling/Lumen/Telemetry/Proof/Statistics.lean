import Mathlib.Algebra.BigOperators.Group.List.Basic
import Lumen.Lib.OrderStat
import Lumen.Telemetry.TelemetryManager

/-!
# The statistics of a batch

`process_snapshot` skips the null pointers of a batch when it collects, but takes its index and its
divisors from the whole batch. `Right` says what the statistics should be: those of the traces that
are there. `right_iff`: they are if no pointer is null; with null pointers only if so many latencies
are left that the index is one of them, and all the sums are zero. In a run that captures no null
pointer everything printed is right (`printed_right`).
-/

set_option autoImplicit false

namespace Lumen.Telemetry.TelemetryManager

open Lumen.Lib Lumen.Lib.Shared Lumen.Core Lumen.Utils

/-! ## What is collected -/

/-- The traces that are not null. -/
def present (batch : List Trace) : List InferenceTrace := batch.filterMap id

def latencies (batch : List Trace) : List Rat := (present batch).map (·.totalE2eMs)

/-- The index at which `latencies` is read after the selection. -/
def p99Idx (count : Nat) : Nat := if count * 99 / 100 ≥ count then count - 1 else count * 99 / 100

/-- Where `process_snapshot` reads `latencies`; it returns before it when the batch is empty. -/
def indexed (batch : List Trace) : Option Nat :=
  if batch = [] then none else some (p99Idx batch.length)

/-- What is summed up over the traces, in the order in which it is printed. -/
def measures : List (InferenceTrace → Rat) :=
  [(·.totalE2eMs), (·.queueWaitMs), (·.preprocessMs), (·.inferenceMs), (·.postprocessMs)]

def total (f : InferenceTrace → Rat) (batch : List Trace) : Rat := ((present batch).map f).sum

def Snapshot.averages (s : Snapshot) : List Rat :=
  [s.avgE2e, s.avgQueue, s.avgPre, s.avgInfer, s.avgPost]

variable {batch : List Trace}

theorem snapshot_p99 (batch : List Trace) : (snapshot batch).p99 =
    ((latencies batch).mergeSort fun a b => decide (a ≤ b))[p99Idx batch.length]? := rfl

theorem snapshot_averages (batch : List Trace) :
    (snapshot batch).averages = measures.map fun f => total f batch / batch.length := rfl

theorem length_latencies (batch : List Trace) :
    (latencies batch).length = (present batch).length := List.length_map _

theorem length_present_le (batch : List Trace) : (present batch).length ≤ batch.length :=
  List.length_filterMap_le _ _

theorem length_present (batch : List Trace) :
    (present batch).length = batch.length ↔ none ∉ batch := by
  induction batch with
  | nil => simp [present]
  | cons t batch ih =>
    have hle := length_present_le batch
    cases t with
    | none =>
      have hcons : present (none :: batch) = present batch := rfl
      simp only [hcons, List.length_cons, List.mem_cons, true_or, not_true_eq_false, iff_false]
      omega
    | some t =>
      have hcons : present (some t :: batch) = t :: present batch := rfl
      simp [hcons, ih]

/-! ## What should be printed -/

/-- The statistics are those of the `m` latencies collected. The percentile is a latency that at
least 99 of a hundred, rounded down, do not exceed. -/
structure Right (batch : List Trace) : Prop where
  index : ∀ k ∈ indexed batch, k < (latencies batch).length
  p99 : 0 < (latencies batch).length → ∃ v ∈ latencies batch, (snapshot batch).p99 = some v ∧
    (latencies batch).length * 99 / 100 ≤ (latencies batch).countP (· ≤ v)
  averages : (snapshot batch).averages =
    measures.map fun f => total f batch / (latencies batch).length

theorem p99Idx_of_pos {count : Nat} (h : 0 < count) : p99Idx count = count * 99 / 100 :=
  if_neg (by omega)

/-- The percentile is right where it is read inside the latencies. -/
theorem p99_right (hne : batch ≠ []) (h : p99Idx batch.length < (latencies batch).length) :
    ∃ v ∈ latencies batch, (snapshot batch).p99 = some v ∧
      (latencies batch).length * 99 / 100 ≤ (latencies batch).countP (· ≤ v) := by
  have hlen : ((latencies batch).mergeSort fun a b => decide (a ≤ b)).length =
      (latencies batch).length := List.length_mergeSort _
  obtain ⟨v, hv⟩ : ∃ v, (snapshot batch).p99 = some v := by
    rw [snapshot_p99]
    exact ⟨_, List.getElem?_eq_getElem (hlen ▸ h)⟩
  have hnth : IsNth (latencies batch) (p99Idx batch.length) v := isNth_mergeSort hv
  refine ⟨v, hnth.mem, hv, Nat.le_of_lt (Nat.lt_of_le_of_lt ?_ hnth.notAbove)⟩
  have hle := length_present_le batch
  rw [p99Idx_of_pos (List.length_pos_iff.2 hne), length_latencies]
  omega

/-- A sum of a batch with null pointers that is no zero gives a wrong average. -/
theorem averages_iff (hpos : 0 < (latencies batch).length) :
    ((snapshot batch).averages =
      measures.map fun f => total f batch / (latencies batch).length) ↔
    none ∉ batch ∨ ∀ f ∈ measures, total f batch = 0 := by
  have hne : ((latencies batch).length : Rat) ≠ 0 := by exact_mod_cast hpos.ne'
  have hle := length_present_le batch
  have hne' : (batch.length : Rat) ≠ 0 := by
    rw [length_latencies] at hpos
    exact_mod_cast (Nat.lt_of_lt_of_le hpos hle).ne'
  rw [snapshot_averages, List.map_inj_left, ← length_present, ← length_latencies]
  constructor
  · intro h
    by_cases hlen : (latencies batch).length = batch.length
    · exact .inl hlen
    · refine .inr fun f hf => ?_
      have heq := h f hf
      rw [div_eq_div_iff hne' hne] at heq
      by_contra hz
      exact hlen (by exact_mod_cast mul_left_cancel₀ hz heq)
  · rintro (hlen | hz) f hf
    · rw [hlen]
    · rw [hz f hf, zero_div, zero_div]

theorem right_of (hne : batch ≠ []) (hlt : batch.length * 99 / 100 < (present batch).length)
    (hsum : none ∉ batch ∨ ∀ f ∈ measures, total f batch = 0) : Right batch := by
  have hidx := p99Idx_of_pos (List.length_pos_iff.2 hne)
  rw [← length_latencies] at hlt
  refine ⟨fun k hk => ?_, fun _ => p99_right hne ?_, (averages_iff (Nat.zero_lt_of_lt hlt)).2 hsum⟩
  · rw [indexed, if_neg hne, Option.mem_some_iff, hidx] at hk
    exact hk ▸ hlt
  · rwa [hidx]

/-- A batch without null pointers. -/
theorem right_of_notMem (hne : batch ≠ []) (h : none ∉ batch) : Right batch := by
  have hpos := List.length_pos_iff.2 hne
  refine right_of hne ?_ (.inl h)
  rw [(length_present batch).2 h]
  omega

/-- **The statistics** of a batch that is not empty are those of its traces if and only if no
pointer is null, or the index is inside what is collected and every sum is zero. -/
theorem right_iff (hne : batch ≠ []) : Right batch ↔
    none ∉ batch ∨
      (batch.length * 99 / 100 < (present batch).length ∧ ∀ f ∈ measures, total f batch = 0) := by
  constructor
  · intro hr
    have hlt := hr.index (p99Idx batch.length) (if_neg hne)
    rcases (averages_iff (Nat.zero_lt_of_lt hlt)).1 hr.averages with hnone | hz
    · exact .inl hnone
    · rw [length_latencies, p99Idx_of_pos (List.length_pos_iff.2 hne)] at hlt
      exact .inr ⟨hlt, hz⟩
  · rintro (hnone | ⟨hlt, hz⟩)
    · exact right_of_notMem hne hnone
    · exact right_of hne hlt (.inr hz)

/-- With one trace and one null pointer the index is 1 of 1. -/
theorem right_iff_half :
    ¬ Right [some { requestId := 0, startTs := 0, totalE2eMs := 5 }, none] := by
  intro hr
  rcases (right_iff (by simp)).1 hr with hnone | ⟨hlt, -⟩
  · exact hnone (by simp)
  · exact absurd hlt (by decide)

/-- A null pointer alone: `latencies` is empty and its element 0 is read. -/
theorem not_right_null : ¬ ∀ batch, batch ≠ [] → Right batch := by
  intro hall
  have hlt : 0 < (latencies [none]).length := (hall [none] (by simp)).index 0 rfl
  exact absurd hlt (by decide)

/-! ## Runs -/

/-- The traces that a thread has are not null; a batch that it processes is not empty. -/
def Pc.Sound : Pc → Prop
  | .capLock trace | .capPush trace => trace ≠ none
  | .repUnlock batch => none ∉ batch
  | .repProcess batch | .repSave batch _ | .repPrint batch => batch ≠ [] ∧ none ∉ batch
  | _ => True

section
variable {ι : Type*} [DecidableEq ι] {config : ConfigManager} {i : ι} {m : Mem ι} {c : Choice ι}
  {p : Pc} {o : Outcome ι}

theorem run_sound (ho : run config i m c p = some o) (hm : none ∉ m.traceBuffer) (hp : p.Sound) :
    none ∉ o.mem.traceBuffer ∧ o.pc.Sound ∧
      ∀ snap, .printed snap ∈ o.obs → ∃ batch, Right batch ∧ snap = snapshot batch := by
  cases p <;> simp only [run, lock, save] at ho
  case capPush trace =>
    cases ho
    refine ⟨fun hn => ?_, trivial, by simp⟩
    rcases List.mem_append.1 hn with hn | hn
    · exact hm hn
    · exact hp (List.mem_singleton.1 hn).symm
  case repUnlock batch =>
    cases ho
    refine ⟨hm, ?_, by simp⟩
    split <;> rename_i hb
    · trivial
    · exact ⟨hb, hp⟩
  case repPrint batch =>
    cases ho
    refine ⟨hm, trivial, fun snap hs => ⟨batch, right_of_notMem hp.1 hp.2, ?_⟩⟩
    simpa using hs
  all_goals
    (repeat' split at ho) <;> cases ho <;> simp_all [Pc.Sound]

variable {file : Option (List CsvLine)} {h : List (Event ι)} {s : State ι}

/-- The pointer captured, if the step is a call of `capture_trace`, is not null. -/
def NotNull (_ : List (Event ι)) (_ : State ι) : Label ι → Prop
  | (_, .call (.captureTrace trace)) => trace ≠ none
  | _ => True

/-- Where no null pointer is captured every statistic printed is right. -/
theorem printed_right (hr : (lts ι config file).ReachIf NotNull h s) {snap : Snapshot}
    (hs : .obs i (.printed snap) ∈ h) : ∃ batch, Right batch ∧ snap = snapshot batch := by
  refine (hr.inv (I := fun h s => (none ∉ s.mem.traceBuffer ∧ ∀ j, (s.pc j).Sound) ∧
    ∀ j snap, .obs j (.printed snap) ∈ h → ∃ batch, Right batch ∧ snap = snapshot batch)
    (fun s h0 => ?_) fun h s l es s' ⟨⟨hm, hpc⟩, hp⟩ hc hst => ?_).2 i snap hs
  · obtain rfl : s = (impl ι config file).init := h0
    exact ⟨⟨List.not_mem_nil, fun _ => trivial⟩, fun _ _ hn => absurd hn List.not_mem_nil⟩
  obtain ⟨j, op | c⟩ := l
  · obtain ⟨-, rfl, rfl⟩ := Impl.step_call.1 hst
    refine ⟨⟨hm, forall_update (P := fun _ (q : Pc) => q.Sound) ?_ fun k _ => hpc k⟩,
      fun k snap hn => ?_⟩
    · cases op with
      | captureTrace trace => exact hc
      | shutdown => trivial
      | reportingLoop => trivial
    · exact hp k snap (by simpa using hn)
  · obtain ⟨o, ho, rfl, rfl⟩ := Impl.step_run.1 hst
    obtain ⟨hm', hpc', hprint⟩ := run_sound ho hm (hpc j)
    refine ⟨⟨hm', forall_update (P := fun _ (q : Pc) => q.Sound) hpc' fun k _ => hpc k⟩,
      fun k snap hn => ?_⟩
    rcases List.mem_append.1 hn with hn | hn
    · exact hp k snap hn
    · refine hprint snap (show Obs.printed snap ∈ o.obs ∧ j = k from ?_).1
      simpa [Shared.Outcome.events] using hn

end
end Lumen.Telemetry.TelemetryManager
