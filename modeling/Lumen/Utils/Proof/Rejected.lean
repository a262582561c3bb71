import Lumen.Utils.LumenConfigManager

/-!
# What a rejected file leaves behind

`load_from_file` reads the members one after the other and writes each before it reads the next. So
a document that is rejected has left behind what came before the access that threw (`firstThrow`),
and the configuration is as it was exactly if all of that was there already (`Unwritten`).
-/

set_option autoImplicit false

namespace Lumen.Utils.ConfigManager

open Lumen.Lib Lumen.Lib.Action

attribute [ext] ConfigManager

/-! ## The accesses -/

/-- The accesses that can throw, in the order of the source. -/
inductive Access
  | threadCount
  | batchSize
  | queueType
  | allocatorType
  | telemetryCsvPath
  | path
  | processorType

/-- The value of a count, where the section has one. -/
def count (outOfRange : Rat → Nat) (eng : Json) (key : String) : Except JsonError (Option Nat) :=
  match eng.find key with
  | some value => (value.getSize outOfRange).map some
  | none => .ok none

def throws {α : Type} (r : Except JsonError α) (access : Access) : Option Access :=
  match r with
  | .ok _ => none
  | .error _ => some access

def engineThrow (outOfRange : Rat → Nat) (eng : Json) : Option Access :=
  throws (count outOfRange eng "thread_count") .threadCount <|>
  throws (count outOfRange eng "batch_size") .batchSize <|>
  throws (eng.value "queue_type" "naive_mutex") .queueType <|>
  throws (eng.value "allocator_type" "standard") .allocatorType <|>
  throws (eng.value "telemetry_csv_path" "lumen_baseline.csv") .telemetryCsvPath

def modelThrow (mod : Json) : Option Access :=
  throws (mod.value "path" "") .path <|>
  throws (mod.value "processor_type" "imagenet") .processorType

/-- The access at which the document is rejected. -/
def firstThrow (outOfRange : Rat → Nat) (j : Json) : Option Access :=
  (j.find "engine").bind (engineThrow outOfRange) <|> (j.find "model").bind modelThrow

/-! ## What is there already -/

/-- The queue type of `q_type` with this batch size. -/
def chosen (qType : String) (batchSize : Nat) : QueueType :=
  if qType = "spsc" then .spsc
  else if qType = "mpmc" then .mpmc
  else if batchSize > 1 then .batched
  else .naiveMutex

section
variable (outOfRange : Rat → Nat) (eng mod : Json) (config : ConfigManager)

def ThreadHeld : Prop :=
  ∀ n, count outOfRange eng "thread_count" = .ok (some n) → n = config.threadCount

def BatchHeld : Prop :=
  ∀ n, count outOfRange eng "batch_size" = .ok (some n) → n = config.batchSize

/-- SPSC sets the thread count, whatever the document says. -/
def QueueHeld : Prop :=
  ∀ qType, eng.value "queue_type" "naive_mutex" = .ok qType →
    chosen qType config.batchSize = config.queueType ∧
      if qType = "spsc" then config.threadCount = 1 else ThreadHeld outOfRange eng config

def AllocHeld : Prop :=
  ∀ aType, eng.value "allocator_type" "standard" = .ok aType →
    (if aType = "lumen_arena" then AllocatorType.lumenArena else .standard) = config.allocType

def TelemetryHeld : Prop :=
  ∀ path, eng.value "telemetry_csv_path" "lumen_baseline.csv" = .ok path →
    path = config.telemetryPath

def PathHeld : Prop := ∀ path, mod.value "path" "" = .ok path → path = config.modelPath

/-- All of the section `engine`. -/
def EngineHeld : Prop :=
  BatchHeld outOfRange eng config ∧ QueueHeld outOfRange eng config ∧ AllocHeld eng config ∧
    TelemetryHeld eng config

end

/-- What the section `engine` writes before the access. -/
def EngineUnwritten (outOfRange : Rat → Nat) (eng : Json) (config : ConfigManager) : Access → Prop
  | .threadCount => True
  | .batchSize => ThreadHeld outOfRange eng config
  | .queueType => ThreadHeld outOfRange eng config ∧ BatchHeld outOfRange eng config
  | .allocatorType => BatchHeld outOfRange eng config ∧ QueueHeld outOfRange eng config
  | .telemetryCsvPath =>
    BatchHeld outOfRange eng config ∧ QueueHeld outOfRange eng config ∧ AllocHeld eng config
  | .path | .processorType => EngineHeld outOfRange eng config

/-- What the section `model` writes before the access. -/
def ModelUnwritten (mod : Json) (config : ConfigManager) : Access → Prop
  | .processorType => PathHeld mod config
  | _ => True

/-- Everything that is written before the access that throws is already there. -/
def Unwritten (outOfRange : Rat → Nat) (j : Json) (config : ConfigManager) : Prop :=
  ∀ access ∈ firstThrow outOfRange j,
    (∀ eng ∈ j.find "engine", EngineUnwritten outOfRange eng config access) ∧
    ∀ mod ∈ j.find "model", ModelUnwritten mod config access

/-! ## The run of `load` -/

section
variable {outOfRange : Rat → Nat} {eng mod j : Json} {config : ConfigManager}

theorem exec_loadThreadCount {β : Type} (f : Unit → Action ConfigManager JsonError β) :
    ((ifContains eng "thread_count" (loadThreadCount outOfRange)) >>= f).exec config =
      match count outOfRange eng "thread_count" with
      | .ok t => (f ⟨⟩).exec { config with threadCount := t.getD config.threadCount }
      | .error e => (.error e, config) := by
  rw [exec_bind, ifContains, count]
  cases eng.find "thread_count" with
  | none => rfl
  | some value =>
    simp only [loadThreadCount, exec_lift_bind]
    cases value.getSize outOfRange <;> rfl

theorem exec_loadBatchSize {β : Type} (f : Unit → Action ConfigManager JsonError β) :
    ((ifContains eng "batch_size" (loadBatchSize outOfRange)) >>= f).exec config =
      match count outOfRange eng "batch_size" with
      | .ok b => (f ⟨⟩).exec { config with batchSize := b.getD config.batchSize }
      | .error e => (.error e, config) := by
  rw [exec_bind, ifContains, count]
  cases eng.find "batch_size" with
  | none => rfl
  | some value =>
    simp only [loadBatchSize, exec_lift_bind]
    cases value.getSize outOfRange <;> rfl

theorem setQueueType_eq (qType : String) (config : ConfigManager) :
    config.setQueueType qType =
      { config with queueType := chosen qType config.batchSize,
                    threadCount := if qType = "spsc" then 1 else config.threadCount } := by
  unfold setQueueType chosen
  (repeat' split) <;> rfl

theorem getD_eq_iff {o : Option Nat} {n : Nat} : o.getD n = n ↔ ∀ m, o = some m → m = n := by
  cases o <;> simp

/-- The counts and the queue type that the cascade leaves, compared with those held before. -/
theorem cascade_iff (t b : Option Nat) (qType : String) (config : ConfigManager) :
    (chosen qType (b.getD config.batchSize) = config.queueType ∧
      (if qType = "spsc" then 1 else t.getD config.threadCount) = config.threadCount ∧
      b.getD config.batchSize = config.batchSize) ↔
    (∀ n, b = some n → n = config.batchSize) ∧
      chosen qType config.batchSize = config.queueType ∧
      if qType = "spsc" then config.threadCount = 1 else
        ∀ n, t = some n → n = config.threadCount := by
  have hthread : (if qType = "spsc" then 1 else t.getD config.threadCount) = config.threadCount ↔
      if qType = "spsc" then config.threadCount = 1
      else ∀ n, t = some n → n = config.threadCount := by
    split
    · exact eq_comm
    · exact getD_eq_iff
  have hbatch : b.getD config.batchSize = config.batchSize ↔
      ∀ n, b = some n → n = config.batchSize :=
    getD_eq_iff
  rw [hthread, ← hbatch]
  constructor
  · intro ⟨hq, ht, hb⟩
    rw [hb] at hq
    exact ⟨hb, hq, ht⟩
  · intro ⟨hb, hq, ht⟩
    rw [hb]
    exact ⟨hq, ht, rfl⟩

/-- The section `engine` throws at the access that `engineThrow` names, and has then written what
`EngineUnwritten` is about; otherwise it has written what `EngineHeld` is about. -/
theorem exec_loadEngine (outOfRange : Rat → Nat) (eng : Json) (config : ConfigManager) :
    (∀ access, engineThrow outOfRange eng = some access →
      (∀ mod, ModelUnwritten mod config access) ∧
      ∃ e config', (loadEngine outOfRange eng).exec config = (.error e, config') ∧
        (config' = config ↔ EngineUnwritten outOfRange eng config access)) ∧
    (engineThrow outOfRange eng = none → ∃ config',
      (loadEngine outOfRange eng).exec config = (.ok ⟨⟩, config') ∧
      (config' = config ↔ EngineHeld outOfRange eng config) ∧
      config'.modelPath = config.modelPath) := by
  unfold loadEngine engineThrow
  simp only [exec_loadThreadCount, exec_loadBatchSize, exec_lift_bind, exec_modify_bind,
    setQueueType_eq, EngineUnwritten, EngineHeld, ThreadHeld, BatchHeld, QueueHeld, AllocHeld,
    TelemetryHeld]
  cases hT : count outOfRange eng "thread_count" with
  | error e =>
    refine ⟨fun access h => ?_, fun h => (by cases h)⟩
    cases h
    exact ⟨fun _ => trivial, e, _, rfl, iff_of_true rfl trivial⟩
  | ok t =>
    cases hB : count outOfRange eng "batch_size" with
    | error e =>
      refine ⟨fun access h => ?_, fun h => (by cases h)⟩
      cases h
      refine ⟨fun _ => trivial, e, _, rfl, ?_⟩
      simp [ConfigManager.ext_iff, getD_eq_iff]
    | ok b =>
      cases hQ : eng.value "queue_type" "naive_mutex" with
      | error e =>
        refine ⟨fun access h => ?_, fun h => (by cases h)⟩
        cases h
        refine ⟨fun _ => trivial, e, _, rfl, ?_⟩
        simp [ConfigManager.ext_iff, getD_eq_iff]
      | ok qType =>
        have hcascade := cascade_iff t b qType config
        cases hA : eng.value "allocator_type" "standard" with
        | error e =>
          refine ⟨fun access h => ?_, fun h => (by cases h)⟩
          cases h
          refine ⟨fun _ => trivial, e, _, rfl, ?_⟩
          simpa [ConfigManager.ext_iff] using hcascade
        | ok aType =>
          cases hP : eng.value "telemetry_csv_path" "lumen_baseline.csv" with
          | error e =>
            refine ⟨fun access h => ?_, fun h => (by cases h)⟩
            cases h
            refine ⟨fun _ => trivial, e, _, rfl, ?_⟩
            simp only [ConfigManager.ext_iff, setAllocType, true_and, Except.ok.injEq, forall_eq']
            tauto
          | ok path =>
            refine ⟨fun access h => (by cases h), fun _ => ⟨_, rfl, ?_, rfl⟩⟩
            simp only [ConfigManager.ext_iff, setAllocType, true_and, Except.ok.injEq, forall_eq']
            tauto

/-- The section `model`, which comes second: it starts from what the first has made of `before`. -/
theorem exec_loadModel (outOfRange : Rat → Nat) (mod : Json) {config before : ConfigManager}
    (hpath : config.modelPath = before.modelPath) :
    (∀ access, modelThrow mod = some access →
      (∀ eng, EngineUnwritten outOfRange eng before access = EngineHeld outOfRange eng before) ∧
      ∃ e config', (loadModel mod).exec config = (.error e, config') ∧
        (config' = before ↔ config = before ∧ ModelUnwritten mod before access)) ∧
    (modelThrow mod = none → ((loadModel mod).exec config).1 = .ok ⟨⟩) := by
  unfold loadModel modelThrow
  simp only [exec_lift_bind, exec_modify_bind]
  cases hP : mod.value "path" "" with
  | error e =>
    refine ⟨fun access h => ?_, fun h => (by cases h)⟩
    cases h
    exact ⟨fun _ => rfl, e, config, rfl, (and_iff_left trivial).symm⟩
  | ok path =>
    cases hT : mod.value "processor_type" "imagenet" with
    | error e =>
      refine ⟨fun access h => ?_, fun h => (by cases h)⟩
      cases h
      refine ⟨fun _ => rfl, e, _, rfl, ?_⟩
      simp only [ConfigManager.ext_iff, ModelUnwritten, PathHeld, hP, Except.ok.injEq, forall_eq',
        hpath, true_and]
      tauto
    | ok pType =>
      refine ⟨fun access h => (by cases h), fun _ => ?_⟩
      show ((ifContains mod "metadata" _).exec _).1 = _
      unfold ifContains
      split <;> rfl

/-! ## The theorem -/

/-- The load of the file ends in the `catch` branch. -/
def Caught (outOfRange : Rat → Nat) (config : ConfigManager) : File → Prop
  | .absent => False
  | .unparsable => True
  | .document j => ∃ e config', (load outOfRange j).exec config = (.error e, config')

/-- A file that is no document throws before anything is written. -/
def FileUnwritten (outOfRange : Rat → Nat) (config : ConfigManager) : File → Prop
  | .absent | .unparsable => True
  | .document j => Unwritten outOfRange j config

/-- Each section throws where its part of `firstThrow` says, after what it has written. -/
theorem load_rejected (outOfRange : Rat → Nat) (j : Json) (config : ConfigManager) :
    (∀ access, firstThrow outOfRange j = some access → ∃ e config',
      (load outOfRange j).exec config = (.error e, config') ∧
        (config' = config ↔ Unwritten outOfRange j config)) ∧
    (firstThrow outOfRange j = none → ((load outOfRange j).exec config).1 = .ok ⟨⟩) := by
  -- the second part, after the first has left `mid`
  have hmodel : ∀ mid : ConfigManager, mid.modelPath = config.modelPath →
      (∀ access, (j.find "model").bind modelThrow = some access →
        (∀ eng, EngineUnwritten outOfRange eng config access = EngineHeld outOfRange eng config) ∧
        ∃ e config', (ifContains j "model" loadModel).exec mid = (.error e, config') ∧
          (config' = config ↔ mid = config ∧
            ∀ mod ∈ j.find "model", ModelUnwritten mod config access)) ∧
      ((j.find "model").bind modelThrow = none →
        ((ifContains j "model" loadModel).exec mid).1 = .ok ⟨⟩) := by
    intro mid hpath
    unfold ifContains
    cases j.find "model" with
    | none => exact ⟨fun access h => (by cases h), fun _ => rfl⟩
    | some mod =>
      simp only [Option.bind_some, Option.mem_some_iff, forall_eq']
      exact exec_loadModel outOfRange mod hpath
  unfold load firstThrow Unwritten
  unfold firstThrow
  rw [exec_bind, ifContains]
  cases hE : j.find "engine" with
  | none =>
    obtain ⟨hthrow, hok⟩ := hmodel config rfl
    simp only [Option.bind_none, Option.orElse_eq_orElse, Option.orElse_eq_or, Option.none_or]
    refine ⟨fun access h => ?_, hok⟩
    obtain ⟨-, e, config', hexec, hiff⟩ := hthrow access h
    refine ⟨e, config', hexec, hiff.trans ?_⟩
    simp [h]
  | some eng =>
    obtain ⟨hthrow, hok⟩ := exec_loadEngine outOfRange eng config
    simp only [Option.bind_some]
    cases hT : engineThrow outOfRange eng with
    | some access =>
      obtain ⟨hmod, e, config', hexec, hiff⟩ := hthrow access hT
      refine ⟨fun access' h => ?_, fun h => (by cases h)⟩
      cases h
      rw [hexec]
      refine ⟨e, config', rfl, hiff.trans ?_⟩
      simp [hmod]
    | none =>
      obtain ⟨mid, hexec, hheld, hpath⟩ := hok hT
      obtain ⟨hthrow', hok'⟩ := hmodel mid hpath
      rw [hexec]
      refine ⟨fun access h => ?_, hok'⟩
      obtain ⟨heng, e, config', hexec', hiff⟩ := hthrow' access h
      refine ⟨e, config', hexec', hiff.trans ?_⟩
      rw [hheld]
      have h' : (j.find "model").bind modelThrow = some access := h
      simp [h', heng]

/-- **A rejected file**: for every file and every configuration before the call, the load ends in
the `catch` branch exactly if an access throws (or the file is no document), and it then leaves the
configuration as it was exactly if what was written before that access was there already. -/
theorem rejected_iff (outOfRange : Rat → Nat) (file : File) (config : ConfigManager) :
    (Caught outOfRange config file → loadFromFile outOfRange file config = config) ↔
      FileUnwritten outOfRange config file := by
  cases file with
  | absent => exact iff_of_true (fun _ => rfl) trivial
  | unparsable => exact iff_of_true (fun _ => rfl) trivial
  | document j =>
    obtain ⟨hthrow, hok⟩ := load_rejected outOfRange j config
    cases h : firstThrow outOfRange j with
    | some access =>
      obtain ⟨e, config', hexec, hiff⟩ := hthrow access h
      have hload : loadFromFile outOfRange (.document j) config = config' := by
        rw [loadFromFile, hexec]
      rw [hload]
      exact ⟨fun hkeep => hiff.1 (hkeep ⟨e, config', hexec⟩), fun hun _ => hiff.2 hun⟩
    | none =>
      refine iff_of_true (fun ⟨e, config', hexec⟩ => ?_) fun access hm => ?_
      · have hret := hok h
        rw [hexec] at hret
        cases hret
      · rw [h] at hm
        cases hm

end

/-- A thread count, then a queue type that is no string. -/
def halfApplied : Json :=
  .object [("engine", .object [("thread_count", .number (.unsigned 8)),
    ("queue_type", .number (.unsigned 5))])]

/-- On first load it ends in the `catch` branch with the thread count of the file. -/
theorem rejected_halfApplied :
    Caught (fun _ => 0) {} (.document halfApplied) ∧
      (loadFromFile (fun _ => 0) (.document halfApplied) {}).threadCount = 8 ∧
      ({} : ConfigManager).threadCount = 0 :=
  ⟨⟨.type302, { threadCount := 8 }, rfl⟩, rfl, rfl⟩

end Lumen.Utils.ConfigManager
