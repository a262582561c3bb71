import Lumen.Utils.LumenConfigManager

/-!
# What the queue type stands on

`load_from_file` may be cut short by an exception after any line. Up to the cascade over the queue
type a default configuration has the initial queue type; from the cascade on its choice comes with
the thread count or the batch size it stands on (`selected_loadFromFile`).
-/

set_option autoImplicit false

namespace Lumen.Utils.ConfigManager

open Lumen.Lib Lumen.Lib.Action

/-- The queue type as `setQueueType` leaves it: SPSC comes with one thread, and BATCHED with batches
of several tasks. -/
structure Selected (config : ConfigManager) : Prop where
  spsc : config.queueType = .spsc → config.threadCount = 1
  batched : config.queueType = .batched → 1 < config.batchSize

variable {config : ConfigManager} {P : ConfigManager → Prop} {R : ConfigManager → Prop}

theorem Selected.of_naiveMutex (h : config.queueType = .naiveMutex) : config.Selected where
  spsc h' := by rw [h] at h'; cases h'
  batched h' := by rw [h] at h'; cases h'

/-- The cascade needs nothing of the state it starts from. -/
theorem selected_setQueueType (qType : String) : (config.setQueueType qType).Selected := by
  unfold setQueueType
  split
  · exact ⟨fun _ => rfl, fun h => (nomatch h)⟩
  · split
    · exact ⟨fun h => (nomatch h), fun h => (nomatch h)⟩
    · split
      · rename_i hbatch
        exact ⟨fun h => (nomatch h), fun _ => hbatch⟩
      · exact .of_naiveMutex rfl

theorem ifContains_triple {j : Json} {key : String} {body : Json → Load}
    (h : ∀ value, Triple P (body value) (fun _ => P) R) :
    Triple P (ifContains j key body) (fun _ => P) R := by
  unfold ifContains
  split
  · exact h _
  · exact .ret fun _ hp => hp

/-- Until the cascade the queue type is the initial one; from there on it stays as the cascade has
left it. -/
theorem loadEngine_triple (outOfRange : Rat → Nat) (eng : Json) :
    Triple (fun config => config.queueType = .naiveMutex) (loadEngine outOfRange eng)
      (fun _ => Selected) Selected := by
  have hnaive : ∀ config : ConfigManager, config.queueType = .naiveMutex → config.Selected :=
    fun _ => .of_naiveMutex
  unfold loadEngine loadThreadCount loadBatchSize
  refine .seq (ifContains_triple fun _ => .read hnaive fun _ => .write fun _ h => h) fun _ => ?_
  refine .seq (ifContains_triple fun _ => .read hnaive fun _ => .write fun _ h => h) fun _ => ?_
  refine .read hnaive fun qType => ?_
  refine .assign Selected (fun config _ => selected_setQueueType qType) ?_
  refine .read (fun _ h => h) fun aType => ?_
  refine .assign Selected (fun _ h => ⟨h.spsc, h.batched⟩) ?_
  refine .read (fun _ h => h) fun path => ?_
  exact .write fun _ h => ⟨h.spsc, h.batched⟩

theorem loadModel_triple (mod : Json) :
    Triple Selected (loadModel mod) (fun _ => Selected) Selected := by
  unfold loadModel
  refine .read (fun _ h => h) fun path => ?_
  refine .assign Selected (fun _ h => ⟨h.spsc, h.batched⟩) ?_
  refine .read (fun _ h => h) fun pType => ?_
  refine .assign Selected (fun _ h => ⟨h.spsc, h.batched⟩) ?_
  exact ifContains_triple fun _ => .write fun _ h => ⟨h.spsc, h.batched⟩

/-- However the load of a document ends, the queue type has what it stands on. -/
theorem selected_loadFromFile (outOfRange : Rat → Nat) (file : File) :
    (loadFromFile outOfRange file {}).Selected := by
  cases file with
  | absent => exact .of_naiveMutex rfl
  | unparsable => exact .of_naiveMutex rfl
  | document j =>
    have hload : Triple (fun config => config.queueType = .naiveMutex) (load outOfRange j)
        (fun _ => Selected) Selected := by
      unfold load
      refine .seq ?_ fun _ => ifContains_triple fun mod => loadModel_triple mod
      unfold ifContains
      split
      · exact loadEngine_triple outOfRange _
      · exact .ret fun _ => .of_naiveMutex
    exact hload.after rfl

end Lumen.Utils.ConfigManager
