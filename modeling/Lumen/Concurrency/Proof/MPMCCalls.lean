import Lumen.Concurrency.MPMCTaskQueue

/-!
# The calls of `MPMCTaskQueue`

What a call shows before it returns: a push one ticket, won and then published, or the instant it
gave up; a pop one ticket or the instant it gave up; a batch its pops in order. `calls` holds of
the code of one thread alone, whatever the memory does in between.
-/

set_option autoImplicit false

namespace Lumen.Concurrency.MPMCTaskQueue

open Lumen.Lib Lumen.Lib.Shared Lumen.Core ITaskQueue

/-- An access shows at most one point. -/
theorem run_obs_le {m : Mem} {weak : Bool} {p : Pc} {o : Outcome} (ho : run m weak p = some o) :
    o.obs.length ≤ 1 := by
  cases p <;> simp only [run] at ho
  case popPublish ctx k task =>
    cases ho
    cases ctx <;> exact Nat.le_refl 1
  all_goals
    (repeat' split at ho) <;> cases ho <;> simp

/-- The points of the pops of these tickets. -/
def popPoints (ps : List (Nat × InferenceTask)) : List Obs :=
  ps.flatMap fun p => [.headWin p.1, .popped p.1 p.2]

@[simp] theorem popPoints_concat (ps : List (Nat × InferenceTask)) (k : Nat)
    (task : InferenceTask) :
    popPoints (ps ++ [(k, task)]) = popPoints ps ++ [.headWin k, .popped k task] := by
  simp [popPoints]

/-- What a call of `op` whose accesses have shown `os` may return. -/
def Answers : Op → List Obs → Ret → Prop
  | .push task, os, r => (∃ t, os = [.tailWin t task, .pushed t] ∧ r = .bool true) ∨
      (∃ t, os = [.full t] ∧ r = .bool false) ∨ (os = [.stopped] ∧ r = .bool false)
  | .pop, os, r => (∃ k task, os = popPoints [(k, task)] ∧ r = .task (some task)) ∨
      (∃ k, os = [.none k] ∧ r = .task none)
  | .popBatch max, os, r => ∃ ps, r = .batch (ps.map Prod.snd) ∧
      ((os = popPoints ps ∧ max ≤ ps.length) ∨
        ∃ k, os = popPoints ps ++ [.none k] ∧ ps.length < max)
  | _, os, _ => os = []

/-- The `pop` that runs in a call of `op`; `rest` is what it has shown itself. -/
def PopDuring (op : Op) (os rest : List Obs) : PopCtx → Prop
  | .pop => op = .pop ∧ os = rest
  | .batch batch max => op = .popBatch max ∧ batch.length < max ∧
      ∃ ps, batch = ps.map Prod.snd ∧ os = popPoints ps ++ rest

/-- The call of `op` that has shown `os` is at this point. -/
def During : Pc → Op → List Obs → Prop
  | .idle, _, _ => True
  | .pushStop task, op, os | .pushTail task, op, os | .pushSeq task _, op, os
  | .pushCas task _, op, os => op = .push task ∧ os = []
  | .pushData task t, op, os => op = .push task ∧ os = [.tailWin t task]
  | .pushPublish t, op, os => ∃ task, op = .push task ∧ os = [.tailWin t task]
  | .popHead ctx, op, os | .popSeq ctx _, op, os | .popCas ctx _, op, os => PopDuring op os [] ctx
  | .popData ctx h, op, os | .popPublish ctx h _, op, os => PopDuring op os [.headWin h] ctx
  | .batchTest batch max, op, os => op = .popBatch max ∧
      ∃ ps, batch = ps.map Prod.snd ∧ os = popPoints ps
  | .sizeTail e, op, os | .sizeHead e _, op, os => op = (if e then .empty else .size) ∧ os = []
  | .stopStore, op, os => op = .shutdown ∧ os = []

theorem PopDuring.concat {op : Op} {os rest : List Obs} {ctx : PopCtx} (x : Obs)
    (h : PopDuring op os rest ctx) : PopDuring op (os ++ [x]) (rest ++ [x]) ctx := by
  cases ctx with
  | pop =>
    obtain ⟨rfl, rfl⟩ := h
    exact ⟨rfl, rfl⟩
  | batch batch max =>
    obtain ⟨rfl, hlt, ps, rfl, rfl⟩ := h
    exact ⟨rfl, hlt, ps, rfl, List.append_assoc _ _ _⟩

theorem calls {ι : Type*} : (impl ι).Calls During Answers where
  idle _ _ _ := rfl
  entry op := by cases op <;> simp [During, PopDuring, entry, popPoints]
  run := by
    intro i m weak q o op os ho hd
    replace ho : run m weak q = some o := ho
    cases q <;> simp only [run] at ho <;> simp only [During] at hd
    case idle => cases ho
    case pushStop task =>
      obtain ⟨rfl, rfl⟩ := hd
      split at ho <;> cases ho
      · exact .inr ⟨_, rfl, rfl, .inr (.inr ⟨rfl, rfl⟩)⟩
      · exact .inl ⟨rfl, rfl, rfl⟩
    case pushSeq task t =>
      obtain ⟨rfl, rfl⟩ := hd
      split at ho
      · cases ho
        exact .inl ⟨rfl, rfl, rfl⟩
      · split at ho <;> cases ho
        · exact .inr ⟨_, rfl, rfl, .inr (.inl ⟨t, rfl, rfl⟩)⟩
        · exact .inl ⟨rfl, rfl, rfl⟩
    case pushCas task t =>
      obtain ⟨rfl, rfl⟩ := hd
      split at ho <;> cases ho <;> exact .inl ⟨rfl, rfl, rfl⟩
    case pushData task t =>
      obtain ⟨rfl, rfl⟩ := hd
      cases ho
      exact .inl ⟨rfl, task, rfl, rfl⟩
    case pushPublish t =>
      obtain ⟨task, rfl, rfl⟩ := hd
      cases ho
      exact .inr ⟨_, rfl, rfl, .inl ⟨t, rfl, rfl⟩⟩
    case popSeq ctx k =>
      split at ho
      · cases ho
        exact .inl ⟨rfl, by simpa [During] using hd⟩
      · split at ho <;> cases ho
        · cases ctx with
          | pop =>
            obtain ⟨rfl, rfl⟩ := hd
            exact .inr ⟨_, rfl, rfl, .inr ⟨k, rfl, rfl⟩⟩
          | batch batch max =>
            obtain ⟨rfl, hlt, ps, rfl, rfl⟩ := hd
            refine .inr ⟨_, rfl, rfl, ps, rfl, .inr ⟨k, by simp, ?_⟩⟩
            rwa [List.length_map] at hlt
        · exact .inl ⟨rfl, by simpa [During] using hd⟩
    case popCas ctx k =>
      split at ho <;> cases ho
      · exact .inl ⟨rfl, hd.concat _⟩
      · exact .inl ⟨rfl, by simpa [During] using hd⟩
    case popPublish ctx k task =>
      cases ho
      cases ctx with
      | pop =>
        obtain ⟨rfl, rfl⟩ := hd
        exact .inr ⟨_, rfl, rfl, .inl ⟨k, task, rfl, rfl⟩⟩
      | batch batch max =>
        obtain ⟨rfl, -, ps, rfl, rfl⟩ := hd
        exact .inl ⟨rfl, rfl, ps ++ [(k, task)], by simp, by simp [popSome]⟩
    case batchTest batch max =>
      obtain ⟨rfl, ps, rfl, rfl⟩ := hd
      split at ho <;> rename_i hc <;> cases ho
      · exact .inl ⟨rfl, rfl, hc, ps, rfl, rfl⟩
      · rw [List.length_map] at hc
        exact .inr ⟨_, rfl, rfl, ps, rfl, .inl ⟨by simp, by omega⟩⟩
    case sizeHead e t =>
      obtain ⟨rfl, rfl⟩ := hd
      cases ho
      exact .inr ⟨_, rfl, rfl, by cases e <;> rfl⟩
    case stopStore =>
      obtain ⟨rfl, rfl⟩ := hd
      cases ho
      exact .inr ⟨_, rfl, rfl, rfl⟩
    all_goals
      cases ho
      exact .inl ⟨rfl, by simpa [During] using hd⟩

end Lumen.Concurrency.MPMCTaskQueue
