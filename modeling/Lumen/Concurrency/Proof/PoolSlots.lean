import Lumen.Concurrency.Proof.PoolJobs

/-!
# The slots that have not been given back

A slot that the queue counts as not given back is held by a worker that has taken the task out of it
(`Slots`), which has this task in its hands. So the queue is not full as long as fewer than 1023
tasks are queued or with the workers; of the MPMC queue this holds where one worker serves it
(`not_full`): where there are more, a worker that sleeps on a slot lets the others go round the
ring.
-/

set_option autoImplicit false

namespace Lumen.Concurrency.ThreadPool

open Lumen.Lib Lumen.Lib.Shared Lumen.Core

variable {ι κ : Type*}

/-- The ticket whose slot the worker has still to give back. -/
def Pc.slot : Pc ι κ → List Nat
  | .popRelease ticket _ _ => [ticket]
  | _ => []

theorem Pc.slot_le_hand (p : Pc ι κ) : p.slot.length ≤ p.hand.length := by
  cases p <;> simp [Pc.slot, Pc.hand, Pc.currentRun, Pc.batchBuffer]

/-- What a step of a thread does with the slots: nothing, also where a task is accepted, or it takes
the front or gives a slot back. -/
inductive SlotMoves (s0 s1 : List Nat) (q q' : TaskQueue κ) : Prop
  | stay (n : Nat) : s1 = s0 → q'.unreleased = q.unreleased →
      q'.tasks.length = q.tasks.length + n → q'.accepted = q.accepted + n → SlotMoves s0 s1 q q'
  | take : s0 = [] → s1 = [q.accepted - q.tasks.length] →
      q'.unreleased = (q.accepted - q.tasks.length) :: q.unreleased →
      q.tasks.length = q'.tasks.length + 1 → q'.accepted = q.accepted → SlotMoves s0 s1 q q'
  | release (ticket : Nat) : s0 = [ticket] → s1 = [] →
      q'.unreleased = q.unreleased.erase ticket → q'.tasks = q.tasks →
      q'.accepted = q.accepted → SlotMoves s0 s1 q q'

section
variable [DecidableEq ι] {setup : Setup ι} {i : ι} {m : Mem ι κ} {c : Choice} {p : Pc ι κ}
  {o : Outcome ι κ}

theorem run_slots (ho : run setup i m c p = some o) :
    SlotMoves p.slot o.pc.slot m.queue o.mem.queue := by
  cases p <;> simp only [run, push, popImmediate, popBatch, forEach, engineRun, stopJoin] at ho
  case push job =>
    cases ho
    simp only [TaskQueue.push]
    split
    · exact .stay 0 rfl rfl rfl rfl
    · exact .stay 1 rfl rfl List.length_append rfl
  case popBatch batch =>
    split at ho
    · split at ho
      · split at ho
        · rename_i ticket job queue htake
          cases ho
          unfold TaskQueue.take at htake
          split at htake <;> rename_i hq <;> cases htake
          exact .take rfl (by rw [Pc.slot, hq]) (by rw [hq]) (by rw [hq]; rfl) rfl
        · cases ho
      · cases ho
    · split at ho
      · cases ho
        refine .stay 0 ?_ rfl rfl rfl
        simp only
        split <;> rfl
      · cases ho
    · cases ho
  case popRelease ticket job batch =>
    cases ho
    exact .release ticket rfl rfl rfl rfl rfl
  case loopTest =>
    cases ho
    refine .stay 0 ?_ rfl rfl rfl
    simp only
    split <;> rfl
  all_goals
    (repeat' split at ho) <;> cases ho <;> exact .stay 0 rfl rfl rfl rfl

end

/-- The workers hold the slots that are not given back. Fewer tickets have been taken than given
out, and with one worker the ticket of its slot is the last that was taken. -/
structure Slots (setup : Setup ι) (s : State ι κ) : Prop where
  unreleased : s.mem.queue.unreleased.Perm (heldBy Pc.slot setup.workers s.pc)
  tasks_le : s.mem.queue.tasks.length ≤ s.mem.queue.accepted
  last : setup.workers.length ≤ 1 → ∀ ticket ∈ heldBy Pc.slot setup.workers s.pc,
    s.mem.queue.accepted = ticket + s.mem.queue.tasks.length + 1

section
variable [DecidableEq ι] {setup : Setup ι} {allocator : ι → Allocator} {mn i : ι}
  {h : List (Event ι κ)} {s s' : State ι κ}

/-- Only the slot of the thread that moves changes, and with one worker there is no other. -/
theorem Threads.slots (ht : Threads setup mn h s) {c : Choice} {o : Outcome ι κ}
    (ho : ThreadPool.run setup i s.mem c (s.pc i) = some o) :
    ∃ rest, (heldBy Pc.slot setup.workers s.pc).Perm ((s.pc i).slot ++ rest) ∧
      (heldBy Pc.slot setup.workers (Function.update s.pc i o.pc)).Perm (o.pc.slot ++ rest) ∧
      (setup.workers.length ≤ 1 → i ∈ setup.workers → rest = []) := by
  have hnone : ∀ p : Pc ι κ, p.working = false → p.slot = [] := fun p hp => by
    cases p <;> first | rfl | cases hp
  by_cases hi : i ∈ setup.workers
  · obtain ⟨rest, hold, hnew⟩ := heldBy_update (f := Pc.slot) (p := o.pc) setup.nodup hi
    refine ⟨rest, hold, hnew, fun hone _ => ?_⟩
    obtain ⟨w, hw⟩ := List.length_eq_one_iff.1
      (Nat.le_antisymm hone (List.length_pos_of_mem hi))
    rw [hw, List.mem_singleton] at hi
    rw [hw, heldBy, List.flatMap_singleton, ← hi] at hold
    simpa using hold.length_eq
  · have hw : (s.pc i).working = false := by
      rw [Bool.eq_false_iff]
      exact fun hw => hi (ht.worker i hw)
    have hw' : o.pc.working = false := by
      rw [Bool.eq_false_iff] at hw ⊢
      exact fun h' => hw ((run_class ho).1 h')
    refine ⟨heldBy Pc.slot setup.workers s.pc, ?_, ?_, fun _ h => absurd h hi⟩
    · rw [hnone _ hw, List.nil_append]
    · rw [hnone _ hw', List.nil_append, heldBy_keep ((hnone _ hw').trans (hnone _ hw).symm)]

namespace Slots

theorem init : Slots setup (impl κ setup allocator).init := by
  have hheld : heldBy Pc.slot setup.workers (impl κ setup allocator).init.pc = [] :=
    List.flatMap_eq_nil_iff.2 fun _ _ => rfl
  refine ⟨?_, Nat.zero_le _, ?_⟩ <;> rw [hheld]
  · exact .nil
  · exact fun _ _ h => absurd h List.not_mem_nil

theorem call (hs : Slots setup s) {op : Op κ} (hpc : s.pc i = .idle) :
    Slots setup ⟨s.mem, Function.update s.pc i (entry op)⟩ := by
  have hheld : heldBy Pc.slot setup.workers (Function.update s.pc i (entry op)) =
      heldBy Pc.slot setup.workers s.pc := heldBy_keep (by rw [hpc]; cases op <;> rfl)
  refine ⟨?_, hs.tasks_le, ?_⟩ <;> simp only [hheld]
  · exact hs.unreleased
  · exact hs.last

theorem run (hs : Slots setup s) (ht : Threads setup mn h s) {c : Choice} {o : Outcome ι κ}
    (ho : ThreadPool.run setup i s.mem c (s.pc i) = some o) :
    Slots setup ⟨o.mem, Function.update s.pc i o.pc⟩ := by
  obtain ⟨rest, hheld, hheld', hone⟩ := ht.slots ho
  have hun := hs.unreleased.trans hheld
  have hle := hs.tasks_le
  have hlast : setup.workers.length ≤ 1 → ∀ ticket ∈ (s.pc i).slot ++ rest,
      s.mem.queue.accepted = ticket + s.mem.queue.tasks.length + 1 :=
    fun h1 ticket hmem => hs.last h1 ticket (hheld.mem_iff.2 hmem)
  cases run_slots ho with
  | stay n hslot hrel htasks hacc =>
    rw [hslot] at hheld'
    refine ⟨?_, ?_, fun h1 ticket hmem => ?_⟩ <;> simp only
    · rw [hrel]
      exact hun.trans hheld'.symm
    · omega
    · have := hlast h1 ticket (hheld'.mem_iff.1 hmem)
      omega
  | take hslot hslot' hrel htasks hacc =>
    rw [hslot, List.nil_append] at hun hlast
    rw [hslot'] at hheld'
    refine ⟨?_, ?_, fun h1 ticket hmem => ?_⟩ <;> simp only
    · rw [hrel]
      exact (hun.cons _).trans hheld'.symm
    · omega
    · have hi : i ∈ setup.workers := ht.worker i <| Decidable.byContradiction fun hw => by
        have := (run_class ho).1
        cases hp : o.pc <;> rw [hp] at hslot' this <;>
          first
            | exact hw (this rfl)
            | cases hslot'
      rw [hone h1 hi, List.append_nil] at hheld'
      have := List.mem_singleton.1 (hheld'.mem_iff.1 hmem)
      omega
  | release ticket hslot hslot' hrel htasks hacc =>
    rw [hslot] at hun hlast
    rw [hslot', List.nil_append] at hheld'
    refine ⟨?_, ?_, fun h1 ticket' hmem => ?_⟩ <;> simp only
    · rw [hrel]
      have := hun.erase ticket
      rw [List.singleton_append, List.erase_cons_head] at this
      exact this.trans hheld'.symm
    · rw [htasks, hacc]
      exact hle
    · rw [htasks, hacc]
      exact hlast h1 ticket' (List.mem_append_right _ (hheld'.mem_iff.1 hmem))

omit [DecidableEq ι] in
/-- The queue has room. -/
theorem not_full (hs : Slots setup s)
    (hsingle : setup.kind = .mpmc → setup.workers.length ≤ 1)
    (hroom : setup.kind ≠ .naive →
      s.mem.queue.tasks.length + (heldBy Pc.hand setup.workers s.pc).length < 1023) :
    s.mem.queue.full setup.kind = false := by
  have hslots : (heldBy Pc.slot setup.workers s.pc).length ≤
      (heldBy Pc.hand setup.workers s.pc).length := length_heldBy_le Pc.slot_le_hand
  have hlen := hs.unreleased.length_eq
  cases hk : setup.kind with
  | naive => rfl
  | spsc =>
    have := hroom (by rw [hk]; decide)
    simp only [TaskQueue.full, decide_eq_false_iff_not]
    omega
  | mpmc =>
    have hroom := hroom (by rw [hk]; decide)
    simp only [TaskQueue.full, decide_eq_false_iff_not, not_or, not_and]
    refine ⟨by omega, fun hacc hmem => ?_⟩
    have := hs.last (hsingle hk) _ (hs.unreleased.mem_iff.1 hmem)
    omega

end Slots

theorem slots [DecidableEq κ]
    (hr : (lts κ setup allocator).ReachIf (fun _ s => Roles setup mn s) h s) : Slots setup s := by
  refine hr.inv_of_reach (I := fun _ s => Slots setup s) (fun s h0 => ?_)
    fun h s l es s' hr hi _ hs => ?_
  · obtain rfl : s = (impl κ setup allocator).init := h0
    exact .init
  · obtain ⟨i, op | c⟩ := l
    · obtain ⟨hpc, rfl, rfl⟩ := Impl.step_call.1 hs
      exact hi.call hpc
    · obtain ⟨o, ho, rfl, rfl⟩ := Impl.step_run.1 hs
      exact hi.run (inv hr).1 ho

end

end Lumen.Concurrency.ThreadPool
