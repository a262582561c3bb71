import Lumen.Network.Proof.Conversation
import Lumen.Network.Proof.OnQueues

/-!
# Conversations with the server on the queues

What `conversation` and `round_trip` say of the runs of `Network.lts` holds of the runs of the
server on the code of its queues, whose events are without the jobs: the views that the two rest on
are the same (`wire_views`).
-/

set_option autoImplicit false

namespace Lumen.Network

open Lumen.Lib Lumen.Lib.Shared Lumen.Core Lumen.Concurrency Lumen.Models

namespace OnQueues

/-- The bytes that came on a connection. -/
def received (w : List Wire) (c : ConnId) : List UInt8 :=
  w.flatMap fun
    | .received c' bytes => if c' = c then bytes else []
    | _ => []

/-- The payloads passed to `push` for a connection. -/
def payloads (w : List Wire) (c : ConnId) : List (List UInt8) :=
  w.filterMap fun
    | .pushed c' payload _ => if c' = c then some payload else none
    | _ => none

/-- The responses that have been installed on a connection. -/
def replies (w : List Wire) (c : ConnId) : List (List UInt8) :=
  w.filterMap fun
    | .installed c' response => if c' = c then some response else none
    | _ => none

/-- The bytes that have been sent on a connection. -/
def sentOn (w : List Wire) (c : ConnId) : List UInt8 :=
  w.flatMap fun
    | .sent c' bytes => if c' = c then bytes else []
    | _ => []

/-- The number of responses completely sent on a connection. -/
def completed (w : List Wire) (c : ConnId) : Nat :=
  w.countP fun
    | .completed c' => decide (c' = c)
    | _ => false

end OnQueues

/-- Both histories show the same of a connection. -/
structure SameViews {ι : Type*} (h : List (Event ι)) (w : List Wire) (c : ConnId) : Prop where
  received : received h c = OnQueues.received w c
  payloads : payloads h c = OnQueues.payloads w c
  replies : replies h c = OnQueues.replies w c
  sentOn : sentOn h c = OnQueues.sentOn w c
  completed : completed h c = OnQueues.completed w c

theorem flatMap_wire {ι α : Type*} {f : Event ι → List α} {g : Wire → List α}
    (hfg : ∀ e, f e = (e.wire.map g).getD []) (h : List (Event ι)) :
    h.flatMap f = (h.filterMap Event.wire).flatMap g := by
  induction h with
  | nil => rfl
  | cons e h ih =>
    rw [List.flatMap_cons, List.filterMap_cons, hfg e, ih]
    cases e.wire <;> rfl

theorem wire_views {ι : Type*} (h : List (Event ι)) (c : ConnId) :
    SameViews h (h.filterMap Event.wire) c where
  received := flatMap_wire (fun e => by cases e <;> rfl) h
  payloads := by
    rw [OnQueues.payloads, List.filterMap_filterMap]
    exact List.filterMap_congr fun e _ => by cases e <;> rfl
  replies := by
    rw [OnQueues.replies, List.filterMap_filterMap]
    exact List.filterMap_congr fun e _ => by cases e <;> rfl
  sentOn := flatMap_wire (fun e => by cases e <;> rfl) h
  completed := by
    rw [OnQueues.completed, List.countP_filterMap]
    exact List.countP_congr fun e _ => by cases e <;> rfl

namespace OnQueues

section
variable {ι : Type} [DecidableEq ι] {setup : Setup ι} {m : Classifier} {w : List Wire}
  {x : State setup} {d : ι}

/-- **Each connection has its conversation** with the server on the code of its queues; a client
whose requests have all been completed has all their answers. -/
theorem wire_conversation (himg : ImageNet setup) (hruns : ∀ i, m.RunBy (setup.pool.engine i))
    (hone : ThreadPool.Single setup.pool d)
    (hr : (lts setup).ReachIf (fun _ x _ => Below setup x) w x) (c : ConnId) :
    Conversation (m.answer setup.post) (frameFormat.parse (received w c)).1
      (replies w c) (sentOn w c) (completed w c) ∧
    ∀ requests stream, Client.sendRequests requests = some stream →
      (∀ request ∈ requests, request ≠ []) → received w c <+: stream →
      payloads w c <+: requests ∧ (completed w c = requests.length →
        requests.map (m.answer setup.post) = (replies w c).map some ∧
          sentOn w c = (replies w c).flatten) := by
  obtain ⟨h, s, hreach, rfl⟩ := (sim hone hr).events
  have hv := wire_views h c
  rw [← hv.received, ← hv.payloads, ← hv.replies, ← hv.sentOn, ← hv.completed]
  have hconv := conversation_payloads himg hruns hreach c
  refine ⟨?_, fun requests stream hsend hne hcome => ?_⟩
  · rwa [← ((streams hreach).cut c).parse_eq]
  · have hpre := payloads_prefix_requests hreach hsend hne hcome
    exact ⟨hpre, hconv.whole hpre⟩

end

/-- The client of one request over the MPMC queue has its answer. -/
theorem wire_conversation_request : ∃ w x,
    (lts (kindPod .mpmc)).ReachIf (fun _ x _ => Below (kindPod .mpmc) x) w x ∧
    completed w 0 = 1 ∧ sentOn w 0 = bytes "cat" ∧
    Conversation (labels.answer (some 1)) (frameFormat.parse (received w 0)).1
      (replies w 0) (sentOn w 0) (completed w 0) ∧
    [[9, 8, 7]].map (labels.answer (some 1)) = (replies w 0).map some ∧
      sentOn w 0 = (replies w 0).flatten := by
  have hC : (lts (kindPod .mpmc)).Along (fun _ x _ => Below (kindPod .mpmc) x) []
      (State.init (kindPod .mpmc)) (request false 3 6 9) := by decide +kernel
  have he : ((lts (kindPod .mpmc)).exec (State.init (kindPod .mpmc)) (request false 3 6 9)).map
      (fun p => (completed p.1 0, sentOn p.1 0, received p.1 0)) =
        some (1, bytes "cat", [0, 0, 0, 3, 9, 8, 7]) := by
    decide +kernel
  obtain ⟨⟨w, x⟩, he, heq⟩ := Option.map_eq_some_iff.1 he
  obtain ⟨hdone, heq⟩ := Prod.mk.inj heq
  obtain ⟨hsent, hrec⟩ := Prod.mk.inj heq
  have hr : (lts (kindPod .mpmc)).ReachIf (fun _ x _ => Below (kindPod .mpmc) x) w x :=
    Lts.ReachIf.along (.init rfl) hC he
  have hone : ThreadPool.Single (kindPod .mpmc).pool ThreadPool.onePod.worker :=
    fun hk => by cases hk
  have himg : ImageNet (kindPod .mpmc) := labelPod_imageNet
  obtain ⟨hconv, hclient⟩ := wire_conversation himg labelPod_runs hone hr 0
  have hsend : Client.sendRequests [[9, 8, 7]] = some [0, 0, 0, 3, 9, 8, 7] := by decide
  replace hrec : received w 0 = [0, 0, 0, 3, 9, 8, 7] := hrec
  have hcome : received w 0 <+: [0, 0, 0, 3, 9, 8, 7] := hrec ▸ List.prefix_refl _
  obtain ⟨-, hall⟩ := hclient [[9, 8, 7]] _ hsend (by decide) hcome
  obtain ⟨hans, hout⟩ := hall hdone
  exact ⟨w, x, hr, hdone, hsent, hconv, hans, hout⟩

end OnQueues
end Lumen.Network
