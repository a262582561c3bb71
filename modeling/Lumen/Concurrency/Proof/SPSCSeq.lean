import Lumen.Concurrency.Proof.FifoPop
import Lumen.Concurrency.Proof.SPSCInv

/-!
# `SPSCTaskQueue` called by one thread at a time

`Rep q m`: the ring stands for the list `q`. `Stage q op m pc` is the way of a lone call of `op`
that began at `q`, through its accesses; `implements` is the refinement of the list of capacity
`1023` that follows, whoever makes the calls and however often the counters wrap.
-/

set_option autoImplicit false

namespace Lumen.Concurrency.SPSCTaskQueue

open Lumen.Lib Lumen.Lib.Shared Lumen.Core ITaskQueue

/-- The ring stands for `q`: the tasks of `q` are the last of those it has accepted. -/
def Rep (q : Fifo) (m : Mem) : Prop :=
  ∃ W k, Ring W k k m ∧ q.tasks = W.drop k ∧ q.stopped = m.stopFlag

variable {q q1 : Fifo} {m : Mem} {task : InferenceTask}

theorem Rep.init : Rep {} Mem.init := ⟨[], 0, .init, rfl, rfl⟩

theorem Rep.stop (h : Rep q m) : m.stopFlag = q.stopped := by
  obtain ⟨W, k, -, -, hs⟩ := h
  exact hs.symm

theorem Rep.full_iff (h : Rep q m) :
    add64 m.tail 1 &&& mask = m.head &&& mask ↔ q.Full (some 1023) := by
  obtain ⟨W, k, hr, hq, -⟩ := h
  have := hr.le_cap
  rw [hr.full_iff, Fifo.full_some, hq, List.length_drop]
  omega

theorem Rep.empty_iff (h : Rep q m) : m.head = m.tail ↔ q.tasks = [] := by
  obtain ⟨W, k, hr, hq, -⟩ := h
  have := hr.le
  rw [hr.empty_iff, hq, List.drop_eq_nil_iff]
  omega

theorem Rep.size_eq (h : Rep q m) : sub64 m.tail m.head = q.tasks.length := by
  obtain ⟨W, k, hr, hq, -⟩ := h
  rw [hr.size_eq, hq, List.length_drop]

/-- The write and the store of a push. -/
theorem Rep.push (h : Rep q m) (hf : ¬ q.Full (some 1023)) (n : Nat) :
    Rep { q with tasks := q.tasks ++ [task], pushed := n }
      { m.write m.tail task with tail := add64 m.tail 1 } := by
  obtain ⟨W, k, hr, hq, hs⟩ := h
  have hle := hr.le
  have hlt : W.length < k + 1023 := by
    rw [Fifo.full_some, hq, List.length_drop] at hf
    omega
  refine ⟨W ++ [task], k, (hr.write hlt task).store hlt ?_, ?_, hs⟩
  · have ht := hr.tail_slot
    rw [and_mask_eq] at ht
    rw [buffer_write, if_pos ht.symm]
  · rw [List.drop_append_of_le_length hle, hq]

/-- The move and the store of a pop. -/
theorem Rep.pop (h : Rep q m) (hq : q.tasks ≠ []) (x : InferenceTask) :
    ∃ rest, q.tasks = m.buffer (m.head &&& mask) :: rest ∧
      Rep { q with tasks := rest } { m.write m.head x with head := add64 m.head 1 } := by
  obtain ⟨W, k, hr, hd, hs⟩ := h
  have hlt : k < W.length := by
    rw [hd, ne_eq, List.drop_eq_nil_iff] at hq
    omega
  refine ⟨W.drop (k + 1), ?_, W, k + 1, (hr.move x).advance hlt, rfl, hs⟩
  rw [hd, List.drop_eq_getElem_cons hlt]
  have := hr.head_task hlt
  rw [List.getElem?_eq_getElem hlt, Option.some.injEq] at this
  rw [this]

theorem Rep.shutdown (h : Rep q m) :
    Rep { q with stopped := true } { m with stopFlag := true } := by
  obtain ⟨W, k, hr, hq, -⟩ := h
  exact ⟨W, k, hr.congr _ rfl rfl rfl, hq, rfl⟩

/-! ## The stages of a call -/

def Stage (q : Fifo) (op : Op) (m : Mem) : Pc → Prop
  | .idle => False
  | .pushStop task => op = .push task ∧ Rep q m
  | .pushTail task => op = .push task ∧ Rep q m ∧ q.stopped = false
  | .pushHead task t => op = .push task ∧ Rep q m ∧ q.stopped = false ∧ t = m.tail
  | .pushWrite task t => op = .push task ∧ Rep q m ∧ q.stopped = false ∧ t = m.tail ∧
      ¬ q.Full (some 1023)
  | .pushStore task t => op = .push task ∧ q.stopped = false ∧ ¬ q.Full (some 1023) ∧
      ∃ m0, Rep q m0 ∧ t = m0.tail ∧ m = m0.write t task
  | .popHead ctx => ctx.More ∧ ∃ q1, ctx.At q op q1 ∧ Rep q1 m
  | .popTail ctx h => ctx.More ∧ h = m.head ∧ ∃ q1, ctx.At q op q1 ∧ Rep q1 m
  | .popMove ctx h => ctx.More ∧ h = m.head ∧ ∃ q1, ctx.At q op q1 ∧ Rep q1 m ∧ q1.tasks ≠ []
  | .popStore ctx h task => ctx.More ∧ ∃ q1 m0 x, ctx.At q op q1 ∧ Rep q1 m0 ∧ q1.tasks ≠ [] ∧
      h = m0.head ∧ task = m0.buffer (h &&& mask) ∧ m = m0.write h x
  | .batchTest batch max => ∃ q1, op = .popBatch max ∧ q.Taken batch q1 ∧ batch.length ≤ max ∧
      Rep q1 m
  | .sizeTail e => op = (if e then .empty else .size) ∧ Rep q m
  | .sizeHead e t => op = (if e then .empty else .size) ∧ Rep q m ∧ t = m.tail
  | .stopStore => op = .shutdown ∧ Rep q m

/-- A bound on the accesses that are left. -/
def rank : Pc → Nat
  | .idle | .stopStore | .sizeHead .. | .pushStore .. => 0
  | .sizeTail _ | .pushWrite .. => 1
  | .pushHead .. => 2
  | .pushTail _ => 3
  | .pushStop _ => 4
  | .popStore ctx _ _ => popRank ctx + 1
  | .popMove ctx _ => popRank ctx + 2
  | .popTail ctx _ => popRank ctx + 3
  | .popHead ctx => popRank ctx + 4
  | .batchTest batch max => popRank (.batch batch max) + 5

theorem stage_entry {op : Op} (h : Rep q m) : Stage q op m (entry op) := by
  cases op with
  | pop => exact ⟨trivial, q, ⟨rfl, rfl⟩, h⟩
  | popBatch max => exact ⟨q, rfl, .refl q, Nat.zero_le max, h⟩
  | _ => exact ⟨rfl, h⟩

/-- One access of a lone call: the next stage, closer to the end, or the answer of the list. -/
theorem stage_run {op : Op} {p : Pc} {o : Outcome} (hst : Stage q op m p) (ho : run m p = some o) :
    (o.ret = none ∧ Stage q op o.mem o.pc ∧ rank o.pc < rank p) ∨
      (o.ret = some (Fifo.apply (some 1023) q op).1 ∧ o.pc = .idle ∧
        Rep (Fifo.apply (some 1023) q op).2 o.mem) := by
  cases p <;> simp only [Stage] at hst <;> simp only [run] at ho
  case pushStop task =>
    obtain ⟨rfl, hR⟩ := hst
    have hstop : q.stopped = m.stopFlag := hR.stop.symm
    split at ho <;> rename_i hc <;> cases ho
    · rw [Fifo.apply_push_stopped (hstop.trans hc)]
      exact .inr ⟨rfl, rfl, hR⟩
    · refine .inl ⟨rfl, ⟨rfl, hR, ?_⟩, by simp [rank]⟩
      rw [hstop]
      exact Bool.not_eq_true _ ▸ hc
  case pushTail task =>
    obtain ⟨rfl, hR, hs⟩ := hst
    cases ho
    exact .inl ⟨rfl, ⟨rfl, hR, hs, rfl⟩, by simp [rank]⟩
  case pushHead task t =>
    obtain ⟨rfl, hR, hs, rfl⟩ := hst
    split at ho <;> rename_i hc <;> cases ho
    · rw [Fifo.apply_push_full (hR.full_iff.1 hc)]
      exact .inr ⟨rfl, rfl, hR⟩
    · exact .inl ⟨rfl, ⟨rfl, hR, hs, rfl, mt hR.full_iff.2 hc⟩, by simp [rank]⟩
  case pushWrite task t =>
    obtain ⟨rfl, hR, hs, rfl, hf⟩ := hst
    cases ho
    exact .inl ⟨rfl, ⟨rfl, hs, hf, m, hR, rfl, rfl⟩, by simp [rank]⟩
  case pushStore task t =>
    obtain ⟨rfl, hs, hf, m0, hR, rfl, rfl⟩ := hst
    cases ho
    rw [Fifo.apply_push hs hf]
    exact .inr ⟨rfl, rfl, hR.push hf _⟩
  case popHead ctx =>
    obtain ⟨hmore, hst⟩ := hst
    cases ho
    exact .inl ⟨rfl, ⟨hmore, rfl, hst⟩, by simp [rank]⟩
  case popTail ctx h =>
    obtain ⟨hmore, rfl, q1, hctx, hR⟩ := hst
    split at ho <;> rename_i hc <;> cases ho
    · rw [hctx.apply_none _ (hR.empty_iff.1 hc)]
      exact .inr ⟨rfl, rfl, hR⟩
    · exact .inl ⟨rfl, ⟨hmore, rfl, q1, hctx, hR, mt hR.empty_iff.2 hc⟩, by simp [rank]⟩
  case popMove ctx h =>
    obtain ⟨hmore, rfl, q1, hctx, hR, hne⟩ := hst
    cases ho
    exact .inl ⟨rfl, ⟨hmore, q1, m, _, hctx, hR, hne, rfl, rfl, rfl⟩, by simp [rank]⟩
  case popStore ctx h task =>
    obtain ⟨hmore, q1, m0, x, hctx, hR, hne, rfl, rfl, rfl⟩ := hst
    obtain ⟨rest, hq, hR'⟩ := hR.pop hne x
    cases ho
    cases ctx with
    | pop =>
      obtain ⟨rfl, rfl⟩ := hctx
      rw [Fifo.apply_pop hq]
      exact .inr ⟨rfl, rfl, hR'⟩
    | batch batch max =>
      obtain ⟨rfl, ht, -⟩ := hctx
      have hlt : batch.length < max := hmore
      refine .inl ⟨rfl, ⟨_, rfl, ht.next hq, by rwa [List.length_append], hR'⟩, ?_⟩
      simp only [popSome, rank, popRank, List.length_append, List.length_singleton]
      omega
  case batchTest batch max =>
    obtain ⟨q1, rfl, ht, hle, hR⟩ := hst
    split at ho <;> rename_i hc <;> cases ho
    · exact .inl ⟨rfl, ⟨hc, q1, ⟨rfl, ht, hle⟩, hR⟩, by simp [rank]⟩
    · rw [ht.apply_popBatch (.inl (by omega))]
      exact .inr ⟨rfl, rfl, hR⟩
  case sizeTail e =>
    obtain ⟨rfl, hR⟩ := hst
    cases ho
    exact .inl ⟨rfl, ⟨rfl, hR, rfl⟩, by simp [rank]⟩
  case sizeHead e t =>
    obtain ⟨rfl, hR, rfl⟩ := hst
    cases ho
    refine .inr ⟨?_, rfl, ?_⟩
    · cases e <;> simp [sizeRet, hR.size_eq, Fifo.apply]
    · cases e <;> exact hR
  case stopStore =>
    obtain ⟨rfl, hR⟩ := hst
    cases ho
    exact .inr ⟨rfl, rfl, hR.shutdown⟩

/-- A call alone does what the list of capacity `1023` does. -/
theorem alone {ι : Type*} [DecidableEq ι] :
    Alone (impl ι) () (Fifo.apply (some 1023)) (fun _ _ => True) Rep := by
  refine .of_stages Stage rank (fun q op m hR _ => stage_entry hR)
    (fun i q op m p c o hst ho => ?_) fun i q op m p hst => ?_
  · exact (stage_run hst ho).imp (fun h => ⟨h.1, h.2.1, fun _ => h.2.2⟩) id
  · change ∃ o, run m p = some o
    cases p <;> simp only [run] <;>
      first | exact hst.elim | (split <;> exact ⟨_, rfl⟩) | exact ⟨_, rfl⟩

theorem implements {ι : Type*} [DecidableEq ι] :
    Implements (impl ι) () (Fifo.apply (some 1023)) (fun _ _ => True) Rep := alone.implements

/-- While the consumer is not at work the ring stands for a list, wherever the producer is. -/
theorem rep_of_reach {ι : Type*} [DecidableEq ι] {p c : ι} {h : List (Event ι Obs)} {s : State ι}
    (hr : (lts ι).ReachIf (Roles p c) h s) (hc : s.pc c = .idle) : ∃ q, Rep q s.mem := by
  have hring := (inv hr).ring
  rw [hc] at hring
  exact ⟨{ tasks := (pushed h).drop (popped h).length, stopped := s.mem.stopFlag },
    _, _, hring, rfl,
    rfl⟩

/-- A lone push that finds the flag set touches nothing. -/
theorem push_stopped {ι : Type*} [DecidableEq ι] {s s' : State ι} {task : InferenceTask} {r : Ret}
    (hstop : s.mem.stopFlag = true) (hs : Solo (impl ι) s (.push task) r s') : s'.mem = s.mem := by
  refine hs.of_first (Q := fun _ m => m = s.mem) ?_
  intro i c o ho
  change run s.mem (.pushStop task) = some o at ho
  rw [run, if_pos hstop] at ho
  cases ho
  exact ⟨_, rfl, rfl, rfl⟩

end Lumen.Concurrency.SPSCTaskQueue
