import Lumen.Concurrency.Proof.FifoPop
import Lumen.Concurrency.Proof.MPMCInv

/-!
# `MPMCTaskQueue` called by one thread at a time

`Rep q m`: the ring stands for the list `q`, its cells being published from the ticket of its front
to the next ticket and free in the rest of the lap; the counters are the tickets modulo `2 ^ 64`.
With no other thread at work the cell a call looks at is never in transit, so its sequence alone
tells a full ring and an empty one (`Rep.tail_diff`, `Rep.head_diff`), and `implements` is the
refinement of the list of capacity `1024`; only `size` compares the counters, which takes them to
be below `2 ^ 64`.
-/

set_option autoImplicit false

namespace Lumen.Concurrency.MPMCTaskQueue

open Lumen.Lib Lumen.Lib.Shared Lumen.Core ITaskQueue

/-- The ticket of the front. -/
def front (q : Fifo) : Nat := q.pushed - q.tasks.length

structure Rep (q : Fifo) (m : Mem) : Prop where
  length_le : q.tasks.length ≤ q.pushed
  tail_eq : m.tail = q.pushed % 2 ^ 64
  head_eq : m.head = front q % 2 ^ 64
  le_cap : q.tasks.length ≤ 1024
  stored : ∀ k, front q ≤ k → k < q.pushed →
    m.seq k = (k + 1) % 2 ^ 64 ∧ q.tasks[k - front q]? = some (m.data k)
  free : ∀ k, q.pushed ≤ k → k < front q + 1024 → m.seq k = k % 2 ^ 64
  stop : m.stopFlag = q.stopped

variable {q : Fifo} {m : Mem}

theorem front_add (h : q.tasks.length ≤ q.pushed) : front q + q.tasks.length = q.pushed :=
  Nat.sub_add_cancel h

theorem Rep.init : Rep {} Mem.init := by
  refine ⟨Nat.zero_le _, rfl, rfl, Nat.zero_le _, fun k _ h => absurd h (Nat.not_lt_zero k),
    fun k _ h => ?_, rfl⟩
  have hk : k < 1024 := by simpa [front] using h
  simp only [Mem.seq, Mem.cell, Mem.init, and_mask_eq]
  omega

/-- The sequence of the cell of `tail`. -/
theorem Rep.tail_diff (h : Rep q m) : sdiff64 (m.cell m.tail).sequence m.tail =
    if q.Full (some 1024) then -1023 else 0 := by
  have hadd := front_add h.length_le
  have hle := h.le_cap
  have htail := h.tail_eq
  have hseq : m.seq m.tail = m.seq q.pushed := seq_congr m (by omega)
  change sdiff64 (m.seq m.tail) m.tail = _
  rw [hseq, htail]
  split <;> rename_i hf <;> rw [Fifo.full_some] at hf
  · rw [seq_congr m (show q.pushed % 1024 = front q % 1024 by omega),
      (h.stored (front q) (Nat.le_refl _) (by omega)).1, sdiff64_mod,
      sdiff64_eq (by omega) (by omega)]
    omega
  · rw [h.free q.pushed (Nat.le_refl _) (by omega), sdiff64_mod, sdiff64_eq (by omega) (by omega)]
    omega

/-- The sequence of the cell of `head`. -/
theorem Rep.head_diff (h : Rep q m) : sdiff64 (m.cell m.head).sequence (add64 m.head 1) =
    if q.tasks = [] then -1 else 0 := by
  have hadd := front_add h.length_le
  have hhead := h.head_eq
  have hnext : add64 m.head 1 = (front q + 1) % 2 ^ 64 := by
    unfold add64
    omega
  have hseq : m.seq m.head = m.seq (front q) := seq_congr m (by omega)
  change sdiff64 (m.seq m.head) (add64 m.head 1) = _
  rw [hseq, hnext]
  split <;> rename_i he
  · rw [he, List.length_nil] at hadd
    rw [h.free (front q) (by omega) (by omega), sdiff64_mod, sdiff64_eq (by omega) (by omega)]
    omega
  · have := List.length_pos_iff.2 he
    rw [(h.stored (front q) (Nat.le_refl _) (by omega)).1, sdiff64_mod,
      sdiff64_eq (by omega) (by omega)]
    omega

theorem Rep.size_eq (h : Rep q m) (hlt : q.pushed < 2 ^ 64) (e : Bool) :
    sizeRet e m.tail m.head = if e then .bool (q.tasks.length == 0) else .size q.tasks.length := by
  have hadd := front_add h.length_le
  have h1 : m.tail = q.pushed := h.tail_eq.trans (Nat.mod_eq_of_lt hlt)
  have h2 : m.head = front q := h.head_eq.trans (Nat.mod_eq_of_lt (by omega))
  have hn : (if m.tail > m.head then sub64 m.tail m.head else 0) = q.tasks.length := by
    split
    · rw [sub64_of_le (by omega) (by omega)]
      omega
    · omega
  simp only [sizeRet, hn]

/-- The three accesses of a push that has won `tail`. -/
theorem Rep.push (h : Rep q m) (hf : ¬ q.Full (some 1024)) (task : InferenceTask) :
    Rep { q with tasks := q.tasks ++ [task], pushed := q.pushed + 1 }
      ((({ m with tail := add64 m.tail 1 } : Mem).setData m.tail task).setSequence m.tail
        (add64 m.tail 1)) := by
  rw [Fifo.full_some] at hf
  have hlen := h.length_le
  have hadd := front_add hlen
  have htail := h.tail_eq
  have hnext : add64 m.tail 1 = (q.pushed + 1) % 2 ^ 64 := by
    unfold add64
    omega
  have hfront : front { q with tasks := q.tasks ++ [task], pushed := q.pushed + 1 } = front q := by
    simp only [front, List.length_append, List.length_singleton]
    omega
  rw [hnext]
  refine ⟨by simpa using hlen, by simp, by rw [hfront]; exact h.head_eq, by simp; omega,
    fun k hk1 hk2 => ?_, fun k hk1 hk2 => ?_, h.stop⟩
  · rw [hfront] at hk1 ⊢
    rw [seq_setSequence, data_setSequence, data_setData, seq_setData]
    rcases Nat.lt_or_ge k q.pushed with hk | hk
    · have hne : ¬ k % 1024 = m.tail % 1024 := by omega
      rw [if_neg hne, if_neg hne, List.getElem?_append_left (by omega)]
      exact h.stored k hk1 hk
    · obtain rfl : k = q.pushed := Nat.le_antisymm (Nat.le_of_lt_succ hk2) hk
      have heq : q.pushed % 1024 = m.tail % 1024 := by omega
      rw [if_pos heq, if_pos heq, show q.pushed - front q = q.tasks.length by omega,
        List.getElem?_concat_length]
      exact ⟨rfl, rfl⟩
  · rw [hfront] at hk2
    rw [seq_setSequence, seq_setData, if_neg (by simp only at hk1; omega)]
    exact h.free k (Nat.le_of_succ_le hk1) hk2

/-- The three accesses of a pop that has won `head`. -/
theorem Rep.pop (h : Rep q m) (hq : q.tasks ≠ []) (x : InferenceTask) :
    ∃ rest, q.tasks = m.data m.head :: rest ∧ Rep { q with tasks := rest }
      ((({ m with head := add64 m.head 1 } : Mem).setData m.head x).setSequence m.head
        (add64 m.head capacity)) := by
  have hle := h.length_le
  have hcap := h.le_cap
  have hhead := h.head_eq
  have hadd := front_add hle
  obtain ⟨y, rest, hc⟩ := List.exists_cons_of_ne_nil hq
  have hlen : q.tasks.length = rest.length + 1 := by rw [hc, List.length_cons]
  have hdata : m.data m.head = m.data (front q) := data_congr m (by omega)
  have hy : y = m.data m.head := by
    have := (h.stored (front q) (Nat.le_refl _) (by omega)).2
    rw [hdata]
    simpa [hc] using this
  have hfront : front { q with tasks := rest } = front q + 1 := by
    simp only [front]
    omega
  have hnext : add64 m.head 1 = (front q + 1) % 2 ^ 64 := by
    unfold add64
    omega
  have hlap : add64 m.head capacity = (front q + 1024) % 2 ^ 64 := by
    unfold add64 capacity
    omega
  rw [hnext, hlap]
  refine ⟨rest, by rw [hc, hy], by simp only; omega, h.tail_eq, by rw [hfront]; rfl,
    by simp only; omega, fun k hk1 hk2 => ?_, fun k hk1 hk2 => ?_, h.stop⟩
  · rw [hfront] at hk1 ⊢
    simp only at hk2
    have hne : ¬ k % 1024 = m.head % 1024 := by omega
    rw [seq_setSequence, data_setSequence, data_setData, seq_setData, if_neg hne, if_neg hne]
    obtain ⟨hs, hd⟩ := h.stored k (by omega) hk2
    refine ⟨hs, ?_⟩
    rw [hc, show k - front q = (k - (front q + 1)) + 1 by omega, List.getElem?_cons_succ] at hd
    exact hd
  · rw [hfront] at hk2
    simp only at hk1
    rw [seq_setSequence, seq_setData]
    split <;> rename_i hm
    · obtain rfl : k = front q + 1024 := by omega
      rfl
    · exact h.free k hk1 (by omega)

theorem Rep.shutdown (h : Rep q m) : Rep { q with stopped := true } { m with stopFlag := true } :=
  ⟨h.length_le, h.tail_eq, h.head_eq, h.le_cap, h.stored, h.free, rfl⟩

/-! ## A consumer alone -/

/-- A bound on the accesses that are left, while no compare-exchange fails spuriously. -/
def rank : Pc → Nat
  | .idle | .stopStore | .sizeHead .. | .pushPublish _ => 0
  | .sizeTail _ | .pushData .. => 1
  | .pushCas .. => 2
  | .pushSeq .. => 3
  | .pushTail _ => 4
  | .pushStop _ => 5
  | .popPublish ctx _ _ => popRank ctx + 1
  | .popData ctx _ => popRank ctx + 2
  | .popCas ctx _ => popRank ctx + 3
  | .popSeq ctx _ => popRank ctx + 4
  | .popHead ctx => popRank ctx + 5
  | .batchTest batch max => popRank (.batch batch max) + 6

/-- What a consumer that runs alone relies on: the sequence at the front tells whether the list has
a task, and the accesses of a pop leave the rest of the list. -/
structure Pops (R : Fifo → Mem → Prop) : Prop where
  none : ∀ {q m}, R q m → q.tasks = [] → sdiff64 (m.cell m.head).sequence (add64 m.head 1) < 0
  some : ∀ {q m}, R q m → q.tasks ≠ [] → sdiff64 (m.cell m.head).sequence (add64 m.head 1) = 0
  pop : ∀ {q m}, R q m → q.tasks ≠ [] → ∀ x, ∃ rest, q.tasks = m.data m.head :: rest ∧
    R { q with tasks := rest } ((({ m with head := add64 m.head 1 } : Mem).setData m.head
      x).setSequence m.head (add64 m.head capacity))

theorem Rep.pops : Pops Rep where
  none hR he := by rw [hR.head_diff, if_pos he]; decide
  some hR hne := by rw [hR.head_diff, if_neg hne]
  pop hR hne x := hR.pop hne x

/-- The stages of a call that pops. -/
def PopStage (R : Fifo → Mem → Prop) (q : Fifo) (op : Op) (m : Mem) : Pc → Prop
  | .popHead ctx => ctx.More ∧ ∃ q1, ctx.At q op q1 ∧ R q1 m
  | .popSeq ctx h => ctx.More ∧ h = m.head ∧ ∃ q1, ctx.At q op q1 ∧ R q1 m
  | .popCas ctx h => ctx.More ∧ h = m.head ∧ ∃ q1, ctx.At q op q1 ∧ R q1 m ∧ q1.tasks ≠ []
  | .popData ctx h => ctx.More ∧ ∃ q1 m0, ctx.At q op q1 ∧ R q1 m0 ∧ q1.tasks ≠ [] ∧
      h = m0.head ∧ m = { m0 with head := add64 h 1 }
  | .popPublish ctx h task => ctx.More ∧ ∃ q1 m0 x, ctx.At q op q1 ∧ R q1 m0 ∧ q1.tasks ≠ [] ∧
      h = m0.head ∧ task = m0.data h ∧ m = ({ m0 with head := add64 h 1 } : Mem).setData h x
  | .batchTest batch max => ∃ q1, op = .popBatch max ∧ q.Taken batch q1 ∧ batch.length ≤ max ∧
      R q1 m
  | _ => False

/-- One access of a consumer alone: the next stage, closer to the end unless a compare-exchange
failed, or the answer of the list. -/
theorem popStage_run {R : Fifo → Mem → Prop} (hP : Pops R) (cap : Option Nat) {op : Op} {p : Pc}
    {weak : Bool} {o : Outcome} (hst : PopStage R q op m p) (ho : run m weak p = some o) :
    (o.ret = none ∧ PopStage R q op o.mem o.pc ∧ (weak = false → rank o.pc < rank p)) ∨
      (o.ret = some (q.apply cap op).1 ∧ o.pc = .idle ∧ R (q.apply cap op).2 o.mem) := by
  cases p <;> simp only [PopStage] at hst <;> simp only [run] at ho
  case popHead ctx =>
    obtain ⟨hmore, hst⟩ := hst
    cases ho
    exact .inl ⟨rfl, ⟨hmore, rfl, hst⟩, fun _ => by simp [rank]⟩
  case popSeq ctx h =>
    obtain ⟨hmore, rfl, q1, hctx, hR⟩ := hst
    by_cases he : q1.tasks = []
    · have hlt := hP.none hR he
      rw [if_neg (Int.ne_of_lt hlt), if_pos hlt] at ho
      cases ho
      rw [hctx.apply_none _ he]
      exact .inr ⟨rfl, rfl, hR⟩
    · rw [if_pos (hP.some hR he)] at ho
      cases ho
      exact .inl ⟨rfl, ⟨hmore, rfl, q1, hctx, hR, he⟩, fun _ => by simp [rank]⟩
  case popCas ctx h =>
    obtain ⟨hmore, rfl, q1, hctx, hR, hne⟩ := hst
    split at ho <;> rename_i hc <;> cases ho
    · exact .inl ⟨rfl, ⟨hmore, q1, m, hctx, hR, hne, rfl, rfl⟩, fun _ => by simp [rank]⟩
    · exact .inl ⟨rfl, ⟨hmore, rfl, q1, hctx, hR⟩, fun hw => absurd ⟨rfl, hw⟩ hc⟩
  case popData ctx h =>
    obtain ⟨hmore, q1, m0, hctx, hR, hne, rfl, rfl⟩ := hst
    cases ho
    exact .inl ⟨rfl, ⟨hmore, q1, m0, _, hctx, hR, hne, rfl, rfl, rfl⟩, fun _ => by simp [rank]⟩
  case popPublish ctx h task =>
    obtain ⟨hmore, q1, m0, x, hctx, hR, hne, rfl, rfl, rfl⟩ := hst
    obtain ⟨rest, hq, hR'⟩ := hP.pop hR hne x
    cases ho
    cases ctx with
    | pop =>
      obtain ⟨rfl, rfl⟩ := hctx
      rw [Fifo.apply_pop hq]
      exact .inr ⟨rfl, rfl, hR'⟩
    | batch batch max =>
      obtain ⟨rfl, ht, -⟩ := hctx
      have hlt : batch.length < max := hmore
      refine .inl ⟨rfl, ⟨_, rfl, ht.next hq, by rwa [List.length_append], hR'⟩, fun _ => ?_⟩
      simp only [popSome, rank, popRank, List.length_append, List.length_singleton]
      omega
  case batchTest batch max =>
    obtain ⟨q1, rfl, ht, hle, hR⟩ := hst
    split at ho <;> rename_i hc <;> cases ho
    · exact .inl ⟨rfl, ⟨hc, q1, ⟨rfl, ht, hle⟩, hR⟩, fun _ => by simp [rank]⟩
    · rw [ht.apply_popBatch (.inl (by omega))]
      exact .inr ⟨rfl, rfl, hR⟩

/-! ## The stages of a call -/

def Stage (q : Fifo) (op : Op) (m : Mem) : Pc → Prop
  | .idle => False
  | .pushStop task => op = .push task ∧ Rep q m
  | .pushTail task => op = .push task ∧ q.stopped = false ∧ Rep q m
  | .pushSeq task t => op = .push task ∧ q.stopped = false ∧ t = m.tail ∧ Rep q m
  | .pushCas task t => op = .push task ∧ q.stopped = false ∧ t = m.tail ∧ ¬ q.Full (some 1024) ∧
      Rep q m
  | .pushData task t => op = .push task ∧ q.stopped = false ∧ ¬ q.Full (some 1024) ∧
      ∃ m0, Rep q m0 ∧ t = m0.tail ∧ m = { m0 with tail := add64 t 1 }
  | .pushPublish t => ∃ task, op = .push task ∧ q.stopped = false ∧ ¬ q.Full (some 1024) ∧
      ∃ m0, Rep q m0 ∧ t = m0.tail ∧ m = ({ m0 with tail := add64 t 1 } : Mem).setData t task
  | .popHead ctx => ctx.More ∧ ∃ q1, ctx.At q op q1 ∧ Rep q1 m
  | .popSeq ctx h => ctx.More ∧ h = m.head ∧ ∃ q1, ctx.At q op q1 ∧ Rep q1 m
  | .popCas ctx h => ctx.More ∧ h = m.head ∧ ∃ q1, ctx.At q op q1 ∧ Rep q1 m ∧ q1.tasks ≠ []
  | .popData ctx h => ctx.More ∧ ∃ q1 m0, ctx.At q op q1 ∧ Rep q1 m0 ∧ q1.tasks ≠ [] ∧
      h = m0.head ∧ m = { m0 with head := add64 h 1 }
  | .popPublish ctx h task => ctx.More ∧ ∃ q1 m0 x, ctx.At q op q1 ∧ Rep q1 m0 ∧ q1.tasks ≠ [] ∧
      h = m0.head ∧ task = m0.data h ∧ m = ({ m0 with head := add64 h 1 } : Mem).setData h x
  | .batchTest batch max => ∃ q1, op = .popBatch max ∧ q.Taken batch q1 ∧ batch.length ≤ max ∧
      Rep q1 m
  | .sizeTail e => op = (if e then .empty else .size) ∧ Rep q m
  | .sizeHead e t => op = (if e then .empty else .size) ∧ t = m.tail ∧ Rep q m
  | .stopStore => op = .shutdown ∧ Rep q m

/-- `size` and `empty` are called while `tail` is below `2 ^ 64`. -/
def Ok (q : Fifo) (op : Op) : Prop := op = .size ∨ op = .empty → q.pushed < 2 ^ 64

theorem stage_entry {op : Op} (h : Rep q m) : Stage q op m (entry op) := by
  cases op with
  | pop => exact ⟨trivial, q, ⟨rfl, rfl⟩, h⟩
  | popBatch max => exact ⟨q, rfl, .refl q, Nat.zero_le max, h⟩
  | _ => exact ⟨rfl, h⟩

/-- The stages of a call that pops are among those of all calls. -/
theorem Stage.of_pop {op : Op} {p : Pc} (h : PopStage Rep q op m p) : Stage q op m p := by
  cases p <;> first | exact h | exact h.elim

/-- One access of a lone call: the next stage, closer to the end unless a compare-exchange failed,
or the answer of the list. -/
theorem stage_run {op : Op} {p : Pc} {weak : Bool} {o : Outcome} (hok : Ok q op)
    (hst : Stage q op m p) (ho : run m weak p = some o) :
    (o.ret = none ∧ Stage q op o.mem o.pc ∧ (weak = false → rank o.pc < rank p)) ∨
      (o.ret = some (q.apply (some 1024) op).1 ∧ o.pc = .idle ∧
        Rep (q.apply (some 1024) op).2 o.mem) := by
  have hpop : ∀ {p}, PopStage Rep q op m p → run m weak p = some o →
      (o.ret = none ∧ Stage q op o.mem o.pc ∧ (weak = false → rank o.pc < rank p)) ∨
        (o.ret = some (q.apply (some 1024) op).1 ∧ o.pc = .idle ∧
          Rep (q.apply (some 1024) op).2 o.mem) := fun hst ho =>
    (popStage_run Rep.pops (some 1024) hst ho).imp (fun h => ⟨h.1, .of_pop h.2.1, h.2.2⟩) id
  cases p <;> simp only [Stage] at hst <;> simp only [run] at ho
  case pushStop task =>
    obtain ⟨rfl, hR⟩ := hst
    have hstop := hR.stop
    split at ho <;> rename_i hc <;> cases ho
    · rw [Fifo.apply_push_stopped (hstop.symm.trans hc)]
      exact .inr ⟨rfl, rfl, hR⟩
    · refine .inl ⟨rfl, ⟨rfl, ?_, hR⟩, fun _ => by simp [rank]⟩
      rw [← hstop]
      exact Bool.not_eq_true _ ▸ hc
  case pushTail task =>
    obtain ⟨rfl, hs, hR⟩ := hst
    cases ho
    exact .inl ⟨rfl, ⟨rfl, hs, rfl, hR⟩, fun _ => by simp [rank]⟩
  case pushSeq task t =>
    obtain ⟨rfl, hs, rfl, hR⟩ := hst
    rw [hR.tail_diff] at ho
    by_cases hf : q.Full (some 1024)
    · rw [if_pos hf] at ho
      cases ho
      rw [Fifo.apply_push_full hf]
      exact .inr ⟨rfl, rfl, hR⟩
    · rw [if_neg hf] at ho
      cases ho
      exact .inl ⟨rfl, ⟨rfl, hs, rfl, hf, hR⟩, fun _ => by simp [rank]⟩
  case pushCas task t =>
    obtain ⟨rfl, hs, rfl, hf, hR⟩ := hst
    split at ho <;> rename_i hc <;> cases ho
    · exact .inl ⟨rfl, ⟨rfl, hs, hf, m, hR, rfl, rfl⟩, fun _ => by simp [rank]⟩
    · exact .inl ⟨rfl, ⟨rfl, hs, rfl, hR⟩, fun hw => absurd ⟨rfl, hw⟩ hc⟩
  case pushData task t =>
    obtain ⟨rfl, hs, hf, m0, hR, rfl, rfl⟩ := hst
    cases ho
    exact .inl ⟨rfl, ⟨task, rfl, hs, hf, m0, hR, rfl, rfl⟩, fun _ => by simp [rank]⟩
  case pushPublish t =>
    obtain ⟨task, rfl, hs, hf, m0, hR, rfl, rfl⟩ := hst
    cases ho
    rw [Fifo.apply_push hs hf]
    exact .inr ⟨rfl, rfl, hR.push hf _⟩
  case popHead ctx => exact hpop hst ho
  case popSeq ctx h => exact hpop hst ho
  case popCas ctx h => exact hpop hst ho
  case popData ctx h => exact hpop hst ho
  case popPublish ctx h task => exact hpop hst ho
  case batchTest batch max => exact hpop hst ho
  case sizeTail e =>
    obtain ⟨rfl, hR⟩ := hst
    cases ho
    exact .inl ⟨rfl, ⟨rfl, rfl, hR⟩, fun _ => by simp [rank]⟩
  case sizeHead e t =>
    obtain ⟨rfl, rfl, hR⟩ := hst
    cases ho
    have hlt : q.pushed < 2 ^ 64 := hok (by cases e <;> simp)
    rw [hR.size_eq hlt]
    exact .inr (by cases e <;> exact ⟨rfl, rfl, hR⟩)
  case stopStore =>
    obtain ⟨rfl, hR⟩ := hst
    cases ho
    exact .inr ⟨rfl, rfl, hR.shutdown⟩

theorem run_enabled {p : Pc} (hp : p ≠ .idle) (weak : Bool) : ∃ o, run m weak p = some o := by
  cases p <;> simp only [run]
  case idle => exact absurd rfl hp
  all_goals (repeat' split) <;> exact ⟨_, rfl⟩

/-- Calls one at a time do what the list of capacity `1024` does. -/
theorem implements {ι : Type*} [DecidableEq ι] :
    Implements (impl ι) false (Fifo.apply (some 1024)) Ok Rep := by
  refine (Alone.of_stages (fun q op m p => Ok q op ∧ Stage q op m p) rank
    (fun q op m hR hok => ⟨hok, stage_entry hR⟩) (fun i q op m p c o hst ho => ?_)
    fun i q op m p hst => run_enabled (fun hp => ?_) false).implements
  · exact (stage_run hst.1 hst.2 ho).imp (fun h => ⟨h.1, ⟨hst.1, h.2.1⟩, h.2.2⟩) id
  · subst hp
    exact hst.2

/-- A lone push that finds the flag set touches nothing. -/
theorem push_stopped {ι : Type*} [DecidableEq ι] {s s' : State ι} {task : InferenceTask} {r : Ret}
    (hstop : s.mem.stopFlag = true) (hs : Solo (impl ι) s (.push task) r s') : s'.mem = s.mem := by
  refine hs.of_first (Q := fun _ m => m = s.mem) ?_
  intro i c o ho
  change run s.mem c (.pushStop task) = some o at ho
  rw [run, if_pos hstop] at ho
  cases ho
  exact ⟨_, rfl, rfl, rfl⟩

end Lumen.Concurrency.MPMCTaskQueue
