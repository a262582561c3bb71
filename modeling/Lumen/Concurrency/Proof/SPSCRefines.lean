import Lumen.Concurrency.AtomicTaskQueue
import Lumen.Concurrency.Proof.SPSCInv

/-!
# `SPSCTaskQueue` refines the task queue

For one producer and one consumer. A task is accepted with the store of `tail`, taken with the move
out of its slot, and its slot given back with the store of `head`.
-/

set_option autoImplicit false

namespace Lumen.Concurrency.SPSCTaskQueue

open Lumen.Lib Lumen.Lib.Shared Lumen.Core ITaskQueue

variable {ι : Type*}

/-- Where the task queue is when a thread of the ring, of which `k` tasks are popped, is at its
access. -/
def Follows (k : Nat) : Pc → AtomicTaskQueue.Pc → Prop
  | .idle, q => q = .idle
  | .pushStop task, q => q = .pushTest task
  | .pushTail task, q | .pushHead task _, q | .pushWrite task _, q | .pushStore task _, q =>
    q = .push task
  | .popHead ctx, q | .popTail ctx _, q | .popMove ctx _, q =>
    q = .pop ctx ∧ ctx.taken.length < ctx.max
  | .popStore ctx _ task, q => q = .release ctx k task ∧ ctx.taken.length < ctx.max
  | .batchTest batch max, q => q = .pop (.batch batch max) ∧ batch.length ≤ max
  | .sizeTail e, q | .sizeHead e _, q => q = .size e
  | .stopStore, q => q = .shutdown

/-- The ring `s`, which has accepted `W` and of which `R` are popped, stands for the queue `t`. -/
structure Follow (p c : ι) (W R : List InferenceTask) (s : State ι)
    (t : AtomicTaskQueue.State ι) : Prop where
  inv : Inv p c W R s
  tasks : t.mem.tasks = (W.drop (R.length + (s.pc c).moved)).map Job.plain
  accepted : t.mem.accepted = W.length
  unreleased : t.mem.unreleased = List.range' R.length (s.pc c).moved
  stopped : t.mem.stopped = s.mem.stopFlag
  pc : ∀ i, Follows R.length (s.pc i) (t.pc i)

/-- The ring stands for the queue. -/
def StandsFor (p c : ι) (s : State ι) (t : AtomicTaskQueue.State ι) : Prop :=
  ∃ W R, Follow p c W R s t

section
variable {p c i : ι} {W R : List InferenceTask} {s : State ι} {t : AtomicTaskQueue.State ι}

/-- Only the consumer is between its two accesses to a slot. -/
theorem Follow.other (hf : Follow p c W R s t) {j : ι} (hj : j ≠ c) (k : Nat) :
    Follows k (s.pc j) (t.pc j) := by
  have h := hf.pc j
  have hok := hf.inv.thread j
  cases hpc : s.pc j <;> rw [hpc] at h hok <;> try exact h
  case popStore => exact absurd hok.1 hj

theorem Inv.moved_le (hi : Inv p c W R s) : R.length + (s.pc c).moved ≤ W.length := by
  have hok := hi.thread c
  have hle := hi.ring.le
  cases hpc : s.pc c <;> rw [hpc] at hok <;> simp only [Pc.moved] <;> try omega
  case popStore => exact hok.2.2.1

theorem Follow.full_iff (hf : Follow p c W R s t) :
    t.mem.full .spsc = true ↔ W.length = R.length + 1023 := by
  have hle := hf.inv.ring.le_cap
  have hmoved := hf.inv.moved_le
  simp only [TaskQueue.full, decide_eq_true_eq, hf.tasks, hf.unreleased, List.length_map,
    List.length_drop, List.length_range']
  omega

variable [DecidableEq ι]

/-- An access that completes nothing. -/
theorem Follow.keep (hf : Follow p c W R s t) {m : Mem} {x : Pc} {q : AtomicTaskQueue.Pc}
    (hi : Inv p c W R (s.moved i m x)) (hstop : m.stopFlag = s.mem.stopFlag)
    (hx : x.moved = (s.pc i).moved) (hq : Follows R.length x q) :
    StandsFor p c (s.moved i m x) (t.moved i t.mem q) := by
  have hmoved : ((s.moved i m x).pc c).moved = (s.pc c).moved := moved_update hx
  refine ⟨W, R, hi, ?_, hf.accepted, ?_, hf.stopped.trans hstop.symm,
    State.pcs_moved (P := fun _ => Follows R.length) hq fun j _ => hf.pc j⟩
  · rw [hmoved]
    exact hf.tasks
  · rw [hmoved]
    exact hf.unreleased

/-! ## The steps of the queue -/

/-- The producer publishes its slot: the task is accepted. -/
theorem Follow.accept (hf : Follow p c W R s t) {task : InferenceTask} {k : Nat}
    (hpc : s.pc i = .pushStore task k)
    (hi : Inv p c (W ++ [task]) R (s.moved i { s.mem with tail := add64 k 1 } .idle)) :
    t.mem.full .spsc = false ∧
      StandsFor p c (s.moved i { s.mem with tail := add64 k 1 } .idle)
        (t.moved i { t.mem with tasks := t.mem.tasks ++ [Job.plain task],
                                accepted := t.mem.accepted + 1 } .idle) := by
  have hok := hf.inv.thread i
  simp only [hpc, ThreadOk] at hok
  have hmoved : ((s.moved i { s.mem with tail := add64 k 1 } .idle).pc c).moved =
      (s.pc c).moved := moved_update (by rw [hpc]; rfl)
  constructor
  · rw [Bool.eq_false_iff, ne_eq, hf.full_iff]
    omega
  · refine ⟨_, R, hi, ?_, ?_, ?_, hf.stopped,
      State.pcs_moved (P := fun _ => Follows R.length) rfl fun j _ => hf.pc j⟩
    · rw [hmoved, List.drop_append_of_le_length hf.inv.moved_le, List.map_append, ← hf.tasks]
      rfl
    · rw [List.length_append]
      exact congrArg (· + 1) hf.accepted
    · rw [hmoved]
      exact hf.unreleased

/-- The consumer moves the front out of its slot. -/
theorem Follow.take (hf : Follow p c W R s t) {ctx : PopCtx} {k : Nat} {m : Mem}
    (hpc : s.pc i = .popMove ctx k) (hlt : ctx.taken.length < ctx.max)
    (hstop : m.stopFlag = s.mem.stopFlag)
    (hi : Inv p c W R (s.moved i m (.popStore ctx k (s.mem.buffer (k &&& mask))))) :
    ∃ task q, t.mem.take = some (R.length, Job.plain task, q) ∧
      StandsFor p c (s.moved i m (.popStore ctx k (s.mem.buffer (k &&& mask))))
        (t.moved i q (.release ctx R.length task)) := by
  have hok := hf.inv.thread i
  simp only [hpc, ThreadOk] at hok
  obtain ⟨rfl, rfl, hk⟩ := hok
  have htasks := hf.tasks
  have hring := hf.inv.ring
  have hun := hf.unreleased
  rw [hpc] at htasks hring hun
  have hget := hring.head_task hk
  rw [List.getElem?_eq_getElem hk, Option.some.injEq] at hget
  rw [show R.length + (Pc.popMove ctx s.mem.head).moved = R.length from rfl,
    List.drop_eq_getElem_cons hk, hget] at htasks
  have htake := TaskQueue.take_cons htasks
  have hticket : t.mem.accepted - t.mem.tasks.length = R.length := by
    rw [htasks, hf.accepted]
    simp only [List.map_cons, List.length_cons, List.length_map, List.length_drop]
    omega
  rw [hticket] at htake
  refine ⟨_, _, htake, W, R, hi, ?_, hf.accepted, ?_, hf.stopped.trans hstop.symm,
    State.pcs_moved (P := fun _ => Follows R.length) ⟨rfl, hlt⟩ fun j _ => hf.pc j⟩
  · rw [State.moved_pc]
    rfl
  · rw [State.moved_pc, State.moved_mem, hun]
    rfl

/-- The consumer gives the slot back. -/
theorem Follow.release (hf : Follow p c W R s t) {ctx : PopCtx} {k : Nat} {task : InferenceTask}
    {x : Pc} {q : AtomicTaskQueue.Pc} (hpc : s.pc i = .popStore ctx k task)
    (hi : Inv p c W (R ++ [task]) (s.moved i { s.mem with head := add64 k 1 } x))
    (hx : x.moved = 0) (hq : ∀ n, Follows n x q) :
    StandsFor p c (s.moved i { s.mem with head := add64 k 1 } x)
      (t.moved i (t.mem.release R.length) q) := by
  have hok := hf.inv.thread i
  simp only [hpc, ThreadOk] at hok
  obtain ⟨rfl, -⟩ := hok
  have hlen : (R ++ [task]).length = R.length + 1 := by simp
  refine ⟨W, R ++ [task], hi, ?_, hf.accepted, ?_, hf.stopped,
    State.pcs_moved (P := fun _ => Follows _) (hq _) fun j hj => hf.other hj _⟩
  · rw [State.moved_pc, hx, hlen]
    exact hf.tasks.trans (by rw [hpc]; rfl)
  · rw [State.moved_pc, State.moved_mem, hx, TaskQueue.release, hf.unreleased, hpc]
    simp [Pc.moved]

/-- The queue is closed. -/
theorem Follow.stop (hf : Follow p c W R s t) (hpc : s.pc i = .stopStore)
    (hi : Inv p c W R (s.moved i { s.mem with stopFlag := true } .idle)) :
    StandsFor p c (s.moved i { s.mem with stopFlag := true } .idle)
      (t.moved i t.mem.shutdown .idle) := by
  have hmoved : ((s.moved i { s.mem with stopFlag := true } .idle).pc c).moved =
      (s.pc c).moved := moved_update (by rw [hpc]; rfl)
  refine ⟨W, R, hi, ?_, hf.accepted, ?_, rfl,
    State.pcs_moved (P := fun _ => Follows R.length) rfl fun j _ => hf.pc j⟩
  · rw [hmoved]
    exact hf.tasks
  · rw [hmoved]
    exact hf.unreleased

/-! ## Every access -/

theorem run_refines (hrel : StandsFor p c s t) {o : Outcome} (ho : run s.mem (s.pc i) = some o) :
    ∃ m q, (AtomicTaskQueue.impl ι .spsc).Moves i t.mem (t.pc i) [] o.ret m q ∧
      StandsFor p c (s.moved i o.mem o.pc) (t.moved i m q) := by
  obtain ⟨W, R, hf⟩ := hrel
  have hok := hf.inv.thread i
  have hpos := hf.pc i
  have hinv := run_inv hf.inv ho
  -- an access that stores no counter
  have hquiet : pushed (o.events i) = [] → popped (o.events i) = [] →
      Inv p c W R (s.moved i o.mem o.pc) := fun h1 h2 => by
    rwa [h1, h2, List.append_nil, List.append_nil] at hinv
  -- an access with which nothing happens to the queue
  have keep : ∀ {q q'}, t.pc i = q →
      (AtomicTaskQueue.impl ι .spsc).Moves i t.mem q [] o.ret t.mem q' →
      Inv p c W R (s.moved i o.mem o.pc) → o.mem.stopFlag = s.mem.stopFlag →
      o.pc.moved = (s.pc i).moved → Follows R.length o.pc q' →
      ∃ m q, (AtomicTaskQueue.impl ι .spsc).Moves i t.mem (t.pc i) [] o.ret m q ∧
        StandsFor p c (s.moved i o.mem o.pc) (t.moved i m q) := fun hq hm hi hs hp hfol => by
    rw [hq]
    exact ⟨t.mem, _, hm, hf.keep hi hs hp hfol⟩
  cases hpc : s.pc i <;> simp only [hpc, ThreadOk] at hok <;> simp only [hpc, run] at ho <;>
    simp only [hpc, Follows] at hpos
  case idle => cases ho
  case pushStop task =>
    split at ho <;> rename_i hc <;> cases ho
    · exact keep hpos (AtomicTaskQueue.moves_closed (hf.stopped.trans hc)) (hquiet rfl rfl) rfl
        (by rw [hpc]; rfl) rfl
    · rw [Bool.not_eq_true] at hc
      exact keep hpos (AtomicTaskQueue.moves_open (hf.stopped.trans hc)) (hquiet rfl rfl) rfl
        (by rw [hpc]; rfl) rfl
  case pushTail task =>
    cases ho
    exact keep hpos .stay (hquiet rfl rfl) rfl (by rw [hpc]; rfl) rfl
  case pushHead task k =>
    obtain ⟨-, rfl⟩ := hok
    split at ho <;> rename_i hc <;> cases ho
    · exact keep hpos (AtomicTaskQueue.moves_full (hf.full_iff.2 (hf.inv.ring.full_iff.1 hc)))
        (hquiet rfl rfl) rfl (by rw [hpc]; rfl) rfl
    · exact keep hpos .stay (hquiet rfl rfl) rfl (by rw [hpc]; rfl) rfl
  case pushWrite task k =>
    cases ho
    exact keep hpos .stay (hquiet rfl rfl) rfl (by rw [hpc]; rfl) rfl
  case pushStore task k =>
    cases ho
    have hi : Inv p c (W ++ [task]) (R ++ []) _ := hinv
    rw [List.append_nil] at hi
    obtain ⟨hfull, hrel⟩ := hf.accept hpc hi
    rw [hpos]
    exact ⟨_, _, (AtomicTaskQueue.moves_push hfull).trans AtomicTaskQueue.moves_return, hrel⟩
  case popHead ctx =>
    cases ho
    exact keep hpos.1 .stay (hquiet rfl rfl) rfl (by rw [hpc]; rfl) ⟨rfl, hpos.2⟩
  case popTail ctx k =>
    obtain ⟨rfl, rfl⟩ := hok
    split at ho <;> rename_i hc <;> cases ho
    · have hnil : t.mem.tasks = [] := by
        rw [hf.tasks, List.drop_eq_nil_of_le (Nat.le_add_right_of_le
          (hf.inv.ring.empty_iff.1 hc).le), List.map_nil]
      exact keep hpos.1 (AtomicTaskQueue.moves_end (decide_eq_true (.inr hnil))) (hquiet rfl rfl)
        rfl (by rw [hpc]; rfl) rfl
    · exact keep hpos.1 .stay (hquiet rfl rfl) rfl (by rw [hpc]; rfl) ⟨rfl, hpos.2⟩
  case popMove ctx k =>
    cases ho
    obtain ⟨task, q, htake, hrel⟩ := hf.take hpc hpos.2 (stopFlag_write ..) (hquiet rfl rfl)
    rw [hpos.1]
    exact ⟨_, _, AtomicTaskQueue.moves_take hpos.2 htake, hrel⟩
  case popStore ctx k task =>
    cases ho
    rw [hpos.1]
    cases ctx with
    | pop =>
      have hi : Inv p c (W ++ []) (R ++ [task]) _ := hinv
      rw [List.append_nil] at hi
      exact ⟨_, _, AtomicTaskQueue.moves_popped, hf.release hpc hi rfl fun _ => rfl⟩
    | batch batch max =>
      have hi : Inv p c (W ++ []) (R ++ [task]) _ := hinv
      rw [List.append_nil] at hi
      refine ⟨_, _, AtomicTaskQueue.moves_release, hf.release hpc hi rfl fun _ => ⟨rfl, ?_⟩⟩
      rw [List.length_append]
      exact hpos.2
  case batchTest batch max =>
    split at ho <;> rename_i hlt <;> cases ho
    · exact keep hpos.1 .stay (hquiet rfl rfl) rfl (by rw [hpc]; rfl) ⟨rfl, hlt⟩
    · exact keep hpos.1 (AtomicTaskQueue.moves_end (decide_eq_true (.inl (by
        have := hpos.2
        simp only [PopCtx.taken, PopCtx.max]
        omega)))) (hquiet rfl rfl) rfl (by rw [hpc]; rfl) rfl
  case sizeTail e =>
    cases ho
    exact keep hpos .stay (hquiet rfl rfl) rfl (by rw [hpc]; rfl) rfl
  case sizeHead e k =>
    cases ho
    exact keep hpos (AtomicTaskQueue.moves_size _) (hquiet rfl rfl) rfl (by rw [hpc]; rfl) rfl
  case stopStore =>
    cases ho
    rw [hpos]
    exact ⟨_, _, AtomicTaskQueue.moves_shutdown, hf.stop hpc (hquiet rfl rfl)⟩

theorem refines (p c : ι) : (impl ι).Refines (AtomicTaskQueue.impl ι .spsc) (fun _ => none)
    (Roles p c []) (StandsFor p c) where
  init := by
    exact ⟨[], [], init_inv p c, rfl, rfl, rfl, rfl, fun i => rfl⟩
  call := by
    rintro s t i op ⟨W, R, hf⟩ hc hpc
    have hidle := hf.pc i
    rw [hpc] at hidle
    have hentry : (entry op).moved = 0 ∧ ThreadOk p c W R.length s.mem i (entry op) ∧
        Follows R.length (entry op) (AtomicTaskQueue.entry op) := by
      cases op <;> refine ⟨rfl, hc, ?_⟩ <;>
        simp [Follows, entry, AtomicTaskQueue.entry, PopCtx.taken, PopCtx.max]
    obtain ⟨hm, hok, hfol⟩ := hentry
    refine ⟨hidle, hf.keep (hf.inv.keep rfl rfl rfl ?_ hok) rfl ?_ hfol⟩
    · rw [hpc]
      exact hm
    · rw [hpc]
      exact hm
  run s t i c o hrel _ ho := by
    rw [show o.obs.filterMap (fun _ => (none : Option Empty)) = [] from
      List.filterMap_eq_nil_iff.2 fun _ _ => rfl]
    exact run_refines hrel ho

omit [DecidableEq ι] in
theorem returns : (impl ι).Returns := by
  intro i m c x o r ho hr
  replace ho : run m x = some o := ho
  cases x <;> simp only [run] at ho
  case popStore ctx k task =>
    cases ho
    cases ctx with
    | pop => rfl
    | batch => cases hr
  all_goals
    (repeat' split at ho) <;> cases ho <;> first | rfl | cases hr

/-! ## What the ring holds -/

/-- The tasks stored in the ring, oldest first. -/
def Mem.ring (m : Mem) : List InferenceTask :=
  (List.range (sub64 m.tail m.head)).map fun k => m.buffer ((m.head + k) &&& mask)

omit [DecidableEq ι] in
/-- Between the operations of the consumer the queue holds what the ring stores. -/
theorem StandsFor.ring (hrel : StandsFor p c s t) (hc : s.pc c = .idle) :
    t.mem.tasks = s.mem.ring.map .plain := by
  obtain ⟨W, R, hf⟩ := hrel
  have htasks := hf.tasks
  have hring := hf.inv.ring
  rw [hc] at htasks hring
  rw [htasks]
  refine congrArg (List.map _) (List.ext_getElem? fun k => ?_)
  have hle := hring.le
  rw [Mem.ring, hring.size_eq, List.getElem?_drop, List.getElem?_map]
  by_cases hk : k < W.length - R.length
  · rw [List.getElem?_range hk, Option.map_some, and_mask_eq, hring.head_eq,
      show R.length + (Pc.idle).moved + k = R.length + k from rfl,
      hring.stored (R.length + k) (Nat.le_add_right ..) (by omega)]
    congr 2
    omega
  · rw [List.getElem?_eq_none (by simp only [Pc.moved]; omega),
      List.getElem?_eq_none (by simpa using hk)]
    rfl

end
end Lumen.Concurrency.SPSCTaskQueue
