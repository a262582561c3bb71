import Lumen.Concurrency.SPSCTaskQueue

/-!
# The ring invariant of `SPSCTaskQueue`

`Ring W k lo m`: the memory has accepted the tasks `W`, of which the first `k` are popped, and the
slots of the tickets from `lo` on hold their tasks. The counters are the two lengths modulo
`2 ^ 64`, at most `1023` apart, so the masked test for fullness and the raw test for emptiness are
exact (`Ring.full_iff`, `Ring.empty_iff`), however many laps the ring has made.

`Inv p c W R s` adds what the producer `p` and the consumer `c` know: each one's copy of its own
counter is current, the other's counter has only moved away since. `inv` shows it of every state
that is reached with one producer and one consumer.
-/

set_option autoImplicit false

namespace Lumen.Concurrency.SPSCTaskQueue

open Lumen.Lib Lumen.Lib.Shared Lumen.Core ITaskQueue

/-! ## The ring -/

structure Ring (W : List InferenceTask) (k lo : Nat) (m : Mem) : Prop where
  tail_eq : m.tail = W.length % 2 ^ 64
  head_eq : m.head = k % 2 ^ 64
  le : k ≤ W.length
  le_cap : W.length ≤ k + 1023
  lo_le : k ≤ lo
  stored : ∀ j, lo ≤ j → j < W.length → W[j]? = some (m.buffer (j % 1024))

theorem and_mask_eq (k : Nat) : k &&& mask = k % 1024 := and_mask k 10

theorem buffer_write (m : Mem) (k j : Nat) (task : InferenceTask) :
    (m.write k task).buffer j = if j = k % 1024 then task else m.buffer j := by
  simp only [Mem.write, and_mask_eq, Function.update_apply]

@[simp] theorem head_write (m : Mem) (k : Nat) (task : InferenceTask) :
    (m.write k task).head = m.head := rfl
@[simp] theorem tail_write (m : Mem) (k : Nat) (task : InferenceTask) :
    (m.write k task).tail = m.tail := rfl
@[simp] theorem stopFlag_write (m : Mem) (k : Nat) (task : InferenceTask) :
    (m.write k task).stopFlag = m.stopFlag := rfl

namespace Ring

variable {W : List InferenceTask} {k lo : Nat} {m : Mem}

theorem init : Ring [] 0 0 Mem.init :=
  ⟨rfl, rfl, Nat.le_refl _, Nat.zero_le _, Nat.le_refl _, fun j _ h => absurd h (Nat.not_lt_zero j)⟩

/-- The memory may change outside the counters and the buffer. -/
theorem congr (hr : Ring W k lo m) (m' : Mem) (hb : m'.buffer = m.buffer) (hh : m'.head = m.head)
    (ht : m'.tail = m.tail) : Ring W k lo m' :=
  ⟨ht ▸ hr.tail_eq, hh ▸ hr.head_eq, hr.le, hr.le_cap, hr.lo_le, hb ▸ hr.stored⟩

theorem tail_slot (hr : Ring W k lo m) : m.tail &&& mask = W.length % 1024 := by
  rw [and_mask_eq, hr.tail_eq]
  omega

theorem head_slot (hr : Ring W k lo m) : m.head &&& mask = k % 1024 := by
  rw [and_mask_eq, hr.head_eq]
  omega

/-- The test of `push` on the masked counters. -/
theorem full_iff (hr : Ring W k lo m) :
    add64 m.tail 1 &&& mask = m.head &&& mask ↔ W.length = k + 1023 := by
  have h1 := hr.le
  have h2 := hr.le_cap
  have h3 : add64 m.tail 1 &&& mask = (W.length + 1) % 1024 := by
    rw [and_mask_eq, hr.tail_eq, add64]
    omega
  rw [h3, hr.head_slot]
  omega

/-- The test of `pop` on the counters themselves. -/
theorem empty_iff (hr : Ring W k lo m) : m.head = m.tail ↔ W.length = k := by
  have h1 := hr.le
  have h2 := hr.le_cap
  rw [hr.head_eq, hr.tail_eq]
  omega

theorem size_eq (hr : Ring W k lo m) : sub64 m.tail m.head = W.length - k := by
  have h1 := hr.le
  have h2 := hr.le_cap
  rw [hr.head_eq, hr.tail_eq, sub64]
  omega

/-- The slot of `tail` holds no stored task. -/
theorem write (hr : Ring W k lo m) (hlt : W.length < k + 1023) (task : InferenceTask) :
    Ring W k lo (m.write m.tail task) := by
  refine ⟨hr.tail_eq, hr.head_eq, hr.le, hr.le_cap, hr.lo_le, fun j h1 h2 => ?_⟩
  have hlo := hr.lo_le
  have ht := hr.tail_slot
  rw [and_mask_eq] at ht
  rw [buffer_write, if_neg (by omega)]
  exact hr.stored j h1 h2

theorem store (hr : Ring W k lo m) (hlt : W.length < k + 1023) {task : InferenceTask}
    (hw : m.buffer (W.length % 1024) = task) :
    Ring (W ++ [task]) k lo { m with tail := add64 m.tail 1 } := by
  refine ⟨?_, hr.head_eq, ?_, ?_, hr.lo_le, fun j h1 h2 => ?_⟩
  · simp only [hr.tail_eq, add64, List.length_append, List.length_singleton]
    omega
  · rw [List.length_append]
    exact Nat.le_add_right_of_le hr.le
  · rw [List.length_append, List.length_singleton]
    omega
  · rw [List.length_append, List.length_singleton] at h2
    rcases Nat.lt_or_ge j W.length with hj | hj
    · rw [List.getElem?_append_left hj]
      exact hr.stored j h1 hj
    · obtain rfl : j = W.length := by omega
      rw [List.getElem?_concat_length, hw]

theorem head_task (hr : Ring W k k m) (hlt : k < W.length) :
    W[k]? = some (m.buffer (m.head &&& mask)) := by
  rw [hr.head_slot]
  exact hr.stored k (Nat.le_refl k) hlt

/-- Moving out of the slot of `head` leaves the later tasks alone. -/
theorem move (hr : Ring W k k m) (x : InferenceTask) : Ring W k (k + 1) (m.write m.head x) := by
  refine ⟨hr.tail_eq, hr.head_eq, hr.le, hr.le_cap, Nat.le_succ k, fun j h1 h2 => ?_⟩
  have hcap := hr.le_cap
  have hh := hr.head_slot
  rw [and_mask_eq] at hh
  rw [buffer_write, if_neg (by omega)]
  exact hr.stored j (by omega) h2

theorem advance (hr : Ring W k (k + 1) m) (hlt : k < W.length) :
    Ring W (k + 1) (k + 1) { m with head := add64 m.head 1 } := by
  refine ⟨hr.tail_eq, ?_, hlt, ?_, Nat.le_refl _, hr.stored⟩
  · simp only [hr.head_eq, add64]
    omega
  · have := hr.le_cap
    omega

end Ring

/-! ## What a history shows -/

variable {ι : Type*}

/-- The tasks whose push has returned `true`. -/
def pushed (h : List (Event ι Obs)) : List InferenceTask :=
  h.filterMap fun
    | .obs _ (.pushed task) => some task
    | _ => none

/-- The tasks popped. -/
def popped (h : List (Event ι Obs)) : List InferenceTask :=
  h.filterMap fun
    | .obs _ (.popped task) => some task
    | _ => none

@[simp] theorem pushed_append (h h' : List (Event ι Obs)) :
    pushed (h ++ h') = pushed h ++ pushed h' := List.filterMap_append

@[simp] theorem popped_append (h h' : List (Event ι Obs)) :
    popped (h ++ h') = popped h ++ popped h' := List.filterMap_append

/-! ## The invariant -/

/-- How many tickets the thread has moved out of their slots and not yet released. -/
def Pc.moved : Pc → Nat
  | .popStore .. => 1
  | _ => 0

/-- What thread `i` at `pc` knows, with the tasks `W` accepted and `k` popped. -/
def ThreadOk (p c : ι) (W : List InferenceTask) (k : Nat) (m : Mem) (i : ι) : Pc → Prop
  | .pushStop _ | .pushTail _ => i = p
  | .pushHead _ t => i = p ∧ t = m.tail
  | .pushWrite _ t => i = p ∧ t = m.tail ∧ W.length < k + 1023
  | .pushStore task t => i = p ∧ t = m.tail ∧ W.length < k + 1023 ∧
      m.buffer (W.length % 1024) = task
  | .popHead _ | .batchTest .. => i = c
  | .popTail _ h => i = c ∧ h = m.head
  | .popMove _ h => i = c ∧ h = m.head ∧ k < W.length
  | .popStore _ h task => i = c ∧ h = m.head ∧ k < W.length ∧ W[k]? = some task
  | _ => True

/-- The invariant, for the tasks `W` accepted and `R` popped. -/
structure Inv (p c : ι) (W R : List InferenceTask) (s : State ι) : Prop where
  ring : Ring W R.length (R.length + (s.pc c).moved) s.mem
  popped_eq : R = W.take R.length
  thread : ∀ i, ThreadOk p c W R.length s.mem i (s.pc i)

theorem init_inv (p c : ι) : Inv p c [] [] (impl ι).init := ⟨.init, rfl, fun _ => trivial⟩

section
variable [DecidableEq ι] {p c i : ι} {W R : List InferenceTask} {s : State ι} {m : Mem} {q : Pc}

theorem moved_update (hq : q.moved = (s.pc i).moved) :
    (Function.update s.pc i q c).moved = (s.pc c).moved := by
  by_cases hc : c = i
  · subst hc
    rw [Function.update_self, hq]
  · rw [Function.update_of_ne hc]

/-- An access that changes neither the counters nor the buffer. -/
theorem Inv.keep (hi : Inv p c W R s) (hb : m.buffer = s.mem.buffer) (hh : m.head = s.mem.head)
    (ht : m.tail = s.mem.tail) (hq : q.moved = (s.pc i).moved)
    (hok : ThreadOk p c W R.length s.mem i q) : Inv p c W R ⟨m, Function.update s.pc i q⟩ := by
  obtain ⟨buf, hd, tl, st⟩ := m
  obtain ⟨⟨buf', hd', tl', st'⟩, pc⟩ := s
  subst hb hh ht
  refine ⟨?_, hi.popped_eq, forall_update hok fun j _ => hi.thread j⟩
  have := hi.ring.congr ⟨buf, hd, tl, st⟩ rfl rfl rfl
  rwa [← moved_update (c := c) hq] at this

/-- The producer writes its slot. -/
theorem Inv.write (hi : Inv p c W R s) {task : InferenceTask} {t : Nat}
    (hpc : s.pc i = .pushWrite task t) :
    Inv p c W R ⟨s.mem.write t task, Function.update s.pc i (.pushStore task t)⟩ := by
  have hok := hi.thread i
  simp only [hpc, ThreadOk] at hok
  obtain ⟨rfl, rfl, hlt⟩ := hok
  have ht := hi.ring.tail_slot
  rw [and_mask_eq] at ht
  refine ⟨?_, hi.popped_eq, forall_update ⟨rfl, rfl, hlt, ?_⟩ fun j hj => ?_⟩
  · simp only
    rw [moved_update (by rw [hpc]; rfl)]
    exact hi.ring.write hlt task
  · rw [buffer_write, if_pos ht.symm]
  · have hjok := hi.thread j
    cases hpj : s.pc j <;> simp only [hpj, ThreadOk] at hjok ⊢ <;> try exact hjok
    case pushStore => exact absurd hjok.1 hj

/-- The producer publishes its slot. -/
theorem Inv.store (hi : Inv p c W R s) {task : InferenceTask} {t : Nat}
    (hpc : s.pc i = .pushStore task t) :
    Inv p c (W ++ [task]) R
      ⟨{ s.mem with tail := add64 t 1 }, Function.update s.pc i .idle⟩ := by
  have hok := hi.thread i
  simp only [hpc, ThreadOk] at hok
  obtain ⟨rfl, rfl, hlt, hw⟩ := hok
  have hle := hi.ring.le
  refine ⟨?_, ?_, forall_update trivial fun j hj => ?_⟩
  · simp only
    rw [moved_update (by rw [hpc]; rfl)]
    exact hi.ring.store hlt hw
  · rw [List.take_append_of_le_length hle]
    exact hi.popped_eq
  · have hjok := hi.thread j
    have hlen : W.length ≤ (W ++ [task]).length := by simp
    cases hpj : s.pc j <;> simp only [hpj, ThreadOk] at hjok ⊢ <;> try exact hjok
    case pushHead => exact absurd hjok.1 hj
    case pushWrite => exact absurd hjok.1 hj
    case pushStore => exact absurd hjok.1 hj
    case popMove => exact ⟨hjok.1, hjok.2.1, Nat.lt_of_lt_of_le hjok.2.2 hlen⟩
    case popStore =>
      refine ⟨hjok.1, hjok.2.1, Nat.lt_of_lt_of_le hjok.2.2.1 hlen, ?_⟩
      rw [List.getElem?_append_left hjok.2.2.1]
      exact hjok.2.2.2

/-- The consumer moves the oldest task out of its slot. -/
theorem Inv.move (hi : Inv p c W R s) {ctx : PopCtx} {h : Nat} (hpc : s.pc i = .popMove ctx h)
    (x : InferenceTask) :
    Inv p c W R ⟨s.mem.write h x,
      Function.update s.pc i (.popStore ctx h (s.mem.buffer (h &&& mask)))⟩ := by
  have hok := hi.thread i
  simp only [hpc, ThreadOk] at hok
  obtain ⟨rfl, rfl, hlt⟩ := hok
  have hring : Ring W R.length R.length s.mem := by
    have := hi.ring
    rwa [hpc] at this
  refine ⟨?_, hi.popped_eq, forall_update ⟨rfl, rfl, hlt, hring.head_task hlt⟩ fun j hj => ?_⟩
  · simp only [Function.update_self]
    exact hring.move x
  · have hjok := hi.thread j
    cases hpj : s.pc j <;> simp only [hpj, ThreadOk] at hjok ⊢ <;> try exact hjok
    case pushStore =>
      refine ⟨hjok.1, hjok.2.1, hjok.2.2.1, ?_⟩
      have hh := hring.head_slot
      rw [and_mask_eq] at hh
      rw [buffer_write, if_neg (by omega)]
      exact hjok.2.2.2

/-- The consumer releases the slot. -/
theorem Inv.advance (hi : Inv p c W R s) {ctx : PopCtx} {h : Nat} {task : InferenceTask}
    (hpc : s.pc i = .popStore ctx h task) (hq : q.moved = 0)
    (hok : ∀ m, ThreadOk p c W (R.length + 1) m i q) :
    Inv p c W (R ++ [task])
      ⟨{ s.mem with head := add64 h 1 }, Function.update s.pc i q⟩ := by
  have hti := hi.thread i
  simp only [hpc, ThreadOk] at hti
  obtain ⟨rfl, rfl, hlt, hw⟩ := hti
  have hring : Ring W R.length (R.length + 1) s.mem := by
    have := hi.ring
    rwa [hpc] at this
  have hlen : (R ++ [task]).length = R.length + 1 := by simp
  refine ⟨?_, ?_, forall_update ?_ fun j hj => ?_⟩
  · simp only [Function.update_self, hq, hlen]
    exact hring.advance hlt
  · rw [hlen, List.take_add_one, ← hi.popped_eq, hw, Option.toList_some]
  · rw [hlen]
    exact hok _
  · have hjok := hi.thread j
    rw [hlen]
    cases hpj : s.pc j <;> simp only [hpj, ThreadOk] at hjok ⊢ <;> try exact hjok
    case pushWrite => exact ⟨hjok.1, hjok.2.1, by omega⟩
    case pushStore => exact ⟨hjok.1, hjok.2.1, by omega, hjok.2.2.2⟩
    case popTail => exact absurd hjok.1 hj
    case popMove => exact absurd hjok.1 hj
    case popStore => exact absurd hjok.1 hj

/-! ## Every step -/

theorem run_inv (hi : Inv p c W R s) {o : Outcome} (ho : run s.mem (s.pc i) = some o) :
    Inv p c (W ++ pushed (o.events i)) (R ++ popped (o.events i))
      ⟨o.mem, Function.update s.pc i o.pc⟩ := by
  have hok := hi.thread i
  have keep : pushed (o.events i) = [] → popped (o.events i) = [] →
      Inv p c W R ⟨o.mem, Function.update s.pc i o.pc⟩ →
      Inv p c (W ++ pushed (o.events i)) (R ++ popped (o.events i))
        ⟨o.mem, Function.update s.pc i o.pc⟩ := by
    intro h1 h2 h
    rw [h1, h2, List.append_nil, List.append_nil]
    exact h
  cases hpc : s.pc i <;> simp only [hpc, ThreadOk] at hok <;> simp only [hpc, run] at ho
  case idle => cases ho
  case pushStop task =>
    split at ho <;> cases ho
    · exact keep rfl rfl (hi.keep rfl rfl rfl (by rw [hpc]; rfl) trivial)
    · exact keep rfl rfl (hi.keep rfl rfl rfl (by rw [hpc]; rfl) hok)
  case pushTail task =>
    cases ho
    exact keep rfl rfl (hi.keep rfl rfl rfl (by rw [hpc]; rfl) ⟨hok, rfl⟩)
  case pushHead task t =>
    obtain ⟨rfl, rfl⟩ := hok
    have hfull := hi.ring.full_iff
    have hcap := hi.ring.le_cap
    split at ho <;> rename_i hc <;> cases ho
    · exact keep rfl rfl (hi.keep rfl rfl rfl (by rw [hpc]; rfl) trivial)
    · refine keep rfl rfl (hi.keep rfl rfl rfl (by rw [hpc]; rfl) ⟨rfl, rfl, ?_⟩)
      have := mt hfull.2 hc
      omega
  case pushWrite task t =>
    cases ho
    exact keep rfl rfl (hi.write hpc)
  case pushStore task t =>
    cases ho
    have := hi.store hpc
    simpa [pushed, popped, Outcome.events] using this
  case popHead ctx =>
    cases ho
    exact keep rfl rfl (hi.keep rfl rfl rfl (by rw [hpc]; rfl) ⟨hok, rfl⟩)
  case popTail ctx h =>
    obtain ⟨rfl, rfl⟩ := hok
    have hle := hi.ring.le
    split at ho <;> rename_i hc <;> cases ho
    · exact keep rfl rfl (hi.keep rfl rfl rfl (by rw [hpc]; rfl) trivial)
    · refine keep rfl rfl (hi.keep rfl rfl rfl (by rw [hpc]; rfl) ⟨rfl, rfl, ?_⟩)
      have := mt hi.ring.empty_iff.2 hc
      omega
  case popMove ctx h =>
    cases ho
    exact keep rfl rfl (hi.move hpc _)
  case popStore ctx h task =>
    cases ho
    cases ctx with
    | pop =>
      have := hi.advance (q := .idle) hpc rfl fun _ => trivial
      simpa [pushed, popped, popSome, Outcome.events] using this
    | batch batch max =>
      have := hi.advance (q := .batchTest (batch ++ [task]) max) hpc rfl fun _ => hok.1
      simpa [pushed, popped, popSome, Outcome.events] using this
  case batchTest batch max =>
    split at ho <;> cases ho
    · exact keep rfl rfl (hi.keep rfl rfl rfl (by rw [hpc]; rfl) hok)
    · exact keep rfl rfl (hi.keep rfl rfl rfl (by rw [hpc]; rfl) trivial)
  case sizeTail e =>
    cases ho
    exact keep rfl rfl (hi.keep rfl rfl rfl (by rw [hpc]; rfl) trivial)
  case sizeHead e t =>
    cases ho
    exact keep rfl rfl (hi.keep rfl rfl rfl (by rw [hpc]; rfl) trivial)
  case stopStore =>
    cases ho
    exact keep rfl rfl (hi.keep rfl rfl rfl (by rw [hpc]; rfl) trivial)

theorem step_inv {h es : List (Event ι Obs)} {s' : State ι} {l : ι × Act Unit}
    (hc : Roles p c h s l) (hi : Inv p c (pushed h) (popped h) s)
    (hs : (impl ι).step s l = some (es, s')) :
    Inv p c (pushed (h ++ es)) (popped (h ++ es)) s' := by
  rw [pushed_append, popped_append]
  obtain ⟨i, op | u⟩ := l
  · obtain ⟨hpc, rfl, rfl⟩ := Impl.step_call.1 hs
    have hm : (entry op).moved = 0 := by cases op <;> rfl
    have hok : ThreadOk p c (pushed h) (popped h).length s.mem i (entry op) := by
      cases op <;> exact hc
    have := hi.keep (i := i) rfl rfl rfl (by rw [hpc]; exact hm) hok
    simpa [pushed, popped] using this
  · obtain ⟨o, ho, rfl, rfl⟩ := Impl.step_run.1 hs
    exact run_inv hi ho

/-- **The ring invariant** holds in every state reached with one producer and one consumer. -/
theorem inv {h : List (Event ι Obs)} (hr : (lts ι).ReachIf (Roles p c) h s) :
    Inv p c (pushed h) (popped h) s := by
  refine hr.inv (I := fun h s => Inv p c (pushed h) (popped h) s) (fun s h0 => ?_)
    fun h s l es s' hi hc hs => step_inv hc hi hs
  obtain rfl : s = (impl ι).init := h0
  exact init_inv p c

end
end Lumen.Concurrency.SPSCTaskQueue
