import Lumen.Concurrency.MPMCTaskQueue

/-!
# The ring invariant of `MPMCTaskQueue`

Tickets are numbered by the compare-exchanges that win them: the `k`-th producer to win the one on
`tail` has the ticket `k`, and so has the `k`-th consumer to win the one on `head`. `tailWins` and
`headWins` list the winners of a history.

`Inv W H s` ties the counters, the cells and every thread's program counter together. The window
`[head, head + capacity)` meets every cell exactly once. Below `tail` the cell of a ticket `k` is
published (sequence `k + 1`, the `k`-th task) unless its producer is still at work; from `tail` on
it is free (sequence `k`) unless the consumer of the lap before is. A thread knows of a stale index
only that the counter has not been below it since and that sequences do not decrease.

`step_inv` shows that every step keeps it, by one lemma for each access that changes the memory,
and `inv` that every reachable state has it while fewer than `2 ^ 63` tickets were issued.
-/

set_option autoImplicit false

namespace Lumen.Concurrency.MPMCTaskQueue

open Lumen.Lib Lumen.Lib.Shared Lumen.Core ITaskQueue

variable {ι : Type*}

/-! ## What a history shows -/

/-- The winners of `tail`, with the tasks they were given: the `k`-th has the ticket `k`. -/
def tailWins (h : List (Event ι Obs)) : List (ι × InferenceTask) :=
  h.filterMap fun
    | .obs i (.tailWin _ task) => some (i, task)
    | _ => none

/-- The winners of `head`. -/
def headWins (h : List (Event ι Obs)) : List ι :=
  h.filterMap fun
    | .obs i (.headWin _) => some i
    | _ => none

@[simp] theorem tailWins_append (h h' : List (Event ι Obs)) :
    tailWins (h ++ h') = tailWins h ++ tailWins h' := List.filterMap_append

@[simp] theorem headWins_append (h h' : List (Event ι Obs)) :
    headWins (h ++ h') = headWins h ++ headWins h' := List.filterMap_append

/-! ## Cells -/

def Mem.seq (m : Mem) (k : Nat) : Nat := (m.cell k).sequence

def Mem.data (m : Mem) (k : Nat) : InferenceTask := (m.cell k).data

theorem and_mask_eq (k : Nat) : k &&& mask = k % 1024 := and_mask k 10

theorem cell_congr (m : Mem) {j k : Nat} (h : j % 1024 = k % 1024) : m.cell j = m.cell k := by
  simp [Mem.cell, and_mask_eq, h]

theorem cell_setData (m : Mem) (k j : Nat) (task : InferenceTask) :
    (m.setData k task).cell j =
      if j % 1024 = k % 1024 then { m.cell k with data := task } else m.cell j := by
  simp only [Mem.cell, Mem.setData, and_mask_eq, Function.update_apply]

theorem cell_setSequence (m : Mem) (k j v : Nat) :
    (m.setSequence k v).cell j =
      if j % 1024 = k % 1024 then { m.cell k with sequence := v } else m.cell j := by
  simp only [Mem.cell, Mem.setSequence, and_mask_eq, Function.update_apply]

theorem seq_congr (m : Mem) {j k : Nat} (h : j % 1024 = k % 1024) : m.seq j = m.seq k := by
  simp only [Mem.seq, cell_congr m h]

theorem data_congr (m : Mem) {j k : Nat} (h : j % 1024 = k % 1024) : m.data j = m.data k := by
  simp only [Mem.data, cell_congr m h]

@[simp] theorem seq_setData (m : Mem) (k j : Nat) (task : InferenceTask) :
    (m.setData k task).seq j = m.seq j := by
  simp only [Mem.seq, cell_setData]
  split
  · rename_i h
    rw [cell_congr m h]
  · rfl

theorem data_setData (m : Mem) (k j : Nat) (task : InferenceTask) :
    (m.setData k task).data j = if j % 1024 = k % 1024 then task else m.data j := by
  simp only [Mem.data, cell_setData]
  split <;> rfl

theorem seq_setSequence (m : Mem) (k j v : Nat) :
    (m.setSequence k v).seq j = if j % 1024 = k % 1024 then v else m.seq j := by
  simp only [Mem.seq, cell_setSequence]
  split <;> rfl

@[simp] theorem data_setSequence (m : Mem) (k j v : Nat) :
    (m.setSequence k v).data j = m.data j := by
  simp only [Mem.data, cell_setSequence]
  split
  · rename_i h
    rw [cell_congr m h]
  · rfl

@[simp] theorem head_setData (m : Mem) (k : Nat) (task : InferenceTask) :
    (m.setData k task).head = m.head := rfl
@[simp] theorem tail_setData (m : Mem) (k : Nat) (task : InferenceTask) :
    (m.setData k task).tail = m.tail := rfl
@[simp] theorem head_setSequence (m : Mem) (k v : Nat) : (m.setSequence k v).head = m.head := rfl
@[simp] theorem tail_setSequence (m : Mem) (k v : Nat) : (m.setSequence k v).tail = m.tail := rfl

/-! ## The invariant -/

/-- The ticket a producer has won and not yet published. -/
def Pc.tailTicket : Pc → Option Nat
  | .pushData _ t | .pushPublish t => some t
  | _ => none

/-- The ticket a consumer has won and not yet released. -/
def Pc.headTicket : Pc → Option Nat
  | .popData _ h | .popPublish _ h _ => some h
  | _ => none

/-- What thread `i` at `pc` knows of the memory. -/
def ThreadOk (W : List (ι × InferenceTask)) (H : List ι) (m : Mem) (i : ι) : Pc → Prop
  | .pushSeq _ t => t ≤ m.tail
  | .pushCas _ t => t ≤ m.tail ∧ t ≤ m.seq t
  | .pushData task t => m.head ≤ t ∧ t < m.tail ∧ m.seq t = t ∧ W[t]? = some (i, task)
  | .pushPublish t => m.head ≤ t ∧ t < m.tail ∧ m.seq t = t ∧ W[t]? = some (i, m.data t)
  | .popSeq _ h => h ≤ m.head
  | .popCas _ h => h ≤ m.head ∧ h + 1 ≤ m.seq h
  | .popData _ h => h < m.head ∧ m.tail ≤ h + capacity ∧ m.seq h = h + 1 ∧ H[h]? = some i ∧
      W[h]?.map Prod.snd = some (m.data h)
  | .popPublish _ h task => h < m.head ∧ m.tail ≤ h + capacity ∧ m.seq h = h + 1 ∧
      H[h]? = some i ∧ W[h]?.map Prod.snd = some task
  | .sizeHead _ t => t ≤ m.tail
  | _ => True

/-- The ring invariant, for the winners `W` of `tail` and `H` of `head`. -/
structure Inv (W : List (ι × InferenceTask)) (H : List ι) (s : State ι) : Prop where
  tail_eq : s.mem.tail = W.length
  head_eq : s.mem.head = H.length
  head_le : s.mem.head ≤ s.mem.tail
  tail_le : s.mem.tail ≤ s.mem.head + capacity
  stored : ∀ k, s.mem.head ≤ k → k < s.mem.tail → (∃ i, (s.pc i).tailTicket = some k) ∨
    (s.mem.seq k = k + 1 ∧ W[k]?.map Prod.snd = some (s.mem.data k))
  free : ∀ k, s.mem.tail ≤ k → k < s.mem.head + capacity → s.mem.seq k = k ∨
    ∃ i j, (s.pc i).headTicket = some j ∧ k = j + capacity
  thread : ∀ i, ThreadOk W H s.mem i (s.pc i)


section
variable {W : List (ι × InferenceTask)} {H : List ι} {s : State ι} {i j : ι} {t h : Nat}

theorem Inv.producer (hi : Inv W H s) (ht : (s.pc i).tailTicket = some t) :
    s.mem.head ≤ t ∧ t < s.mem.tail ∧ s.mem.seq t = t ∧ W[t]?.map Prod.fst = some i := by
  have h := hi.thread i
  cases hpc : s.pc i <;> simp only [hpc, Pc.tailTicket, Option.some.injEq, reduceCtorEq] at ht
  all_goals
    subst ht
    simp only [hpc, ThreadOk] at h
    exact ⟨h.1, h.2.1, h.2.2.1, by simp [h.2.2.2]⟩

theorem Inv.consumer (hi : Inv W H s) (hh : (s.pc i).headTicket = some h) :
    h < s.mem.head ∧ s.mem.tail ≤ h + capacity ∧ s.mem.seq h = h + 1 ∧ H[h]? = some i := by
  have ht := hi.thread i
  cases hpc : s.pc i <;> simp only [hpc, Pc.headTicket, Option.some.injEq, reduceCtorEq] at hh
  all_goals
    subst hh
    simp only [hpc, ThreadOk] at ht
    exact ⟨ht.1, ht.2.1, ht.2.2.1, ht.2.2.2.1⟩

/-- Two producers never work on the same cell. -/
theorem Inv.producer_unique (hi : Inv W H s) {t' : Nat} (h1 : (s.pc i).tailTicket = some t)
    (h2 : (s.pc j).tailTicket = some t') (hc : t % 1024 = t' % 1024) : i = j := by
  obtain ⟨-, -, hs, hw⟩ := hi.producer h1
  obtain ⟨-, -, hs', hw'⟩ := hi.producer h2
  have := seq_congr s.mem hc
  obtain rfl : t = t' := by omega
  rw [hw, Option.some.injEq] at hw'
  exact hw'

/-- Two consumers never work on the same cell. -/
theorem Inv.consumer_unique (hi : Inv W H s) {h' : Nat} (h1 : (s.pc i).headTicket = some h)
    (h2 : (s.pc j).headTicket = some h') (hc : h % 1024 = h' % 1024) : i = j := by
  obtain ⟨-, -, hs, hw⟩ := hi.consumer h1
  obtain ⟨-, -, hs', hw'⟩ := hi.consumer h2
  have := seq_congr s.mem hc
  obtain rfl : h = h' := by omega
  rw [hw, Option.some.injEq] at hw'
  exact hw'

/-- A producer and a consumer never work on the same cell. -/
theorem Inv.producer_consumer (hi : Inv W H s) (h1 : (s.pc i).tailTicket = some t)
    (h2 : (s.pc j).headTicket = some h) : t % 1024 ≠ h % 1024 := by
  intro hc
  obtain ⟨-, -, hs, -⟩ := hi.producer h1
  obtain ⟨-, -, hs', -⟩ := hi.consumer h2
  have := seq_congr s.mem hc
  omega

/-- A sequence that has reached `tail` makes the cell of `tail` free. -/
theorem Inv.free_at_tail (hi : Inv W H s) (hs : s.mem.tail ≤ s.mem.seq s.mem.tail) :
    s.mem.seq s.mem.tail = s.mem.tail ∧ s.mem.tail < s.mem.head + capacity := by
  have hcap : capacity = 1024 := rfl
  have hlt : s.mem.tail < s.mem.head + capacity := by
    refine Nat.lt_of_le_of_ne hi.tail_le fun he => ?_
    -- the ring is full: the cell of `tail` still belongs to the ticket `head`
    have hc := seq_congr s.mem (show s.mem.tail % 1024 = s.mem.head % 1024 by omega)
    rcases hi.stored s.mem.head (Nat.le_refl _) (by omega) with ⟨i, hp⟩ | ⟨hp, -⟩
    · have := (hi.producer hp).2.2.1
      omega
    · omega
  refine ⟨?_, hlt⟩
  rcases hi.free _ (Nat.le_refl _) hlt with h | ⟨i, j, hj, he⟩
  · exact h
  · have := (hi.consumer hj).2.2.1
    have hc := seq_congr s.mem (show s.mem.tail % 1024 = j % 1024 by omega)
    omega

/-- A sequence that has passed `head` makes the cell of `head` published. -/
theorem Inv.stored_at_head (hi : Inv W H s) (hs : s.mem.head + 1 ≤ s.mem.seq s.mem.head) :
    s.mem.head < s.mem.tail ∧ s.mem.seq s.mem.head = s.mem.head + 1 ∧
      W[s.mem.head]?.map Prod.snd = some (s.mem.data s.mem.head) := by
  have hcap : capacity = 1024 := rfl
  have hlt : s.mem.head < s.mem.tail := by
    refine Nat.lt_of_le_of_ne hi.head_le fun he => ?_
    rcases hi.free s.mem.head (by omega) (by omega) with h | ⟨i, j, hj, he⟩
    · omega
    · have := (hi.consumer hj).2.2.1
      have hc := seq_congr s.mem (show s.mem.head % 1024 = j % 1024 by omega)
      omega
  refine ⟨hlt, ?_⟩
  rcases hi.stored _ (Nat.le_refl _) hlt with ⟨i, hp⟩ | h
  · have := (hi.producer hp).2.2.1
    omega
  · exact h

/-- The cell of any index is that of one ticket `k'` of the window: in the hands of its producer,
published, free, or in the hands of the consumer of the lap before. -/
theorem Inv.seq_cases (hi : Inv W H s) (k : Nat) : ∃ k', k % 1024 = k' % 1024 ∧ s.mem.head ≤ k' ∧
    k' < s.mem.head + capacity ∧
    ((k' < s.mem.tail ∧ ((∃ i, (s.pc i).tailTicket = some k' ∧ s.mem.seq k = k') ∨
        s.mem.seq k = k' + 1)) ∨
      (s.mem.tail ≤ k' ∧ (s.mem.seq k = k' ∨
        ∃ i j, (s.pc i).headTicket = some j ∧ k' = j + capacity ∧ s.mem.seq k = j + 1))) := by
  have hcap : capacity = 1024 := rfl
  obtain ⟨k', hc, h1, h2⟩ : ∃ k', k % 1024 = k' % 1024 ∧ s.mem.head ≤ k' ∧
      k' < s.mem.head + capacity :=
    ⟨s.mem.head + (k + (1024 - s.mem.head % 1024)) % 1024, by omega, by omega, by omega⟩
  refine ⟨k', hc, h1, h2, ?_⟩
  rw [seq_congr s.mem hc]
  rcases Nat.lt_or_ge k' s.mem.tail with ht | ht
  · refine .inl ⟨ht, ?_⟩
    rcases hi.stored k' h1 ht with ⟨i, hj⟩ | ⟨hs, -⟩
    · exact .inl ⟨i, hj, (hi.producer hj).2.2.1⟩
    · exact .inr hs
  · refine .inr ⟨ht, ?_⟩
    rcases hi.free k' ht h2 with hs | ⟨i, j, hj, he⟩
    · exact .inl hs
    · have hc' := seq_congr s.mem (show k' % 1024 = j % 1024 by omega)
      exact .inr ⟨i, j, hj, he, hc'.trans (hi.consumer hj).2.2.1⟩

/-- Sequences stay within a lap of `head`. -/
theorem Inv.seq_le (hi : Inv W H s) (k : Nat) : s.mem.seq k ≤ s.mem.head + capacity := by
  have hle := hi.tail_le
  have hcap : capacity = 1024 := rfl
  obtain ⟨k', -, h1, h2, ⟨h3, ⟨-, -, hs⟩ | hs⟩ | ⟨h3, hs | ⟨-, j, -, he, hs⟩⟩⟩ := hi.seq_cases k <;>
    omega

end

theorem init_inv : Inv [] [] (impl ι).init := by
  refine ⟨rfl, rfl, Nat.le_refl _, Nat.zero_le _, fun k _ h => absurd h (Nat.not_lt_zero k),
    fun k _ h => .inl ?_, fun i => trivial⟩
  have hk : k < 1024 := by simpa [Impl.init, impl, Mem.init, capacity] using h
  simp only [Mem.seq, Mem.cell, Impl.init, impl, Mem.init, and_mask_eq]
  omega

/-! ## Preservation -/

section
variable [DecidableEq ι] {W : List (ι × InferenceTask)} {H : List ι} {s : State ι} {i : ι}

/-- A step that changes neither the cells nor the counters nor the tickets held. -/
theorem Inv.keep (hi : Inv W H s) {m : Mem} {p : Pc} (hb : m.buffer = s.mem.buffer)
    (hh : m.head = s.mem.head) (ht : m.tail = s.mem.tail)
    (hpt : p.tailTicket = (s.pc i).tailTicket) (hph : p.headTicket = (s.pc i).headTicket)
    (hp : ThreadOk W H s.mem i p) : Inv W H ⟨m, Function.update s.pc i p⟩ := by
  obtain ⟨buf, hd, tl, st⟩ := m
  obtain ⟨⟨buf', hd', tl', st'⟩, pc⟩ := s
  subst hb hh ht
  refine ⟨hi.tail_eq, hi.head_eq, hi.head_le, hi.tail_le, fun k h1 h2 => ?_, fun k h1 h2 => ?_, ?_⟩
  · exact (hi.stored k h1 h2).imp (exists_update hpt) id
  · refine (hi.free k h1 h2).imp id fun ⟨a, j, hj, he⟩ => ?_
    obtain ⟨b, hb⟩ := exists_update hph ⟨a, hj⟩
    exact ⟨b, j, hb, he⟩
  · exact forall_update hp fun j _ => hi.thread j

/-- A producer wins the ticket `tail`. -/
theorem Inv.tailWin (hi : Inv W H s) {task : InferenceTask} {t : Nat}
    (hpc : s.pc i = .pushCas task t) (ht : s.mem.tail = t) :
    Inv (W ++ [(i, task)]) H
      ⟨{ s.mem with tail := t + 1 }, Function.update s.pc i (.pushData task t)⟩ := by
  subst ht
  have hok := hi.thread i
  simp only [hpc, ThreadOk] at hok
  obtain ⟨hseq, hlt⟩ := hi.free_at_tail hok.2
  have hlen := hi.tail_eq
  have hget : ∀ {k : Nat} {x}, W[k]? = some x → (W ++ [(i, task)])[k]? = some x := fun h => by
    rw [List.getElem?_append_left (List.getElem?_eq_some_iff.1 h).1, h]
  have hget' : ∀ {k : Nat} {x}, W[k]?.map Prod.snd = some x →
      (W ++ [(i, task)])[k]?.map Prod.snd = some x := fun h => by
    obtain ⟨y, hy, rfl⟩ := Option.map_eq_some_iff.1 h
    rw [hget hy, Option.map_some]
  refine ⟨by simp [hlen], hi.head_eq, Nat.le_succ_of_le hi.head_le, hlt, fun k h1 h2 => ?_,
    fun k h1 h2 => ?_, forall_update ?_ fun j hj => ?_⟩
  · by_cases hk : k = s.mem.tail
    · exact .inl ⟨i, by simp [Pc.tailTicket, hk]⟩
    · have h2' : k < s.mem.tail + 1 := h2
      rcases hi.stored k h1 (by omega) with ⟨j, hj⟩ | ⟨hs, hd⟩
      · exact .inl ⟨j, update_holder hj (by simp [hpc, Pc.tailTicket])⟩
      · exact .inr ⟨hs, hget' hd⟩
  · rcases hi.free k (Nat.le_of_succ_le h1) h2 with hs | ⟨j, k', hj, he⟩
    · exact .inl hs
    · exact .inr ⟨j, k', update_holder hj (by simp [hpc, Pc.headTicket]), he⟩
  · exact ⟨hi.head_le, Nat.lt_succ_self _, hseq, by simp [hlen]⟩
  · have hj := hi.thread j
    have hcap : capacity = 1024 := rfl
    -- the cell of the new ticket is free, so no consumer of the lap before is at work on it
    have hcons : ∀ {h}, s.mem.tail ≤ h + capacity → s.mem.seq h = h + 1 →
        s.mem.tail + 1 ≤ h + capacity := fun {h} h1 h2 => by
      refine Nat.lt_of_le_of_ne h1 fun he => ?_
      have := seq_congr s.mem (show s.mem.tail % 1024 = h % 1024 by omega)
      omega
    cases hpj : s.pc j <;> simp only [hpj, ThreadOk] at hj ⊢
    case pushSeq => exact Nat.le_succ_of_le hj
    case pushCas => exact ⟨Nat.le_succ_of_le hj.1, hj.2⟩
    case pushData => exact ⟨hj.1, Nat.lt_succ_of_lt hj.2.1, hj.2.2.1, hget hj.2.2.2⟩
    case pushPublish => exact ⟨hj.1, Nat.lt_succ_of_lt hj.2.1, hj.2.2.1, hget hj.2.2.2⟩
    case popSeq => exact hj
    case popCas => exact hj
    case popData => exact ⟨hj.1, hcons hj.2.1 hj.2.2.1, hj.2.2.1, hj.2.2.2.1, hget' hj.2.2.2.2⟩
    case popPublish => exact ⟨hj.1, hcons hj.2.1 hj.2.2.1, hj.2.2.1, hj.2.2.2.1, hget' hj.2.2.2.2⟩
    case sizeHead => exact Nat.le_succ_of_le hj

/-- A producer writes its task. -/
theorem Inv.pushData (hi : Inv W H s) {task : InferenceTask} {t : Nat}
    (hpc : s.pc i = .pushData task t) :
    Inv W H ⟨s.mem.setData t task, Function.update s.pc i (.pushPublish t)⟩ := by
  have hcap : capacity = 1024 := rfl
  have hti : (s.pc i).tailTicket = some t := by rw [hpc]; rfl
  have hok := hi.thread i
  simp only [hpc, ThreadOk] at hok
  obtain ⟨h1, h2, h3, h4⟩ := hok
  have hle := hi.tail_le
  refine ⟨hi.tail_eq, hi.head_eq, hi.head_le, hi.tail_le, fun k hk1 hk2 => ?_, fun k hk1 hk2 => ?_,
    forall_update ?_ fun j hj => ?_⟩
  · refine (hi.stored k hk1 hk2).imp (exists_update (by rw [hpc]; rfl)) fun ⟨hs, hd⟩ => ?_
    -- a published cell is not the cell the producer writes
    have hne : k % 1024 ≠ t % 1024 := fun hc => by
      have := seq_congr s.mem hc
      simp only [head_setData, tail_setData] at hk1 hk2
      omega
    simp only [seq_setData, data_setData, if_neg hne]
    exact ⟨hs, hd⟩
  · refine (hi.free k hk1 hk2).imp (by simp) fun ⟨a, j, hj, he⟩ => ?_
    obtain ⟨b, hb⟩ := exists_update (p := .pushPublish t) (i := i) (by rw [hpc]; rfl) ⟨a, hj⟩
    exact ⟨b, j, hb, he⟩
  · simpa [ThreadOk, data_setData] using ⟨h1, h2, h3, h4⟩
  · have hj' := hi.thread j
    cases hpj : s.pc j <;> simp only [hpj, ThreadOk] at hj' ⊢
    case pushPublish t' =>
      have hne : t' % 1024 ≠ t % 1024 := fun hc =>
        hj (hi.producer_unique (by rw [hpj]; rfl) hti hc)
      simpa [data_setData, hne] using hj'
    case popData ctx h' =>
      have hne : h' % 1024 ≠ t % 1024 :=
        (hi.producer_consumer (j := j) (h := h') hti (by rw [hpj]; rfl)).symm
      simpa [data_setData, hne] using hj'
    all_goals simpa using hj'

/-- A producer publishes its task. -/
theorem Inv.pushPublish (hi : Inv W H s) {t : Nat} (hpc : s.pc i = .pushPublish t) :
    Inv W H ⟨s.mem.setSequence t (t + 1), Function.update s.pc i .idle⟩ := by
  have hcap : capacity = 1024 := rfl
  have hti : (s.pc i).tailTicket = some t := by rw [hpc]; rfl
  have hok := hi.thread i
  simp only [hpc, ThreadOk] at hok
  obtain ⟨h1, h2, h3, h4⟩ := hok
  have hle := hi.tail_le
  -- the sequence only grows
  have hmono : ∀ k v, v ≤ s.mem.seq k → v ≤ (s.mem.setSequence t (t + 1)).seq k := fun k v hv => by
    rw [seq_setSequence]
    split
    · rename_i hc
      have := seq_congr s.mem hc
      omega
    · exact hv
  refine ⟨hi.tail_eq, hi.head_eq, hi.head_le, hi.tail_le, fun k hk1 hk2 => ?_, fun k hk1 hk2 => ?_,
    forall_update trivial fun j hj => ?_⟩
  · simp only [head_setSequence, tail_setSequence] at hk1 hk2
    by_cases hkt : k = t
    · subst hkt
      exact .inr ⟨by simp [seq_setSequence], by simp [h4]⟩
    · have hne : k % 1024 ≠ t % 1024 := by omega
      rcases hi.stored k hk1 hk2 with ⟨j, hj⟩ | ⟨hs, hd⟩
      · exact .inl ⟨j, update_holder hj (by simp [hti, Ne.symm hkt])⟩
      · exact .inr ⟨by rw [seq_setSequence, if_neg hne, hs], by simpa using hd⟩
  · simp only [head_setSequence, tail_setSequence] at hk1 hk2
    rcases hi.free k hk1 hk2 with hs | ⟨j, k', hj, he⟩
    · have hne : k % 1024 ≠ t % 1024 := fun hc => by
        have := seq_congr s.mem hc
        omega
      exact .inl (by rw [seq_setSequence, if_neg hne, hs])
    · exact .inr ⟨j, k', update_holder hj (by simp [hpc, Pc.headTicket]), he⟩
  · have hj' := hi.thread j
    have hprod : ∀ {t'}, (s.pc j).tailTicket = some t' → t' % 1024 ≠ t % 1024 := fun h hc =>
      hj (hi.producer_unique h hti hc)
    have hcons : ∀ {h'}, (s.pc j).headTicket = some h' → h' % 1024 ≠ t % 1024 := fun h hc =>
      hi.producer_consumer hti h hc.symm
    cases hpj : s.pc j <;> simp only [hpj, ThreadOk] at hj' ⊢
    case pushCas => exact ⟨hj'.1, hmono _ _ hj'.2⟩
    case popCas => exact ⟨hj'.1, hmono _ _ hj'.2⟩
    case pushData t' =>
      simpa [seq_setSequence, hprod (show (s.pc j).tailTicket = some t' by rw [hpj]; rfl)] using hj'
    case pushPublish t' =>
      simpa [seq_setSequence, hprod (show (s.pc j).tailTicket = some t' by rw [hpj]; rfl)] using hj'
    case popData h' =>
      simpa [seq_setSequence, hcons (show (s.pc j).headTicket = some h' by rw [hpj]; rfl)] using hj'
    case popPublish h' _ =>
      simpa [seq_setSequence, hcons (show (s.pc j).headTicket = some h' by rw [hpj]; rfl)] using hj'
    all_goals simpa using hj'

/-- A consumer wins the ticket `head`. -/
theorem Inv.headWin (hi : Inv W H s) {ctx : PopCtx} {h : Nat} (hpc : s.pc i = .popCas ctx h)
    (hh : s.mem.head = h) :
    Inv W (H ++ [i]) ⟨{ s.mem with head := h + 1 }, Function.update s.pc i (.popData ctx h)⟩ := by
  have hcap : capacity = 1024 := rfl
  subst hh
  have hok := hi.thread i
  simp only [hpc, ThreadOk] at hok
  obtain ⟨hlt, hseq, hw⟩ := hi.stored_at_head hok.2
  have hlen := hi.head_eq
  have hget : ∀ {k : Nat} {x}, H[k]? = some x → (H ++ [i])[k]? = some x := fun h => by
    rw [List.getElem?_append_left (List.getElem?_eq_some_iff.1 h).1, h]
  -- the cell of `head` is published, so no producer is at work on it
  have hprod : ∀ {t}, s.mem.head ≤ t → s.mem.seq t = t → s.mem.head + 1 ≤ t := fun {t} h1 h2 => by
    refine Nat.lt_of_le_of_ne h1 fun he => ?_
    rw [← he] at h2
    omega
  refine ⟨hi.tail_eq, by simp [hlen], hlt, ?_, fun k h1 h2 => ?_, fun k h1 h2 => ?_,
    forall_update ?_ fun j hj => ?_⟩
  · exact Nat.le_trans hi.tail_le (by simp only; omega)
  · rcases hi.stored k (Nat.le_of_succ_le h1) h2 with ⟨j, hj⟩ | hs
    · exact .inl ⟨j, update_holder hj (by simp [hpc, Pc.tailTicket])⟩
    · exact .inr hs
  · by_cases hk : k = s.mem.head + capacity
    · exact .inr ⟨i, s.mem.head, by simp [Pc.headTicket], hk⟩
    · have h2' : k < s.mem.head + 1 + capacity := h2
      rcases hi.free k h1 (by omega) with hs | ⟨j, k', hj, he⟩
      · exact .inl hs
      · exact .inr ⟨j, k', update_holder hj (by simp [hpc, Pc.headTicket]), he⟩
  · exact ⟨Nat.lt_succ_self _, hi.tail_le, hseq, by simp [hlen], hw⟩
  · have hj := hi.thread j
    cases hpj : s.pc j <;> simp only [hpj, ThreadOk] at hj ⊢
    case pushSeq => exact hj
    case pushCas => exact hj
    case pushData => exact ⟨hprod hj.1 hj.2.2.1, hj.2⟩
    case pushPublish => exact ⟨hprod hj.1 hj.2.2.1, hj.2⟩
    case popSeq => exact Nat.le_succ_of_le hj
    case popCas => exact ⟨Nat.le_succ_of_le hj.1, hj.2⟩
    case popData =>
      exact ⟨Nat.lt_succ_of_lt hj.1, hj.2.1, hj.2.2.1, hget hj.2.2.2.1, hj.2.2.2.2⟩
    case popPublish =>
      exact ⟨Nat.lt_succ_of_lt hj.1, hj.2.1, hj.2.2.1, hget hj.2.2.2.1, hj.2.2.2.2⟩
    case sizeHead => exact hj

/-- A consumer moves its task out of the cell. -/
theorem Inv.popData (hi : Inv W H s) {ctx : PopCtx} {h : Nat} (hpc : s.pc i = .popData ctx h)
    (x : InferenceTask) :
    Inv W H ⟨s.mem.setData h x, Function.update s.pc i (.popPublish ctx h (s.mem.data h))⟩ := by
  have hcap : capacity = 1024 := rfl
  have hhi : (s.pc i).headTicket = some h := by rw [hpc]; rfl
  have hok := hi.thread i
  simp only [hpc, ThreadOk] at hok
  obtain ⟨h1, h2, h3, h4, h5⟩ := hok
  refine ⟨hi.tail_eq, hi.head_eq, hi.head_le, hi.tail_le, fun k hk1 hk2 => ?_, fun k hk1 hk2 => ?_,
    forall_update ?_ fun j hj => ?_⟩
  · refine (hi.stored k hk1 hk2).imp (exists_update (by rw [hpc]; rfl)) fun ⟨hs, hd⟩ => ?_
    -- the cell of a later ticket is not the cell of `h`
    have hne : k % 1024 ≠ h % 1024 := fun hc => by
      have := seq_congr s.mem hc
      simp only [head_setData, tail_setData] at hk1 hk2
      omega
    simp only [seq_setData, data_setData, if_neg hne]
    exact ⟨hs, hd⟩
  · refine (hi.free k hk1 hk2).imp (by simp) fun ⟨a, j, hj, he⟩ => ?_
    obtain ⟨b, hb⟩ := exists_update (p := .popPublish ctx h (s.mem.data h)) (i := i)
      (by rw [hpc]; rfl) ⟨a, hj⟩
    exact ⟨b, j, hb, he⟩
  · exact ⟨h1, h2, by rw [seq_setData, h3], h4, h5⟩
  · have hj' := hi.thread j
    cases hpj : s.pc j <;> simp only [hpj, ThreadOk] at hj' ⊢
    case pushPublish t' =>
      have hne : t' % 1024 ≠ h % 1024 :=
        hi.producer_consumer (i := j) (by rw [hpj]; rfl) hhi
      simpa [data_setData, hne] using hj'
    case popData ctx h' =>
      have hne : h' % 1024 ≠ h % 1024 := fun hc =>
        hj (hi.consumer_unique (by rw [hpj]; rfl) hhi hc)
      simpa [data_setData, hne] using hj'
    all_goals simpa using hj'

/-- A consumer releases its cell for the next lap. -/
theorem Inv.popPublish (hi : Inv W H s) {ctx : PopCtx} {h : Nat} {x : InferenceTask}
    (hpc : s.pc i = .popPublish ctx h x) {p : Pc} (hp : ∀ m, ThreadOk W H m i p) :
    Inv W H ⟨s.mem.setSequence h (h + capacity), Function.update s.pc i p⟩ := by
  have hcap : capacity = 1024 := rfl
  have hhi : (s.pc i).headTicket = some h := by rw [hpc]; rfl
  have hok := hi.thread i
  simp only [hpc, ThreadOk] at hok
  obtain ⟨h1, h2, h3, h4, -⟩ := hok
  have hle := hi.head_le
  have hmono : ∀ k v, v ≤ s.mem.seq k → v ≤ (s.mem.setSequence h (h + capacity)).seq k :=
    fun k v hv => by
      rw [seq_setSequence]
      split
      · rename_i hc
        have := seq_congr s.mem hc
        omega
      · exact hv
  refine ⟨hi.tail_eq, hi.head_eq, hi.head_le, hi.tail_le, fun k hk1 hk2 => ?_, fun k hk1 hk2 => ?_,
    forall_update (hp _) fun j hj => ?_⟩
  · simp only [head_setSequence, tail_setSequence] at hk1 hk2
    have hne : k % 1024 ≠ h % 1024 := by omega
    rcases hi.stored k hk1 hk2 with ⟨j, hj⟩ | ⟨hs, hd⟩
    · exact .inl ⟨j, update_holder hj (by simp [hpc, Pc.tailTicket])⟩
    · exact .inr ⟨by rw [seq_setSequence, if_neg hne, hs], by simpa using hd⟩
  · simp only [head_setSequence, tail_setSequence] at hk1 hk2
    by_cases hkh : k = h + capacity
    · exact .inl (by rw [seq_setSequence, if_pos (by omega), hkh])
    · have hne : k % 1024 ≠ h % 1024 := by omega
      rcases hi.free k hk1 hk2 with hs | ⟨j, k', hj, he⟩
      · exact .inl (by rw [seq_setSequence, if_neg hne, hs])
      · exact .inr ⟨j, k', update_holder hj (by rw [hhi]; simp; omega), he⟩
  · have hj' := hi.thread j
    have hprod : ∀ {t'}, (s.pc j).tailTicket = some t' → t' % 1024 ≠ h % 1024 := fun ht =>
      hi.producer_consumer ht hhi
    have hcons : ∀ {h'}, (s.pc j).headTicket = some h' → h' % 1024 ≠ h % 1024 := fun ht hc =>
      hj (hi.consumer_unique ht hhi hc)
    cases hpj : s.pc j <;> simp only [hpj, ThreadOk] at hj' ⊢
    case pushCas => exact ⟨hj'.1, hmono _ _ hj'.2⟩
    case popCas => exact ⟨hj'.1, hmono _ _ hj'.2⟩
    case pushData t' =>
      simpa [seq_setSequence, hprod (show (s.pc j).tailTicket = some t' by rw [hpj]; rfl)] using hj'
    case pushPublish t' =>
      simpa [seq_setSequence, hprod (show (s.pc j).tailTicket = some t' by rw [hpj]; rfl)] using hj'
    case popData h' =>
      simpa [seq_setSequence, hcons (show (s.pc j).headTicket = some h' by rw [hpj]; rfl)] using hj'
    case popPublish h' _ =>
      simpa [seq_setSequence, hcons (show (s.pc j).headTicket = some h' by rw [hpj]; rfl)] using hj'
    all_goals simpa using hj'

end

/-! ## Every step -/

section
variable [DecidableEq ι] {W : List (ι × InferenceTask)} {H : List ι} {s s' : State ι} {i : ι}

/-- One access of thread `i` keeps the invariant, while the tickets stay below `2 ^ 63`. -/
theorem run_inv (hi : Inv W H s) {weak : Bool} {o : Outcome}
    (ho : run s.mem weak (s.pc i) = some o)
    (hb : (W ++ tailWins (o.events i)).length < 2 ^ 63) :
    Inv (W ++ tailWins (o.events i)) (H ++ headWins (o.events i))
      ⟨o.mem, Function.update s.pc i o.pc⟩ := by
  have hcap : capacity = 1024 := rfl
  have hok := hi.thread i
  have htl := hi.tail_eq
  have hle := hi.head_le
  have htail : s.mem.tail < 2 ^ 63 := by
    rw [htl]
    rw [List.length_append] at hb
    omega
  -- a step that wins no ticket
  have keep : tailWins (o.events i) = [] → headWins (o.events i) = [] →
      Inv W H ⟨o.mem, Function.update s.pc i o.pc⟩ →
      Inv (W ++ tailWins (o.events i)) (H ++ headWins (o.events i))
        ⟨o.mem, Function.update s.pc i o.pc⟩ := fun h1 h2 h => by
    rw [h1, h2, List.append_nil, List.append_nil]
    exact h
  cases hpc : s.pc i <;> simp only [hpc, ThreadOk] at hok <;> simp only [hpc, run] at ho
  case idle => cases ho
  case pushStop task =>
    split at ho <;> cases ho <;>
      exact keep rfl rfl (hi.keep rfl rfl rfl (by rw [hpc]; rfl) (by rw [hpc]; rfl) trivial)
  case pushTail task =>
    cases ho
    exact keep rfl rfl
      (hi.keep rfl rfl rfl (by rw [hpc]; rfl) (by rw [hpc]; rfl) (Nat.le_refl _))
  case pushSeq task t =>
    split at ho
    · rename_i hd
      cases ho
      -- the word read is the local index itself: neither has wrapped
      have hs : s.mem.seq t % 2 ^ 64 = t % 2 ^ 64 := mod_eq_of_sdiff64 hd
      have hsl := hi.seq_le t
      exact keep rfl rfl (hi.keep rfl rfl rfl (by rw [hpc]; rfl) (by rw [hpc]; rfl)
        ⟨hok, by omega⟩)
    · split at ho <;> cases ho <;>
        exact keep rfl rfl (hi.keep rfl rfl rfl (by rw [hpc]; rfl) (by rw [hpc]; rfl) trivial)
  case pushCas task t =>
    split at ho
    · rename_i hc
      cases ho
      have hadd : add64 t 1 = t + 1 := add64_of_lt (by omega)
      simp only [hadd]
      have := hi.tailWin hpc hc.1
      simpa [tailWins, headWins, Outcome.events] using this
    · cases ho
      exact keep rfl rfl
        (hi.keep rfl rfl rfl (by rw [hpc]; rfl) (by rw [hpc]; rfl) (Nat.le_refl _))
  case pushData task t =>
    cases ho
    exact keep rfl rfl (hi.pushData hpc)
  case pushPublish t =>
    cases ho
    have := hi.pushPublish hpc
    rw [← add64_of_lt (a := t) (b := 1) (by omega)] at this
    exact keep rfl rfl this
  case popHead ctx =>
    cases ho
    exact keep rfl rfl
      (hi.keep rfl rfl rfl (by rw [hpc]; rfl) (by rw [hpc]; rfl) (Nat.le_refl _))
  case popSeq ctx h =>
    split at ho
    · rename_i hd
      cases ho
      have hs : s.mem.seq h % 2 ^ 64 = add64 h 1 % 2 ^ 64 := mod_eq_of_sdiff64 hd
      rw [add64_of_lt (by omega)] at hs
      have hsl := hi.seq_le h
      exact keep rfl rfl (hi.keep rfl rfl rfl (by rw [hpc]; rfl) (by rw [hpc]; rfl)
        ⟨hok, by omega⟩)
    · split at ho <;> cases ho <;>
        exact keep rfl rfl (hi.keep rfl rfl rfl (by rw [hpc]; rfl) (by rw [hpc]; rfl) trivial)
  case popCas ctx h =>
    split at ho
    · rename_i hc
      cases ho
      have hadd : add64 h 1 = h + 1 := add64_of_lt (by omega)
      simp only [hadd]
      have := hi.headWin hpc hc.1
      simpa [tailWins, headWins, Outcome.events] using this
    · cases ho
      exact keep rfl rfl
        (hi.keep rfl rfl rfl (by rw [hpc]; rfl) (by rw [hpc]; rfl) (Nat.le_refl _))
  case popData ctx h =>
    cases ho
    exact keep rfl rfl (hi.popData hpc _)
  case popPublish ctx h task =>
    cases ho
    have hadd : add64 h capacity = h + capacity := add64_of_lt (by omega)
    cases ctx
    case pop =>
      have := hi.popPublish (p := .idle) hpc fun _ => trivial
      rw [← hadd] at this
      exact keep rfl rfl this
    case batch batch max =>
      have := hi.popPublish (p := .batchTest (batch ++ [task]) max) hpc fun _ => trivial
      rw [← hadd] at this
      exact keep rfl rfl this
  case batchTest batch max =>
    split at ho <;> cases ho <;>
      exact keep rfl rfl (hi.keep rfl rfl rfl (by rw [hpc]; rfl) (by rw [hpc]; rfl) trivial)
  case sizeTail e =>
    cases ho
    exact keep rfl rfl
      (hi.keep rfl rfl rfl (by rw [hpc]; rfl) (by rw [hpc]; rfl) (Nat.le_refl _))
  case sizeHead e t =>
    cases ho
    exact keep rfl rfl (hi.keep rfl rfl rfl (by rw [hpc]; rfl) (by rw [hpc]; rfl) trivial)
  case stopStore =>
    cases ho
    exact keep rfl rfl (hi.keep rfl rfl rfl (by rw [hpc]; rfl) (by rw [hpc]; rfl) trivial)

theorem step_inv {h : List (Event ι Obs)} {l : ι × Act Bool} {es : List (Event ι Obs)}
    (hb : (tailWins (h ++ es)).length < 2 ^ 63) (hi : Inv (tailWins h) (headWins h) s)
    (hs : (impl ι).step s l = some (es, s')) :
    Inv (tailWins (h ++ es)) (headWins (h ++ es)) s' := by
  rw [tailWins_append] at hb
  rw [tailWins_append, headWins_append]
  obtain ⟨i, op | weak⟩ := l
  · obtain ⟨hpc, rfl, rfl⟩ := Impl.step_call.1 hs
    have hc : ∀ op : Op, (entry op).tailTicket = none ∧ (entry op).headTicket = none ∧
        ThreadOk (tailWins h) (headWins h) s.mem i (entry op) := fun op => by
      cases op <;> exact ⟨rfl, rfl, trivial⟩
    obtain ⟨h1, h2, h3⟩ := hc op
    have := hi.keep (i := i) rfl rfl rfl (by rw [hpc]; exact h1) (by rw [hpc]; exact h2) h3
    simpa [tailWins, headWins] using this
  · obtain ⟨o, ho, rfl, rfl⟩ := Impl.step_run.1 hs
    exact run_inv hi ho hb

/-- **The ring invariant** holds in every reachable state. -/
theorem inv {h : List (Event ι Obs)} (hr : (lts ι).Reach h s)
    (hb : (tailWins h).length < 2 ^ 63) : Inv (tailWins h) (headWins h) s := by
  refine Lts.Reach.inv_while (I := fun h s => Inv (tailWins h) (headWins h) s)
    (B := fun h _ => (tailWins h).length < 2 ^ 63) (fun h s l es s' _ hb => ?_) ?_ ?_ hr hb
  · rw [tailWins_append, List.length_append] at hb
    omega
  · rintro s rfl
    exact init_inv
  · exact fun h s l es s' _ hb hi hs => step_inv hb hi hs

end

end Lumen.Concurrency.MPMCTaskQueue
