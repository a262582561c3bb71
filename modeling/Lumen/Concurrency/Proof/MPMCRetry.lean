import Lumen.Concurrency.Proof.MPMCNegative

/-!
# The retry loops of `MPMCTaskQueue`

A push or a pop goes round its loop while its copy of the counter is stale; the sequence in the
cell of the current index never makes it go round (`Settled`). So a retry that is no spurious
failure tells that another thread has won a ticket since this one read its counter
(`retry_advanced`), and a thread that runs alone reads the counter at most once more and is out of
its loop after two sequence loads (`ends_working`). A call gives up at the current index, but for a
push that has slept through nearly `2 ^ 63` tickets (`stale_failure`).
-/

set_option autoImplicit false

namespace Lumen.Concurrency.MPMCTaskQueue

open Lumen.Lib Lumen.Lib.Shared Lumen.Core ITaskQueue

variable {ι : Type*}

/-! ## Counters and indices -/

inductive Counter
  | tail
  | head
  deriving DecidableEq

def Mem.counter (m : Mem) : Counter → Nat
  | .tail => m.tail
  | .head => m.head

/-- The counter of the loop the thread is in, and its copy of it. -/
def Pc.index : Pc → Option (Counter × Nat)
  | .pushSeq _ t | .pushCas _ t => some (.tail, t)
  | .popSeq _ h | .popCas _ h => some (.head, h)
  | _ => none

/-- The counter that the access has advanced. -/
def Obs.advances : Obs → Option Counter
  | .tailWin _ _ => some .tail
  | .headWin _ => some .head
  | _ => Option.none

/-- The access reads the counter: a load of it, or a compare-exchange that fails. -/
def Reads (m : Mem) (weak : Bool) : Pc → Prop
  | .pushTail _ | .popHead _ => True
  | .pushCas _ t => ¬ (m.tail = t ∧ weak = false)
  | .popCas _ h => ¬ (m.head = h ∧ weak = false)
  | _ => False

/-- The access makes the thread go round its loop again, but not by a spurious failure. -/
def Retries (m : Mem) : Pc → Prop
  | .pushSeq _ t => 0 < sdiff64 (m.cell t).sequence t
  | .pushCas _ t => m.tail ≠ t
  | .popSeq _ h => 0 < sdiff64 (m.cell h).sequence (add64 h 1)
  | .popCas _ h => m.head ≠ h
  | _ => False

/-- How often the counter has been advanced. -/
def wins (h : List (Event ι Obs)) : Counter → Nat
  | .tail => (tailWins h).length
  | .head => (headWins h).length

theorem wins_append (h h' : List (Event ι Obs)) (c : Counter) :
    wins (h ++ h') c = wins h c + wins h' c := by
  cases c <;> simp [wins]

theorem exists_advance {h : List (Event ι Obs)} {c : Counter} (hw : 0 < wins h c) :
    ∃ j e, .obs j e ∈ h ∧ e.advances = some c := by
  cases c with
  | tail =>
    obtain ⟨x, hx⟩ := List.exists_mem_of_length_pos hw
    obtain ⟨e, he, hex⟩ := List.mem_filterMap.1 hx
    split at hex
    · exact ⟨_, _, he, rfl⟩
    · cases hex
  | head =>
    obtain ⟨x, hx⟩ := List.exists_mem_of_length_pos hw
    obtain ⟨e, he, hex⟩ := List.mem_filterMap.1 hx
    split at hex
    · exact ⟨_, _, he, rfl⟩
    · cases hex

/-- An access after which the thread is in its loop: it has read the counter, or it has found the
sequence that its copy asks for. -/
theorem run_index {m : Mem} {weak : Bool} {p : Pc} {o : Outcome} {c : Counter} {t : Nat}
    (ho : run m weak p = some o) (hidx : o.pc.index = some (c, t)) :
    o.obs = [] ∧ o.ret = none ∧ o.mem = m ∧
      ((Reads m weak p ∧ t = m.counter c) ∨ (¬ Reads m weak p ∧ p.index = some (c, t))) := by
  cases p <;> simp only [run] at ho
  case pushTail task =>
    cases ho
    cases hidx
    exact ⟨rfl, rfl, rfl, .inl ⟨trivial, rfl⟩⟩
  case popHead ctx =>
    cases ho
    cases hidx
    exact ⟨rfl, rfl, rfl, .inl ⟨trivial, rfl⟩⟩
  case pushCas task t =>
    split at ho <;> rename_i hc <;> cases ho <;> cases hidx
    exact ⟨rfl, rfl, rfl, .inl ⟨hc, rfl⟩⟩
  case popCas ctx h =>
    split at ho <;> rename_i hc <;> cases ho <;> cases hidx
    exact ⟨rfl, rfl, rfl, .inl ⟨hc, rfl⟩⟩
  case popPublish ctx h task =>
    cases ho
    cases ctx <;> cases hidx
  all_goals
    (repeat' split at ho) <;> cases ho <;> cases hidx <;> exact ⟨rfl, rfl, rfl, .inr ⟨id, rfl⟩⟩

/-! ## The sequence in the cell of the counter -/

section
variable {W : List (ι × InferenceTask)} {H : List ι} {s : State ι}

/-- At the current index neither loop goes round. -/
structure Settled (m : Mem) : Prop where
  tail : sdiff64 (m.cell m.tail).sequence m.tail ≤ 0
  head : sdiff64 (m.cell m.head).sequence (add64 m.head 1) ≤ 0

theorem Inv.settled (hi : Inv W H s) (hb : s.mem.tail < 2 ^ 63) : Settled s.mem := by
  have hcap : capacity = 1024 := rfl
  have hle := hi.head_le
  have hle' := hi.tail_le
  constructor
  · change sdiff64 (s.mem.seq s.mem.tail) s.mem.tail ≤ 0
    obtain ⟨k', hc, h1, h2, hcase⟩ := hi.seq_cases s.mem.tail
    have hs : s.mem.seq s.mem.tail ≤ s.mem.tail := by
      obtain ⟨h3, ⟨-, -, hs⟩ | hs⟩ | ⟨h3, hs | ⟨-, j, -, he, hs⟩⟩ := hcase <;> omega
    rw [sdiff64_eq (by omega) (by omega)]
    omega
  · change sdiff64 (s.mem.seq s.mem.head) (add64 s.mem.head 1) ≤ 0
    obtain ⟨k', hc, h1, h2, hcase⟩ := hi.seq_cases s.mem.head
    have hs : s.mem.seq s.mem.head ≤ s.mem.head + 1 := by
      obtain ⟨h3, ⟨-, -, hs⟩ | hs⟩ | ⟨h3, hs | ⟨-, j, -, he, hs⟩⟩ := hcase <;> omega
    rw [add64_of_lt (by omega), sdiff64_eq (by omega) (by omega)]
    omega

theorem Settled.stale {m : Mem} {p : Pc} (hm : Settled m) (hr : Retries m p) :
    ∃ c t, p.index = some (c, t) ∧ t ≠ m.counter c := by
  cases p <;> simp only [Retries] at hr
  case pushSeq task t =>
    refine ⟨.tail, t, rfl, ?_⟩
    rintro rfl
    exact absurd hr (Int.not_lt.2 hm.tail)
  case pushCas task t => exact ⟨.tail, t, rfl, hr.symm⟩
  case popSeq ctx h =>
    refine ⟨.head, h, rfl, ?_⟩
    rintro rfl
    exact absurd hr (Int.not_lt.2 hm.head)
  case popCas ctx h => exact ⟨.head, h, rfl, hr.symm⟩

theorem Inv.counter_eq {h : List (Event ι Obs)} (hi : Inv (tailWins h) (headWins h) s)
    (c : Counter) : s.mem.counter c = wins h c := by
  cases c
  · exact hi.tail_eq
  · exact hi.head_eq

end

/-! ## Retries -/

section
variable [DecidableEq ι] {h h0 h1 : List (Event ι Obs)} {s : State ι} {i : ι}

/-- Thread `i` reads the counter of its loop. -/
def ReadsIndex (i : ι) (s : State ι) : ι × Act Bool → Prop
  | (j, .run weak) => j = i ∧ Reads s.mem weak (s.pc i)
  | (_, .call _) => False

/-- A run that had shown `h0` when thread `i` read the counter of its loop for the last time, and
has shown `h1` since. -/
def LastRead (i : ι) (h0 h1 : List (Event ι Obs)) (s : State ι) : Prop :=
  (lts ι).Since (fun _ _ _ => True) (ReadsIndex i) h0 h1 s

/-- The copy is what the counter was when it was read, and its thread has won nothing since. -/
theorem LastRead.index (hl : LastRead i h0 h1 s) (hb : (tailWins (h0 ++ h1)).length < 2 ^ 63)
    {c : Counter} {t : Nat} (hidx : (s.pc i).index = some (c, t)) :
    t = wins h0 c ∧ ∀ e, .obs i e ∉ h1 := by
  induction hl with
  | @mark h s l es s' hr _ hm hst =>
    obtain ⟨j, op | weak⟩ := l
    · exact hm.elim
    · obtain ⟨rfl, hm⟩ := hm
      obtain ⟨o, ho, rfl, rfl⟩ := Impl.step_run.1 hst
      simp only [Function.update_self] at hidx
      obtain ⟨hobs, hret, -, hcase⟩ := run_index ho hidx
      have hes : o.events j = ([] : List (Event ι Obs)) := by simp [Outcome.events, hobs, hret]
      rw [hes, List.append_nil, List.append_nil] at hb
      rw [hes, List.append_nil]
      refine ⟨?_, fun e => List.not_mem_nil⟩
      rcases hcase with ⟨-, ht⟩ | ⟨hno, -⟩
      · rw [ht, (inv hr hb).counter_eq]
      · exact absurd hm hno
  | @step h0 h1 s l es s' hl _ hm hst ih =>
    have hb' : (tailWins (h0 ++ h1)).length < 2 ^ 63 := by
      rw [← List.append_assoc, tailWins_append, List.length_append] at hb
      omega
    obtain ⟨j, op | weak⟩ := l
    · obtain ⟨-, rfl, rfl⟩ := Impl.step_call.1 hst
      by_cases hj : i = j
      · subst hj
        simp only [Function.update_self] at hidx
        cases op <;> cases hidx
      · simp only [Function.update_of_ne hj] at hidx
        obtain ⟨ht, hno⟩ := ih hb' hidx
        exact ⟨ht, fun e he => hno e (by simpa using he)⟩
    · obtain ⟨o, ho, rfl, rfl⟩ := Impl.step_run.1 hst
      by_cases hj : i = j
      · subst hj
        simp only [Function.update_self] at hidx
        obtain ⟨hobs, hret, -, hcase⟩ := run_index ho hidx
        have hes : o.events i = ([] : List (Event ι Obs)) := by simp [Outcome.events, hobs, hret]
        rw [hes, List.append_nil]
        rcases hcase with ⟨hreads, -⟩ | ⟨-, hidx'⟩
        · exact absurd ⟨rfl, hreads⟩ hm
        · exact ih hb' hidx'
      · simp only [Function.update_of_ne hj] at hidx
        obtain ⟨ht, hno⟩ := ih hb' hidx
        refine ⟨ht, fun e he => ?_⟩
        rcases List.mem_append.1 he with he | he
        · exact hno e he
        · simp only [Outcome.events, List.mem_append, List.mem_map, Event.obs.injEq,
            Option.mem_toList, Option.map_eq_some_iff, reduceCtorEq, and_false, exists_false,
            or_false] at he
          obtain ⟨_, -, rfl, -⟩ := he
          exact hj rfl

/-- A thread in its loop has read its counter. -/
theorem exists_lastRead (hr : (lts ι).Reach h s) {x : Counter × Nat}
    (hidx : (s.pc i).index = some x) : ∃ h0 h1, h = h0 ++ h1 ∧ LastRead i h0 h1 s := by
  obtain ⟨c, t⟩ := x
  refine Lts.ReachIf.since (Q := fun s => (s.pc i).index = some (c, t)) ?_ ?_ hr hidx
  · rintro s rfl hidx
    cases hidx
  · intro s l es s' hst hm hidx
    obtain ⟨j, op | weak⟩ := l
    · obtain ⟨-, -, rfl⟩ := Impl.step_call.1 hst
      by_cases hj : i = j
      · subst hj
        simp only [Function.update_self] at hidx
        cases op <;> cases hidx
      · simpa only [Function.update_of_ne hj] using hidx
    · obtain ⟨o, ho, -, rfl⟩ := Impl.step_run.1 hst
      by_cases hj : i = j
      · subst hj
        simp only [Function.update_self] at hidx
        rcases (run_index ho hidx).2.2.2 with ⟨hreads, -⟩ | ⟨-, hidx'⟩
        · exact absurd ⟨rfl, hreads⟩ hm
        · exact hidx'
      · simpa only [Function.update_of_ne hj] using hidx

/-- A retry tells that another thread has advanced the counter. -/
theorem retry_advanced (hl : LastRead i h0 h1 s) (hb : (tailWins (h0 ++ h1)).length < 2 ^ 63)
    (hretry : Retries s.mem (s.pc i)) :
    ∃ j e, j ≠ i ∧ .obs j e ∈ h1 ∧ e.advances = (s.pc i).index.map Prod.fst := by
  have hi := inv hl.reach hb
  have htl := hi.tail_eq
  obtain ⟨c, t, hidx, hne⟩ := (hi.settled (by omega)).stale hretry
  obtain ⟨ht, hno⟩ := hl.index hb hidx
  rw [hi.counter_eq, wins_append, ht] at hne
  obtain ⟨j, e, he, hadv⟩ := exists_advance (c := c) (h := h1) (by omega)
  refine ⟨j, e, ?_, he, by rw [hidx, hadv, Option.map_some]⟩
  rintro rfl
  exact hno e he

end

/-! ## A thread alone -/

/-- In a push or a pop. -/
def Pc.working : Pc → Bool
  | .idle | .batchTest .. | .sizeTail _ | .sizeHead .. | .stopStore => false
  | _ => true

/-- The sequence loads in the next access: each iteration of a loop begins with one. -/
def Pc.loads : Pc → Nat
  | .pushSeq .. | .popSeq .. => 1
  | _ => 0

section
variable [DecidableEq ι] {s : State ι} {i : ι}

/-- Thread `i`, which runs alone and has no spurious failure, is out of its push or pop after `n`
sequence loads. -/
inductive Ends (i : ι) : Nat → State ι → Prop
  | done {s : State ι} : (s.pc i).working = false → Ends i 0 s
  | next {s s' : State ι} {es : List (Event ι Obs)} {n : Nat} : (s.pc i).working = true →
      (lts ι).step s (i, .run false) = some (es, s') → Ends i n s' → Ends i (n + (s.pc i).loads) s

variable {m : Mem} {pc : ι → Pc} {p : Pc} {n k : Nat}

theorem ends_done (hp : p.working = false) : Ends i 0 ⟨m, Function.update pc i p⟩ :=
  .done (by simpa using hp)

theorem ends_next {o : Outcome} (hp : p.working = true) (ho : run m false p = some o)
    (he : Ends i n ⟨o.mem, Function.update pc i o.pc⟩) (hk : n + p.loads = k) :
    Ends i k ⟨m, Function.update pc i p⟩ := by
  have ho' : (impl ι).run i m false p = some o := ho
  have hst : (lts ι).step ⟨m, Function.update pc i p⟩ (i, .run false) =
      some (o.events i, ⟨o.mem, Function.update pc i o.pc⟩) :=
    Impl.step_run.2 ⟨o, by simpa using ho', rfl, by simp⟩
  have hnext := Ends.next (by simpa using hp) hst he
  simp only [Function.update_self] at hnext
  rwa [hk] at hnext

/-- A thread that has won its ticket has no loop before it. -/
theorem ends_pushData (task : InferenceTask) (t : Nat) :
    Ends i 0 ⟨m, Function.update pc i (.pushData task t)⟩ :=
  ends_next rfl rfl (ends_next rfl rfl (ends_done rfl) rfl) rfl

theorem ends_popPublish (ctx : PopCtx) (h : Nat) (task : InferenceTask) :
    Ends i 0 ⟨m, Function.update pc i (.popPublish ctx h task)⟩ :=
  ends_next rfl rfl (ends_done (by cases ctx <;> rfl)) rfl

theorem ends_popData (ctx : PopCtx) (h : Nat) :
    Ends i 0 ⟨m, Function.update pc i (.popData ctx h)⟩ :=
  ends_next rfl rfl (ends_popPublish ctx h _) rfl

/-- At the current index the thread gives up or wins its ticket. -/
theorem ends_current (hm : Settled m) {c : Counter} (hidx : p.index = some (c, m.counter c)) :
    Ends i p.loads ⟨m, Function.update pc i p⟩ := by
  have hpush : ∀ task, Ends i 0 ⟨m, Function.update pc i (.pushCas task m.tail)⟩ := fun task =>
    ends_next rfl (if_pos ⟨rfl, rfl⟩) (ends_pushData task m.tail) rfl
  have hpop : ∀ ctx, Ends i 0 ⟨m, Function.update pc i (.popCas ctx m.head)⟩ := fun ctx =>
    ends_next rfl (if_pos ⟨rfl, rfl⟩) (ends_popData ctx m.head) rfl
  cases p <;> cases hidx
  case pushCas task => exact hpush task
  case popCas ctx => exact hpop ctx
  case pushSeq task =>
    rcases Int.le_iff_lt_or_eq.1 hm.tail with hlt | heq
    · exact ends_next rfl ((if_neg (Int.ne_of_lt hlt)).trans (if_pos hlt)) (ends_done rfl) rfl
    · exact ends_next rfl (if_pos heq) (hpush task) rfl
  case popSeq ctx =>
    rcases Int.le_iff_lt_or_eq.1 hm.head with hlt | heq
    · exact ends_next rfl ((if_neg (Int.ne_of_lt hlt)).trans (if_pos hlt)) (ends_done rfl) rfl
    · exact ends_next rfl (if_pos heq) (hpop ctx) rfl

/-- An access that reads the counter leaves one more iteration. -/
theorem ends_reads (hm : Settled m) (hr : Reads m false p) :
    Ends i 1 ⟨m, Function.update pc i p⟩ := by
  cases p
  case pushTail task => exact ends_next rfl rfl (ends_current hm (c := .tail) rfl) rfl
  case popHead ctx => exact ends_next rfl rfl (ends_current hm (c := .head) rfl) rfl
  case pushCas task t => exact ends_next rfl (if_neg hr) (ends_current hm (c := .tail) rfl) rfl
  case popCas ctx h => exact ends_next rfl (if_neg hr) (ends_current hm (c := .head) rfl) rfl
  all_goals exact False.elim hr

/-- A compare-exchange wins the ticket, or it reads the counter. -/
theorem ends_cas (hm : Settled m) {c : Counter} {t : Nat} (hidx : p.index = some (c, t))
    (hl : p.loads = 0) : ∃ n ≤ 1, Ends i n ⟨m, Function.update pc i p⟩ := by
  by_cases hr : Reads m false p
  · exact ⟨1, Nat.le_refl 1, ends_reads hm hr⟩
  · refine ⟨0, Nat.zero_le 1, hl ▸ ends_current hm (c := c) ?_⟩
    cases p <;> cases hidx <;> simp only [Pc.loads, reduceCtorEq] at hl <;>
      simp only [Reads, not_not] at hr <;> rw [← hr.1] <;> rfl

/-- Two iterations are enough, one of them where the first has made its load. -/
theorem ends_working (hm : Settled m) (hp : p.working = true) :
    ∃ n, Ends i n ⟨m, Function.update pc i p⟩ ∧ n ≤ 2 ∧ (p.loads = 0 → n ≤ 1) := by
  have hone : ∀ {p : Pc}, (∃ n ≤ 1, Ends i n ⟨m, Function.update pc i p⟩) →
      ∃ n, Ends i n ⟨m, Function.update pc i p⟩ ∧ n ≤ 2 ∧ (p.loads = 0 → n ≤ 1) :=
    fun ⟨n, hn, he⟩ => ⟨n, he, by omega, fun _ => hn⟩
  -- from a sequence load the thread goes to its compare-exchange, gives up, or reads the counter
  have htwo : ∀ {p : Pc} {o : Outcome}, p.working = true → p.loads = 1 →
      run m false p = some o → (∃ n ≤ 1, Ends i n ⟨o.mem, Function.update pc i o.pc⟩) →
      ∃ n, Ends i n ⟨m, Function.update pc i p⟩ ∧ n ≤ 2 ∧ (p.loads = 0 → n ≤ 1) := by
    rintro p o hp hl ho ⟨n, hn, he⟩
    exact ⟨n + p.loads, ends_next hp ho he rfl, by omega, fun h0 => by omega⟩
  have hgone : ∀ m' : Mem, ∃ n ≤ 1, Ends i n ⟨m', Function.update pc i .idle⟩ := fun _ =>
    ⟨0, Nat.zero_le 1, ends_done rfl⟩
  cases p <;> simp only [Pc.working, reduceCtorEq] at hp
  case pushStop task =>
    by_cases hs : m.stopFlag = true
    · exact hone ⟨0, Nat.zero_le 1, ends_next rfl (if_pos hs) (ends_done rfl) rfl⟩
    · exact hone ⟨1, Nat.le_refl 1, ends_next rfl (if_neg hs) (ends_reads hm trivial) rfl⟩
  case pushTail task => exact hone ⟨1, Nat.le_refl 1, ends_reads hm trivial⟩
  case popHead ctx => exact hone ⟨1, Nat.le_refl 1, ends_reads hm trivial⟩
  case pushCas task t => exact hone (ends_cas hm rfl rfl)
  case popCas ctx h => exact hone (ends_cas hm rfl rfl)
  case pushData task t => exact hone ⟨0, Nat.zero_le 1, ends_pushData task t⟩
  case pushPublish t => exact hone ⟨0, Nat.zero_le 1, ends_next rfl rfl (ends_done rfl) rfl⟩
  case popData ctx h => exact hone ⟨0, Nat.zero_le 1, ends_popData ctx h⟩
  case popPublish ctx h task => exact hone ⟨0, Nat.zero_le 1, ends_popPublish ctx h task⟩
  case pushSeq task t =>
    rcases Int.lt_trichotomy (sdiff64 (m.cell t).sequence t) 0 with hlt | heq | hgt
    · exact htwo rfl rfl ((if_neg (Int.ne_of_lt hlt)).trans (if_pos hlt)) (hgone m)
    · exact htwo rfl rfl (if_pos heq) (ends_cas hm rfl rfl)
    · exact htwo rfl rfl ((if_neg (Int.ne_of_gt hgt)).trans (if_neg (Int.lt_asymm hgt)))
        ⟨1, Nat.le_refl 1, ends_reads hm trivial⟩
  case popSeq ctx h =>
    rcases Int.lt_trichotomy (sdiff64 (m.cell h).sequence (add64 h 1)) 0 with hlt | heq | hgt
    · exact htwo rfl rfl ((if_neg (Int.ne_of_lt hlt)).trans (if_pos hlt))
        ⟨0, Nat.zero_le 1, ends_done rfl⟩
    · exact htwo rfl rfl (if_pos heq) (ends_cas hm rfl rfl)
    · exact htwo rfl rfl ((if_neg (Int.ne_of_gt hgt)).trans (if_neg (Int.lt_asymm hgt)))
        ⟨1, Nat.le_refl 1, ends_reads hm trivial⟩

end

/-! ## Giving up -/

/-- A call gives up at the index that is the counter. -/
def AtCounter (h : List (Event ι Obs)) : Event ι Obs → Prop
  | .obs _ (.full t) => t = wins h .tail
  | .obs _ (.none k) => k = wins h .head
  | _ => True

/-- Or it is a push, and so far behind that the sequence has gone below its index again. -/
def Current (h : List (Event ι Obs)) (e : Event ι Obs) : Prop :=
  AtCounter h e ∨ ∃ i t, e = .obs i (.full t) ∧ t + 2 ^ 63 ≤ wins h .tail + 1023

section
variable [DecidableEq ι] {h : List (Event ι Obs)} {s : State ι}

theorem gives_up_current (hr : (lts ι).Reach h s) (hb : (tailWins h).length < 2 ^ 63) :
    Past Current h := by
  refine Lts.Reach.inv_while (I := fun h _ => Past Current h)
    (B := fun h _ => (tailWins h).length < 2 ^ 63) (fun h s l es s' _ hb => ?_)
    (fun _ _ => .nil) (fun h s l es s' hreach hb hp hs => ?_) hr hb
  · rw [tailWins_append, List.length_append] at hb
    omega
  rw [tailWins_append, List.length_append] at hb
  have hi := inv hreach (by omega)
  have htl := hi.tail_eq
  obtain ⟨i, op | weak⟩ := l
  · obtain ⟨-, rfl, rfl⟩ := Impl.step_call.1 hs
    exact hp.append_one (.inl trivial)
  obtain ⟨o, ho, rfl, rfl⟩ := Impl.step_run.1 hs
  have hok := hi.thread i
  refine past_gives_up hp ho (fun task t hpc hneg => ?_) (fun ctx k hpc hneg => ?_) ?_
  · rw [hpc] at hok
    rcases hi.tail_neg (by omega) hok hneg with ⟨ht, -⟩ | hfar
    · exact .inl (ht.trans htl)
    · exact .inr ⟨i, t, rfl, hfar.trans_eq (congrArg (· + 1023) htl)⟩
  · rw [hpc] at hok
    exact .inl ((hi.head_neg (by omega) hok hneg).1.trans hi.head_eq)
  · intro h e hfull hnone
    refine .inl ?_
    match e with
    | .obs i (.full t) => exact absurd rfl (hfull i t)
    | .obs i (.none k) => exact absurd rfl (hnone i k)
    | .obs _ .stopped | .obs _ (.tailWin _ _) | .obs _ (.pushed _) | .obs _ (.headWin _)
    | .obs _ (.popped _ _) | .call _ _ | .ret _ _ => trivial

end

/-- Thread `true` has loaded `tail` and sleeps; thread `false` pushes and pops `n` times. -/
theorem reach_asleep (n : Nat) : ∃ (h : List (Event Bool Obs)) (s : State Bool) (q : Fifo),
    (lts Bool).Reach h s ∧ s.pc true = .pushSeq .empty 0 ∧ s.pc false = .idle ∧ Rep q s.mem ∧
    q.tasks = [] ∧ q.stopped = false ∧ q.pushed = n ∧ (tailWins h).length = n := by
  induction n with
  | zero =>
    have r0 := Impl.reach_call (M := impl Bool) (i := true) (.init rfl) rfl (.push .empty)
    have r1 := Impl.reach_run (c := false) r0 rfl
    have r2 := Impl.reach_run (c := false) r1 rfl
    exact ⟨_, _, {}, r2, rfl, rfl, .init, rfl, rfl, rfl, rfl⟩
  | succ n ih =>
    obtain ⟨h, s, q, hr, htrue, hfalse, hR, hq, hstop, hpush, ht⟩ := ih
    have hf : ¬ q.Full (some 1024) := by simp [hq]
    obtain ⟨es, m, hr1, hR1, het, -, -⟩ := hR.reach_push hr hfalse hstop hf .empty
    obtain ⟨rest, es', m', hrest, hr2, hR2, het'⟩ :=
      hR1.reach_pop (s := ⟨m, s.pc⟩) hr1 hfalse (by simp)
    refine ⟨_, _, _, hr2, htrue, hfalse, hR2, ?_, hstop, by simp [hpush], ?_⟩
    · rw [hq] at hrest
      exact (List.cons.inj hrest).2.symm
    · rw [tailWins_append, tailWins_append, het, het', List.append_nil, List.length_append, ht,
        List.length_singleton]

/-- After `2 ^ 63 - 1023` of them the sequence of the cell is `2 ^ 63`, which is negative. -/
theorem stale_failure : ¬ ∀ (h : List (Event Bool Obs)) s, (lts Bool).Reach h s →
    (tailWins h).length < 2 ^ 63 → Past AtCounter h := by
  intro hall
  obtain ⟨h, s, q, hr, htrue, -, hR, hq, -, hpush, ht⟩ := reach_asleep (2 ^ 63 - 1023)
  have hfront : front q = 2 ^ 63 - 1023 := by simp [front, hq, hpush]
  have hseq : (s.mem.cell 0).sequence = 2 ^ 63 :=
    (seq_congr s.mem (show 0 % 1024 = 2 ^ 63 % 1024 by decide)).trans
      (hR.free (2 ^ 63) (by omega) (by omega))
  have hdiff : sdiff64 (s.mem.cell 0).sequence 0 = -2 ^ 63 := by
    rw [hseq]
    decide
  have hne : ¬ sdiff64 (s.mem.cell 0).sequence 0 = 0 := by omega
  have hneg : sdiff64 (s.mem.cell 0).sequence 0 < 0 := by omega
  have hrun : run s.mem false (s.pc true) =
      some { obs := [.full 0], ret := some (.bool false), mem := s.mem } := by
    rw [htrue]
    simp only [run]
    rw [if_neg hne, if_pos hneg]
  have hr' := Impl.reach_step hr (Impl.step_run.2 ⟨_, hrun, rfl, rfl⟩)
  have hbad := hall _ _ hr' (by simp [tailWins, Outcome.events] at ht ⊢; omega) h
    (.obs true (.full 0)) [.ret true (.bool false)] rfl
  change 0 = (tailWins h).length at hbad
  omega

section
variable [DecidableEq ι] {h : List (Event ι Obs)} {s : State ι}

/-- **Retry loops** of a run of fewer than `2 ^ 63` tickets. A call gives up at a current index. A
retry tells that another thread has advanced the counter since this one read it last. A thread that
runs alone is out of its push or pop after two iterations. -/
theorem retry_loops (hr : (lts ι).Reach h s) (hb : (tailWins h).length < 2 ^ 63) :
    (∀ c, s.mem.counter c = wins h c) ∧
    (Past Current h ∧ Past (Justified Answers) h) ∧
    (∀ i, Retries s.mem (s.pc i) → (∃ h0 h1, h = h0 ++ h1 ∧ LastRead i h0 h1 s) ∧
      ∀ h0 h1, h = h0 ++ h1 → LastRead i h0 h1 s →
        ∃ j e, j ≠ i ∧ .obs j e ∈ h1 ∧ e.advances = (s.pc i).index.map Prod.fst) ∧
    ∀ i, (s.pc i).working = true →
      ∃ n, Ends i n s ∧ n ≤ 2 ∧ ((s.pc i).loads = 0 → n ≤ 1) := by
  have hi := inv hr hb
  have htl := hi.tail_eq
  have hm := hi.settled (by omega)
  refine ⟨hi.counter_eq, ⟨gives_up_current hr hb, (calls.reach hr).2⟩,
    fun i hretry => ⟨?_, ?_⟩, fun i hp => ?_⟩
  · obtain ⟨c, t, hidx, -⟩ := hm.stale hretry
    exact exists_lastRead hr hidx
  · rintro h0 h1 rfl hl
    exact retry_advanced hl hb hretry
  · have hends : ∃ n, Ends i n ⟨s.mem, Function.update s.pc i (s.pc i)⟩ ∧ n ≤ 2 ∧
        ((s.pc i).loads = 0 → n ≤ 1) := ends_working hm hp
    rwa [Function.update_eq_self] at hends

end

/-- A push overtaken between its loads by another one goes round its loop. -/
theorem retry_loops_run : ∃ h s, (lts Bool).Reach h s ∧ Retries s.mem (s.pc true) ∧
    (∃ h0 h1, h = h0 ++ h1 ∧ LastRead true h0 h1 s ∧ ∃ e, .obs false e ∈ h1) ∧
    ∃ n, Ends true n s ∧ n ≤ 2 := by
  have hrun : ((lts Bool).exec (impl Bool).init
      ((true, .call (.push .empty)) :: List.replicate 2 (true, .run false) ++
        (false, .call (.push .empty)) :: List.replicate 6 (false, .run false))).map (fun r =>
          (tailWins r.1, r.2.pc true, sdiff64 (r.2.mem.cell 0).sequence 0)) =
        some ([(false, .empty)], .pushSeq .empty 0, 1) := by
    decide +kernel
  obtain ⟨⟨h, s⟩, he, heq⟩ := Option.map_eq_some_iff.1 hrun
  obtain ⟨htail, heq⟩ := Prod.mk.inj heq
  obtain ⟨hpc, hdiff⟩ := Prod.mk.inj heq
  have hr : (lts Bool).Reach h s := .of_exec rfl he
  have hb : (tailWins h).length < 2 ^ 63 := by
    rw [show tailWins h = _ from htail]
    decide
  have hretry : Retries s.mem (s.pc true) := by
    rw [show s.pc true = _ from hpc]
    exact Int.one_pos.trans_eq hdiff.symm
  obtain ⟨-, -, hretries, halone⟩ := retry_loops hr hb
  obtain ⟨⟨h0, h1, hh, hl⟩, hadv⟩ := hretries true hretry
  obtain ⟨j, e, hj, hje, -⟩ := hadv h0 h1 hh hl
  obtain ⟨n, hends, hn, -⟩ := halone true (by rw [show s.pc true = _ from hpc]; rfl)
  exact ⟨h, s, hr, hretry, ⟨h0, h1, hh, hl, e, Bool.eq_false_of_not_eq_true hj ▸ hje⟩, n, hends, hn⟩

end Lumen.Concurrency.MPMCTaskQueue
