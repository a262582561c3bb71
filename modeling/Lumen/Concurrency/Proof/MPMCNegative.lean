import Lumen.Concurrency.Proof.MPMCFifo
import Lumen.Concurrency.Proof.MPMCSeq

/-!
# What the negative answers of `MPMCTaskQueue` mean

A call that gives up has looked at one cell. `negative_answers` says what that cell tells: the
index is current, and the ring is full or the consumer of the cell has not yet released it; the
ring is empty or the producer of the cell has not yet published it. Other threads' completed
operations do not count: `negative_not_real` has a `pop` that finds nothing while a completed push
waits, and a `push` that is refused while a slot has been consumed.
-/

set_option autoImplicit false

namespace Lumen.Concurrency.MPMCTaskQueue

open Lumen.Lib Lumen.Lib.Shared Lumen.Core ITaskQueue

variable {ι : Type*}

/-! ## The failing load -/

section
variable {W : List (ι × InferenceTask)} {H : List ι} {s : State ι} {t k : Nat}

/-- The index is current, or it is so far behind that the sequence of its cell, taken as a signed
number, has gone below it. -/
theorem Inv.tail_neg (hi : Inv W H s) (hb : s.mem.tail < 2 ^ 63) (ht : t ≤ s.mem.tail)
    (hneg : sdiff64 (s.mem.cell t).sequence t < 0) :
    (t = s.mem.tail ∧ (s.mem.tail = s.mem.head + capacity ∨
      ∃ i j, (s.pc i).headTicket = some j ∧ t = j + capacity)) ∨
    t + 2 ^ 63 ≤ s.mem.tail + 1023 := by
  have hcap : capacity = 1024 := rfl
  have hle := hi.head_le
  have hle' := hi.tail_le
  change sdiff64 (s.mem.seq t) t < 0 at hneg
  obtain ⟨k', hc, h1, h2, hcase⟩ := hi.seq_cases t
  rcases Nat.lt_or_ge (s.mem.seq t) (t + 2 ^ 63) with hub | hub
  · rw [sdiff64_neg hub (by omega)] at hneg
    obtain ⟨h3, ⟨-, -, hs'⟩ | hs'⟩ | ⟨h3, hs' | ⟨i, j, hj, he, hs'⟩⟩ := hcase
    · exact .inl ⟨by omega, .inl (by omega)⟩
    · exact .inl ⟨by omega, .inl (by omega)⟩
    · omega
    · exact .inl ⟨by omega, .inr ⟨i, j, hj, by omega⟩⟩
  · obtain ⟨h3, ⟨-, -, hs'⟩ | hs'⟩ | ⟨h3, hs' | ⟨i, j, hj, he, hs'⟩⟩ := hcase <;> omega

theorem Inv.head_neg (hi : Inv W H s) (hb : s.mem.tail < 2 ^ 63) (hk : k ≤ s.mem.head)
    (hneg : sdiff64 (s.mem.cell k).sequence (add64 k 1) < 0) : k = s.mem.head ∧
      (s.mem.head = s.mem.tail ∨ ∃ i, (s.pc i).tailTicket = some k) := by
  have hcap : capacity = 1024 := rfl
  have hle := hi.head_le
  have hle' := hi.tail_le
  rw [add64_of_lt (by omega)] at hneg
  change sdiff64 (s.mem.seq k) (k + 1) < 0 at hneg
  obtain ⟨k', hc, h1, h2, hcase⟩ := hi.seq_cases k
  have hs : s.mem.seq k < k + 1 := by
    have hub : s.mem.seq k < k + 1 + 2 ^ 63 := by
      obtain ⟨h3, ⟨-, -, hs⟩ | hs⟩ | ⟨h3, hs | ⟨-, j, -, he, hs⟩⟩ := hcase <;> omega
    rwa [sdiff64_neg hub (by omega)] at hneg
  obtain ⟨h3, ⟨i, hi', hs'⟩ | hs'⟩ | ⟨h3, hs' | ⟨i, j, hj, he, hs'⟩⟩ := hcase
  · obtain rfl : k = k' := by omega
    exact ⟨by omega, .inr ⟨i, hi'⟩⟩
  · omega
  · exact ⟨by omega, .inl (by omega)⟩
  · exact ⟨by omega, .inl (by omega)⟩

end

/-- What is so at the instant of a failing load. The index is the counter; then for `push` the
ring is full or the ticket a lap before is claimed and not yet returned, and for `pop` every
completed push is claimed or the push of the ticket is still at work. -/
def NegativeOk (h : List (Event ι Obs)) : Event ι Obs → Prop
  | .obs _ (.full t) => t = (tailWins h).length ∧
      ((tailWins h).length = (headWins h).length + capacity ∨
        ∃ j, t = j + capacity ∧ j < (headWins h).length ∧ j ∉ (popped h).map Prod.fst)
  | .obs _ (.none k) => k = (headWins h).length ∧
      ((∀ t ∈ pushed h, t < (headWins h).length) ∨ (k < (tailWins h).length ∧ k ∉ pushed h))
  | _ => True

section
variable {h : List (Event ι Obs)} {s : State ι}

/-- Only the failing load of a push shows it. -/
theorem run_full {m : Mem} {weak : Bool} {p : Pc} {o : Outcome} {t : Nat}
    (ho : run m weak p = some o) (ht : Obs.full t ∈ o.obs) :
    ∃ task, p = .pushSeq task t ∧ sdiff64 (m.cell t).sequence t < 0 := by
  cases p <;> simp only [run] at ho
  case pushSeq task t' =>
    split at ho
    · cases ho
      cases ht
    · split at ho <;> rename_i hneg <;> cases ho
      · obtain rfl : t = t' := by simpa using ht
        exact ⟨task, rfl, hneg⟩
      · cases ht
  case popPublish ctx k task =>
    cases ho
    cases ctx <;> simp [popSome] at ht
  all_goals
    (repeat' split at ho) <;> cases ho <;> simp at ht

/-- Only the failing load of a pop shows it. -/
theorem run_none {m : Mem} {weak : Bool} {p : Pc} {o : Outcome} {k : Nat}
    (ho : run m weak p = some o) (hk : Obs.none k ∈ o.obs) :
    ∃ ctx, p = .popSeq ctx k ∧ sdiff64 (m.cell k).sequence (add64 k 1) < 0 := by
  cases p <;> simp only [run] at ho
  case popSeq ctx k' =>
    split at ho
    · cases ho
      cases hk
    · split at ho <;> rename_i hneg <;> cases ho
      · obtain rfl : k = k' := by simpa using hk
        exact ⟨ctx, rfl, hneg⟩
      · cases hk
  case popPublish ctx k task =>
    cases ho
    cases ctx <;> simp [popSome] at hk
  all_goals
    (repeat' split at ho) <;> cases ho <;> simp at hk

/-- What holds at the failing loads of an access holds of all that it shows. -/
theorem past_gives_up {P : List (Event ι Obs) → Event ι Obs → Prop} {m : Mem} {weak : Bool}
    {p : Pc} {o : Outcome} {i : ι} (hp : Past P h) (ho : run m weak p = some o)
    (hfull : ∀ task t, p = .pushSeq task t → sdiff64 (m.cell t).sequence t < 0 →
      P h (.obs i (.full t)))
    (hnone : ∀ ctx k, p = .popSeq ctx k → sdiff64 (m.cell k).sequence (add64 k 1) < 0 →
      P h (.obs i (.none k)))
    (hother : ∀ h e, (∀ i t, e ≠ .obs i (.full t)) → (∀ i k, e ≠ .obs i (.none k)) → P h e) :
    Past P (h ++ o.events i) := by
  refine past_events_one hp (run_obs_le ho) (fun x hx => ?_)
    fun r _ => hother _ _ (by simp) (by simp)
  cases x with
  | full t =>
    obtain ⟨task, hpc, hneg⟩ := run_full ho hx
    exact hfull task t hpc hneg
  | none k =>
    obtain ⟨ctx, hpc, hneg⟩ := run_none ho hx
    exact hnone ctx k hpc hneg
  | _ => exact hother _ _ (by simp) (by simp)

theorem run_negative (hi : Inv (tailWins h) (headWins h) s) (hret : Returned h s)
    (hb : s.mem.tail + capacity ≤ 2 ^ 63) (hp : Past NegativeOk h) {weak : Bool} {i : ι}
    {o : Outcome} (ho : run s.mem weak (s.pc i) = some o) : Past NegativeOk (h ++ o.events i) := by
  have hcap : capacity = 1024 := rfl
  have hok := hi.thread i
  refine past_gives_up hp ho (fun task t hpc hneg => ?_) (fun ctx k hpc hneg => ?_) ?_
  · rw [hpc] at hok
    obtain ⟨rfl, hfull⟩ := (hi.tail_neg (by omega) hok hneg).resolve_right (by omega)
    simp only [NegativeOk, ← hi.tail_eq, ← hi.head_eq, true_and]
    refine hfull.imp id ?_
    rintro ⟨j, k, hk, he⟩
    refine ⟨k, he, (hi.consumer hk).1, ?_⟩
    intro hm
    exact (hret.pop.done_lt k hm).2 ⟨j, hk⟩
  · rw [hpc] at hok
    obtain ⟨rfl, hempty⟩ := hi.head_neg (by omega) hok hneg
    simp only [NegativeOk, ← hi.tail_eq, ← hi.head_eq, true_and]
    rcases hempty with he | ⟨j, hj⟩
    · exact .inl fun t ht => he ▸ (hret.push.done_lt t ht).1
    · exact .inr ⟨(hi.producer hj).2.1, fun hm => (hret.push.done_lt _ hm).2 ⟨j, hj⟩⟩
  · intro h e hfull hnone
    match e with
    | .obs i (.full t) => exact absurd rfl (hfull i t)
    | .obs i (.none k) => exact absurd rfl (hnone i k)
    | .obs _ .stopped | .obs _ (.tailWin _ _) | .obs _ (.pushed _) | .obs _ (.headWin _)
    | .obs _ (.popped _ _) | .call _ _ | .ret _ _ => trivial

/-- `i` has won the ticket `0`; `j` completes the push of the ticket `1`; `k` looks at the cell of
the ticket `0`. -/
def stalledProducer (i j k : ι) : List (ι × Act Bool) :=
  (i, .call (.push .empty)) :: List.replicate 4 (i, .run false) ++
    (j, .call (.push .empty)) :: List.replicate 6 (j, .run false) ++
    (k, .call .pop) :: List.replicate 2 (k, .run false)

theorem stalledProducer_run : ∃ s, (lts (Fin 3)).exec (impl (Fin 3)).init (stalledProducer 0 1 2) =
    some ([.call 0 (.push .empty), .obs 0 (.tailWin 0 .empty), .call 1 (.push .empty),
      .obs 1 (.tailWin 1 .empty), .obs 1 (.pushed 1), .ret 1 (.bool true), .call 2 .pop,
      .obs 2 (.none 0), .ret 2 (.task none)], s) := ⟨_, rfl⟩

/-- **Negative answers** of a run of fewer than `2 ^ 63 - 1024` tickets. A call that answers `false`
or finds nothing has shown its failing load (`Answers`), and `NegativeOk` holds at that load. -/
theorem negative_answers [DecidableEq ι] (hr : (lts ι).Reach h s)
    (hb : (tailWins h).length + capacity ≤ 2 ^ 63) :
    Past NegativeOk h ∧ Past (Justified Answers) h := by
  have hcap : capacity = 1024 := rfl
  refine ⟨?_, (calls.reach hr).2⟩
  refine Lts.Reach.inv_while (I := fun h _ => Past NegativeOk h)
    (B := fun h _ => (tailWins h).length + capacity ≤ 2 ^ 63) (fun h s l es s' _ hb => ?_)
    (fun _ _ => .nil) (fun h s l es s' hreach hb hp hs => ?_) hr hb
  · rw [tailWins_append, List.length_append] at hb
    omega
  rw [tailWins_append, List.length_append] at hb
  obtain ⟨i, op | weak⟩ := l
  · obtain ⟨-, rfl, rfl⟩ := Impl.step_call.1 hs
    exact hp.append_one trivial
  · obtain ⟨o, ho, rfl, rfl⟩ := Impl.step_run.1 hs
    have hi := inv hreach (by omega)
    have htl := hi.tail_eq
    exact run_negative hi (returned hreach (by omega)).1 (by omega) hp ho

theorem negative_answers_run : ∃ (h : List (Event (Fin 3) Obs)) (s : State (Fin 3)),
    (lts (Fin 3)).Reach h s ∧ .obs 2 (.none 0) ∈ h ∧ Past NegativeOk h := by
  obtain ⟨s, he⟩ := stalledProducer_run
  have hr := Lts.Reach.of_exec rfl he
  exact ⟨_, s, hr, by simp, (negative_answers hr (by decide)).1⟩

end

/-! ## Stalled threads -/

/-- Every `pop` that found nothing had an instant, in its call, at which each task whose push had
returned `true` was claimed. -/
def PopReal (h : List (Event ι Obs)) : Prop :=
  ∀ h0 i mid rest, h = h0 ++ .call i .pop :: (mid ++ .ret i (.task none) :: rest) →
    (∀ op, .call i op ∉ mid) → ∃ m, m <+: mid ∧
      ∀ t ∈ pushed (h0 ++ .call i .pop :: m), t < (headWins (h0 ++ .call i .pop :: m)).length

/-- Every `push` that was refused had an instant, in its call, at which the ring was full. -/
def PushReal (h : List (Event ι Obs)) : Prop :=
  ∀ h0 i task mid rest, h = h0 ++ .call i (.push task) :: (mid ++ .ret i (.bool false) :: rest) →
    (∀ op, .call i op ∉ mid) → ∃ m, m <+: mid ∧
      (tailWins (h0 ++ .call i (.push task) :: m)).length =
        (headWins (h0 ++ .call i (.push task) :: m)).length + capacity

/-- A history of fewer than `2 ^ 63` tickets and no shutdown. -/
def Plain (h : List (Event ι Obs)) : Prop :=
  (tailWins h).length < 2 ^ 63 ∧ ∀ i, .call i .shutdown ∉ h

section
variable [DecidableEq ι] {h : List (Event ι Obs)} {s : State ι} {q : Fifo} {i : ι}

/-- A push of an idle thread, no other thread moving. -/
theorem Rep.reach_push (hR : Rep q s.mem) (hr : (lts ι).Reach h s) (hi : s.pc i = .idle)
    (hstop : q.stopped = false) (hf : ¬ q.Full (some 1024)) (task : InferenceTask) :
    ∃ es m, (lts ι).Reach (h ++ es) ⟨m, s.pc⟩ ∧
      Rep { q with tasks := q.tasks ++ [task], pushed := q.pushed + 1 } m ∧
      tailWins es = [(i, task)] ∧ headWins es = [] ∧ ∀ j, .call j .shutdown ∉ es := by
  have hdiff := hR.tail_diff
  rw [if_neg hf] at hdiff
  have hgo : ¬ s.mem.stopFlag = true := by simp [hR.stop, hstop]
  have hback : Function.update s.pc i Pc.idle = s.pc := by rw [← hi, Function.update_eq_self]
  have r0 := Impl.reach_call hr hi (.push task)
  have r1 := Impl.reach_run (c := false) r0 (if_neg hgo)
  have r2 := Impl.reach_run (c := false) r1 rfl
  have r3 := Impl.reach_run (c := false) r2 (if_pos hdiff)
  have r4 := Impl.reach_run (c := false) r3 (if_pos ⟨rfl, rfl⟩)
  have r5 := Impl.reach_run (c := false) r4 rfl
  have r6 := Impl.reach_run (c := false) r5 rfl
  simp only [List.append_assoc] at r6
  rw [hback] at r6
  refine ⟨_, _, r6, hR.push hf task, ?_, ?_, fun j => ?_⟩
  · simp [tailWins, Outcome.events]
  · simp [headWins, Outcome.events]
  · simp [Outcome.events]

/-- A pop of an idle thread, no other thread moving. -/
theorem Rep.reach_pop (hR : Rep q s.mem) (hr : (lts ι).Reach h s) (hi : s.pc i = .idle)
    (hne : q.tasks ≠ []) : ∃ rest es m, q.tasks = s.mem.data s.mem.head :: rest ∧
      (lts ι).Reach (h ++ es) ⟨m, s.pc⟩ ∧ Rep { q with tasks := rest } m ∧ tailWins es = [] := by
  have hdiff := hR.head_diff
  rw [if_neg hne] at hdiff
  have hback : Function.update s.pc i Pc.idle = s.pc := by rw [← hi, Function.update_eq_self]
  have r0 := Impl.reach_call hr hi .pop
  have r1 := Impl.reach_run (c := false) r0 rfl
  have r2 := Impl.reach_run (c := false) r1 (if_pos hdiff)
  have r3 := Impl.reach_run (c := false) r2 (if_pos ⟨rfl, rfl⟩)
  have r4 := Impl.reach_run (c := false) r3 rfl
  have r5 := Impl.reach_run (c := false) r4 rfl
  obtain ⟨rest, hq, hR'⟩ := hR.pop hne
    (({ s.mem with head := add64 s.mem.head 1 } : Mem).cell s.mem.head).data.movedFrom
  simp only [List.append_assoc, popSome] at r5
  rw [hback] at r5
  exact ⟨rest, _, _, hq, r5, hR', by simp [tailWins, Outcome.events]⟩

end

/-- Thread `0` fills the ring one push at a time. -/
theorem reach_full (n : Nat) (hn : n ≤ 1024) : ∃ (h : List (Event (Fin 3) Obs)) (s : State (Fin 3))
    (q : Fifo), (lts (Fin 3)).Reach h s ∧ (impl (Fin 3)).Quiescent s ∧ Rep q s.mem ∧
    q.tasks.length = n ∧ q.pushed = n ∧ q.stopped = false ∧ (tailWins h).length = n ∧
    headWins h = [] ∧ ∀ i, .call i .shutdown ∉ h := by
  induction n with
  | zero =>
    exact ⟨[], (impl (Fin 3)).init, {}, .init rfl, fun _ => rfl, .init, rfl, rfl, rfl, rfl, rfl,
      fun _ => by simp⟩
  | succ n ih =>
    obtain ⟨h, s, q, hr, hq, hR, hlen, hpush, hstop, ht, hh, hs⟩ := ih (by omega)
    have hf : ¬ q.Full (some 1024) := by
      rw [Fifo.full_some]
      omega
    obtain ⟨es, m, hr', hR', het, heh, hes⟩ := hR.reach_push hr (hq 0) hstop hf .empty
    refine ⟨_, _, _, hr', hq, hR', ?_, ?_, hstop, ?_, ?_, fun i => ?_⟩
    · simp [hlen]
    · simp [hpush]
    · rw [tailWins_append, List.length_append, ht, het, List.length_singleton]
    · rw [headWins_append, hh, heh, List.append_nil]
    · exact fun hm => (List.mem_append.1 hm).elim (hs i) (hes i)

/-- With the ring full, thread `1` wins the ticket `0` and stalls; thread `0` is refused. -/
theorem stalledConsumer_run : ∃ (h : List (Event (Fin 3) Obs)) (s : State (Fin 3)),
    (lts (Fin 3)).Reach (h ++ .call 0 (.push .empty) ::
      ([.obs 0 (.full 1024)] ++ .ret 0 (.bool false) :: [])) s ∧
    (tailWins h).length = 1024 ∧ (headWins h).length = 1 ∧ ∀ i, .call i .shutdown ∉ h := by
  obtain ⟨h, s, q, hr, hq, hR, hlen, hpush, hstop, ht, hh, hs⟩ := reach_full 1024 (Nat.le_refl _)
  have htail : s.mem.tail = 1024 := by simp [hR.tail_eq, hpush]
  have hhead : s.mem.head = 0 := by simp [hR.head_eq, front, hpush, hlen]
  have hgo : ¬ s.mem.stopFlag = true := by simp [hR.stop, hstop]
  have hpop := hR.head_diff
  rw [if_neg (List.ne_nil_of_length_pos (by omega))] at hpop
  have hfull := hR.tail_diff
  rw [if_pos (Fifo.full_some.2 (by omega))] at hfull
  have r0 := Impl.reach_call hr (hq 1) .pop
  have r1 := Impl.reach_run (c := false) r0 rfl
  have r2 := Impl.reach_run (c := false) r1 (if_pos hpop)
  have r3 := Impl.reach_run (c := false) r2 (if_pos ⟨rfl, rfl⟩)
  -- the push, with the consumer stalled before it reads its cell
  have r4 := Impl.reach_call (i := 0) r3 (hq 0) (.push .empty)
  have r5 := Impl.reach_run (c := false) r4 (if_neg hgo)
  have r6 := Impl.reach_run (c := false) r5 rfl
  have hne : ¬ sdiff64 (s.mem.cell s.mem.tail).sequence s.mem.tail = 0 := by omega
  have hneg : sdiff64 (s.mem.cell s.mem.tail).sequence s.mem.tail < 0 := by omega
  have r7 := Impl.reach_run (c := false) r6 ((if_neg hne).trans (if_pos hneg))
  obtain ⟨s', r8⟩ : ∃ s', (lts (Fin 3)).Reach _ s' := ⟨_, r7⟩
  refine ⟨h ++ [.call 1 .pop, .obs 1 (.headWin 0)], s', ?_, ?_, ?_, ?_⟩
  · rw [htail, hhead] at r8
    simpa [Outcome.events] using r8
  · simpa [tailWins] using ht
  · simpa [headWins] using hh
  · simpa using hs

/-- **Stalled threads show.** A producer between its compare-exchange and its store makes a `pop`
find nothing although a later push has returned `true`; a consumer there makes a `push` fail
although only 1023 tasks are held. -/
theorem negative_not_real :
    (¬ ∀ (h : List (Event (Fin 3) Obs)) s, (lts (Fin 3)).Reach h s → Plain h → PopReal h) ∧
    (¬ ∀ (h : List (Event (Fin 3) Obs)) s, (lts (Fin 3)).Reach h s → Plain h → PushReal h) := by
  refine ⟨fun hall => ?_, fun hall => ?_⟩
  · obtain ⟨s, he⟩ := stalledProducer_run
    obtain ⟨m, hm, hclaim⟩ := hall _ s (Lts.Reach.of_exec rfl he) ⟨by decide, by simp⟩
      [.call 0 (.push .empty), .obs 0 (.tailWin 0 .empty), .call 1 (.push .empty),
        .obs 1 (.tailWin 1 .empty), .obs 1 (.pushed 1), .ret 1 (.bool true)] 2 [.obs 2 (.none 0)] []
      rfl (by simp)
    have hlt := hclaim 1 (by simp [pushed])
    rcases List.prefix_cons_iff.1 hm with rfl | ⟨m', rfl, hm'⟩
    · exact absurd hlt (by decide)
    · obtain rfl := List.prefix_nil.1 hm'
      exact absurd hlt (by decide)
  · obtain ⟨h, s, hr, ht, hh, hs⟩ := stalledConsumer_run
    have hplain : Plain (h ++ .call 0 (.push .empty) ::
        ([.obs 0 (.full 1024)] ++ .ret 0 (.bool false) :: [])) := by
      refine ⟨?_, fun i => by simpa using hs i⟩
      rw [tailWins_append, List.length_append, ht]
      decide
    obtain ⟨m, hm, hclaim⟩ := hall _ s hr hplain h 0 .empty [.obs 0 (.full 1024)] [] rfl (by simp)
    rw [tailWins_append, headWins_append, List.length_append, List.length_append, ht, hh] at hclaim
    rcases List.prefix_cons_iff.1 hm with rfl | ⟨m', rfl, hm'⟩
    · exact absurd hclaim (by decide)
    · obtain rfl := List.prefix_nil.1 hm'
      exact absurd hclaim (by decide)

end Lumen.Concurrency.MPMCTaskQueue
