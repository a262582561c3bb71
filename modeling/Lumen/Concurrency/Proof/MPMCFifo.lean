import Lumen.Lib.Ledger
import Lumen.Concurrency.Proof.MPMCCalls
import Lumen.Concurrency.Proof.MPMCInv

/-!
# `MPMCTaskQueue` is FIFO in ticket order

`pushed` and `popped` list the tickets whose operations have returned. Both counters hand out
tickets (`Ledger`): a ticket of `tail` is held by its producer until the push returns `true`, one
of `head` by its consumer until the task is returned (`returned`). What a consumer holds or has
returned for the ticket `k` is the task of the `k`-th producer (`fifo_tickets`).
-/

set_option autoImplicit false

namespace Lumen.Concurrency.MPMCTaskQueue

open Lumen.Lib Lumen.Lib.Shared Lumen.Core ITaskQueue

variable {ι : Type*}

/-- The tickets whose push has returned `true`. -/
def pushed (h : List (Event ι Obs)) : List Nat :=
  h.filterMap fun
    | .obs _ (.pushed t) => some t
    | _ => none

/-- The tickets whose pop has returned, with the tasks returned. -/
def popped (h : List (Event ι Obs)) : List (Nat × InferenceTask) :=
  h.filterMap fun
    | .obs _ (.popped t task) => some (t, task)
    | _ => none

@[simp] theorem pushed_append (h h' : List (Event ι Obs)) :
    pushed (h ++ h') = pushed h ++ pushed h' := List.filterMap_append

@[simp] theorem popped_append (h h' : List (Event ι Obs)) :
    popped (h ++ h') = popped h ++ popped h' := List.filterMap_append

/-- The tasks stored in the ring, oldest first. -/
def Mem.ring (m : Mem) : List InferenceTask :=
  (List.range (m.tail - m.head)).map fun k => m.data (m.head + k)

/-- Which tickets are still held and which have returned, and with which task. -/
structure Returned (h : List (Event ι Obs)) (s : State ι) : Prop where
  push : Ledger s.mem.tail (fun t => ∃ i, (s.pc i).tailTicket = some t) (pushed h)
  pop : Ledger s.mem.head (fun t => ∃ i, (s.pc i).headTicket = some t) ((popped h).map Prod.fst)
  task : ∀ p ∈ popped h, (tailWins h)[p.1]?.map Prod.snd = some p.2

theorem init_returned : Returned [] (impl ι).init :=
  ⟨.init (fun _ h => nomatch h), .init (fun _ h => nomatch h),
    fun _ hq => absurd hq List.not_mem_nil⟩

/-- A task returned by a pop stays the task of its ticket when more tickets are won. -/
theorem get_tailWins_append {h es : List (Event ι Obs)} {k : Nat} {x : InferenceTask}
    (hx : (tailWins h)[k]?.map Prod.snd = some x) :
    (tailWins (h ++ es))[k]?.map Prod.snd = some x := by
  obtain ⟨y, hy, rfl⟩ := Option.map_eq_some_iff.1 hx
  rw [tailWins_append, List.getElem?_append_left (List.getElem?_eq_some_iff.1 hy).1, hy,
    Option.map_some]

/-- Whichever caller the pop has, it returns `task` for the ticket `k`. -/
theorem popSome_spec (i : ι) (m : Mem) (k : Nat) (task : InferenceTask) (ctx : PopCtx) :
    (popSome m k task ctx).mem = m ∧ (popSome m k task ctx).pc.tailTicket = none ∧
      (popSome m k task ctx).pc.headTicket = none ∧
      pushed ((popSome m k task ctx).events i) = [] ∧
      popped ((popSome m k task ctx).events i) = [(k, task)] := by
  cases ctx <;> exact ⟨rfl, rfl, rfl, rfl, rfl⟩

section
variable {h : List (Event ι Obs)} {s : State ι}

theorem Returned.task_append (hr : Returned h s) {es : List (Event ι Obs)}
    (hes : ∀ q ∈ popped es, (tailWins (h ++ es))[q.1]?.map Prod.snd = some q.2) :
    ∀ q ∈ popped (h ++ es), (tailWins (h ++ es))[q.1]?.map Prod.snd = some q.2 := by
  intro q hq
  rw [popped_append, List.mem_append] at hq
  rcases hq with hq | hq
  · exact get_tailWins_append (hr.task q hq)
  · exact hes q hq

/-- With no operation in flight the ring holds what was pushed and not popped. -/
theorem Inv.ring_eq (hi : Inv (tailWins h) (headWins h) s) (hq : (impl ι).Quiescent s) :
    s.mem.ring = ((tailWins h).map Prod.snd).drop s.mem.head := by
  have htl := hi.tail_eq
  refine List.ext_getElem? fun k => ?_
  rw [Mem.ring, List.getElem?_map, List.getElem?_drop, List.getElem?_map]
  by_cases hk : k < s.mem.tail - s.mem.head
  · rcases hi.stored (s.mem.head + k) (by omega) (by omega) with ⟨i, hp⟩ | ⟨-, hd⟩
    · rw [hq i] at hp
      cases hp
    · rw [List.getElem?_range hk, Option.map_some, hd]
  · rw [List.getElem?_eq_none (by simpa using hk), List.getElem?_eq_none (by omega)]
    rfl

/-- The returned tickets, listed in ticket order with their tasks. -/
theorem Returned.popped_perm (hr : Returned h s) {W : List InferenceTask}
    (hW : W = (tailWins h).map Prod.snd) (hq : (impl ι).Quiescent s) (hle : s.mem.head ≤ W.length) :
    (popped h).Perm ((W.take s.mem.head).zipIdx.map Prod.swap) := by
  have hperm := hr.pop.perm fun t ⟨i, hi⟩ => by
    rw [hq i] at hi
    cases hi
  have hf : popped h = ((popped h).map Prod.fst).map fun k => (k, W.getD k .empty) := by
    rw [List.map_map]
    refine (List.map_id _).symm.trans (List.map_congr_left fun p hp => ?_)
    have := hr.task p hp
    rw [← List.getElem?_map, ← hW] at this
    simp [this]
  have hr' : (W.take s.mem.head).zipIdx.map Prod.swap =
      (List.range s.mem.head).map fun k => (k, W.getD k .empty) := by
    refine List.ext_getElem (by simp [hle]) fun k h1 h2 => ?_
    simp only [List.length_map, List.length_range] at h2
    simp [List.getD_eq_getElem?_getD, List.getElem?_eq_getElem (show k < W.length by omega)]
  rw [hf, hr']
  exact hperm.map _

end

/-! ## Preservation -/

section
variable [DecidableEq ι] {h : List (Event ι Obs)} {s s' : State ι} {i : ι}

/-- A step of a push: its tickets of `tail` are accounted for, those of `head` are as before. -/
theorem Returned.of_push (hr : Returned h s) {es : List (Event ι Obs)} {m : Mem} {p : Pc}
    (hpush : Ledger m.tail (fun t => ∃ j, (Function.update s.pc i p j).tailTicket = some t)
      (pushed (h ++ es)))
    (hes : popped es = []) (hh : m.head = s.mem.head) (hp : p.headTicket = (s.pc i).headTicket) :
    Returned (h ++ es) ⟨m, Function.update s.pc i p⟩ := by
  refine ⟨hpush, ?_, hr.task_append fun q hq => ?_⟩
  · rw [popped_append, hes, List.append_nil]
    exact hh ▸ hr.pop.congr (held_keep hp)
  · rw [hes] at hq
    cases hq

/-- A step of a pop. -/
theorem Returned.of_pop (hr : Returned h s) {es : List (Event ι Obs)} {m : Mem} {p : Pc}
    (hpop : Ledger m.head (fun k => ∃ j, (Function.update s.pc i p j).headTicket = some k)
      ((popped (h ++ es)).map Prod.fst))
    (htask : ∀ q ∈ popped es, (tailWins (h ++ es))[q.1]?.map Prod.snd = some q.2)
    (hes : pushed es = []) (ht : m.tail = s.mem.tail) (hp : p.tailTicket = (s.pc i).tailTicket) :
    Returned (h ++ es) ⟨m, Function.update s.pc i p⟩ := by
  refine ⟨?_, hpop, hr.task_append htask⟩
  rw [pushed_append, hes, List.append_nil]
  exact ht ▸ hr.push.congr (held_keep hp)

/-- A step that neither wins nor gives back a ticket. -/
theorem Returned.keep (hr : Returned h s) {es : List (Event ι Obs)} {m : Mem} {p : Pc}
    (he : pushed es = [] ∧ popped es = []) (hh : m.head = s.mem.head) (ht : m.tail = s.mem.tail)
    (hpt : p.tailTicket = (s.pc i).tailTicket) (hph : p.headTicket = (s.pc i).headTicket) :
    Returned (h ++ es) ⟨m, Function.update s.pc i p⟩ := by
  refine hr.of_push ?_ he.2 hh hph
  rw [pushed_append, he.1, List.append_nil]
  exact ht ▸ hr.push.congr (held_keep hpt)

theorem run_returned (hi : Inv (tailWins h) (headWins h) s) (hr : Returned h s) {weak : Bool}
    {o : Outcome} (ho : run s.mem weak (s.pc i) = some o)
    (hb : s.mem.tail < 2 ^ 63) :
    Returned (h ++ o.events i) ⟨o.mem, Function.update s.pc i o.pc⟩ := by
  have hle := hi.head_le
  have hok := hi.thread i
  cases hpc : s.pc i <;> simp only [hpc, run] at ho
  case pushCas task t =>
    split at ho <;> rename_i hc <;> cases ho
    · obtain ⟨rfl, -⟩ := hc
      have hadd : add64 s.mem.tail 1 = s.mem.tail + 1 := add64_of_lt (by omega)
      refine hr.of_push ?_ rfl rfl (by rw [hpc]; rfl)
      have hissue := hr.push.issue (held_issue (f := Pc.tailTicket) (i := i) (by rw [hpc]; rfl)
        (show (Pc.pushData task s.mem.tail).tailTicket = some s.mem.tail from rfl))
      simpa [pushed, Outcome.events, hadd] using hissue
    · exact hr.keep ⟨rfl, rfl⟩ rfl rfl (by rw [hpc]; rfl) (by rw [hpc]; rfl)
  case pushPublish t =>
    cases ho
    have hti : (s.pc i).tailTicket = some t := by rw [hpc]; rfl
    refine hr.of_push ?_ rfl rfl (by rw [hpc]; rfl)
    rw [pushed_append]
    exact hr.push.finish ⟨i, hti⟩ (held_finish hti rfl fun j hj => hi.producer_unique hj hti rfl)
  case popCas ctx k =>
    split at ho <;> rename_i hc <;> cases ho
    · obtain ⟨rfl, -⟩ := hc
      have hadd : add64 s.mem.head 1 = s.mem.head + 1 := add64_of_lt (by omega)
      refine hr.of_pop ?_ (fun q hq => absurd hq List.not_mem_nil) rfl rfl (by rw [hpc]; rfl)
      have hissue := hr.pop.issue (held_issue (f := Pc.headTicket) (i := i) (by rw [hpc]; rfl)
        (show (Pc.popData ctx s.mem.head).headTicket = some s.mem.head from rfl))
      simpa [popped, Outcome.events, hadd] using hissue
    · exact hr.keep ⟨rfl, rfl⟩ rfl rfl (by rw [hpc]; rfl) (by rw [hpc]; rfl)
  case popPublish ctx k task =>
    cases ho
    have hki : (s.pc i).headTicket = some k := by rw [hpc]; rfl
    simp only [hpc, ThreadOk] at hok
    obtain ⟨hm, hpt, hph, hpush, hpop⟩ :=
      popSome_spec i (s.mem.setSequence k (add64 k capacity)) k task ctx
    refine hr.of_pop ?_ (fun q hq => ?_) hpush (by rw [hm]; rfl) (by rw [hpt, hpc]; rfl)
    · rw [popped_append, hpop, List.map_append, hm]
      exact hr.pop.finish ⟨i, hki⟩ (held_finish hki hph fun j hj => hi.consumer_unique hj hki rfl)
    · rw [hpop, List.mem_singleton] at hq
      subst hq
      exact get_tailWins_append hok.2.2.2.2
  -- the other steps leave the tickets alone
  all_goals
    (repeat' split at ho) <;> cases ho <;>
      exact hr.keep ⟨rfl, rfl⟩ rfl rfl (by rw [hpc]; rfl) (by rw [hpc]; rfl)

/-! ## The task a ticket was won for -/

/-- Tickets are won in order, those of `tail` for the task of the push that is running. -/
def TicketOk (h : List (Event ι Obs)) : Event ι Obs → Prop
  | .obs i (.tailWin t task) => t = (tailWins h).length ∧ lastCall i h = some (.push task)
  | .obs _ (.headWin k) => k = (headWins h).length
  | _ => True

theorem run_tickets (hi : Inv (tailWins h) (headWins h) s)
    (hd : ∀ i, (impl ι).Doing During h i (s.pc i)) (hp : Past TicketOk h) {weak : Bool}
    {o : Outcome} (ho : run s.mem weak (s.pc i) = some o) : Past TicketOk (h ++ o.events i) := by
  refine past_events_one hp (run_obs_le ho) (fun x hx => ?_) fun r _ => trivial
  cases hpc : s.pc i <;> simp only [hpc, run] at ho
  case pushCas task t =>
    split at ho <;> rename_i hc <;> cases ho
    · obtain rfl := List.mem_singleton.1 hx
      have hdi := hd i (by simp [hpc])
      rw [hpc] at hdi
      obtain ⟨op, hl, rfl, -⟩ := hdi
      exact ⟨by simpa [hi.tail_eq] using hc.1.symm, hl⟩
    · cases hx
  case popCas ctx k =>
    split at ho <;> rename_i hc <;> cases ho
    · obtain rfl := List.mem_singleton.1 hx
      simpa [TicketOk, hi.head_eq] using hc.1.symm
    · cases hx
  case popPublish ctx k task =>
    cases ho
    cases ctx <;> obtain rfl := List.mem_singleton.1 hx <;> trivial
  all_goals
    (repeat' split at ho) <;> cases ho <;>
      first | (obtain rfl := List.mem_singleton.1 hx; trivial) | cases hx

/-! ## The theorem -/

theorem step_returned {l : ι × Act Bool} {es : List (Event ι Obs)} (hreach : (lts ι).Reach h s)
    (hb : (tailWins (h ++ es)).length < 2 ^ 63) (hr : Returned h s) (ht : Past TicketOk h)
    (hs : (impl ι).step s l = some (es, s')) :
    Returned (h ++ es) s' ∧ Past TicketOk (h ++ es) := by
  rw [tailWins_append, List.length_append] at hb
  have hi := inv hreach (by omega)
  have htl := hi.tail_eq
  obtain ⟨i, op | weak⟩ := l
  · obtain ⟨hpc, rfl, rfl⟩ := Impl.step_call.1 hs
    refine ⟨hr.keep ⟨rfl, rfl⟩ rfl rfl ?_ ?_, ht.append_one trivial⟩
    · rw [hpc]
      cases op <;> rfl
    · rw [hpc]
      cases op <;> rfl
  · obtain ⟨o, ho, rfl, rfl⟩ := Impl.step_run.1 hs
    exact ⟨run_returned hi hr ho (by omega), run_tickets hi (calls.reach hreach).1 ht ho⟩

theorem returned (hr : (lts ι).Reach h s) (hb : (tailWins h).length < 2 ^ 63) :
    Returned h s ∧ Past TicketOk h := by
  refine Lts.Reach.inv_while (I := fun h s => Returned h s ∧ Past TicketOk h)
    (B := fun h _ => (tailWins h).length < 2 ^ 63) (fun h s l es s' _ hb => ?_) ?_ ?_ hr hb
  · rw [tailWins_append, List.length_append] at hb
    omega
  · rintro s rfl
    exact ⟨init_returned, .nil⟩
  · exact fun h s l es s' hreach hb ⟨hr, ht⟩ hs => step_returned hreach hb hr ht hs

/-- **FIFO in ticket order.** In every reachable state of every interleaving the `k`-th consumer to
win `head`, once it has read its cell, holds the task the `k`-th producer to win `tail` was given;
the ticket of a push is won for its own task, and every return is the answer of the points of its
own call. So tickets are returned once, with the task of a push; and with no operation in flight
the accepted tasks are the popped ones, in ticket order, followed by those in the ring. -/
theorem fifo_tickets (hr : (lts ι).Reach h s) (hb : (tailWins h).length < 2 ^ 63) :
    (∀ i ctx k task, s.pc i = .popPublish ctx k task →
      (headWins h)[k]? = some i ∧ (tailWins h)[k]?.map Prod.snd = some task) ∧
    Past TicketOk h ∧ Past (Justified Answers) h ∧ ((popped h).map Prod.fst).Nodup ∧
    (∀ p ∈ popped h, (tailWins h)[p.1]?.map Prod.snd = some p.2) ∧
    ((impl ι).Quiescent s → (pushed h).Perm (List.range (tailWins h).length) ∧
      ∃ out : List InferenceTask, (popped h).Perm (out.zipIdx.map Prod.swap) ∧
        (tailWins h).map Prod.snd = out ++ s.mem.ring) := by
  have hi := inv hr hb
  obtain ⟨hret, ht⟩ := returned hr hb
  refine ⟨fun i ctx k task hpc => ?_, ht, (calls.reach hr).2, hret.pop.nodup, hret.task,
    fun hq => ⟨?_, ?_⟩⟩
  · have hok := hi.thread i
    simp only [hpc, ThreadOk] at hok
    exact hok.2.2.2
  · rw [← hi.tail_eq]
    refine hret.push.perm ?_
    rintro t ⟨i, hti⟩
    rw [hq i] at hti
    cases hti
  · refine ⟨((tailWins h).map Prod.snd).take s.mem.head, hret.popped_perm rfl hq ?_, ?_⟩
    · rw [List.length_map, ← hi.tail_eq]
      exact hi.head_le
    · rw [hi.ring_eq hq, List.take_append_drop]

/-- The producer `0` has won its ticket when the producer `1` wins the next one and publishes first;
the consumer waits for the cell of the first ticket, and takes the two tasks in the order of their
tickets. -/
theorem fifo_tickets_run : ∃ h s, (lts (Fin 3)).Reach h s ∧ (tailWins h).length < 2 ^ 63 ∧
    tailWins h = [(0, client 4), (1, client 5)] ∧ pushed h = [1, 0] ∧
    popped h = [(0, client 4), (1, client 5)] ∧
    ∀ p ∈ popped h, (tailWins h)[p.1]?.map Prod.snd = some p.2 := by
  have hrun : ((lts (Fin 3)).exec (impl (Fin 3)).init
      ((0, .call (.push (client 4))) :: List.replicate 4 (0, .run false) ++
        (1, .call (.push (client 5))) :: List.replicate 6 (1, .run false) ++
        (2, .call .pop) :: (2, .run false) :: List.replicate 2 (0, .run false) ++
        List.replicate 4 (2, .run false) ++
        (2, .call .pop) :: List.replicate 5 (2, .run false))).map
        (fun r => (tailWins r.1, pushed r.1, popped r.1)) =
      some ([(0, client 4), (1, client 5)], [1, 0], [(0, client 4), (1, client 5)]) := by
    decide +kernel
  obtain ⟨⟨h, s⟩, he, heq⟩ := Option.map_eq_some_iff.1 hrun
  obtain ⟨hwins, heq⟩ := Prod.mk.inj heq
  obtain ⟨hpushed, hpopped⟩ := Prod.mk.inj heq
  have hr : (lts (Fin 3)).Reach h s := Lts.Reach.of_exec rfl he
  have hb : (tailWins h).length < 2 ^ 63 := by rw [hwins]; decide
  exact ⟨h, s, hr, hb, hwins, hpushed, hpopped, (fifo_tickets hr hb).2.2.2.2.1⟩

end
end Lumen.Concurrency.MPMCTaskQueue
