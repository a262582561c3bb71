import Lumen.Concurrency.AtomicTaskQueue
import Lumen.Concurrency.Proof.MPMCNegative

/-!
# `MPMCTaskQueue` refines the task queue

The ring stands for the list of the tasks whose ticket of `tail` is won and whose ticket of `head`
is not (`Rep`). A push takes effect at its compare-exchange and a pop at its own; the slot is given
back at the store of the sequence. Whatever the interleaving, each access of a thread is a step of
the atomic queue or none (`run_refines`), so every history of calls and returns of the ring is one
of the atomic queue.
-/

set_option autoImplicit false

namespace Lumen.Concurrency.MPMCTaskQueue

open Lumen.Lib Lumen.Lib.Shared Lumen.Core ITaskQueue

variable {ι : Type*}

/-! ## The relation -/

/-- A thread of the ring at the first point is one of the atomic queue at the second. -/
def Follows (W : List (ι × InferenceTask)) : Pc → AtomicTaskQueue.Pc → Prop
  | .idle, q => q = .idle
  | .pushStop task, q => q = .pushTest task
  | .pushTail task, q | .pushSeq task _, q | .pushCas task _, q => q = .push task
  | .pushData .., q | .pushPublish _, q => q = .answer (.bool true)
  | .popHead ctx, q | .popSeq ctx _, q | .popCas ctx _, q =>
    q = .pop ctx ∧ ctx.taken.length < ctx.max
  | .popData ctx h, q => ∃ task, q = .release ctx h task ∧ W[h]?.map Prod.snd = some task
  | .popPublish ctx h task, q => q = .release ctx h task
  | .batchTest batch max, q => q = .pop (.batch batch max)
  | .sizeTail e, q | .sizeHead e _, q => q = .size e
  | .stopStore, q => q = .shutdown

/-- The ring `s`, with the winners `W` of `tail` and `H` of `head`, stands for the queue `t`. -/
structure Follow (W : List (ι × InferenceTask)) (H : List ι) (s : State ι)
    (t : AtomicTaskQueue.State ι) : Prop where
  inv : Inv W H s
  tasks : t.mem.tasks = ((W.map Prod.snd).drop H.length).map Job.plain
  accepted : t.mem.accepted = W.length
  unreleased : ∀ k, k ∈ t.mem.unreleased ↔ ∃ i, (s.pc i).headTicket = some k
  nodup : t.mem.unreleased.Nodup
  stopped : t.mem.stopped = s.mem.stopFlag
  pc : ∀ i, Follows W (s.pc i) (t.pc i)

/-- The ring stands for the queue. -/
def StandsFor (s : State ι) (t : AtomicTaskQueue.State ι) : Prop := ∃ W H, Follow W H s t

/-- The counters stay below `2 ^ 63` with the one lap that the sequences run ahead. -/
def Below (s : State ι) (_ : ι × Act Bool) : Prop := s.mem.tail + capacity < 2 ^ 63

section
variable {W : List (ι × InferenceTask)} {H : List ι} {s : State ι} {t : AtomicTaskQueue.State ι}
  {i : ι}

theorem Follows.append {p : Pc} {q : AtomicTaskQueue.Pc} (h : Follows W p q)
    (W' : List (ι × InferenceTask)) : Follows (W ++ W') p q := by
  cases p <;> try exact h
  case popData ctx k =>
    obtain ⟨task, hq, hw⟩ := h
    obtain ⟨x, hx, rfl⟩ := Option.map_eq_some_iff.1 hw
    refine ⟨x.2, hq, ?_⟩
    rw [List.getElem?_append_left (List.getElem?_eq_some_iff.1 hx).1, hx, Option.map_some]

variable [DecidableEq ι]

/-- A step that takes no ticket and gives none back. -/
theorem Follow.keep (hf : Follow W H s t) {m : Mem} {p : Pc} {q : AtomicTaskQueue.Pc}
    (hi : Inv W H (s.moved i m p)) (hstop : m.stopFlag = s.mem.stopFlag)
    (hp : p.headTicket = (s.pc i).headTicket) (hq : Follows W p q) :
    StandsFor (s.moved i m p) (t.moved i t.mem q) := by
  refine ⟨W, H, hi, hf.tasks, hf.accepted, fun k => ?_, hf.nodup, ?_, ?_⟩
  · exact (hf.unreleased k).trans (held_keep hp k).symm
  · exact hf.stopped.trans hstop.symm
  · exact State.pcs_moved (P := fun _ => Follows W) hq fun j _ => hf.pc j

/-! ## The steps of the queue -/

omit [DecidableEq ι] in
theorem Follow.length (hf : Follow W H s t) : t.mem.tasks.length = W.length - H.length := by
  rw [hf.tasks, List.length_map, List.length_drop, List.length_map]

omit [DecidableEq ι] in
/-- The ring has a free cell for the ticket `tail` just when the queue is not full. -/
theorem Follow.full_iff (hf : Follow W H s t) : t.mem.full .mpmc = true ↔
    s.mem.tail = s.mem.head + capacity ∨
      ∃ j k, (s.pc j).headTicket = some k ∧ s.mem.tail = k + capacity := by
  have hcap : capacity = 1024 := rfl
  have hle := hf.inv.head_le
  have hle' := hf.inv.tail_le
  have htl := hf.inv.tail_eq
  have hhd := hf.inv.head_eq
  have hlen := hf.length
  simp only [TaskQueue.full, decide_eq_true_eq, hf.accepted, hf.unreleased]
  refine or_congr (by omega) ⟨fun ⟨h1, j, hj⟩ => ⟨j, _, hj, by omega⟩, fun ⟨j, k, hj, hk⟩ => ?_⟩
  refine ⟨by omega, j, ?_⟩
  rw [hj, ← htl, hk, hcap, Nat.add_sub_cancel]

/-- A producer wins its ticket: the task is accepted. -/
theorem Follow.accept (hf : Follow W H s t) {task : InferenceTask} {k : Nat}
    (hpc : s.pc i = .pushCas task k) (hk : s.mem.tail = k)
    (hi : Inv (W ++ [(i, task)]) H (s.moved i { s.mem with tail := k + 1 } (.pushData task k))) :
    t.mem.full .mpmc = false ∧
      StandsFor (s.moved i { s.mem with tail := k + 1 } (.pushData task k))
        (t.moved i { t.mem with tasks := t.mem.tasks ++ [Job.plain task],
                                accepted := t.mem.accepted + 1 } (.answer (.bool true))) := by
  subst hk
  have hle := hf.inv.head_le
  have htl := hf.inv.tail_eq
  have hhd := hf.inv.head_eq
  have hok := hf.inv.thread i
  simp only [hpc, ThreadOk] at hok
  obtain ⟨hseq, hlt⟩ := hf.inv.free_at_tail hok.2
  constructor
  · rw [Bool.eq_false_iff, ne_eq, hf.full_iff]
    rintro (h | ⟨j, k, hj, hk⟩)
    · omega
    · have hcap : capacity = 1024 := rfl
      have hc := seq_congr s.mem (show s.mem.tail % 1024 = k % 1024 by omega)
      have := (hf.inv.consumer hj).2.2.1
      omega
  · refine ⟨_, H, hi, ?_, ?_, fun k => ?_, hf.nodup, hf.stopped, ?_⟩
    · rw [List.map_append, List.drop_append_of_le_length (by rw [List.length_map]; omega),
        List.map_append, ← hf.tasks]
      rfl
    · rw [List.length_append]
      exact congrArg (· + 1) hf.accepted
    · exact (hf.unreleased k).trans (held_keep (by rw [hpc]; rfl) k).symm
    · exact State.pcs_moved (P := fun _ => Follows _) rfl fun j _ => (hf.pc j).append _

/-- A consumer wins its ticket: it takes the front. -/
theorem Follow.take (hf : Follow W H s t) {ctx : PopCtx} {k : Nat}
    (hpc : s.pc i = .popCas ctx k) (hk : s.mem.head = k)
    (hi : Inv W (H ++ [i]) (s.moved i { s.mem with head := k + 1 } (.popData ctx k))) :
    ∃ task q, t.mem.take = some (k, Job.plain task, q) ∧
      StandsFor (s.moved i { s.mem with head := k + 1 } (.popData ctx k))
        (t.moved i q (.release ctx k task)) := by
  subst hk
  have hhd := hf.inv.head_eq
  have htl := hf.inv.tail_eq
  have hok := hf.inv.thread i
  simp only [hpc, ThreadOk] at hok
  obtain ⟨hlt, -, hw⟩ := hf.inv.stored_at_head hok.2
  have hdrop : (W.map Prod.snd).drop H.length =
      s.mem.data s.mem.head :: (W.map Prod.snd).drop (H.length + 1) := by
    rw [← hhd, List.drop_eq_getElem_cons (by rw [List.length_map]; omega)]
    congr 1
    rw [← List.getElem?_map, List.getElem?_eq_getElem (by rw [List.length_map]; omega)] at hw
    exact Option.some.inj hw
  have hlen := hf.length
  have hticket : t.mem.accepted - t.mem.tasks.length = s.mem.head := by
    rw [hf.accepted]
    omega
  have hnot : s.mem.head ∉ t.mem.unreleased := fun hmem => by
    obtain ⟨j, hj⟩ := (hf.unreleased _).1 hmem
    exact absurd (hf.inv.consumer hj).1 (Nat.lt_irrefl _)
  have htake := TaskQueue.take_cons (hf.tasks.trans (congrArg (List.map _) hdrop))
  rw [hticket] at htake
  refine ⟨_, _, htake, W, H ++ [i], hi, ?_, hf.accepted, fun k => ?_,
    List.nodup_cons.2 ⟨hnot, hf.nodup⟩, hf.stopped,
    State.pcs_moved (P := fun _ => Follows W) ⟨_, rfl, hw⟩ fun j _ => hf.pc j⟩
  · rw [List.length_append]
    rfl
  · rw [State.moved_mem, List.mem_cons, hf.unreleased, or_comm]
    exact (held_issue (f := Pc.headTicket) (by rw [hpc]; rfl) rfl k).symm

/-- A consumer gives its slot back. -/
theorem Follow.release (hf : Follow W H s t) {ctx : PopCtx} {k : Nat} {task : InferenceTask}
    {p : Pc} {q : AtomicTaskQueue.Pc} (hpc : s.pc i = .popPublish ctx k task)
    (hi : Inv W H (s.moved i (s.mem.setSequence k (k + capacity)) p)) (hp : p.headTicket = none)
    (hq : Follows W p q) :
    StandsFor (s.moved i (s.mem.setSequence k (k + capacity)) p)
      (t.moved i (t.mem.release k) q) := by
  have hki : (s.pc i).headTicket = some k := by rw [hpc]; rfl
  refine ⟨W, H, hi, hf.tasks, hf.accepted, fun k' => ?_, hf.nodup.erase k, hf.stopped, ?_⟩
  · rw [State.moved_mem, TaskQueue.release, hf.nodup.mem_erase_iff, hf.unreleased, and_comm]
    exact (held_finish hki hp (fun j hj => hf.inv.consumer_unique hj hki rfl) k').symm
  · exact State.pcs_moved (P := fun _ => Follows W) hq fun j _ => hf.pc j

/-- The queue is closed. -/
theorem Follow.stop (hf : Follow W H s t) (hpc : s.pc i = .stopStore)
    (hi : Inv W H (s.moved i { s.mem with stopFlag := true } .idle)) :
    StandsFor (s.moved i { s.mem with stopFlag := true } .idle)
      (t.moved i t.mem.shutdown .idle) := by
  refine ⟨W, H, hi, hf.tasks, hf.accepted, fun k => ?_, hf.nodup, rfl,
    State.pcs_moved (P := fun _ => Follows W) rfl fun j _ => hf.pc j⟩
  exact (hf.unreleased k).trans (held_keep (by rw [hpc]; rfl) k).symm

/-! ## Every access -/

theorem run_refines (hrel : StandsFor s t) (hb : s.mem.tail + capacity < 2 ^ 63) {weak : Bool}
    {o : Outcome} (ho : run s.mem weak (s.pc i) = some o) :
    ∃ m p, (AtomicTaskQueue.impl ι .mpmc).Moves i t.mem (t.pc i) [] o.ret m p ∧
      StandsFor (s.moved i o.mem o.pc) (t.moved i m p) := by
  obtain ⟨W, H, hf⟩ := hrel
  have hcap : capacity = 1024 := rfl
  have htl := hf.inv.tail_eq
  have hle := hf.inv.head_le
  have hok := hf.inv.thread i
  have hpos := hf.pc i
  have hinv := run_inv hf.inv ho
  -- an access that wins no ticket
  have hquiet : tailWins (o.events i) = [] → headWins (o.events i) = [] →
      Inv W H (s.moved i o.mem o.pc) := fun h1 h2 => by
    have hi := hinv (by rw [h1, List.append_nil]; omega)
    rwa [h1, h2, List.append_nil, List.append_nil] at hi
  -- an access with which nothing happens to the queue
  have keep : ∀ {q p}, t.pc i = q →
      (AtomicTaskQueue.impl ι .mpmc).Moves i t.mem q [] o.ret t.mem p →
      Inv W H (s.moved i o.mem o.pc) → o.mem.stopFlag = s.mem.stopFlag →
      o.pc.headTicket = (s.pc i).headTicket → Follows W o.pc p →
      ∃ m p, (AtomicTaskQueue.impl ι .mpmc).Moves i t.mem (t.pc i) [] o.ret m p ∧
        StandsFor (s.moved i o.mem o.pc) (t.moved i m p) := fun hq hm hi hs hp hfol => by
    rw [hq]
    exact ⟨t.mem, _, hm, hf.keep hi hs hp hfol⟩
  cases hpc : s.pc i <;> simp only [hpc, ThreadOk] at hok <;> simp only [hpc, run] at ho <;>
    simp only [hpc, Follows] at hpos
  case idle => cases ho
  case pushStop task =>
    split at ho <;> rename_i hc <;> cases ho
    · exact keep hpos (AtomicTaskQueue.moves_closed (hf.stopped.trans hc)) (hquiet rfl rfl) rfl
        (by rw [hpc]; rfl) rfl
    · rw [Bool.not_eq_true] at hc
      exact keep hpos (AtomicTaskQueue.moves_open (hf.stopped.trans hc)) (hquiet rfl rfl) rfl
        (by rw [hpc]; rfl) rfl
  case pushTail task =>
    cases ho
    exact keep hpos .stay (hquiet rfl rfl) rfl (by rw [hpc]; rfl) rfl
  case pushSeq task k =>
    split at ho
    · cases ho
      exact keep hpos .stay (hquiet rfl rfl) rfl (by rw [hpc]; rfl) rfl
    · split at ho <;> rename_i hneg <;> cases ho
      · -- the index is `tail`, whose cell is not free
        obtain ⟨rfl, hfull⟩ := (hf.inv.tail_neg (by omega) hok hneg).resolve_right (by omega)
        exact keep hpos (AtomicTaskQueue.moves_full (hf.full_iff.2 hfull)) (hquiet rfl rfl) rfl
          (by rw [hpc]; rfl) rfl
      · exact keep hpos .stay (hquiet rfl rfl) rfl (by rw [hpc]; rfl) rfl
  case pushCas task k =>
    split at ho <;> rename_i hc <;> cases ho
    · have hadd : add64 k 1 = k + 1 := add64_of_lt (by omega)
      rw [hadd] at hinv ⊢
      have hi : Inv (W ++ [(i, task)]) (H ++ []) _ :=
        hinv (by rw [List.length_append]; exact (by omega : W.length + 1 < 2 ^ 63))
      rw [List.append_nil] at hi
      obtain ⟨hfull, hrel⟩ := hf.accept hpc hc.1 hi
      rw [hpos]
      exact ⟨_, _, AtomicTaskQueue.moves_push hfull, hrel⟩
    · exact keep hpos .stay (hquiet rfl rfl) rfl (by rw [hpc]; rfl) rfl
  case pushData task k =>
    cases ho
    exact keep hpos .stay (hquiet rfl rfl) rfl (by rw [hpc]; rfl) rfl
  case pushPublish k =>
    cases ho
    exact keep hpos AtomicTaskQueue.moves_return (hquiet rfl rfl) rfl (by rw [hpc]; rfl) rfl
  case popHead ctx =>
    cases ho
    exact keep hpos.1 .stay (hquiet rfl rfl) rfl (by rw [hpc]; rfl) ⟨rfl, hpos.2⟩
  case popSeq ctx k =>
    split at ho
    · cases ho
      exact keep hpos.1 .stay (hquiet rfl rfl) rfl (by rw [hpc]; rfl) ⟨rfl, hpos.2⟩
    · split at ho <;> cases ho
      · exact keep hpos.1 (AtomicTaskQueue.moves_end rfl) (hquiet rfl rfl) rfl (by rw [hpc]; rfl)
          rfl
      · exact keep hpos.1 .stay (hquiet rfl rfl) rfl (by rw [hpc]; rfl) ⟨rfl, hpos.2⟩
  case popCas ctx k =>
    split at ho <;> rename_i hc <;> cases ho
    · have hadd : add64 k 1 = k + 1 := add64_of_lt (by omega)
      rw [hadd] at hinv ⊢
      have hi : Inv (W ++ []) (H ++ [i]) _ :=
        hinv (by rw [List.length_append]; exact (by omega : W.length + 0 < 2 ^ 63))
      rw [List.append_nil] at hi
      obtain ⟨task, q, htake, hrel⟩ := hf.take hpc hc.1 hi
      rw [hpos.1]
      exact ⟨_, _, AtomicTaskQueue.moves_take hpos.2 htake, hrel⟩
    · exact keep hpos.1 .stay (hquiet rfl rfl) rfl (by rw [hpc]; rfl) ⟨rfl, hpos.2⟩
  case popData ctx k =>
    cases ho
    obtain ⟨task, hq, hw⟩ := hpos
    obtain rfl : task = s.mem.data k := Option.some.inj (hw.symm.trans hok.2.2.2.2)
    exact keep hq .stay (hquiet rfl rfl) rfl (by rw [hpc]; rfl) rfl
  case popPublish ctx k task =>
    cases ho
    have hadd : add64 k capacity = k + capacity := add64_of_lt (by omega)
    rw [hadd] at hquiet ⊢
    rw [hpos]
    cases ctx with
    | pop => exact ⟨_, _, AtomicTaskQueue.moves_popped, hf.release hpc (hquiet rfl rfl) rfl rfl⟩
    | batch batch max =>
      exact ⟨_, _, AtomicTaskQueue.moves_release, hf.release hpc (hquiet rfl rfl) rfl rfl⟩
  case batchTest batch max =>
    split at ho <;> rename_i hlt <;> cases ho
    · exact keep hpos .stay (hquiet rfl rfl) rfl (by rw [hpc]; rfl) ⟨rfl, hlt⟩
    · exact keep hpos (AtomicTaskQueue.moves_end rfl) (hquiet rfl rfl) rfl (by rw [hpc]; rfl) rfl
  case sizeTail e =>
    cases ho
    exact keep hpos .stay (hquiet rfl rfl) rfl (by rw [hpc]; rfl) rfl
  case sizeHead e k =>
    cases ho
    exact keep hpos (AtomicTaskQueue.moves_size _) (hquiet rfl rfl) rfl (by rw [hpc]; rfl) rfl
  case stopStore =>
    cases ho
    rw [hpos]
    exact ⟨_, _, AtomicTaskQueue.moves_shutdown, hf.stop hpc (hquiet rfl rfl)⟩

theorem refines (ι : Type*) [DecidableEq ι] :
    (impl ι).Refines (AtomicTaskQueue.impl ι .mpmc) (fun _ => none) Below StandsFor where
  init := by
    refine ⟨[], [], init_inv, rfl, rfl, fun k => ?_, List.nodup_nil, rfl, fun i => rfl⟩
    refine iff_of_false List.not_mem_nil ?_
    rintro ⟨i, hi⟩
    cases hi
  call := by
    rintro s t i op ⟨W, H, hf⟩ _ hpc
    have hidle := hf.pc i
    rw [hpc] at hidle
    have hentry : (entry op).tailTicket = none ∧ (entry op).headTicket = none ∧
        ThreadOk W H s.mem i (entry op) ∧ Follows W (entry op) (AtomicTaskQueue.entry op) := by
      cases op <;> refine ⟨rfl, rfl, trivial, ?_⟩ <;>
        simp [Follows, entry, AtomicTaskQueue.entry, PopCtx.taken, PopCtx.max]
    obtain ⟨ht, hh, hok, hfol⟩ := hentry
    refine ⟨hidle, hf.keep (hf.inv.keep rfl rfl rfl ?_ ?_ hok) rfl ?_ hfol⟩
    · rw [hpc]
      exact ht
    · rw [hpc]
      exact hh
    · rw [hpc]
      exact hh
  run s t i c o hrel hb ho := by
    rw [show o.obs.filterMap (fun _ => (none : Option Empty)) = [] from
      List.filterMap_eq_nil_iff.2 fun _ _ => rfl]
    exact run_refines hrel hb ho

omit [DecidableEq ι] in
theorem returns : (impl ι).Returns := by
  intro i m c p o r ho hr
  replace ho : run m c p = some o := ho
  cases p <;> simp only [run] at ho
  case popPublish ctx k task =>
    cases ho
    cases ctx with
    | pop => rfl
    | batch => cases hr
  all_goals
    (repeat' split at ho) <;> cases ho <;> first | rfl | cases hr

omit [DecidableEq ι] in
/-- Between the operations the queue holds what the ring stores. -/
theorem StandsFor.ring (hrel : StandsFor s t) (hq : ∀ i, s.pc i = .idle) :
    t.mem.tasks = s.mem.ring.map .plain := by
  obtain ⟨W, H, hf⟩ := hrel
  have htl := hf.inv.tail_eq
  have hhd := hf.inv.head_eq
  rw [hf.tasks]
  refine congrArg (List.map _) (List.ext_getElem? fun k => ?_)
  rw [Mem.ring, List.getElem?_map, List.getElem?_drop, List.getElem?_map]
  by_cases hk : k < s.mem.tail - s.mem.head
  · rcases hf.inv.stored (s.mem.head + k) (by omega) (by omega) with ⟨i, hp⟩ | ⟨-, hd⟩
    · rw [hq i] at hp
      cases hp
    · rw [List.getElem?_range hk, Option.map_some, ← hhd, hd]
  · rw [List.getElem?_eq_none (by omega : W.length ≤ H.length + k),
      List.getElem?_eq_none (by simpa using hk)]
    rfl

/-! ## The theorem -/

variable {h : List (Event ι Obs)}

theorem below (hr : (lts ι).Reach h s) (hb : (tailWins h).length + capacity < 2 ^ 63) :
    (lts ι).ReachIf (fun _ => Below) h s := by
  refine Lts.Reach.inv_while (I := fun h s => (lts ι).ReachIf (fun _ => Below) h s)
    (B := fun h _ => (tailWins h).length + capacity < 2 ^ 63) (fun h s l es s' _ hb => ?_)
    (fun _ h0 => .init h0) (fun h s l es s' hreach hb hi hs => hi.step ?_ hs) hr hb
  · rw [tailWins_append, List.length_append] at hb
    omega
  · rw [tailWins_append, List.length_append] at hb
    have htl := (inv hreach (by omega)).tail_eq
    show s.mem.tail + capacity < 2 ^ 63
    omega

/-- **The ring is a task queue.** The calls and returns of any run of fewer than `2 ^ 63 - 1024`
tickets are those of a run of the task queue, for which the ring stands at its end. -/
theorem ring_atomic (hr : (lts ι).Reach h s) (hb : (tailWins h).length + capacity < 2 ^ 63) :
    ∃ t, (AtomicTaskQueue.lts ι .mpmc).Reach (h.filterMap (Event.through fun _ => none)) t ∧
      StandsFor s t :=
  (refines ι).reach (below hr hb)

theorem ring_atomic_run : ∃ s t, (lts (Fin 3)).Reach [.call 0 (.push .empty),
      .obs 0 (.tailWin 0 .empty), .call 1 (.push .empty), .obs 1 (.tailWin 1 .empty),
      .obs 1 (.pushed 1), .ret 1 (.bool true), .call 2 .pop, .obs 2 (.none 0),
      .ret 2 (.task none)] s ∧
    (AtomicTaskQueue.lts (Fin 3) .mpmc).Reach [.call 0 (.push .empty), .call 1 (.push .empty),
      .ret 1 (.bool true), .call 2 .pop, .ret 2 (.task none)] t := by
  obtain ⟨s, he⟩ := stalledProducer_run
  have hr := Lts.Reach.of_exec rfl he
  obtain ⟨t, ht, -⟩ := ring_atomic hr (by decide)
  exact ⟨s, t, hr, ht⟩

end
end Lumen.Concurrency.MPMCTaskQueue
