import Lumen.Network.Proof.Shell
import Lumen.Network.Proof.Transmitted

/-!
# The server on the queues is the server

Each run of the server on the code of its queues shows what a run of `Network.lts` shows, where the
operations of the queues are single steps (`server_mirrors`). This run takes the step of `push` or
`pop_immediate` when the operation takes effect, at some point between its call and its return; a
result that has been popped waits for the time at which it is installed. In between the two differ
by that (`CallStage`).
-/

set_option autoImplicit false

namespace Lumen.Network

open Lumen.Lib Lumen.Lib.Shared Lumen.Core Lumen.Concurrency

/-! ## The stages of a call -/

section
variable {ι : Type} [DecidableEq ι]

/-- Where the server is on the queues, with its own state `shell`, what it is owed and its point in
the pool; where the server of the run is that has shown `h` and is in `s`; `w` is what the first has
shown. -/
inductive CallStage (setup : Setup ι) (w : List Wire) : OnQueues.Call → State ι →
    List ThreadPool.Ret → ThreadPool.Pc ι Unit → List (Job Unit × InferenceResult) →
    List (Event ι) → State ι → Prop
  | own {shell : State ι} {h : List (Event ι)} (pool : ThreadPool.State ι ConnId) :
      h.filterMap Event.wire = w →
      CallStage setup w .none shell [] .idle [] h { shell with pool := pool }
  | popping {shell : State ι} {h : List (Event ι)} (pool : ThreadPool.State ι ConnId) :
      shell.pc = .handleResponses → h.filterMap Event.wire = w →
      CallStage setup w .pop shell [] .popImmediate [] h { shell with pool := pool }
  | empty {shell : State ι} {h : List (Event ι)} (pool : ThreadPool.State ι ConnId) :
      h.filterMap Event.wire = w → CallStage setup w .pop shell [.popped none] .idle [] h
        { shell with server := shell.server.selectEvents, pc := .poll, pool := pool }
  | popped {shell : State ι} {h : List (Event ι)} (pool : ThreadPool.State ι ConnId)
      (job : Job Unit) (res : InferenceResult) :
      shell.pc = .handleResponses → h.filterMap Event.wire = w →
      CallStage setup w .pop shell [.popped (some res)] .idle [(job, res)] h
        { shell with pool := pool }
  | installing {shell : State ι} {h : List (Event ι)} (pool : ThreadPool.State ι ConnId)
      (job : Job Unit) (res : InferenceResult) :
      shell.pc = .handleResponses → h.filterMap Event.wire = w →
      CallStage setup w (.popped res) shell [] .idle [(job, res)] h { shell with pool := pool }
  | pushing {s : State ι} {h : List (Event ι)} {sub : Submission} {choice : Choice}
      (pool : ThreadPool.State ι ConnId) :
      submission setup s choice = some sub → h.filterMap Event.wire = w →
      CallStage setup w (.push sub) { sub.enter s with pool := pool } []
        (.push (.plain sub.task)) [] h s
  | pushed {shell s0 : State ι} {h h0 : List (Event ι)} {sub : Submission} {accepted : Bool}
      (pool : ThreadPool.State ι ConnId) :
      h.filterMap Event.wire = w ++ sub.shown (shell.conn sub.fd) accepted →
      (lts setup).Reach h0 s0 → h0.filterMap Event.wire = w →
      CallStage setup w (.push sub) shell [.pushed accepted] .idle [] h
        { sub.leave shell with pool := pool }

/-- The server on the queues has shown `w` and is in `x`: a run of the server is where it is. -/
def Sim (setup : Setup ι) (c : ι) (w : List Wire) (x : OnQueues.State setup) : Prop :=
  ∃ h s t owes ahead, (lts setup).Reach h s ∧
    ThreadPool.Follows setup.pool setup.allocator setup.server c x.pool owes t ∧
    Tagged setup ahead s t ∧
    CallStage setup w x.call x.shell (owes setup.server) (t.pc setup.server) ahead h s

namespace CallStage

variable {setup : Setup ι} {w : List Wire} {call : OnQueues.Call} {shell s : State ι}
  {rs : List ThreadPool.Ret} {p : ThreadPool.Pc ι Unit}
  {ahead : List (Job Unit × InferenceResult)} {h : List (Event ι)}

/-- The workers move. -/
theorem worker (hst : CallStage setup w call shell rs p ahead h s) {h' : List (Event ι)}
    (hw : h'.filterMap Event.wire = h.filterMap Event.wire) (pool : ThreadPool.State ι ConnId) :
    CallStage setup w call shell rs p ahead h' { s with pool := pool } := by
  cases hst with
  | own _ he => exact .own pool (hw.trans he)
  | popping _ hpc he => exact .popping pool hpc (hw.trans he)
  | empty _ he => exact .empty pool (hw.trans he)
  | popped _ job res hpc he => exact .popped pool job res hpc (hw.trans he)
  | installing _ job res hpc he => exact .installing pool job res hpc (hw.trans he)
  | pushing q hsub he =>
    exact pushing (s := { s with pool := pool }) q hsub (hw.trans he)
  | pushed _ he hr h0 => exact .pushed pool (hw.trans he) hr h0

/-- A signal clears `g_running`. -/
theorem signal (hst : CallStage setup w call shell rs p ahead h s) :
    CallStage setup w call { shell with running := false } rs p ahead h
      { s with running := false } := by
  cases hst with
  | own pool he => exact .own pool he
  | popping pool hpc he => exact .popping pool hpc he
  | empty pool he => exact .empty pool he
  | popped pool job res hpc he =>
    exact .popped pool job res hpc he
  | installing pool job res hpc he =>
    exact .installing pool job res hpc he
  | pushing pool hsub he => exact pushing (s := { s with running := false }) pool hsub he
  | pushed pool he hr h0 => exact .pushed pool he hr h0

variable {t : ThreadPool.State ι Unit}

/-- A thread that is idle in the pool takes no step. -/
theorem idle_moves {i : ι} {m n : ThreadPool.Mem ι Unit} {p : ThreadPool.Pc ι Unit}
    {os : List (ThreadPool.Obs Unit)} {r : Option ThreadPool.Ret}
    (hm : (ThreadPool.impl Unit setup.pool setup.allocator).Moves i m .idle os r n p) :
    r = none ∧ n = m ∧ p = .idle := by
  rcases hm.of_ret (fun c o ho => by cases ho) with hstay | ⟨c, o, ho, -⟩
  · exact hstay
  · cases ho

/-- `pop_immediate` takes effect. -/
theorem pops {pool : ThreadPool.State ι ConnId} (hpc : shell.pc = .handleResponses)
    (he : h.filterMap Event.wire = w) (hr : (lts setup).Reach h { shell with pool := pool })
    (ht : Tagged setup [] { shell with pool := pool } t) {o : ThreadPool.Outcome ι Unit}
    (ho : o = ThreadPool.popImmediate t.mem) : ∃ h' s' ahead', (lts setup).Reach h' s' ∧
      Tagged setup ahead' s' (t.moved setup.server o.mem o.pc) ∧
      CallStage setup w .pop shell o.ret.toList o.pc ahead' h' s' := by
  have hresults := ht.untags.results
  subst ho
  cases hres : t.mem.results with
  | nil =>
    rw [hres] at hresults
    have hnil : pool.mem.results = [] := List.map_eq_nil_iff.1 hresults
    have hs : (lts setup).step { shell with pool := pool } (.server (.clock 0)) =
        some ((popImmediate setup pool).1.map .pool, { shell with
          server := shell.server.selectEvents, pc := .poll, pool := pool }) := by
      refine (serve_pop (s := { shell with pool := pool }) hpc 0).trans (congrArg some ?_)
      simp only [handleResponses, hnil, popImmediate, ThreadPool.popImmediate]
    have hpop : ThreadPool.popImmediate t.mem = { ret := some (.popped none), mem := t.mem } := by
      simp only [ThreadPool.popImmediate, hres]
    rw [hpop]
    refine ⟨_, _, [], hr.step hs, ht.server ht.untags rfl rfl, .empty pool ?_⟩
    rw [List.filterMap_append, wire_pool, List.append_nil, he]
  | cons x rest =>
    obtain ⟨job, res⟩ := x
    have hpop : ThreadPool.popImmediate t.mem =
        { obs := [.popped job res], ret := some (.popped (some res)),
          mem := { t.mem with results := rest } } := by
      simp only [ThreadPool.popImmediate, hres]
    rw [hpop]
    obtain ⟨hstop, hqueue, hold, halloc, hended, hjoin⟩ := ht.untags
    rw [hres] at hold
    exact ⟨h, _, [(job, res)], hr, ht.server ⟨hstop, hqueue, hold, halloc, hended, hjoin⟩ rfl rfl,
      .popped pool job res hpc he⟩

/-- The popped result is installed. -/
theorem installs {pool : ThreadPool.State ι ConnId} {job : Job Unit} {res : InferenceResult}
    (sys : ThreadPool.SystemState setup.pool) (call : OnQueues.Call) (now : Rat)
    (hpc : shell.pc = .handleResponses) (hr : (lts setup).Reach h { shell with pool := pool })
    (ht : Tagged setup [(job, res)] { shell with pool := pool } t) :
    let x := OnQueues.install setup { shell := shell, pool := sys, call := call } res now
    ∃ h' pool', (lts setup).Reach h' { x.2.shell with pool := pool' } ∧
      h'.filterMap Event.wire = h.filterMap Event.wire ++ x.1 ∧
      Tagged setup [] { x.2.shell with pool := pool' } t := by
  obtain ⟨hstop, hqueue, hresults, halloc, hended, hjoin⟩ := ht.untags
  obtain ⟨y, results, hres, hy, hrest⟩ := List.map_eq_cons_iff.1 hresults
  obtain ⟨job', res'⟩ := y
  cases hy
  replace hres : pool.mem.results = (job', res') :: results := hres
  have hpool : (popImmediate setup pool).2 =
      { pool with mem := { pool.mem with results := results } } := by
    simp only [popImmediate, ThreadPool.popImmediate, hres]
  have hs : (lts setup).step { shell with pool := pool } (.server (.clock now)) =
      some ((popImmediate setup pool).1.map .pool ++
        ((if (shell.server.sessions res'.clientFd).isSome then
          [.installed (shell.conn res'.clientFd) job' res'] else []) ++
          ((shell.server.handleResponse res' now).2.map .traced).toList),
        { shell with server := (shell.server.handleResponse res' now).1,
                     pool := (popImmediate setup pool).2 }) := by
    refine (serve_pop (s := { shell with pool := pool }) hpc now).trans (congrArg some ?_)
    simp only [handleResponses, hres]
    rfl
  refine ⟨_, _, hr.step hs, ?_, ?_, fun i hi => ?_, ht.running⟩
  · rw [List.filterMap_append, List.filterMap_append, wire_pool, List.nil_append,
      List.filterMap_append]
    refine congrArg _ (congrArg₂ (· ++ ·) ?_ ?_)
    · change _ = if (shell.server.sessions res'.clientFd).isSome then _ else _
      split <;> rfl
    · change _ = ((shell.server.handleResponse res' now).2.map Wire.traced).toList
      cases (shell.server.handleResponse res' now).2 <;> rfl
  · rw [hpool]
    exact ⟨hstop, hqueue, hrest, halloc, hended, hjoin⟩
  · rw [hpool]
    exact ht.pcs i hi

/-- `push` takes effect. -/
theorem pushes {sub : Submission} {choice : Choice} (hsub : submission setup s choice = some sub)
    (pool : ThreadPool.State ι ConnId) (he : h.filterMap Event.wire = w)
    (hr : (lts setup).Reach h s) (ht : Tagged setup [] s t) {o : ThreadPool.Outcome ι Unit}
    (ho : o = ThreadPool.push setup.pool t.mem (.plain sub.task)) : ∃ h' s',
      (lts setup).Reach h' s' ∧ Tagged setup [] s' (t.moved setup.server o.mem o.pc) ∧
      CallStage setup w (.push sub) { sub.enter s with pool := pool } o.ret.toList o.pc [] h' s' := by
  obtain ⟨accepted, es, pool', hpush⟩ : ∃ accepted es pool',
      push setup s.pool { task := sub.task, tag := s.conn sub.fd } = (accepted, es, pool') :=
    ⟨_, _, _, rfl⟩
  obtain ⟨es', hs, hw⟩ := serve_submission hsub hpush
  obtain ⟨hret, hu⟩ : (ThreadPool.push setup.pool t.mem (.plain sub.task)).ret =
      some (.pushed accepted) ∧ ThreadPool.Untags [] pool'.mem
        (ThreadPool.push setup.pool t.mem (.plain sub.task)).mem := by
    cases hpush
    exact ht.untags.push setup.pool { task := sub.task, tag := s.conn sub.fd }
  have hpc : pool'.pc = s.pool.pc := by
    cases hpush
    rfl
  replace hs : (lts setup).step s (.server choice) = some (es', _) := hs
  subst ho
  refine ⟨_, _, hr.step hs, ht.server hu hpc rfl, ?_⟩
  rw [hret]
  refine .pushed pool' ?_ hr he
  rw [List.filterMap_append, he, hw]
  rfl

/-- A step of the server inside a queue: its operation may take effect. -/
theorem moves {p' : ThreadPool.Pc ι Unit} {n : ThreadPool.Mem ι Unit}
    {os : List (ThreadPool.Obs Unit)} {r : Option ThreadPool.Ret}
    (hst : CallStage setup w call shell rs p ahead h s) (hr : (lts setup).Reach h s)
    (ht : Tagged setup ahead s t) (hp : t.pc setup.server = p)
    (hm : (ThreadPool.impl Unit setup.pool setup.allocator).Moves setup.server t.mem p os r n p') :
    ∃ h' s' ahead', (lts setup).Reach h' s' ∧
      Tagged setup ahead' s' (t.moved setup.server n p') ∧
      CallStage setup w call shell (rs ++ r.toList) p' ahead' h' s' := by
  have hstay : r = none ∧ n = t.mem ∧ p' = p → ∃ h' s' ahead', (lts setup).Reach h' s' ∧
      Tagged setup ahead' s' (t.moved setup.server n p') ∧
      CallStage setup w call shell (rs ++ r.toList) p' ahead' h' s' := by
    rintro ⟨rfl, rfl, rfl⟩
    subst hp
    refine ⟨h, s, ahead, hr, by rwa [State.moved_self], ?_⟩
    rwa [Option.toList_none, List.append_nil]
  cases hst with
  | popping pool hpc he =>
    have hret : (ThreadPool.popImmediate t.mem : ThreadPool.Outcome ι Unit).ret ≠ none := by
      unfold ThreadPool.popImmediate
      split <;> exact Option.some_ne_none _
    rcases hm.of_ret (fun c o ho => Option.some.inj ho ▸ hret) with hm | ⟨c, o, ho, rfl, rfl, rfl⟩
    · exact hstay hm
    · exact pops hpc he hr ht (Option.some.inj ho).symm
  | @pushing _ _ sub _ pool hsub he =>
    have hret : (ThreadPool.push setup.pool t.mem (.plain sub.task)).ret ≠ none :=
      Option.some_ne_none _
    rcases hm.of_ret (fun c o ho => Option.some.inj ho ▸ hret) with hm | ⟨c, o, ho, rfl, rfl, rfl⟩
    · exact hstay hm
    · obtain ⟨h', s', hr', ht', hst'⟩ := pushes hsub pool he hr ht (Option.some.inj ho).symm
      exact ⟨h', s', [], hr', ht', hst'⟩
  | own | empty | popped | installing | pushed => exact hstay (idle_moves hm)

/-- The operation returns. -/
theorem leave {x' : OnQueues.State setup} {sys : ThreadPool.SystemState setup.pool}
    {r : ThreadPool.Ret} {es : List Wire} (hst : CallStage setup w call shell (r :: rs) p ahead h s)
    (hs : OnQueues.leave setup { shell := shell, pool := sys, call := call } r = some (es, x')) :
    x'.pool = sys ∧ rs = [] ∧ CallStage setup (w ++ es) x'.call x'.shell [] p ahead h s := by
  generalize hrs : r :: rs = rs' at hst
  cases hst with
  | own | popping | installing | pushing => cases hrs
  | empty pool he =>
    cases hrs
    cases hs
    exact ⟨rfl, rfl, by rw [List.append_nil]; exact .own pool he⟩
  | popped pool job res hpc he =>
    cases hrs
    cases hs
    exact ⟨rfl, rfl, by rw [List.append_nil]; exact .installing pool job res hpc he⟩
  | pushed pool he hr h0 =>
    cases hrs
    cases hs
    exact ⟨rfl, rfl, .own pool he⟩

end CallStage
/-! ## The simulation -/

namespace Sim

variable {setup : Setup ι} {c : ι} {w es : List Wire} {x x' : OnQueues.State setup}

theorem init : Sim setup c [] (.init setup) :=
  ⟨[], .init setup, _, _, [], .init rfl, .init, .init, .own _ rfl⟩

/-- A worker moves. -/
theorem worker (hone : ThreadPool.Single setup.pool c) (hsim : Sim setup c w x)
    (hb : OnQueues.Below setup x) {i : ι} {act : Shared.Act (ThreadPool.Op Unit) _}
    (hs : OnQueues.step setup x (.worker i act) = some (es, x')) : Sim setup c (w ++ es) x' := by
  obtain ⟨h, s, t, owes, ahead, hr, hf, ht, hst⟩ := hsim
  simp only [OnQueues.step] at hs
  split at hs <;> rename_i hmay <;> try cases hs
  obtain ⟨⟨es', sys⟩, hstep, he⟩ := Option.map_eq_some_iff.1 hs
  cases he
  rw [List.append_nil]
  cases act with
  | call op =>
    cases op <;> simp only [OnQueues.workerMay, Bool.false_eq_true] at hmay
    obtain ⟨hi, hended⟩ := of_decide_eq_true hmay
    obtain ⟨hpc, -, rfl⟩ := Impl.step_call.1 hstep
    have huse : ThreadPool.InUse setup.pool setup.server x.pool (i, .call .workerLoop) :=
      ⟨⟨hi, hended⟩, hb⟩
    obtain ⟨hidle, hf'⟩ := hf.call huse hpc
    have hended' : i ∉ t.mem.ended := by
      rw [hf.backs.fields.2.2.1]
      exact hended
    obtain ⟨h', pool, hr', hw, ht'⟩ := ht.call hr hi hended' hidle
    refine ⟨h', _, _, owes, ahead, hr', hf', ht', ?_⟩
    rw [State.moved_pc_ne (Tagged.ne_server hi).symm]
    exact hst.worker hw pool
  | run turn =>
    have hi : i ∈ setup.pool.workers := of_decide_eq_true hmay
    obtain ⟨o, ho, -, rfl⟩ := Impl.step_run.1 hstep
    obtain ⟨os, r, n, p, rs, hm, -, hf'⟩ := hf.run hone hb ho
    obtain ⟨h', pool, hr', hw, ht'⟩ := Tagged.moves hm hi hr ht rfl rfl
    refine ⟨h', _, _, _, ahead, hr', hf', ht', ?_⟩
    rw [Function.update_of_ne (Tagged.ne_server hi).symm,
      State.moved_pc_ne (Tagged.ne_server hi).symm]
    exact hst.worker hw pool

/-- The server moves inside a queue. -/
theorem inside (hone : ThreadPool.Single setup.pool c) (hsim : Sim setup c w x)
    (hb : OnQueues.Below setup x) {turn : OnQueues.Turn setup}
    (hs : OnQueues.inside setup x turn = some (es, x')) : Sim setup c (w ++ es) x' := by
  obtain ⟨h, s, t, owes, ahead, hr, hf, ht, hst⟩ := hsim
  obtain ⟨o, ho, hs⟩ := Option.bind_eq_some_iff.1 hs
  obtain ⟨os, r, n, p, rs, hm, howes, hf'⟩ := hf.run hone hb ho
  obtain ⟨h', s', ahead', hr', ht', hst'⟩ := hst.moves hr ht rfl hm
  rw [howes] at hst'
  cases hret : o.ret with
  | none =>
    rw [hret] at hs hst'
    cases hs
    refine ⟨h', s', _, _, ahead', hr', hf', ht', ?_⟩
    rw [Function.update_self, State.moved_pc, List.append_nil]
    exact hst'
  | some r =>
    rw [hret] at hs hst'
    replace hs : OnQueues.leave setup
      { shell := x.shell, pool := x.pool.moved setup.server o.mem o.pc, call := x.call } r =
        some (es, x') := hs
    obtain ⟨hpool, rfl, hdone⟩ := CallStage.leave hst' hs
    refine ⟨h', s', _, _, ahead', hr', by rw [hpool]; exact hf', ht', ?_⟩
    rw [Function.update_self, State.moved_pc]
    exact hdone

/-- The server calls an operation of a queue. -/
theorem enter {owes : ι → List ThreadPool.Ret} {t : ThreadPool.State ι Unit}
    (hb : OnQueues.Below setup x)
    (hf : ThreadPool.Follows setup.pool setup.allocator setup.server c x.pool owes t)
    {op : ThreadPool.Op Unit} (huse : ThreadPool.Use setup.pool setup.server x.pool
      (setup.server, (.call op : Shared.Act (ThreadPool.Op Unit) (OnQueues.Turn setup))))
    {shell : State ι} {call : OnQueues.Call}
    (hs : OnQueues.enter setup { x with shell := shell } op call = some (es, x')) :
    es = [] ∧ x'.shell = shell ∧ x'.call = call ∧
      ThreadPool.Follows setup.pool setup.allocator setup.server c x'.pool owes
        (t.moved setup.server t.mem (ThreadPool.entry op)) := by
  obtain ⟨⟨es', sys⟩, hstep, he⟩ := Option.map_eq_some_iff.1 hs
  cases he
  obtain ⟨hpc, -, rfl⟩ := Impl.step_call.1 hstep
  obtain ⟨-, hf'⟩ := hf.call ⟨huse, hb⟩ hpc
  exact ⟨rfl, rfl, rfl, hf'⟩

/-- The server moves in its own code. -/
theorem serve (hsim : Sim setup c w x) (hb : OnQueues.Below setup x) {choice : Choice}
    (hs : OnQueues.serve setup x choice = some (es, x')) : Sim setup c (w ++ es) x' := by
  obtain ⟨h, s, t, owes, ahead, hr, hf, ht, hst⟩ := hsim
  obtain ⟨shell, sys, call⟩ := x
  simp only at hf hst
  generalize hrs : owes setup.server = rs, hp : t.pc setup.server = p at hst
  cases hst with
  | own pool he =>
    by_cases hpc : shell.pc = .handleResponses
    · simp only [OnQueues.serve, if_pos hpc] at hs
      obtain ⟨rfl, hshell, hcall, hf'⟩ := enter hb hf (by exact rfl) hs
      refine ⟨h, _, _, owes, [], hr, hf', ht.server ht.untags rfl rfl, ?_⟩
      rw [hshell, hcall, hrs, State.moved_pc, List.append_nil]
      exact .popping pool hpc he
    · simp only [OnQueues.serve, if_neg hpc] at hs
      cases hsub : submission setup shell choice with
      | some sub =>
        rw [hsub] at hs
        obtain ⟨rfl, hshell, hcall, hf'⟩ :=
          enter hb hf (by exact ⟨rfl, hf.backs.fields.1.symm.trans ht.running⟩) hs
        refine ⟨h, _, _, owes, [], hr, hf', ht.server ht.untags rfl rfl, ?_⟩
        rw [hshell, hcall, hrs, State.moved_pc, List.append_nil]
        exact .pushing (s := { shell with pool := pool }) shell.pool hsub he
      | none =>
        rw [hsub] at hs
        obtain ⟨⟨es', shell'⟩, hserve, hx⟩ := Option.map_eq_some_iff.1 hs
        cases hx
        have hstep : (lts setup).step { shell with pool := pool } (.server choice) =
            some (es', { shell' with pool := pool }) := by
          refine (serve_pool hpc hsub pool).trans ?_
          rw [hserve]
          rfl
        refine ⟨_, _, t, owes, [], hr.step hstep, hf, ⟨ht.untags, ht.pcs, ht.running⟩, ?_⟩
        rw [hrs, hp]
        refine .own pool ?_
        rw [List.filterMap_append, he]
  | installing pool job res hpc he =>
    cases choice with
    | clock now =>
      cases hs
      obtain ⟨h', pool', hr', hw, ht'⟩ := CallStage.installs sys (.popped res) now hpc hr ht
      refine ⟨h', _, t, owes, [], hr', hf, ht', ?_⟩
      rw [hrs, hp]
      exact .own pool' (by rw [hw, he]; rfl)
    | _ => cases hs
  | popping | empty | popped | pushing | pushed => cases hs

/-- A signal clears `g_running`. -/
theorem signal (hsim : Sim setup c w x) :
    Sim setup c w { x with shell := { x.shell with running := false } } := by
  obtain ⟨h, s, t, owes, ahead, hr, hf, ht, hst⟩ := hsim
  have hs : (lts setup).step s .signal = some ([], { s with running := false }) := rfl
  have hr' := hr.step hs
  rw [List.append_nil] at hr'
  exact ⟨h, _, t, owes, ahead, hr', hf, ⟨ht.untags, ht.pcs, ht.running⟩, hst.signal⟩

theorem step (hone : ThreadPool.Single setup.pool c) (hsim : Sim setup c w x)
    (hb : OnQueues.Below setup x) {l : OnQueues.Label setup}
    (hs : (OnQueues.lts setup).step x l = some (es, x')) : Sim setup c (w ++ es) x' := by
  cases l with
  | worker i act => exact hsim.worker hone hb hs
  | server choice => exact hsim.serve hb hs
  | inside turn => exact hsim.inside hone hb hs
  | signal =>
    cases hs
    rw [List.append_nil]
    exact hsim.signal

/-- The run up to the operation that has not returned. -/
theorem events (hsim : Sim setup c w x) :
    ∃ h s, (lts setup).Reach h s ∧ h.filterMap Event.wire = w := by
  obtain ⟨h, s, t, owes, ahead, hr, -, -, hst⟩ := hsim
  generalize x.call = call, x.shell = shell, owes setup.server = rs,
    t.pc setup.server = p at hst
  cases hst with
  | own _ he | popping _ _ he | empty _ he | popped _ _ _ _ he | installing _ _ _ _ he
  | pushing _ _ he => exact ⟨h, _, hr, he⟩
  | pushed _ _ hr0 h0 => exact ⟨_, _, hr0, h0⟩

end Sim

/-! ## The runs -/

namespace OnQueues

variable {setup : Setup ι} {c : ι} {w : List Wire} {x : State setup}

/-- The run that has shown `h` and ends in `s` has shown what the server on the queues has; where
the server has called no queue, both are in the same state. -/
structure Mirrors (setup : Setup ι) (c : ι) (w : List Wire) (x : State setup) (h : List (Event ι))
    (s : Network.State ι) : Prop where
  events : h.filterMap Event.wire = w
  shell : x.call = .none → s = { x.shell with pool := s.pool }
  fields : x.call = .none → s.pool.mem.stop = x.pool.mem.1.stop ∧
    s.pool.mem.allocator = x.pool.mem.1.allocator ∧ s.pool.mem.ended = x.pool.mem.1.ended
  queue : x.call = .none → ∃ q, setup.pool.kind.StandsFor setup.server c
    (Impl.left (setup.pool.kind.queue ι) (Impl.callee ((setup.pool.kind.queue ι).pair
      (NaiveResultQueue.impl ι)) x.pool)) q ∧ q.mem = s.pool.mem.queue.untag
  results : x.call = .none → s.pool.mem.results.map Prod.snd = x.pool.mem.2.2.data

theorem sim (hone : ThreadPool.Single setup.pool c)
    (hr : (lts setup).ReachIf (fun _ x _ => Below setup x) w x) : Sim setup c w x := by
  refine hr.inv (I := fun w x => Sim setup c w x) (fun x h0 => ?_)
    fun w x l es x' hsim hb hs => hsim.step hone hb hs
  obtain rfl := h0
  exact .init

/-- **The server on the queues is the server.** -/
theorem server_mirrors (hone : ThreadPool.Single setup.pool c)
    (hr : (lts setup).ReachIf (fun _ x _ => Below setup x) w x) :
    ∃ h s, (Network.lts setup).Reach h s ∧ Mirrors setup c w x h s := by
  have hsim := sim hone hr
  by_cases hcall : x.call = .none
  · obtain ⟨h, s, t, owes, ahead, hreach, hf, ht, hst⟩ := hsim
    obtain ⟨shell, sys, call⟩ := x
    simp only at hcall
    subst hcall
    generalize owes setup.server = rs, t.pc setup.server = p at hst
    cases hst with
    | own pool he =>
      obtain ⟨hstop, halloc, hended, -⟩ := hf.backs.fields
      obtain ⟨q, hq, hqm⟩ := hf.backs.queue
      have hu := ht.untags
      refine ⟨h, _, hreach, he, fun _ => rfl, fun _ => ⟨?_, ?_, ?_⟩, fun _ => ⟨q, hq, ?_⟩,
        fun _ => ?_⟩
      · exact hu.stop.symm.trans hstop
      · exact hu.allocator.symm.trans halloc
      · exact hu.ended.symm.trans hended
      · exact hqm.trans hu.queue
      · have hsnd := congrArg (List.map Prod.snd) hu.results
        rw [List.map_map] at hsnd
        exact hsnd.trans hf.backs.results
  · obtain ⟨h, s, hreach, he⟩ := hsim.events
    exact ⟨h, s, hreach, he, fun hc => absurd hc hcall, fun hc => absurd hc hcall,
      fun hc => absurd hc hcall, fun hc => absurd hc hcall⟩

end OnQueues
end

/-! ## A request and its answer -/

namespace OnQueues

/-- The pod of `labelPod`, with the queue that is selected. -/
def kindPod (kind : QueueKind) : Setup (Fin 2) :=
  { labelPod with pool := { labelPod.pool with kind := kind } }

section
variable {kind : QueueKind}

def Call.isNone : Call → Bool
  | .none => true
  | _ => false

theorem Call.isNone_iff {call : Call} : call.isNone = true ↔ call = .none := by
  cases call <;> simp [isNone]

def server (choices : List Choice) : List (Label (kindPod kind)) := choices.map .server

/-- The server calls a queue and takes `n` steps there. -/
def serverIn (c : kind.Choice (Fin 2) ⊕ Option (Fin 2)) (n : Nat) : List (Label (kindPod kind)) :=
  .inside .call :: List.replicate n (.inside (.inside c))

def worker (acts : List (Shared.Act (ThreadPool.Op Unit) (Turn (kindPod kind)))) :
    List (Label (kindPod kind)) :=
  acts.map (.worker ThreadPool.onePod.worker)

/-- `handle_responses` finds a result, or none. -/
def popResult : List (Label (kindPod kind)) := server [.none] ++ serverIn (.inr none) 3

/-- A round of the server that finds no result, up to the dispatch. -/
def pollRound (revents : List PollBits) : List (Label (kindPod kind)) :=
  server [.none] ++ (popResult ++ server [.poll (some revents)])

def readBytes (bytes : List UInt8) : List (Label (kindPod kind)) :=
  pollRound [.none, .pollIn] ++ server [.none, .recv (.data bytes) true 0]

/-- A client connects and sends a request. The worker is in `pop_batch` when the server pushes the
task, in `k` steps of which it takes `n` before; the worker takes it in `m` steps, and the response
is sent. -/
def request (c : kind.Choice (Fin 2)) (n k m : Nat) : List (Label (kindPod kind)) :=
  pollRound [.pollIn] ++ (server [.accept (some (4, .none)), .none] ++
    (readBytes [0, 0, 0, 3] ++ (server [.none] ++ (readBytes [9, 8, 7] ++ (serverIn (.inl c) n ++
      (worker [.call .workerLoop, .run (.own .none), .run .call, .run (.inside (.inl c))] ++
        (List.replicate (k - n) (.inside (.inside (.inl c))) ++ (server [.none] ++
          (worker (List.replicate (m - 1) (.run (.inside (.inl c))) ++ [.run (.own (.clock 0)),
            .run (.own (.engine {})), .run (.own .none), .run .call] ++
            List.replicate 4 (.run (.inside (.inr none)))) ++
            (server [.none] ++ (popResult ++ (server [.clock 0] ++ (popResult ++
              server [.poll (some [.none, .pollOut]), .none, .send (.sent 3), .none])))))))))))))

end

/-- The SPSC queue, whose only consumer is the worker. -/
theorem spsc_single : ThreadPool.Single (kindPod .spsc).pool ThreadPool.onePod.worker :=
  fun _ _ hi => List.mem_singleton.1 hi

theorem server_mirrors_request : ∃ w x h s,
    (lts (kindPod .spsc)).ReachIf (fun _ x _ => Below (kindPod .spsc) x) w x ∧
    x.call = .none ∧ .completed 0 ∈ w ∧ (Network.lts (kindPod .spsc)).Reach h s ∧
    Mirrors (kindPod .spsc) ThreadPool.onePod.worker w x h s := by
  have hC : (lts (kindPod .spsc)).Along (fun _ x _ => Below (kindPod .spsc) x) []
      (State.init (kindPod .spsc)) (request () 2 5 8) := by decide +kernel
  have he : ((lts (kindPod .spsc)).exec (State.init (kindPod .spsc)) (request () 2 5 8)).map
      (fun p => (p.2.call.isNone, decide (.completed 0 ∈ p.1))) = some (true, true) := by
    decide +kernel
  obtain ⟨⟨w, x⟩, he, heq⟩ := Option.map_eq_some_iff.1 he
  obtain ⟨hcall, hdone⟩ := Prod.mk.inj heq
  have hr := Lts.ReachIf.along (.init rfl) hC he
  obtain ⟨h, s, hreach, hm⟩ := server_mirrors spsc_single hr
  exact ⟨w, x, h, s, hr, Call.isNone_iff.1 hcall, of_decide_eq_true hdone, hreach, hm⟩

end OnQueues
end Lumen.Network
