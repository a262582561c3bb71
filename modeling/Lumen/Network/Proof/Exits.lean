import Lumen.Concurrency.Proof.Failures
import Lumen.Network.Process
import Lumen.Network.Proof.Reported
import Lumen.Network.Proof.Responses

/-!
# How the server leaves its loop

Three things take the server down, and all of them depend on what a client does: `resize` finds no
memory for the size that a header announces; a `send` goes to a client that has finished its side of
the stream and then reset the connection; the engine fails for a payload. In every run without them
the server leaves its loop only when `g_running` is cleared (`survives`).
-/

set_option autoImplicit false

namespace Lumen.Network

open Lumen.Lib Lumen.Core Lumen.Concurrency

variable {ι : Type*}

/-- The bytes complete the header. -/
def ClientSession.announces (session : ClientSession) (recv : Recv) : Bool :=
  match session.state, recv with
  | .headerPending, .data bytes => decide (session.headerBytesReceived + bytes.length = 4)
  | _, _ => false

/-- The read event completes a header, and there is no memory for its payload. -/
def Pollfd.starves (pfd : Pollfd) (server : TCPServer) : Choice → Bool
  | .recv recv false _ => pfd.revents.pollin && (decide (pfd.fd ≠ server.sockfd) &&
      (server.session pfd.fd).announces recv)
  | _ => false

/-- The step completes a header for whose payload there is no memory. -/
def starves (s : State ι) : Label ι → Bool
  | .server choice => (dispatched s (.server choice)).any fun pfd => pfd.starves s.server choice
  | _ => false

/-- The platform fails the step: there is no memory, or a `send` raises the signal. -/
def fatal (s : State ι) (l : Label ι) : Bool :=
  starves s l || (s.sends l).any fun x => decide (x.2 = .pipe)

/-- The server has left its loop. -/
def State.Down (s : State ι) : Prop := ∃ exit, s.pc = .left exit

theorem handleClientData_thrown {env : ReadEnv} {x : ClientSession} {h : Handled}
    (hh : handleClientData env x = some h) :
    h.thrown = (!env.memory && x.announces env.recv) := by
  unfold handleClientData at hh
  unfold ClientSession.announces
  split at hh <;> rename_i hst <;> rw [hst]
  · simp only [processHeader] at hh
    split at hh
    · split at hh <;> rename_i hrecv <;> rw [hrecv]
      · split at hh <;> rename_i hall
        · split at hh <;> rename_i hmem <;> cases hh <;> simp [hall, hmem]
        · cases hh
          simp [hall]
      all_goals
        cases hh
        simp
    · cases hh
  · simp only [processBody, finalizeRequest] at hh
    (repeat' split at hh) <;> cases hh <;> simp
  all_goals
    cases hh
    simp

section
variable {setup : Setup ι} {h es : List (Event ι)} {s s' : State ι} {i n : Nat} {fd : Fd}

theorem read_down {recv : Recv} {memory : Bool} {now : Rat}
    (hs : read setup s i n fd recv memory now = some (es, s')) :
    s'.Down ↔ memory = false ∧ (s.server.session fd).announces recv = true := by
  simp only [read, Option.map_eq_some_iff] at hs
  obtain ⟨hd, hh, hs⟩ := hs
  have hthrown := handleClientData_thrown hh
  rw [← Bool.not_eq_true', ← Bool.and_eq_true]
  change _ ↔ (!(readEnv setup s fd recv memory now).memory &&
    (s.server.session fd).announces (readEnv setup s fd recv memory now).recv) = true
  rw [← hthrown]
  unfold State.Down
  split at hs
  · rename_i ht
    cases hs
    simp [ht]
  · rename_i ht
    split at hs <;> cases hs <;> simp [ht]

theorem send_down {r : Send} (hs : send s i n fd r = some (es, s')) :
    s'.Down ↔ r = .pipe := by
  unfold State.Down
  simp only [send] at hs
  split at hs
  · cases r with
    | sent k =>
      simp only at hs
      split at hs
      · split at hs <;> cases hs <;> simp
      · cases hs
        simp
    | again =>
      cases hs
      simp
    | error =>
      cases hs
      simp
    | pipe =>
      cases hs
      simp
  · cases hs

theorem accept_down {fd : Option (Fd × PollBits)} (hs : accept setup s i n fd = some (es, s')) :
    ¬ s'.Down := by
  unfold State.Down
  unfold accept at hs
  split at hs
  · cases hs
    simp
  · split at hs
    · cases hs
      simp
    · cases hs

/-- Nothing sets `g_running` again. -/
theorem dispatch_running {choice : Choice} (hs : dispatch setup s i n choice = some (es, s')) :
    s'.running = s.running := by
  unfold dispatch at hs
  split at hs
  · split at hs
    · cases hs
    · split at hs
      · split at hs
        · split at hs
          · unfold accept at hs
            (repeat' split at hs) <;> cases hs <;> rfl
          · cases hs
        · split at hs
          · unfold read at hs
            obtain ⟨hd, -, hs⟩ := Option.map_eq_some_iff.1 hs
            unfold handled at hs
            simp only at hs
            (repeat' split at hs) <;> cases hs <;> rfl
          · cases hs
      · split at hs
        · split at hs
          · unfold send at hs
            simp only at hs
            (repeat' split at hs) <;> cases hs <;> rfl
          · cases hs
        · cases hs
          rfl
  · cases hs
    rfl

theorem dispatch_down {choice : Choice} (hpc : s.pc = .dispatch i n)
    (hs : dispatch setup s i n choice = some (es, s')) :
    s'.Down ↔ fatal s (.server choice) = true := by
  unfold dispatch at hs
  split at hs <;> rename_i hi
  · split at hs
    · cases hs
    · rename_i p hp
      have hstarves : starves s (.server choice) = p.starves s.server choice := by
        simp only [starves, dispatched, hpc, if_pos hi, hp, Option.toList_some, List.any_cons,
          List.any_nil, Bool.or_false]
      rw [fatal, hstarves]
      split at hs <;> rename_i hin
      · split at hs <;> rename_i hfd
        · split at hs
          · exact iff_of_false (accept_down hs) (by simp [Pollfd.starves, State.sends])
          · cases hs
        · split at hs
          · rename_i recv memory now
            rw [read_down hs]
            cases memory with
            | false => simp [Pollfd.starves, State.sends, hin, hfd]
            | true => simp [Pollfd.starves, State.sends]
          · cases hs
      · rw [Bool.not_eq_true] at hin
        split at hs <;> rename_i hout
        · split at hs
          · rw [send_down hs]
            simp [Pollfd.starves, State.sends, hpc, hi, hp, hin, hout]
          · cases hs
        · cases hs
          refine iff_of_false ?_ ?_
          · rintro ⟨exit, h⟩
            cases h
          · cases choice with
            | send r => simp [Pollfd.starves, State.sends, hpc, hi, hp, hin, hout]
            | recv recv memory now => cases memory <;> simp [Pollfd.starves, State.sends, hin]
            | _ => simp [Pollfd.starves, State.sends]
  · cases hs
    refine iff_of_false ?_ ?_
    · rintro ⟨exit, h⟩
      cases h
    · cases choice <;> simp [fatal, starves, dispatched, State.sends, hpc, hi]

/-- Whatever the session, the end of the stream can be handled. -/
theorem handleClientData_isSome {env : ReadEnv} (hrecv : env.recv = .eof) (x : ClientSession) :
    (handleClientData env x).isSome := by
  unfold handleClientData
  cases x.state with
  | headerPending => simp [processHeader, hrecv, Recv.Fits]
  | bodyPending =>
    simp only [processBody, hrecv, Recv.Fits, if_true]
    split <;> rfl
  | readyForInference => rfl
  | inferencePending => rfl
  | responseSending => rfl

/-- An answer of the kernel that is always possible. -/
def Peer.answer : Peer → Send
  | .broken => .pipe
  | .reset => .error
  | .connected | .finished => .again

theorem Peer.answers_answer (peer : Peer) : peer.answers peer.answer = true := by
  cases peer <;> rfl

theorem exists_dispatch (peers : ConnId → Peer) {p : Pollfd} (hpc : s.pc = .dispatch i n)
    (hi : i < n) (hp : s.server.pollfds[i]? = some p) :
    ∃ choice, (dispatch setup s i n choice).isSome ∧
      (s.sends (.server choice)).all (fun x => (peers x.1).answers x.2) = true := by
  simp only [dispatch, if_pos hi, hp]
  by_cases hin : p.revents.pollin = true
  · simp only [if_pos hin]
    by_cases hfd : p.fd = s.server.sockfd
    · refine ⟨.accept none, ?_, rfl⟩
      rw [if_pos hfd]
      rfl
    · refine ⟨.recv .eof true 0, ?_, rfl⟩
      rw [if_neg hfd]
      show (read setup s i n p.fd .eof true 0).isSome = true
      rw [read, Option.isSome_map]
      exact handleClientData_isSome rfl _
  · simp only [if_neg hin]
    by_cases hout : p.revents.pollout = true
    · refine ⟨.send (peers (s.conn p.fd)).answer, ?_, ?_⟩
      · rw [if_pos hout]
        cases peers (s.conn p.fd) <;> rfl
      · simp only [State.sends, hpc, if_pos hi, hp, if_neg hin, if_pos hout, Option.all_some]
        exact Peer.answers_answer _
    · refine ⟨.none, ?_, rfl⟩
      rw [if_neg hout]
      rfl

variable [DecidableEq ι]

theorem step_running {l : Label ι} (hs : step setup s l = some (es, s'))
    (hrun : s'.running = true) : s.running = true := by
  cases l with
  | worker i act =>
    simp only [step] at hs
    split at hs
    · obtain ⟨⟨es', pool⟩, -, he⟩ := Option.map_eq_some_iff.1 hs
      cases he
      exact hrun
    · cases hs
  | signal =>
    cases hs
    cases hrun
  | server choice =>
    simp only [step, serve] at hs
    split at hs
    · cases hs
      exact hrun
    · split at hs
      · rw [Option.some.injEq] at hs
        unfold handleResponses at hs
        split at hs <;> cases hs <;> exact hrun
      · cases hs
    · split at hs
      · obtain ⟨s1, hs1, he⟩ := Option.map_eq_some_iff.1 hs
        cases he
        unfold poll at hs1
        (repeat' split at hs1) <;> cases hs1 <;> exact hrun
      · cases hs
    · rw [← dispatch_running hs]
      exact hrun
    · cases hs

/-- A server in its loop leaves it in a step exactly if the platform fails the step. -/
theorem step_down (hrun : s.running = true) (hloop : ¬ s.Down) {l : Label ι}
    (hs : step setup s l = some (es, s')) : s'.Down ↔ fatal s l = true := by
  cases l with
  | worker i act =>
    simp only [step] at hs
    split at hs
    · obtain ⟨⟨es', pool⟩, -, he⟩ := Option.map_eq_some_iff.1 hs
      cases he
      exact iff_of_false hloop Bool.false_ne_true
    · cases hs
  | signal =>
    cases hs
    exact iff_of_false hloop Bool.false_ne_true
  | server choice =>
    simp only [step, serve] at hs
    split at hs <;> rename_i hpc
    · cases hs
      refine iff_of_false ?_ (by cases choice <;> simp [fatal, starves, dispatched, State.sends, hpc])
      rintro ⟨exit, h⟩
      simp only [hrun, if_true] at h
      cases h
    · refine iff_of_false ?_ (by cases choice <;> simp [fatal, starves, dispatched, State.sends, hpc])
      rintro ⟨exit, h⟩
      split at hs
      · rw [Option.some.injEq] at hs
        unfold handleResponses at hs
        split at hs
        · cases hs
          cases h
        · cases hs
          exact hloop ⟨exit, h⟩
      · cases hs
    · refine iff_of_false ?_ (by cases choice <;> simp [fatal, starves, dispatched, State.sends, hpc])
      rintro ⟨exit, h⟩
      split at hs
      · obtain ⟨s1, hs1, he⟩ := Option.map_eq_some_iff.1 hs
        cases he
        unfold poll at hs1
        (repeat' split at hs1) <;> cases hs1 <;> cases h
      · cases hs
    · exact dispatch_down hpc hs
    · cases hs

/-- The server can take its next step, with an answer that the kernel may give. -/
theorem exists_step (peers : ConnId → Peer) (hp : Polled s) (hloop : ¬ s.Down) :
    ∃ choice, (step setup s (.server choice)).isSome ∧
      (s.sends (.server choice)).all (fun x => (peers x.1).answers x.2) = true := by
  simp only [step]
  unfold serve
  cases hpc : s.pc with
  | loopTest => exact ⟨.none, rfl, rfl⟩
  | handleResponses => exact ⟨.clock 0, rfl, rfl⟩
  | poll => exact ⟨.poll none, rfl, rfl⟩
  | left exit => exact absurd ⟨exit, hpc⟩ hloop
  | dispatch i n =>
    obtain ⟨-, hn⟩ := hp.current i n hpc
    by_cases hi : i < n
    · exact exists_dispatch peers hpc hi (List.getElem?_eq_getElem (Nat.lt_of_lt_of_le hi hn))
    · refine ⟨.none, ?_, rfl⟩
      show (dispatch setup s i n .none).isSome = true
      unfold dispatch
      rw [if_neg hi]
      rfl

end

/-! ## The process -/

section
variable [DecidableEq ι] {setup : Setup ι} {h es : List (Event ι)} {s s' : Process ι}

/-- An engine that the step calls can answer. -/
def Answerable (setup : Setup ι) (s : State ι) : Label ι → Prop
  | .worker i act => ThreadPool.Unharmed setup.pool s.pool (i, act)
  | .signal | .server _ => True

instance (setup : Setup ι) (s : State ι) : ∀ l, Decidable (Answerable setup s l)
  | .worker i act => inferInstanceAs (Decidable (ThreadPool.Unharmed setup.pool s.pool (i, act)))
  | .signal | .server _ => .isTrue trivial

/-- The step completes no header for whose payload there is no memory, sends to no client that has
finished and then reset its connection, and calls no engine that cannot answer. -/
def Spared (setup : Setup ι) (s : Process ι) : ProcessLabel ι → Prop
  | .peer _ _ => True
  | .system l => starves s.system l = false ∧
      (s.system.sends l).all (fun x => decide (s.peers x.1 ≠ .broken)) = true ∧
      Answerable setup s.system l

instance (setup : Setup ι) (s : Process ι) : ∀ l, Decidable (Spared setup s l)
  | .peer _ _ => .isTrue trivial
  | .system l => inferInstanceAs (Decidable (starves s.system l = false ∧
      (s.system.sends l).all (fun x => decide (s.peers x.1 ≠ .broken)) = true ∧
      Answerable setup s.system l))

/-- Only a call that cannot be answered crashes. -/
theorem crashes_eq_false (hr : (lts setup).Reach h s.system) {l : Label ι} :
    Answerable setup s.system l → crashes setup s.system l = false := by
  intro ha
  cases l with
  | worker i act =>
    have hok := (ThreadPool.inv (served hr).linked.reach).2.ok
    rw [crashes, (ThreadPool.unharmed_iff hok).1 ha, Option.isSome_none, Bool.and_false]
  | _ => rfl

theorem answerable_of_step (hr : (lts setup).Reach h s.system) {l : Label ι} {s1 : State ι}
    (hc : crashes setup s.system l = false) (hs : step setup s.system l = some (es, s1)) :
    Answerable setup s.system l := by
  cases l with
  | worker i act =>
    have hok := (ThreadPool.inv (served hr).linked.reach).2.ok
    refine (ThreadPool.unharmed_iff hok).2 ?_
    simp only [step] at hs
    split at hs
    · rename_i hmay
      rw [crashes, hmay, Bool.true_and] at hc
      exact Option.not_isSome_iff_eq_none.1 (Bool.eq_false_iff.1 hc)
    · cases hs
  | _ => trivial

omit [DecidableEq ι] in
theorem ended_of_not_down {s : State ι} (h : ¬ s.Down) : s.ended = false := by
  refine decide_eq_false ?_
  rintro (h1 | h1) <;> exact h ⟨_, h1⟩

/-- A step of the process is a crash or a step of its system. -/
theorem process_system {l : Label ι}
    (hs : (process setup).step s (.system l) = some (es, s')) :
    (crashes setup s.system l = true ∧ s'.system.Down) ∨
      crashes setup s.system l = false ∧ step setup s.system l = some (es, s'.system) ∧
        (s.system.sends l).all (fun x => (s.peers x.1).answers x.2) = true := by
  simp only [process, Process.step] at hs
  split at hs
  · cases hs
  · split at hs <;> rename_i hc
    · cases hs
      exact .inl ⟨hc, _, rfl⟩
    · split at hs <;> rename_i hall
      · obtain ⟨p, hp, he⟩ := Option.map_eq_some_iff.1 hs
        cases he
        exact .inr ⟨Bool.eq_false_iff.2 hc, hp, hall⟩
      · cases hs

/-- A `send` raises the signal exactly if the client has finished and then reset its connection. -/
theorem Peer.pipe_iff {peer : Peer} {answer : Send} (h : peer.answers answer = true) :
    answer = .pipe ↔ peer = .broken := by
  cases peer with
  | broken => exact iff_of_true (of_decide_eq_true h) rfl
  | reset =>
    obtain rfl := of_decide_eq_true h
    exact iff_of_false (by decide) (by decide)
  | connected => exact iff_of_false (of_decide_eq_true h) (by decide)
  | finished => exact iff_of_false (of_decide_eq_true h) (by decide)

omit [DecidableEq ι] in
/-- Where no engine crashes, a step is spared exactly if the platform does not fail it. -/
theorem spared_iff {l : Label ι} (ha : Answerable setup s.system l)
    (hpeers : (s.system.sends l).all (fun x => (s.peers x.1).answers x.2) = true) :
    Spared setup s (.system l) ↔ fatal s.system l = false := by
  simp only [Spared, fatal, ha, and_true, Bool.or_eq_false_iff]
  refine and_congr_right fun _ => ?_
  cases hx : s.system.sends l with
  | none => exact iff_of_true rfl rfl
  | some x =>
    rw [hx, Option.all_some] at hpeers
    simp only [Option.all_some, Option.any_some, decide_eq_true_eq, decide_eq_false_iff_not]
    exact not_congr (Peer.pipe_iff hpeers).symm

/-- A server in its loop leaves it in a step exactly if the step is not spared. -/
theorem process_down (hr : (lts setup).Reach h s.system) (hrun : s.system.running = true)
    (hloop : ¬ s.system.Down) {l : ProcessLabel ι}
    (hs : (process setup).step s l = some (es, s')) :
    s'.system.Down ↔ ¬ Spared setup s l := by
  cases l with
  | peer c act =>
    cases hs
    exact iff_of_false hloop fun h => h trivial
  | system l =>
    rcases process_system hs with ⟨hc, hdown⟩ | ⟨hc, hstep, hpeers⟩
    · refine iff_of_true hdown fun hspared => ?_
      rw [crashes_eq_false hr hspared.2.2] at hc
      cases hc
    · rw [step_down hrun hloop hstep, spared_iff (answerable_of_step hr hc hstep) hpeers,
        Bool.not_eq_false]

/-- In a run whose steps are spared the system has its own run, and is in its loop. -/
theorem spared_run (hr : (process setup).ReachIf (fun _ s l => Spared setup s l) h s) :
    (lts setup).Reach h s.system ∧ (s.system.running = true → ¬ s.system.Down) := by
  refine hr.inv
    (I := fun h s => (lts setup).Reach h s.system ∧ (s.system.running = true → ¬ s.system.Down))
    (fun s h0 => ?_) fun h s l es s' ⟨hreach, hloop⟩ hspared hs => ?_
  · obtain rfl : s = .init setup := h0
    refine ⟨.init rfl, fun _ => ?_⟩
    rintro ⟨exit, hpc⟩
    cases hpc
  · have hdown := fun hrun => process_down hreach hrun (hloop hrun) hs
    cases l with
    | peer c act =>
      cases hs
      rw [List.append_nil]
      exact ⟨hreach, hloop⟩
    | system l =>
      rcases process_system hs with ⟨hc, -⟩ | ⟨-, hstep, -⟩
      · rw [crashes_eq_false hreach hspared.2.2] at hc
        cases hc
      · exact ⟨hreach.step hstep, fun hrun h => (hdown (step_running hstep hrun)).1 h hspared⟩

/-- **No client** takes the server down in a run in which no header finds no memory, no `send` goes
to a client that has finished and then reset its connection, and no engine fails: while `g_running`
is set the server is in its loop and can take its next step, and a step takes it out of the loop
exactly if it does one of these. -/
theorem survives (hr : (process setup).ReachIf (fun _ s l => Spared setup s l) h s)
    (hrun : s.system.running = true) :
    ¬ s.system.Down ∧
      (∃ choice, ((process setup).step s (.system (.server choice))).isSome) ∧
      ∀ l es s', (process setup).step s l = some (es, s') →
        (s'.system.Down ↔ ¬ Spared setup s l) := by
  obtain ⟨hreach, hloop⟩ := spared_run hr
  have hloop := hloop hrun
  refine ⟨hloop, ?_, fun l es s' => process_down hreach hrun hloop⟩
  obtain ⟨choice, hstep, hpeers⟩ := exists_step s.peers (tables hreach).2 hloop
  refine ⟨choice, ?_⟩
  simp only [process, Process.step, ended_of_not_down hloop, crashes, Bool.false_eq_true, if_false,
    if_pos hpeers, Option.isSome_map]
  exact hstep

end

/-! ## Clients that take the server down -/

/-- One more round, up to the dispatch of the client. -/
def lastRound (results : Nat) (bits : PollBits) (choice : Choice) : List (Label (Fin 2)) :=
  (.none :: (List.replicate (results + 1) (.clock 0) ++
    [.poll (some [.none, bits]), .none, choice])).map .server

def system (ls : List (Label (Fin 2))) : List (ProcessLabel (Fin 2)) := ls.map .system

/-- The server of one pixel, for a model with a dynamic height. -/
def dynamicPod : Setup (Fin 2) := onePod.withEngine ThreadPool.dynamicEngine

/-- Where a run of the process ends: `g_running`, the place of the server, and what has come on the
first connection. -/
def outcome (setup : Setup (Fin 2)) (ls : List (ProcessLabel (Fin 2))) :
    Option (Bool × Pc × List UInt8) :=
  ((process setup).exec (.init setup) ls).map fun p =>
    (p.2.system.running, p.2.system.pc, received p.1 0)

/-- The process ends while `g_running` is set. -/
theorem outcome_reach {setup : Setup (Fin 2)} {ls : List (ProcessLabel (Fin 2))} {pc : Pc}
    {bytes : List UInt8} (he : outcome setup ls = some (true, pc, bytes)) :
    ∃ h s, (process setup).Reach h s ∧ s.system.running = true ∧ s.system.pc = pc ∧
      received h 0 = bytes := by
  obtain ⟨⟨h, s⟩, he, heq⟩ := Option.map_eq_some_iff.1 he
  obtain ⟨hrun, heq⟩ := Prod.mk.inj heq
  exact ⟨h, s, .of_exec rfl he, hrun, (Prod.mk.inj heq).1, (Prod.mk.inj heq).2⟩

/-- A client announces `2 ^ 32 - 1` bytes and `resize` throws; a client sends a request, finishes
its side of the stream and resets the connection before the response is sent; a client sends a
request to a model for which onnxruntime makes no tensor. -/
theorem taken_down :
    (∃ h s, (process onePod).Reach h s ∧ s.system.running = true ∧ s.system.pc = .left .thrown ∧
      received h 0 = [255, 255, 255, 255]) ∧
    (∃ h s, (process onePod).Reach h s ∧ s.system.running = true ∧ s.system.pc = .left .killed ∧
      received h 0 = [0, 0, 0, 3, 9, 8, 7]) ∧
    ∃ h s, (process dynamicPod).Reach h s ∧ s.system.running = true ∧
      s.system.pc = .left .killed ∧ received h 0 = [0, 0, 0, 3, 9, 8, 7] := by
  have h1 : outcome onePod (system (round 0 [.pollIn] [.accept (some (4, .none))] ++
      lastRound 0 .pollIn (.recv (.data [255, 255, 255, 255]) false 0))) =
        some (true, .left .thrown, [255, 255, 255, 255]) := by decide +kernel
  have h2 : outcome onePod (system (header ++ readRound [9, 8, 7]) ++ ([.peer 0 .finish,
      .peer 0 .reset] ++ system (work ++ lastRound 1 .pollOut (.send .pipe)))) =
        some (true, .left .killed, [0, 0, 0, 3, 9, 8, 7]) := by decide +kernel
  have h3 : outcome dynamicPod (system (header ++ (readRound [9, 8, 7] ++ work.take 7))) =
        some (true, .left .killed, [0, 0, 0, 3, 9, 8, 7]) := by decide +kernel
  exact ⟨outcome_reach h1, outcome_reach h2, outcome_reach h3⟩

/-- A client resets its connection while its request is run: the `send` fails, the server closes the
connection and goes on. -/
theorem survives_request : ∃ h s, (process onePod).Reach h s ∧ s.peers 0 = .reset ∧
    received h 0 = [0, 0, 0, 3, 9, 8, 7] ∧ s.system.conns 4 = none ∧ ¬ s.system.Down := by
  let ls := system (header ++ readRound [9, 8, 7]) ++ (.peer 0 .reset ::
    system (work ++ round 1 [.none, .pollOut] [.none, .send .error]))
  have he : ((process onePod).exec (.init onePod) ls).map (fun p =>
      (p.2.peers 0, received p.1 0, p.2.system.conns 4, p.2.system.running)) =
        some (.reset, [0, 0, 0, 3, 9, 8, 7], none, true) := by
    decide +kernel
  have hC : (process onePod).Along (fun _ s l => Spared onePod s l) [] (.init onePod) ls := by
    decide +kernel
  obtain ⟨⟨h, s⟩, he, heq⟩ := Option.map_eq_some_iff.1 he
  obtain ⟨hpeer, heq⟩ := Prod.mk.inj heq
  obtain ⟨hrec, heq⟩ := Prod.mk.inj heq
  obtain ⟨hconn, hrun⟩ := Prod.mk.inj heq
  have hif := Lts.ReachIf.along (.init rfl) hC he
  exact ⟨h, s, hif.reach, hpeer, hrec, hconn, (survives hif hrun).1⟩

end Lumen.Network
