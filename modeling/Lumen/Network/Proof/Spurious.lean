import Lumen.Network.Proof.Effect
import Lumen.Network.Proof.Stream

/-!
# Readiness that turns out to be spurious

`poll` may report an entry whose socket then answers `EAGAIN`. `Alike`: two states that differ only
in bits of `revents` that are no longer looked at; no run tells them apart (`alike_exec`). A body
read and a send that find nothing leave the server as if the entry had not been reported, in every
reachable state; a header read closes the connection (`spurious_iff`).
-/

set_option autoImplicit false

namespace Lumen.Network

open Lumen.Lib Lumen.Core Lumen.Concurrency

variable {ι : Type*}

/-- What is left of an entry once it has been dispatched. -/
def Pollfd.entry (p : Pollfd) : Fd × PollBits := (p.fd, p.events)

namespace State

def withPollfds (s : State ι) (pollfds : List Pollfd) : State ι :=
  { s with server := { s.server with pollfds := pollfds } }

/-- `poll` has reported nothing for the entry `p` at `i`. -/
def unreported (s : State ι) (i : Nat) (p : Pollfd) : State ι :=
  s.withPollfds (s.server.pollfds.set i { p with revents := .none })

end State

/-- The states differ only in the `revents` of entries that have been dispatched. -/
structure Alike (s t : State ι) : Prop where
  rest : t = s.withPollfds t.server.pollfds
  entries : s.server.pollfds.map Pollfd.entry = t.server.pollfds.map Pollfd.entry
  todo : ∀ i n, s.pc = .dispatch i n → s.server.pollfds.drop i = t.server.pollfds.drop i

/-- The `recv` or the `send` for the entry `p` fails with `EAGAIN`. -/
def Transient (s : State ι) (p : Pollfd) : Label ι → Prop
  | .server (.recv .again _ _) =>
    p.revents.pollin = true ∧ (s.server.session p.fd).recvCall.isSome = true
  | .server (.send .again) => p.revents.pollin = false ∧ p.revents.pollout = true
  | _ => False

/-- The step leaves the sessions, the connections and `pollfds` as they are, and from then on every
run is one of the server for which the entry `p` at `i` was not reported. -/
def Unharmed [DecidableEq ι] (setup : Setup ι) (s : State ι) (i : Nat) (p : Pollfd)
    (l : Label ι) : Prop :=
  ∃ es s' t, step setup s l = some (es, s') ∧ es ⊆ [.readable (s.conn p.fd)] ∧
    s'.server = s.server ∧ s'.conns = s.conns ∧
    (∀ choice, step setup (s.unreported i p) (.server choice) = some ([], t)) ∧
    ∀ ls, Lts.Both Alike ((lts setup).exec s' ls) ((lts setup).exec t ls)

section
variable {qs ps : List Pollfd}

theorem entries_length (he : qs.map Pollfd.entry = ps.map Pollfd.entry) :
    qs.length = ps.length := by
  simpa using congrArg List.length he

namespace Alike

variable {s : State ι} {i n : Nat}

theorem of (he : s.server.pollfds.map Pollfd.entry = ps.map Pollfd.entry)
    (ht : ∀ i n, s.pc = .dispatch i n → s.server.pollfds.drop i = ps.drop i) :
    Alike s (s.withPollfds ps) := ⟨rfl, he, ht⟩

/-- Outside the dispatch no `revents` is looked at. -/
theorem away (he : s.server.pollfds.map Pollfd.entry = ps.map Pollfd.entry)
    (hpc : ∀ i n, s.pc ≠ .dispatch i n) : Alike s (s.withPollfds ps) :=
  of he fun i n h => absurd h (hpc i n)

/-- The entry `i` has been dispatched. -/
theorem next (he : qs.map Pollfd.entry = ps.map Pollfd.entry) (hd : qs.drop i = ps.drop i)
    (hpc : s.pc = .dispatch (i + 1) n) (hqs : s.server.pollfds = qs) :
    Alike s (s.withPollfds ps) := by
  refine of (hqs ▸ he) fun j m h => ?_
  rw [hpc] at h
  cases h
  rw [hqs, ← List.drop_drop, hd, List.drop_drop]

/-- The entry `i` has been closed. -/
theorem removed (he : qs.map Pollfd.entry = ps.map Pollfd.entry) (hd : qs.drop i = ps.drop i)
    (hi : i < ps.length) (hpc : s.pc = .dispatch i n) (hqs : s.server.pollfds = swapRemove qs i) :
    Alike s (s.withPollfds (swapRemove ps i)) := by
  refine of ?_ fun j m h => ?_
  · rw [hqs, map_swapRemove, he, map_swapRemove]
  · rw [hpc] at h
    cases h
    rw [hqs, drop_swapRemove (entries_length he ▸ hi), drop_swapRemove hi, hd]

end Alike
end

variable {setup : Setup ι} {s s' : State ι} {ps qs : List Pollfd} {i n : Nat} {p : Pollfd}

/-- What is asked of `poll` and what it writes depends on what the entries are polled for. -/
theorem asked_iff (he : qs.map Pollfd.entry = ps.map Pollfd.entry) (rs : List PollBits) :
    List.Forall₂ Pollfd.Asked qs rs ↔ List.Forall₂ Pollfd.Asked ps rs := by
  have hmap : ∀ l : List Pollfd, List.Forall₂ Pollfd.Asked l rs ↔
      List.Forall₂ (fun (e : Fd × PollBits) (r : PollBits) =>
        (r.pollin = true → e.2.pollin = true) ∧ (r.pollout = true → e.2.pollout = true))
        (l.map Pollfd.entry) rs := fun l => by
    rw [List.forall₂_map_left_iff]
    exact Iff.rfl
  rw [hmap, hmap, he]

theorem setRevents_congr (he : qs.map Pollfd.entry = ps.map Pollfd.entry) (rs : List PollBits) :
    qs.zipWith (fun pfd r => ({ pfd with revents := r } : Pollfd)) rs =
      ps.zipWith (fun pfd r => { pfd with revents := r }) rs := by
  have hmap : ∀ l : List Pollfd, l.zipWith (fun pfd r => ({ pfd with revents := r } : Pollfd)) rs =
      (l.map Pollfd.entry).zipWith (fun e r => ⟨e.1, e.2, r⟩) rs := fun l => by
    rw [List.zipWith_map_left]
    rfl
  rw [hmap, hmap, he]

theorem selectEvents_alike {server : TCPServer}
    (he : server.pollfds.map Pollfd.entry = ps.map Pollfd.entry) :
    ∃ ps', ({ server with pollfds := ps } : TCPServer).selectEvents =
        { server.selectEvents with pollfds := ps' } ∧
      server.selectEvents.pollfds.map Pollfd.entry = ps'.map Pollfd.entry := by
  obtain ⟨sockfd, qs, sessions, gen⟩ := server
  cases qs with
  | nil =>
    obtain rfl : ps = [] := List.map_eq_nil_iff.1 he.symm
    exact ⟨[], rfl, rfl⟩
  | cons q qs =>
    cases ps with
    | nil => cases he
    | cons p ps =>
      simp only [List.map_cons, List.cons.injEq] at he
      have hfds : qs.map (·.fd) = ps.map (·.fd) := by
        have := congrArg (List.map Prod.fst) he.2
        rwa [List.map_map, List.map_map] at this
      -- the selection looks at the descriptors only
      have hfold : ∀ l : List Pollfd, l.foldl (fun (sessions : Fd → Option ClientSession) pfd =>
          Function.update sessions pfd.fd (some ((sessions pfd.fd).getD {}))) sessions =
          (l.map (·.fd)).foldl (fun sessions fd =>
            Function.update sessions fd (some ((sessions fd).getD {}))) sessions := fun l => by
        rw [List.foldl_map]
      let select (pfd : Pollfd) : Pollfd :=
        { pfd with events := TCPServer.eventsOf ((sessions pfd.fd).getD {}).state }
      have hmap : ∀ l : List Pollfd, (l.map select).map Pollfd.entry = (l.map (·.fd)).map fun fd =>
          (fd, TCPServer.eventsOf ((sessions fd).getD {}).state) := fun l => by
        rw [List.map_map, List.map_map]
        rfl
      refine ⟨p :: ps.map select, ?_, ?_⟩
      · simp only [TCPServer.selectEvents, hfold, hfds]
        rfl
      · simp only [TCPServer.selectEvents, List.map_cons, he.1]
        exact congrArg _ ((hmap qs).trans (hfds ▸ (hmap ps).symm))

theorem read_alike (he : s.server.pollfds.map Pollfd.entry = ps.map Pollfd.entry)
    (hd : s.server.pollfds.drop i = ps.drop i) (hi : i < ps.length) {fd : Fd} {recv : Recv}
    {memory : Bool} {now : Rat} :
    Lts.Both Alike (read setup s i n fd recv memory now)
      (read setup (s.withPollfds ps) i n fd recv memory now) := by
  simp only [read]
  change Lts.Both Alike (Option.map _ (handleClientData (readEnv setup s fd recv memory now)
    (s.server.session fd))) (Option.map _ (handleClientData (readEnv setup s fd recv memory now)
    (s.server.session fd)))
  cases handleClientData (readEnv setup s fd recv memory now) (s.server.session fd) with
  | none => exact .none
  | some h =>
    simp only [Option.map_some, handled]
    cases h.task with
    | none =>
      simp only
      split
      · exact .some ⟨rfl, .away he fun _ _ h => by cases h⟩
      · split
        · exact .some ⟨rfl, .removed he hd hi rfl rfl⟩
        · exact .some ⟨rfl, .next he hd rfl rfl⟩
    | some task =>
      simp only
      split
      · exact .some ⟨rfl, .away he fun _ _ h => by cases h⟩
      · split
        · exact .some ⟨rfl, .removed he hd hi rfl rfl⟩
        · exact .some ⟨rfl, .next he hd rfl rfl⟩

theorem send_alike (he : s.server.pollfds.map Pollfd.entry = ps.map Pollfd.entry)
    (hd : s.server.pollfds.drop i = ps.drop i) (hi : i < ps.length) {fd : Fd} {r : Send} :
    Lts.Both Alike (send s i n fd r) (send (s.withPollfds ps) i n fd r) := by
  refine Lts.both_ite (fun _ => ?_) fun _ => .none
  cases r with
  | sent k =>
    refine Lts.both_ite (fun _ => ?_) fun _ => .some ⟨rfl, .next he hd rfl rfl⟩
    exact Lts.both_ite (fun _ => .some ⟨rfl, .next he hd rfl rfl⟩)
      fun _ => .some ⟨rfl, .next he hd rfl rfl⟩
  | again => exact .some ⟨rfl, .next he hd rfl rfl⟩
  | error => exact .some ⟨rfl, .removed he hd hi rfl rfl⟩
  | pipe => exact .some ⟨rfl, .away he fun _ _ h => by cases h⟩

theorem accept_alike (he : s.server.pollfds.map Pollfd.entry = ps.map Pollfd.entry)
    (hd : s.server.pollfds.drop i = ps.drop i) {fd : Option (Fd × PollBits)} :
    Lts.Both Alike (accept setup s i n fd) (accept setup (s.withPollfds ps) i n fd) := by
  cases fd with
  | none => exact .some ⟨rfl, .next he hd rfl rfl⟩
  | some r =>
    obtain ⟨fd, revents⟩ := r
    have he' : ∀ q : Pollfd, (s.server.pollfds ++ [q]).map Pollfd.entry =
        (ps ++ [q]).map Pollfd.entry := fun q => by
      rw [List.map_append, he, List.map_append]
    have hd' : ∀ q : Pollfd, (s.server.pollfds ++ [q]).drop i = (ps ++ [q]).drop i := fun q => by
      rw [List.drop_append, hd, List.drop_append, entries_length he]
    exact Lts.both_ite (fun _ => .some ⟨rfl, .next (he' _) (hd' _) rfl rfl⟩) fun _ => .none

theorem dispatch_alike (he : s.server.pollfds.map Pollfd.entry = ps.map Pollfd.entry)
    (hd : s.server.pollfds.drop i = ps.drop i) {choice : Choice} :
    Lts.Both Alike (dispatch setup s i n choice)
      (dispatch setup (s.withPollfds ps) i n choice) := by
  have hget : s.server.pollfds[i]? = ps[i]? := by
    have := congrArg (·[0]?) hd
    simpa only [List.getElem?_drop, Nat.add_zero] using this
  refine Lts.both_ite (fun _ => ?_) fun _ => .some ⟨rfl, .away he fun _ _ h => by cases h⟩
  cases hp : ps[i]? with
  | none =>
    simp only [hget.trans hp, show (s.withPollfds ps).server.pollfds[i]? = none from hp]
    exact .none
  | some p =>
    have hi : i < ps.length := (List.getElem?_eq_some_iff.1 hp).1
    simp only [hget.trans hp, show (s.withPollfds ps).server.pollfds[i]? = some p from hp]
    refine Lts.both_ite (fun _ => ?_) fun _ => ?_
    · refine Lts.both_ite (fun _ => ?_) fun _ => ?_
      · cases choice with
        | accept fd => exact accept_alike he hd
        | _ => exact .none
      · cases choice with
        | recv recv memory now => exact read_alike he hd hi
        | _ => exact .none
    · refine Lts.both_ite (fun _ => ?_) fun _ => .some ⟨rfl, .next he hd rfl rfl⟩
      cases choice with
      | send r => exact send_alike he hd hi
      | _ => exact .none

theorem handleResponses_alike (he : s.server.pollfds.map Pollfd.entry = ps.map Pollfd.entry)
    (hpc : s.pc = .handleResponses) {now : Rat} :
    (handleResponses setup s now).1 = (handleResponses setup (s.withPollfds ps) now).1 ∧
      Alike (handleResponses setup s now).2 (handleResponses setup (s.withPollfds ps) now).2 := by
  have haway : ∀ i n, s.pc ≠ .dispatch i n := fun i n h => by
    rw [hpc] at h
    cases h
  cases hres : s.pool.mem.results with
  | nil =>
    obtain ⟨ps', hsel, hent⟩ := selectEvents_alike he
    have hsel' : (s.withPollfds ps).server.selectEvents = _ := hsel
    simp only [handleResponses, hres, show (s.withPollfds ps).pool.mem.results = [] from hres,
      hsel']
    exact ⟨rfl, .away hent fun _ _ h => by cases h⟩
  | cons r results =>
    obtain ⟨job, res⟩ := r
    simp only [handleResponses, hres, TCPServer.handleResponse,
      show (s.withPollfds ps).pool.mem.results = (job, res) :: results from hres,
      show (s.withPollfds ps).server.sessions = s.server.sessions from rfl]
    split
    · exact ⟨rfl, .away he haway⟩
    · exact ⟨rfl, .away he haway⟩

theorem poll_alike (he : s.server.pollfds.map Pollfd.entry = ps.map Pollfd.entry)
    {revents : Option (List PollBits)} :
    Lts.Both Alike ((poll s revents).map fun s' => (([] : List (Event ι)), s'))
      ((poll (s.withPollfds ps) revents).map fun s' => ([], s')) := by
  cases revents with
  | none => exact .some ⟨rfl, .away he fun _ _ h => by cases h⟩
  | some rs =>
    simp only [poll, TCPServer.setRevents, show (s.withPollfds ps).server.pollfds = ps from rfl,
      ← asked_iff he, ← setRevents_congr he, ← entries_length he]
    split
    · exact .some ⟨rfl, .of rfl fun _ _ _ => rfl⟩
    · exact .none

/-- **No step** tells them apart. -/
theorem alike_step [DecidableEq ι] {t : State ι} (ha : Alike s t) (l : Label ι) :
    Lts.Both Alike (step setup s l) (step setup t l) := by
  obtain ⟨hrest, he, hd⟩ := ha
  generalize t.server.pollfds = ps at hrest he hd
  subst hrest
  cases l with
  | worker i act =>
    refine Lts.both_ite (fun _ => ?_) fun _ => .none
    change Lts.Both Alike (Option.map _ ((ThreadPool.impl ConnId setup.pool setup.allocator).step
      s.pool (i, act))) (Option.map _ ((ThreadPool.impl ConnId setup.pool setup.allocator).step
      s.pool (i, act)))
    cases (ThreadPool.impl ConnId setup.pool setup.allocator).step s.pool (i, act) with
    | none => exact .none
    | some r => exact .some ⟨rfl, .of he hd⟩
  | signal => exact .some ⟨rfl, .of he hd⟩
  | server choice =>
    simp only [step, serve, show (s.withPollfds ps).pc = s.pc from rfl]
    cases hpc : s.pc with
    | loopTest =>
      refine .some ⟨rfl, .away he fun i n => ?_⟩
      simp only
      split <;> exact fun h => by cases h
    | handleResponses =>
      cases choice with
      | clock now => exact .some (handleResponses_alike he hpc)
      | _ => exact .none
    | poll =>
      cases choice with
      | poll revents => exact poll_alike he
      | _ => exact .none
    | dispatch i n => exact dispatch_alike he (hd i n hpc)
    | left exit => exact .none

/-- No run tells them apart. -/
theorem alike_exec [DecidableEq ι] {t : State ι} (ha : Alike s t) (ls : List (Label ι)) :
    Lts.Both Alike ((lts setup).exec s ls) ((lts setup).exec t ls) :=
  Lts.exec_both (fun _ _ l h => alike_step h l) ha

section
variable [DecidableEq ι] {es : List (Event ι)} {h : List (Event ι)} {l : Label ι}

/-- An entry without bits is passed over. -/
theorem unreported_step (hpc : s.pc = .dispatch i n) (hi : i < n)
    (hp : s.server.pollfds[i]? = some p) (choice : Choice) :
    step setup (s.unreported i p) (.server choice) =
      some ([], { s.unreported i p with pc := .dispatch (i + 1) n }) := by
  have hget : (s.unreported i p).server.pollfds[i]? = some { p with revents := .none } :=
    List.getElem?_set_self (List.getElem?_eq_some_iff.1 hp).1
  simp only [step, serve, show (s.unreported i p).pc = .dispatch i n from hpc, dispatch, if_pos hi,
    hget, PollBits.none, Bool.false_eq_true, if_false]

theorem Unharmed.of_next (hpc : s.pc = .dispatch i n) (hi : i < n)
    (hp : s.server.pollfds[i]? = some p)
    (hs : step setup s l = some (es, { s with pc := .dispatch (i + 1) n }))
    (hes : es ⊆ [.readable (s.conn p.fd)]) : Unharmed setup s i p l := by
  refine ⟨es, _, _, hs, hes, rfl, rfl, unreported_step hpc hi hp, alike_exec (.of ?_ ?_)⟩
  · have hent : (s.server.pollfds.map Pollfd.entry)[i]? = some p.entry := by
      rw [List.getElem?_map, hp, Option.map_some]
    obtain ⟨hlt, hent⟩ := List.getElem?_eq_some_iff.1 hent
    rw [List.map_set]
    exact ((congrArg _ hent.symm).trans (List.set_getElem_self hlt)).symm
  · intro j m hj
    cases hj
    exact (List.drop_set_of_lt (Nat.lt_succ_self i)).symm

omit [DecidableEq ι] in
/-- `process_header` passes the failure on, `process_body` does not. -/
theorem handleClientData_again (env : ReadEnv) {x : ClientSession} (hrecv : env.recv = .again)
    (hcall : x.recvCall.isSome = true) :
    handleClientData env x =
      some { ret := if x.state = .headerPending then -1 else 1, session := x } := by
  have hfits : ∀ k, Recv.again.Fits k := fun _ => trivial
  unfold ClientSession.recvCall at hcall
  split at hcall <;> rename_i hst
  · simp only [handleClientData, hst, processHeader, hrecv, hfits, if_true]
  · split at hcall <;> rename_i hempty
    · cases hcall
    · simp only [handleClientData, hst, processBody, hempty, hrecv, hfits, if_true, if_false,
        show ¬ SessionState.bodyPending = .headerPending by decide]
  · cases hcall

omit [DecidableEq ι] in
theorem read_again {x : ClientSession} {fd : Fd} {memory : Bool} {now : Rat}
    (hx : s.server.sessions fd = some x) (hcall : x.recvCall.isSome = true) :
    read setup s i n fd .again memory now =
      if x.state = .headerPending then
        some ([.readable (s.conn fd), .closed (s.conn fd)],
          { (s.close fd i).2 with pc := .dispatch i (n - 1) })
      else some ([.readable (s.conn fd)], { s with pc := .dispatch (i + 1) n }) := by
  have hh := handleClientData_again (readEnv setup s fd .again memory now) rfl hcall
  simp only [read, session_eq hx, hh, Option.map_some, handled, setSession_eq_self hx,
    receivedEvents, Bool.false_eq_true, if_false, if_true]
  by_cases hst : x.state = .headerPending
  · simp only [if_pos hst, show (-1 : Int) ≤ 0 by decide, if_true]
    rfl
  · simp only [if_neg hst, show ¬ (1 : Int) ≤ 0 by decide, if_false]

theorem step_recv_again (setup : Setup ι) (memory : Bool) (now : Rat) {x : ClientSession}
    (hpc : s.pc = .dispatch i n) (hi : i < n) (hp : s.server.pollfds[i]? = some p)
    (hfd : p.fd ≠ s.server.sockfd) (hin : p.revents.pollin = true)
    (hx : s.server.sessions p.fd = some x) (hcall : x.recvCall.isSome = true) :
    step setup s (.server (.recv .again memory now)) =
      if x.state = .headerPending then
        some ([.readable (s.conn p.fd), .closed (s.conn p.fd)],
          { (s.close p.fd i).2 with pc := .dispatch i (n - 1) })
      else some ([.readable (s.conn p.fd)], { s with pc := .dispatch (i + 1) n }) := by
  simp only [step, serve, hpc, dispatch, if_pos hi, hp, hin, if_true, if_neg hfd]
  exact read_again hx hcall

/-- The connection is closed. -/
theorem not_unharmed (hs : step setup s l = some (es, { (s.close p.fd i).2 with
    pc := .dispatch i (n - 1) })) (hc : (s.conns p.fd).isSome = true) :
    ¬ Unharmed setup s i p l := by
  intro hun
  obtain ⟨es, s', t, hs', -, -, hconns, -⟩ := hun
  rw [hs] at hs'
  cases hs'
  have hclosed := congrFun hconns p.fd
  rw [← hclosed] at hc
  simp only [State.close, Function.update_self] at hc
  cases hc

/-- **Spurious readiness.** Where the failing call is not that of `process_header`, the step leaves
everything as if the entry had not been reported. -/
theorem spurious_iff (hr : (lts setup).Reach h s) (hpc : s.pc = .dispatch i n) (hi : i < n)
    (hp : s.server.pollfds[i]? = some p) (hfd : p.fd ≠ setup.sockfd) (ht : Transient s p l) :
    Unharmed setup s i p l ↔
      ¬ (p.revents.pollin = true ∧ (s.server.session p.fd).state = .headerPending) := by
  obtain ⟨htab, -⟩ := tables hr
  obtain ⟨x, c, hx, hc⟩ := htab.client hp hfd
  have hsock : p.fd ≠ s.server.sockfd := htab.sockfd ▸ hfd
  unfold Transient at ht
  rw [session_eq hx] at ht ⊢
  split at ht
  · rename_i memory now
    obtain ⟨hin, hcall⟩ := ht
    have hs := step_recv_again setup memory now hpc hi hp hsock hin hx hcall
    by_cases hst : x.state = .headerPending
    · rw [if_pos hst] at hs
      exact iff_of_false (not_unharmed hs (hc ▸ rfl)) fun hno => hno ⟨hin, hst⟩
    · rw [if_neg hst] at hs
      exact iff_of_true (.of_next hpc hi hp hs fun e he => he) fun hheader => hst hheader.2
  · obtain ⟨hin, hout⟩ := ht
    have hs : step setup s (.server (.send .again)) =
        some ([], { s with pc := .dispatch (i + 1) n }) := by
      simp only [step, serve, hpc, dispatch, if_pos hi, hp, hin, hout, Bool.false_eq_true, if_false,
        if_true, send, session_eq hx, setSession_eq_self hx, Send.Fits]
    refine iff_of_true (.of_next hpc hi hp hs (List.nil_subset _)) fun hheader => ?_
    rw [hin] at hheader
    cases hheader.1
  · exact ht.elim

end

/-! ## A client that is reported too early -/

/-- The round in which the entry of the client is reported, up to its dispatch. -/
def reportClient : List (Label (Fin 2)) :=
  ([.none, .clock 0, .poll (some [.none, .pollIn]), .none] : List Choice).map .server

/-- The client has a header, and is reported again before its payload comes. -/
theorem spurious_body : ∃ h s p, (lts onePod).Reach h s ∧ s.server.pollfds[1]? = some p ∧
    (s.server.session p.fd).state = .bodyPending ∧
      Unharmed onePod s 1 p (.server (.recv .again true 0)) := by
  have he : ((lts onePod).exec (State.init onePod) (header ++ reportClient)).map (fun r =>
      (r.2.pc, r.2.server.pollfds[1]?, (r.2.server.session 4).state,
        (r.2.server.session 4).recvCall.isSome)) =
      some (.dispatch 1 2, some ⟨4, .pollIn, .pollIn⟩, .bodyPending, true) := by
    decide +kernel
  obtain ⟨⟨h, s⟩, he, heq⟩ := Option.map_eq_some_iff.1 he
  obtain ⟨hpc, hrest⟩ := Prod.mk.inj heq
  obtain ⟨hp, hrest⟩ := Prod.mk.inj hrest
  obtain ⟨hst, hcall⟩ := Prod.mk.inj hrest
  have hr : (lts onePod).Reach h s := .of_exec rfl he
  refine ⟨h, s, _, hr, hp, hst, (spurious_iff hr hpc (by decide) hp (by decide) ?_).2 ?_⟩
  · exact ⟨rfl, hcall⟩
  · intro hheader
    rw [hst] at hheader
    cases hheader.2

/-- The client has connected, and is reported before its header comes. -/
theorem spurious_header : ∃ h s p, (lts onePod).Reach h s ∧ s.pc = .dispatch 1 2 ∧
    s.server.pollfds[1]? = some p ∧ p.fd ≠ onePod.sockfd ∧
      Transient s p (.server (.recv .again true 0)) ∧
        ¬ Unharmed onePod s 1 p (.server (.recv .again true 0)) := by
  have he : ((lts onePod).exec (State.init onePod)
      (round 0 [.pollIn] [.accept (some (4, .none))] ++ reportClient)).map (fun r =>
      (r.2.pc, r.2.server.pollfds[1]?, (r.2.server.session 4).state, r.2.server.sockfd,
        (r.2.server.sessions 4).isSome, (r.2.conns 4).isSome)) =
      some (.dispatch 1 2, some ⟨4, .pollIn, .pollIn⟩, .headerPending, 3, true, true) := by
    decide +kernel
  obtain ⟨⟨h, s⟩, he, heq⟩ := Option.map_eq_some_iff.1 he
  simp only [Prod.mk.injEq] at heq
  obtain ⟨hpc, hp, hst, hsock, hx, hc⟩ := heq
  obtain ⟨x, hx⟩ := Option.isSome_iff_exists.1 hx
  have hcall : x.recvCall.isSome = true := by
    rw [session_eq hx] at hst
    simp only [ClientSession.recvCall, hst, Option.isSome_some]
  rw [session_eq hx] at hst
  refine ⟨h, s, _, .of_exec rfl he, hpc, hp, by decide, ⟨rfl, ?_⟩, ?_⟩
  · rwa [session_eq hx]
  · have hs := step_recv_again onePod true 0 hpc (by decide) hp (by rw [hsock]; decide) rfl hx
      hcall
    rw [if_pos hst] at hs
    exact not_unharmed hs hc

end Lumen.Network
