import Lumen.Network.Proof.Outstanding

/-!
# The request streams

Every step keeps what the sessions and the shown events say of each other (`Streams`), so in every
run the payloads passed to `push` for a connection are those of the stream that has come on it,
however it was cut (`framing`), and no `recv` is asked to write outside a buffer (`recv_inside`).
-/

set_option autoImplicit false

namespace Lumen.Network

open Lumen.Lib Lumen.Core Lumen.Concurrency

variable {ι : Type*}

/-- Every open session is right. -/
def Sessions (h : List (Event ι)) (s : State ι) : Prop :=
  ∀ fd x c, s.server.sessions fd = some x → s.conns fd = some c →
    SessionOk x (received h c) (payloads h c) (completed h c)

/-- What a run shows of a connection. -/
def shown (h : List (Event ι)) (c : ConnId) : List UInt8 × List (List UInt8) × Nat :=
  (received h c, payloads h c, completed h c)

theorem sessions_iff {h : List (Event ι)} {s : State ι} :
    Sessions h s ↔ EachSession (fun v x => SessionOk x v.1 v.2.1 v.2.2) (shown h) s := .rfl

section
variable {es : List (Event ι)} {c c' : ConnId} {bytes : List UInt8} {ps : List (List UInt8)}
  {done : Nat}

theorem shown_silent (h : List (Event ι)) (hes : ∀ e ∈ es, e.Silent) (c : ConnId) :
    shown (h ++ es) c = shown h c := by
  obtain ⟨hr, hp, hd⟩ := append_silent h hes c
  rw [shown, hr, hp, hd, shown]

theorem shown_self (h : List (Event ι)) (hshow : Shows es c bytes ps done) :
    shown (h ++ es) c = (received h c ++ bytes, payloads h c ++ ps, completed h c + done) := by
  rw [shown, received_append, payloads_append, completed_append, hshow.received, hshow.payloads,
    hshow.completed, if_pos rfl, if_pos rfl, if_pos rfl]

theorem shown_other (h : List (Event ι)) (hshow : Shows es c bytes ps done) (hne : c' ≠ c) :
    shown (h ++ es) c' = shown h c' := by
  rw [shown, received_append, payloads_append, completed_append, hshow.received, hshow.payloads,
    hshow.completed, if_neg hne.symm, if_neg hne.symm, if_neg hne.symm, List.append_nil,
    List.append_nil, Nat.add_zero, shown]

end

/-- When bytes come on a connection, every response to it has been sent. -/
def Answered (h : List (Event ι)) (e : Event ι) : Prop :=
  ∀ c, e.bytesOn c ≠ [] → (payloads h c).length = completed h c

structure Streams (h : List (Event ι)) (s : State ι) : Prop where
  cut : ∀ c, Cut (received h c) (payloads h c)
  session : (∃ exit, s.pc = .left exit) ∨ Sessions h s
  fresh : ∀ c, s.nextConn ≤ c → received h c = [] ∧ payloads h c = [] ∧ completed h c = 0
  answered : Past Answered h

namespace Streams

variable {setup : Setup ι} {h es : List (Event ι)} {s s' : State ι} {fd : Fd} {c : ConnId}
  {bytes : List UInt8} {ps : List (List UInt8)} {done : Nat}

theorem init [DecidableEq ι] : Streams [] (State.init setup) where
  cut _ := ⟨[], .nil, partial_short (by decide)⟩
  session := .inr fun _ _ _ h => by cases h
  fresh _ _ := ⟨rfl, rfl, rfl⟩
  answered := .nil

theorem answered_silent (hes : ∀ e ∈ es, ∀ c, e.bytesOn c = []) :
    ∀ es1 e es2, es = es1 ++ e :: es2 → Answered (h ++ es1) e := by
  rintro es1 e es2 rfl c hne
  exact absurd (hes e (List.mem_append_right _ List.mem_cons_self) c) hne

/-- The bytes of a read event come after its first event. -/
theorem answered_readable (hans : bytes ≠ [] → (payloads h c).length = completed h c)
    (hes : ∀ e ∈ es, ∀ c, e.bytesOn c = []) :
    ∀ es1 e es2, .readable c :: (receivedEvents c bytes ++ es) = es1 ++ e :: es2 →
      Answered (h ++ es1) e := by
  intro es1 e es2 heq
  cases es1 with
  | nil =>
    rw [List.nil_append, List.cons.injEq] at heq
    obtain ⟨rfl, -⟩ := heq
    exact fun c' hne => absurd rfl hne
  | cons e1 es1 =>
    rw [List.cons_append, List.cons.injEq] at heq
    obtain ⟨rfl, heq⟩ := heq
    have hlast : e ∈ es → Answered (h ++ .readable c :: es1) e := fun he c' hne =>
      absurd (hes e he c') hne
    unfold receivedEvents at heq
    split at heq <;> rename_i hbytes
    · exact hlast (by rw [List.nil_append] at heq; simp [heq])
    · cases es1 with
      | nil =>
        rw [List.singleton_append, List.nil_append, List.cons.injEq] at heq
        obtain ⟨rfl, -⟩ := heq
        intro c' hne
        by_cases hc : c = c'
        · subst hc
          rw [payloads_append, completed_append]
          have hp : payloads ([.readable c] : List (Event ι)) c = [] := rfl
          have hd : completed ([.readable c] : List (Event ι)) c = 0 := rfl
          rw [hp, hd, List.append_nil, Nat.add_zero]
          exact hans hbytes
        · simp [Event.bytesOn, hc] at hne
      | cons e2 es1 =>
        rw [List.singleton_append, List.cons_append, List.cons.injEq] at heq
        exact hlast (by simp [heq.2])

/-- Nothing is shown of any connection. -/
theorem quiet (hst : Streams h s) (hes : ∀ e ∈ es, e.Silent) (hnext : s.nextConn ≤ s'.nextConn)
    (hsess : (∃ exit, s'.pc = .left exit) ∨ Sessions (h ++ es) s') : Streams (h ++ es) s' := by
  refine ⟨fun c => ?_, hsess, fun c hc => ?_, ?_⟩
  · obtain ⟨hr, hp, -⟩ := append_silent h hes c
    rw [hr, hp]
    exact hst.cut c
  · obtain ⟨hr, hp, hd⟩ := append_silent h hes c
    rw [hr, hp, hd]
    exact hst.fresh c (Nat.le_trans hnext hc)
  · exact hst.answered.append (answered_silent fun e he c => (hes e he c).1)

/-- The events of one connection. -/
theorem change (hst : Streams h s) (ht : Table setup s) (hc : s.conns fd = some c)
    (hshow : Shows es c bytes ps done) (hcut : Cut (received h c ++ bytes) (payloads h c ++ ps))
    (hans : ∀ es1 e es2, es = es1 ++ e :: es2 → Answered (h ++ es1) e)
    (hnext : s'.nextConn = s.nextConn)
    (hsess : (∃ exit, s'.pc = .left exit) ∨ Sessions (h ++ es) s') : Streams (h ++ es) s' := by
  refine ⟨fun c' => ?_, hsess, fun c' hc' => ?_, hst.answered.append hans⟩
  · rw [received_append, payloads_append, hshow.received, hshow.payloads]
    split
    · subst c'
      exact hcut
    · rw [List.append_nil, List.append_nil]
      exact hst.cut c'
  · have hne : c ≠ c' := by
      rintro rfl
      rw [hnext] at hc'
      exact absurd (ht.conn_lt fd c hc) (Nat.not_lt.2 hc')
    rw [received_append, payloads_append, completed_append, hshow.received, hshow.payloads,
      hshow.completed, if_neg hne, if_neg hne, if_neg hne, List.append_nil, List.append_nil]
    exact hst.fresh c' (hnext ▸ hc')

end Streams

section
variable {setup : Setup ι} {h es : List (Event ι)} {s s' : State ι} {fd : Fd} {c : ConnId}
  {bytes : List UInt8} {ps : List (List UInt8)} {done : Nat}

/-- No session changes, and nothing is shown. -/
theorem Sessions.quiet (hok : Sessions h s) (hes : ∀ e ∈ es, e.Silent)
    (hsess : s'.server.sessions = s.server.sessions) (hconns : s'.conns = s.conns) :
    Sessions (h ++ es) s' :=
  sessions_iff.2 ((sessions_iff.1 hok).keep (shown_silent h hes) hsess hconns)

/-- The session of the connection is replaced. -/
theorem Sessions.set {x : ClientSession} {pool : ThreadPool.State ι ConnId} (hok : Sessions h s)
    (ht : Table setup s) (hc : s.conns fd = some c) (hshow : Shows es c bytes ps done)
    (hb : Becomes s s' (Function.update s.server.sessions fd (some x)) s.conns pool)
    (hx : SessionOk x (received h c ++ bytes) (payloads h c ++ ps) (completed h c + done)) :
    Sessions (h ++ es) s' := by
  refine sessions_iff.2 ((sessions_iff.1 hok).set ht hc (fun _ => shown_other h hshow) hb ?_)
  rw [shown_self h hshow]
  exact hx

/-- The connection is closed. -/
theorem Sessions.drop {pool : ThreadPool.State ι ConnId} (hok : Sessions h s)
    (ht : Table setup s) (hc : s.conns fd = some c) (hshow : Shows es c bytes ps done)
    (hb : Becomes s s' (Function.update s.server.sessions fd none)
      (Function.update s.conns fd none) pool) : Sessions (h ++ es) s' :=
  sessions_iff.2 ((sessions_iff.1 hok).drop ht hc (fun _ => shown_other h hshow) hb)

variable [DecidableEq ι]

/-- A step of a server in its loop. -/
theorem Streams.effect (hst : Streams h s) (hok : Sessions h s) (hv : Served setup h s)
    (he : Effect setup s es s') : Streams (h ++ es) s' := by
  have ht := hv.table
  cases he with
  | idle hb =>
    have hes : ∀ e ∈ ([] : List (Event ι)), e.Silent := fun _ he => nomatch he
    exact hst.quiet hes (Nat.le_of_eq hb.nextConn.symm) (.inr (hok.quiet hes hb.sessions hb.conns))
  | worker hmay hstep hb =>
    exact hst.quiet (silent_pool _) (Nat.le_of_eq hb.nextConn.symm)
      (.inr (hok.quiet (silent_pool _) hb.sessions hb.conns))
  | popped hnone hb =>
    exact hst.quiet (silent_pool _) (Nat.le_of_eq hb.nextConn.symm)
      (.inr (hok.quiet (silent_pool _) hb.sessions hb.conns))
  | @installed _ job res _ x c trace hres hx hc hb =>
    have hes := silent_installed (popImmediate setup s.pool).1 c job res trace
    obtain ⟨-, -, hwait⟩ := hv.result hres hx
    refine hst.quiet hes (Nat.le_of_eq hb.nextConn.symm) (.inr (hok.set ht hc (.silent hes) hb ?_))
    simpa using (hok _ x c hx hc).install hwait res.response
  | @opened _ fd hfree hx hs hc hn hp =>
    have hes : ∀ e ∈ ([.opened s.nextConn fd] : List (Event ι)), e.Silent := fun e he => by
      obtain rfl := List.mem_singleton.1 he
      exact fun _ => ⟨rfl, rfl, rfl⟩
    refine hst.quiet hes (hn ▸ Nat.le_succ _) (.inr (sessions_iff.2 ?_))
    refine (sessions_iff.1 hok).opened (shown_silent h hes) hs hc ?_
    obtain ⟨h1, h2, h3⟩ := hst.fresh s.nextConn (Nat.le_refl _)
    rw [shown, h1, h2, h3]
    exact .new
  | @read _ fd x c recv memory now hd hx hc hw hh htask hret hthrown hb =>
    have hk := (hok fd x c hx hc).handleClientData hh
    have hshow := (Shows.receivedEvents (ι := ι) c hd.received).readable
    have hans := Streams.answered_readable hk.before
      (fun _ he => nomatch he : ∀ e ∈ ([] : List (Event ι)), ∀ c', e.bytesOn c' = [])
    rw [List.append_nil] at hans
    have hcut := hk.cut
    have hsession := hk.session
    rw [htask] at hcut hsession
    refine hst.change ht hc hshow hcut hans hb.nextConn ?_
    cases hthr : hd.thrown with
    | true => exact .inl ⟨_, hthrown hthr⟩
    | false => exact .inr (hok.set ht hc hshow hb (hsession hthr))
  | @readClosed _ fd x c recv memory now hd hx hc hw hh htask hret hb =>
    have hk := (hok fd x c hx hc).handleClientData hh
    have hshow := (Shows.receivedEvents (ι := ι) c hd.received).closed.readable
    have hans := Streams.answered_readable hk.before (fun e he c' => by
      obtain rfl := List.mem_singleton.1 he
      rfl : ∀ e ∈ ([.closed c] : List (Event ι)), ∀ c', e.bytesOn c' = [])
    have hcut := hk.cut
    rw [htask] at hcut
    exact hst.change ht hc hshow hcut hans hb.nextConn (.inr (hok.drop ht hc hshow hb))
  | @submitted _ fd x c recv memory now hd task hx hc hw hh htask hb =>
    obtain ⟨-, hthr, -⟩ := handleClientData_task hh htask
    have hk := (hok fd x c hx hc).handleClientData hh
    have hshow := Shows.submitted c hd.received
      (push setup s.pool { task := task, tag := c }).2.1 task.data
      (push setup s.pool { task := task, tag := c }).1
    have hcut := hk.cut
    have hsession := hk.session hthr
    rw [htask] at hcut hsession
    refine hst.change ht hc hshow hcut (Streams.answered_readable hk.before ?_) hb.nextConn
      (.inr (hok.set ht hc hshow hb hsession))
    intro e he c'
    rcases List.mem_append.1 he with he | he
    · exact (silent_pool _ e he c').1
    · obtain rfl := List.mem_singleton.1 he
      rfl
  | @sent _ fd x c k hx hc hw hk hlt hb =>
    have hshow := Shows.one (c := c) (e := (.sent c ((x.responseBuffer.drop x.bytesSent).take k) :
      Event ι)) fun _ => ⟨rfl, rfl, rfl⟩
    refine hst.change ht hc hshow (by simpa using hst.cut c) (Streams.answered_silent ?_)
      hb.nextConn (.inr (hok.set ht hc hshow hb ?_))
    · intro e he c'
      obtain rfl := List.mem_singleton.1 he
      rfl
    · simpa using ((hok fd x c hx hc).send hk (Nat.le_of_lt hlt)).2
  | @completed _ fd x c k hx hc hw hk heq hb =>
    have hshow := (Shows.one (c := c) (e := (.sent c ((x.responseBuffer.drop x.bytesSent).take k) :
      Event ι)) fun _ => ⟨rfl, rfl, rfl⟩).append (Shows.completes c)
    refine hst.change ht hc hshow (by simpa using hst.cut c) (Streams.answered_silent ?_)
      hb.nextConn (.inr (hok.set ht hc hshow hb ?_))
    · intro e he c'
      rcases List.mem_pair.1 he with rfl | rfl <;> rfl
    · simpa using (hok fd x c hx hc).complete hk heq
  | @sendClosed _ fd x c hx hc hw hb =>
    have hshow := Shows.one (c := c) (e := (.closed c : Event ι)) fun _ => ⟨rfl, rfl, rfl⟩
    refine hst.change ht hc hshow (by simpa using hst.cut c) (Streams.answered_silent ?_)
      hb.nextConn (.inr (hok.drop ht hc hshow hb))
    intro e he c'
    obtain rfl := List.mem_singleton.1 he
    rfl

/-- A step of the system. -/
theorem Streams.step (hst : Streams h s) (hv : Served setup h s) {l : Label ι}
    (hs : Network.step setup s l = some (es, s')) : Streams (h ++ es) s' := by
  rcases hst.session with ⟨exit, hleft⟩ | hok
  · obtain ⟨hpc, hnext, es, rfl⟩ := step_left hleft hs
    exact hst.quiet (silent_pool es) (Nat.le_of_eq hnext.symm) (.inl ⟨exit, hpc⟩)
  · exact hst.effect hok hv (hv.step hs).1

theorem streams (hr : (lts setup).Reach h s) : Streams h s := by
  refine (hr.inv (I := fun h s => Served setup h s ∧ Streams h s) (fun s h0 => ?_)
    fun h s l es s' ⟨hv, hst⟩ hs => ⟨(hv.step hs).2, hst.step hv hs⟩).2
  have hv := served (Lts.Reach.init h0)
  obtain rfl : s = State.init setup := h0
  exact ⟨hv, .init⟩

/-! ## Framing -/

/-- What `parse` finds in the bytes that have come on a connection is what has been passed to
`push`, also when more bytes follow. No byte of a frame is read before the response to the last one
has been sent. A header that announces an empty payload closes the connection at its next event. -/
structure Framed (setup : Setup ι) (h : List (Event ι)) (s : State ι) : Prop where
  payloads_prefix : ∀ c stream, received h c <+: stream →
    payloads h c <+: (frameFormat.parse stream).1
  payloads_eq : ∀ c, payloads h c = (frameFormat.parse (received h c)).1
  nonempty : ∀ c, ∀ payload ∈ payloads h c, payload ≠ []
  answered : Past Answered h
  zero : ∀ c l es s', Network.step setup s l = some (es, s') → .readable c ∈ es →
    frameFormat.Empty (frameFormat.parse (received h c)).2 → es = [.readable c, .closed c]

omit [DecidableEq ι] in
@[simp] theorem readable_notMem (c c' : ConnId) (bs : List UInt8) :
    .readable c ∉ (receivedEvents c' bs : List (Event ι)) := by
  unfold receivedEvents
  split <;> simp

omit [DecidableEq ι] in
/-- The stream goes on with an empty frame: the next read event returns `-1`. -/
theorem handleClientData_zero {env : ReadEnv} {x : ClientSession} {bs : List UInt8}
    {ps : List (List UInt8)} {hd : Handled} (hx : SessionOk x bs ps done)
    (hh : handleClientData env x = some hd)
    (hempty : frameFormat.Empty (frameFormat.parse bs).2) :
    hd = { ret := -1, session := x } := by
  rw [hx.reads.parse_eq hx.partial_kept] at hempty
  obtain ⟨hlen, hzero⟩ := hempty
  have hbody : x.state = .bodyPending := by
    unfold ClientSession.kept at hlen
    split at hlen <;> rename_i hst
    · have := (hx.header hst).1
      rw [List.length_take] at hlen
      change 4 ≤ _ at hlen
      omega
    · exact hst
    · exact absurd hlen (Nat.not_succ_le_zero 3)
  obtain ⟨hsize, hexp, -⟩ := hx.body hbody
  have hkept : x.kept.take 4 = x.headerBuffer := by
    rw [ClientSession.kept, hbody]
    exact List.take_left' hx.headerBuffer
  change ntohl (x.kept.take 4) = 0 at hzero
  rw [hkept] at hzero
  have hnone : x.bodyBuffer.length = 0 := by omega
  simp only [handleClientData, hbody, processBody, hnone, if_true] at hh
  exact (Option.some.inj hh).symm

/-- **Framing**, in every run. -/
theorem framing (hr : (lts setup).Reach h s) : Framed setup h s := by
  have hst := streams hr
  refine ⟨fun c stream hpre => ?_, fun c => (hst.cut c).parse_eq, fun c => ?_, hst.answered,
    fun c l es s' hs hmem hempty => ?_⟩
  · obtain ⟨rest, hreads, -⟩ := hst.cut c
    exact hreads.payloads_prefix hpre
  · rw [(hst.cut c).parse_eq]
    exact Framing.Format.parse_ne_nil
  · rcases hst.session with ⟨exit, hleft⟩ | hok
    · obtain ⟨-, -, es', rfl⟩ := step_left hleft hs
      simp at hmem
    · cases ((served hr).step hs).1 with
      | @read _ fd x c' recv memory now hd hx hc hw hh htask hret hthrown hb =>
        obtain rfl : c = c' := by
          simpa using hmem
        rw [handleClientData_zero (hok fd x c hx hc) hh hempty] at hret
        exact absurd (hret (show (-1 : Int) ≤ 0 by decide)) Bool.false_ne_true
      | @readClosed _ fd x c' recv memory now hd hx hc hw hh htask hret hb =>
        obtain rfl : c = c' := by
          simpa using hmem
        rw [handleClientData_zero (hok fd x c hx hc) hh hempty]
        rfl
      | @submitted _ fd x c' recv memory now hd task hx hc hw hh htask hb =>
        obtain rfl : c = c' := by
          simpa using hmem
        rw [handleClientData_zero (hok fd x c hx hc) hh hempty] at htask
        cases htask
      | @installed _ job res _ x c' trace hres hx hc hb => cases trace <;> simp at hmem
      | idle hb => simp at hmem
      | worker hmay hstep hb => simp at hmem
      | popped hnone hb => simp at hmem
      | opened hfree hx hs hc hn hp => simp at hmem
      | sent hx hc hw hk hlt hb => simp at hmem
      | completed hx hc hw hk hlt hb => simp at hmem
      | sendClosed hx hc hw hb => simp at hmem

/-- **Every `recv`** of a server in its loop writes inside the buffer it is given, and is asked for
at least one byte. -/
theorem recv_inside (hr : (lts setup).Reach h s) (hpc : ∀ exit, s.pc ≠ .left exit)
    {x : ClientSession} (hx : s.server.sessions fd = some x) :
    (x.state = .headerPending → x.headerBytesReceived < 4) ∧
      (x.state = .bodyPending → x.bodyBuffer.length = x.expectedSize ∧
        ((x.expectedSize = 0 ∧ x.recvCall = none) ∨ x.bytesReceived < x.expectedSize)) ∧
      ∀ call ∈ x.recvCall, call.offset + call.length ≤ call.buffer.length ∧ 0 < call.length := by
  have hok := (streams hr).session.resolve_left fun ⟨exit, hleft⟩ => hpc exit hleft
  obtain ⟨c, hc⟩ : ∃ c, s.conns fd = some c := by
    rw [← Option.isSome_iff_exists, (tables hr).1.conns, ← (tables hr).1.sessions, hx]
    rfl
  have hxok := hok fd x c hx hc
  refine ⟨fun hst => (hxok.header hst).1, fun hst => ?_, hxok.recvCall⟩
  obtain ⟨hlen, -, hlt⟩ := hxok.body hst
  refine ⟨hlen, hlt.symm.imp (fun hz => ⟨hz.1, ?_⟩) id⟩
  rw [ClientSession.recvCall, hst]
  simp only [hlen, hz.1, if_true]

end

/-! ## One request -/

/-- A server with one worker, for one pixel. -/
def onePod : Setup (Fin 2) where
  pool := ThreadPool.onePod
  allocator _ := .standardOrt
  server := ThreadPool.onePod.caller
  server_notMem := by decide
  sockfd := 3
  pre := some 0
  post := some 1

/-- The setup with another engine in each pod. -/
def Setup.withEngine {ι : Type*} (setup : Setup ι) (engine : InferenceEngine) : Setup ι :=
  { setup with pool := { setup.pool with engine := fun _ => engine } }

/-- A round of the server that installs so many results, and in which `poll` reports `revents`. -/
def round {ι : Type*} (results : Nat) (revents : List PollBits) (choices : List Choice) :
    List (Label ι) :=
  (.none :: (List.replicate (results + 1) (.clock 0) ++
    (.poll (some revents) :: (choices ++ [.none])))).map .server

def readRound (bytes : List UInt8) : List (Label (Fin 2)) :=
  round 0 [.none, .pollIn] [.none, .recv (.data bytes) true 0]

/-- A client connects and sends a header in two pieces. -/
def header : List (Label (Fin 2)) :=
  round 0 [.pollIn] [.accept (some (4, .none))] ++ (readRound [0, 0, 0] ++ readRound [3])

/-- The worker runs one request. -/
def work : List (Label (Fin 2)) :=
  ([.call .workerLoop, .run .none, .run .take, .run .none, .run .none, .run (.clock 0),
    .run (.engine {}), .run .none, .run .none] : List (Shared.Act _ _)).map
    (.worker ThreadPool.onePod.worker)

/-- The request, its run and the response. -/
def request : List (Label (Fin 2)) :=
  header ++ (readRound [9, 8, 7] ++ (work ++ round 1 [.none, .pollOut] [.none, .send (.sent 3)]))

theorem framing_request : ∃ h s, (lts onePod).Reach h s ∧ received h 0 = [0, 0, 0, 3, 9, 8, 7] ∧
    payloads h 0 = [[9, 8, 7]] ∧ completed h 0 = 1 ∧ Framed onePod h s := by
  have he : ((lts onePod).exec (State.init onePod) request).map (fun p =>
      (received p.1 0, payloads p.1 0, completed p.1 0)) =
        some ([0, 0, 0, 3, 9, 8, 7], [[9, 8, 7]], 1) := by
    decide +kernel
  obtain ⟨⟨h, s⟩, he, heq⟩ := Option.map_eq_some_iff.1 he
  have hr : (lts onePod).Reach h s := .of_exec rfl he
  obtain ⟨h1, h2⟩ := Prod.mk.inj heq
  exact ⟨h, s, hr, h1, (Prod.mk.inj h2).1, (Prod.mk.inj h2).2, framing hr⟩

/-- The header has come, and the body is still to come. -/
theorem recv_inside_header : ∃ h s x, (lts onePod).Reach h s ∧ s.server.sessions 4 = some x ∧
    x.state = .bodyPending ∧ x.bodyBuffer.length = x.expectedSize ∧
      ((x.expectedSize = 0 ∧ x.recvCall = none) ∨ x.bytesReceived < x.expectedSize) := by
  have he : ((lts onePod).exec (State.init onePod) header).map (fun p =>
      ((p.2.server.sessions 4).map (·.state), p.2.pc)) = some (some .bodyPending, .loopTest) := by
    decide +kernel
  obtain ⟨⟨h, s⟩, he, heq⟩ := Option.map_eq_some_iff.1 he
  have hr : (lts onePod).Reach h s := .of_exec rfl he
  obtain ⟨hx, hpc⟩ := Prod.mk.inj heq
  obtain ⟨x, hx, hst⟩ := Option.map_eq_some_iff.1 hx
  exact ⟨h, s, x, hr, hx, hst,
    (recv_inside hr (fun _ hl => Pc.noConfusion (hpc.symm.trans hl)) hx).2.1 hst⟩

end Lumen.Network
