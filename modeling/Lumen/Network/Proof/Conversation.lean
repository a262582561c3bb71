import Lumen.Models.Proof.Answer
import Lumen.Network.Client
import Lumen.Network.Proof.Responses
import Lumen.Network.Proof.Transmitted

/-!
# The server as seen from a connection

What the server is for: it sends back, for each frame that has come on a connection, what the model
answers to the payload (`Classifier.answer`), in the order of the frames. `conversation` says this
of the bytes on the wire, for every connection of every run in which the pods run the model: they do
not depend on the other connections, on the worker that has run a request, on its allocator and what
its memory held, or on how the two streams are cut.
-/

set_option autoImplicit false

namespace Lumen.Network

open Lumen.Lib Lumen.Lib.Shared Lumen.Core Lumen.Concurrency Lumen.Models

variable {ι : Type*}

/-! ## Histories -/

/-- The responses that have been installed on a connection. -/
def replies (h : List (Event ι)) (c : ConnId) : List (List UInt8) :=
  h.filterMap fun
    | .installed c' _ result => if c' = c then some result.response else none
    | _ => none

/-- The bytes that have been sent on a connection. -/
def sentOn (h : List (Event ι)) (c : ConnId) : List UInt8 :=
  h.flatMap fun
    | .sent c' bytes => if c' = c then bytes else []
    | _ => []

/-- A payload is passed on when everything before it has been answered; the response that is then
installed is what an engine of the pool has made of it, with the processors of the server. -/
def Turn (setup : Setup ι) (h : List (Event ι)) : Event ι → Prop
  | .pushed c _ _ => (payloads h c).length = completed h c
  | .installed c job result => ThreadPool.Made setup.pool job result ∧
      job.task.pre = setup.pre ∧ job.task.post = setup.post ∧
      (payloads h c).getLast? = some job.task.data ∧ (payloads h c).length = completed h c + 1
  | _ => True

/-- What has passed on a connection: the payloads `ps`, the responses `rs` that have been installed,
the bytes `out` that have been sent, and how many responses have been completed; `t` is the response
that is being sent. -/
structure Talk (answer : List UInt8 → Option (List UInt8)) (ps rs : List (List UInt8))
    (out : List UInt8) (done : Nat) (t : Option Transmission) : Prop where
  answers : (ps.take rs.length).map answer = rs.map some
  ahead : ps.length ≤ done + 1
  behind : rs.length ≤ ps.length
  quiet : t = none → rs.length = done ∧ out = rs.flatten
  sending : ∀ x, t = some x → ∃ rs', rs = rs' ++ [x.response] ∧ rs'.length = done ∧
    out = rs'.flatten ++ x.sent ∧ x.sent <+: x.response

namespace Talk

variable {answer : List UInt8 → Option (List UInt8)} {ps rs : List (List UInt8)}
  {out payload response bytes : List UInt8} {done : Nat} {t : Option Transmission}

theorem same {ps' rs' : List (List UInt8)} {out' : List UInt8} {done' : Nat}
    {t' : Option Transmission} (h : Talk answer ps rs out done t) (hps : ps' = ps)
    (hrs : rs' = rs) (hout : out' = out) (hdone : done' = done) (ht : t' = t) :
    Talk answer ps' rs' out' done' t' := by
  subst hps hrs hout hdone ht
  exact h

theorem nil : Talk answer [] [] [] 0 none where
  answers := rfl
  ahead := Nat.zero_le _
  behind := Nat.le_refl _
  quiet _ := ⟨rfl, rfl⟩
  sending x hx := by cases hx

/-- A request is passed on. -/
theorem push (h : Talk answer ps rs out done t) (hlen : ps.length = done)
    (payload : List UInt8) :
    Talk answer (ps ++ [payload]) rs out done t where
  answers := by rw [List.take_append_of_le_length h.behind, h.answers]
  ahead := by rw [List.length_append, hlen, List.length_singleton]
  behind := by
    rw [List.length_append]
    exact Nat.le_add_right_of_le h.behind
  quiet := h.quiet
  sending := h.sending

/-- The response to the last request is installed. -/
theorem install (h : Talk answer ps rs out done none) (hlen : ps.length = done + 1)
    (hlast : ps.getLast? = some payload) (hans : answer payload = some response) :
    Talk answer ps (rs ++ [response]) out done (some { response := response, sent := [] }) := by
  obtain ⟨hrs, hout⟩ := h.quiet rfl
  have hps : ps = ps.take rs.length ++ [payload] := by
    obtain ⟨init, hinit⟩ := List.getLast?_eq_some_iff.1 hlast
    have hil : init.length = rs.length := by
      rw [hinit, List.length_append, List.length_singleton] at hlen
      omega
    rw [hinit, ← hil, List.take_left]
  refine ⟨?_, hlen.le, ?_, fun h => (by cases h), fun x hx => ?_⟩
  · have hall : ps.take (rs ++ [response]).length = ps := by
      refine List.take_of_length_le ?_
      rw [List.length_append, List.length_singleton, hlen, hrs]
    rw [hall, hps, List.map_append, h.answers, List.map_append, List.map_singleton, hans]
    rfl
  · rw [List.length_append, List.length_singleton, hlen, hrs]
  · cases hx
    exact ⟨rs, rfl, hrs, by rw [hout, List.append_nil], List.nil_prefix⟩

/-- A part of the response is sent. -/
theorem send {x : Transmission} (h : Talk answer ps rs out done (some x))
    (hpre : x.sent ++ bytes <+: x.response) :
    Talk answer ps rs (out ++ bytes) done (some { x with sent := x.sent ++ bytes }) := by
  refine ⟨h.answers, h.ahead, h.behind, fun h => (by cases h), fun y hy => ?_⟩
  cases hy
  obtain ⟨rs', hrs, hlen, hout, -⟩ := h.sending x rfl
  exact ⟨rs', hrs, hlen, by rw [hout, List.append_assoc], hpre⟩

/-- All of it has been sent. -/
theorem complete {x : Transmission} (h : Talk answer ps rs out done (some x))
    (heq : x.sent = x.response) : Talk answer ps rs out (done + 1) none := by
  refine ⟨h.answers, Nat.le_succ_of_le h.ahead, h.behind, fun _ => ?_, fun y hy => by cases hy⟩
  obtain ⟨rs', rfl, hlen, rfl, -⟩ := h.sending x rfl
  constructor
  · rw [List.length_append, hlen, List.length_singleton]
  · rw [List.flatten_append, heq]
    simp

end Talk

/-! ## What has passed on a connection -/

section
variable {setup : Setup ι} {m : Classifier} {h : List (Event ι)}

/-- What an engine of the pool has made is the answer, where all pods run the model. -/
theorem answer_of_made (hruns : ∀ i, m.RunBy (setup.pool.engine i)) {job : Job ConnId}
    {result : InferenceResult} (hm : ThreadPool.Made setup.pool job result) :
    m.answer job.task.post job.task.data = some result.response := by
  obtain ⟨i, env, trace, _, _, -, hrun⟩ := hm
  have hans := Classifier.answer_of_run (hruns i) hrun
  exact hans

/-- In a history whose events are in their turn the answers follow the requests. -/
theorem talk (hruns : ∀ i, m.RunBy (setup.pool.engine i)) (hexact : Past Exact h)
    (hturn : Past (Turn setup) h) (c : ConnId) :
    Talk (m.answer setup.post) (payloads h c) (replies h c) (sentOn h c)
      (completed h c) (transmission h c) := by
  induction h using List.reverseRecOn with
  | nil => exact .nil
  | append_singleton h e ih =>
    obtain ⟨hexact, he⟩ := hexact.of_append_one
    obtain ⟨hturn, ht⟩ := hturn.of_append_one
    have ih := ih hexact hturn
    have happ : payloads (h ++ [e]) c = payloads h c ++ payloads [e] c ∧
        replies (h ++ [e]) c = replies h c ++ replies [e] c ∧
        sentOn (h ++ [e]) c = sentOn h c ++ sentOn [e] c ∧
        completed (h ++ [e]) c = completed h c + completed [e] c :=
      ⟨payloads_append h [e] c, List.filterMap_append, List.flatMap_append,
        completed_append h [e] c⟩
    obtain ⟨hps, hrs, hout, hdone⟩ := happ
    rw [hps, hrs, hout, hdone, transmission_one]
    -- an event of another connection, or of another kind
    have hskip : payloads [e] c = [] → replies [e] c = [] → sentOn [e] c = [] →
        completed [e] c = 0 → e.transmit c (transmission h c) = transmission h c →
        Talk (m.answer setup.post) (payloads h c ++ payloads [e] c)
          (replies h c ++ replies [e] c) (sentOn h c ++ sentOn [e] c)
          (completed h c + completed [e] c) (e.transmit c (transmission h c)) := by
      intro h1 h2 h3 h4 h5
      rw [h1, h2, h3, h4, h5]
      exact ih.same (List.append_nil _) (List.append_nil _) (List.append_nil _) rfl rfl
    cases e with
    | pushed c' payload accepted =>
      by_cases hc : c' = c
      · subst hc
        have hp : payloads [(.pushed c' payload accepted : Event ι)] c' = [payload] := by
          simp [payloads, Event.payloadOn]
        rw [hp]
        have hnew := ih.push ht payload
        exact hnew.same rfl (List.append_nil _) (List.append_nil _) rfl rfl
      · exact hskip (by simp [payloads, Event.payloadOn, hc]) rfl rfl rfl rfl
    | installed c' job result =>
      by_cases hc : c' = c
      · subst hc
        obtain ⟨hmade, -, hpost, hlast, hlen⟩ := ht
        have hans := answer_of_made hruns hmade
        rw [hpost] at hans
        rw [show transmission h c' = none from he] at ih
        have hr : replies [(.installed c' job result : Event ι)] c' = [result.response] := by
          simp [replies]
        rw [hr]
        have hnew := ih.install hlen hlast hans
        exact hnew.same (List.append_nil _) rfl (List.append_nil _) rfl
          (by simp [Event.transmit])
      · exact hskip rfl (by simp [replies, hc]) rfl rfl (by simp [Event.transmit, hc])
    | sent c' bytes =>
      by_cases hc : c' = c
      · subst hc
        obtain ⟨-, x, hx, hpre⟩ := he
        rw [hx] at ih ⊢
        have ho : sentOn [(.sent c' bytes : Event ι)] c' = bytes := by simp [sentOn]
        rw [ho]
        have hnew := ih.send hpre
        exact hnew.same (List.append_nil _) (List.append_nil _) rfl rfl
          (by simp [Event.transmit])
      · exact hskip rfl rfl (by simp [sentOn, hc]) rfl (by simp [Event.transmit, hc])
    | completed c' =>
      by_cases hc : c' = c
      · subst hc
        obtain ⟨x, hx, heq⟩ := he
        rw [hx] at ih ⊢
        have hd : completed [(.completed c' : Event ι)] c' = 1 := by
          simp [completed, Event.completes]
        rw [hd]
        have hnew := ih.complete heq
        exact hnew.same (List.append_nil _) (List.append_nil _) (List.append_nil _) rfl
          (by simp [Event.transmit])
      · exact hskip rfl rfl rfl (by simp [completed, Event.completes, hc])
          (by simp [Event.transmit, hc])
    | _ => exact hskip rfl rfl rfl rfl rfl

end

/-! ## The turns -/

/-- A read event that makes a task: the session was not waiting for a response, and the task has the
processors of the server. -/
theorem handleClientData_turn {env : ReadEnv} {x : ClientSession} {hd : Handled}
    {task : InferenceTask} (hh : handleClientData env x = some hd) (ht : hd.task = some task) :
    x.unanswered = 0 ∧ task.pre = env.pre ∧ task.post = env.post := by
  unfold handleClientData at hh
  unfold ClientSession.unanswered
  split at hh <;> rename_i hst <;> rw [hst]
  · simp only [processHeader] at hh
    (repeat' split at hh) <;> cases hh <;> cases ht
  · simp only [processBody, finalizeRequest] at hh
    (repeat' split at hh) <;> cases hh <;> cases ht
    exact ⟨rfl, rfl, rfl⟩
  · cases hh
    cases ht
    exact ⟨rfl, rfl, rfl⟩
  · cases hh
    cases ht
  · cases hh
    cases ht

section
variable [DecidableEq ι] {setup : Setup ι} {h es : List (Event ι)} {s s' : State ι}

/-- The outstanding jobs have the processors of the server. -/
def Prepared (setup : Setup ι) (s : State ι) : Prop :=
  ∀ job ∈ outstanding setup s, job.task.pre = setup.pre ∧ job.task.post = setup.post

theorem Prepared.init : Prepared setup (State.init setup) := fun job hjob => by
  have hheld : heldBy ThreadPool.Pc.hand setup.pool.workers (State.init setup).pool.pc = [] :=
    List.flatMap_eq_nil_iff.2 fun _ _ => rfl
  rw [outstanding, hheld] at hjob
  cases hjob

theorem Prepared.effect (hp : Prepared setup s) (hv : Served setup h s)
    (he : Effect setup s es s') : Prepared setup s' := by
  have hl' := hv.linked.step he
  have hsame : s'.pool = s.pool → Prepared setup s' := fun hpool job hjob => by
    rw [outstanding_congr hpool] at hjob
    exact hp job hjob
  cases he with
  | worker hmay hstep hb =>
    intro job hjob
    have hperm := outstanding_worker hv.linked hmay hstep hb.pool
    exact hp job (hperm.mem_iff.1 hjob)
  | popped _ hb =>
    intro job hjob
    have hperm := outstanding_pop hv.linked hl' (poolEvents_map _)
    exact hp job (hperm.mem_iff.2 (List.mem_append_right _ hjob))
  | installed _ _ _ hb =>
    intro job hjob
    have hperm := outstanding_pop hv.linked hl' (poolEvents_installed _ _ _ _ _)
    exact hp job (hperm.mem_iff.2 (List.mem_append_right _ hjob))
  | submitted hx hc hw hh htask hb =>
    intro job hjob
    have hmem := (outstanding_push hv.linked hl' (poolEvents_submitted _ _ _ _ _)).mem_iff.1 hjob
    rcases List.mem_append.1 hmem with hold | hnew
    · exact hp job hold
    · split at hnew
      · rw [List.mem_singleton.1 hnew]
        exact (handleClientData_turn hh htask).2
      · cases hnew
  | idle hb => exact hsame hb.pool
  | opened _ _ _ _ _ hpool => exact hsame hpool
  | read _ _ _ _ _ _ _ hb => exact hsame hb.pool
  | readClosed _ _ _ _ _ _ hb => exact hsame hb.pool
  | sent _ _ _ _ _ hb => exact hsame hb.pool
  | completed _ _ _ _ _ hb => exact hsame hb.pool
  | sendClosed _ _ _ hb => exact hsame hb.pool

/-- The events of a step of a server in its loop are in their turn. -/
theorem Effect.turn (he : Effect setup s es s') (hp : Prepared setup s) (hv : Served setup h s)
    (hok : Sessions h s) : ∀ es1 e es2, es = es1 ++ e :: es2 → Turn setup (h ++ es1) e := by
  rintro es1 e es2 heq
  have hmem : e ∈ es := heq ▸ List.mem_append_right _ List.mem_cons_self
  cases e with
  | pushed c' payload accepted =>
    cases he with
    | @submitted _ fd x c recv memory now hd task hx hc hw hh htask hb =>
      have hshow := Shows.submitted c hd.received
        (push setup s.pool { task := task, tag := c }).2.1 task.data
        (push setup s.pool { task := task, tag := c }).1
      obtain rfl : c' = c := by
        simp [receivedEvents] at hmem
        exact hmem.1
      -- there is no other payload among the events, and no response is completed
      have hpays := hshow.payloads c'
      have hdone := hshow.completed c'
      rw [heq, payloads_append, if_pos rfl, ← List.singleton_append, payloads_append,
        show payloads [(.pushed c' payload accepted : Event ι)] c' = [payload] by
          simp [payloads, Event.payloadOn]] at hpays
      rw [heq, completed_append, if_pos rfl] at hdone
      have hnil : payloads es1 c' = [] := by
        have hlen := congrArg List.length hpays
        simp only [List.length_append, List.length_singleton] at hlen
        exact List.length_eq_zero_iff.1 (by omega)
      have hans := (hok fd x c' hx hc).answered
      rw [(handleClientData_turn hh htask).1] at hans
      rw [Turn, payloads_append, completed_append, hnil, List.append_nil, hans]
      omega
    | _ => simp [receivedEvents] at hmem
  | installed c' job' res' =>
    cases he with
    | @installed _ job res results x c trace hres hx hc hb =>
      obtain ⟨rfl, rfl, rfl⟩ : c' = c ∧ job' = job ∧ res' = res := by
        cases trace <;> simpa using hmem
      have hsilent : ∀ e ∈ es1, e.Silent := fun e he =>
        silent_installed _ _ _ _ _ e (heq ▸ List.mem_append_left _ he)
      obtain ⟨hmade, hjob, hst⟩ := hv.result hres hx
      obtain ⟨hpre, hpost⟩ := hp job' hjob
      have htag : job'.tag = c' := by
        have := hv.owned.conn job' hjob
        rw [← hmade.carries.1, hc] at this
        exact (Option.some.inj this).symm
      have hlast := hv.owned.last job' hjob
      rw [htag] at hlast
      have hans := (hok _ x c' hx hc).answered
      rw [ClientSession.unanswered, hst] at hans
      obtain ⟨-, hpays, hdone⟩ := append_silent h hsilent c'
      rw [Turn, hpays, hdone]
      exact ⟨hmade, hpre, hpost, hlast, hans⟩
    | _ => simp [receivedEvents] at hmem
  | _ => trivial

/-- Every event of a run is in its turn. -/
theorem turns (hr : (lts setup).Reach h s) : Prepared setup s ∧ Past (Turn setup) h := by
  refine hr.inv_of_reach (I := fun h s => Prepared setup s ∧ Past (Turn setup) h) (fun s h0 => ?_)
    fun h s l es s' hr hi _ hs => ?_
  · obtain rfl : s = State.init setup := h0
    exact ⟨.init, .nil⟩
  · obtain ⟨hp, hturn⟩ := hi
    have hv := served hr
    have he := (hv.step hs).1
    refine ⟨hp.effect hv he, hturn.append ?_⟩
    rcases (streams hr).session with ⟨exit, hleft⟩ | hok
    · obtain ⟨-, -, es, rfl⟩ := step_left hleft hs
      intro es1 e es2 heq
      have hmem : e ∈ (es.map .pool : List (Event ι)) :=
        heq ▸ List.mem_append_right _ List.mem_cons_self
      obtain ⟨e, -, rfl⟩ := List.mem_map.1 hmem
      trivial
    · exact he.turn hp hv hok

end

/-! ## Conversations -/

/-- `frames` has come on a connection and `out` has been sent: `rs` are the answers to the first
frames, in their order, the first `done` of them have been sent, and what else has been sent begins
the next one. No more than one frame is without a completed answer. -/
structure Conversation (answer : List UInt8 → Option (List UInt8)) (frames rs : List (List UInt8))
    (out : List UInt8) (done : Nat) : Prop where
  answers : (frames.take rs.length).map answer = rs.map some
  sent_prefix : out <+: rs.flatten
  prefix_sent : (rs.take done).flatten <+: out
  done_le : done ≤ rs.length
  length_le : rs.length ≤ frames.length
  ahead : frames.length ≤ done + 1

theorem Talk.converse {answer : List UInt8 → Option (List UInt8)} {ps rs : List (List UInt8)}
    {out : List UInt8} {done : Nat} {t : Option Transmission} (h : Talk answer ps rs out done t) :
    Conversation answer ps rs out done := by
  cases t with
  | none =>
    obtain ⟨hdone, hout⟩ := h.quiet rfl
    refine ⟨h.answers, ?_, ?_, hdone.ge, h.behind, h.ahead⟩
    · exact hout ▸ List.prefix_refl _
    · have htaken : (rs.take done).flatten = out := by rw [hout, ← hdone, List.take_length]
      exact htaken ▸ List.prefix_refl _
  | some x =>
    obtain ⟨rs', hrs, hdone, hout, hpre⟩ := h.sending x rfl
    refine ⟨h.answers, ?_, ?_, ?_, h.behind, h.ahead⟩
    · rw [hout, hrs, List.flatten_append, List.flatten_singleton]
      exact (List.prefix_append_right_inj _).2 hpre
    · rw [hrs, ← hdone, List.take_left, hout]
      exact List.prefix_append _ _
    · rw [hrs, List.length_append, hdone]
      exact Nat.le_add_right _ _

/-- As many answers have been completed as there are requests: all of them have been sent. -/
theorem Conversation.whole {answer : List UInt8 → Option (List UInt8)}
    {frames rs requests : List (List UInt8)} {out : List UInt8} {done : Nat}
    (h : Conversation answer frames rs out done) (hpre : frames <+: requests)
    (hall : done = requests.length) :
    requests.map answer = rs.map some ∧ out = rs.flatten := by
  have hframes : frames.length = done :=
    Nat.le_antisymm (hall ▸ hpre.length_le) (Nat.le_trans h.done_le h.length_le)
  rw [← hpre.eq_of_length (hframes.trans hall)]
  have hlen : rs.length = done := Nat.le_antisymm (hframes ▸ h.length_le) h.done_le
  constructor
  · have hans := h.answers
    rwa [hlen, ← hframes, List.take_length] at hans
  · have hout := h.prefix_sent
    rw [← hlen, List.take_length] at hout
    exact h.sent_prefix.eq_of_length_le hout.length_le

section
variable [DecidableEq ι] {setup : Setup ι} {m : Classifier} {h : List (Event ι)}
  {s : State ι}

/-- The conversation on a connection, in every run. -/
theorem conversation_payloads (himg : ImageNet setup) (hruns : ∀ i, m.RunBy (setup.pool.engine i))
    (hr : (lts setup).Reach h s) (c : ConnId) : Conversation (m.answer setup.post)
      (payloads h c) (replies h c) (sentOn h c) (completed h c) :=
  (talk hruns (sending himg hr).exact (turns hr).2 c).converse

/-- **Each connection has its conversation**: what is sent on it are the answers to the frames that
have come on it, in their order. -/
theorem conversation (himg : ImageNet setup) (hruns : ∀ i, m.RunBy (setup.pool.engine i))
    (hr : (lts setup).Reach h s) (c : ConnId) : Conversation (m.answer setup.post)
      (frameFormat.parse (received h c)).1 (replies h c) (sentOn h c) (completed h c) := by
  rw [← ((streams hr).cut c).parse_eq]
  exact conversation_payloads himg hruns hr c

/-- If what has come is a part of a client's requests, the payloads are the first requests. -/
theorem payloads_prefix_requests (hr : (lts setup).Reach h s) {c : ConnId}
    {requests : List (List UInt8)} {stream : List UInt8}
    (hsend : Client.sendRequests requests = some stream) (hne : ∀ request ∈ requests, request ≠ [])
    (hcome : received h c <+: stream) : payloads h c <+: requests := by
  obtain ⟨rest, hreads, -⟩ := (streams hr).cut c
  have := hreads.payloads_prefix hcome
  rwa [Client.parse_sendRequests hsend hne] at this

/-- **A client has its answers**: what has come on its connection is a part of the requests it has
sent. Then the frames are the first requests, and what it receives are their answers, in their
order; once as many have been completed as it has sent, it has received them all. -/
theorem round_trip (himg : ImageNet setup) (hruns : ∀ i, m.RunBy (setup.pool.engine i))
    (hr : (lts setup).Reach h s) {c : ConnId} {requests : List (List UInt8)}
    {stream : List UInt8} (hsend : Client.sendRequests requests = some stream)
    (hne : ∀ request ∈ requests, request ≠ []) (hcome : received h c <+: stream) :
    payloads h c <+: requests ∧ Conversation (m.answer setup.post)
      (payloads h c) (replies h c) (sentOn h c) (completed h c) ∧
      (completed h c = requests.length →
        requests.map (m.answer setup.post) = (replies h c).map some ∧
          sentOn h c = (replies h c).flatten) := by
  have hconv := conversation_payloads himg hruns hr c
  have hpre := payloads_prefix_requests hr hsend hne hcome
  exact ⟨hpre, hconv, hconv.whole hpre⟩

end

/-! ## Two requests on one connection -/

/-- The model of `labelPod`: one pixel, which it leaves as it is. -/
def labels : Classifier where
  inputShape := [1, 3, 1, 1]
  outputShape := [1, 3]
  norm _ pixel := pixel.toUInt32
  model := id
  handleResults := labelEngine.handleResults
  covers width height hw hh := by
    cases hw
    cases hh
    decide

theorem labelPod_runs (i : Fin 2) : labels.RunBy (labelPod.pool.engine i) where
  inputShape := rfl
  outputShape := rfl
  transform _ _ _ _ _ := rfl
  sessionRun _ _ := .alloc fun room => by
    cases room with
    | false => exact .throws
    | true => exact .output
  handleResults := rfl

/-- The answer to the first request, and a part of the answer to the second. -/
theorem conversation_twoRequests : ∃ h s, (lts labelPod).Reach h s ∧ completed h 0 = 1 ∧
    sentOn h 0 = bytes "catca" ∧ Conversation (labels.answer labelPod.post)
      (frameFormat.parse (received h 0)).1 (replies h 0) (sentOn h 0) (completed h 0) := by
  have he : ((lts labelPod).exec (State.init labelPod) twoRequests).map (fun p =>
      (completed p.1 0, sentOn p.1 0)) = some (1, bytes "catca") := by
    decide +kernel
  obtain ⟨⟨h, s⟩, he, heq⟩ := Option.map_eq_some_iff.1 he
  have hr : (lts labelPod).Reach h s := .of_exec rfl he
  obtain ⟨hdone, hsent⟩ := Prod.mk.inj heq
  exact ⟨h, s, hr, hdone, hsent, conversation labelPod_imageNet labelPod_runs hr 0⟩

/-- The client sends two pixels, and has the answer to the first. -/
theorem round_trip_twoRequests : ∃ h s stream, (lts labelPod).Reach h s ∧
    Client.sendRequests [[9, 8, 7], [9, 8, 7]] = some stream ∧ received h 0 <+: stream ∧
    completed h 0 = 1 ∧ payloads h 0 <+: [[9, 8, 7], [9, 8, 7]] := by
  have he : ((lts labelPod).exec (State.init labelPod) twoRequests).map (fun p =>
      (completed p.1 0, received p.1 0)) =
        some (1, [0, 0, 0, 3, 9, 8, 7, 0, 0, 0, 3, 9, 8, 7]) := by
    decide +kernel
  obtain ⟨⟨h, s⟩, he, heq⟩ := Option.map_eq_some_iff.1 he
  have hr : (lts labelPod).Reach h s := .of_exec rfl he
  obtain ⟨hdone, hrec⟩ := Prod.mk.inj heq
  have hsend : Client.sendRequests [[9, 8, 7], [9, 8, 7]] =
      some [0, 0, 0, 3, 9, 8, 7, 0, 0, 0, 3, 9, 8, 7] := by decide
  replace hrec : received h 0 = [0, 0, 0, 3, 9, 8, 7, 0, 0, 0, 3, 9, 8, 7] := hrec
  have hcome : received h 0 <+: [0, 0, 0, 3, 9, 8, 7, 0, 0, 0, 3, 9, 8, 7] :=
    hrec ▸ List.prefix_refl _
  have hall := round_trip labelPod_imageNet labelPod_runs hr hsend (by decide) hcome
  exact ⟨h, s, _, hr, hsend, hcome, hdone, hall.1⟩

end Lumen.Network
