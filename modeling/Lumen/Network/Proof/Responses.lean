import Lumen.Network.Proof.Stream

/-!
# Whose response it is

Results find their sessions by the descriptor alone. In every run at most one job is outstanding for
a descriptor, and then the connection that sent the request is open under it and waits, so that no
one has read from it or closed it. Hence what is installed on a connection was made from the last
frame that came on it (`responses`).
-/

set_option autoImplicit false

namespace Lumen.Network

open Lumen.Lib Lumen.Core Lumen.Concurrency

variable {ι : Type*} [DecidableEq ι] {setup : Setup ι} {h es : List (Event ι)} {s s' : State ι}

omit [DecidableEq ι] in
/-- The response that is installed on a connection was made from the last frame that came on it;
nothing has come after this frame. -/
def Installs (setup : Setup ι) (h : List (Event ι)) (e : Event ι) : Prop :=
  ∀ c job res, e = .installed c job res → job.tag = c ∧ res.clientFd = job.task.clientFd ∧
    ThreadPool.Made setup.pool job res ∧ frameFormat.parse (received h c) = (payloads h c, []) ∧
    (payloads h c).getLast? = some job.task.data

/-- Who waits for the outstanding jobs, and what is installed. -/
structure Responses (setup : Setup ι) (h : List (Event ι)) (s : State ι) : Prop where
  one : ((outstanding setup s).map fun job => job.task.clientFd).Nodup
  owner : ∀ job ∈ outstanding setup s, ∃ x, s.server.sessions job.task.clientFd = some x ∧
    x.state = .inferencePending ∧ s.conns job.task.clientFd = some job.tag ∧
    (frameFormat.parse (received h job.tag)).1.getLast? = some job.task.data
  results : ∀ x ∈ s.pool.mem.results, x.2.clientFd = x.1.task.clientFd
  installed : Past (Installs setup) h

theorem Effect.installs (he : Effect setup s es s') (hv : Served setup h s) (hok : Sessions h s) :
    ∀ es1 e es2, es = es1 ++ e :: es2 → Installs setup (h ++ es1) e := by
  rintro es1 e es2 heq c' job' res' rfl
  have hmem : .installed c' job' res' ∈ es := by simp [heq]
  cases he with
  | @installed _ job res results x c trace hres hx hc hb =>
    obtain ⟨rfl, rfl, rfl⟩ : c' = c ∧ job' = job ∧ res' = res := by
      cases trace <;> simpa using hmem
    have hsilent : ∀ e ∈ es1, e.Silent := fun e he =>
      silent_installed _ _ _ _ _ e (heq ▸ List.mem_append_left _ he)
    obtain ⟨hmade, hjob, hst⟩ := hv.result hres hx
    have hfd : res'.clientFd = job'.task.clientFd := hmade.carries.1
    have htag : job'.tag = c' := by
      have := hv.owned.conn job' hjob
      rw [← hfd, hc] at this
      exact (Option.some.inj this).symm
    have hsession := hok _ x c' hx hc
    have hkept : x.kept = [] := by rw [ClientSession.kept, hst]
    obtain ⟨hr, hp, -⟩ := append_silent h hsilent c'
    rw [hr, hp]
    have hlast := hv.owned.last job' hjob
    rw [htag] at hlast
    refine ⟨htag, hfd, hmade, ?_, hlast⟩
    rw [hsession.reads.parse_eq hsession.partial_kept, hkept]
  | @read _ fd x c recv memory now hd hx hc hw hh htask hret hthrown hb =>
    simp [receivedEvents] at hmem
  | @readClosed _ fd x c recv memory now hd hx hc hw hh htask hret hb =>
    simp [receivedEvents] at hmem
  | @submitted _ fd x c recv memory now hd task hx hc hw hh htask hb =>
    simp [receivedEvents] at hmem
  | idle hb => simp at hmem
  | worker hmay hstep hb => simp at hmem
  | popped hnone hb => simp at hmem
  | opened hfree hx hs hc hn hp => simp at hmem
  | sent hx hc hw hk hlt hb => simp at hmem
  | completed hx hc hw hk hlt hb => simp at hmem
  | sendClosed hx hc hw hb => simp at hmem

/-- **Responses** go to the request that caused them, in every run. -/
theorem responses (hr : (lts setup).Reach h s) : Responses setup h s := by
  have hv := served hr
  have hst := streams hr
  refine ⟨hv.owned.nodup, fun job hjob => ?_, fun x hx => (hv.linked.made x hx).carries.1, ?_⟩
  · obtain ⟨x, hx, hwait⟩ := hv.owned.waiting job hjob
    refine ⟨x, hx, hwait, hv.owned.conn job hjob, ?_⟩
    rw [← (hst.cut job.tag).parse_eq]
    exact hv.owned.last job hjob
  · refine hr.inv_of_reach (I := fun h _ => Past (Installs setup) h) (fun _ _ => .nil)
      fun h s l es s' hr hi _ hs => hi.append ?_
    rcases (streams hr).session with ⟨exit, hleft⟩ | hok
    · obtain ⟨-, -, es, rfl⟩ := step_left hleft hs
      rintro es1 e es2 heq c job res rfl
      have hmem : .installed c job res ∈ (es.map .pool : List (Event ι)) := by simp [heq]
      simp at hmem
    · exact ((served hr).step hs).1.installs (served hr) hok

/-- One request on one connection. -/
theorem responses_request : ∃ h s, (lts onePod).Reach h s ∧ completed h 0 = 1 ∧
    Responses onePod h s := by
  have he : ((lts onePod).exec (State.init onePod) request).map (fun p => completed p.1 0) =
      some 1 := by decide +kernel
  obtain ⟨⟨h, s⟩, he, hdone⟩ := Option.map_eq_some_iff.1 he
  have hr : (lts onePod).Reach h s := .of_exec rfl he
  exact ⟨h, s, hr, hdone, responses hr⟩

end Lumen.Network
