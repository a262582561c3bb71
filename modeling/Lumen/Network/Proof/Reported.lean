import Lumen.Network.Proof.Rounds

/-!
# What a round dispatches

A round begins when `poll` has returned and ends when the loop over the entries does. An accepted
client comes to the end of the entries, after those this `poll` has looked at; a later close may
move it into the part that is still to be dispatched, with whatever bits its `revents` happens to
hold. Where that does not happen, or the bits are clear, the round dispatches each entry at most
once, accepts only on the listener, and receives and sends only on an entry of which this `poll` has
reported that event (`round_reported`).
-/

set_option autoImplicit false

namespace Lumen.Network

open Lumen.Lib Lumen.Core Lumen.Concurrency

variable {ι : Type*}

/-- The entry that the step dispatches. -/
def dispatched (s : State ι) : Label ι → List Pollfd
  | .server _ =>
    match s.pc with
    | .dispatch i n => if i < n then s.server.pollfds[i]?.toList else []
    | _ => []
  | _ => []

/-- A call of the server on a socket. -/
inductive SocketCall
  | accept
  | recv
  | send
  deriving DecidableEq

/-- The call that the choice answers. -/
def Choice.answers : Choice → Option SocketCall
  | .accept _ => some .accept
  | .recv _ _ _ => some .recv
  | .send _ => some .send
  | .none | .clock _ | .poll _ => Option.none

/-- The call that the server makes in a step, unless it goes on without an answer. -/
def State.call (setup : Setup ι) (s : State ι) (choice : Choice) : Option SocketCall :=
  if (serve setup s .none).isSome then none else choice.answers

/-- The call is the one that the event of the entry is for. -/
def SocketCall.Told (sockfd : Fd) (pfd : Pollfd) : SocketCall → Prop
  | .accept => pfd.revents.pollin = true ∧ pfd.fd = sockfd
  | .recv => pfd.revents.pollin = true ∧ pfd.fd ≠ sockfd
  | .send => pfd.revents.pollout = true

/-- The dispatch of an entry, with the call that it makes. -/
structure Dispatch where
  pfd : Pollfd
  call : Option SocketCall
  deriving DecidableEq

/-- What the step dispatches. -/
def dispatches (setup : Setup ι) (s : State ι) : Label ι → List Dispatch
  | .server choice => (dispatched s (.server choice)).map fun pfd => ⟨pfd, s.call setup choice⟩
  | _ => []

/-- The step closes a connection. -/
def closes (es : List (Event ι)) : Bool :=
  es.any fun
    | .closed _ => true
    | _ => false

def dispatching (s : State ι) : Bool :=
  match s.pc with
  | .dispatch _ _ => true
  | _ => false

section
variable [DecidableEq ι]

/-- The round that begins in `s0`; it shows what is dispatched. -/
def roundLts (setup : Setup ι) (s0 : State ι) : Lts (State ι) (Label ι) Dispatch where
  init s := s = s0
  step s l :=
    if dispatching s then (step setup s l).map fun p => (dispatches setup s l, p.2) else none

/-- If the step closes an entry that is not the last one to be dispatched, the entry that takes its
place was reported by the `poll` of the round, or has no bits. -/
def Undisplaced (setup : Setup ι) (s0 s : State ι) (l : Label ι) : Prop :=
  match s.pc with
  | .dispatch i n => (step setup s l).any (fun p => closes p.1) = true → i + 1 < n →
      ∀ q ∈ s.server.pollfds.getLast?, q ∈ s0.server.pollfds ∨ q.revents = .none
  | _ => True

instance (setup : Setup ι) (s0 s : State ι) (l : Label ι) :
    Decidable (Undisplaced setup s0 s l) := by
  unfold Undisplaced
  split <;> infer_instance

end

theorem closes_iff {es : List (Event ι)} : closes es = true ↔ ∃ c, .closed c ∈ es := by
  unfold closes
  rw [List.any_eq_true]
  constructor
  · rintro ⟨e, he, hc⟩
    cases e with
    | closed c => exact ⟨c, he⟩
    | _ => cases hc
  · rintro ⟨c, hc⟩
    exact ⟨_, hc, rfl⟩

/-- No entry is dispatched twice; the entries with bits are those that `poll` has written; and a
call is made only on such an entry, for the event that it reports. -/
structure Reported (s0 : State ι) (visited : List Dispatch) : Prop where
  once : (visited.map (·.pfd.fd)).Nodup
  reported : ∀ d ∈ visited, d.pfd.revents ≠ .none → d.pfd ∈ s0.server.pollfds
  called : ∀ d ∈ visited, ∀ call ∈ d.call,
    d.pfd ∈ s0.server.pollfds ∧ call.Told s0.server.sockfd d.pfd

structure RoundInv (s0 : State ι) (visited : List Dispatch) (s : State ι) : Prop where
  reported : Reported s0 visited
  sockfd : s.server.sockfd = s0.server.sockfd
  start : ∀ n, s.pc = .dispatch 0 n → visited = []
  todo : ∀ i n, s.pc = .dispatch i n → ∀ j q, i ≤ j → s.server.pollfds[j]? = some q →
    q.fd ∉ visited.map (·.pfd.fd) ∧ (j < n → q.revents ≠ .none → q ∈ s0.server.pollfds)

theorem SocketCall.Told.bits {sockfd : Fd} {pfd : Pollfd} {call : SocketCall}
    (h : call.Told sockfd pfd) : pfd.revents ≠ .none := by
  intro hnone
  cases call with
  | accept =>
    have := h.1
    rw [hnone] at this
    cases this
  | recv =>
    have := h.1
    rw [hnone] at this
    cases this
  | send =>
    have h : pfd.revents.pollout = true := h
    rw [hnone] at h
    cases h

/-- The server makes the call that the bits of the entry are for. -/
theorem call_told {setup : Setup ι} {s s' : State ι} {i n : Nat} {p : Pollfd} {choice : Choice}
    {es : List (Event ι)} (hpc : s.pc = .dispatch i n) (hi : i < n)
    (hp : s.server.pollfds[i]? = some p) (hs : serve setup s choice = some (es, s')) :
    ∀ call ∈ s.call setup choice, call.Told s.server.sockfd p := by
  intro call hcall
  simp only [State.call, serve, hpc, dispatch, if_pos hi, hp] at hcall hs
  split at hs <;> rename_i hin
  · rw [if_pos hin] at hcall
    split at hs <;> rename_i hfd
    · cases choice with
      | accept fd =>
        rw [if_pos hfd] at hcall
        cases hcall
        exact ⟨hin, hfd⟩
      | _ => cases hs
    · cases choice with
      | recv recv memory now =>
        rw [if_neg hfd] at hcall
        cases hcall
        exact ⟨hin, hfd⟩
      | _ => cases hs
  · rw [if_neg hin] at hcall
    split at hs <;> rename_i hout
    · cases choice with
      | send r =>
        rw [if_pos hout] at hcall
        cases hcall
        exact hout
      | _ => cases hs
    · -- without bits the server goes on without an answer
      rw [if_neg hout] at hcall
      cases hcall

namespace RoundInv

variable {setup : Setup ι} {s0 s s' : State ι} {visited : List Dispatch} {i n : Nat} {p : Pollfd}
  {call : Option SocketCall} {es : List (Event ι)}

/-- The entries stay, and so does the loop. -/
theorem keep (hi : RoundInv s0 visited s) (hpc : s'.pc = s.pc) (hserver : s'.server = s.server) :
    RoundInv s0 visited s' := by
  obtain ⟨h1, h2, h3, h4⟩ := hi
  refine ⟨h1, ?_, ?_, ?_⟩
  · rw [hserver]
    exact h2
  · rw [hpc]
    exact h3
  · rw [hpc, hserver]
    exact h4

/-- The round is over. -/
theorem ended (hi : RoundInv s0 visited s) (hserver : s'.server = s.server)
    (hpc : ∀ i n, s'.pc ≠ .dispatch i n) : RoundInv s0 visited s' :=
  ⟨hi.reported, hserver ▸ hi.sockfd, fun n h => absurd h (hpc 0 n),
    fun i n h => absurd h (hpc i n)⟩

/-- The entry that is dispatched has not been dispatched. -/
theorem visit (hi : RoundInv s0 visited s) (hpc : s.pc = .dispatch i n) (hlt : i < n)
    (hp : s.server.pollfds[i]? = some p) (hcall : ∀ c ∈ call, c.Told s.server.sockfd p) :
    Reported s0 (visited ++ [⟨p, call⟩]) := by
  obtain ⟨hnot, hrep⟩ := hi.todo i n hpc i p (Nat.le_refl i) hp
  refine ⟨?_, ?_, ?_⟩
  · rw [List.map_append, List.nodup_append]
    refine ⟨hi.reported.once, List.nodup_singleton _, ?_⟩
    intro a ha b hb hab
    rw [hab, List.mem_singleton.1 hb] at ha
    exact hnot ha
  · intro d hd hbits
    rcases List.mem_append.1 hd with hd | hd
    · exact hi.reported.reported d hd hbits
    · obtain rfl := List.mem_singleton.1 hd
      exact hrep hlt hbits
  · intro d hd c hc
    rcases List.mem_append.1 hd with hd | hd
    · exact hi.reported.called d hd c hc
    · obtain rfl := List.mem_singleton.1 hd
      have htold := hcall c hc
      exact ⟨hrep hlt htold.bits, hi.sockfd ▸ htold⟩

/-- An entry further back is of another descriptor. -/
theorem notMem (hi : RoundInv s0 visited s) (ht : Table setup s) (hpc : s.pc = .dispatch i n)
    (hp : s.server.pollfds[i]? = some p) {q : Pollfd} (hq : q ∈ s.server.pollfds.drop (i + 1)) :
    q.fd ∉ (visited ++ [(⟨p, call⟩ : Dispatch)]).map (·.pfd.fd) := by
  obtain ⟨j, hj⟩ := List.mem_iff_getElem?.1 hq
  rw [List.getElem?_drop] at hj
  rw [List.map_append, List.mem_append]
  rintro (hmem | hmem)
  · exact (hi.todo i n hpc _ q (by omega) hj).1 hmem
  · exact ht.fd_ne hp hq (List.mem_singleton.1 hmem)

theorem step (hi : RoundInv s0 visited s) (ht : Table setup s) (hp : Polled s)
    (hpc : s.pc = .dispatch i n) (hlt : i < n) (hentry : s.server.pollfds[i]? = some p)
    (hvis : Visits setup s i n p es s')
    (hdis : ∀ c, .closed c ∈ es → i + 1 < n → ∀ q ∈ s.server.pollfds.getLast?,
      q ∈ s0.server.pollfds ∨ q.revents = .none)
    (hcall : ∀ c ∈ call, c.Told s.server.sockfd p) (hsock : s'.server.sockfd = s.server.sockfd) :
    RoundInv s0 (visited ++ [⟨p, call⟩]) s' := by
  have hn := (hp.current i n hpc).2
  have hvisit := hi.visit hpc hlt hentry hcall
  have hsock := hsock.trans hi.sockfd
  have hdrop : ∀ {l : List Pollfd} {j k : Nat} {q : Pollfd}, l[j]? = some q → k ≤ j →
      q ∈ l.drop k := by
    intro l j k q hq hj
    refine List.mem_iff_getElem?.2 ⟨j - k, ?_⟩
    rw [List.getElem?_drop, Nat.add_sub_cancel' hj]
    exact hq
  cases hvis with
  | next hpc' hpoll _ =>
    refine ⟨hvisit, hsock, ?_, ?_⟩
    · intro m h
      rw [hpc'] at h
      cases h
    · intro i' m h j q hj hq
      rw [hpc'] at h
      cases h
      rw [hpoll] at hq
      exact ⟨hi.notMem ht hpc hentry (hdrop hq hj),
        (hi.todo i n hpc j q (by omega) hq).2⟩
  | accepted q0 hfd hpc' hpoll hnew _ =>
    -- the listener is the first entry, so nothing has been dispatched
    have hzero : i = 0 := by
      cases i with
      | zero => rfl
      | succ i =>
        rw [← List.getElem?_tail] at hentry
        exact absurd hfd (ht.tail_fd_ne (List.mem_of_getElem? hentry))
    subst hzero
    have hnil := hi.start n hpc
    refine ⟨hvisit, hsock, ?_, ?_⟩
    · intro m h
      rw [hpc'] at h
      cases h
    · intro i' m h j q hj hq
      rw [hpc'] at h
      cases h
      rw [hpoll] at hq
      by_cases hold : j < s.server.pollfds.length
      · rw [List.getElem?_append_left hold] at hq
        exact ⟨hi.notMem ht hpc hentry (hdrop hq hj), (hi.todo 0 n hpc j q (by omega) hq).2⟩
      · rw [List.getElem?_append_right (by omega)] at hq
        obtain rfl := List.mem_singleton.1 (List.mem_of_getElem? hq)
        refine ⟨?_, fun hjn => absurd hjn (by omega)⟩
        rw [hnil, List.nil_append, List.map_singleton, List.mem_singleton]
        intro he
        exact hnew (he ▸ Table.mem_fds hentry)
  | closed c front hfd hc hpc' hpoll hsess hconns hes hfront =>
    have hpos := ht.pos hentry hfd
    refine ⟨hvisit, hsock, ?_, ?_⟩
    · intro m h
      rw [hpc'] at h
      cases h
      exact absurd hpos (Nat.lt_irrefl 0)
    · intro i' m h j q hj hq
      rw [hpc'] at h
      cases h
      rw [hpoll] at hq
      refine ⟨hi.notMem ht hpc hentry (swapRemove_drop hentry q (hdrop hq hj)), ?_⟩
      intro hjn hbits
      rcases swapRemove_getElem? hentry hq with ⟨rfl, hlast⟩ | ⟨hji, hold⟩
      · have hclosed : .closed c ∈ es := by
          rw [hes]
          exact List.mem_append_right _ List.mem_cons_self
        exact (hdis c hclosed (by omega) q hlast).resolve_right hbits
      · exact (hi.todo i n hpc j q hj hold).2 (by omega) hbits
  | left exit hpc' _ =>
    refine ⟨hvisit, hsock, fun m h => ?_, fun i' m h => ?_⟩ <;>
    · rw [hpc'] at h
      cases h

end RoundInv

section
variable [DecidableEq ι] {setup : Setup ι} {s0 s : State ι} {h : List (Event ι)}
  {visited : List Dispatch}

theorem RoundInv.dispatches {l : Label ι} {es : List (Event ι)} {s' : State ι}
    (hi : RoundInv s0 visited s) (hs : Network.step setup s l = some (es, s')) :
    Reported s0 (visited ++ Network.dispatches setup s l) := by
  have hsame : Reported s0 (visited ++ []) := by
    rw [List.append_nil]
    exact hi.reported
  cases l with
  | worker i act => exact hsame
  | signal => exact hsame
  | server choice =>
    simp only [Network.dispatches, dispatched]
    split
    · rename_i i n hpc
      split
      · rename_i hlt
        cases hp : s.server.pollfds[i]? with
        | none => exact hsame
        | some p => exact hi.visit hpc hlt hp (call_told hpc hlt hp hs)
      · exact hsame
    · exact hsame

/-- A step of the round. -/
theorem RoundInv.after {l : Label ι} {es : List (Event ι)} {s' : State ι}
    (hi : RoundInv s0 visited s) (hr : (lts setup).Reach h s) (hround : dispatching s = true)
    (hdis : Undisplaced setup s0 s l) (hs : Network.step setup s l = some (es, s')) :
    RoundInv s0 (visited ++ Network.dispatches setup s l) s' := by
  obtain ⟨ht, hp⟩ := tables hr
  have hsock : s'.server.sockfd = s.server.sockfd :=
    (tables (hr.step hs)).1.sockfd.trans ht.sockfd.symm
  cases l with
  | worker i act =>
    simp only [Network.step] at hs
    split at hs
    · obtain ⟨⟨es', pool⟩, -, he⟩ := Option.map_eq_some_iff.1 hs
      cases he
      simp only [Network.dispatches, List.append_nil]
      exact hi.keep rfl rfl
    · cases hs
  | signal =>
    cases hs
    simp only [Network.dispatches, List.append_nil]
    exact hi.keep rfl rfl
  | server choice =>
    unfold dispatching at hround
    split at hround
    · rename_i i n hpc
      by_cases hlt : i < n
      · obtain ⟨p, hentry, hvis⟩ := dispatch_visits ht hp hpc hlt hs
        simp only [Network.dispatches, dispatched, hpc, if_pos hlt, hentry, Option.toList_some,
          List.map_singleton]
        refine hi.step ht hp hpc hlt hentry hvis ?_ (call_told hpc hlt hentry hs) hsock
        intro c hc hin
        simp only [Undisplaced, hpc, hs, Option.any_some] at hdis
        exact hdis (closes_iff.2 ⟨c, hc⟩) hin
      · -- the round is over
        simp only [Network.step, serve, hpc, dispatch, if_neg hlt] at hs
        cases hs
        simp only [Network.dispatches, dispatched, hpc, if_neg hlt, List.map_nil, List.append_nil]
        refine hi.ended rfl ?_
        intro i n h
        cases h
    · cases hround

theorem round_inv (hr : (lts setup).Reach h s0)
    (hpc : s0.pc = .dispatch 0 s0.server.pollfds.length)
    (hround : (roundLts setup s0).ReachIf (fun _ s l => Undisplaced setup s0 s l) visited s) :
    (∃ h, (lts setup).Reach h s) ∧ RoundInv s0 visited s := by
  refine hround.inv (I := fun visited s => (∃ h, (lts setup).Reach h s) ∧ RoundInv s0 visited s)
    ?_ ?_
  · intro s hs
    obtain rfl : s = s0 := hs
    refine ⟨⟨h, hr⟩, ⟨List.nodup_nil, ?_, ?_⟩, rfl, fun n _ => rfl, ?_⟩
    · intro d hd
      cases hd
    · intro d hd
      cases hd
    · intro i n _ j q _ hq
      exact ⟨List.not_mem_nil, fun _ _ => List.mem_of_getElem? hq⟩
  · intro visited s l new s' hinv hdis hs
    obtain ⟨⟨h, hr⟩, hi⟩ := hinv
    simp only [roundLts] at hs
    split at hs <;> rename_i hd
    · obtain ⟨⟨es, s1⟩, hstep, heq⟩ := Option.map_eq_some_iff.1 hs
      cases heq
      exact ⟨⟨_, hr.step hstep⟩, hi.after hr hd hdis hstep⟩
    · cases hs

/-- After such a close the server dispatches the displaced entry next. -/
theorem not_reported (hr : (lts setup).Reach h s) {l : Label ι} (hdis : ¬ Undisplaced setup s0 s l)
    {s1 s2 : State ι} {new new' : List Dispatch} {choice : Choice}
    (h1 : (roundLts setup s0).step s l = some (new, s1))
    (h2 : (roundLts setup s0).step s1 (.server choice) = some (new', s2)) :
    ¬ Reported s0 (visited ++ (new ++ new')) := by
  obtain ⟨ht, hp⟩ := tables hr
  unfold Undisplaced at hdis
  split at hdis
  · rename_i i n hpc
    simp only [roundLts, dispatching, hpc, if_true] at h1
    obtain ⟨⟨es, s1'⟩, hstep, heq⟩ := Option.map_eq_some_iff.1 h1
    cases heq
    simp only [hstep, Option.any_some, not_forall, not_or] at hdis
    obtain ⟨hclose, hin, q, hlast, hq, hbits⟩ := hdis
    obtain ⟨c, hc⟩ := closes_iff.1 hclose
    obtain ⟨i', n', p, hpc', -, hentry, -, -, hpc1, hpoll, -⟩ := step_closed ht hp hstep hc
    rw [hpc] at hpc'
    cases hpc'
    have hlen := (swapRemove_perm hentry).length_eq
    have hn := (hp.current i n hpc).2
    rw [List.length_cons] at hlen
    have hnext : s1'.server.pollfds[i]? = some q := by
      rw [hpoll]
      obtain ⟨b, hb⟩ : ∃ b, (swapRemove s.server.pollfds i)[i]? = some b :=
        ⟨_, List.getElem?_eq_getElem (by omega)⟩
      rcases swapRemove_getElem? hentry hb with ⟨-, hback⟩ | ⟨hne, -⟩
      · rw [hb]
        exact hback.symm.trans hlast
      · exact absurd rfl hne
    simp only [roundLts, dispatching, hpc1, if_true] at h2
    obtain ⟨⟨es', s2'⟩, -, heq⟩ := Option.map_eq_some_iff.1 h2
    cases heq
    intro hrep
    refine hq (hrep.reported ⟨q, s1'.call setup choice⟩ ?_ hbits)
    simp only [dispatches, dispatched, hpc1, if_pos (show i < n - 1 by omega), hnext,
      Option.toList_some, List.map_singleton, List.mem_append, List.mem_singleton, or_true]
  · exact absurd trivial hdis

/-- **A round** that begins when `poll` has returned, and in which no entry of unknown bits takes
the place of a closed one, dispatches no entry twice and calls a socket only for an event that this
`poll` has reported of its entry. It stays so exactly if the next close displaces no such entry, for
the server dispatches what it has displaced. -/
theorem round_reported (hr : (lts setup).Reach h s0)
    (hpc : s0.pc = .dispatch 0 s0.server.pollfds.length)
    (hround : (roundLts setup s0).ReachIf (fun _ s l => Undisplaced setup s0 s l) visited s) :
    Reported s0 visited ∧ ∀ l new s1 choice new' s2,
      (roundLts setup s0).step s l = some (new, s1) →
      (roundLts setup s0).step s1 (.server choice) = some (new', s2) →
      (Reported s0 (visited ++ (new ++ new')) ↔ Undisplaced setup s0 s l) := by
  obtain ⟨⟨h', hr'⟩, hi⟩ := round_inv hr hpc hround
  refine ⟨hi.reported, fun l new s1 choice new' s2 h1 h2 => ⟨?_, ?_⟩⟩
  · intro hrep
    refine Decidable.byContradiction ?_
    intro hdis
    exact not_reported hr' hdis h1 h2 hrep
  · intro hdis
    obtain ⟨-, hi'⟩ := round_inv hr hpc (hround.step hdis h1)
    simp only [roundLts] at h2
    split at h2
    · obtain ⟨p, hstep, heq⟩ := Option.map_eq_some_iff.1 h2
      cases heq
      have hrep := hi'.dispatches hstep
      rwa [List.append_assoc] at hrep
    · cases h2

end

/-- Two clients are connected, and `poll` returns. -/
def polled (revents : List PollBits) : List (Label (Fin 2)) :=
  round 0 [.pollIn] [.accept (some (4, .none))] ++
    (round 0 [.pollIn, .none] [.accept (some (5, .none)), .none] ++
      [.server .none, .server (.clock 0), .server (.poll (some revents))])

/-- What a round that follows dispatches. -/
def visits (revents : List PollBits) (choices : List Choice) :
    Option (Pc × List Fd × List Dispatch) :=
  ((lts onePod).exec (State.init onePod) (polled revents)).bind fun p =>
    ((roundLts onePod p.2).exec p.2 (choices.map .server)).map fun q =>
      (p.2.pc, p.2.server.pollfds.map (·.fd), q.1)

/-- The listener and the client `4` have events. A new client comes as `6`, with the bits that its
entry happens to hold; `4` is closed, and `6` is read from. -/
theorem unreported_run : ∃ h s0 visited s, (lts onePod).Reach h s0 ∧
    s0.pc = .dispatch 0 s0.server.pollfds.length ∧ (roundLts onePod s0).Reach visited s ∧
    visited = [⟨⟨3, .pollIn, .pollIn⟩, some .accept⟩, ⟨⟨4, .pollIn, .pollIn⟩, some .recv⟩,
      ⟨⟨6, .pollIn, .pollIn⟩, some .recv⟩] ∧
    s0.server.pollfds.map (·.fd) = [3, 4, 5] ∧ ¬ Reported s0 visited := by
  have he : visits [.pollIn, .pollIn, .none]
      [.accept (some (6, .pollIn)), .recv .eof true 0, .recv .again true 0] =
        some (.dispatch 0 3, [3, 4, 5], [⟨⟨3, .pollIn, .pollIn⟩, some .accept⟩,
          ⟨⟨4, .pollIn, .pollIn⟩, some .recv⟩, ⟨⟨6, .pollIn, .pollIn⟩, some .recv⟩]) := by
    decide +kernel
  obtain ⟨⟨h, s0⟩, he, hround⟩ := Option.bind_eq_some_iff.1 he
  obtain ⟨⟨visited, s⟩, hround, heq⟩ := Option.map_eq_some_iff.1 hround
  simp only [Prod.mk.injEq] at heq
  obtain ⟨hpc, hfds, rfl⟩ := heq
  have hlen : s0.server.pollfds.length = 3 := by
    have := congrArg List.length hfds
    simpa using this
  refine ⟨h, s0, _, s, .of_exec rfl he, by rw [hpc, hlen], .of_exec rfl hround, rfl, hfds,
    fun hrep => ?_⟩
  have hin := hrep.reported ⟨⟨6, .pollIn, .pollIn⟩, some .recv⟩ (by decide) (by decide)
  have hfd6 : (6 : Fd) ∈ s0.server.pollfds.map (·.fd) := List.mem_map_of_mem (f := (·.fd)) hin
  rw [hfds] at hfd6
  exact absurd hfd6 (by decide)

/-- Both clients have events, the first closes its end, and nobody comes. -/
theorem round_reported_run : ∃ h s0 visited s, (lts onePod).Reach h s0 ∧
    (roundLts onePod s0).Reach visited s ∧
    visited = [⟨⟨3, .pollIn, .none⟩, none⟩, ⟨⟨4, .pollIn, .pollIn⟩, some .recv⟩,
      ⟨⟨5, .pollIn, .pollIn⟩, some .recv⟩] ∧ Reported s0 visited := by
  have he : visits [.none, .pollIn, .pollIn] [.none, .recv .eof true 0, .recv (.data [0]) true 0] =
      some (.dispatch 0 3, [3, 4, 5], [⟨⟨3, .pollIn, .none⟩, none⟩,
        ⟨⟨4, .pollIn, .pollIn⟩, some .recv⟩, ⟨⟨5, .pollIn, .pollIn⟩, some .recv⟩]) := by
    decide +kernel
  have hC : ∀ p ∈ (lts onePod).exec (State.init onePod) (polled [.none, .pollIn, .pollIn]),
      (roundLts onePod p.2).Along (fun _ s l => Undisplaced onePod p.2 s l) [] p.2
        ([.none, .recv .eof true 0, .recv (.data [0]) true 0].map .server) := by
    decide +kernel
  obtain ⟨⟨h, s0⟩, he, hround⟩ := Option.bind_eq_some_iff.1 he
  obtain ⟨⟨visited, s⟩, hround, heq⟩ := Option.map_eq_some_iff.1 hround
  simp only [Prod.mk.injEq] at heq
  obtain ⟨hpc, hfds, hvis⟩ := heq
  have hlen : s0.server.pollfds.length = 3 := by
    have := congrArg List.length hfds
    simpa using this
  have hreach : (lts onePod).Reach h s0 := .of_exec rfl he
  have hif := Lts.ReachIf.along (.init rfl) (hC _ he) hround
  exact ⟨h, s0, visited, s, hreach, hif.reach, hvis,
    (round_reported hreach (by rw [hpc, hlen]) hif).1⟩

end Lumen.Network
