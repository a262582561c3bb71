import Lumen.Lib.Lts

/-!
# Objects shared by threads

An object is a memory `μ` that threads `ι` use through operations `α` with results `ρ`. `Impl`
gives the code of one thread: `entry` is where a call starts, and `run` is the next atomic access
of a thread at a program counter `π`, together with the local code up to the following access.
Accesses interleave freely and take effect at once; what the language leaves open in one access is
a choice `χ`, part of the label, so that a step is a function of its label.

* `Impl.lts`: the system of all threads, whose history shows the calls, the returns and the
  observations `ε` that the implementation is reasoned about by.
* `Impl.step_call`, `Impl.step_run`: what a step is.
* `lastCall`, `since`: the operation a thread called last, and what it has shown since.
-/

set_option autoImplicit false

namespace Lumen.Lib.Shared

inductive Event (ι α ρ ε : Type*)
  | call (i : ι) (op : α)
  | ret (i : ι) (r : ρ)
  | obs (i : ι) (e : ε)
  deriving DecidableEq

/-- A thread calls an operation, or performs its next access. -/
inductive Act (α χ : Type*)
  | call (op : α)
  | run (choice : χ)
  deriving DecidableEq

/-- What an access makes of the memory and of the thread's own program counter; `ret := some r`
returns `r` to the caller. -/
structure Outcome (μ ρ ε : Type*) {π : Type*} (idle : π) where
  obs : List ε := []
  ret : Option ρ := none
  mem : μ
  pc : π := idle

/-- The code of a thread; `run` is `none` where the thread is blocked or has nothing to run. -/
structure Impl (ι μ π χ α ρ ε : Type*) where
  start : μ
  idle : π
  entry : α → π
  run : ι → μ → χ → π → Option (Outcome μ ρ ε idle)

structure State (ι μ π : Type*) where
  mem : μ
  pc : ι → π

/-- The events of an access of thread `i`. -/
def Outcome.events {ι μ ρ ε π : Type*} {idle : π} (o : Outcome μ ρ ε idle) (i : ι) {α : Type*} :
    List (Event ι α ρ ε) :=
  o.obs.map (.obs i) ++ (o.ret.map (.ret i)).toList

theorem Outcome.call_notMem {ι μ ρ ε π α : Type*} {idle : π} (o : Outcome μ ρ ε idle) (i j : ι)
    (op : α) : .call j op ∉ o.events i := by
  simp [Outcome.events]

theorem Outcome.ret_mem {ι μ ρ ε π α : Type*} {idle : π} {o : Outcome μ ρ ε idle} {i j : ι}
    {r : ρ} : (.ret j r : Event ι α ρ ε) ∈ o.events i ↔ j = i ∧ o.ret = some r := by
  simp only [Outcome.events, List.mem_append, List.mem_map, reduceCtorEq, and_false, exists_false,
    Option.mem_toList, Option.map_eq_some_iff, Event.ret.injEq, false_or]
  exact ⟨fun ⟨_, h, hi, hr⟩ => ⟨hi.symm, hr ▸ h⟩, fun ⟨hi, h⟩ => ⟨r, h, hi.symm, rfl⟩⟩

/-- The events of an access are its observations and its return. -/
theorem past_events {ι μ ρ ε π α : Type*} {idle : π} {P : List (Event ι α ρ ε) → _ → Prop}
    {h : List (Event ι α ρ ε)} {o : Outcome μ ρ ε idle} {i : ι} (hp : Past P h)
    (hobs : ∀ os1 x os2, o.obs = os1 ++ x :: os2 → P (h ++ os1.map (.obs i)) (.obs i x))
    (hret : ∀ r, o.ret = some r → P (h ++ o.obs.map (.obs i)) (.ret i r)) :
    Past P (h ++ o.events i) := by
  rw [Outcome.events, ← List.append_assoc]
  refine (hp.append fun es1 e es2 he => ?_).append fun es1 e es2 he => ?_
  · obtain ⟨os1, l, hos, rfl, hl⟩ := List.map_eq_append_iff.1 he
    obtain ⟨x, os2, rfl, rfl, -⟩ := List.map_eq_cons_iff.1 hl
    exact hobs os1 x os2 hos
  · cases hr : o.ret with
    | none => simp [hr] at he
    | some r =>
      rw [hr] at he
      obtain ⟨rfl, rfl⟩ : es1 = [] ∧ e = .ret i r := by
        cases es1 with
        | nil => simpa [eq_comm] using (List.cons.inj he).1
        | cons => simp at he
      rw [List.append_nil]
      exact hret r hr

/-- Where the access has at most one observation. -/
theorem past_events_one {ι μ ρ ε π α : Type*} {idle : π} {P : List (Event ι α ρ ε) → _ → Prop}
    {h : List (Event ι α ρ ε)} {o : Outcome μ ρ ε idle} {i : ι} (hp : Past P h)
    (hone : o.obs.length ≤ 1) (hobs : ∀ x ∈ o.obs, P h (.obs i x))
    (hret : ∀ r, o.ret = some r → P (h ++ o.obs.map (.obs i)) (.ret i r)) :
    Past P (h ++ o.events i) := by
  refine past_events hp (fun os1 x os2 hos => ?_) hret
  rw [hos] at hone hobs
  obtain rfl : os1 = [] := by
    rw [List.length_append, List.length_cons] at hone
    exact List.eq_nil_of_length_eq_zero (by omega)
  rw [List.map_nil, List.append_nil]
  exact hobs x List.mem_cons_self

namespace Impl

variable {ι μ π χ α ρ ε : Type*} (M : Impl ι μ π χ α ρ ε)

def init : State ι μ π := { mem := M.start, pc := fun _ => M.idle }

/-- No operation is in flight. -/
def Quiescent (s : State ι μ π) : Prop := ∀ i, s.pc i = M.idle

variable [DecidableEq ι] [DecidableEq π]

def step (s : State ι μ π) : ι × Act α χ → Option (List (Event ι α ρ ε) × State ι μ π)
  | (i, .call op) =>
    if s.pc i = M.idle then
      some ([.call i op], { s with pc := Function.update s.pc i (M.entry op) })
    else none
  | (i, .run c) =>
    (M.run i s.mem c (s.pc i)).map fun o =>
      (o.events i, { mem := o.mem, pc := Function.update s.pc i o.pc })

/-- The object used by the threads `ι`. -/
def lts : Lts (State ι μ π) (ι × Act α χ) (Event ι α ρ ε) where
  init s := s = M.init
  step := M.step

variable {M} {s s' : State ι μ π} {i : ι} {es : List (Event ι α ρ ε)}

theorem step_call {op : α} :
    M.step s (i, .call op) = some (es, s') ↔ s.pc i = M.idle ∧ es = [.call i op] ∧
      s' = ⟨s.mem, Function.update s.pc i (M.entry op)⟩ := by
  simp only [step]
  split <;> rename_i h <;> simp [h, eq_comm]

theorem step_run {c : χ} :
    M.step s (i, .run c) = some (es, s') ↔ ∃ o, M.run i s.mem c (s.pc i) = some o ∧
      es = o.events i ∧ s' = ⟨o.mem, Function.update s.pc i o.pc⟩ := by
  simp only [step, Option.map_eq_some_iff, Prod.mk.injEq]
  exact exists_congr fun o => and_congr_right fun _ => and_congr eq_comm eq_comm

theorem step_isSome {c : χ} :
    (M.step s (i, .run c)).isSome = (M.run i s.mem c (s.pc i)).isSome :=
  Option.isSome_map

theorem reach_step {h : List (Event ι α ρ ε)} {l : ι × Act α χ} (hr : M.lts.Reach h s)
    (hs : M.step s l = some (es, s')) : M.lts.Reach (h ++ es) s' :=
  Lts.Reach.step (l := l) hr hs

theorem reach_call {h : List (Event ι α ρ ε)} (hr : M.lts.Reach h s) (hi : s.pc i = M.idle)
    (op : α) : M.lts.Reach (h ++ [.call i op]) ⟨s.mem, Function.update s.pc i (M.entry op)⟩ :=
  reach_step hr (step_call.2 ⟨hi, rfl, rfl⟩)

theorem reach_run {h : List (Event ι α ρ ε)} {m : μ} {pc : ι → π} {p : π} {c : χ}
    {o : Outcome μ ρ ε M.idle} (hr : M.lts.Reach h ⟨m, Function.update pc i p⟩)
    (ho : M.run i m c p = some o) :
    M.lts.Reach (h ++ o.events i) ⟨o.mem, Function.update pc i o.pc⟩ := by
  refine reach_step (l := (i, .run c)) hr (step_run.2 ⟨o, ?_, rfl, ?_⟩)
  · simpa using ho
  · simp

end Impl

/-! ## Program counters -/

section
variable {ι π τ : Type*} [DecidableEq ι] {i : ι} {pc : ι → π} {p : π}

/-- A thread that holds what `i` does not hold keeps it. -/
theorem update_holder {f : π → Option τ} {t : τ} {j : ι} (hj : f (pc j) = some t)
    (hi : f (pc i) ≠ some t) : f (Function.update pc i p j) = some t := by
  have hji : j ≠ i := by
    rintro rfl
    exact hi hj
  rw [Function.update_of_ne hji, hj]

theorem exists_update {f : π → Option τ} {t : τ} (hp : f p = f (pc i))
    (h : ∃ j, f (pc j) = some t) : ∃ j, f (Function.update pc i p j) = some t := by
  obtain ⟨j, hj⟩ := h
  refine ⟨j, ?_⟩
  by_cases hji : j = i
  · subst hji
    rw [Function.update_self, hp, hj]
  · rw [Function.update_of_ne hji, hj]

/-- The other threads' program counters are unchanged; `i` is at `p`. -/
theorem forall_update {P : ι → π → Prop} (h : P i p) (ho : ∀ j, j ≠ i → P j (pc j)) :
    ∀ j, P j (Function.update pc i p j) := by
  intro j
  by_cases hj : j = i
  · subst hj
    rwa [Function.update_self]
  · rw [Function.update_of_ne hj]
    exact ho j hj

/-- A mutex belongs to the thread in its critical section, and a step of `i` leaves it alone, takes
it when it is free, or gives it back. -/
theorem mutex_update {critical : π → Bool} {g g' : Option ι}
    (hm : ∀ j, g = some j ↔ critical (pc j) = true)
    (hstep : (g' = g ∧ critical p = critical (pc i)) ∨
      (g = none ∧ g' = some i ∧ critical p = true) ∨
      (critical (pc i) = true ∧ g' = none ∧ critical p = false)) :
    ∀ j, g' = some j ↔ critical (Function.update pc i p j) = true := by
  refine forall_update (P := fun j p => g' = some j ↔ critical p = true) ?_ fun j hj => ?_
  · rcases hstep with ⟨hg, hc⟩ | ⟨-, hg, hc⟩ | ⟨-, hg, hc⟩
    · rw [hg, hc]
      exact hm i
    · exact iff_of_true hg hc
    · rw [hg, hc]
      exact iff_of_false nofun nofun
  · rcases hstep with ⟨hg, -⟩ | ⟨h0, hg, -⟩ | ⟨hc, hg, -⟩
    · rw [hg]
      exact hm j
    · refine iff_of_false ?_ fun h => ?_
      · rw [hg]
        exact fun h => hj (Option.some.inj h).symm
      · cases h0.symm.trans ((hm j).2 h)
    · refine iff_of_false (by rw [hg]; exact nofun) fun h => hj ?_
      exact Option.some.inj (((hm j).2 h).symm.trans ((hm i).2 hc))

variable {f : π → Option τ} {t : τ}

/-- What the threads hold after a step of `i` that takes and gives back nothing. -/
theorem held_keep (hp : f p = f (pc i)) (u : τ) :
    (∃ j, f (Function.update pc i p j) = some u) ↔ ∃ j, f (pc j) = some u := by
  refine ⟨fun ⟨j, hj⟩ => ⟨j, ?_⟩, exists_update hp⟩
  by_cases hji : j = i
  · subst hji
    rwa [Function.update_self, hp] at hj
  · rwa [Function.update_of_ne hji] at hj

/-- `i` takes `t`. -/
theorem held_issue (h0 : f (pc i) = none) (hp : f p = some t) (u : τ) :
    (∃ j, f (Function.update pc i p j) = some u) ↔ (∃ j, f (pc j) = some u) ∨ u = t := by
  constructor
  · rintro ⟨j, hj⟩
    by_cases hji : j = i
    · subst hji
      rw [Function.update_self, hp, Option.some.injEq] at hj
      exact .inr hj.symm
    · rw [Function.update_of_ne hji] at hj
      exact .inl ⟨j, hj⟩
  · rintro (⟨j, hj⟩ | rfl)
    · exact ⟨j, update_holder hj (by simp [h0])⟩
    · exact ⟨i, by rw [Function.update_self, hp]⟩

/-- `i`, the only holder of `t`, gives it back. -/
theorem held_finish (h0 : f (pc i) = some t) (hp : f p = none)
    (hu : ∀ j, f (pc j) = some t → j = i) (u : τ) :
    (∃ j, f (Function.update pc i p j) = some u) ↔ (∃ j, f (pc j) = some u) ∧ u ≠ t := by
  constructor
  · rintro ⟨j, hj⟩
    by_cases hji : j = i
    · subst hji
      rw [Function.update_self, hp] at hj
      cases hj
    · rw [Function.update_of_ne hji] at hj
      exact ⟨⟨j, hj⟩, fun he => hji (hu j (he ▸ hj))⟩
  · rintro ⟨⟨j, hj⟩, hut⟩
    exact ⟨j, update_holder hj (by rw [h0, ne_eq, Option.some.injEq]; exact Ne.symm hut)⟩

end

/-! ## Belongings -/

section
variable {ι π τ : Type*}

/-- What the threads `ws` hold together, where each holds a list. -/
def heldBy (f : π → List τ) (ws : List ι) (pc : ι → π) : List τ := ws.flatMap fun i => f (pc i)

variable {f : π → List τ} {ws : List ι} {pc : ι → π} {i : ι} {p : π}

theorem heldBy_congr {pc' : ι → π} (h : ∀ j ∈ ws, f (pc' j) = f (pc j)) :
    heldBy f ws pc' = heldBy f ws pc := by
  rw [heldBy, heldBy, List.flatMap_congr h]

theorem length_heldBy_le {υ : Type*} {g : π → List υ} (h : ∀ p, (f p).length ≤ (g p).length) :
    (heldBy f ws pc).length ≤ (heldBy g ws pc).length := by
  induction ws with
  | nil => exact Nat.le_refl _
  | cons w ws ih =>
    simp only [heldBy, List.flatMap_cons, List.length_append] at ih ⊢
    exact Nat.add_le_add (h _) ih

variable [DecidableEq ι]

/-- A step that leaves a thread's list as it is. -/
theorem heldBy_keep (hp : f p = f (pc i)) :
    heldBy f ws (Function.update pc i p) = heldBy f ws pc :=
  heldBy_congr fun j _ => by
    by_cases hj : j = i
    · subst hj
      rw [Function.update_self, hp]
    · rw [Function.update_of_ne hj]

/-- Only the list of the thread that moves changes. -/
theorem heldBy_update (hn : ws.Nodup) (hi : i ∈ ws) :
    ∃ rest, (heldBy f ws pc).Perm (f (pc i) ++ rest) ∧
      (heldBy f ws (Function.update pc i p)).Perm (f p ++ rest) := by
  have hperm : ∀ pc' : ι → π,
      (heldBy f ws pc').Perm (f (pc' i) ++ heldBy f (ws.erase i) pc') := fun pc' =>
    (List.perm_cons_erase hi).flatMap_right _
  refine ⟨heldBy f (ws.erase i) pc, hperm pc, ?_⟩
  have h := hperm (Function.update pc i p)
  have hrest : heldBy f (ws.erase i) (Function.update pc i p) = heldBy f (ws.erase i) pc :=
    heldBy_congr fun j hj => by rw [Function.update_of_ne (hn.mem_erase_iff.1 hj).1]
  rwa [Function.update_self, hrest] at h

end

/-! ## Calls -/

section
variable {ι α ρ ε : Type*} [DecidableEq ι]

/-- The operation thread `i` called last. -/
def lastCall (i : ι) (h : List (Event ι α ρ ε)) : Option α :=
  (h.filterMap fun
    | .call j op => if j = i then some op else none
    | _ => none).getLast?

theorem lastCall_append (i : ι) (h es : List (Event ι α ρ ε)) (he : ∀ op, .call i op ∉ es) :
    lastCall i (h ++ es) = lastCall i h := by
  have hn : (es.filterMap fun
      | .call j op => if j = i then some op else none
      | _ => none) = [] := by
    refine List.filterMap_eq_nil_iff.2 fun e hm => ?_
    cases e with
    | call j op =>
      by_cases hj : j = i
      · exact absurd (hj ▸ hm) (he op)
      · simp [hj]
    | ret => rfl
    | obs => rfl
  simp only [lastCall, List.filterMap_append, hn, List.append_nil]

theorem lastCall_call (i : ι) (h : List (Event ι α ρ ε)) (op : α) :
    lastCall i (h ++ [.call i op]) = some op := by
  simp [lastCall]

theorem mem_of_lastCall {i : ι} {h : List (Event ι α ρ ε)} {op : α} (hl : lastCall i h = some op) :
    .call i op ∈ h := by
  obtain ⟨e, he, hop⟩ := List.mem_filterMap.1 (List.mem_of_getLast? hl)
  cases e with
  | call j op' =>
    simp only [Option.ite_none_right_eq_some, Option.some.injEq] at hop
    rwa [hop.1, hop.2] at he
  | ret => cases hop
  | obs => cases hop

/-- What thread `i` has shown since it called its last operation. -/
def since (i : ι) (h : List (Event ι α ρ ε)) : List ε :=
  h.foldl (fun os e =>
    match e with
    | .call j _ => if j = i then [] else os
    | .obs j o => if j = i then os ++ [o] else os
    | .ret _ _ => os) []

theorem since_call (i : ι) (h : List (Event ι α ρ ε)) (op : α) :
    since i (h ++ [.call i op]) = [] := by
  simp [since, List.foldl_append]

theorem since_call_other {i j : ι} (hj : j ≠ i) (h : List (Event ι α ρ ε)) (op : α) :
    since i (h ++ [.call j op]) = since i h := by
  simp [since, List.foldl_append, hj]

theorem since_obs (i : ι) (h : List (Event ι α ρ ε)) (o : ε) :
    since i (h ++ [.obs i o]) = since i h ++ [o] := by
  simp [since, List.foldl_append]

theorem since_obs_map (i : ι) (h : List (Event ι α ρ ε)) (os : List ε) :
    since i (h ++ os.map (.obs i)) = since i h ++ os := by
  induction os generalizing h with
  | nil => simp
  | cons o os ih =>
    have := ih (h ++ [.obs i o])
    rw [List.append_assoc, since_obs, List.append_assoc] at this
    exact this

theorem since_obs_map_other {i j : ι} (hj : j ≠ i) (h : List (Event ι α ρ ε)) (os : List ε) :
    since i (h ++ os.map (.obs j)) = since i h := by
  induction os generalizing h with
  | nil => simp
  | cons o os ih =>
    have := ih (h ++ [.obs j o])
    rw [List.append_assoc] at this
    rw [List.map_cons, ← List.singleton_append, this]
    simp [since, List.foldl_append, hj]

theorem since_ret (i j : ι) (h : List (Event ι α ρ ε)) (r : Option ρ) :
    since i (h ++ (r.map (.ret j)).toList) = since i h := by
  cases r <;> simp [since, List.foldl_append]

theorem since_events {μ π : Type*} {idle : π} (i : ι) (h : List (Event ι α ρ ε))
    (o : Outcome μ ρ ε idle) : since i (h ++ o.events i) = since i h ++ o.obs := by
  rw [Outcome.events, ← List.append_assoc, since_ret, since_obs_map]

theorem since_events_other {μ π : Type*} {idle : π} {i j : ι} (hj : j ≠ i)
    (h : List (Event ι α ρ ε)) (o : Outcome μ ρ ε idle) :
    since i (h ++ o.events j) = since i h := by
  rw [Outcome.events, ← List.append_assoc, since_ret, since_obs_map_other hj]

theorem since_call_ne {i j : ι} (hj : j ≠ i) (h : List (Event ι α ρ ε)) (op : α) :
    since j (h ++ [.call i op]) = since j h ∧ lastCall j (h ++ [.call i op]) = lastCall j h :=
  ⟨since_call_other (Ne.symm hj) h op, lastCall_append j h _ fun op' hm => by
    simp only [List.mem_singleton, Event.call.injEq] at hm
    exact hj hm.1⟩

end

/-! ## What a call shows before it returns -/

section
variable {ι μ π χ α ρ ε : Type*}

/-- `D p op os`: at `p` a call of `op` has shown `os`; `J op os r`: a call of `op` that has shown
`os` may return `r`. The accesses lead from the one to the other. -/
structure Impl.Calls (M : Impl ι μ π χ α ρ ε) (D : π → α → List ε → Prop)
    (J : α → List ε → ρ → Prop) : Prop where
  idle : ∀ i m c, M.run i m c M.idle = none
  entry : ∀ op, D (M.entry op) op []
  run : ∀ i m c p o op os, M.run i m c p = some o → D p op os →
    (o.ret = none ∧ D o.pc op (os ++ o.obs)) ∨
      ∃ r, o.ret = some r ∧ o.pc = M.idle ∧ J op (os ++ o.obs) r

variable [DecidableEq ι] [DecidableEq π] {M : Impl ι μ π χ α ρ ε} {D : π → α → List ε → Prop}
  {J : α → List ε → ρ → Prop} {h : List (Event ι α ρ ε)} {s : State ι μ π}

/-- Thread `i` at `p` performs the operation it called last. -/
def Impl.Doing (M : Impl ι μ π χ α ρ ε) (D : π → α → List ε → Prop) (h : List (Event ι α ρ ε))
    (i : ι) (p : π) : Prop :=
  p ≠ M.idle → ∃ op, lastCall i h = some op ∧ D p op (since i h)

/-- If `e` is a return, what its call has shown justifies it. -/
def Justified (J : α → List ε → ρ → Prop) (h : List (Event ι α ρ ε)) (e : Event ι α ρ ε) : Prop :=
  ∀ i r, e = .ret i r → ∃ op, lastCall i h = some op ∧ J op (since i h) r

theorem Impl.Calls.reach (hM : M.Calls D J) (hr : M.lts.Reach h s) :
    (∀ i, M.Doing D h i (s.pc i)) ∧ Past (Justified J) h := by
  refine Lts.Reach.inv (I := fun h s => (∀ i, M.Doing D h i (s.pc i)) ∧ Past (Justified J) h)
    (fun s h0 => ?_) (fun h s l es s' ⟨hd, hp⟩ hs => ?_) hr
  · obtain rfl : s = M.init := h0
    exact ⟨fun i hi => absurd rfl hi, .nil⟩
  obtain ⟨i, op | c⟩ := l
  · obtain ⟨hpc, rfl, rfl⟩ := step_call.1 hs
    refine ⟨forall_update (P := M.Doing D _) (fun _ => ⟨op, lastCall_call i h op, ?_⟩)
      fun j hj hne => ?_, hp.append_one fun _ _ he => nomatch he⟩
    · rw [since_call]
      exact hM.entry op
    · rw [(since_call_ne hj h op).1, (since_call_ne hj h op).2]
      exact hd j hne
  · obtain ⟨o, ho, rfl, rfl⟩ := step_run.1 hs
    have hne : s.pc i ≠ M.idle := fun he => by
      rw [he, hM.idle] at ho
      cases ho
    obtain ⟨op, hop, hdi⟩ := hd i hne
    have hlast : ∀ j es, (∀ op, .call j op ∉ es) → lastCall j (h ++ es) = lastCall j h :=
      fun j es => lastCall_append j h es
    have hrun := hM.run i _ _ _ o op _ ho hdi
    refine ⟨forall_update (P := M.Doing D _) (fun hne' => ⟨op, ?_, ?_⟩) fun j hj hne' => ?_,
      past_events hp ?_ ?_⟩
    · rw [hlast i _ (o.call_notMem i i), hop]
    · rw [since_events]
      rcases hrun with ⟨-, h1⟩ | ⟨r, -, h1, -⟩
      · exact h1
      · exact absurd h1 hne'
    · rw [hlast j _ (o.call_notMem i j), since_events_other (Ne.symm hj)]
      exact hd j hne'
    · intro os1 x os2 _ j r he
      cases he
    · intro r hret j r' he
      cases he
      refine ⟨op, ?_, ?_⟩
      · rw [hlast i _ (by simp), hop]
      · rw [since_obs_map]
        rcases hrun with ⟨h1, -⟩ | ⟨r', h1, -, h2⟩
        · rw [hret] at h1
          cases h1
        · rw [hret, Option.some.injEq] at h1
          exact h1 ▸ h2

end
end Lumen.Lib.Shared
