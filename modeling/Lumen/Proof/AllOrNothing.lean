import Lumen.Proof.Construction
import Lumen.Proof.SingleWorker

/-!
# Failures while the pool is built

An exception for the first pod meets no worker and comes to the `catch` of `main`. One for a later
pod meets the workers of the pods before it, joinable and not told to stop, and ends the process
(`all_or_nothing_iff`). An exception after the constructor stops and joins every worker before its
pod is destroyed (`destructor_clean`): this is what the constructor does not do.
-/

set_option autoImplicit false

namespace Lumen.Construction

open Lumen.Lib Lumen.Core Lumen.Concurrency Lumen.Utils

variable {host : Host} {config : ConfigManager} {κ : Type*} [DecidableEq κ] {n : Nat}
  {s s' : State κ}

/-! ## What an exception should leave -/

/-- The process has not ended; a worker whose pod is destroyed has been stopped and joined; in the
`catch` of `main` no worker runs. -/
structure Clean (s : State κ) : Prop where
  alive : s.pc ≠ .terminated
  joined : ∀ i, .worker i ∈ s.workers → i ∉ s.workerPods → s.pool.mem.stop = true ∧
    .worker i ∉ s.pool.mem.joinable ∧ .worker i ∈ s.pool.mem.ended
  ended : s.pc = .caught → ∀ w ∈ s.workers, w ∈ s.pool.mem.ended

/-- Whatever the threads do from here, it stays clean, and the main thread can reach its `catch`. -/
def AllOrNothing (host : Host) (config : ConfigManager) (s : State κ) : Prop :=
  ∀ ls es s', (lts host config κ).exec s ls = some (es, s') → Clean s' ∧
    ∃ ls' es' s'', (lts host config κ).exec s' ls' = some (es', s'') ∧ s''.pc = .caught

omit [DecidableEq κ] in
theorem Joined.clean (hj : Joined s) (hne : s.pc ≠ .terminated) : Clean s :=
  ⟨hne, fun i hi _ => ⟨hj.stop, by rw [hj.joinable]; exact List.not_mem_nil, hj.ended _ hi⟩,
    fun _ => hj.ended⟩

omit [DecidableEq κ] in
/-- Every worker has its pod. -/
theorem clean_of_pods {k pods : Nat} (hw : s.workers = (List.range k).map .worker)
    (hpods : s.workerPods = List.range pods) (hk : k ≤ pods)
    (hne : s.pc ≠ .terminated ∧ s.pc ≠ .caught) : Clean s := by
  refine ⟨hne.1, fun i hi hno => absurd ?_ hno, fun he => absurd he hne.2⟩
  rw [hw, List.mem_map] at hi
  obtain ⟨j, hj, heq⟩ := hi
  cases heq
  rw [hpods, List.mem_range]
  exact Nat.lt_of_lt_of_le (List.mem_range.1 hj) hk

omit [DecidableEq κ] in
theorem Phase.clean (hp : Phase n s) : Clean s := by
  have hbuild : ∀ {k pods}, Building s k pods → k ≤ pods → s.pc ≠ .terminated ∧ s.pc ≠ .caught →
      Clean s := fun hb => clean_of_pods hb.workers hb.workerPods
  cases hpc : s.pc <;> simp only [Phase, hpc] at hp
  case allocator => exact hbuild hp.1 (Nat.le_refl _) (by simp [hpc])
  case engine => exact hbuild hp.1 (Nat.le_refl _) (by simp [hpc])
  case start => exact hbuild hp.1 (Nat.le_succ _) (by simp [hpc])
  case built => exact hbuild hp (Nat.le_refl _) (by simp [hpc])
  case destructor => exact hbuild hp (Nat.le_refl _) (by simp [hpc])
  case shutdown => exact clean_of_pods hp.1 hp.2.1 (Nat.le_refl _) (by simp [hpc])
  case workers => exact hp.2.2.clean (by simp [hpc])
  case workerPods => exact hp.clean (by simp [hpc])
  case caught => exact hp.clean (by simp [hpc])

/-- An exception after the constructor: `~ThreadPool` stops and joins every worker first. -/
theorem destructor_clean {h : List (Event κ)} (hr : (lts host config κ).ReachIf NoThrow h s) :
    Clean s := (phase hr).1.clean

/-! ## An exception in the constructor -/

/-- No way leads back from the destruction of the members. -/
theorem unwinding_step {l : Label κ} {es : List (Event κ)} (hu : s.pc.unwinding = true)
    (hs : (lts host config κ).step s l = some (es, s')) : s'.pc.unwinding = true := by
  have hother : ∀ {pc : Pc}, s.pc = pc → pc.unwinding = false → s'.pc.unwinding = true :=
    fun hpc hf => absurd ((hpc ▸ hf).symm.trans hu) Bool.false_ne_true
  cases l with
  | main throws =>
    cases main_moves hs with
    | threw => rfl
    | allocator hpc => exact hother hpc rfl
    | engine hpc => exact hother hpc rfl
    | start hpc => exact hother hpc rfl
    | built hpc => exact hother hpc rfl
    | destructor hpc => exact hother hpc rfl
    | shutdown hpc => exact hother hpc rfl
    | thread => rfl
    | terminated => rfl
    | threads => rfl
    | pod => rfl
    | pods => rfl
  | worker i act =>
    obtain ⟨-, es', p, -, rfl, -⟩ := worker_some hs
    exact hu

/-- An exception in the constructor leads there. -/
theorem unwind_of_throw {es : List (Event κ)} (hc : s.pc.constructing = true)
    (hs : (lts host config κ).step s (.main true) = some (es, s')) : s' = s.unwind := by
  change mainStep host config s true = _ at hs
  cases hpc : s.pc <;> simp only [hpc, Pc.constructing, Bool.false_eq_true] at hc <;>
    simp only [mainStep, hpc] at hs <;> cases hs <;> rfl

/-- A state in which no member has been destroyed is reached without an exception. -/
theorem reach_noThrow {h : List (Event κ)} (hr : (lts host config κ).Reach h s)
    (hu : s.pc.unwinding = false) : (lts host config κ).ReachIf NoThrow h s := by
  induction hr with
  | init h0 => exact .init h0
  | @step h s l es s' _ _ hs ih =>
    have hu' : s.pc.unwinding = false := by
      rw [Bool.eq_false_iff] at hu ⊢
      exact fun hs' => hu (unwinding_step hs' hs)
    refine (ih hu').step ?_ hs
    cases l with
    | worker i act => trivial
    | main throws =>
      rintro rfl
      rw [Bool.eq_false_iff]
      intro hc
      rw [unwind_of_throw hc hs] at hu
      cases hu

/-! ## The first pod -/

/-- There is nothing to destroy. -/
structure Bare (s : State κ) : Prop where
  workers : s.workers = []
  workerPods : s.workerPods = []
  pc : s.pc = .workers [] ∨ s.pc = .workerPods ∨ s.pc = .caught

theorem Bare.step {l : Label κ} {es : List (Event κ)} (hb : Bare s)
    (hs : (lts host config κ).step s l = some (es, s')) : Bare s' := by
  obtain ⟨hw, hpods, hpc⟩ := hb
  cases l with
  | main throws =>
    change mainStep host config s throws = _ at hs
    rcases hpc with hpc | hpc | hpc <;> simp only [mainStep, hpc, hpods] at hs <;> cases hs
    · exact ⟨hw, rfl, .inr (.inl rfl)⟩
    · exact ⟨hw, rfl, .inr (.inr rfl)⟩
  | worker i act =>
    have hmay := (worker_some hs).1
    cases act with
    | call op => cases op <;> simp [workerMay, hw] at hmay
    | run c => simp [workerMay, hw] at hmay

omit [DecidableEq κ] in
theorem Bare.clean (hb : Bare s) : Clean s := by
  refine ⟨?_, fun i hi => ?_, fun _ w hw => ?_⟩
  · rcases hb.pc with hpc | hpc | hpc <;> simp [hpc]
  · rw [hb.workers] at hi
    cases hi
  · rw [hb.workers] at hw
    cases hw

/-- The main thread comes to its `catch`. -/
theorem Bare.caught (hb : Bare s) :
    ∃ ls es s', (lts host config κ).exec s ls = some (es, s') ∧ s'.pc = .caught := by
  obtain ⟨pc, pods, workers, pool⟩ := s
  obtain ⟨rfl, rfl, hpc⟩ := hb
  rcases hpc with rfl | rfl | rfl
  · exact ⟨[.main false, .main false], _, _, rfl, rfl⟩
  · exact ⟨[.main false], _, _, rfl, rfl⟩
  · exact ⟨[], _, _, rfl, rfl⟩

/-! ## A later pod -/

/-- The next thread that is destroyed is joinable, or the process has ended. -/
structure Doomed (s : State κ) : Prop where
  quiet : Quiet s
  pc : s.pc = .terminated ∨ ∃ w rest, s.pc = .workers (w :: rest) ∧ w ∈ s.pool.mem.joinable

theorem Doomed.step {l : Label κ} {es : List (Event κ)} (hd : Doomed s)
    (hs : (lts host config κ).step s l = some (es, s')) : Doomed s' := by
  obtain ⟨hq, hpc⟩ := hd
  cases l with
  | main throws =>
    change mainStep host config s throws = _ at hs
    rcases hpc with hpc | ⟨w, rest, hpc, hw⟩ <;> simp only [mainStep, hpc] at hs
    · cases hs
    · rw [if_pos hw] at hs
      cases hs
      exact ⟨hq, .inl rfl⟩
  | worker i act =>
    obtain ⟨p, rfl, hsame, hq'⟩ := worker_step hq hs
    refine ⟨hq', hpc.imp_right ?_⟩
    rintro ⟨w, rest, hpc, hw⟩
    exact ⟨w, rest, hpc, hsame.joinable ▸ hw⟩

omit [DecidableEq κ] in
theorem Doomed.pc_ne (hd : Doomed s) : s.pc ≠ .caught := by
  rcases hd.pc with hpc | ⟨w, rest, hpc, -⟩ <;> simp [hpc]

theorem Doomed.ends (hd : Doomed s) :
    ∃ ls es s', (lts host config κ).exec s ls = some (es, s') ∧ s'.pc = .terminated := by
  obtain ⟨pc, pods, workers, pool⟩ := s
  obtain ⟨-, hpc⟩ := hd
  rcases hpc with rfl | ⟨w, rest, rfl, hw⟩
  · exact ⟨[], _, _, rfl, rfl⟩
  · have hend : (lts host config κ).exec ⟨.workers (w :: rest), pods, workers, pool⟩ [.main false] =
        some ([.terminated], ⟨.terminated, pods, workers, pool⟩) :=
      Lts.exec_cons.2 ⟨_, _, _, if_pos hw, rfl, rfl⟩
    exact ⟨_, _, _, hend, rfl⟩

/-! ## All or nothing -/

theorem building_of_creating {h : List (Event κ)} {k : Nat} (hr : (lts host config κ).Reach h s)
    (hk : s.pc.creating = some k) : s.pc.constructing = true ∧ Building s k k ∧ Quiet s := by
  have hcon : s.pc.constructing = true ∧ s.pc.unwinding = false := by
    cases hpc : s.pc <;> rw [hpc] at hk <;> cases hk <;> exact ⟨rfl, rfl⟩
  obtain ⟨hp, hq⟩ := phase (reach_noThrow hr hcon.2)
  refine ⟨hcon.1, ?_, hq⟩
  cases hpc : s.pc <;> rw [hpc] at hk <;> cases hk <;> simp only [Phase, hpc] at hp <;> exact hp.1

/-- Where the exception is for the first pod, nothing is there to destroy. -/
theorem bare_of_throw {h : List (Event κ)} {es : List (Event κ)}
    (hr : (lts host config κ).Reach h s)
    (hk : s.pc.creating = some 0) (hs : (lts host config κ).step s (.main true) = some (es, s')) :
    Bare s' := by
  obtain ⟨hcon, hb, -⟩ := building_of_creating hr hk
  obtain rfl := unwind_of_throw hcon hs
  exact ⟨hb.workers, hb.workerPods, .inl (congrArg Pc.workers hb.workers)⟩

/-- Where it is for a later pod, the worker of the first one is joinable. -/
theorem doomed_of_throw {h : List (Event κ)} {k : Nat} {es : List (Event κ)}
    (hr : (lts host config κ).Reach h s) (hk : s.pc.creating = some k) (hne : k ≠ 0)
    (hs : (lts host config κ).step s (.main true) = some (es, s')) : Doomed s' := by
  obtain ⟨hcon, hb, hq⟩ := building_of_creating hr hk
  obtain rfl := unwind_of_throw hcon hs
  obtain ⟨w, rest, hw⟩ : ∃ w rest, s.workers = w :: rest := by
    refine List.exists_cons_of_length_pos ?_
    rw [hb.workers, List.length_map, List.length_range]
    omega
  refine ⟨hq, .inr ⟨w, rest, congrArg Pc.workers hw, ?_⟩⟩
  change w ∈ s.pool.mem.joinable
  rw [hb.joinable, hw]
  exact List.mem_cons_self

theorem Bare.allOrNothing (hb : Bare s) : AllOrNothing host config s := by
  intro ls es t he
  have ht : Bare t := Lts.exec_inv (fun _ _ _ _ hb hs => Bare.step hb hs) hb he
  exact ⟨ht.clean, ht.caught⟩

theorem Doomed.exec (hd : Doomed s) {ls : List (Label κ)} {es : List (Event κ)}
    (he : (lts host config κ).exec s ls = some (es, s')) : Doomed s' :=
  Lts.exec_inv (fun _ _ _ _ hd hs => Doomed.step hd hs) hd he

theorem Doomed.not_allOrNothing (hd : Doomed s) : ¬ AllOrNothing host config s := by
  intro hall
  obtain ⟨-, ls, es, t, he, ht⟩ := hall [] [] s rfl
  exact (hd.exec he).pc_ne ht

/-- A step of the main thread that does not throw. -/
theorem reach_main {h es : List (Event κ)} (hr : (lts host config κ).Reach h s)
    (hs : mainStep host config s false = some (es, s')) : (lts host config κ).Reach (h ++ es) s' :=
  hr.step (show (lts host config κ).step s (.main false) = _ from hs)

theorem reach_engine {h : List (Event κ)} {k : Nat} (hr : (lts host config κ).Reach h s)
    (hpc : s.pc = .allocator k) : (lts host config κ).Reach (h ++ []) { s with pc := .engine k } :=
  reach_main hr (by simp only [mainStep, hpc, Bool.false_eq_true, if_false])

theorem reach_loop {k : Nat} (hk : k ≤ threadCount host config) :
    ∃ h s, (lts host config κ).Reach h s ∧ s.pc = loop host config k := by
  induction k with
  | zero => exact ⟨[], _, .init rfl, rfl⟩
  | succ k ih =>
    obtain ⟨h, s, hr, hpc⟩ := ih (Nat.le_of_succ_le hk)
    rw [loop, if_pos (Nat.lt_of_succ_le hk)] at hpc
    exact ⟨_, _, reach_main (reach_main (reach_engine hr hpc) rfl) rfl, rfl⟩

/-- The creation of the allocator and of the engine of every pod is reached. -/
theorem reach_creating {k : Nat} (hk : k < threadCount host config) :
    (∃ h s, (lts host config κ).Reach h s ∧ s.pc = .allocator k) ∧
      ∃ h s, (lts host config κ).Reach h s ∧ s.pc = .engine k := by
  obtain ⟨h, s, hr, hpc⟩ : ∃ h s, (lts host config κ).Reach h s ∧ s.pc = loop host config k :=
    reach_loop hk.le
  rw [loop, if_pos hk] at hpc
  exact ⟨⟨h, s, hr, hpc⟩, _, _, reach_engine hr hpc, rfl⟩

/-- **All or nothing.** Where the creation of the allocator or of the engine of pod `k` throws, the
rest of the run is as it should be if and only if `k` is the first pod. Otherwise the process ends
without coming to the `catch` of `main`, however the threads interleave. -/
theorem all_or_nothing_iff {h : List (Event κ)} {k : Nat} {es : List (Event κ)}
    (hr : (lts host config κ).Reach h s) (hk : s.pc.creating = some k)
    (hs : (lts host config κ).step s (.main true) = some (es, s')) :
    (AllOrNothing host config s' ↔ k = 0) ∧
    (k ≠ 0 → ∀ ls es s'', (lts host config κ).exec s' ls = some (es, s'') → s''.pc ≠ .caught ∧
      ∃ ls' es' t, (lts host config κ).exec s'' ls' = some (es', t) ∧ t.pc = .terminated) := by
  refine ⟨⟨fun hall => ?_, ?_⟩, fun hne ls es t he => ?_⟩
  · by_contra hne
    exact (doomed_of_throw hr hk hne hs).not_allOrNothing hall
  · rintro rfl
    exact (bare_of_throw hr hk hs).allOrNothing
  · have hd := (doomed_of_throw hr hk hne hs).exec he
    exact ⟨hd.pc_ne, hd.ends⟩

def twoPods : ConfigManager := { threadCount := 2 }

/-- The second pod is being created, and the worker of the first one is started. -/
def secondPod : State Nat :=
  { ((State.init eightThreads twoPods).pushPod 0).startWorker 0 with pc := .engine 1 }

theorem reach_secondPod : (lts eightThreads twoPods Nat).Reach [.started 0] secondPod := by
  have he : (lts eightThreads twoPods Nat).exec (.init eightThreads twoPods)
      [.main false, .main false, .main false, .main false] = some ([.started 0], secondPod) := rfl
  exact .of_exec rfl he

theorem all_or_nothing_twoPods :
    AllOrNothing eightThreads twoPods (State.init eightThreads twoPods : State Nat).unwind ∧
    (AllOrNothing eightThreads twoPods secondPod.unwind ↔ 1 = 0) :=
  ⟨(all_or_nothing_iff (.init rfl) rfl rfl).1.2 rfl, (all_or_nothing_iff reach_secondPod rfl rfl).1⟩

/-- The exception of the second pod. -/
theorem not_all_or_nothing : ∃ h s es s', (lts eightThreads twoPods Nat).Reach h s ∧
    1 < threadCount eightThreads twoPods ∧ s.pc.creating = some 1 ∧
    (lts eightThreads twoPods Nat).step s (.main true) = some (es, s') ∧
    ¬ AllOrNothing eightThreads twoPods s' :=
  ⟨_, secondPod, _, secondPod.unwind, reach_secondPod, by decide, rfl, rfl,
    (doomed_of_throw reach_secondPod rfl (by decide) rfl).not_allOrNothing⟩

end Lumen.Construction
