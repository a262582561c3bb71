import Lumen.Concurrency.Proof.PoolInv

/-!
# Every accepted task has one result

`Jobs`: an accepted job is in the task queue, in a worker's hands, or has produced its result, in
exactly one of these places; the produced results are those popped and those in the response queue,
and each was made from its job. `conserved` is this for every run of the
pool, with what is left when `shutdown` has returned.
-/

set_option autoImplicit false

namespace Lumen.Concurrency.ThreadPool

open Lumen.Lib Lumen.Lib.Shared Lumen.Core

variable {ι κ : Type*}

structure Jobs (setup : Setup ι) (h : List (Event ι κ)) (s : State ι κ) : Prop where
  ok : ∀ i, (s.pc i).Ok setup
  jobs : (accepted h).Perm (s.mem.queue.tasks ++
    (heldBy Pc.hand setup.workers s.pc ++ (produced h).map Prod.fst))
  results : produced h = popped h ++ s.mem.results
  made : ∀ x ∈ produced h, Made setup x.1 x.2

section
variable [DecidableEq ι] {setup : Setup ι} {allocator : ι → Allocator} {mn i : ι}
  {h : List (Event ι κ)} {s s' : State ι κ}

/-- Only the hands of the thread that moves change. -/
theorem Threads.held (ht : Threads setup mn h s) {c : Choice} {o : Outcome ι κ}
    (ho : ThreadPool.run setup i s.mem c (s.pc i) = some o) :
    ∃ rest, (heldBy Pc.hand setup.workers s.pc).Perm ((s.pc i).hand ++ rest) ∧
      (heldBy Pc.hand setup.workers (Function.update s.pc i o.pc)).Perm (o.pc.hand ++ rest) := by
  by_cases hi : i ∈ setup.workers
  · exact heldBy_update setup.nodup hi
  · have hw : (s.pc i).working = false := by
      rw [Bool.eq_false_iff]
      exact fun hw => hi (ht.worker i hw)
    have hw' : o.pc.working = false := by
      rw [Bool.eq_false_iff] at hw ⊢
      exact fun h' => hw ((run_class ho).1 h')
    refine ⟨heldBy Pc.hand setup.workers s.pc, ?_, ?_⟩
    · rw [Pc.hand_of_working hw, List.nil_append]
    · rw [Pc.hand_of_working hw', List.nil_append,
        heldBy_keep ((Pc.hand_of_working hw').trans (Pc.hand_of_working hw).symm)]

namespace Jobs

theorem init : Jobs setup [] (impl κ setup allocator).init where
  ok _ := trivial
  jobs := by
    have hheld : heldBy Pc.hand setup.workers (impl κ setup allocator).init.pc = [] :=
      List.flatMap_eq_nil_iff.2 fun _ _ => rfl
    rw [hheld]
    exact .nil
  results := rfl
  made x hx := by cases hx

theorem call (hj : Jobs setup h s) {op : Op κ} (hpc : s.pc i = .idle) :
    Jobs setup (h ++ [.call i op]) ⟨s.mem, Function.update s.pc i (entry op)⟩ where
  ok := forall_update (P := fun _ (p : Pc ι κ) => p.Ok setup) (by cases op <;> trivial)
    fun j _ => hj.ok j
  jobs := by
    have hheld : heldBy Pc.hand setup.workers (Function.update s.pc i (entry op)) =
        heldBy Pc.hand setup.workers s.pc := heldBy_keep (by rw [hpc]; cases op <;> rfl)
    simp only [accepted, produced, observed_append, observed_call, List.append_nil, hheld]
    exact hj.jobs
  results := by simpa [produced, popped] using hj.results
  made := by simpa [produced] using hj.made

theorem run (hj : Jobs setup h s) (ht : Threads setup mn h s) {c : Choice} {o : Outcome ι κ}
    (ho : ThreadPool.run setup i s.mem c (s.pc i) = some o) :
    Jobs setup (h ++ o.events i) ⟨o.mem, Function.update s.pc i o.pc⟩ := by
  obtain ⟨hm, hok⟩ := run_moves ho (hj.ok i)
  obtain ⟨rest, hheld, hheld'⟩ := ht.held ho
  refine ⟨forall_update (P := fun _ (p : Pc ι κ) => p.Ok setup) hok fun j _ => hj.ok j, ?_, ?_, ?_⟩
  · have h1 := hj.jobs
    have h2 := hm.jobs
    simp only [accepted, produced, observed_append, observed_events, List.filterMap_append,
      List.map_append] at h1 ⊢
    classical
    rw [List.perm_iff_count] at h1 h2 hheld hheld' ⊢
    intro job
    have h1 := h1 job
    have h2 := h2 job
    have h3 := hheld job
    have h4 := hheld' job
    simp only [List.count_append] at h1 h2 h3 h4 ⊢
    omega
  · have h1 := hj.results
    simp only [produced, popped, observed_append, observed_events, List.filterMap_append] at h1 ⊢
    rw [h1, List.append_assoc, hm.results, List.append_assoc]
  · intro x hx
    simp only [produced, observed_append, observed_events, List.filterMap_append,
      List.mem_append] at hx
    exact hx.elim (hj.made x) (hm.made x)

end Jobs

/-- The two invariants of the pool. -/
theorem inv [DecidableEq κ]
    (hr : (lts κ setup allocator).ReachIf (fun _ s => Roles setup mn s) h s) :
    Threads setup mn h s ∧ Jobs setup h s := by
  refine hr.inv (I := fun h s => Threads setup mn h s ∧ Jobs setup h s) (fun s h0 => ?_)
    fun h s l es s' ⟨ht, hj⟩ hl hs => ?_
  · obtain rfl : s = (impl κ setup allocator).init := h0
    exact ⟨.init, .init⟩
  · obtain ⟨i, op | c⟩ := l
    · obtain ⟨hpc, rfl, rfl⟩ := Impl.step_call.1 hs
      exact ⟨ht.call hpc hl, hj.call hpc⟩
    · obtain ⟨o, ho, rfl, rfl⟩ := Impl.step_run.1 hs
      exact ⟨ht.run ho, hj.run ht ho⟩

/-! ## Conservation -/

/-- Every accepted job is in exactly one place: the task queue, the current run or the rest of the
batch of a worker, or the produced results. A result goes to the client of its job and has its
trace. When a call of `shutdown` has returned, no worker has a job. -/
structure Conserved (setup : Setup ι) (h : List (Event ι κ)) (s : State ι κ) : Prop where
  jobs : (accepted h).Perm (s.mem.queue.tasks ++
    ((setup.workers.flatMap fun i => (s.pc i).currentRun ++ (s.pc i).batchBuffer) ++
      (produced h).map Prod.fst))
  carries : ∀ x ∈ produced h, Carries x.1 x.2
  stopped : ∀ i, .ret i .stopped ∈ h → (∀ j, (s.pc j).currentRun = [] ∧ (s.pc j).batchBuffer = []) ∧
    (accepted h).Perm (s.mem.queue.tasks ++ (produced h).map Prod.fst)

/-- **Conservation** of the accepted jobs, in every run of the pool with any threads that push and
pop and one that shuts it down. -/
theorem conserved [DecidableEq κ]
    (hr : (lts κ setup allocator).ReachIf (fun _ s => Roles setup mn s) h s) :
    Conserved setup h s := by
  obtain ⟨ht, hj⟩ := inv hr
  refine ⟨hj.jobs, fun x hx => (hj.made x hx).carries, fun i hi => ?_⟩
  have hhand : ∀ j, (s.pc j).hand = [] := fun j => by
    refine Pc.hand_of_working ?_
    rw [Bool.eq_false_iff]
    intro hw
    rw [ht.ended j (ht.returned i hi j (ht.worker j hw))] at hw
    cases hw
  refine ⟨fun j => List.append_eq_nil_iff.1 (hhand j), ?_⟩
  have hheld : heldBy Pc.hand setup.workers s.pc = [] :=
    List.flatMap_eq_nil_iff.2 fun j _ => hhand j
  simpa only [hheld, List.nil_append] using hj.jobs

end

def job (fd : Int) : Job Nat :=
  { task := { clientFd := fd, data := [1, 2, 3], pre := some 0, post := some 1, trace := none },
    tag := fd.toNat }

/-- An engine for one pixel of three channels, which answers with it. Its session asks for a block;
there is no tensor of a negative dimension. -/
def pixelEngine : InferenceEngine where
  inputShape := [1, 3, 1, 1]
  outputShape := [1, 3]
  transform _ data _ _ _ := some (data.map UInt8.toUInt32)
  createTensor _ shape := shape.all (0 ≤ ·)
  sessionRun _ input := .alloc 64 fun room => if room then .output input else .throws
  handleResults _ output _ := some (output.map UInt32.toUInt8)

def onePod : Setup (Fin 2) where
  workers := [1]
  nodup := by decide
  batchSize := 2
  kind := .naive
  engine _ := pixelEngine

/-- The thread that uses `onePod`, and its worker. -/
def onePod.caller : Fin 2 := 0

def onePod.worker : Fin 2 := 1

def pushJob (fd : Int) : List (Label (Fin 2) Nat) :=
  [(0, .call (.push (job fd))), (0, .run .none)]

/-- The worker takes both jobs and pushes the result of the first. -/
def halfBatch : List (Label (Fin 2) Nat) :=
  [(1, .call .workerLoop), (1, .run .none), (1, .run .take), (1, .run .none), (1, .run .take),
    (1, .run .none), (1, .run .none), (1, .run (.clock 0)), (1, .run (.engine {})),
    (1, .run .none), (1, .run .none)]

def stopPool : List (Label (Fin 2) Nat) :=
  [(0, .call .shutdown), (0, .run .none), (0, .run .none), (0, .run .none)] ++
    [(1, .run (.clock 0)), (1, .run (.engine {})), (1, .run .none), (1, .run .none),
      (1, .run .none), (1, .run .none), (1, .run .none)] ++ List.replicate 2 (0, .run .none)

def result (fd : Int) : InferenceResult := { clientFd := fd, response := [1, 2, 3], trace := none }

/-- The pool is shut down in the middle of a batch of two; a task that comes later stays in the
queue. -/
theorem conserved_halfBatch : ∃ h s,
    (lts Nat onePod fun _ => .standardOrt).ReachIf (fun _ s => Roles onePod 0 s) h s ∧
      h = [.call 0 (.push (job 4)), .obs 0 (.accepted (job 4)), .ret 0 (.pushed true),
        .call 0 (.push (job 5)), .obs 0 (.accepted (job 5)), .ret 0 (.pushed true),
        .call 1 .workerLoop, .obs 1 (.produced (job 4) (result 4)), .call 0 .shutdown,
        .obs 1 (.produced (job 5) (result 5)), .ret 1 .exited, .ret 0 .stopped,
        .call 0 (.push (job 6)), .obs 0 (.accepted (job 6)), .ret 0 (.pushed true)] ∧
      s.mem.queue.tasks = [job 6] ∧ Conserved onePod h s := by
  obtain ⟨s, he, hq⟩ : ∃ s, (lts Nat onePod fun _ => .standardOrt).exec
      (impl Nat onePod fun _ => .standardOrt).init
      (pushJob 4 ++ pushJob 5 ++ halfBatch ++ stopPool ++ pushJob 6) =
        some ([.call 0 (.push (job 4)), .obs 0 (.accepted (job 4)), .ret 0 (.pushed true),
          .call 0 (.push (job 5)), .obs 0 (.accepted (job 5)), .ret 0 (.pushed true),
          .call 1 .workerLoop, .obs 1 (.produced (job 4) (result 4)), .call 0 .shutdown,
          .obs 1 (.produced (job 5) (result 5)), .ret 1 .exited, .ret 0 .stopped,
          .call 0 (.push (job 6)), .obs 0 (.accepted (job 6)), .ret 0 (.pushed true)], s) ∧
      s.mem.queue.tasks = [job 6] := ⟨_, rfl, rfl⟩
  have hr := Lts.ReachIf.along (C := fun _ s => Roles onePod 0 s) (.init rfl) (by decide) he
  exact ⟨_, s, hr, rfl, hq, conserved hr⟩

end Lumen.Concurrency.ThreadPool
