import Lumen.Concurrency.Proof.MPMCInv
import Mathlib.Logic.Relation

/-!
# The cells of `MPMCTaskQueue`

Between the compare-exchange that wins a ticket and the store that gives its cell back a thread has
the cell for itself (`Inv.ticket_unique`), and only such a thread changes a cell (`run_buffer`). So
the sequence of a cell goes through its turns (`Turn`): free for a ticket, holding it, free for the
ticket of the next lap. `cells` is all of this, in every run.
-/

set_option autoImplicit false

namespace Lumen.Concurrency.MPMCTaskQueue

open Lumen.Lib Lumen.Lib.Shared Lumen.Core ITaskQueue

variable {ι : Type*}

/-- The ticket the thread has won, on `tail` or on `head`, and whose cell it has not given back. -/
def Pc.ticket (p : Pc) : Option Nat := p.tailTicket.or p.headTicket

/-- How the sequence of the cell `k` changes: a cell free for `t` then holds `t`, and a cell that
holds `t` is then free for the ticket of the next lap. -/
inductive Turn (k : Nat) : Nat → Nat → Prop
  | publish {t : Nat} : t % 1024 = k → Turn k t (t + 1)
  | release {t : Nat} : t % 1024 = k → Turn k (t + 1) (t + 1024)

namespace Turn

variable {k v v' : Nat}

theorem lt (h : Turn k v v') : v < v' := by
  cases h <;> omega

/-- Along the turns a sequence grows. -/
theorem trans_le (h : Relation.ReflTransGen (Turn k) v v') : v ≤ v' := by
  induction h with
  | refl => exact Nat.le_refl v
  | tail _ h ih => exact Nat.le_trans ih (Nat.le_of_lt h.lt)

end Turn

/-! ## Tickets -/

theorem Pc.ticket_eq_some {p : Pc} {t : Nat} (h : p.ticket = some t) :
    p.tailTicket = some t ∨ p.headTicket = some t := by
  unfold Pc.ticket at h
  rcases Option.or_eq_some_iff.1 h with h | ⟨-, h⟩
  · exact .inl h
  · exact .inr h

section
variable {W : List (ι × InferenceTask)} {H : List ι} {s : State ι} {i j : ι} {t u k : Nat}

/-- Two threads never work on the same cell. -/
theorem Inv.ticket_unique (hi : Inv W H s) (h1 : (s.pc i).ticket = some t)
    (h2 : (s.pc j).ticket = some u) (hc : t % 1024 = u % 1024) : i = j := by
  rcases Pc.ticket_eq_some h1 with h1 | h1 <;> rcases Pc.ticket_eq_some h2 with h2 | h2
  · exact hi.producer_unique h1 h2 hc
  · exact absurd hc (hi.producer_consumer h1 h2)
  · exact absurd hc.symm (hi.producer_consumer h2 h1)
  · exact hi.consumer_unique h1 h2 hc

/-- A sequence is that of a cell free for a ticket or holding one. -/
theorem Inv.seq_residue (hi : Inv W H s) (k : Nat) :
    s.mem.seq k % 1024 = k % 1024 ∨ s.mem.seq k % 1024 = (k + 1) % 1024 := by
  have hcap : capacity = 1024 := rfl
  obtain ⟨k', hk, -, -, ⟨-, ⟨-, -, hs⟩ | hs⟩ | ⟨-, hs | ⟨-, j, -, he, hs⟩⟩⟩ := hi.seq_cases k <;>
    omega

end

/-- What an access does to the cells: nothing, or it writes the task or the sequence of the cell
whose ticket the thread has. -/
theorem run_buffer {m : Mem} {weak : Bool} {p : Pc} {o : Outcome} (ho : run m weak p = some o) :
    o.mem.buffer = m.buffer ∨ ∃ t, p.ticket = some t ∧
      ((∃ task, o.mem = m.setData t task) ∨
        (p.tailTicket = some t ∧ o.mem = m.setSequence t (add64 t 1)) ∨
        (p.headTicket = some t ∧ o.mem = m.setSequence t (add64 t capacity))) := by
  cases p <;> simp only [run] at ho
  case pushData task t =>
    cases ho
    exact .inr ⟨t, rfl, .inl ⟨task, rfl⟩⟩
  case pushPublish t =>
    cases ho
    exact .inr ⟨t, rfl, .inr (.inl ⟨rfl, rfl⟩)⟩
  case popData ctx h =>
    cases ho
    exact .inr ⟨h, rfl, .inl ⟨_, rfl⟩⟩
  case popPublish ctx h task =>
    cases ho
    cases ctx <;> exact .inr ⟨h, rfl, .inr (.inr ⟨rfl, rfl⟩)⟩
  all_goals
    (repeat' split at ho) <;> cases ho <;> exact .inl rfl

/-! ## Every step -/

section
variable [DecidableEq ι] {h es : List (Event ι Obs)} {s s' : State ι} {l : ι × Act Bool} {k : Nat}

/-- Only the thread that has its ticket changes a cell. -/
theorem step_cell (hs : (impl ι).step s l = some (es, s')) (hne : s'.mem.cell k ≠ s.mem.cell k) :
    ∃ i c t, l = (i, .run c) ∧ (s.pc i).ticket = some t ∧ t % 1024 = k % 1024 := by
  obtain ⟨i, op | c⟩ := l
  · obtain ⟨-, -, rfl⟩ := Impl.step_call.1 hs
    exact absurd rfl hne
  · obtain ⟨o, ho, -, rfl⟩ := Impl.step_run.1 hs
    rcases run_buffer ho with hb | ⟨t, ht, hcase⟩
    · exact absurd (by simp only [Mem.cell, hb]) hne
    · refine ⟨i, c, t, rfl, ht, ?_⟩
      refine Decidable.byContradiction fun hk => hne ?_
      have hk' : ¬ k % 1024 = t % 1024 := fun h => hk h.symm
      rcases hcase with ⟨task, ho⟩ | ⟨-, ho⟩ | ⟨-, ho⟩
      · simp only [ho, cell_setData, if_neg hk']
      · simp only [ho, cell_setSequence, if_neg hk']
      · simp only [ho, cell_setSequence, if_neg hk']

/-- A step leaves the sequence of a cell as it is, or the cell has its next turn. -/
theorem step_turn (hi : Inv (tailWins h) (headWins h) s) (hb : (tailWins h).length < 2 ^ 63)
    (hs : (impl ι).step s l = some (es, s')) (k : Nat) :
    s'.mem.seq k = s.mem.seq k ∨ Turn (k % 1024) (s.mem.seq k) (s'.mem.seq k) := by
  have hcap : capacity = 1024 := rfl
  have hlen := hi.tail_eq
  have hle := hi.head_le
  obtain ⟨i, op | c⟩ := l
  · obtain ⟨-, -, rfl⟩ := Impl.step_call.1 hs
    exact .inl rfl
  · obtain ⟨o, ho, -, rfl⟩ := Impl.step_run.1 hs
    rcases run_buffer ho with hbuf | ⟨t, -, ⟨task, ho⟩ | ⟨ht, ho⟩ | ⟨ht, ho⟩⟩
    · exact .inl (by simp only [Mem.seq, Mem.cell, hbuf])
    · exact .inl (by simp only [ho, seq_setData])
    · obtain ⟨-, hlt, hseq, -⟩ := hi.producer ht
      simp only [ho, seq_setSequence]
      split
      · rename_i hk
        rw [seq_congr s.mem hk, hseq, add64_of_lt (by omega)]
        exact .inr (.publish hk.symm)
      · exact .inl rfl
    · obtain ⟨hlt, -, hseq, -⟩ := hi.consumer ht
      simp only [ho, seq_setSequence]
      split
      · rename_i hk
        rw [seq_congr s.mem hk, hseq, add64_of_lt (by omega)]
        exact .inr (.release hk.symm)
      · exact .inl rfl

/-- From the start a cell has gone through its turns. -/
theorem reach_turns (hr : (lts ι).Reach h s) (hb : (tailWins h).length < 2 ^ 63) (hk : k < 1024) :
    Relation.ReflTransGen (Turn k) k (s.mem.seq k) := by
  refine Lts.Reach.inv_while (I := fun _ s => Relation.ReflTransGen (Turn k) k (s.mem.seq k))
    (B := fun h _ => (tailWins h).length < 2 ^ 63) ?_ ?_ ?_ hr hb
  · intro h s l es s' _ hb
    rw [tailWins_append, List.length_append] at hb
    omega
  · intro s h0
    obtain rfl : s = (impl ι).init := h0
    have hseq : (impl ι).init.mem.seq k = k := by
      show k &&& mask = k
      rw [and_mask_eq, Nat.mod_eq_of_lt hk]
    rw [hseq]
  · intro h s l es s' hr hb ih hs
    have hb0 : (tailWins h).length < 2 ^ 63 := by
      rw [tailWins_append, List.length_append] at hb
      omega
    rcases step_turn (inv hr hb0) hb0 hs k with heq | hturn
    · rwa [heq]
    · rw [Nat.mod_eq_of_lt hk] at hturn
      exact ih.tail hturn

/-- Along a run a cell goes through its turns. -/
theorem exec_turns {ls : List (ι × Act Bool)} (hr : (lts ι).Reach h s)
    (he : (lts ι).exec s ls = some (es, s')) (hb : (tailWins (h ++ es)).length < 2 ^ 63) (k : Nat) :
    Relation.ReflTransGen (Turn (k % 1024)) (s.mem.seq k) (s'.mem.seq k) := by
  induction ls generalizing s h es with
  | nil =>
    cases he
    exact .refl
  | cons l ls ih =>
    obtain ⟨es1, s1, h2, hs, he', rfl⟩ := Lts.exec_cons.1 he
    rw [← List.append_assoc] at hb
    have hb0 : (tailWins h).length < 2 ^ 63 := by
      simp only [tailWins_append, List.length_append] at hb
      omega
    have hturns := ih (hr.step hs) he' hb
    rcases step_turn (inv hr hb0) hb0 hs k with heq | hturn
    · rwa [heq] at hturns
    · exact .head hturn hturns

/-- **Cell access is exclusive.** In every reachable state a cell is in the hands of at most one
thread, and only that thread changes it. The sequence of the cell `k` is `k` or `k + 1` modulo
`1024`; it has come from `k` by turns, and goes on by turns in every run, so it never decreases. -/
theorem cells (hr : (lts ι).Reach h s) (hb : (tailWins h).length < 2 ^ 63) :
    (∀ i j t u, (s.pc i).ticket = some t → (s.pc j).ticket = some u → t % 1024 = u % 1024 → i = j) ∧
    (∀ l es s' k, (impl ι).step s l = some (es, s') → s'.mem.cell k ≠ s.mem.cell k →
      ∃ i c t, l = (i, .run c) ∧ (s.pc i).ticket = some t ∧ t % 1024 = k % 1024) ∧
    ∀ k < 1024, (s.mem.seq k % 1024 = k ∨ s.mem.seq k % 1024 = (k + 1) % 1024) ∧
      Relation.ReflTransGen (Turn k) k (s.mem.seq k) ∧
      (∀ l es s', (impl ι).step s l = some (es, s') →
        s'.mem.seq k = s.mem.seq k ∨ Turn k (s.mem.seq k) (s'.mem.seq k)) ∧
      ∀ ls h' s', (lts ι).exec s ls = some (h', s') → (tailWins (h ++ h')).length < 2 ^ 63 →
        s.mem.seq k ≤ s'.mem.seq k := by
  have hi := inv hr hb
  refine ⟨fun i j t u => hi.ticket_unique, fun l es s' k => step_cell, ?_⟩
  intro k hk
  have hmod : k % 1024 = k := Nat.mod_eq_of_lt hk
  refine ⟨?_, ?_, ?_, ?_⟩
  · have := hi.seq_residue k
    rwa [hmod] at this
  · exact reach_turns hr hb hk
  · intro l es s' hs
    have := step_turn hi hb hs k
    rwa [hmod] at this
  · intro ls h' s' he hb'
    exact Turn.trans_le (exec_turns hr he hb' k)

/-- A producer and a consumer are at work, each on its cell; the cell `0` has had a turn. -/
theorem cells_run : ∃ h s, (lts Bool).Reach h s ∧ (tailWins h).length < 2 ^ 63 ∧
    (s.pc false).ticket = some 1 ∧ (s.pc true).ticket = some 0 ∧ s.mem.seq 0 = 1 ∧
    (s.mem.seq 0 % 1024 = 0 ∨ s.mem.seq 0 % 1024 = (0 + 1) % 1024) := by
  have hrun : ((lts Bool).exec (impl Bool).init
      ([(false, .call (.push .empty))] ++ List.replicate 6 (false, .run false) ++
        [(true, .call .pop)] ++ List.replicate 3 (true, .run false) ++
        [(false, .call (.push .empty))] ++ List.replicate 4 (false, .run false))).map
        (fun r => ((tailWins r.1).length, (r.2.pc false).ticket, (r.2.pc true).ticket,
          r.2.mem.seq 0)) = some (2, some 1, some 0, 1) := rfl
  obtain ⟨⟨h, s⟩, he, heq⟩ := Option.map_eq_some_iff.1 hrun
  have hr : (lts Bool).Reach h s := Lts.Reach.of_exec rfl he
  simp only [Prod.mk.injEq] at heq
  obtain ⟨hlen, h1, h2, h3⟩ := heq
  have hb : (tailWins h).length < 2 ^ 63 := by rw [hlen]; decide
  exact ⟨h, s, hr, hb, h1, h2, h3, ((cells hr hb).2.2 0 (by decide)).1⟩

end
end Lumen.Concurrency.MPMCTaskQueue
