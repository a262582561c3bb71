import Lumen.Concurrency.Proof.MPMCSeq
import Mathlib.Data.Nat.Find

/-!
# A consumer of `MPMCTaskQueue` among threads that do not move

Producers may have won tickets that they have not published, and consumers tickets that they have
not released. `Offers q m`: from the ticket of `head` on, the cells of the tasks of `q` are
published, and the next one is not. A consumer that runs alone takes these tasks one after the other
(`alone`); every reachable state offers some list (`offers_of_reach`), which holds the front as soon
as that is published.
-/

set_option autoImplicit false

namespace Lumen.Concurrency.MPMCTaskQueue

open Lumen.Lib Lumen.Lib.Shared Lumen.Core ITaskQueue

structure Offers (q : Fifo) (m : Mem) : Prop where
  le_cap : q.tasks.length ≤ 1024
  stored : ∀ j, j < q.tasks.length →
    m.seq (m.head + j) = (m.head + j + 1) % 2 ^ 64 ∧ q.tasks[j]? = some (m.data (m.head + j))
  ends : sdiff64 (m.seq (m.head + q.tasks.length)) (m.head + q.tasks.length + 1) < 0

variable {q : Fifo} {m : Mem}

/-! ## The accesses of a pop -/

/-- The memory after the three accesses of a pop that has won `head`. -/
def Mem.popped (m : Mem) (x : InferenceTask) : Mem :=
  (({ m with head := add64 m.head 1 } : Mem).setData m.head x).setSequence m.head
    (add64 m.head capacity)

theorem head_popped (m : Mem) (x : InferenceTask) : (m.popped x).head = (m.head + 1) % 2 ^ 64 := rfl

theorem seq_popped (m : Mem) (x : InferenceTask) (k : Nat) : (m.popped x).seq k =
    if k % 1024 = m.head % 1024 then (m.head + 1024) % 2 ^ 64 else m.seq k := by
  rw [Mem.popped, seq_setSequence, seq_setData]
  rfl

theorem data_popped (m : Mem) (x : InferenceTask) {k : Nat} (hk : k % 1024 ≠ m.head % 1024) :
    (m.popped x).data k = m.data k := by
  rw [Mem.popped, data_setSequence, data_setData, if_neg hk]
  rfl

theorem Offers.pop (h : Offers q m) (hq : q.tasks ≠ []) (x : InferenceTask) :
    ∃ rest, q.tasks = m.data m.head :: rest ∧ Offers { q with tasks := rest } (m.popped x) := by
  obtain ⟨y, rest, hc⟩ := List.exists_cons_of_ne_nil hq
  have hcap := h.le_cap
  have hlen : q.tasks.length = rest.length + 1 := by rw [hc, List.length_cons]
  have hy : y = m.data m.head := by
    have := (h.stored 0 (by omega)).2
    simpa [hc] using this
  refine ⟨rest, by rw [hc, hy], by simp only; omega, fun j hj => ?_, ?_⟩
  · -- the task after the front
    simp only at hj ⊢
    rw [head_popped]
    have hne : ¬ ((m.head + 1) % 2 ^ 64 + j) % 1024 = m.head % 1024 := by omega
    have heq : ((m.head + 1) % 2 ^ 64 + j) % 1024 = (m.head + (j + 1)) % 1024 := by omega
    obtain ⟨hs, hd⟩ := h.stored (j + 1) (by omega)
    rw [hc, List.getElem?_cons_succ] at hd
    rw [seq_popped, if_neg hne, data_popped m x hne, seq_congr m heq, data_congr m heq, hs, hd]
    exact ⟨by omega, rfl⟩
  · -- the cell behind the last task, which is the one just released where all cells were published
    simp only
    rw [head_popped, seq_popped]
    by_cases hfull : rest.length = 1023
    · have heq : ((m.head + 1) % 2 ^ 64 + rest.length) % 1024 = m.head % 1024 := by omega
      rw [if_pos heq, ← sdiff64_mod, Nat.mod_mod,
        show ((m.head + 1) % 2 ^ 64 + rest.length + 1) % 2 ^ 64 = (m.head + 1025) % 2 ^ 64 by omega,
        sdiff64_mod, sdiff64_eq (by omega) (by omega)]
      omega
    · have hne : ¬ ((m.head + 1) % 2 ^ 64 + rest.length) % 1024 = m.head % 1024 := by omega
      have heq : ((m.head + 1) % 2 ^ 64 + rest.length) % 1024 =
          (m.head + q.tasks.length) % 1024 := by omega
      have hends := h.ends
      rw [if_neg hne, seq_congr m heq, ← sdiff64_mod,
        show ((m.head + 1) % 2 ^ 64 + rest.length + 1) % 2 ^ 64 =
          (m.head + q.tasks.length + 1) % 2 ^ 64 by omega, sdiff64_mod]
      exact hends

theorem Offers.head_neg (h : Offers q m) (hq : q.tasks = []) :
    sdiff64 (m.cell m.head).sequence (add64 m.head 1) < 0 := by
  have hends := h.ends
  rw [hq, List.length_nil, Nat.add_zero] at hends
  rw [← sdiff64_mod, add64, Nat.mod_mod, sdiff64_mod]
  exact hends

theorem Offers.head_zero (h : Offers q m) (hq : q.tasks ≠ []) :
    sdiff64 (m.cell m.head).sequence (add64 m.head 1) = 0 := by
  have hs : (m.cell m.head).sequence = add64 m.head 1 := (h.stored 0 (List.length_pos_iff.2 hq)).1
  rw [hs, sdiff64_eq (by omega) (by omega), Int.sub_self]

theorem Offers.pops : Pops Offers where
  none h hq := h.head_neg hq
  some h hq := h.head_zero hq
  pop h hq x := h.pop hq x

/-- The calls that pop. -/
def IsPop (_ : Fifo) (op : Op) : Prop := op = .pop ∨ ∃ max, op = .popBatch max

/-- A consumer that runs alone takes what a list would give it. -/
theorem alone {ι : Type*} [DecidableEq ι] (cap : Option Nat) :
    Alone (impl ι) false (Fifo.apply cap) IsPop Offers := by
  refine .of_stages (PopStage Offers) rank (fun q op m hR hok => ?_)
    (fun i q op m p c o hst ho => popStage_run Offers.pops cap hst ho)
    fun i q op m p hst => run_enabled (fun hp => ?_) false
  · obtain rfl | ⟨max, rfl⟩ := hok
    · exact ⟨trivial, q, ⟨rfl, rfl⟩, hR⟩
    · exact ⟨q, rfl, .refl q, Nat.zero_le max, hR⟩
  · subst hp
    exact hst

/-- With no call in flight, the list that the ring stands for is offered. -/
theorem Rep.offers (h : Rep q m) : Offers q m := by
  have hadd := front_add h.length_le
  have hcap := h.le_cap
  have hhead := h.head_eq
  refine ⟨hcap, fun j hj => ?_, ?_⟩
  · have hslot : (m.head + j) % 1024 = (front q + j) % 1024 := by omega
    obtain ⟨hs, hd⟩ := h.stored (front q + j) (Nat.le_add_right _ _) (by omega)
    rw [Nat.add_sub_cancel_left] at hd
    rw [seq_congr m hslot, data_congr m hslot, hs]
    exact ⟨by omega, hd⟩
  · have hslot : (m.head + q.tasks.length) % 1024 = q.pushed % 1024 := by omega
    have hnext : (m.head + q.tasks.length + 1) % 2 ^ 64 = (q.pushed + 1) % 2 ^ 64 := by omega
    rw [seq_congr m hslot, ← sdiff64_mod, hnext]
    by_cases hfull : q.tasks.length = 1024
    · rw [seq_congr m (show q.pushed % 1024 = front q % 1024 by omega),
        (h.stored (front q) (Nat.le_refl _) (by omega)).1, Nat.mod_mod, sdiff64_mod,
        sdiff64_neg (by omega) (by omega)]
      omega
    · rw [h.free q.pushed (Nat.le_refl _) (by omega), Nat.mod_mod, sdiff64_mod,
        sdiff64_neg (by omega) (by omega)]
      omega

/-! ## Reachable states -/

section
variable {ι : Type*} {W : List (ι × InferenceTask)} {H : List ι} {s : State ι}

/-- The cell of `tail`, or of a ticket below it that is not published, is behind what a consumer
expects there. -/
theorem Inv.unpublished (hi : Inv W H s) {k : Nat} (hk : s.mem.head ≤ k) (hkt : k ≤ s.mem.tail)
    (hne : k < s.mem.tail → s.mem.seq k ≠ k + 1) : sdiff64 (s.mem.seq k) (k + 1) < 0 := by
  have hcap : capacity = 1024 := rfl
  have hle := hi.tail_le
  obtain ⟨k', hc, h1, h2, hcase⟩ := hi.seq_cases k
  have hs : s.mem.seq k < k + 1 := by
    obtain ⟨h3, ⟨-, -, hs⟩ | hs⟩ | ⟨h3, hs | ⟨-, j, -, he, hs⟩⟩ := hcase <;> omega
  rw [sdiff64_neg (by omega) (by omega)]
  exact hs

/-- The tickets from the front on that are published, up to the first that is not. -/
theorem Inv.offers (hi : Inv W H s) (hb : s.mem.tail < 2 ^ 63) : ∃ q, Offers q s.mem := by
  have hle := hi.head_le
  have hcap := hi.tail_le
  -- the first offset at which no published ticket stands
  have hex : ∃ n, s.mem.head + n < s.mem.tail →
      s.mem.seq (s.mem.head + n) ≠ s.mem.head + n + 1 :=
    ⟨s.mem.tail - s.mem.head, fun h => by omega⟩
  obtain ⟨n, hend, hmin⟩ := Nat.findX hex
  have hn : s.mem.head + n ≤ s.mem.tail := by
    by_contra hlt
    exact hmin (s.mem.tail - s.mem.head) (by omega) fun h => by omega
  have hpub : ∀ j, j < n → s.mem.seq (s.mem.head + j) = s.mem.head + j + 1 := fun j hj =>
    Decidable.byContradiction fun hne => hmin j hj fun _ => hne
  refine ⟨{ tasks := (List.range n).map fun j => s.mem.data (s.mem.head + j) }, ?_, ?_, ?_⟩
  · rw [List.length_map, List.length_range]
    exact Nat.le_of_add_le_add_left (Nat.le_trans hn hcap)
  · intro j hj
    rw [List.length_map, List.length_range] at hj
    refine ⟨?_, ?_⟩
    · rw [hpub j hj, Nat.mod_eq_of_lt (by omega)]
    · rw [List.getElem?_map, List.getElem?_range hj, Option.map_some]
  · rw [List.length_map, List.length_range]
    exact hi.unpublished (Nat.le_add_right _ _) hn hend

theorem offers_of_reach [DecidableEq ι] {h : List (Event ι Obs)} (hr : (lts ι).Reach h s)
    (hb : (tailWins h).length < 2 ^ 63) : ∃ q, Offers q s.mem :=
  (inv hr hb).offers ((inv hr hb).tail_eq ▸ hb)

end

end Lumen.Concurrency.MPMCTaskQueue
