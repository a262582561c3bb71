import Lumen.Memory.Proof.ArenaSizes
import Mathlib.Algebra.BigOperators.Group.List.Basic

/-!
# The same request again

The first reset takes the offset it finds, which the first request has left, as the mark that every
reset goes back to. So a request that has been served first is served again from there
(`serve_between`), and its blocks have to fit a second time above the ones they took (`again_iff`).
-/

set_option autoImplicit false

namespace Lumen.Memory.LumenArena

open Lumen.Lib

/-! ## Requests -/

/-- The allocations of a request, where all of them succeed. -/
def allocs (a : LumenArena) : List Nat → Option LumenArena
  | [] => some a
  | size :: sizes =>
    match a.allocRaw size 64 with
    | (some _, a) => allocs a sizes
    | (none, _) => none

/-- The allocations of a request, whatever they answer, and the reset of `worker_loop`. -/
def serve (a : LumenArena) (sizes : List Nat) : LumenArena :=
  (sizes.foldl (fun a size => (a.allocRaw size 64).2) a).reset

/-- What the blocks of a request take. -/
def footprints (sizes : List Nat) : Nat := (sizes.map footprint).sum

/-- The ends of all blocks, counted from `start`, are within the capacity. -/
def Room (capacity start : Nat) (sizes : List Nat) : Prop :=
  ∀ n ≤ sizes.length, (start + footprints (sizes.take n)) % 2 ^ 64 ≤ capacity

theorem footprints_cons (size : Nat) (sizes : List Nat) :
    footprints (size :: sizes) = footprint size + footprints sizes := by
  simp [footprints]

theorem footprints_mod_64 (sizes : List Nat) : footprints sizes % 64 = 0 := by
  induction sizes with
  | nil => rfl
  | cons size sizes ih =>
    rw [footprints_cons]
    have := footprint_mod_64 size
    omega

theorem room_mod {capacity start : Nat} {sizes : List Nat} :
    Room capacity (start % 2 ^ 64) sizes ↔ Room capacity start sizes := by
  unfold Room
  simp only [Nat.mod_add_mod]

theorem room_cons {capacity start size : Nat} {sizes : List Nat} :
    Room capacity start (size :: sizes) ↔
      start % 2 ^ 64 ≤ capacity ∧ Room capacity (start + footprint size) sizes := by
  constructor
  · intro h
    refine ⟨by simpa [footprints] using h 0 (Nat.zero_le _), fun n hn => ?_⟩
    have := h (n + 1) (by simpa using hn)
    rwa [List.take_succ_cons, footprints_cons, ← Nat.add_assoc] at this
  · intro ⟨h0, h⟩ n hn
    cases n with
    | zero => simpa [footprints] using h0
    | succ n =>
      rw [List.take_succ_cons, footprints_cons, ← Nat.add_assoc]
      exact h n (by simpa using hn)

/-- Where nothing wraps, the last block decides. -/
theorem room_iff {capacity start : Nat} {sizes : List Nat} (h : start + footprints sizes < 2 ^ 64) :
    Room capacity start sizes ↔ start + footprints sizes ≤ capacity := by
  constructor
  · intro hroom
    have := hroom sizes.length (Nat.le_refl _)
    rwa [List.take_length, Nat.mod_eq_of_lt h] at this
  · intro hle n _
    have hsplit : footprints (sizes.take n) + footprints (sizes.drop n) = footprints sizes := by
      rw [footprints, footprints, ← List.sum_append, ← List.map_append, List.take_append_drop]
      rfl
    rw [Nat.mod_eq_of_lt (by omega)]
    omega

/-! ## At the boundaries of the blocks -/

section
variable {alignedAlloc : Nat → Nat → Option Nat} {capacity : Nat} {h : List Event}
  {a a' b : LumenArena} {sizes : List Nat}

/-- Between two calls the offset is a multiple of 64. -/
structure Even (capacity : Nat) (a : LumenArena) : Prop where
  kept : Kept capacity a
  offset : a.offset % 64 = 0

theorem Even.addr_lt (he : Even capacity a) : a.arenaPtr + a.offset < 2 ^ 64 :=
  Nat.lt_of_le_of_lt (Nat.add_le_add_left he.kept.offset_le _) he.kept.wf.fits

theorem Even.offset_lt (he : Even capacity a) : a.offset < 2 ^ 64 :=
  Nat.lt_of_le_of_lt (Nat.le_add_left _ _) he.addr_lt

/-- A block of 64-byte alignment begins at the offset. -/
theorem Even.padding_eq (he : Even capacity a) : a.padding 64 = 0 := by
  have haddr : (a.arenaPtr + a.offset) % 64 = 0 := by
    have := he.kept.wf.base
    have := he.offset
    omega
  have heff : effectiveAlignment 64 = 64 := rfl
  simp only [padding, heff, add64_of_lt he.addr_lt, haddr]
  decide

theorem Even.total_eq (he : Even capacity a) (size : Nat) :
    a.total size 64 = a.offset + footprint size := by
  rw [total, he.padding_eq, Nat.add_zero]

/-- Whatever the alignment, the sum is again a multiple of 64, also where it wraps. -/
theorem Even.allocRaw (he : Even capacity a) (size : Nat) {alignment : Nat}
    (ha : IsAlign alignment) :
    Even capacity (a.allocRaw size alignment).2 := by
  refine ⟨he.kept.allocRaw size alignment, ?_⟩
  rw [allocRaw_total]
  split
  · exact he.offset
  · have hpad := padding_spec ha he.addr_lt
    have hbase := he.kept.wf.base
    have hfoot := footprint_mod_64 size
    show a.total size alignment % 2 ^ 64 % 64 = 0
    unfold total
    omega

/-- The calls that build an engine: the migration and what onnxruntime asks for. -/
def Building (_ : List Event) (_ : LumenArena) (op : Op) : Prop :=
  op ≠ .reset ∧ ∀ q ∈ op.request, IsAlign q.2

/-- An arena as the construction of an engine leaves it. -/
structure Built (capacity : Nat) (a : LumenArena) : Prop where
  even : Even capacity a
  cold : a.warmedUp = false

theorem Built.allocRaw (hb : Built capacity a) (size : Nat) {alignment : Nat}
    (ha : IsAlign alignment) :
    Built capacity (a.allocRaw size alignment).2 := by
  refine ⟨hb.even.allocRaw size ha, ?_⟩
  rw [allocRaw_total]
  split <;> exact hb.cold

theorem Built.step (hb : Built capacity a) {op : Op} (hop : Building h a op) :
    Built capacity (a.step op).2 := by
  obtain ⟨hreset, halign⟩ := hop
  cases op with
  | alloc size => exact answer_snd size _ ▸ hb.allocRaw size isAlign_64
  | ortAlloc size => exact answer_snd size _ ▸ hb.allocRaw size isAlign_64
  | allocTyped count sizeof alignof =>
    exact answer_snd (count * sizeof) _ ▸ hb.allocRaw _ (halign _ rfl)
  | free p => exact hb
  | ortFree p => exact hb
  | reset => exact absurd rfl hreset

theorem built (hc : capacity + safetyMargin + 63 < 2 ^ 64)
    (ha : Aligned alignedAlloc (slabSize capacity))
    (hr : (lts alignedAlloc capacity).ReachIf Building h a) : Built capacity a := by
  refine hr.inv (I := fun _ => Built capacity) (fun a h0 => ?_) fun h a op es a' hb hop hs => ?_
  · have hk := new_kept hc ha h0
    obtain ⟨p, -, rfl⟩ := Option.map_eq_some_iff.1 h0
    exact ⟨⟨hk, rfl⟩, rfl⟩
  · obtain ⟨-, rfl⟩ := Prod.mk.inj (Option.some.inj hs)
    exact hb.step hop

/-! ## One request -/

/-- All allocations succeed exactly if every block ends within the capacity. -/
theorem Even.allocs_iff (he : Even capacity a) :
    (allocs a sizes).isSome ↔ Room a.capacity a.offset sizes := by
  induction sizes generalizing a with
  | nil =>
    refine iff_of_true rfl fun n _ => ?_
    have hzero : footprints (([] : List Nat).take n) = 0 := by simp [footprints]
    rw [hzero, Nat.add_zero, Nat.mod_eq_of_lt he.offset_lt]
    exact he.kept.offset_le
  | cons size sizes ih =>
    have hle := he.kept.offset_le
    have hnext := he.allocRaw size isAlign_64
    rw [room_cons, Nat.mod_eq_of_lt he.offset_lt, and_iff_right hle, allocs]
    rw [allocRaw_total, he.total_eq] at hnext ⊢
    by_cases hc : (a.offset + footprint size) % 2 ^ 64 > a.capacity
    · rw [if_pos hc]
      refine iff_of_false (by simp) fun hroom => ?_
      have := hroom 0 (Nat.zero_le _)
      simp only [List.take_zero, footprints, List.map_nil, List.sum_nil, Nat.add_zero] at this
      omega
    · rw [if_neg hc] at hnext ⊢
      exact (ih hnext).trans room_mod

/-- The mark and the block boundaries after a request that has been served in full. -/
theorem Even.allocs_eq (he : Even capacity a) (hs : allocs a sizes = some a') :
    a' = { a with offset := (a.offset + footprints sizes) % 2 ^ 64 } ∧
      sizes.foldl (fun a size => (a.allocRaw size 64).2) a = a' := by
  induction sizes generalizing a with
  | nil =>
    obtain rfl := Option.some.inj hs
    have hoff : (a.offset + footprints []) % 2 ^ 64 = a.offset := Nat.mod_eq_of_lt he.offset_lt
    exact ⟨by rw [hoff], rfl⟩
  | cons size sizes ih =>
    have hnext := he.allocRaw size isAlign_64
    rw [List.foldl_cons]
    rw [allocs] at hs
    rw [allocRaw_total, he.total_eq] at hs hnext ⊢
    by_cases hc : (a.offset + footprint size) % 2 ^ 64 > a.capacity
    · rw [if_pos hc] at hs
      cases hs
    · rw [if_neg hc] at hs hnext ⊢
      obtain ⟨heq, hfold⟩ := ih hnext hs
      refine ⟨heq.trans ?_, hfold⟩
      simp only [footprints_cons, Nat.mod_add_mod, Nat.add_assoc]

/-! ## Requests one after another -/

theorem Marked.foldl (hm : Marked b a) :
    Marked b (sizes.foldl (fun a size => (a.allocRaw size 64).2) a) := by
  induction sizes generalizing a with
  | nil => exact hm
  | cons size sizes ih =>
    refine ih ?_
    have := hm.step (.alloc size)
    rwa [LumenArena.step, answer_snd] at this

/-- A later request leaves the arena as it was before. -/
theorem serve_reset (a : LumenArena) (sizes : List Nat) : serve a.reset sizes = a.reset :=
  (marked_reset a).foldl.reset_eq

theorem serve_between (a : LumenArena) (sizes : List Nat) (between : List (List Nat)) :
    (sizes :: between).foldl serve a = serve a sizes := by
  rw [List.foldl_cons]
  induction between with
  | nil => rfl
  | cons request between ih =>
    have hkeep : serve (serve a sizes) request = serve a sizes := serve_reset _ request
    rw [List.foldl_cons, hkeep]
    exact ih

/-- The state that every later request starts from. -/
theorem Built.serve_eq (hb : Built capacity a) (hs : (allocs a sizes).isSome) :
    Even capacity (serve a sizes) ∧ (serve a sizes).capacity = a.capacity ∧
      (serve a sizes).offset = (a.offset + footprints sizes) % 2 ^ 64 := by
  obtain ⟨a', hs⟩ := Option.isSome_iff_exists.1 hs
  obtain ⟨heq, hfold⟩ := hb.even.allocs_eq hs
  have hroom := hb.even.allocs_iff.1 (Option.isSome_iff_exists.2 ⟨a', hs⟩)
  have hle := hroom sizes.length (Nat.le_refl _)
  rw [List.take_length] at hle
  have hfoot := footprints_mod_64 sizes
  have hoff := hb.even.offset
  have hk := hb.even.kept
  rw [serve, hfold, heq, LumenArena.reset, if_neg (by simp [hb.cold])]
  refine ⟨⟨⟨⟨hk.wf.base, hk.wf.fits⟩, hk.capacity_eq, hle, hle⟩, ?_⟩, rfl, rfl⟩
  simp only
  omega

/-! ## The theorem -/

/-- **The same request again**: a request whose allocations all succeed as the first one of an arena
succeeds as a later one, whatever came between, exactly if its blocks fit a second time above those
it took at first; where no sum wraps, that is twice its footprint in the capacity that the
construction of the engine has left. -/
theorem again_iff (hc : capacity + safetyMargin + 63 < 2 ^ 64)
    (ha : Aligned alignedAlloc (slabSize capacity))
    (hr : (lts alignedAlloc capacity).ReachIf Building h a) (hfirst : (allocs a sizes).isSome) :
    (∀ between, (allocs ((sizes :: between).foldl serve a) sizes).isSome ↔
      Room capacity (a.offset + footprints sizes) sizes) ∧
    (a.offset + 2 * footprints sizes < 2 ^ 64 →
      (Room capacity (a.offset + footprints sizes) sizes ↔
        a.offset + 2 * footprints sizes ≤ capacity)) := by
  have hb := built hc ha hr
  obtain ⟨heven, hcap, hoff⟩ := hb.serve_eq hfirst
  constructor
  · intro between
    rw [serve_between, heven.allocs_iff, hoff, hcap, hb.even.kept.capacity_eq]
    exact room_mod
  · intro hlt
    rw [room_iff (by omega), Nat.add_assoc, ← Nat.two_mul]

end

/-- The migration of a model with one input of four dimensions and one output of two, which
takes 640 bytes. -/
def building : List Op :=
  List.replicate 6 (.allocTyped 1 8 8) ++
    [.allocTyped 2 1 1, .allocTyped 4 8 8, .allocTyped 2 1 1, .allocTyped 2 8 8]

/-- An arena of 64 MiB at the address 4096 after that. -/
theorem building_reach : ∃ h, (lts (fun _ _ => some 4096) (64 * 1024 * 1024)).ReachIf Building h
    ⟨4096, 64 * 1024 * 1024, 640, 0, false⟩ := by
  have h0 : (lts (fun _ _ => some 4096) (64 * 1024 * 1024)).ReachIf Building []
      ⟨4096, 64 * 1024 * 1024, 0, 0, false⟩ := .init rfl
  have hrun : (lts (fun _ _ => some 4096) (64 * 1024 * 1024)).exec
      ⟨4096, 64 * 1024 * 1024, 0, 0, false⟩ building =
      some (_, ⟨4096, 64 * 1024 * 1024, 640, 0, false⟩) := rfl
  refine ⟨_, h0.exec (fun op hop _ _ => ?_) hrun⟩
  have halign : IsAlign 8 ∧ IsAlign 1 := ⟨⟨3, by decide, rfl⟩, ⟨0, by decide, rfl⟩⟩
  simp only [building, List.mem_append, List.mem_replicate, List.mem_cons, List.not_mem_nil] at hop
  rcases hop with ⟨-, rfl⟩ | rfl | rfl | rfl | rfl | hop
  all_goals first
    | exact hop.elim
    | (refine ⟨by simp, fun q hq => ?_⟩
       obtain rfl := Option.some.inj hq
       first | exact halign.1 | exact halign.2)

/-- The two buffers of a small model fit again. -/
theorem again_small : ∃ h, (lts (fun _ _ => some 4096) (64 * 1024 * 1024)).ReachIf Building h
      ⟨4096, 64 * 1024 * 1024, 640, 0, false⟩ ∧
    (allocs (([602112, 4000] :: []).foldl serve ⟨4096, 64 * 1024 * 1024, 640, 0, false⟩)
      [602112, 4000]).isSome := by
  obtain ⟨h, hr⟩ := building_reach
  have ha : Aligned (fun _ _ => some 4096) (slabSize (64 * 1024 * 1024)) := by
    intro p hp
    obtain rfl : p = 4096 := (Option.some.inj hp).symm
    decide
  have hfirst : (allocs ⟨4096, 64 * 1024 * 1024, 640, 0, false⟩ [602112, 4000]).isSome := by decide
  obtain ⟨hagain, hroom⟩ := again_iff (by decide) ha hr hfirst
  exact ⟨h, hr, (hagain []).2 ((hroom (by decide)).2 (by decide))⟩

/-- A buffer of 40 MiB fits into the arena of a pod as the first request, and never again. -/
theorem again_exhausted :
    (∃ h, (lts (fun _ _ => some 4096) (64 * 1024 * 1024)).ReachIf Building h
      ⟨4096, 64 * 1024 * 1024, 640, 0, false⟩) ∧
    (allocs ⟨4096, 64 * 1024 * 1024, 640, 0, false⟩ [40 * 1024 * 1024]).isSome ∧
    ¬ (allocs (serve ⟨4096, 64 * 1024 * 1024, 640, 0, false⟩ [40 * 1024 * 1024])
      [40 * 1024 * 1024]).isSome :=
  ⟨building_reach, by decide, by decide⟩

end Lumen.Memory.LumenArena
