import Lumen.Memory.Proof.ArenaInv

/-!
# Requests of every size

`alloc_raw` computes the offset after a block modulo `2 ^ 64` and compares that with the capacity
(`allocRaw_total`). `Answers` is what a request of any size should get; it is right exactly where
the sum does not wrap or is still above the capacity after it has (`Unwrapped`). `Kept` is what
every run keeps, whatever its calls ask for.
-/

set_option autoImplicit false

namespace Lumen.Memory.LumenArena

open Lumen.Lib

/-! ## The sum that is tested -/

/-- The size rounded up to a multiple of 64, as a number. -/
def footprint (size : Nat) : Nat := (size + 63) / 64 * 64

/-- Where a block would end, as a number. -/
def total (a : LumenArena) (size alignment : Nat) : Nat :=
  a.offset + a.padding alignment + footprint size

theorem le_footprint (size : Nat) : size ≤ footprint size := by
  unfold footprint
  omega

theorem footprint_mod_64 (size : Nat) : footprint size % 64 = 0 := Nat.mul_mod_left _ _

theorem roundUp_mod (n : Nat) : roundUp n = footprint n % 2 ^ 64 := by
  have hlt : add64 n 63 < 2 ^ 64 := Nat.mod_lt _ (by decide)
  have hmask : roundUp n = add64 n 63 / 64 * 64 := and_not_mask (k := 6) hlt (by decide)
  rw [hmask]
  unfold add64 footprint
  omega

theorem allocRaw_total (a : LumenArena) (size alignment : Nat) :
    a.allocRaw size alignment =
      if a.total size alignment % 2 ^ 64 > a.capacity then (none, a)
      else (some (add64 (add64 a.arenaPtr a.offset) (a.padding alignment)),
        { a with offset := a.total size alignment % 2 ^ 64 }) := by
  have hsum : add64 (add64 a.offset (a.padding alignment)) (roundUp size) =
      a.total size alignment % 2 ^ 64 := by
    rw [roundUp_mod]
    unfold add64 total
    omega
  have hnext : add64 a.offset (add64 (a.padding alignment) (roundUp size)) =
      a.total size alignment % 2 ^ 64 := by
    rw [roundUp_mod]
    unfold add64 total
    omega
  simp only [allocRaw, hsum, hnext]

/-! ## What every run keeps -/

/-- Nothing is assumed of the sizes. -/
structure Kept (capacity : Nat) (a : LumenArena) : Prop where
  wf : Wf a
  capacity_eq : a.capacity = capacity
  offset_le : a.offset ≤ a.capacity
  mark_le : a.warmupOffset ≤ a.capacity

section
variable {alignedAlloc : Nat → Nat → Option Nat} {capacity : Nat} {h : List Event} {a : LumenArena}

theorem Kept.allocRaw (hk : Kept capacity a) (size alignment : Nat) :
    Kept capacity (a.allocRaw size alignment).2 := by
  rw [allocRaw_total]
  split
  · exact hk
  · rename_i hc
    exact ⟨⟨hk.wf.base, hk.wf.fits⟩, hk.capacity_eq, Nat.le_of_not_lt hc, hk.mark_le⟩

theorem answer_snd (size : Nat) (r : Option Nat × LumenArena) : (answer size r).2 = r.2 := by
  unfold answer
  split <;> rfl

theorem Kept.reset (hk : Kept capacity a) : Kept capacity a.reset := by
  unfold LumenArena.reset
  split
  · exact ⟨⟨hk.wf.base, hk.wf.fits⟩, hk.capacity_eq, hk.mark_le, hk.mark_le⟩
  · exact ⟨⟨hk.wf.base, hk.wf.fits⟩, hk.capacity_eq, hk.offset_le, hk.offset_le⟩

theorem Kept.step (hk : Kept capacity a) (op : Op) : Kept capacity (a.step op).2 := by
  cases op with
  | alloc size => exact answer_snd size _ ▸ hk.allocRaw size 64
  | ortAlloc size => exact answer_snd size _ ▸ hk.allocRaw size 64
  | allocTyped count sizeof alignof =>
    exact answer_snd (count * sizeof) _ ▸ hk.allocRaw (mul64 count sizeof) alignof
  | free p => exact hk
  | ortFree p => exact hk
  | reset => exact hk.reset

theorem new_kept (hc : capacity + safetyMargin + 63 < 2 ^ 64)
    (ha : Aligned alignedAlloc (slabSize capacity)) (hn : new alignedAlloc capacity = some a) :
    Kept capacity a := by
  have hi := new_inv hc ha hn
  obtain ⟨p, -, rfl⟩ := Option.map_eq_some_iff.1 hn
  exact ⟨hi.wf, hi.capacity_eq, hi.offset_le, Nat.zero_le _⟩

theorem kept {C : List Event → LumenArena → Op → Prop} (hc : capacity + safetyMargin + 63 < 2 ^ 64)
    (ha : Aligned alignedAlloc (slabSize capacity))
    (hr : (lts alignedAlloc capacity).ReachIf C h a) : Kept capacity a := by
  refine hr.inv (I := fun _ => Kept capacity) (fun a h0 => new_kept hc ha h0)
    fun h a op es a' hk _ hs => ?_
  obtain ⟨-, rfl⟩ := Prod.mk.inj (Option.some.inj hs)
  exact hk.step op

/-! ## One request -/

/-- A block of at least `size` bytes beyond the offset where there is room for it, and nothing
otherwise. -/
def Answers (a : LumenArena) (size alignment : Nat) : Prop :=
  let r := a.allocRaw size alignment
  if a.padding alignment + footprint size ≤ a.capacity - a.offset then
    ∃ p, r.1 = some p ∧ a.arenaPtr + a.offset ≤ p ∧ p + size ≤ a.arenaPtr + r.2.offset ∧
      a.offset + size ≤ r.2.offset ∧ r.2.offset ≤ a.capacity
  else r.1 = none ∧ r.2.offset = a.offset

/-- The sum does not wrap, or what is left of it is still too large. -/
def Unwrapped (a : LumenArena) (size alignment : Nat) : Prop :=
  a.total size alignment < 2 ^ 64 ∨ a.capacity < a.total size alignment % 2 ^ 64

theorem Kept.answers_iff (hk : Kept capacity a) (size alignment : Nat) :
    Answers a size alignment ↔ Unwrapped a size alignment := by
  have hfits := hk.wf.fits
  have hle := hk.offset_le
  have hsize := le_footprint size
  have htotal : a.total size alignment = a.offset + a.padding alignment + footprint size := rfl
  unfold Answers Unwrapped
  simp only [allocRaw_total]
  by_cases hroom : a.padding alignment + footprint size ≤ a.capacity - a.offset
  · have hlt : a.total size alignment < 2 ^ 64 := by omega
    rw [if_pos hroom, Nat.mod_eq_of_lt hlt, if_neg (by omega)]
    refine iff_of_true ⟨_, rfl, ?_⟩ (.inl hlt)
    rw [add64_of_lt (a := a.arenaPtr) (by omega), add64_of_lt (by omega)]
    simp only
    omega
  · rw [if_neg hroom]
    split
    · rename_i hc
      exact iff_of_true ⟨rfl, rfl⟩ (.inr hc)
    · rename_i hc
      refine iff_of_false (fun hnone => by cases hnone.1) ?_
      omega

/-! ## Runs -/

/-- What a call asks for, as a number of bytes and an alignment. -/
def Op.request : Op → Option (Nat × Nat)
  | .alloc size | .ortAlloc size => some (size, 64)
  | .allocTyped count sizeof alignof => some (count * sizeof, alignof)
  | .free _ | .ortFree _ | .reset => none

/-- Every request meets the condition; its alignment is one of C++. -/
def AllUnwrapped (_ : List Event) (a : LumenArena) (op : Op) : Prop :=
  ∀ q ∈ op.request, IsAlign q.2 ∧ Unwrapped a q.1 q.2

/-- A product that wraps asks for the same block as the number would. -/
theorem allocRaw_mul64 (a : LumenArena) (count sizeof alignof : Nat) :
    a.allocRaw (mul64 count sizeof) alignof = a.allocRaw (count * sizeof) alignof := by
  have htotal : a.total (mul64 count sizeof) alignof % 2 ^ 64 =
      a.total (count * sizeof) alignof % 2 ^ 64 := by
    unfold total footprint mul64
    omega
  rw [allocRaw_total, allocRaw_total, htotal]

/-- A request that meets the condition keeps the invariant of the regions. -/
theorem Inv.request (hi : Inv alignedAlloc capacity h a) {size alignment : Nat}
    (ha : IsAlign alignment) (hs : Unwrapped a size alignment) :
    Inv alignedAlloc capacity (h ++ (answer size (a.allocRaw size alignment)).1)
      (answer size (a.allocRaw size alignment)).2 := by
  rcases hs with hs | hs
  · exact hi.alloc ha hs
  · rw [allocRaw_total, if_pos hs]
    exact hi.keep

theorem Inv.step (hi : Inv alignedAlloc capacity h a) {op : Op} (hs : AllUnwrapped h a op) :
    Inv alignedAlloc capacity (h ++ (a.step op).1) (a.step op).2 := by
  cases op with
  | alloc size => exact hi.request isAlign_64 (hs _ rfl).2
  | ortAlloc size => exact hi.request isAlign_64 (hs _ rfl).2
  | allocTyped count sizeof alignof =>
    obtain ⟨ha, hsum⟩ := hs _ rfl
    simp only [LumenArena.step, allocRaw_mul64]
    exact hi.request ha hsum
  | free p => simpa [LumenArena.step] using hi
  | ortFree p => simpa [LumenArena.step] using hi
  | reset => exact hi.reset

theorem unwrapped_inv (hc : capacity + safetyMargin + 63 < 2 ^ 64)
    (ha : Aligned alignedAlloc (slabSize capacity))
    (hr : (lts alignedAlloc capacity).ReachIf AllUnwrapped h a) :
    Inv alignedAlloc capacity h a := by
  refine hr.inv (I := Inv alignedAlloc capacity) (fun a h0 => new_inv hc ha h0)
    fun h a op es a' hi hs hst => ?_
  obtain ⟨rfl, rfl⟩ := Prod.mk.inj (Option.some.inj hst)
  exact hi.step hs

/-! ## The theorem -/

/-- **Requests of every size**: in every state that an arena of any capacity can reach, a request is
answered as it should be exactly if its sum does not wrap into the capacity; and where all calls of
a run meet that, the regions it has handed out lie in the arena and do not overlap. -/
theorem answers_all (hc : capacity + safetyMargin + 63 < 2 ^ 64)
    (ha : Aligned alignedAlloc (slabSize capacity)) :
    (∀ h a, (lts alignedAlloc capacity).Reach h a → ∀ size alignment,
      Answers a size alignment ↔ Unwrapped a size alignment) ∧
    (∀ h a, (lts alignedAlloc capacity).ReachIf AllUnwrapped h a →
      (∀ r ∈ (live h).regions, a.arenaPtr ≤ r.1 ∧ r.1 + r.2 ≤ a.arenaPtr + a.offset) ∧
      a.offset ≤ capacity ∧ (live h).regions.Pairwise Before) := by
  constructor
  · intro h a hr size alignment
    exact (kept hc ha hr).answers_iff size alignment
  · intro h a hr
    have hi := unwrapped_inv hc ha hr
    have hle : a.offset ≤ capacity := hi.capacity_eq ▸ hi.offset_le
    refine ⟨fun r hmem => ?_, hle, hi.order⟩
    obtain ⟨h1, h2, -⟩ := hi.region r hmem
    exact ⟨h1, h2⟩

end

/-- An arena of 256 bytes at the address 4096, after two requests: it answers a third that fits, and
one of nearly `2 ^ 64` bytes, which does not wrap around. -/
theorem answers_all_small : ∃ h a, (lts (fun _ _ => some 4096) 256).ReachIf AllUnwrapped h a ∧
    h = [.region 4096 100, .region 4224 60] ∧ Answers a 64 64 ∧ Answers a (2 ^ 64 - 256) 64 ∧
    (live h).regions.Pairwise Before := by
  have ha : Aligned (fun _ _ => some 4096) (slabSize 256) := by
    intro p hp
    obtain rfl : p = 4096 := (Option.some.inj hp).symm
    decide
  obtain ⟨hanswers, hregions⟩ := answers_all (by decide) ha
  have h0 : (lts (fun _ _ => some 4096) 256).ReachIf AllUnwrapped [] ⟨4096, 256, 0, 0, false⟩ :=
    .init rfl
  have h1 : (lts (fun _ _ => some 4096) 256).ReachIf AllUnwrapped [.region 4096 100]
      ⟨4096, 256, 128, 0, false⟩ := by
    refine h0.step (l := .alloc 100) (fun q hq => ?_) rfl
    cases hq
    exact ⟨isAlign_64, .inl (by decide)⟩
  have hrun : (lts (fun _ _ => some 4096) 256).ReachIf AllUnwrapped
      [.region 4096 100, .region 4224 60] ⟨4096, 256, 192, 0, false⟩ := by
    refine h1.step (l := .alloc 60) (fun q hq => ?_) rfl
    cases hq
    exact ⟨isAlign_64, .inl (by decide)⟩
  obtain ⟨-, -, hbefore⟩ := hregions _ _ hrun
  exact ⟨_, _, hrun, rfl, (hanswers _ _ hrun.reach _ _).2 (.inl (by decide)),
    (hanswers _ _ hrun.reach _ _).2 (.inr (by decide)), hbefore⟩

/-- The calls of a request: 128 bytes, then `2 ^ 64 - 64`, which the test takes for `-64`. -/
def wrapping : List Op := [.alloc 128, .ortAlloc (2 ^ 64 - 64), .alloc 64]

/-- The second call succeeds and moves the offset back by 64; the third gets the upper half of the
block of the first. -/
theorem answers_wrapped :
    (∃ h a, (lts (fun _ _ => some 4096) 256).Reach h a ∧ ¬ Answers a (2 ^ 64 - 64) 64 ∧
      (a.allocRaw (2 ^ 64 - 64) 64).1 ≠ none ∧ (a.allocRaw (2 ^ 64 - 64) 64).2.offset < a.offset) ∧
    ∃ h a, (lts (fun _ _ => some 4096) 256).Reach h a ∧
      (4096, 128) ∈ (live h).regions ∧ (4160, 64) ∈ (live h).regions := by
  have h0 : (lts (fun _ _ => some 4096) 256).Reach [] ⟨4096, 256, 0, 0, false⟩ := .init rfl
  constructor
  · refine ⟨_, _, h0.step (l := .alloc 128) rfl, ?_⟩
    unfold Answers
    decide
  · have hrun : (lts (fun _ _ => some 4096) 256).exec ⟨4096, 256, 0, 0, false⟩ wrapping =
        some (_, ⟨4096, 256, 128, 0, false⟩) := rfl
    exact ⟨_, _, h0.exec hrun, by decide⟩

end Lumen.Memory.LumenArena
