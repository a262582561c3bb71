import Lumen.Memory.LumenArena

/-!
# Live regions of the arena never overlap

`Wf` is what construction gives: a slab at a 64-byte boundary that ends within the address space
and is larger than `capacity`. `allocRaw_spec` is `alloc_raw` where its sum does not wrap. `Inv`
keeps the regions in address order, the warm ones below the mark that every reset goes back to.
-/

set_option autoImplicit false

namespace Lumen.Memory.LumenArena

open Lumen.Lib

/-! ## One allocation -/

/-- The facts of construction that no call changes. -/
structure Wf (a : LumenArena) : Prop where
  base : a.arenaPtr % 64 = 0
  fits : a.arenaPtr + a.capacity < 2 ^ 64

theorem roundUp_eq {n : Nat} (h : n + 63 < 2 ^ 64) : roundUp n = (n + 63) / 64 * 64 := by
  rw [roundUp, add64_of_lt h]
  exact and_not_mask (k := 6) h (by decide)

/-- An alignment of C++: a power of two. -/
def IsAlign (alignment : Nat) : Prop := ∃ k, k < 64 ∧ alignment = 2 ^ k

theorem IsAlign.effective {alignment : Nat} (h : IsAlign alignment) :
    64 ∣ effectiveAlignment alignment ∧ 0 < effectiveAlignment alignment ∧
      effectiveAlignment alignment < 2 ^ 64 := by
  obtain ⟨k, hk, rfl⟩ := h
  unfold effectiveAlignment
  have hpow : 2 ^ k < 2 ^ 64 := Nat.pow_lt_pow_right (by decide) hk
  split
  · decide
  · rename_i h
    refine ⟨Nat.pow_dvd_pow 2 (m := 6) ?_, Nat.two_pow_pos k, hpow⟩
    refine Nat.le_of_not_lt fun hlt => h ?_
    exact Nat.lt_of_lt_of_le (Nat.pow_lt_pow_right (by decide) hlt) (by decide)

theorem isAlign_64 : IsAlign 64 := ⟨6, by decide, rfl⟩

/-- The padding takes the address to a boundary. -/
theorem padding_spec {a : LumenArena} {alignment : Nat} (h : IsAlign alignment)
    (hw : a.arenaPtr + a.offset < 2 ^ 64) :
    (a.arenaPtr + a.offset + a.padding alignment) % 64 = 0 := by
  obtain ⟨hdvd, hpos, hlt⟩ := h.effective
  unfold padding
  generalize effectiveAlignment alignment = e at hdvd hpos hlt
  simp only
  rw [add64_of_lt hw]
  generalize a.arenaPtr + a.offset = x
  have hmod := Nat.mod_lt x hpos
  rw [sub64_of_le hlt (Nat.le_of_lt hmod)]
  have hsum : (x + (e - x % e) % e) % e = 0 := by
    have hx : x + (e - x % e) = e * (x / e + 1) := by
      have := Nat.div_add_mod x e
      rw [Nat.mul_add]
      omega
    rw [Nat.add_mod_mod, hx, Nat.mul_mod_right]
  exact Nat.mod_eq_zero_of_dvd (Nat.dvd_trans hdvd (Nat.dvd_of_mod_eq_zero hsum))

/-- The sum that `alloc_raw` tests, without wrapping. -/
def NoWrap (a : LumenArena) (size alignment : Nat) : Prop :=
  a.offset + a.padding alignment + (size + 63) / 64 * 64 < 2 ^ 64

theorem allocRaw_spec {a : LumenArena} {size alignment : Nat}
    (hw : Wf a) (ho : a.offset ≤ a.capacity)
    (hn : NoWrap a size alignment) :
    let need := a.padding alignment + (size + 63) / 64 * 64
    a.allocRaw size alignment =
      if a.offset + need > a.capacity then (none, a)
      else (some (a.arenaPtr + a.offset + a.padding alignment),
        { a with offset := a.offset + need }) := by
  have hfits := hw.fits
  unfold NoWrap at hn
  have hr : roundUp size = (size + 63) / 64 * 64 := by
    refine roundUp_eq ?_
    omega
  simp only [allocRaw, hr]
  rw [add64_of_lt (a := a.offset) (by omega), add64_of_lt (by omega),
    add64_of_lt (a := a.padding alignment) (by omega), add64_of_lt (b := a.padding alignment + _)
    (by omega), add64_of_lt (a := a.arenaPtr) (by omega), Nat.add_assoc]
  split
  · rfl
  · rw [add64_of_lt (by omega)]

/-! ## The invariant -/

/-- One region ends where the other begins, or earlier. -/
def Before (r r' : Nat × Nat) : Prop := r.1 + r.2 ≤ r'.1

structure Inv (alignedAlloc : Nat → Nat → Option Nat) (capacity : Nat) (h : List Event)
    (a : LumenArena) : Prop where
  wf : Wf a
  capacity_eq : a.capacity = capacity
  offset_le : a.offset ≤ a.capacity
  warmed : (live h).warmed = a.warmedUp
  mark : a.warmedUp = true → a.warmupOffset ≤ a.offset
  resets : ∀ w, .reset w ∈ h → a.warmedUp = true ∧ w = a.warmupOffset
  region : ∀ r ∈ (live h).regions, a.arenaPtr ≤ r.1 ∧ r.1 + r.2 ≤ a.arenaPtr + a.offset ∧
    r.1 % 64 = 0
  warm : a.warmedUp = true → ∀ r ∈ (live h).warm, r.1 + r.2 ≤ a.arenaPtr + a.warmupOffset
  cold : a.warmedUp = false → (live h).cur = []
  order : (live h).regions.Pairwise Before

section
variable {alignedAlloc : Nat → Nat → Option Nat} {capacity : Nat} {h : List Event} {a : LumenArena}

theorem live_concat (h : List Event) (e : Event) : live (h ++ [e]) = (live h).next e := by
  simp [live, List.foldl_append]

/-- An event that is neither a region nor a reset. -/
theorem Inv.keep (hi : Inv alignedAlloc capacity h a) :
    Inv alignedAlloc capacity (h ++ [.null]) a := by
  have hl : live (h ++ [.null]) = live h := live_concat h .null
  refine ⟨hi.wf, hi.capacity_eq, hi.offset_le, ?_, hi.mark,
    fun w hw => hi.resets w (by simpa using hw),
    ?_, ?_, ?_, ?_⟩ <;> rw [hl]
  · exact hi.warmed
  · exact hi.region
  · exact hi.warm
  · exact hi.cold
  · exact hi.order

/-- A region of `size` bytes is handed out beyond `offset`, which moves past it. -/
theorem Inv.hand (hi : Inv alignedAlloc capacity h a) {p size need : Nat} (hp : p % 64 = 0)
    (h1 : a.arenaPtr + a.offset ≤ p) (h2 : p + size ≤ a.arenaPtr + (a.offset + need))
    (h3 : a.offset + need ≤ a.capacity) :
    Inv alignedAlloc capacity (h ++ [.region p size]) { a with offset := a.offset + need } := by
  have hreg : (live (h ++ [.region p size])).regions = (live h).regions ++ [(p, size)] := by
    rw [live_concat, Live.next, hi.warmed]
    cases hw : a.warmedUp with
    | true => simp [Live.regions]
    | false => simp [Live.regions, hi.cold hw]
  refine ⟨⟨hi.wf.base, hi.wf.fits⟩, hi.capacity_eq, h3, ?_,
    fun hw => Nat.le_add_right_of_le (hi.mark hw),
    fun w hw => hi.resets w (by simpa using hw), fun r hr => ?_, fun hw r hr => ?_,
    fun hw => ?_, ?_⟩
  · rw [live_concat, Live.next]
    split <;> exact hi.warmed
  · rw [hreg, List.mem_append, List.mem_singleton] at hr
    rcases hr with hr | rfl
    · obtain ⟨g1, g2, g3⟩ := hi.region r hr
      exact ⟨g1, Nat.le_trans g2 (by simp only; omega), g3⟩
    · exact ⟨by simp only; omega, h2, hp⟩
  · have hlw : (live h).warmed = true := hi.warmed.trans hw
    rw [live_concat, Live.next, if_pos hlw] at hr
    exact hi.warm hw r hr
  · have hlw : ¬ (live h).warmed = true := by rw [hi.warmed]; simp [show a.warmedUp = false from hw]
    rw [live_concat, Live.next, if_neg hlw]
    exact hi.cold hw
  · rw [hreg, List.pairwise_append]
    refine ⟨hi.order, List.pairwise_singleton _ _, fun r hr r' hr' => ?_⟩
    obtain rfl := List.mem_singleton.1 hr'
    exact Nat.le_trans (hi.region r hr).2.1 h1

theorem Inv.alloc (hi : Inv alignedAlloc capacity h a) {size alignment : Nat}
    (ha : IsAlign alignment) (hn : NoWrap a size alignment) :
    Inv alignedAlloc capacity (h ++ (answer size (a.allocRaw size alignment)).1)
      (answer size (a.allocRaw size alignment)).2 := by
  have hfits := hi.wf.fits
  have hle := hi.offset_le
  have hspec := allocRaw_spec hi.wf hle hn
  simp only at hspec
  rw [hspec]
  split
  · exact hi.keep
  · rename_i hc
    refine hi.hand (padding_spec ha (by omega)) (by omega) ?_ (by omega)
    omega

theorem Inv.reset (hi : Inv alignedAlloc capacity h a) :
    Inv alignedAlloc capacity (h ++ [.reset a.reset.offset]) a.reset := by
  have hreg : (live (h ++ [.reset a.reset.offset])).regions = (live h).warm := by
    rw [live_concat]
    simp [Live.next, Live.regions]
  have hsub : ∀ r ∈ (live h).warm, r ∈ (live h).regions := fun r hr => List.mem_append_left _ hr
  have hord : (live h).warm.Pairwise Before := (List.pairwise_append.1 hi.order).1
  have hbase : a.reset.arenaPtr = a.arenaPtr ∧ a.reset.capacity = a.capacity ∧
      a.reset.warmedUp = true ∧ a.reset.offset = a.reset.warmupOffset := by
    unfold LumenArena.reset
    split <;> simp_all
  obtain ⟨hb1, hb2, hb3, hb4⟩ := hbase
  have hmark : (a.warmedUp = true → a.reset.warmupOffset = a.warmupOffset) ∧
      a.reset.warmupOffset ≤ a.offset ∧
      ∀ r ∈ (live h).warm, r.1 + r.2 ≤ a.arenaPtr + a.reset.warmupOffset := by
    cases hw : a.warmedUp with
    | true =>
      have : a.reset.warmupOffset = a.warmupOffset := by simp [LumenArena.reset, hw]
      rw [this]
      exact ⟨fun _ => rfl, hi.mark hw, hi.warm hw⟩
    | false =>
      have : a.reset.warmupOffset = a.offset := by simp [LumenArena.reset, hw]
      rw [this]
      exact ⟨nofun, Nat.le_refl _, fun r hr => (hi.region r (hsub r hr)).2.1⟩
  obtain ⟨hm1, hm2, hm3⟩ := hmark
  refine ⟨⟨hb1 ▸ hi.wf.base, by rw [hb1, hb2]; exact hi.wf.fits⟩,
    hb2.trans hi.capacity_eq, ?_, ?_, ?_,
    fun w hw => ?_, fun r hr => ?_, fun _ r hr => ?_, fun hw => ?_, by rwa [hreg]⟩
  · rw [hb4, hb2]
    exact Nat.le_trans hm2 hi.offset_le
  · rw [live_concat, hb3]
    rfl
  · intro _
    rw [hb4]
  · rcases List.mem_append.1 hw with hw | hw
    · obtain ⟨g1, g2⟩ := hi.resets w hw
      exact ⟨hb3, g2.trans (hm1 g1).symm⟩
    · obtain rfl := Event.reset.inj (List.mem_singleton.1 hw)
      exact ⟨hb3, hb4⟩
  · rw [hreg] at hr
    obtain ⟨g1, -, g3⟩ := hi.region r (hsub r hr)
    rw [hb1, hb4]
    exact ⟨g1, hm3 r hr, g3⟩
  · rw [live_concat] at hr
    rw [hb1]
    exact hm3 r hr
  · rw [hb3] at hw
    cases hw

/-! ## Runs -/

/-- The calls for which the tested sum does not wrap. -/
def Fits (_ : List Event) (a : LumenArena) : Op → Prop
  | .alloc size | .ortAlloc size => NoWrap a size 64
  | .allocTyped count sizeof alignof => IsAlign alignof ∧ NoWrap a (count * sizeof) alignof
  | _ => True

theorem step_inv (hi : Inv alignedAlloc capacity h a) {op : Op} (hf : Fits h a op) :
    Inv alignedAlloc capacity (h ++ (a.step op).1) (a.step op).2 := by
  cases op with
  | alloc size => exact hi.alloc isAlign_64 hf
  | ortAlloc size => exact hi.alloc isAlign_64 hf
  | allocTyped count sizeof alignof =>
    have hn := hf.2
    have hmul : mul64 count sizeof = count * sizeof := mul64_of_lt (by unfold NoWrap at hn; omega)
    simp only [step, hmul]
    exact hi.alloc hf.1 hn
  | free p => simpa [step] using hi
  | ortFree p => simpa [step] using hi
  | reset => exact hi.reset

/-- What is asked of `aligned_alloc`: a 64-byte-aligned block of this size. -/
def Aligned (alignedAlloc : Nat → Nat → Option Nat) (size : Nat) : Prop :=
  ∀ p, alignedAlloc 64 size = some p → p % 64 = 0 ∧ p + size ≤ 2 ^ 64

theorem slabSize_gt (hc : capacity + safetyMargin + 63 < 2 ^ 64) :
    capacity < slabSize capacity := by
  have hm : safetyMargin = 1048576 := rfl
  rw [slabSize, add64_of_lt (by omega), roundUp_eq hc]
  omega

theorem new_inv (hc : capacity + safetyMargin + 63 < 2 ^ 64)
    (ha : Aligned alignedAlloc (slabSize capacity)) (hn : new alignedAlloc capacity = some a) :
    Inv alignedAlloc capacity [] a := by
  obtain ⟨p, hp, rfl⟩ := Option.map_eq_some_iff.1 hn
  obtain ⟨h1, h2⟩ := ha p hp
  have hgt := slabSize_gt hc
  exact ⟨⟨h1, by simp only; omega⟩, rfl, Nat.zero_le _, rfl, nofun, nofun, nofun, nofun,
    fun _ => rfl,
    .nil⟩

theorem inv (hc : capacity + safetyMargin + 63 < 2 ^ 64)
    (ha : Aligned alignedAlloc (slabSize capacity))
    (hr : (lts alignedAlloc capacity).ReachIf Fits h a) : Inv alignedAlloc capacity h a := by
  refine hr.inv (I := Inv alignedAlloc capacity) (fun a h0 => new_inv hc ha h0)
    fun h a op es a' hi hf hs => ?_
  obtain ⟨rfl, rfl⟩ := Prod.mk.inj (Option.some.inj hs)
  exact step_inv hi hf

/-! ## The theorem -/

/-- What a reset goes back to: everything but the current offset. -/
def Marked (b a : LumenArena) : Prop :=
  a.warmedUp = true ∧ a.arenaPtr = b.arenaPtr ∧ a.capacity = b.capacity ∧
    a.warmupOffset = b.warmupOffset

theorem marked_reset (a : LumenArena) : Marked a.reset a.reset := by
  refine ⟨?_, rfl, rfl, rfl⟩
  unfold LumenArena.reset
  split
  · assumption
  · rfl

theorem Marked.reset_eq {b : LumenArena} (h : Marked b.reset a) : a.reset = b.reset := by
  obtain ⟨h1, h2, h3, h4⟩ := h
  have ho : b.reset.offset = b.reset.warmupOffset := rfl
  have hw := (marked_reset b).1
  generalize b.reset = c at *
  obtain ⟨p, cap, off, wo, wu⟩ := c
  obtain ⟨p', cap', off', wo', wu'⟩ := a
  simp only at h1 h2 h3 h4 ho hw
  subst h1 h2 h3 h4 ho hw
  rfl

theorem Marked.step {b : LumenArena} (h : Marked b a) (op : Op) : Marked b (a.step op).2 := by
  have hraw : ∀ size alignment n, Marked b (answer n (a.allocRaw size alignment)).2 := by
    intro size alignment n
    unfold allocRaw
    simp only
    split <;> exact h
  cases op with
  | alloc size => exact hraw _ _ _
  | ortAlloc size => exact hraw _ _ _
  | allocTyped count sizeof alignof => exact hraw _ _ _
  | free p => exact h
  | ortFree p => exact h
  | reset =>
    obtain ⟨h1, h2, h3, h4⟩ := h
    simp only [LumenArena.step, LumenArena.reset, h1, if_true]
    exact ⟨rfl, h2, h3, h4⟩

theorem Marked.exec {b a' : LumenArena} {ls : List Op} {k : List Event} (h : Marked b a)
    (he : (lts alignedAlloc capacity).exec a ls = some (k, a')) : Marked b a' := by
  induction ls generalizing a k with
  | nil =>
    simp only [Lts.exec_nil, Option.some.injEq, Prod.mk.injEq] at he
    exact he.2 ▸ h
  | cons op ls ih =>
    obtain ⟨es, a1, k', hs, he', rfl⟩ := Lts.exec_cons.1 he
    obtain ⟨rfl, rfl⟩ := Prod.mk.inj (Option.some.inj hs)
    exact ih (h.step op) he'

/-- **Live regions** of an arena of any capacity, under any sequence of calls whose sums do not
wrap: they lie inside the arena at 64-byte boundaries and do not overlap. Every reset goes back to
the offset of the first one, and what a request gets after a reset does not depend on the requests
before it. -/
theorem live_separate (hc : capacity + safetyMargin + 63 < 2 ^ 64)
    (ha : Aligned alignedAlloc (slabSize capacity))
    (hr : (lts alignedAlloc capacity).ReachIf Fits h a) :
    (∀ r ∈ (live h).regions, a.arenaPtr ≤ r.1 ∧ r.1 + r.2 ≤ a.arenaPtr + capacity ∧ r.1 % 64 = 0) ∧
    (live h).regions.Pairwise Before ∧
    (a.warmedUp = true → a.warmupOffset ≤ a.offset) ∧ a.offset ≤ capacity ∧
    (∀ w w', .reset w ∈ h → .reset w' ∈ h → w = w') ∧
    (∀ ls k a', (lts alignedAlloc capacity).exec a.reset ls = some (k, a') →
      ∀ req, (lts alignedAlloc capacity).exec a'.reset req =
        (lts alignedAlloc capacity).exec a.reset req) := by
  have hi := inv hc ha hr
  have hle : a.offset ≤ capacity := hi.capacity_eq ▸ hi.offset_le
  refine ⟨fun r hr => ?_, hi.order, hi.mark, hle, fun w w' hw hw' => ?_, fun ls k a' he req => ?_⟩
  · obtain ⟨h1, h2, h3⟩ := hi.region r hr
    exact ⟨h1, by omega, h3⟩
  · rw [(hi.resets w hw).2, (hi.resets w' hw').2]
  · rw [((marked_reset a).exec he).reset_eq]

/-- An arena of 256 bytes at the address 4096: two blocks, a reset, and one block that fits. -/
theorem live_separate_small : ∃ h a, (lts (fun _ _ => some 4096) 256).ReachIf Fits h a ∧
    (live h).regions = [(4096, 10), (4160, 64), (4224, 100)] ∧
    (live h).regions.Pairwise Before := by
  have hstep {h : List Event} {a : LumenArena} (op : Op)
      (hr : (lts (fun _ _ => some 4096) 256).ReachIf
      Fits h a) (hf : Fits h a op) := hr.step hf (rfl : _ = some (a.step op))
  have h0 : (lts (fun _ _ => some 4096) 256).ReachIf Fits [] ⟨4096, 256, 0, 0, false⟩ := .init rfl
  have h1 := hstep (.alloc 10) h0 (by unfold Fits NoWrap; decide)
  have h2 := hstep (.ortAlloc 64) h1 (by unfold Fits NoWrap; decide)
  have h3 := hstep .reset h2 trivial
  have h4 := hstep (.allocTyped 25 4 4) h3 ⟨⟨2, by decide, rfl⟩, by unfold NoWrap; decide⟩
  refine ⟨_, _, h4, by decide, ?_⟩
  refine (live_separate (by decide) ?_ h4).2.1
  intro p hp
  obtain rfl : p = 4096 := (Option.some.inj hp).symm
  decide

end
end Lumen.Memory.LumenArena
