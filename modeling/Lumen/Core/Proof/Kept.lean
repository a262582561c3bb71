import Lumen.Core.Proof.Migrated

/-!
# The metadata stays what it is

After the migration nothing writes between the two addresses that enclose the metadata: what was
handed out before ends below it, and as long as no call wraps, what is handed out later begins above
the offset that every reset goes back to. So `run` uses what it would use of an engine that keeps
its metadata on the heap (`metadata_kept`). A call whose sum wraps takes the offset back below the
metadata, and the next request may write over it; a model with a scalar input has no engine
(`metadata_lost`).
-/

set_option autoImplicit false

namespace Lumen.Core

open Lumen.Lib Lumen.Lib.Action Lumen.Memory

variable {alignedAlloc : Nat → Nat → Option Nat} {capacity : Nat} {model : Model} {heap : Engine}

/-! ## What the constructor leaves on the heap -/

theorem mapM_fixInput {nodes inputs : List Node} : nodes.mapM Node.fixInput = some inputs ↔
    (∀ node ∈ nodes, node.dims ≠ []) ∧ inputs = nodes.map Node.fixBatch := by
  induction nodes generalizing inputs with
  | nil => simp [eq_comm]
  | cons node nodes ih =>
    rw [List.mapM_cons, Node.fixInput, List.forall_mem_cons, List.map_cons]
    split <;> rename_i hnode
    · exact ⟨nofun, fun h => absurd hnode h.1.1⟩
    · simp only [Option.bind_eq_bind, Option.bind_some, Option.bind_eq_some_iff, ih,
        Option.pure_def, Option.some.injEq]
      constructor
      · rintro ⟨_, ⟨hnodes, rfl⟩, rfl⟩
        exact ⟨⟨hnode, hnodes⟩, rfl⟩
      · rintro ⟨⟨-, hnodes⟩, rfl⟩
        exact ⟨_, ⟨hnodes, rfl⟩, rfl⟩

/-- The constructor goes through exactly if every input has a dimension. -/
theorem Engine.new_eq_some : Engine.new model = some heap ↔
    (∀ input ∈ model.inputs, input.dims ≠ []) ∧
      heap = { inputs := model.inputs.map Node.fixBatch
               outputs := model.outputs.map Node.fixBatch } := by
  simp only [Engine.new, Option.bind_eq_bind, Option.bind_eq_some_iff, mapM_fixInput,
    Option.pure_def, Option.some.injEq]
  constructor
  · rintro ⟨_, ⟨hdims, rfl⟩, rfl⟩
    exact ⟨hdims, rfl⟩
  · rintro ⟨hdims, rfl⟩
    exact ⟨_, ⟨hdims, rfl⟩, rfl⟩

/-- The names and the dimensions of the model, as vectors, lie next to the slab. -/
structure Model.Beside (capacity : Nat) (model : Model) : Prop where
  inputs : Core.Beside capacity (model.inputs.length * 8)
  outputs : Core.Beside capacity (model.outputs.length * 8)
  input : ∀ node ∈ model.inputs, node.Beside capacity
  output : ∀ node ∈ model.outputs, node.Beside capacity

theorem Node.Beside.fixBatch {node : Node} (h : node.Beside capacity) :
    node.fixBatch.Beside capacity := by
  rwa [Node.Beside, Node.length_fixBatch, Node.name_fixBatch]

theorem Model.Beside.new (h : model.Beside capacity) (hnew : Engine.new model = some heap) :
    heap.Beside capacity := by
  obtain ⟨-, rfl⟩ := Engine.new_eq_some.1 hnew
  refine ⟨?_, ?_, fun node hnode => ?_, fun node hnode => ?_⟩
  · simpa using h.inputs
  · simpa using h.outputs
  · obtain ⟨node, hmem, rfl⟩ := List.mem_map.1 hnode
    exact (h.input node hmem).fixBatch
  · obtain ⟨node, hmem, rfl⟩ := List.mem_map.1 hnode
    exact (h.output node hmem).fixBatch

/-! ## What is read from the arena -/

theorem wordDim_dimWord (dim : Int64) : wordDim (dimWord dim) = dim := by
  simp [wordDim, dimWord]

/-- The elements `i` of the three arrays, the name and the dimensions are those of `node`. -/
structure Tables.Same (t : Tables) (mem : ByteMem) (i : Nat) (node : Node) : Prop where
  name : t.name mem i = node.name
  count : mem.loadWord (t.counts + 8 * i) = node.dims.length
  shape : t.shape mem i = node.dims

theorem Tables.Holds.same {t : Tables} {mem : ByteMem} {i lo hi : Nat} {node : Node}
    (h : t.Holds mem i node lo hi) (hnode : node.Beside capacity) : t.Same mem i node where
  name := by
    refine ByteMem.loadString_eq node.zero_notMem ?_ h.name
    have := hnode.1
    unfold Core.Beside at this
    omega
  count := h.count
  shape := by
    unfold Tables.shape
    rw [h.count, h.dims, List.map_map]
    exact (List.map_congr_left fun dim _ => wordDim_dimWord dim).trans (List.map_id _)

/-- The arrays of the engine are the vectors of `heap`, element by element. -/
structure Engine.Same (heap engine : Engine) (mem : ByteMem) : Prop where
  numInputs : engine.numInputs = heap.inputs.length
  numOutputs : engine.numOutputs = heap.outputs.length
  inputs : ∀ i node, heap.inputs[i]? = some node → engine.inputTables.Same mem i node
  outputs : ∀ i node, heap.outputs[i]? = some node → engine.outputTables.Same mem i node

theorem Copied.same {heap engine : Engine} {mem : ByteMem} {lo hi : Nat}
    (h : Copied heap engine mem lo hi) (hheap : heap.Beside capacity) :
    heap.Same engine mem where
  numInputs := h.numInputs
  numOutputs := h.numOutputs
  inputs i node hi := (h.inputs i node hi).same (hheap.input node (List.mem_of_getElem? hi))
  outputs i node hi := (h.outputs i node hi).same (hheap.output node (List.mem_of_getElem? hi))

/-- The two paths of `run` use the same. -/
theorem Engine.Same.view {engine : Engine} {mem : ByteMem} (hnew : Engine.new model = some heap)
    (h : heap.Same engine mem) (hm : engine.metadataMigrated = true) :
    ∃ view, engine.view mem = some view ∧ ∀ mem', heap.view mem' = some view := by
  obtain ⟨-, rfl⟩ := Engine.new_eq_some.1 hnew
  obtain ⟨input, inputs, hin⟩ := List.exists_cons_of_ne_nil model.inputs_ne
  obtain ⟨output, outputs, hout⟩ := List.exists_cons_of_ne_nil model.outputs_ne
  have hi := h.inputs 0 input.fixBatch (by simp [hin])
  have ho := h.outputs 0 output.fixBatch (by simp [hout])
  refine ⟨_, if_pos hm, ?_⟩
  intro mem'
  rw [hi.name, hi.shape, ho.name, ho.shape]
  simp [Engine.view, hin, hout]

/-! ## The invariant -/

/-- The offset that a reset goes back to. -/
def mark (a : LumenArena) : Nat := if a.warmedUp then a.warmupOffset else a.offset

theorem mark_reset (a : LumenArena) :
    mark a.reset = mark a ∧ a.reset.arenaPtr = a.arenaPtr := by
  unfold mark LumenArena.reset
  split <;> simp_all

theorem Grown.mark_le {a a' : LumenArena} (h : Grown a a') : mark a ≤ mark a' := by
  unfold mark
  rw [h.warmedUp, h.warmupOffset]
  split
  · exact Nat.le_refl _
  · exact h.le

theorem Sound.mark_le {a : LumenArena} (h : Sound alignedAlloc capacity a) : mark a ≤ a.offset := by
  obtain ⟨_, hi⟩ := h
  unfold mark
  split
  · exact hi.mark ‹_›
  · exact Nat.le_refl _

theorem Sound.reset {a : LumenArena} (h : Sound alignedAlloc capacity a) :
    Sound alignedAlloc capacity a.reset := by
  obtain ⟨_, hi⟩ := h
  exact ⟨_, hi.reset⟩

/-- The metadata is in the arena, below the mark and apart from what the request owns. -/
structure Pod.Kept (heap : Engine) (pod : Pod) (lo hi : Nat) : Prop where
  copied : Copied heap pod.engine pod.slab.mem lo hi
  below : hi ≤ pod.slab.arena.arenaPtr + mark pod.slab.arena
  apart : ∀ r ∈ pod.owned.regions, r.1 + r.2 ≤ lo ∨ hi ≤ r.1

/-- Before the migration the arena has not been reset. -/
structure Pod.Fresh (heap : Engine) (pod : Pod) : Prop where
  engine : pod.engine = heap
  unmigrated : heap.metadataMigrated = false
  cold : pod.slab.arena.warmedUp = false
  owned : ∀ r ∈ pod.owned.regions, r.1 + r.2 ≤ pod.slab.top

structure Pod.Inv (alignedAlloc : Nat → Nat → Option Nat) (capacity : Nat) (heap : Engine)
    (pod : Pod) : Prop where
  sound : Sound alignedAlloc capacity pod.slab.arena
  metadata : pod.Fresh heap ∨ ∃ lo hi, pod.Kept heap lo hi

/-- The sum that a call of `Alloc` or `OrtAlloc` tests does not wrap. -/
def Pod.NoWrap (pod : Pod) : Pod.Label → Prop
  | .call (.alloc size) | .call (.ortAlloc size) => pod.slab.arena.NoWrap size 64
  | _ => True

instance (pod : Pod) : ∀ l, Decidable (pod.NoWrap l)
  | .call (.alloc size) | .call (.ortAlloc size) =>
    inferInstanceAs (Decidable (pod.slab.arena.offset + pod.slab.arena.padding 64 +
      (size + 63) / 64 * 64 < 2 ^ 64))
  | .call (.allocTyped _ _ _) | .call (.free _) | .call (.ortFree _) | .call .reset | .write _ _
  | .migrate => .isTrue trivial

namespace Pod

theorem mem_regions_next {l : LumenArena.Live} {p size : Nat} {r : Nat × Nat}
    (h : r ∈ (l.next (.region p size)).regions) : r ∈ l.regions ∨ r = (p, size) := by
  unfold LumenArena.Live.regions at h ⊢
  simp only [LumenArena.Live.next] at h
  split at h <;> simp only [List.mem_append, List.mem_singleton] at h ⊢
  · rw [or_assoc]
    exact h
  · rw [or_right_comm]
    exact h

variable {pod : Pod}

/-- The request gets a new block, or nothing. -/
theorem Inv.alloc (hi : Inv alignedAlloc capacity heap pod) {size : Nat}
    (hn : pod.slab.arena.NoWrap size 64) :
    let r := LumenArena.answer size (pod.slab.arena.allocRaw size 64)
    Inv alignedAlloc capacity heap { pod with
      slab := { pod.slab with arena := r.2 }
      owned := r.1.foldl LumenArena.Live.next pod.owned } := by
  have hnone : ∀ a', pod.slab.arena.allocRaw size 64 = (none, a') → a' = pod.slab.arena := by
    intro a' he
    unfold LumenArena.allocRaw at he
    simp only at he
    split at he <;> cases he
    rfl
  rcases he : pod.slab.arena.allocRaw size 64 with ⟨_ | p, a'⟩
  · obtain rfl := hnone a' he
    exact hi
  · obtain ⟨hs, hg, hp, hfits, -⟩ := hi.sound.allocRaw LumenArena.isAlign_64 hn he
    have hptr := hg.arenaPtr
    have hmark := hi.sound.mark_le
    refine ⟨hs, hi.metadata.imp ?_ fun ⟨lo, up, hk⟩ => ⟨lo, up, ?_⟩⟩
    · intro hf
      refine ⟨hf.engine, hf.unmigrated, hg.warmedUp.trans hf.cold, ?_⟩
      intro r hr
      rcases mem_regions_next hr with hr | rfl
      · have htop : pod.slab.top ≤ Slab.top ⟨a', pod.slab.mem⟩ := Grown.top hg
        exact Nat.le_trans (hf.owned r hr) htop
      · exact hfits
    · refine ⟨hk.copied, ?_, ?_⟩
      · show up ≤ a'.arenaPtr + mark a'
        rw [hptr]
        exact Nat.le_trans hk.below (Nat.add_le_add_left hg.mark_le _)
      · intro r hr
        rcases mem_regions_next hr with hr | rfl
        · exact hk.apart r hr
        · exact .inr (Nat.le_trans hk.below (Nat.le_trans (Nat.add_le_add_left hmark _) hp))

theorem Inv.reset (hi : Inv alignedAlloc capacity heap pod)
    (hm : pod.engine.metadataMigrated = true) :
    Inv alignedAlloc capacity heap { pod with
      slab := { pod.slab with arena := pod.slab.arena.reset }
      owned := { pod.owned with cur := [], warmed := true } } := by
  obtain ⟨h1, h2⟩ := mark_reset pod.slab.arena
  refine ⟨hi.sound.reset, .inr ?_⟩
  rcases hi.metadata with hf | ⟨lo, up, hk⟩
  · rw [hf.engine, hf.unmigrated] at hm
    cases hm
  · refine ⟨lo, up, hk.copied, ?_, fun r hr => hk.apart r ?_⟩
    · show up ≤ pod.slab.arena.reset.arenaPtr + mark pod.slab.arena.reset
      rw [h1, h2]
      exact hk.below
    · rcases List.mem_append.1 hr with hr | hr
      · exact List.mem_append_left _ hr
      · cases hr

/-- A request writes where the metadata is not. -/
theorem Inv.write (hi : Inv alignedAlloc capacity heap pod) {p : Nat} (hp : pod.Owns p)
    (byte : UInt8) :
    Inv alignedAlloc capacity heap
      { pod with slab := { pod.slab with mem := pod.slab.mem.store p [byte] } } := by
  obtain ⟨r, hr, h1, h2⟩ := hp
  refine ⟨hi.sound, hi.metadata.imp (fun hf => ⟨hf.engine, hf.unmigrated, hf.cold, hf.owned⟩)
    fun ⟨lo, up, hk⟩ => ⟨lo, up, ?_, hk.below, hk.apart⟩⟩
  refine hk.copied.congr fun x _ _ => ByteMem.store_of_notMem ?_
  rw [List.length_singleton]
  rcases hk.apart r hr with h | h <;> omega

theorem Inv.migrate (hi : Inv alignedAlloc capacity heap pod)
    (hheap : heap.Beside capacity) (hm : pod.engine.metadataMigrated ≠ true)
    {engine : Engine} {slab : Slab}
    (he : (migrateMetadataToArena pod.engine).exec pod.slab = (.ok engine, slab)) :
    Inv alignedAlloc capacity heap { pod with slab := slab, engine := engine } := by
  rcases hi.metadata with hf | ⟨lo, up, hk⟩
  · rw [hf.engine] at he
    obtain ⟨hs, hg, hc, -⟩ := migrate_spec hi.sound hheap he
    refine ⟨hs, .inr ⟨_, _, hc, ?_, fun r hr => .inl (hf.owned r hr)⟩⟩
    have hcold : slab.arena.warmedUp = false := hg.warmedUp.trans hf.cold
    show slab.top ≤ slab.arena.arenaPtr + mark slab.arena
    rw [mark, hcold]
    exact Nat.le_refl _
  · exact absurd hk.copied.migrated hm

theorem Inv.step (hi : Inv alignedAlloc capacity heap pod)
    (hheap : heap.Beside capacity) {l : Label} {es : List LumenArena.Event}
    {pod' : Pod} (hl : pod.NoWrap l) (hs : pod.step l = some (es, pod')) :
    Inv alignedAlloc capacity heap pod' := by
  cases l with
  | call op =>
    simp only [Pod.step] at hs
    split at hs <;> rename_i hmay
    · cases hs
      cases op with
      | alloc size => exact hi.alloc hl
      | ortAlloc size => exact hi.alloc hl
      | allocTyped => cases hmay
      | free => exact hi
      | ortFree => exact hi
      | reset => exact hi.reset hmay
    · cases hs
  | write p byte =>
    simp only [Pod.step] at hs
    split at hs <;> cases hs
    exact hi.write ‹_› byte
  | migrate =>
    simp only [Pod.step] at hs
    split at hs <;> rename_i hm
    · cases hs
    · split at hs <;> rename_i he <;> cases hs
      exact hi.migrate hheap hm he

end Pod

/-! ## The theorem -/

section
variable {h : List LumenArena.Event} {pod : Pod}

theorem Pod.inv (hc : capacity + LumenArena.safetyMargin + 63 < 2 ^ 64)
    (ha : LumenArena.Aligned alignedAlloc (LumenArena.slabSize capacity))
    (hnew : Engine.new model = some heap) (hheap : heap.Beside capacity)
    (hr : (Pod.lts alignedAlloc capacity model).ReachIf (fun _ => Pod.NoWrap) h pod) :
    pod.Inv alignedAlloc capacity heap := by
  refine hr.inv (I := fun _ pod => Pod.Inv alignedAlloc capacity heap pod)
    ?_ fun h pod l es pod' hi hl hs => hi.step hheap hl hs
  intro pod h0
  obtain ⟨arena, mem, engine, hn, hengine, rfl⟩ := h0
  obtain rfl : engine = heap := Option.some.inj (hengine.symm.trans hnew)
  refine ⟨⟨_, LumenArena.new_inv hc ha hn⟩, .inl ⟨rfl, ?_, ?_, nofun⟩⟩
  · rw [(Engine.new_eq_some.1 hnew).2]
  · obtain ⟨p, -, rfl⟩ := Option.map_eq_some_iff.1 hn
    rfl

/-- **The metadata is kept**: of a model whose inputs have dimensions the engine is built, and in
every run in which no call wraps, the arena holds what its vectors held, from the migration on, and
`run` uses what it would use of the vectors. -/
theorem metadata_kept (hc : capacity + LumenArena.safetyMargin + 63 < 2 ^ 64)
    (ha : LumenArena.Aligned alignedAlloc (LumenArena.slabSize capacity))
    (hmodel : model.Beside capacity) (hdims : ∀ input ∈ model.inputs, input.dims ≠ []) :
    ∃ heap, Engine.new model = some heap ∧ ∀ h pod,
      (Pod.lts alignedAlloc capacity model).ReachIf (fun _ => Pod.NoWrap) h pod →
      pod.engine.metadataMigrated = true →
      heap.Same pod.engine pod.slab.mem ∧
        ∃ view, pod.engine.view pod.slab.mem = some view ∧
          ∀ mem, heap.view mem = some view := by
  have hnew := Engine.new_eq_some.2 ⟨hdims, rfl⟩
  refine ⟨_, hnew, ?_⟩
  intro h pod hr hm
  have hheap := hmodel.new hnew
  rcases (Pod.inv hc ha hnew hheap hr).metadata with hf | ⟨lo, up, hk⟩
  · rw [hf.engine, hf.unmigrated] at hm
    cases hm
  · have hsame := hk.copied.same hheap
    exact ⟨hsame, hsame.view hnew hm⟩

/-- A model with one input `x` and one output `y`, with their batch dimensions left open. -/
def smallModel : Model where
  inputs := [⟨[120], [-1, 3], by decide⟩]
  outputs := [⟨[121], [-1, 5], by decide⟩]
  inputs_ne := by decide
  outputs_ne := by decide

/-- What the constructor makes of it. -/
def smallHeap : Engine where
  inputs := [⟨[120], [1, 3], by decide⟩]
  outputs := [⟨[121], [1, 5], by decide⟩]

theorem smallHeap_new : Engine.new smallModel = some smallHeap := rfl

/-- A model whose input is a scalar. -/
def scalarModel : Model where
  inputs := [⟨[120], [], by decide⟩]
  outputs := [⟨[121], [-1, 5], by decide⟩]
  inputs_ne := by decide
  outputs_ne := by decide

/-- The slab of `ThreadPool`, at the address 4096. -/
abbrev smallPod : Lts Pod Pod.Label LumenArena.Event :=
  Pod.lts (fun _ _ => some 4096) (64 * 1024 * 1024) smallModel

def smallPod.start : Pod :=
  { slab := ⟨⟨4096, 64 * 1024 * 1024, 0, 0, false⟩, fun _ => 0⟩, engine := smallHeap }

theorem smallPod.init_start : smallPod.init smallPod.start := ⟨_, _, _, rfl, smallHeap_new, rfl⟩

/-- onnxruntime takes a block before the migration; two requests follow, with a reset after each. -/
def twoRequests : List Pod.Label :=
  [.call (.ortAlloc 100), .migrate, .call (.alloc 24), .write 4864 7, .call .reset,
    .call (.alloc 24), .write 4928 7, .call .reset]

theorem metadata_kept_small : ∃ heap, Engine.new smallModel = some heap ∧ ∃ h pod,
    smallPod.ReachIf (fun _ => Pod.NoWrap) h pod ∧ pod.engine.metadataMigrated = true ∧
    heap.Same pod.engine pod.slab.mem ∧
    ∃ view, pod.engine.view pod.slab.mem = some view ∧ ∀ mem, heap.view mem = some view := by
  have he : ((smallPod.exec smallPod.start twoRequests).map fun q =>
      q.2.engine.metadataMigrated) = some true := by decide +kernel
  obtain ⟨⟨h, pod⟩, he, hm⟩ := Option.map_eq_some_iff.1 he
  have hC : smallPod.Along (fun _ => Pod.NoWrap) [] smallPod.start twoRequests := by
    decide +kernel
  have hr := Lts.ReachIf.along (.init smallPod.init_start) hC he
  have hbeside : ∀ {n : Nat}, n ≤ 64 → Core.Beside (64 * 1024 * 1024) n := by
    intro n hn
    unfold Core.Beside LumenArena.safetyMargin
    omega
  have haligned : LumenArena.Aligned (fun _ _ => some 4096)
      (LumenArena.slabSize (64 * 1024 * 1024)) := by
    intro p hp
    obtain rfl : p = 4096 := (Option.some.inj hp).symm
    decide
  have hmodel : smallModel.Beside (64 * 1024 * 1024) := by
    refine ⟨hbeside (by decide), hbeside (by decide), fun node hn => ?_, fun node hn => ?_⟩ <;>
      obtain rfl := List.mem_singleton.1 hn <;>
      exact ⟨hbeside (by decide), hbeside (by decide)⟩
  obtain ⟨heap, hnew, hkept⟩ := metadata_kept (by decide) haligned hmodel (by decide)
  exact ⟨heap, hnew, h, pod, hr, hm, hkept h pod hr hm⟩

/-- A size close to `2 ^ 64` takes the offset back below the metadata, and a request that then
writes to its own block changes the dimensions of the input. -/
def wrapped : List Pod.Label :=
  [.migrate, .call (.ortAlloc (2 ^ 64 - 512)), .call (.alloc 64), .write 4224 255]

/-- In that run the metadata is lost; and of a model whose input is a scalar no engine is built. -/
theorem metadata_lost : (∃ h pod, smallPod.Reach h pod ∧ pod.engine.metadataMigrated = true ∧
      pod.engine.view pod.slab.mem ≠ smallHeap.view pod.slab.mem) ∧
    Engine.new scalarModel = none := by
  refine ⟨?_, rfl⟩
  have he : ((smallPod.exec smallPod.start wrapped).map fun q =>
      q.2.engine.metadataMigrated && decide (q.2.engine.view q.2.slab.mem ≠
        smallHeap.view q.2.slab.mem)) = some true := by decide +kernel
  obtain ⟨⟨h, pod⟩, he, hm⟩ := Option.map_eq_some_iff.1 he
  rw [Bool.and_eq_true, decide_eq_true_eq] at hm
  exact ⟨h, pod, .of_exec smallPod.init_start he, hm⟩

end

end Lumen.Core
