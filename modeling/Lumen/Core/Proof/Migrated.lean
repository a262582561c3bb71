import Lumen.Core.Metadata
import Lumen.Memory.Proof.ArenaInv

/-!
# The migration copies the metadata

The migration only takes new memory from the arena: everything it allocates lies between the offset
it starts from and the one it ends at, each block above the ones before, and it writes nowhere else.
So when it is through, every block holds what was copied into it (`migrate_spec`).
-/

set_option autoImplicit false

namespace Lumen.Core

open Lumen.Lib Lumen.Lib.Action Lumen.Memory

/-! ## One allocation -/

/-- The address of the first byte that has not been handed out. -/
def Slab.top (s : Slab) : Nat := s.arena.arenaPtr + s.arena.offset

/-- The bytes of a vector on the heap, which lies in the address space next to the slab. -/
def Beside (capacity size : Nat) : Prop := size + capacity + LumenArena.safetyMargin ≤ 2 ^ 64

section
variable {alignedAlloc : Nat → Nat → Option Nat} {capacity : Nat}

/-- The arena is in a state that its runs reach. -/
def Sound (alignedAlloc : Nat → Nat → Option Nat) (capacity : Nat) (a : LumenArena) : Prop :=
  ∃ h, LumenArena.Inv alignedAlloc capacity h a

/-- Blocks have been taken from the arena, and nothing else has happened to it. -/
structure Grown (a a' : LumenArena) : Prop where
  arenaPtr : a'.arenaPtr = a.arenaPtr
  warmedUp : a'.warmedUp = a.warmedUp
  warmupOffset : a'.warmupOffset = a.warmupOffset
  le : a.offset ≤ a'.offset

theorem Grown.refl (a : LumenArena) : Grown a a := ⟨rfl, rfl, rfl, Nat.le_refl _⟩

theorem Grown.trans {a b c : LumenArena} (h : Grown a b) (h' : Grown b c) : Grown a c :=
  ⟨h'.1.trans h.1, h'.2.trans h.2, h'.3.trans h.3, Nat.le_trans h.4 h'.4⟩

theorem Grown.top {s s' : Slab} (h : Grown s.arena s'.arena) : s.top ≤ s'.top := by
  unfold Slab.top
  rw [h.arenaPtr]
  exact Nat.add_le_add_left h.le _

theorem Sound.allocRaw {a a' : LumenArena} {size alignment p : Nat}
    (hs : Sound alignedAlloc capacity a) (ha : LumenArena.IsAlign alignment)
    (hn : a.NoWrap size alignment) (he : a.allocRaw size alignment = (some p, a')) :
    Sound alignedAlloc capacity a' ∧ Grown a a' ∧ a.arenaPtr + a.offset ≤ p ∧
      p + size ≤ a'.arenaPtr + a'.offset ∧ p + size < 2 ^ 64 := by
  obtain ⟨h, hi⟩ := hs
  have hsound := hi.alloc ha hn
  have hfits := hi.wf.fits
  have hspec := LumenArena.allocRaw_spec hi.wf hi.offset_le hn
  simp only at hspec
  rw [he] at hsound hspec
  refine ⟨⟨_, hsound⟩, ?_⟩
  split at hspec
  · cases hspec
  · rename_i hc
    obtain ⟨hp, rfl⟩ := Prod.mk.inj hspec
    obtain rfl := Option.some.inj hp
    refine ⟨⟨rfl, rfl, rfl, Nat.le_add_right _ _⟩, Nat.le_add_right _ _, ?_, ?_⟩
    · show _ ≤ a.arenaPtr + (a.offset + _)
      omega
    · omega

/-- A vector of the heap is small enough for its copy not to wrap. -/
theorem Sound.noWrap {a : LumenArena} {size alignment : Nat} (hs : Sound alignedAlloc capacity a)
    (hsize : Beside capacity size) (ha : alignment ≤ 64) : a.NoWrap size alignment := by
  obtain ⟨h, hi⟩ := hs
  have hle := hi.offset_le
  have hcap := hi.capacity_eq
  have hm : LumenArena.safetyMargin = 1048576 := rfl
  unfold Beside at hsize
  have hpad : a.padding alignment < 64 := by
    have heff : LumenArena.effectiveAlignment alignment = 64 := by
      unfold LumenArena.effectiveAlignment
      split <;> omega
    unfold LumenArena.padding
    rw [heff]
    exact Nat.mod_lt _ (by decide)
  unfold LumenArena.NoWrap
  omega

/-- A block of `n` bytes at `p` has been taken. -/
structure Took (alignedAlloc : Nat → Nat → Option Nat) (capacity : Nat) (s : Slab) (p n : Nat)
    (s' : Slab) : Prop where
  sound : Sound alignedAlloc capacity s'.arena
  grown : Grown s.arena s'.arena
  mem : s'.mem = s.mem
  le : s.top ≤ p
  fits : p + n ≤ s'.top
  lt : p < 2 ^ 64

theorem allocTyped_spec {s s' : Slab} {count sizeof alignof p : Nat}
    (hs : Sound alignedAlloc capacity s.arena) (hsize : Beside capacity (count * sizeof))
    (ha : LumenArena.IsAlign alignof) (ha' : alignof ≤ 64)
    (he : (allocTyped count sizeof alignof).exec s = (.ok p, s')) :
    Took alignedAlloc capacity s p (count * sizeof) s' := by
  have hn := hs.noWrap hsize ha'
  have hmul : mul64 count sizeof = count * sizeof :=
    mul64_of_lt (by unfold LumenArena.NoWrap at hn; omega)
  change allocTyped count sizeof alignof s = (.ok p, s') at he
  rw [allocTyped, hmul] at he
  split at he <;> rename_i heq <;> cases he
  obtain ⟨h1, h2, h3, h4, h5⟩ := hs.allocRaw ha hn heq
  exact ⟨h1, h2, rfl, h3, h4, Nat.lt_of_le_of_lt (Nat.le_add_right _ _) h5⟩

/-! ## One node -/

/-- The address belongs to the element `i` of one of the three arrays. -/
def Tables.Entry (t : Tables) (i x : Nat) : Prop :=
  (t.names + 8 * i ≤ x ∧ x < t.names + 8 * i + 8) ∨ (t.dims + 8 * i ≤ x ∧ x < t.dims + 8 * i + 8) ∨
    (t.counts + 8 * i ≤ x ∧ x < t.counts + 8 * i + 8)

/-- Three arrays of `n` elements, one above the other, which end at `top`. -/
structure Tables.Below (t : Tables) (n top : Nat) : Prop where
  names : t.names + 8 * n ≤ t.dims
  dims : t.dims + 8 * n ≤ t.counts
  counts : t.counts + 8 * n ≤ top

/-- The elements `i` describe `node`, whose name and dimensions lie between `lo` and `hi`. -/
structure Tables.Holds (t : Tables) (mem : ByteMem) (i : Nat) (node : Node) (lo hi : Nat) :
    Prop where
  name : mem.load (mem.loadWord (t.names + 8 * i)) (node.name.length + 1) = node.name ++ [0]
  name_le : lo ≤ mem.loadWord (t.names + 8 * i)
  name_fits : mem.loadWord (t.names + 8 * i) + (node.name.length + 1) ≤ hi
  dims : mem.loadWords (mem.loadWord (t.dims + 8 * i)) node.dims.length = node.dims.map dimWord
  dims_le : lo ≤ mem.loadWord (t.dims + 8 * i)
  dims_fits : mem.loadWord (t.dims + 8 * i) + 8 * node.dims.length ≤ hi
  count : mem.loadWord (t.counts + 8 * i) = node.dims.length

namespace Tables.Holds

variable {t : Tables} {mem mem' : ByteMem} {i : Nat} {node : Node} {lo hi lo' hi' : Nat}

theorem mono (h : t.Holds mem i node lo hi) (h1 : lo' ≤ lo) (h2 : hi ≤ hi') :
    t.Holds mem i node lo' hi' :=
  ⟨h.name, Nat.le_trans h1 h.name_le, Nat.le_trans h.name_fits h2, h.dims,
    Nat.le_trans h1 h.dims_le, Nat.le_trans h.dims_fits h2, h.count⟩

/-- It is a matter of the bytes of the elements and of the two blocks. -/
theorem congr (h : t.Holds mem i node lo hi)
    (hmem : ∀ x, (lo ≤ x ∧ x < hi) ∨ t.Entry i x → mem' x = mem x) :
    t.Holds mem' i node lo hi := by
  have hn : mem'.loadWord (t.names + 8 * i) = mem.loadWord (t.names + 8 * i) :=
    ByteMem.loadWord_congr fun x h1 h2 => hmem x (.inr (.inl ⟨h1, h2⟩))
  have hd : mem'.loadWord (t.dims + 8 * i) = mem.loadWord (t.dims + 8 * i) :=
    ByteMem.loadWord_congr fun x h1 h2 => hmem x (.inr (.inr (.inl ⟨h1, h2⟩)))
  have hc : mem'.loadWord (t.counts + 8 * i) = mem.loadWord (t.counts + 8 * i) :=
    ByteMem.loadWord_congr fun x h1 h2 => hmem x (.inr (.inr (.inr ⟨h1, h2⟩)))
  obtain ⟨h1, h2, h3, h4, h5, h6, h7⟩ := h
  refine ⟨?_, ?_, ?_, ?_, ?_, ?_, hc.trans h7⟩
  · rw [hn, ByteMem.load_congr fun x _ _ => hmem x (.inl (by omega))]
    exact h1
  · rwa [hn]
  · rwa [hn]
  · rw [hd, ByteMem.loadWords_congr fun x _ _ => hmem x (.inl (by omega))]
    exact h4
  · rwa [hd]
  · rwa [hd]

end Tables.Holds

theorem dimWord_lt (dim : Int64) : dimWord dim < 2 ^ 64 := dim.toUInt64.toNat_lt

/-- The five writes of the body of a loop. -/
theorem holds_writes {t : Tables} {m0 m1 m2 m3 m4 m5 : ByteMem} {i n pn pd lo hi : Nat}
    {node : Node}
    (hb : t.Below n lo) (hin : i < n) (h1 : lo ≤ pn) (h2 : pn + (node.name.length + 1) ≤ pd)
    (h3 : pd + 8 * node.dims.length ≤ hi) (hpn : pn < 2 ^ 64) (hpd : pd < 2 ^ 64)
    (hlen : node.dims.length < 2 ^ 64) (hm1 : m1 = m0.store pn (node.name ++ [0]))
    (hm2 : m2 = m1.storeWord (t.names + 8 * i) pn)
    (hm3 : m3 = m2.store pd ((node.dims.map dimWord).flatMap (wordBytes 8)))
    (hm4 : m4 = m3.storeWord (t.dims + 8 * i) pd)
    (hm5 : m5 = m4.storeWord (t.counts + 8 * i) node.dims.length) :
    t.Holds m5 i node lo hi ∧ ∀ x, x < lo → ¬ t.Entry i x → m5 x = m0 x := by
  obtain ⟨hb1, hb2, hb3⟩ := hb
  have e1 : ∀ x, x < pn ∨ pn + (node.name.length + 1) ≤ x → m1 x = m0 x := fun x hx => by
    rw [hm1, ByteMem.store_of_notMem (by simpa using hx)]
  have e2 : ∀ x, x < t.names + 8 * i ∨ t.names + 8 * i + 8 ≤ x → m2 x = m1 x := fun x hx => by
    rw [hm2, ByteMem.storeWord_of_notMem hx]
  have e3 : ∀ x, x < pd ∨ pd + 8 * node.dims.length ≤ x → m3 x = m2 x := fun x hx => by
    rw [hm3, ByteMem.store_of_notMem]
    rwa [ByteMem.length_flatMap_wordBytes, List.length_map]
  have e4 : ∀ x, x < t.dims + 8 * i ∨ t.dims + 8 * i + 8 ≤ x → m4 x = m3 x := fun x hx => by
    rw [hm4, ByteMem.storeWord_of_notMem hx]
  have e5 : ∀ x, x < t.counts + 8 * i ∨ t.counts + 8 * i + 8 ≤ x → m5 x = m4 x := fun x hx => by
    rw [hm5, ByteMem.storeWord_of_notMem hx]
  -- each write, after the ones that follow it
  have hname : m5.loadWord (t.names + 8 * i) = pn := by
    rw [ByteMem.loadWord_congr fun x _ _ => (e5 x (by omega)).trans
      ((e4 x (by omega)).trans (e3 x (by omega))), hm2]
    exact ByteMem.loadWord_storeWord hpn
  have hdims : m5.loadWord (t.dims + 8 * i) = pd := by
    rw [ByteMem.loadWord_congr fun x _ _ => e5 x (by omega), hm4]
    exact ByteMem.loadWord_storeWord hpd
  have hcount : m5.loadWord (t.counts + 8 * i) = node.dims.length := by
    rw [hm5]
    exact ByteMem.loadWord_storeWord hlen
  refine ⟨⟨?_, ?_, ?_, ?_, ?_, ?_, hcount⟩, ?_⟩
  · rw [hname, ByteMem.load_congr fun x _ _ => (e5 x (by omega)).trans ((e4 x (by omega)).trans
      ((e3 x (by omega)).trans (e2 x (by omega)))), hm1]
    have h : (m0.store pn (node.name ++ [0])).load pn (node.name ++ [0]).length = _ :=
      ByteMem.load_store
    rwa [List.length_append, List.length_singleton] at h
  · rw [hname]
    exact h1
  · rw [hname]
    omega
  · rw [hdims, ByteMem.loadWords_congr fun x _ _ => (e5 x (by omega)).trans (e4 x (by omega)), hm3]
    rw [← List.length_map (f := dimWord)]
    refine ByteMem.loadWords_store ?_
    intro v hv
    obtain ⟨dim, -, rfl⟩ := List.mem_map.1 hv
    exact dimWord_lt dim
  · rw [hdims]
    omega
  · rw [hdims]
    exact h3
  · intro x hx hne
    unfold Tables.Entry at hne
    rw [e5 x (by omega), e4 x (by omega), e3 x (by omega), e2 x (by omega), e1 x (by omega)]

/-! ## The loops -/

/-- The vectors of a node lie next to the slab. -/
def Node.Beside (capacity : Nat) (node : Node) : Prop :=
  Core.Beside capacity (node.name.length + 1) ∧ Core.Beside capacity (node.dims.length * 8)

variable {s s' : Slab} {t : Tables} {i n : Nat} {u : Unit}

theorem isAlign_1 : LumenArena.IsAlign 1 := ⟨0, by decide, rfl⟩

theorem isAlign_8 : LumenArena.IsAlign 8 := ⟨3, by decide, rfl⟩

theorem migrateNode_spec {node : Node} (hs : Sound alignedAlloc capacity s.arena)
    (hb : t.Below n s.top) (hin : i < n) (hnode : node.Beside capacity)
    (he : (migrateNode t i node).exec s = (.ok u, s')) :
    Sound alignedAlloc capacity s'.arena ∧ Grown s.arena s'.arena ∧
      t.Holds s'.mem i node s.top s'.top ∧
      ∀ x, x < s.top → ¬ t.Entry i x → s'.mem x = s.mem x := by
  obtain ⟨hname, hdims⟩ := hnode
  unfold migrateNode at he
  obtain ⟨pn, s1, ha1, he⟩ := exec_bind_ok.1 he
  obtain ⟨_, s2, h2, he⟩ := exec_bind_ok.1 he
  obtain ⟨_, s3, h3, he⟩ := exec_bind_ok.1 he
  obtain ⟨pd, s4, ha2, he⟩ := exec_bind_ok.1 he
  obtain ⟨_, s5, h5, he⟩ := exec_bind_ok.1 he
  obtain ⟨_, s6, h6, h7⟩ := exec_bind_ok.1 he
  obtain rfl := exec_modify.1 h2
  obtain rfl := exec_modify.1 h3
  obtain rfl := exec_modify.1 h5
  obtain rfl := exec_modify.1 h6
  obtain rfl := exec_modify.1 h7
  have t1 := allocTyped_spec hs (by rwa [Nat.mul_one]) isAlign_1 (by decide) ha1
  have t2 := allocTyped_spec (by exact t1.sound) hdims isAlign_8 (by decide) ha2
  have h1 := t1.fits
  have h2 : s1.top ≤ pd := t2.le
  have h3 := t2.fits
  refine ⟨t2.sound, t1.grown.trans t2.grown, ?_⟩
  have hm1 : s1.mem.store pn (node.name ++ [0]) = s.mem.store pn (node.name ++ [0]) := by
    rw [t1.mem]
  have hm2 : s4.mem = (s1.mem.store pn (node.name ++ [0])).storeWord (t.names + 8 * i) pn := t2.mem
  refine holds_writes hb hin t1.le ?_ ?_ t1.lt t2.lt ?_ hm1 hm2 rfl rfl rfl
  · omega
  · show pd + 8 * node.dims.length ≤ s4.top
    omega
  · unfold Core.Beside at hdims
    omega

/-- A copy loop from the index `i` on: what it has copied stays, for it only writes to the elements
that follow and to new blocks. -/
theorem migrateNodes_spec {nodes : List Node} (hs : Sound alignedAlloc capacity s.arena)
    (hb : t.Below n s.top) (hin : i + nodes.length ≤ n)
    (hnodes : ∀ node ∈ nodes, node.Beside capacity)
    (he : (migrateNodes t i nodes).exec s = (.ok u, s')) :
    Sound alignedAlloc capacity s'.arena ∧ Grown s.arena s'.arena ∧
      (∀ k node, nodes[k]? = some node → t.Holds s'.mem (i + k) node s.top s'.top) ∧
      ∀ x, x < s.top → (∀ k, i ≤ k → k < n → ¬ t.Entry k x) → s'.mem x = s.mem x := by
  induction nodes generalizing i s with
  | nil =>
    cases he
    exact ⟨hs, .refl _, fun k node hk => (by cases hk), fun _ _ _ => rfl⟩
  | cons node nodes ih =>
    rw [List.length_cons] at hin
    obtain ⟨_, s1, h1, he⟩ := exec_bind_ok.1 he
    obtain ⟨hs1, hg1, hh1, hm1⟩ :=
      migrateNode_spec hs hb (by omega) (hnodes node List.mem_cons_self) h1
    have htop := hg1.top
    have hb1 : t.Below n s1.top := ⟨hb.names, hb.dims, Nat.le_trans hb.counts htop⟩
    obtain ⟨hs', hg', hh', hm'⟩ := ih hs1 hb1 (by omega)
      (fun node hn => hnodes node (List.mem_cons_of_mem _ hn)) he
    have htop' := hg'.top
    obtain ⟨hb1, hb2, hb3⟩ := hb
    refine ⟨hs', hg1.trans hg', ?_, ?_⟩
    · intro k node' hk
      cases k with
      | zero =>
        cases hk
        -- the blocks lie above the arrays, and the element is not one of those that follow
        refine (hh1.congr fun x hx => hm' x ?_ ?_).mono (Nat.le_refl _) htop'
        · unfold Tables.Entry at hx
          omega
        · intro k hk hkn
          unfold Tables.Entry at hx ⊢
          omega
      | succ k =>
        have := hh' k node' hk
        rw [show i + (k + 1) = i + 1 + k by omega]
        exact this.mono htop (Nat.le_refl _)
    · intro x hx hne
      rw [hm' x (by omega) fun k hk hkn => hne k (by omega) hkn,
        hm1 x hx (hne i (by omega) (by omega))]

/-! ## The migration -/

/-- The vectors of the heap lie next to the slab. -/
structure Engine.Beside (capacity : Nat) (engine : Engine) : Prop where
  inputs : Core.Beside capacity (engine.inputs.length * 8)
  outputs : Core.Beside capacity (engine.outputs.length * 8)
  input : ∀ node ∈ engine.inputs, node.Beside capacity
  output : ∀ node ∈ engine.outputs, node.Beside capacity

/-- The metadata of `heap` is in the arena of `engine`, between the addresses `lo` and `hi`. -/
structure Copied (heap engine : Engine) (mem : ByteMem) (lo hi : Nat) : Prop where
  migrated : engine.metadataMigrated = true
  numInputs : engine.numInputs = heap.inputs.length
  numOutputs : engine.numOutputs = heap.outputs.length
  inputs_le : lo ≤ engine.inputTables.names
  inputs_below : engine.inputTables.Below heap.inputs.length hi
  outputs_le : lo ≤ engine.outputTables.names
  outputs_below : engine.outputTables.Below heap.outputs.length hi
  inputs : ∀ i node, heap.inputs[i]? = some node → engine.inputTables.Holds mem i node lo hi
  outputs : ∀ i node, heap.outputs[i]? = some node → engine.outputTables.Holds mem i node lo hi

theorem Tables.Below.entry {lo hi k x : Nat} (hb : t.Below n hi) (hlo : lo ≤ t.names) (hk : k < n)
    (h : t.Entry k x) : lo ≤ x ∧ x < hi := by
  obtain ⟨h1, h2, h3⟩ := hb
  unfold Tables.Entry at h
  omega

/-- It is a matter of the bytes between these addresses. -/
theorem Copied.congr {heap engine : Engine} {mem mem' : ByteMem} {lo hi : Nat}
    (h : Copied heap engine mem lo hi) (hmem : ∀ x, lo ≤ x → x < hi → mem' x = mem x) :
    Copied heap engine mem' lo hi := by
  have hnode : ∀ {t : Tables} {nodes : List Node}, lo ≤ t.names → t.Below nodes.length hi →
      (∀ i node, nodes[i]? = some node → t.Holds mem i node lo hi) →
      ∀ i node, nodes[i]? = some node → t.Holds mem' i node lo hi := by
    intro t nodes hlo hb hh i node hi
    refine (hh i node hi).congr ?_
    intro x hx
    rcases hx with ⟨h1, h2⟩ | hx
    · exact hmem x h1 h2
    · obtain ⟨h1, h2⟩ := hb.entry hlo (List.getElem?_eq_some_iff.1 hi).1 hx
      exact hmem x h1 h2
  exact ⟨h.migrated, h.numInputs, h.numOutputs, h.inputs_le, h.inputs_below, h.outputs_le,
    h.outputs_below, hnode h.inputs_le h.inputs_below h.inputs,
    hnode h.outputs_le h.outputs_below h.outputs⟩

/-- **The migration** copies all metadata into new memory, and writes nowhere else. -/
theorem migrate_spec {heap engine : Engine} (hs : Sound alignedAlloc capacity s.arena)
    (hheap : heap.Beside capacity)
    (he : (migrateMetadataToArena heap).exec s = (.ok engine, s')) :
    Sound alignedAlloc capacity s'.arena ∧ Grown s.arena s'.arena ∧
      Copied heap engine s'.mem s.top s'.top ∧ ∀ x, x < s.top → s'.mem x = s.mem x := by
  obtain ⟨hin, hout, hinput, houtput⟩ := hheap
  unfold migrateMetadataToArena at he
  obtain ⟨p1, s1, h1, he⟩ := exec_bind_ok.1 he
  obtain ⟨p2, s2, h2, he⟩ := exec_bind_ok.1 he
  obtain ⟨p3, s3, h3, he⟩ := exec_bind_ok.1 he
  obtain ⟨p4, s4, h4, he⟩ := exec_bind_ok.1 he
  obtain ⟨p5, s5, h5, he⟩ := exec_bind_ok.1 he
  obtain ⟨p6, s6, h6, he⟩ := exec_bind_ok.1 he
  obtain ⟨_, s7, h7, he⟩ := exec_bind_ok.1 he
  obtain ⟨_, s8, h8, he⟩ := exec_bind_ok.1 he
  cases he
  -- the six arrays, each above the one before
  have t1 := allocTyped_spec hs hin isAlign_8 (by decide) h1
  have t2 := allocTyped_spec t1.sound hout isAlign_8 (by decide) h2
  have t3 := allocTyped_spec t2.sound hin isAlign_8 (by decide) h3
  have t4 := allocTyped_spec t3.sound hout isAlign_8 (by decide) h4
  have t5 := allocTyped_spec t4.sound hin isAlign_8 (by decide) h5
  have t6 := allocTyped_spec t5.sound hout isAlign_8 (by decide) h6
  have hmem : s6.mem = s.mem := by rw [t6.mem, t5.mem, t4.mem, t3.mem, t2.mem, t1.mem]
  have hgrown := ((((t1.grown.trans t2.grown).trans t3.grown).trans t4.grown).trans t5.grown).trans
    t6.grown
  obtain ⟨-, -, -, l1, f1, -⟩ := t1
  obtain ⟨-, -, -, l2, f2, -⟩ := t2
  obtain ⟨-, -, -, l3, f3, -⟩ := t3
  obtain ⟨-, -, -, l4, f4, -⟩ := t4
  obtain ⟨-, -, -, l5, f5, -⟩ := t5
  obtain ⟨hs6, -, -, l6, f6, -⟩ := t6
  have hbin : Tables.Below ⟨p1, p3, p5⟩ heap.inputs.length s6.top :=
    ⟨by simp only; omega, by simp only; omega, by simp only; omega⟩
  have hbout : Tables.Below ⟨p2, p4, p6⟩ heap.outputs.length s6.top :=
    ⟨by simp only; omega, by simp only; omega, by simp only; omega⟩
  obtain ⟨hs7, g7, hh7, m7⟩ := migrateNodes_spec hs6 hbin (by omega) hinput h7
  have hbout' : Tables.Below ⟨p2, p4, p6⟩ heap.outputs.length s7.top :=
    ⟨hbout.names, hbout.dims, Nat.le_trans hbout.counts g7.top⟩
  obtain ⟨hs8, g8, hh8, m8⟩ := migrateNodes_spec hs7 hbout' (by omega) houtput h8
  have htop : s.top ≤ s6.top := hgrown.top
  have htop7 := g7.top
  have htop8 := g8.top
  refine ⟨hs8, (hgrown.trans g7).trans g8, ⟨rfl, rfl, rfl, l1, ?_, ?_, ?_, ?_,
    ?_⟩, ?_⟩
  · exact ⟨hbin.names, hbin.dims, Nat.le_trans hbin.counts (by omega)⟩
  · show s.top ≤ p2
    omega
  · exact ⟨hbout.names, hbout.dims, Nat.le_trans hbout.counts (by omega)⟩
  · intro i node hi
    -- the second loop leaves what the first one has copied
    have h := hh7 i node hi
    rw [Nat.zero_add] at h
    have hlt : i < heap.inputs.length := (List.getElem?_eq_some_iff.1 hi).1
    refine (h.congr fun x hx => m8 x ?_ ?_).mono htop htop8
    · unfold Tables.Entry at hx
      simp only at hx
      omega
    · intro k _ hk
      unfold Tables.Entry at hx ⊢
      simp only at hx ⊢
      omega
  · intro i node hi
    have h := hh8 i node hi
    rw [Nat.zero_add] at h
    exact h.mono (by omega) (Nat.le_refl _)
  · intro x hx
    rw [m8 x (by omega) fun k _ hk => ?_, m7 x (by omega) fun k _ hk => ?_, hmem]
    all_goals
      unfold Tables.Entry
      simp only
      omega

end
end Lumen.Core
