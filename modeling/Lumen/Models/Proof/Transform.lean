import Lumen.Core.Metadata
import Lumen.Lib.RowMajor
import Lumen.Models.ImageNetProcessor

/-!
# Preprocessing transposes the image

The loops of `transform` run through the `3 * width * height` bytes of the image in order and
through the tensor in the transposed order, all modulo `2 ^ 64` (`visits_eq`). Below `2 ^ 64` that
is the transposition from pixels to planes (`transform_transposes`), which overwrites whatever the
buffer held (`transformBy_planes`). The guard of `run` keeps the accesses inside both buffers
exactly for the shapes with room for three planes (`guard_iff`).
-/

set_option autoImplicit false

namespace Lumen.Models.ImageNetPreProcessor

open Lumen.Lib Lumen.Lib.RowMajor Lumen.Core

section
variable {width height x y c : Nat}

/-! ## The indices -/

theorem srcIdx_eq (width y x c : Nat) :
    srcIdx width y x c = ((y * width + x) * 3 + c) % 2 ^ 64 := by
  unfold srcIdx add64 mul64
  simp only [Nat.mod_add_mod, Nat.mod_mul_mod]

theorem dstIdx_eq (width height y x c : Nat) :
    dstIdx width (mul64 width height) y x c =
      (c * (height * width) + (y * width + x)) % 2 ^ 64 := by
  unfold dstIdx add64 mul64
  simp only [Nat.mod_add_mod, Nat.add_mod_mod, Nat.mul_mod_mod, Nat.mul_comm width]

/-- The visit of the byte `i` of the image. -/
def visit (area i : Nat) : Visit :=
  { c := i % 3, src := i % 2 ^ 64, dst := transpose 3 area i % 2 ^ 64 }

/-- The three loops are one loop over the bytes of the image. -/
theorem visits_eq (width height : Nat) :
    visits width height = (List.range (height * width * 3)).map (visit (height * width)) := by
  have hinner : ∀ p, ((List.range 3).map fun c => visit (height * width) (p * 3 + c)) =
      ((List.range 3).map fun c => p * 3 + c).map (visit (height * width)) := by
    intro p
    rw [List.map_map]
    rfl
  have hvisit : ∀ y x, ((List.range 3).map fun c =>
      Visit.mk c (srcIdx width y x c) (dstIdx width (mul64 width height) y x c)) =
      (List.range 3).map fun c => visit (height * width) ((y * width + x) * 3 + c) := by
    intro y x
    refine List.map_congr_left fun c hc => ?_
    have hc := List.mem_range.1 hc
    rw [visit, transpose_index hc, index_mod hc, srcIdx_eq, dstIdx_eq]
  calc visits width height
      = (List.range height).flatMap fun y => (List.range width).flatMap fun x =>
          (List.range 3).map fun c => visit (height * width) ((y * width + x) * 3 + c) := by
        simp only [visits, hvisit]
    _ = ((List.range height).flatMap fun y => (List.range width).map fun x => y * width + x).flatMap
          fun p => (List.range 3).map fun c => visit (height * width) (p * 3 + c) := by
        simp only [List.flatMap_assoc, List.flatMap_map]
    _ = ((List.range (height * width)).flatMap fun p =>
          (List.range 3).map fun c => p * 3 + c).map (visit (height * width)) := by
        rw [RowMajor.flatMap_range, List.map_flatMap]
        simp only [hinner]
    _ = (List.range (height * width * 3)).map (visit (height * width)) := by
        rw [RowMajor.flatMap_range]

/-- Every index of the planes is written, modulo `2 ^ 64`. -/
theorem exists_visit {j : Nat} (hj : j < height * width * 3) :
    ∃ v ∈ visits width height, v.dst = j % 2 ^ 64 := by
  rw [Nat.mul_comm] at hj
  have hback := transpose_lt hj
  rw [Nat.mul_comm 3] at hback
  refine ⟨visit (height * width) (transpose (height * width) 3 j), ?_, ?_⟩
  · rw [visits_eq]
    exact List.mem_map_of_mem (List.mem_range.2 hback)
  · rw [visit, transpose_transpose hj]

/-! ## The loop -/

variable {α : Type} {norm : Nat → UInt8 → α} {pixels : List UInt8} {tensor tensor' : List α}
  {vs : List Visit}

/-- Both accesses of an iteration are inside their buffers. -/
def Visit.Inside (v : Visit) (pixelCount tensorCount : Nat) : Prop :=
  v.src < pixelCount ∧ v.dst < tensorCount

/-- What an iteration writes, and where. -/
def Visit.store (norm : Nat → UInt8 → α) (pixels : List UInt8) (v : Visit) : Nat × α :=
  (v.dst, norm v.c (pixels.getD v.src 0))

theorem write_eq_some {v : Visit} :
    write norm pixels tensor v = some tensor' ↔ v.Inside pixels.length tensor.length ∧
      tensor' = tensor.set (v.store norm pixels).1 (v.store norm pixels).2 := by
  unfold write Visit.Inside Visit.store
  split
  · rename_i pixel hp
    have hlt := (List.getElem?_eq_some_iff.1 hp).1
    have hget : pixels.getD v.src 0 = pixel := by
      rw [List.getD_eq_getElem?_getD, hp, Option.getD_some]
    rw [hget]
    split
    · rename_i hd
      simp [hlt, hd, eq_comm]
    · rename_i hd
      simp [hd]
  · rename_i hp
    have hle := List.getElem?_eq_none_iff.1 hp
    simp [Nat.not_lt.2 hle]

/-- The loop gets through exactly if every access is inside, and then stores every value in turn. -/
theorem foldlM_write :
    vs.foldlM (write norm pixels) tensor = some tensor' ↔
      (∀ v ∈ vs, v.Inside pixels.length tensor.length) ∧
        tensor' = (vs.map (Visit.store norm pixels)).foldl (fun t p => t.set p.1 p.2) tensor := by
  induction vs generalizing tensor with
  | nil => simp [eq_comm]
  | cons v vs ih =>
    rw [List.foldlM_cons, Option.bind_eq_bind, Option.bind_eq_some_iff]
    constructor
    · intro ⟨t, hw, hvs⟩
      obtain ⟨hv, rfl⟩ := write_eq_some.1 hw
      obtain ⟨hin, rfl⟩ := ih.1 hvs
      rw [List.length_set] at hin
      exact ⟨List.forall_mem_cons.2 ⟨hv, hin⟩, rfl⟩
    · intro ⟨hin, heq⟩
      obtain ⟨hv, hvs⟩ := List.forall_mem_cons.1 hin
      refine ⟨_, write_eq_some.2 ⟨hv, rfl⟩, ih.2 ⟨?_, heq⟩⟩
      rwa [List.length_set]

theorem transformBy_isSome : (transformBy norm pixels tensor width height).isSome ↔
    ∀ v ∈ visits width height, v.Inside pixels.length tensor.length := by
  rw [Option.isSome_iff_exists]
  constructor
  · intro ⟨_, h⟩
    exact (foldlM_write.1 h).1
  · intro h
    exact ⟨_, foldlM_write.2 ⟨h, rfl⟩⟩

/-! ## The transposition -/

/-- Without wrapping, the pixel `(y, x)` is read at its place and each of its channels is written at
the same place of its plane. -/
theorem indices_exact (hsize : 3 * width * height < 2 ^ 64) (hy : y < height) (hx : x < width)
    (hc : c < 3) :
    mul64 width height = width * height ∧
    srcIdx width y x c = (y * width + x) * 3 + c ∧ (y * width + x) * 3 + c < 3 * width * height ∧
    dstIdx width (mul64 width height) y x c = c * width * height + y * width + x ∧
    c * width * height + y * width + x < 3 * width * height := by
  have harea : 3 * width * height = height * width * 3 := by
    rw [Nat.mul_assoc, Nat.mul_comm, Nat.mul_comm width]
  have hplane : c * width * height = c * (height * width) := by
    rw [Nat.mul_assoc, Nat.mul_comm width]
  have hsrc := index_lt (index_lt hy hx) hc
  have hdst : c * (height * width) + (y * width + x) < 3 * (height * width) :=
    index_lt hc (index_lt hy hx)
  have hcomm := Nat.mul_comm width height
  rw [srcIdx_eq, dstIdx_eq, hplane, harea, Nat.add_assoc]
  rw [harea] at hsize
  refine ⟨mul64_of_lt (by omega), Nat.mod_eq_of_lt (by omega), hsrc, Nat.mod_eq_of_lt (by omega),
    by omega⟩

/-- The visits without the wrapping. -/
theorem visits_exact (hsize : 3 * width * height < 2 ^ 64) :
    (visits width height).map Visit.src = List.range (height * width * 3) ∧
    (visits width height).map Visit.dst =
      (List.range (height * width * 3)).map (transpose 3 (height * width)) := by
  have harea : 3 * width * height = height * width * 3 := by
    rw [Nat.mul_assoc, Nat.mul_comm, Nat.mul_comm width]
  rw [visits_eq, List.map_map, List.map_map]
  constructor
  · conv => rhs; rw [← List.map_id (List.range _)]
    refine List.map_congr_left fun i hi => ?_
    have hi := List.mem_range.1 hi
    exact Nat.mod_eq_of_lt (by omega)
  · refine List.map_congr_left fun i hi => ?_
    have hi := transpose_lt (List.mem_range.1 hi)
    exact Nat.mod_eq_of_lt (by omega)

theorem store_fst (norm : Nat → UInt8 → α) (pixels : List UInt8) :
    ((visits width height).map (Visit.store norm pixels)).map Prod.fst =
      (visits width height).map Visit.dst := by
  rw [List.map_map]
  rfl

theorem dst_perm (hsize : 3 * width * height < 2 ^ 64) :
    ((visits width height).map Visit.dst).Perm (List.range (3 * width * height)) := by
  have harea : 3 * width * height = height * width * 3 := by
    rw [Nat.mul_assoc, Nat.mul_comm, Nat.mul_comm width]
  rw [(visits_exact hsize).2, harea]
  exact transpose_perm 3 (height * width)

/-- A loop that gets through leaves at the index of each visit what it has written there. -/
theorem stored (hsize : 3 * width * height < 2 ^ 64)
    (h : transformBy norm pixels tensor width height = some tensor') {v : Visit}
    (hv : v ∈ visits width height) : tensor'[v.dst]? = some (norm v.c (pixels.getD v.src 0)) := by
  obtain ⟨hinside, rfl⟩ := foldlM_write.1 h
  have hnodup : (((visits width height).map (Visit.store norm pixels)).map Prod.fst).Nodup := by
    rw [store_fst]
    exact (dst_perm hsize).nodup_iff.2 List.nodup_range
  exact foldl_set_of_mem hnodup (List.mem_map_of_mem hv) (hinside v hv).2

/-- The visit of the channel `c` of the pixel `(y, x)`. -/
theorem visit_mem (hsize : 3 * width * height < 2 ^ 64) (hy : y < height) (hx : x < width)
    (hc : c < 3) :
    { c, src := (y * width + x) * 3 + c, dst := c * width * height + y * width + x } ∈
      visits width height := by
  obtain ⟨-, hsrc, -, hdst, -⟩ := indices_exact hsize hy hx hc
  rw [← hsrc, ← hdst]
  exact List.mem_flatMap.2 ⟨y, List.mem_range.2 hy, List.mem_flatMap.2 ⟨x, List.mem_range.2 hx,
    List.mem_map.2 ⟨c, List.mem_range.2 hc, rfl⟩⟩⟩

/-- **`transform` is the transposition from pixels to planes**: every byte of the image is read once
and every element of the three planes written once, with the normalised channel of its pixel, and no
index wraps. -/
theorem transform_transposes {tensor : Buffer} (hsize : 3 * width * height < 2 ^ 64)
    (hp : 3 * width * height ≤ pixels.length) (ht : 3 * width * height ≤ tensor.length) :
    ((visits width height).map Visit.src).Perm (List.range (3 * width * height)) ∧
    ((visits width height).map Visit.dst).Perm (List.range (3 * width * height)) ∧
    (∀ y < height, ∀ x < width, ∀ c < 3,
      mul64 width height = width * height ∧
      srcIdx width y x c = (y * width + x) * 3 + c ∧ (y * width + x) * 3 + c < 2 ^ 64 ∧
      dstIdx width (mul64 width height) y x c = c * width * height + y * width + x ∧
      c * width * height + y * width + x < 2 ^ 64) ∧
    ∃ tensor', transform pixels tensor width height = some tensor' ∧
      (∀ y < height, ∀ x < width, ∀ c < 3, ∃ pixel,
        pixels[(y * width + x) * 3 + c]? = some pixel ∧
        tensor'[c * width * height + y * width + x]? = some (some
          (((pixel.toNat : Rat) / 255 - [485 / 1000, 456 / 1000, 406 / 1000].getD c 0) /
            [229 / 1000, 224 / 1000, 225 / 1000].getD c 0))) ∧
      (∀ i < 3 * width * height, ∃ value, tensor'[i]? = some (some value)) ∧
      ∀ i, 3 * width * height ≤ i → tensor'[i]? = tensor[i]? := by
  have harea : 3 * width * height = height * width * 3 := by
    rw [Nat.mul_assoc, Nat.mul_comm, Nat.mul_comm width]
  obtain ⟨hsrc, -⟩ := visits_exact hsize
  have hperm := dst_perm hsize
  have hinside : ∀ v ∈ visits width height, v.Inside pixels.length tensor.length := by
    intro v hv
    have h1 : v.src ∈ List.range (height * width * 3) := hsrc ▸ List.mem_map_of_mem hv
    have h2 : v.dst ∈ List.range (3 * width * height) := hperm.mem_iff.1 (List.mem_map_of_mem hv)
    rw [List.mem_range] at h1 h2
    exact ⟨by omega, by omega⟩
  have heq : transform pixels tensor width height = some _ := foldlM_write.2 ⟨hinside, rfl⟩
  refine ⟨?_, hperm, fun y hy x hx c hc => ?_, _, heq, fun y hy x hx c hc => ?_, fun i hi => ?_,
    fun i hi => ?_⟩
  · rw [hsrc, harea]
  · obtain ⟨h1, h2, h3, h4, h5⟩ := indices_exact hsize hy hx hc
    exact ⟨h1, h2, by omega, h4, by omega⟩
  · obtain ⟨-, -, hlt, -, -⟩ := indices_exact hsize hy hx hc
    have hget : pixels[(y * width + x) * 3 + c]? =
        some (pixels.getD ((y * width + x) * 3 + c) 0) := by
      rw [List.getD_eq_getElem?_getD, List.getElem?_eq_getElem (by omega), Option.getD_some]
    exact ⟨_, hget, stored hsize heq (visit_mem hsize hy hx hc)⟩
  · obtain ⟨v, hv, rfl⟩ := List.mem_map.1 (hperm.mem_iff.2 (List.mem_range.2 hi))
    exact ⟨_, stored hsize heq hv⟩
  · refine foldl_set_of_notMem ?_
    rw [store_fst, hperm.mem_iff, List.mem_range]
    omega

/-- An image of two columns and one row, into a buffer with one element more: the red of the second
pixel and the blue of the first. -/
theorem transform_transposes_small :
    ((visits 2 1).map Visit.dst).Perm (List.range 6) ∧
      ∃ tensor', transform [0, 51, 102, 153, 204, 255] (List.replicate 7 none) 2 1 = some tensor' ∧
        tensor'[1]? = some (some (115 / 229 : Rat)) ∧
        tensor'[4]? = some (some (-2 / 75 : Rat)) := by
  have hp : 3 * 2 * 1 ≤ [(0 : UInt8), 51, 102, 153, 204, 255].length := by decide
  have ht : 3 * 2 * 1 ≤ (List.replicate 7 (none : Option Rat)).length := by decide
  obtain ⟨-, hdst, -, tensor', heq, hval, -⟩ := transform_transposes (by decide) hp ht
  refine ⟨hdst, tensor', heq, ?_, ?_⟩
  · obtain ⟨pixel, hpixel, hat⟩ := hval 0 (by decide) 1 (by decide) 0 (by decide)
    obtain rfl := Option.some.inj hpixel
    have hred : (((153 : UInt8).toNat : Rat) / 255 - 485 / 1000) / (229 / 1000) = 115 / 229 := by
      decide +kernel
    exact hat.trans (congrArg (some ∘ some) hred)
  · obtain ⟨pixel, hpixel, hat⟩ := hval 0 (by decide) 0 (by decide) 2 (by decide)
    obtain rfl := Option.some.inj hpixel
    have hblue : (((102 : UInt8).toNat : Rat) / 255 - 406 / 1000) / (225 / 1000) = -2 / 75 := by
      decide +kernel
    exact hat.trans (congrArg (some ∘ some) hblue)

/-! ## The guard of `run` -/

/-- With at least as many bytes as elements, every access is inside both buffers exactly if there is
room for the three planes. -/
theorem inside_iff {pixelCount tensorCount : Nat} (hlt : tensorCount < 2 ^ 64)
    (hle : tensorCount ≤ pixelCount) :
    (∀ v ∈ visits width height, v.Inside pixelCount tensorCount) ↔
      3 * width * height ≤ tensorCount := by
  have harea : 3 * width * height = height * width * 3 := by
    rw [Nat.mul_assoc, Nat.mul_comm, Nat.mul_comm width]
  constructor
  · intro hin
    refine Nat.le_of_not_lt fun hover => ?_
    obtain ⟨v, hv, hdst⟩ := exists_visit (harea ▸ hover)
    have := (hin v hv).2
    rw [hdst, Nat.mod_eq_of_lt hlt] at this
    omega
  · intro hroom v hv
    have hsize := Nat.lt_of_le_of_lt hroom hlt
    have hsrc : v.src ∈ List.range (height * width * 3) :=
      (visits_exact hsize).1 ▸ List.mem_map_of_mem hv
    have hdst : v.dst ∈ List.range (3 * width * height) :=
      (dst_perm hsize).mem_iff.1 (List.mem_map_of_mem hv)
    rw [List.mem_range] at hsrc hdst
    exact ⟨by omega, by omega⟩

/-- The planes of the image, one after the other. -/
def planes (norm : Nat → UInt8 → α) (pixels : List UInt8) (width height : Nat) : List α :=
  (List.range (3 * (height * width))).map fun j =>
    norm (j / (height * width)) (pixels.getD (transpose (height * width) 3 j) 0)

/-- A buffer that is no larger than the three planes is overwritten with them, whatever it held. -/
theorem transformBy_planes (h : transformBy norm pixels tensor width height = some tensor')
    (hlt : tensor.length < 2 ^ 64) (hle : tensor.length ≤ pixels.length)
    (hroom : tensor.length ≤ 3 * width * height) : tensor' = planes norm pixels width height := by
  have harea : 3 * width * height = 3 * (height * width) := by
    rw [Nat.mul_assoc, Nat.mul_comm width]
  obtain ⟨hin, htensor⟩ := foldlM_write.1 h
  have heq : tensor.length = 3 * (height * width) :=
    harea ▸ Nat.le_antisymm hroom ((inside_iff hlt hle).1 hin)
  have hsize : 3 * (height * width) < 2 ^ 64 := heq ▸ hlt
  refine List.ext_getElem? fun j => ?_
  by_cases hj : j < 3 * (height * width)
  · have hback : transpose (height * width) 3 j < 3 * (height * width) := transpose_lt hj
    have hchannel : transpose (height * width) 3 j % 3 = j / (height * width) :=
      index_mod ((Nat.div_lt_iff_lt_mul (pos_of_lt_mul hj).2).2 hj)
    have hv : visit (height * width) (transpose (height * width) 3 j) ∈ visits width height := by
      rw [visits_eq, Nat.mul_comm _ 3]
      exact List.mem_map_of_mem (List.mem_range.2 hback)
    have hat := stored (harea ▸ hsize) h hv
    rw [visit, transpose_transpose hj, Nat.mod_eq_of_lt (hj.trans hsize), hchannel,
      Nat.mod_eq_of_lt (hback.trans hsize)] at hat
    rw [hat, planes, List.getElem?_map, List.getElem?_range hj, Option.map_some]
  · have hj := Nat.le_of_not_lt hj
    rw [List.getElem?_eq_none, List.getElem?_eq_none]
    · rwa [planes, List.length_map, List.length_range]
    · rwa [htensor, length_foldl_set, heq]

/-- The dimensions of an input that has some, as the engine keeps them. -/
def inputShape (node : Node) : List Int := node.fixBatch.dims.map Int64.toInt

theorem elementCount_lt (shape : List Int) : InferenceEngine.elementCount shape < 2 ^ 64 := by
  have hstep : ∀ (shape : List Int) (n : Nat), n < 2 ^ 64 →
      shape.foldl (fun count dim => if dim > 0 then mul64 count dim.toNat else count) n <
        2 ^ 64 := by
    intro shape
    induction shape with
    | nil => exact fun n hn => hn
    | cons dim shape ih =>
      intro n hn
      refine ih _ ?_
      show (if dim > 0 then mul64 n dim.toNat else n) < 2 ^ 64
      split
      · exact Nat.mod_lt _ (by decide)
      · exact hn
  exact hstep shape 1 (by decide)

theorem length_inputShape (node : Node) : (inputShape node).length = node.dims.length := by
  rw [inputShape, List.length_map, Node.length_fixBatch]

/-- **The payload guard**: for every input of at least four dimensions and every payload with at
least `input_count` bytes, `transform` stays inside both buffers exactly if the buffer has room for
three planes of the width and height it is given. -/
theorem guard_iff {node : Node} {data : List UInt8} (hrank : 4 ≤ node.dims.length)
    (hguard : InferenceEngine.elementCount (inputShape node) ≤ data.length) :
    let inputCount := InferenceEngine.elementCount (inputShape node)
    ∃ dw dh, (inputShape node)[3]? = some dw ∧ (inputShape node)[2]? = some dh ∧
      ((∀ v ∈ visits (sizeT dw) (sizeT dh), v.src < data.length ∧ v.dst < inputCount) ↔
        3 * sizeT dw * sizeT dh ≤ inputCount) ∧
      ((onInput inputCount data dw dh).isSome ↔ 3 * sizeT dw * sizeT dh ≤ inputCount) := by
  intro inputCount
  rw [← length_inputShape] at hrank
  refine ⟨_, _, List.getElem?_eq_getElem (by omega), List.getElem?_eq_getElem (by omega), ?_⟩
  generalize (inputShape node)[3] = dw, (inputShape node)[2] = dh
  have hiff : (∀ v ∈ visits (sizeT dw) (sizeT dh), v.src < data.length ∧ v.dst < inputCount) ↔
      3 * sizeT dw * sizeT dh ≤ inputCount := inside_iff (elementCount_lt _) hguard
  refine ⟨hiff, ?_⟩
  rw [onInput, transform, transformBy_isSome, List.length_replicate]
  exact hiff

end

/-- An input of one channel: four elements, and twelve accesses in each buffer. -/
def grey : Node := { name := bytes "x", dims := [1, 1, 2, 2], zero_notMem := by decide }

/-- The same with three channels. -/
def colour : Node := { name := bytes "x", dims := [1, 3, 2, 2], zero_notMem := by decide }

theorem guard_iff_colour : (onInput 12 (List.replicate 12 7) 2 2).isSome := by
  have hcount : InferenceEngine.elementCount (inputShape colour) ≤
      (List.replicate 12 (7 : UInt8)).length := by decide
  obtain ⟨dw, dh, hw, hh, -, hiff⟩ := guard_iff (by decide) hcount
  obtain rfl : dw = 2 := (Option.some.inj hw).symm
  obtain rfl : dh = 2 := (Option.some.inj hh).symm
  exact hiff.2 (by decide)

/-- A payload of four bytes passes the guard of that input, and is read and written up to
index 11. -/
theorem guard_overrun :
    (inputShape grey)[3]? = some 2 ∧ (inputShape grey)[2]? = some 2 ∧
    InferenceEngine.elementCount (inputShape grey) = 4 ∧
    (∃ v ∈ visits 2 2, ¬ v.src < 4) ∧ ∃ v ∈ visits 2 2, ¬ v.dst < 4 := by
  decide

end Lumen.Models.ImageNetPreProcessor
