import Mathlib.Data.List.Basic

/-!
# Length-prefixed frames

A stream of symbols is cut into frames: a header of a fixed length, which gives the length of the
payload, then the payload. `Format.parse` is the reference reading of a finite stream: the payloads
of its complete frames and what is left; it stops at a header that announces an empty payload.

A reader that gets the stream in pieces has read the payloads `ps` and keeps the symbols `rest`:
`Reads bs ps rest` says that this is right whatever comes next. Reading a further piece
(`Reads.append`) and completing a frame (`Reads.frame`) keep it.
-/

set_option autoImplicit false

namespace Lumen.Lib.Framing

/-- The length of the headers, and the length of the payload that a header announces. -/
structure Format (α : Type*) where
  headerLength : Nat
  payloadLength : List α → Nat

namespace Format

variable {α : Type*} (F : Format α)

/-- The payloads of the complete frames of a stream, and what is left. -/
def parse (bs : List α) : List (List α) × List α :=
  let n := F.payloadLength (bs.take F.headerLength)
  if _h : n ≠ 0 ∧ F.headerLength + n ≤ bs.length then
    let rest := parse (bs.drop (F.headerLength + n))
    ((bs.drop F.headerLength).take n :: rest.1, rest.2)
  else ([], bs)
termination_by bs.length
decreasing_by
  rw [List.length_drop]
  omega

/-- The stream goes on with a header that announces an empty payload. -/
def Empty (bs : List α) : Prop :=
  F.headerLength ≤ bs.length ∧ F.payloadLength (bs.take F.headerLength) = 0

/-- No frame is complete. -/
def Partial (bs : List α) : Prop :=
  F.payloadLength (bs.take F.headerLength) = 0 ∨
    bs.length < F.headerLength + F.payloadLength (bs.take F.headerLength)

variable {F} {bs ps' rest header payload : List α} {ps : List (List α)}

theorem parse_partial (h : F.Partial bs) : F.parse bs = ([], bs) := by
  rw [parse, dif_neg]
  rintro ⟨h1, h2⟩
  exact h.elim h1 (by omega)

theorem parse_frame (hh : header.length = F.headerLength)
    (hp : F.payloadLength header = payload.length) (h0 : payload ≠ []) :
    F.parse (header ++ (payload ++ rest)) =
      (payload :: (F.parse rest).1, (F.parse rest).2) := by
  have hlen : 0 < payload.length := List.length_pos_iff.2 h0
  have htake : (header ++ (payload ++ rest)).take F.headerLength = header := by
    rw [← hh, List.take_left]
  rw [parse]
  simp only [htake, hp]
  rw [dif_pos ⟨by omega, by simp only [List.length_append]; omega⟩, ← hh, List.drop_left,
    List.take_left, ← List.drop_drop, List.drop_left, List.drop_left]

/-- No payload is empty. -/
theorem parse_ne_nil : ∀ p ∈ (F.parse bs).1, p ≠ [] := by
  induction bs using parse.induct F with
  | case1 bs n h ih =>
    rw [parse, dif_pos h]
    intro p hp
    rcases List.mem_cons.1 hp with rfl | hp
    · rw [← List.length_pos_iff, List.length_take, List.length_drop]
      have hn : F.payloadLength (bs.take F.headerLength) ≠ 0 := h.1
      have hle : F.headerLength + F.payloadLength (bs.take F.headerLength) ≤ bs.length := h.2
      omega
    · exact ih p hp
  | case2 bs n h =>
    rw [parse, dif_neg h]
    intro p hp
    cases hp

theorem parse_nil : F.parse [] = ([], []) := by
  refine parse_partial ?_
  unfold Partial
  rw [List.length_nil]
  omega

/-- A stream of frames; `header n` is the header of a payload of `n` symbols. -/
def frames (header : Nat → List α) (payloads : List (List α)) : List α :=
  payloads.flatMap fun payload => header payload.length ++ payload

/-- What a writer with the right headers has written is read back. -/
theorem parse_frames {header : Nat → List α} {payloads : List (List α)}
    (h : ∀ payload ∈ payloads, payload ≠ [] ∧
      (header payload.length).length = F.headerLength ∧
        F.payloadLength (header payload.length) = payload.length) :
    F.parse (frames header payloads) = (payloads, []) := by
  induction payloads with
  | nil => exact parse_nil
  | cons payload payloads ih =>
    obtain ⟨h0, hh, hp⟩ := h payload List.mem_cons_self
    rw [frames, List.flatMap_cons, List.append_assoc, parse_frame hh hp h0]
    have hrest := ih fun p hp => h p (List.mem_cons_of_mem _ hp)
    rw [frames] at hrest
    rw [hrest]

end Format

/-! ## Readers -/

/-- A reader that has got `bs` has read the payloads `ps` and keeps `rest`. -/
def Format.Reads {α : Type*} (F : Format α) (bs : List α) (ps : List (List α)) (rest : List α) :
    Prop :=
  ∀ more, F.parse (bs ++ more) = (ps ++ (F.parse (rest ++ more)).1, (F.parse (rest ++ more)).2)

namespace Format.Reads

variable {α : Type*} {F : Format α} {bs rest : List α} {ps : List (List α)}

theorem nil : F.Reads [] [] [] := fun _ => rfl

/-- A further piece. -/
theorem append (hr : F.Reads bs ps rest) (piece : List α) :
    F.Reads (bs ++ piece) ps (rest ++ piece) := fun more => by
  rw [List.append_assoc, List.append_assoc]
  exact hr (piece ++ more)

/-- The frame that is kept is complete. -/
theorem frame {header payload : List α} (hr : F.Reads bs ps (header ++ payload))
    (hh : header.length = F.headerLength) (hp : F.payloadLength header = payload.length)
    (h0 : payload ≠ []) : F.Reads bs (ps ++ [payload]) [] := fun more => by
  rw [hr more, List.append_assoc, parse_frame hh hp h0, List.nil_append, List.append_assoc]
  rfl

/-- What is read is right for every stream that begins with what has come. -/
theorem payloads_prefix (hr : F.Reads bs ps rest) {stream : List α} (hs : bs <+: stream) :
    ps <+: (F.parse stream).1 := by
  obtain ⟨more, rfl⟩ := hs
  rw [hr more]
  exact List.prefix_append _ _

/-- A reader that keeps no complete frame has read all that has come. -/
theorem parse_eq (hr : F.Reads bs ps rest) (h : F.Partial rest) : F.parse bs = (ps, rest) := by
  have := hr []
  rwa [List.append_nil, List.append_nil, parse_partial h, List.append_nil] at this

end Format.Reads
end Lumen.Lib.Framing
