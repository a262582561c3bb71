import Lumen.Network.TCPServer

/-!
# The test clients

What the clients of `tests/client` write on a connection: for each payload the header that
`struct.pack` makes of its length, then the payload. `parse_sendRequests` is the round trip through
the framing of the server.
-/

set_option autoImplicit false

namespace Lumen.Network.Client

open Lumen.Lib

/-- The four bytes of a number in network order. -/
def htonl (n : Nat) : List UInt8 :=
  [.ofNat (n / 2 ^ 24), .ofNat (n / 2 ^ 16), .ofNat (n / 2 ^ 8), .ofNat n]

/-- `struct.pack("!I", n)`, which raises an error where `n` has more than 32 bits. -/
def structPack (n : Nat) : Option (List UInt8) := if n < 2 ^ 32 then some (htonl n) else none

/-- `sendall` of the header and of the payload. -/
def sendRequest (payload : List UInt8) : Option (List UInt8) :=
  (structPack payload.length).map fun header => header ++ payload

/-- What is sent for one payload after the other. -/
def sendRequests : List (List UInt8) → Option (List UInt8)
  | [] => some []
  | payload :: payloads =>
    (sendRequest payload).bind fun bytes => (sendRequests payloads).map fun rest => bytes ++ rest

theorem ntohl_htonl {n : Nat} (h : n < 2 ^ 32) : ntohl (htonl n) = n := by
  simp only [ntohl, htonl, List.foldl_cons, List.foldl_nil, UInt8.toNat_ofNat']
  omega

theorem sendRequests_some {payloads : List (List UInt8)} {stream : List UInt8}
    (h : sendRequests payloads = some stream) :
    stream = Framing.Format.frames htonl payloads ∧
      ∀ payload ∈ payloads, payload.length < 2 ^ 32 := by
  induction payloads generalizing stream with
  | nil =>
    cases h
    exact ⟨rfl, fun _ hp => by cases hp⟩
  | cons payload payloads ih =>
    obtain ⟨bytes, hbytes, h⟩ := Option.bind_eq_some_iff.1 h
    obtain ⟨rest, hrest, rfl⟩ := Option.map_eq_some_iff.1 h
    obtain ⟨header, hheader, rfl⟩ := Option.map_eq_some_iff.1 hbytes
    obtain ⟨rfl, hlt⟩ := ih hrest
    unfold structPack at hheader
    split at hheader <;> rename_i hsize <;> cases hheader
    refine ⟨rfl, fun p hp => ?_⟩
    rcases List.mem_cons.1 hp with rfl | hp
    · exact hsize
    · exact hlt p hp

/-- The server reads what a client has sent. -/
theorem parse_sendRequests {payloads : List (List UInt8)} {stream : List UInt8}
    (h : sendRequests payloads = some stream) (hne : ∀ payload ∈ payloads, payload ≠ []) :
    frameFormat.parse stream = (payloads, []) := by
  obtain ⟨rfl, hlt⟩ := sendRequests_some h
  exact Framing.Format.parse_frames fun payload hp =>
    ⟨hne payload hp, rfl, ntohl_htonl (hlt payload hp)⟩

end Lumen.Network.Client
