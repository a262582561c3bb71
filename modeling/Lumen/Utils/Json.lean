import Mathlib.Algebra.Order.Ring.Rat
import Mathlib.Data.Rat.Floor

/-!
# JSON documents

The values of `nlohmann::json` and the accesses that the configuration makes to them, with the
exceptions they throw. A number is kept as the parser reads it: unsigned, signed, or floating point.
The keys of an object are distinct, as the parser leaves them: of a key that a text has twice it
keeps the last value.
-/

set_option autoImplicit false

namespace Lumen.Utils

inductive Number
  | unsigned (n : Nat)
  | integer (i : Int)
  | float (q : Rat)

inductive Json
  | null
  | boolean (b : Bool)
  | number (n : Number)
  | string (s : String)
  | array (items : List Json)
  | object (members : List (String × Json))

/-- `type_error`: 302, the type of the value is not the requested one; 306, `value` of something
that is not an object. -/
inductive JsonError
  | type302
  | type306
  deriving DecidableEq

/-- `static_cast<size_t>`. A floating-point number is truncated; outside the range of `size_t` the
result is left to `outOfRange`. -/
def Number.toSize (outOfRange : Rat → Nat) : Number → Nat
  | .unsigned n => n % 2 ^ 64
  | .integer i => (i % 2 ^ 64).toNat
  | .float q => if -1 < q ∧ q < 2 ^ 64 then ⌊q⌋.toNat else outOfRange q

namespace Json

/-- `contains(key)`, and with it `operator[]`: nothing where the value is not an object. -/
def find (key : String) : Json → Option Json
  | .object members => members.lookup key
  | _ => none

/-- `get<size_t>`. -/
def getSize (outOfRange : Rat → Nat) : Json → Except JsonError Nat
  | .number n => .ok (n.toSize outOfRange)
  | _ => .error .type302

/-- `get<std::string>`. -/
def getString : Json → Except JsonError String
  | .string s => .ok s
  | _ => .error .type302

/-- `value(key, default)` for strings. -/
def value (key default : String) : Json → Except JsonError String
  | .object members =>
    match members.lookup key with
    | some j => j.getString
    | none => .ok default
  | _ => .error .type306

end Json
end Lumen.Utils
