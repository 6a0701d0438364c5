import MatrixFree.Json.Value
import MatrixFree.Text.Quoted

/-!
# Faults of a text

Why a text cannot be read: it is no JSON text, it ends too early, or it holds another value than
the one that is read. Only the last has a message.
-/

namespace MatrixFree.Json

/-- What is found in place of an expected value. -/
inductive Found where
  | null
  | bool (b : Bool)
  | number (n : Number)
  | string (s : String)
  | sequence
  | map
  deriving DecidableEq, Repr

def Found.text : Found → String
  | null => "null"
  | bool b => if b then "boolean `true`" else "boolean `false`"
  | number (.integer n) => "integer `" ++ String.ofList (Number.integer n).text ++ "`"
  | number (.float x) => "floating point `" ++ String.ofList (Number.float x).text ++ "`"
  | string s => "string " ++ Text.quoted s
  | sequence => "sequence"
  | map => "map"

/-- How a value is not the expected one. -/
inductive Mismatch where
  | invalidType (found : Found) (expected : String)
  | invalidValue (found : Found) (expected : String)
  | invalidLength (found : Nat) (expected : String)
  | missingField (name : String)
  | duplicateField (name : String)
  | unknownVariant (name : String) (variants : List String)
  deriving DecidableEq, Repr

namespace Mismatch

/-- The names that are allowed where there is a choice. -/
def oneOf : List String → String
  | [] => "there are no variants"
  | [a] => "expected `" ++ a ++ "`"
  | [a, b] => "expected `" ++ a ++ "` or `" ++ b ++ "`"
  | names => "expected one of " ++ ", ".intercalate (names.map fun a => "`" ++ a ++ "`")

def message : Mismatch → String
  | invalidType found expected => s!"invalid type: {found.text}, expected {expected}"
  | invalidValue found expected => s!"invalid value: {found.text}, expected {expected}"
  | invalidLength found expected => s!"invalid length {found}, expected {expected}"
  | missingField name => "missing field `" ++ name ++ "`"
  | duplicateField name => "duplicate field `" ++ name ++ "`"
  | unknownVariant name variants => "unknown variant `" ++ name ++ "`, " ++ oneOf variants

end Mismatch

inductive Fault where
  | malformed
  | truncated
  | mismatch (m : Mismatch)
  deriving DecidableEq, Repr

end MatrixFree.Json
