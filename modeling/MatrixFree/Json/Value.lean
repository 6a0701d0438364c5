import MatrixFree.Decimal.Style

/-!
# JSON values

Values of the interchange format and their text. `Value.render` writes a value on one line or
indented, as its layout says. The fields of an object keep their order.
-/

namespace MatrixFree.Json

inductive Number where
  | integer (n : Int)
  | float (x : Float)
  deriving DecidableEq, Repr

inductive Value where
  | null
  | bool (b : Bool)
  | number (n : Number)
  | string (s : String)
  | array (items : List Value)
  | object (fields : List (String × Value))

/-- Machine numbers are written with all places while the leading digit stands for a power of ten
from -5 to 15, and with a point even if they are whole. -/
def style : NumberStyle := ⟨.toEven, fun e => decide (-5 ≤ e) && decide (e ≤ 15), true, true⟩

def natText (n : Nat) : List Char := Nat.toDigits 10 n

def Number.text : Number → List Char
  | integer n => if n < 0 then '-' :: natText n.natAbs else natText n.natAbs
  | float x => if x.isNaN || x.isInf then "null".toList else style.text x

/-- Four digits of base 16. -/
def hexText (n : Nat) : List Char :=
  [n / 4096 % 16, n / 256 % 16, n / 16 % 16, n % 16].map Nat.digitChar

/-- Quotes, backslashes and control characters are escaped, and nothing else is. -/
def escape (c : Char) : List Char :=
  if c = '"' then ['\\', '"']
  else if c = '\\' then ['\\', '\\']
  else if c = '\x08' then ['\\', 'b']
  else if c = '\x0c' then ['\\', 'f']
  else if c = '\n' then ['\\', 'n']
  else if c = '\r' then ['\\', 'r']
  else if c = '\t' then ['\\', 't']
  else if c < ' ' then '\\' :: 'u' :: hexText c.toNat
  else [c]

def quote (s : String) : List Char := '"' :: s.toList.flatMap escape ++ ['"']

/-- The blanks between the tokens of a text: those before an item at a depth, and those after a
colon. -/
structure Layout where
  gap : Nat → List Char
  afterColon : List Char

namespace Layout

def compact : Layout := ⟨fun _ => [], []⟩

/-- Every item on a line of its own, indented by two blanks for each container around it. -/
def indented : Layout := ⟨fun depth => '\n' :: List.replicate (2 * depth) ' ', [' ']⟩

end Layout

namespace Value

mutual

/-- The text of a value inside `depth` containers. -/
def render (l : Layout) (depth : Nat) : Value → List Char
  | null => "null".toList
  | bool b => if b then "true".toList else "false".toList
  | number n => n.text
  | string s => quote s
  | array [] => ['[', ']']
  | array (v :: vs) =>
    '[' :: (l.gap (depth + 1) ++ render l (depth + 1) v ++ renderItems l (depth + 1) vs
      ++ l.gap depth ++ [']'])
  | object [] => ['{', '}']
  | object ((k, v) :: fs) =>
    '{' :: (l.gap (depth + 1) ++ quote k ++ ':' :: l.afterColon ++ render l (depth + 1) v
      ++ renderFields l (depth + 1) fs ++ l.gap depth ++ ['}'])

/-- The items after the first. -/
def renderItems (l : Layout) (depth : Nat) : List Value → List Char
  | [] => []
  | v :: vs => ',' :: (l.gap depth ++ render l depth v ++ renderItems l depth vs)

/-- The fields after the first. -/
def renderFields (l : Layout) (depth : Nat) : List (String × Value) → List Char
  | [] => []
  | (k, v) :: fs =>
    ',' :: (l.gap depth ++ quote k ++ ':' :: l.afterColon ++ render l depth v
      ++ renderFields l depth fs)

end

def text (l : Layout) (v : Value) : String := String.ofList (v.render l 0)

/-- A field of an object; null if there is none. -/
def field (v : Value) (name : String) : Value :=
  match v with
  | object fields => (fields.lookup name).getD null
  | _ => null

def items : Value → List Value
  | array items => items
  | _ => []

end Value

end MatrixFree.Json
