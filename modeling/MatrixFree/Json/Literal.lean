import MatrixFree.Json.Numeral
import MatrixFree.Size

/-!
# String literals

The inside of a quoted string: first its pieces, then the text that they stand for. A piece
written by number is a UTF-16 unit, so a character outside the basic plane takes two of them, and
a text that is used must not hold one half alone.
-/

namespace MatrixFree.Json

/-- A piece of a string: a character, or a unit written by number. -/
inductive Piece where
  | char (c : Char)
  | unit (n : Nat)
  deriving DecidableEq, Repr

namespace Literal

/-- The value of a digit of base 16. -/
def hexDigit? (c : Char) : Option Nat :=
  if '0' ≤ c ∧ c ≤ '9' then some (c.toNat - '0'.toNat)
  else if 'a' ≤ c ∧ c ≤ 'f' then some (c.toNat - 'a'.toNat + 10)
  else if 'A' ≤ c ∧ c ≤ 'F' then some (c.toNat - 'A'.toNat + 10)
  else none

/-- Whether at least four bytes are left. -/
def hasFourBytes (cs : List Char) : Bool := decide (4 ≤ Size.sum ((cs.take 4).map Char.utf8Size))

/-- The unit that four digits of base 16 stand for. -/
def unit? (a b c d : Char) : Option Nat :=
  ([a, b, c, d].mapM hexDigit?).map fun ds => ds.foldl (fun n d => n * 16 + d) 0

/-- The character that a character after a backslash stands for. -/
def escaped? : Char → Option Char
  | '"' => some '"'
  | '\\' => some '\\'
  | '/' => some '/'
  | 'b' => some '\x08'
  | 'f' => some '\x0c'
  | 'n' => some '\n'
  | 'r' => some '\r'
  | 't' => some '\t'
  | _ => none

/-- The pieces up to the closing quote and what follows it, or the pieces up to a fault. -/
def scan : List Char → List Piece × Except Fault (List Char)
  | [] => ([], .error .truncated)
  | c :: rest =>
    if c = '"' then ([], .ok rest)
    else if c < ' ' then ([], .error .malformed)
    else if c ≠ '\\' then
      let (ps, ending) := scan rest
      (.char c :: ps, ending)
    else match rest with
    | [] => ([], .error .truncated)
    | e :: rest =>
      if e ≠ 'u' then
        match escaped? e with
        | none => ([], .error .malformed)
        | some x =>
          let (ps, ending) := scan rest
          (.char x :: ps, ending)
      else if !hasFourBytes rest then ([], .error .truncated)
      else match rest with
      | h₁ :: h₂ :: h₃ :: h₄ :: rest =>
        match unit? h₁ h₂ h₃ h₄ with
        | none => ([], .error .malformed)
        | some n =>
          let (ps, ending) := scan rest
          (.unit n :: ps, ending)
      | _ => ([], .error .malformed)

def isLeading (n : Nat) : Bool := decide (0xD800 ≤ n) && decide (n ≤ 0xDBFF)

def isTrailing (n : Nat) : Bool := decide (0xDC00 ≤ n) && decide (n ≤ 0xDFFF)

/-- The character that two halves stand for. -/
def join (leading trailing : Nat) : Char :=
  Char.ofNat (0x10000 + (leading - 0xD800) * 0x400 + (trailing - 0xDC00))

/-- The text of the pieces before `ending`. A first half that nothing follows is as faulty as the
end of the string. -/
def assemble {β : Type} (ending : Except Fault β) : List Piece → Except Fault (List Char)
  | [] => ending.map fun _ => []
  | .char c :: ps => (c :: ·) <$> assemble ending ps
  | .unit n :: ps =>
    if isTrailing n then .error .malformed
    else if isLeading n then
      match ps with
      | .unit m :: ps =>
        if isTrailing m then (join n m :: ·) <$> assemble ending ps else .error .malformed
      | .char _ :: _ => .error .malformed
      | [] => match ending with
        | .error f => .error f
        | .ok _ => .error .malformed
    else (Char.ofNat n :: ·) <$> assemble ending ps

end Literal

end MatrixFree.Json
