import MatrixFree.Text.Hidden

/-!
# Quoted texts

A text as it is shown in a message: in quotes, with a backslash before quotes and backslashes, and
with characters that cannot be seen by themselves written as escapes.
-/

namespace MatrixFree.Text

/-- Whether a character is shown as it is: it prints, and it does not combine with the one before
it. -/
def isVisible (c : Char) : Bool :=
  decide (' ' ≤ c) && c ≠ '\x7f' && (decide (c < '\x7f') || !isHidden c)

def escape (c : Char) : List Char :=
  if c = '\x00' then ['\\', '0']
  else if c = '\t' then ['\\', 't']
  else if c = '\r' then ['\\', 'r']
  else if c = '\n' then ['\\', 'n']
  else if c = '"' then ['\\', '"']
  else if c = '\\' then ['\\', '\\']
  else if isVisible c then [c]
  else '\\' :: 'u' :: '{' :: (Nat.toDigits 16 c.toNat ++ ['}'])

def quoted (s : String) : String :=
  String.ofList ('"' :: s.toList.flatMap escape ++ ['"'])

end MatrixFree.Text
