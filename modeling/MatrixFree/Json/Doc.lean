import MatrixFree.Json.Literal

/-!
# Documents

The structure of a text before it is known what it should hold. A document keeps its faults in
place: whoever reads it from left to right meets them where they stand in the text, and may have
stopped before that for a reason of its own. `Doc.passed` is the first fault for a reader that
only passes over the text; `Doc.held` the first one for a reader that keeps every value.
-/

namespace MatrixFree.Json

/-- What stands in the place of a key: a string, the end of the text, or something that is no
key. -/
inductive Key where
  | name (used : Except Fault String) (passed : Option Fault)
  | absent
  | other

inductive Doc where
  /-- The text ends where a value should be. -/
  | absent
  /-- There is no value here. -/
  | broken (f : Fault)
  | null
  | bool (b : Bool)
  | number (used : Except Fault Number) (passed : Option Fault)
  | string (used : Except Fault String) (passed : Option Fault)
  /-- The items, and the fault after the last one, if the array is not closed. -/
  | array (items : List Doc) (ending : Option Fault)
  | object (entries : List (Key × Doc)) (ending : Option Fault)

/-- Succeeds unless there is a fault. -/
def noFault : Option Fault → Except Fault Unit
  | none => .ok ()
  | some f => .error f

/-- The name that a key must be. -/
def Key.used : Key → Except Fault String
  | .name used _ => used
  | .absent => .error .truncated
  | .other => .error .malformed

def Key.passed : Key → Except Fault Unit
  | .name _ passed => noFault passed
  | .absent => .error .truncated
  | .other => .error .malformed

namespace Doc

/-- What a value is, where another one is expected. Numbers and strings are read for that, arrays
and objects are not. -/
def found : Doc → Except Fault Found
  | absent => .error .truncated
  | broken f => .error f
  | null => .ok .null
  | bool b => .ok (.bool b)
  | number used _ => .number <$> used
  | string used _ => .string <$> used
  | array _ _ => .ok .sequence
  | object _ _ => .ok .map

/-- The fault of a value in the place of `expected`. -/
def unexpected {β : Type} (d : Doc) (expected : String) : Except Fault β :=
  match d.found with
  | .error f => .error f
  | .ok x => .error (.mismatch (.invalidType x expected))

mutual

/-- Passes over a value that is not used. -/
def passed : Doc → Except Fault Unit
  | absent => .error .truncated
  | broken f => .error f
  | null => .ok ()
  | bool _ => .ok ()
  | number _ f => noFault f
  | string _ f => noFault f
  | array items ending => do
    passedItems items
    noFault ending
  | object entries ending => do
    passedEntries entries
    noFault ending

def passedItems : List Doc → Except Fault Unit
  | [] => .ok ()
  | d :: ds => do
    passed d
    passedItems ds

def passedEntries : List (Key × Doc) → Except Fault Unit
  | [] => .ok ()
  | (k, d) :: es => do
    k.passed
    passed d
    passedEntries es

end

/-- Enters a container. Of `depth` nested containers the last one is refused. -/
def enter (depth : Nat) : Except Fault Nat :=
  if depth ≤ 1 then .error .malformed else .ok (depth - 1)

mutual

/-- Keeps a whole value for later. -/
def held (depth : Nat) : Doc → Except Fault Unit
  | absent => .error .truncated
  | broken f => .error f
  | null => .ok ()
  | bool _ => .ok ()
  | number used _ => used.map fun _ => ()
  | string used _ => used.map fun _ => ()
  | array items ending => do
    heldItems (← enter depth) items
    noFault ending
  | object entries ending => do
    heldEntries (← enter depth) entries
    noFault ending

def heldItems (depth : Nat) : List Doc → Except Fault Unit
  | [] => .ok ()
  | d :: ds => do
    held depth d
    heldItems depth ds

def heldEntries (depth : Nat) : List (Key × Doc) → Except Fault Unit
  | [] => .ok ()
  | (k, d) :: es => do
    let _ ← k.used
    held depth d
    heldEntries depth es

end

end Doc

/-! ## From text to document -/

namespace Scan

def isBlank (c : Char) : Bool := c = ' ' || c = '\n' || c = '\t' || c = '\r'

def skipBlanks (cs : List Char) : List Char := cs.dropWhile isBlank

/-- A word of letters, of which the first one has been read. -/
def word (rest : List Char) (d : Doc) (cs : List Char) : Doc × List Char :=
  match rest, cs with
  | [], cs => (d, cs)
  | _ :: _, [] => (.broken .truncated, [])
  | a :: rest, c :: cs => if a = c then word rest d cs else (.broken .malformed, [])

def number (cs : List Char) : Doc × List Char :=
  match Numeral.scan cs with
  | .error defect => (.number (.error defect.used) (some defect.passed), [])
  | .ok (n, rest) => (.number n.value none, rest)

/-- A string of which the opening quote has been read: the text, the fault for a reader that
passes over it, and what follows. -/
def quoted (cs : List Char) : Except Fault String × Option Fault × List Char :=
  let (pieces, ending) := Literal.scan cs
  let used := (Literal.assemble ending pieces).map String.ofList
  match ending with
  | .error f => (used, some f, [])
  | .ok rest => (used, none, rest)

/-- What stands between a key and its value. -/
def colon (cs : List Char) : Except Doc (List Char) :=
  match skipBlanks cs with
  | ':' :: rest => .ok rest
  | [] => .error .absent
  | _ => .error (.broken .malformed)

mutual

/-- The value at the start of a text, and the rest. After a fault there is no rest. -/
def value : (fuel : Nat) → List Char → Doc × List Char
  | 0, _ => (.broken .malformed, [])
  | fuel + 1, cs =>
    match skipBlanks cs with
    | [] => (.absent, [])
    | 'n' :: rest => word ['u', 'l', 'l'] .null rest
    | 't' :: rest => word ['r', 'u', 'e'] (.bool true) rest
    | 'f' :: rest => word ['a', 'l', 's', 'e'] (.bool false) rest
    | '"' :: rest =>
      let (used, passed, rest) := quoted rest
      (.string used passed, rest)
    | '[' :: rest =>
      match skipBlanks rest with
      | ']' :: rest => (.array [] none, rest)
      | [] => (.array [] (some .truncated), [])
      | rest =>
        let (ds, ending, rest) := items fuel rest
        (.array ds ending, rest)
    | '{' :: rest =>
      match skipBlanks rest with
      | '}' :: rest => (.object [] none, rest)
      | [] => (.object [] (some .truncated), [])
      | rest =>
        let (es, ending, rest) := entries fuel rest
        (.object es ending, rest)
    | c :: rest =>
      if c = '-' || Numeral.isDigit c then number (c :: rest) else (.broken .malformed, [])

/-- The items of an array from one on, up to its end. -/
def items : (fuel : Nat) → List Char → List Doc × Option Fault × List Char
  | 0, _ => ([], some .malformed, [])
  | fuel + 1, cs =>
    let (d, rest) := value fuel cs
    match skipBlanks rest with
    | ',' :: rest =>
      let (ds, ending, rest) := items fuel rest
      (d :: ds, ending, rest)
    | ']' :: rest => ([d], none, rest)
    | [] => ([d], some .truncated, [])
    | _ => ([d], some .malformed, [])

/-- The entries of an object from one on, up to its end. -/
def entries : (fuel : Nat) → List Char → List (Key × Doc) × Option Fault × List Char
  | 0, _ => ([], some .malformed, [])
  | fuel + 1, cs =>
    match skipBlanks cs with
    | [] => ([(.absent, .absent)], some .truncated, [])
    | '"' :: rest =>
      let (used, passed, rest) := quoted rest
      let (d, rest) := match colon rest with
        | .error d => (d, [])
        | .ok rest => value fuel rest
      match skipBlanks rest with
      | ',' :: rest =>
        let (es, ending, rest) := entries fuel rest
        ((.name used passed, d) :: es, ending, rest)
      | '}' :: rest => ([(.name used passed, d)], none, rest)
      | [] => ([(.name used passed, d)], some .truncated, [])
      | _ => ([(.name used passed, d)], some .malformed, [])
    | _ => ([(.other, .broken .malformed)], some .malformed, [])

end

/-- The document of a text, and what follows it. A value, an item and an entry each take a step
of their own, so there are at most twice as many steps as characters. -/
def document (cs : List Char) : Doc × List Char := value (2 * cs.length + 2) cs

end Scan

end MatrixFree.Json
