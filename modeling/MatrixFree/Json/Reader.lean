import MatrixFree.Json.Doc

/-!
# Readers

A reader checks a document against what it should hold and gives the value in its full form: all
fields in their order, fields left out filled in, and every number of the kind that its place
asks for. It goes from left to right and stops at the first fault. Missing fields are found when
an object ends.
-/

namespace MatrixFree.Json

/-- Where a document is read from: the text itself, inside of which so many containers may still
be entered, or a value that was kept whole before. -/
inductive Source where
  | text (depth : Nat)
  | kept
  deriving DecidableEq, Repr

abbrev Reader := Source → Doc → Except Fault Value

/-- A field of a record, and the value that it has when it is left out. -/
structure Field where
  name : String
  read : Reader
  default : Option Value

namespace Source

/-- Of this many nested containers the last one is refused. -/
def maxDepth : Nat := 128

def enter : Source → Except Fault Source
  | text depth => text <$> Doc.enter depth
  | kept => .ok kept

/-- Passes over the value of a field that is not known. What was kept has no faults. -/
def skip : Source → Doc → Except Fault Unit
  | text _, d => d.passed
  | kept, _ => .ok ()

def hold : Source → Doc → Except Fault Unit
  | text depth, d => d.held depth
  | kept, _ => .ok ()

end Source

namespace Reader

def mismatch {β : Type} (m : Mismatch) : Except Fault β := .error (.mismatch m)

/-- A whole number below `bound`. -/
def whole (bound : Nat) (expected : String) : Reader := fun _ d => do
  match d with
  | .number used _ =>
    match ← used with
    | .integer n =>
      if 0 ≤ n ∧ n < bound then return .number (.integer n)
      else mismatch (.invalidValue (.number (.integer n)) expected)
    | .float x => mismatch (.invalidType (.number (.float x)) expected)
  | d => d.unexpected expected

def size : Reader := whole UInt64.size "usize"

def word : Reader := whole UInt32.size "u32"

/-- The machine number nearest to an integer of at most 64 bits. -/
def floatOfInt (n : Int) : Float :=
  let x := (UInt64.ofNat n.natAbs).toFloat
  if n < 0 then -x else x

def float : Reader := fun _ d => do
  match d with
  | .number used _ =>
    match ← used with
    | .integer n => return .number (.float (floatOfInt n))
    | .float x => return .number (.float x)
  | d => d.unexpected "f64"

def bool : Reader := fun _ d =>
  match d with
  | .bool b => .ok (.bool b)
  | d => d.unexpected "a boolean"

def optionalString : Reader := fun _ d => do
  match d with
  | .null => return .null
  | .string used _ => return .string (← used)
  | d => d.unexpected "a string"

def list (item : Reader) : Reader := fun s d => do
  match d with
  | .array items ending =>
    let s ← s.enter
    let vs ← items.mapM (item s)
    noFault ending
    return .array vs
  | d => d.unexpected "a sequence"

/-! ### Records -/

/-- The name of a record with the number of its fields. -/
def sized (title : String) (n : Nat) : String :=
  if n = 1 then title ++ " with 1 element" else title ++ s!" with {n} elements"

def inSequence (n : Nat) : String :=
  if n = 1 then "1 element in sequence" else s!"{n} elements in sequence"

/-- The values of the known fields, in the order of the text. -/
def entries (fields : List Field) (s : Source) :
    (seen : List (String × Value)) → List (Key × Doc) → Except Fault (List (String × Value))
  | seen, [] => .ok seen
  | seen, (k, d) :: es => do
    let name ← k.used
    match fields.find? (·.name = name) with
    | some f =>
      if (seen.lookup name).isSome then mismatch (.duplicateField name)
      else
        let v ← f.read s d
        entries fields s ((name, v) :: seen) es
    | none =>
      s.skip d
      entries fields s seen es

/-- All fields in their order: those seen, and the others as they are when left out. -/
def complete (seen : List (String × Value)) : List Field → Except Fault (List (String × Value))
  | [] => .ok []
  | f :: fs =>
    match (seen.lookup f.name).or f.default with
    | some v => ((f.name, v) :: ·) <$> complete seen fs
    | none => mismatch (.missingField f.name)

/-- The fields from place `i` on, read off a list of their values. At the end of the list the
other fields must be ones that can be left out. -/
def positional (title : String) (count : Nat) (s : Source) (ending : Option Fault) :
    (i : Nat) → List Field → List Doc → Except Fault (List (String × Value))
  | _, [], [] => do
    noFault ending
    return []
  | _, [], extra@(_ :: _) =>
    match s with
    | .text _ => .error .malformed
    | .kept => mismatch (.invalidLength (count + extra.length) (inSequence count))
  | i, f :: fs, d :: ds => do
    let v ← f.read s d
    ((f.name, v) :: ·) <$> positional title count s ending (i + 1) fs ds
  | i, f :: fs, [] => do
    noFault ending
    match f.default with
    | some v => ((f.name, v) :: ·) <$> positional title count s ending (i + 1) fs []
    | none => mismatch (.invalidLength i (sized title count))

/-- A record, as an object or as the list of its values. -/
def fields (title : String) (fs : List Field) (s : Source) (d : Doc) :
    Except Fault (List (String × Value)) := do
  match d with
  | .object es ending =>
    let s ← s.enter
    let seen ← entries fs s [] es
    noFault ending
    complete seen fs
  | .array items ending =>
    let s ← s.enter
    positional title fs.length s ending 0 fs items
  | d => d.unexpected title

def record (title : String) (fs : List Field) : Reader := fun s d =>
  .object <$> fields title fs s d

/-! ### Choices -/

/-- A name that has to be one of the given ones. -/
def known (names : List String) (name : String) : Except Fault String :=
  if name ∈ names then .ok name else mismatch (.unknownVariant name names)

/-- The name of a variant. -/
def variant (names : List String) (d : Doc) : Except Fault String := do
  match d with
  | .string used _ => known names (← used)
  | d => d.unexpected "variant identifier"

/-- A name alone, or an object with the name as its only key and null as its value. -/
def choice (names : List String) : Reader := fun s d => do
  match d with
  | .string .. => .string <$> variant names d
  | .object es ending =>
    let _ ← s.enter
    match es with
    | [] => .error (ending.getD .malformed)
    | (k, d) :: rest =>
      let name ← known names (← k.used)
      match d with
      | .null => .ok ()
      | d => d.unexpected "unit"
      if rest.isEmpty then noFault ending else .error .malformed
      return .string name
  | .absent => .error .truncated
  | _ => .error .malformed

/-- A variant of a tagged choice: its name, and the title and fields of its record. -/
structure Variant where
  name : String
  title : String
  fields : List Field

/-- The tag and the other entries of an object, of which each is kept as it comes. -/
def taggedEntries (tag : String) (names : List String) (s : Source) :
    (seen : Option String) → List (Key × Doc) → Except Fault (Option String × List (Key × Doc))
  | seen, [] => .ok (seen, [])
  | seen, (k, d) :: es => do
    let name ← k.used
    if name = tag then
      if seen.isSome then mismatch (.duplicateField tag)
      else
        let v ← variant names d
        taggedEntries tag names s (some v) es
    else
      s.hold d
      let (seen, es) ← taggedEntries tag names s seen es
      return (seen, (k, d) :: es)

/-- The fields of a variant that was kept whole. -/
def variantFields (variants : List Variant) (tag name : String) (d : Doc) : Except Fault Value := do
  match variants.find? (·.name = name) with
  | none => mismatch (.unknownVariant name (variants.map (·.name)))
  | some v => return .object ((tag, .string name) :: (← fields v.title v.fields .kept d))

/-- A record whose fields depend on the tag among them: an object with the tag at any place, or a
list that starts with it. It is kept whole first and then read as the tag says. -/
def tagged (title tag : String) (variants : List Variant) : Reader := fun s d => do
  let names := variants.map (·.name)
  match d with
  | .object es ending =>
    let s ← s.enter
    let (seen, es) ← taggedEntries tag names s none es
    noFault ending
    match seen with
    | none => mismatch (.missingField tag)
    | some name => variantFields variants tag name (.object es none)
  | .array items ending =>
    let s ← s.enter
    match items with
    | [] =>
      noFault ending
      mismatch (.missingField tag)
    | d :: rest =>
      let name ← variant names d
      rest.forM s.hold
      noFault ending
      variantFields variants tag name (.array rest none)
  | d => d.unexpected title

/-- The value of a whole text. -/
def readText (r : Reader) (text : String) : Except Fault Value := do
  let (d, rest) := Scan.document text.toList
  let v ← r (.text Source.maxDepth) d
  if (Scan.skipBlanks rest).isEmpty then return v else .error .malformed

end Reader

end MatrixFree.Json
