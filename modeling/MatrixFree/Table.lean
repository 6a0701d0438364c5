import MatrixFree.Trap

/-!
# Tables

A table is an array that is read and written at computed places. Every place is checked against
the size of the table and against the range of machine sizes, so an address that wraps is a trap
and never a read from somewhere else.
-/

namespace MatrixFree.Table

variable {α : Type}

/-- A position computed in machine sizes. -/
def position (i : Nat) : Checked Nat :=
  if i < UInt64.size then .ok i else .error .sizeOverflow

def read (t : Array α) (i : Nat) : Checked α := do
  match t[← position i]? with
  | some a => .ok a
  | none => .error .outOfRange

/-- The element of a list at a computed place. -/
def pick (l : List α) (i : Nat) : Checked α := do
  match l[← position i]? with
  | some a => .ok a
  | none => .error .outOfRange

def write (t : Array α) (i : Nat) (a : α) : Checked (Array α) := do
  if (← position i) < t.size then .ok (t.setIfInBounds i a) else .error .outOfRange

/-- Requires `len` elements from `start` on to be inside. -/
def range (t : Array α) (start len : Nat) : Checked Unit := do
  if (← position (start + len)) ≤ t.size then .ok () else .error .outOfRange

/-- The `len` elements from `start` on. -/
def slice (t : Array α) (start len : Nat) : Checked (Array α) := do
  range t start len
  return t.extract start (start + len)

/-- The table with the elements from `start` on replaced by those of `part`. -/
def place (t : Array α) (start : Nat) (part : Array α) : Array α :=
  part.size.fold (fun i _ t => t.setIfInBounds (start + i) part[i]) t

/-- Replaces the elements from `start` on by those of `part`, which have to be inside. -/
def overwrite (t : Array α) (start : Nat) (part : Array α) : Checked (Array α) := do
  range t start part.size
  return place t start part

/-- Copies single elements: for each pair, in order, the element of `src` at the second position
goes to the first position of `dest`. -/
def transfer (src : Array α) (pairs : List (Nat × Nat)) (dest : Array α) : Checked (Array α) :=
  pairs.foldlM (fun dest p => do write dest p.1 (← read src p.2)) dest

/-- The chunk at place `i` of those of length `n` that lie end to end. -/
def chunk (t : Array α) (n i : Nat) : Array α := t.extract (i * n) (i * n + n)

end MatrixFree.Table
