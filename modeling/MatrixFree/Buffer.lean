import MatrixFree.Size
import MatrixFree.Table

/-!
# Buffers

The contents of a buffer, which operators take apart and put together again in whole slices.
-/

namespace MatrixFree.Buffer

variable {α : Type}

/-- Hands on `value` if `b` and `c` have one length. -/
def paired {β : Type} (b c : Array α) (value : β) : Except Trap β :=
  if b.size = c.size then .ok value else .error .unequalLengths

/-- The contents of `dest` after `src` is copied over all of it. -/
def copy (dest src : Array α) : Checked (Array α) := paired dest src src

def fill (b : Array α) (a : α) : Array α := Array.replicate b.size a

/-- Parts laid end to end. -/
def join (parts : List (Array α)) : Array α := parts.foldl (· ++ ·) #[]

/-- The slices of the given lengths that lie end to end from `start` on. -/
def segments (b : Array α) : (start : Nat) → (lengths : List Nat) → Checked (List (Array α))
  | _, [] => .ok []
  | start, n :: ns => do
    let part ← Table.slice b start n
    return part :: (← segments b (start + n) ns)

/-- Replaces each of the slices of the given lengths by `f`. What lies after them stays. -/
def mapSegments (f : Array α → Checked (Array α)) (lengths : List Nat) (b : Array α) :
    Checked (Array α) := do
  let parts ← (← segments b 0 lengths).mapM f
  return join parts ++ b.drop (Size.sum lengths)

/-- Replaces the first `count` chunks of `b`, each of length `m`, by `f` of the chunk of length
`n` at the same place in `a`. What lies after them stays. -/
def mapChunks (n m : Nat) (f : Array α → Array α → Checked (Array α)) (count : Nat)
    (a b : Array α) : Checked (Array α) := do
  let parts ← (List.range count).mapM fun i => f (Table.chunk a n i) (Table.chunk b m i)
  return join parts ++ b.drop (count * m)

/-- Replaces every full chunk of `b` that has a full partner in `a`. -/
def overChunks (n m : Nat) (f : Array α → Array α → Checked (Array α)) (a b : Array α) :
    Checked (Array α) :=
  if n = 0 ∨ m = 0 then .error .emptyChunk
  else mapChunks n m f (min (a.size / n) (b.size / m)) a b

end MatrixFree.Buffer
