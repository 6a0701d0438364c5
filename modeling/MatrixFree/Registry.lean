import MatrixFree.Ident

/-!
# Edge registry

Which two nodes each edge connects. The entries are kept in ascending order of their names, so a
registry is the same value however it was filled.
-/

namespace MatrixFree

/-- A finite map from edges to their ends. -/
structure EdgeRegistry where
  entries : List (EdgeId × Edge)
  ascending : entries.Pairwise fun a b => a.1.val < b.1.val

namespace EdgeRegistry

instance : DecidableEq EdgeRegistry := fun a b =>
  decidable_of_iff (a.entries = b.entries) (by cases a; cases b; simp)

def empty : EdgeRegistry := ⟨[], .nil⟩

def count (r : EdgeRegistry) : Nat := r.entries.length

def isEmpty (r : EdgeRegistry) : Bool := r.entries.isEmpty

def get? (r : EdgeRegistry) (id : EdgeId) : Option Edge := r.entries.lookup id

/-- Puts an entry at its place, in place of one of the same name. -/
def place (id : EdgeId) (e : Edge) : List (EdgeId × Edge) → List (EdgeId × Edge)
  | [] => [(id, e)]
  | (id', e') :: rest =>
    if id.val < id'.val then (id, e) :: (id', e') :: rest
    else if id = id' then (id, e) :: rest
    else (id', e') :: place id e rest

theorem mem_place {id : EdgeId} {e : Edge} {x : EdgeId × Edge} :
    ∀ {l : List (EdgeId × Edge)}, x ∈ place id e l → x = (id, e) ∨ x ∈ l
  | [], h => by simpa [place] using h
  | (id', e') :: rest, h => by
    unfold place at h
    split at h
    · simpa using h
    · split at h
      · simp only [List.mem_cons] at h ⊢
        exact h.imp_right .inr
      · simp only [List.mem_cons] at h ⊢
        rcases h with h | h
        · exact .inr (.inl h)
        · exact (mem_place h).imp_right .inr

theorem pairwise_place {id : EdgeId} {e : Edge} :
    ∀ {l : List (EdgeId × Edge)}, l.Pairwise (fun a b => a.1.val < b.1.val) →
      (place id e l).Pairwise (fun a b => a.1.val < b.1.val)
  | [], _ => by simp [place]
  | (id', e') :: rest, h => by
    rw [List.pairwise_cons] at h
    unfold place
    split
    next hlt =>
      refine List.pairwise_cons.2 ⟨fun x hx => ?_, List.pairwise_cons.2 h⟩
      rcases List.mem_cons.1 hx with rfl | hx
      · exact hlt
      · exact UInt32.lt_trans hlt (h.1 x hx)
    next hlt =>
      split
      next heq =>
        subst heq
        exact List.pairwise_cons.2 h
      next hne =>
        refine List.pairwise_cons.2 ⟨fun x hx => ?_, pairwise_place h.2⟩
        rcases mem_place hx with rfl | hx
        · have hval : id.val ≠ id'.val := fun hv => hne (by cases id; cases id'; simp_all)
          exact UInt32.lt_of_le_of_ne (UInt32.not_lt.1 hlt) hval.symm
        · exact h.1 x hx

/-- The registry with one more entry, and the entry that it replaces. -/
def insert (r : EdgeRegistry) (id : EdgeId) (e : Edge) : EdgeRegistry × Option Edge :=
  (⟨place id e r.entries, pairwise_place r.ascending⟩, r.get? id)

/-- Of several entries of one name the last one stays. -/
def ofList (l : List (EdgeId × Edge)) : EdgeRegistry :=
  l.foldl (fun r x => (r.insert x.1 x.2).1) empty

/-- The name after the greatest one in use. -/
def nextId (r : EdgeRegistry) : Checked EdgeId :=
  match r.entries.getLast? with
  | some (id, _) => id.next
  | none => .ok ⟨0⟩

end EdgeRegistry

end MatrixFree
