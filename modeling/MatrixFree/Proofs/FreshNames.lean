import MatrixFree.Proofs.Rebuilding

/-!
# Names for new edges

An insertion changes the entry of one name and no other (`EdgeRegistry.get?_insert`). The next name
is the smallest above all that are in use, so an edge under it replaces none. There is no next name
if the last name of all is in use (`EdgeRegistry.nextId_above_iff`).
-/

namespace MatrixFree

namespace EdgeRegistry

variable {r : EdgeRegistry} {id id' : EdgeId} {e e' : Edge}

theorem lookup_cons_eq_ite (id id' : EdgeId) (e : Edge) (l : List (EdgeId × Edge)) :
    ((id, e) :: l).lookup id' = if id' = id then some e else l.lookup id' := by
  by_cases h : id' = id
  · rw [h, List.lookup_cons_self, if_pos rfl]
  · rw [List.lookup_cons, beq_eq_false_iff_ne.2 h, if_neg h]

theorem lookup_place (id id' : EdgeId) (e : Edge) : ∀ l : List (EdgeId × Edge),
    (place id e l).lookup id' = if id' = id then some e else l.lookup id'
  | [] => lookup_cons_eq_ite id id' e []
  | (id₁, e₁) :: l => by
    unfold place
    by_cases hlt : id.val < id₁.val
    · rw [if_pos hlt, lookup_cons_eq_ite]
    · rw [if_neg hlt]
      by_cases heq : id = id₁
      · subst heq
        rw [if_pos rfl, lookup_cons_eq_ite, lookup_cons_eq_ite]
        by_cases h : id' = id
        · rw [if_pos h, if_pos h]
        · rw [if_neg h, if_neg h, if_neg h]
      · rw [if_neg heq, lookup_cons_eq_ite, lookup_cons_eq_ite, lookup_place id id' e l]
        by_cases h : id' = id
        · subst h
          rw [if_neg heq, if_pos rfl, if_pos rfl]
        · rw [if_neg h, if_neg h]

/-- The inserted name is found with its new ends, and every other one as it was. -/
theorem get?_insert (r : EdgeRegistry) (id id' : EdgeId) (e : Edge) :
    (r.insert id e).1.get? id' = if id' = id then some e else r.get? id' :=
  lookup_place id id' e r.entries

theorem length_place_of_mem : ∀ {l : List (EdgeId × Edge)},
    l.Pairwise (fun a b => a.1.val < b.1.val) → (id, e') ∈ l →
      (place id e l).length = l.length
  | (id₁, e₁) :: l, hl, h => by
    obtain ⟨hlt₁, hl⟩ := List.pairwise_cons.1 hl
    unfold place
    rcases List.mem_cons.1 h with heq | h
    · obtain ⟨rfl, rfl⟩ := Prod.mk.inj heq
      rw [if_neg (UInt32.lt_irrefl _), if_pos rfl]
      rfl
    · have hlt : id₁.val < id.val := hlt₁ (id, e') h
      have hne : id ≠ id₁ := fun heq => UInt32.lt_irrefl _ (heq ▸ hlt)
      rw [if_neg (UInt32.lt_asymm hlt), if_neg hne, List.length_cons, length_place_of_mem hl h]
      rfl

/-- An entry is added, or takes the place of one of its name. -/
theorem count_insert (r : EdgeRegistry) (id : EdgeId) (e : Edge) :
    (r.insert id e).1.count = if r.get? id = none then r.count + 1 else r.count := by
  rcases hget : r.get? id with _ | e'
  · rw [if_pos rfl]
    exact (perm_place (ne_of_get?_eq_none hget)).length_eq
  · rw [if_neg (Option.some_ne_none e')]
    exact length_place_of_mem r.ascending (get?_eq_some_iff.1 hget)

/-- The entries are in ascending order, so the last one has the greatest name in use. -/
theorem val_le_of_getLast? {x : EdgeId × Edge} (h : r.entries.getLast? = some x) :
    ∀ y ∈ r.entries, y.1.val ≤ x.1.val := by
  obtain ⟨l, hl⟩ := List.getLast?_eq_some_iff.1 h
  intro y hy
  have hasc := List.pairwise_append.1 (hl ▸ r.ascending)
  rw [hl] at hy
  rcases List.mem_append.1 hy with hy | hy
  · exact UInt32.le_of_lt (hasc.2.2 y hy x List.mem_cons_self)
  · rw [List.mem_singleton.1 hy]
    exact UInt32.le_refl _

/-- The name is in use, and none that is in use is above it. -/
structure Greatest (r : EdgeRegistry) (id : EdgeId) : Prop where
  used : ∃ e, r.get? id = some e
  le : ∀ id' e, r.get? id' = some e → id'.val ≤ id.val

theorem nextId_cases (r : EdgeRegistry) :
    ((∀ id, r.get? id = none) ∧ r.nextId = .ok ⟨0⟩)
      ∨ ∃ top, r.Greatest top ∧ r.nextId = top.next := by
  rcases h : r.entries.getLast? with _ | ⟨top, e⟩
  · refine .inl ⟨fun id => get?_eq_none_of_lt fun x hx => ?_, by rw [nextId, h]⟩
    rw [List.getLast?_eq_none_iff.1 h] at hx
    cases hx
  · refine .inr ⟨top, ⟨⟨e, get?_eq_some_iff.2 (List.mem_of_getLast? h)⟩, fun id e' hget => ?_⟩, ?_⟩
    · exact val_le_of_getLast? h _ (get?_eq_some_iff.1 hget)
    · rw [nextId, h]

theorem lt_nextId (hnext : r.nextId = .ok id) (hget : r.get? id' = some e) :
    id'.val < id.val := by
  rcases r.nextId_cases with ⟨hnone, -⟩ | ⟨top, ⟨-, hle⟩, htop⟩
  · rw [hnone] at hget
    cases hget
  · have hsucc : id.val.toNat = top.val.toNat + 1 :=
      EdgeId.next_eq_ok_iff.1 (htop.symm.trans hnext)
    have hle := UInt32.le_iff_toNat_le.1 (hle id' e hget)
    rw [UInt32.lt_iff_toNat_lt]
    omega

theorem nextId_le (hnext : r.nextId = .ok id)
    (h : ∀ (id'' : EdgeId) e, r.get? id'' = some e → id''.val < id'.val) : id.val ≤ id'.val := by
  rw [UInt32.le_iff_toNat_le]
  rcases r.nextId_cases with ⟨-, hzero⟩ | ⟨top, ⟨⟨e, hget⟩, -⟩, htop⟩
  · obtain rfl := Except.ok.inj (hzero.symm.trans hnext)
    exact Nat.zero_le _
  · have hsucc : id.val.toNat = top.val.toNat + 1 :=
      EdgeId.next_eq_ok_iff.1 (htop.symm.trans hnext)
    have hlt := UInt32.lt_iff_toNat_lt.1 (h top e hget)
    omega

theorem exists_nextId (hlast : r.get? .last = none) : ∃ id, r.nextId = .ok id := by
  rcases r.nextId_cases with ⟨-, hzero⟩ | ⟨top, ⟨⟨e, hget⟩, -⟩, htop⟩
  · exact ⟨_, hzero⟩
  · have hne : top ≠ .last := by
      rintro rfl
      rw [hlast] at hget
      cases hget
    exact ⟨_, htop.trans (if_neg hne)⟩

/-- With the last name in use there is none left. -/
theorem nextId_of_last (hlast : r.get? .last = some e) : r.nextId = .error .nameOverflow := by
  rcases r.nextId_cases with ⟨hnone, -⟩ | ⟨top, ⟨-, hle⟩, htop⟩
  · rw [hnone] at hlast
    cases hlast
  · have hge : 4294967295 ≤ top.val.toNat := UInt32.le_iff_toNat_le.1 (hle .last e hlast)
    have hval : top.val = EdgeId.last.val :=
      UInt32.toNat_inj.1 (le_antisymm (Nat.le_of_lt_succ top.val.toNat_lt) hge)
    exact htop.trans (if_pos (congrArg EdgeId.mk hval))

/-- There is a next name exactly if the last name is not in use, and otherwise the step to it traps.
The next name is above all that are in use, and no smaller one is. An edge inserted under it is a
new entry, and no other entry changes. -/
theorem nextId_above_iff (r : EdgeRegistry) (edge : Edge) :
    ((∃ id, r.nextId = .ok id) ↔ r.get? .last = none)
      ∧ (r.get? .last ≠ none → r.nextId = .error .nameOverflow)
      ∧ ∀ id, r.nextId = .ok id →
        (∀ (id' : EdgeId) e, r.get? id' = some e → id'.val < id.val)
          ∧ (∀ id' : EdgeId, (∀ (id'' : EdgeId) e, r.get? id'' = some e → id''.val < id'.val) →
            id.val ≤ id'.val)
          ∧ (r.insert id edge).2 = none ∧ (r.insert id edge).1.count = r.count + 1
          ∧ ∀ id', (r.insert id edge).1.get? id'
            = if id' = id then some edge else r.get? id' := by
  refine ⟨⟨?_, exists_nextId⟩, fun hlast => ?_, fun id hnext => ?_⟩
  · rintro ⟨id, hnext⟩
    rcases hlast : r.get? .last with _ | e
    · rfl
    · cases (nextId_of_last hlast).symm.trans hnext
  · obtain ⟨e, hlast⟩ := Option.ne_none_iff_exists'.1 hlast
    exact nextId_of_last hlast
  · have hfresh : r.get? id = none := by
      rcases hget : r.get? id with _ | e
      · rfl
      · exact absurd (lt_nextId hnext hget) (UInt32.lt_irrefl _)
    refine ⟨fun id' e => lt_nextId hnext, fun id' => nextId_le hnext, hfresh, ?_,
      fun id' => get?_insert r id id' edge⟩
    rw [count_insert, if_pos hfresh]

/-- An edge under the last name. -/
def full : EdgeRegistry := ofList [(⟨0⟩, ⟨⟨0⟩, ⟨1⟩⟩), (.last, ⟨⟨1⟩, ⟨2⟩⟩)]

theorem nextId_full :
    full.get? .last = some ⟨⟨1⟩, ⟨2⟩⟩ ∧ full.nextId = .error .nameOverflow
      ∧ ¬ ∃ id : EdgeId, full.nextId = .ok id
        ∧ ∀ (id' : EdgeId) e, full.get? id' = some e → id'.val < id.val := by
  have hnext : full.nextId = .error .nameOverflow := by decide
  refine ⟨by decide, hnext, ?_⟩
  rintro ⟨id, hok, -⟩
  cases hnext.symm.trans hok

end EdgeRegistry

end MatrixFree
