import MatrixFree.Proofs.Documents
import MatrixFree.Json.Reader

/-!
# Readers of written values

What a reader makes of a document that was written from a value (`Json.Reader.Reads`), for every
kind of reader: numbers, texts, lists, records and tagged records. A value that lies in not too
many containers can be read from the text and can be kept for later.
-/

namespace MatrixFree.Json

/-- Still more than `k` containers may be entered. -/
def Source.Allows (k : ℕ) : Source → Prop
  | text depth => k < depth
  | kept => True

theorem Doc.enter_eq_ok {k depth : ℕ} (h : k + 1 < depth) : Doc.enter depth = .ok (depth - 1) := by
  unfold Doc.enter
  rw [if_neg (by omega)]

theorem Source.Allows.exists_enter {k : ℕ} {s : Source} (h : s.Allows (k + 1)) :
    ∃ t, s.enter = .ok t ∧ t.Allows k := by
  rcases s with depth | _
  · have hdepth : k + 1 < depth := h
    refine ⟨.text (depth - 1), ?_, show k < depth - 1 by omega⟩
    unfold enter
    dsimp only
    rw [Doc.enter_eq_ok hdepth]
    rfl
  · exact ⟨.kept, rfl, trivial⟩

namespace Doc

variable {depth : ℕ}

theorem heldItems_eq_ok : ∀ {ds : List Doc}, (∀ d ∈ ds, d.held depth = .ok ()) →
    heldItems depth ds = .ok ()
  | [], _ => rfl
  | d :: ds, h => by
    obtain ⟨hd, hds⟩ := List.forall_mem_cons.1 h
    rw [heldItems, hd, ok_bind, heldItems_eq_ok hds]

theorem heldEntries_eq_ok : ∀ {es : List (Key × Doc)},
    (∀ e ∈ es, (∃ name, e.1.used = .ok name) ∧ e.2.held depth = .ok ()) →
      heldEntries depth es = .ok ()
  | [], _ => rfl
  | (k, d) :: es, h => by
    obtain ⟨⟨⟨name, hk⟩, hd⟩, hes⟩ := List.forall_mem_cons.1 h
    rw [heldEntries, hk, ok_bind, hd, ok_bind, heldEntries_eq_ok hes]

end Doc

namespace Reader

/-- The reader takes the document of `v`, which lies in at most `k` containers of its own, and
gives `w`. The document can also be kept. -/
structure Reads (r : Reader) (k : ℕ) (v w : Value) : Prop where
  read : ∀ s : Source, s.Allows k → r s v.toDoc = .ok w
  held : ∀ depth, k < depth → v.toDoc.held depth = .ok ()

theorem Reads.hold {r : Reader} {k : ℕ} {v w : Value} (h : Reads r k v w) {s : Source}
    (hs : s.Allows k) : s.hold v.toDoc = .ok () := by
  rcases s with depth | _
  · exact h.held depth hs
  · rfl

/-! ### Numbers, truth values and texts -/

theorem doc_integer {n : ℕ} (hn : n < UInt64.size) :
    (Number.integer n).doc = .number (.ok (.integer n)) none := by
  have hparts : (Number.integer n).parts = some ⟨false, Decimal.digitText n, none, none⟩ := rfl
  unfold Number.doc
  rw [hparts]
  dsimp only
  rw [Numeral.value_digitText hn]

theorem reads_whole {bound n : ℕ} (expected : String) (hn : n < bound) (hb : bound ≤ UInt64.size)
    (k : ℕ) : Reads (whole bound expected) k (.number (.integer n)) (.number (.integer n)) := by
  have hdoc := doc_integer (hn.trans_le hb)
  refine ⟨fun s hs => ?_, fun depth hk => ?_⟩
  · unfold whole
    rw [Value.toDoc, hdoc]
    have hrange : 0 ≤ (n : ℤ) ∧ (n : ℤ) < bound := ⟨by omega, by omega⟩
    simp only [ok_bind, hrange, and_self, if_true]
    rfl
  · rw [Value.toDoc, hdoc]
    rfl

/-- A rendered value is read as its document is. -/
theorem readText_text (r : Reader) {l : Layout} (hl : l.Blank) (v : Value) :
    r.readText (v.text l) = r (.text Source.maxDepth) v.toDoc := by
  unfold readText Value.text
  rw [String.toList_ofList, Scan.document_render hl v]
  dsimp only
  rcases r (.text Source.maxDepth) v.toDoc with f | w
  · rfl
  · rfl

/-- A machine number is read wherever it stands as it is read alone. -/
theorem reads_float {x y : Float}
    (h : float.readText ((Value.number (.float x)).text .compact) = .ok (.number (.float y)))
    (k : ℕ) : Reads float k (.number (.float x)) (.number (.float y)) := by
  rw [readText_text float Layout.blank_compact] at h
  have hdoc : ∃ n, (Number.float x).doc = .number (.ok n) none := by
    rcases hp : (Number.float x).parts with _ | p
    · simp [Value.toDoc, Number.doc, hp, float, Doc.unexpected, Doc.found] at h
    · rcases hv : p.numeral.value with f | n
      · simp [Value.toDoc, Number.doc, hp, hv, float, bind, Except.bind] at h
      · exact ⟨n, by simp [Number.doc, hp, hv]⟩
  obtain ⟨n, hn⟩ := hdoc
  refine ⟨fun s hs => h, fun depth hk => ?_⟩
  rw [Value.toDoc, hn]
  rfl

theorem reads_bool (b : Bool) (k : ℕ) : Reads bool k (.bool b) (.bool b) :=
  ⟨fun _ _ => rfl, fun _ _ => rfl⟩

theorem reads_null (k : ℕ) : Reads optionalString k .null .null :=
  ⟨fun _ _ => rfl, fun _ _ => rfl⟩

theorem reads_string (s : String) (k : ℕ) : Reads optionalString k (.string s) (.string s) :=
  ⟨fun _ _ => rfl, fun _ _ => rfl⟩

/-! ### Lists -/

theorem reads_list {β : Type} {item : Reader} {k : ℕ} {f g : β → Value} {l : List β}
    (h : ∀ x ∈ l, Reads item k (f x) (g x)) :
    Reads (list item) (k + 1) (.array (l.map f)) (.array (l.map g)) := by
  have hdocs : Value.toDocs (l.map f) = l.map fun x => (f x).toDoc := by
    rw [Value.toDocs_eq_map, List.map_map]
    rfl
  refine ⟨fun s hs => ?_, fun depth hk => ?_⟩
  · obtain ⟨t, ht, hallows⟩ := hs.exists_enter
    have hitems : (l.map fun x => (f x).toDoc).mapM (item t) = .ok (l.map g) := by
      rw [List.mapM_map]
      exact mapM_eq_ok fun x hx => (h x hx).read t hallows
    simp only [Value.toDoc, list, hdocs, ht, ok_bind, hitems]
    rfl
  · have hitems : Doc.heldItems (depth - 1) (l.map fun x => (f x).toDoc) = .ok () := by
      refine Doc.heldItems_eq_ok fun d hd => ?_
      obtain ⟨x, hx, rfl⟩ := List.mem_map.1 hd
      exact (h x hx).held (depth - 1) (by omega)
    simp only [Value.toDoc, Doc.held, hdocs, Doc.enter_eq_ok hk, ok_bind, hitems]
    rfl

/-! ### Records -/

/-- A field with what is written for it and what is read. -/
structure Cell where
  field : Field
  written : Value
  read : Value

namespace Cell

/-- What is read as it is written. -/
def same (f : Field) (v : Value) : Cell := ⟨f, v, v⟩

/-- The fields as they are written. -/
def before (cells : List Cell) : List (String × Value) :=
  cells.map fun c => (c.field.name, c.written)

def after (cells : List Cell) : List (String × Value) :=
  cells.map fun c => (c.field.name, c.read)

end Cell

theorem find?_name : ∀ {cells : List Cell}, (cells.map (·.field.name)).Nodup → ∀ c ∈ cells,
    (cells.map (·.field)).find? (·.name = c.field.name) = some c.field
  | [], _, c, hc => absurd hc List.not_mem_nil
  | d :: cells, hn, c, hc => by
    rw [List.map_cons, List.nodup_cons] at hn
    rw [List.map_cons, List.find?_cons]
    rcases List.mem_cons.1 hc with rfl | hc
    · simp
    · have hne : d.field.name ≠ c.field.name := by
        intro h
        exact hn.1 (h ▸ List.mem_map_of_mem hc)
      simp only [hne, decide_false]
      exact find?_name hn.2 c hc

/-- The entries of an object are read one after the other, each by the reader of its field. -/
theorem exists_entries {fields : List Field} {s : Source} : ∀ (cells : List Cell)
    (seen : List (String × Value)),
    (∀ c ∈ cells, fields.find? (·.name = c.field.name) = some c.field) →
    (cells.map (·.field.name)).Nodup → (∀ c ∈ cells, seen.lookup c.field.name = none) →
    (∀ c ∈ cells, c.field.read s c.written.toDoc = .ok c.read) →
    ∃ all, entries fields s seen (Value.toEntries (Cell.before cells)) = .ok all
      ∧ (∀ c ∈ cells, all.lookup c.field.name = some c.read)
      ∧ ∀ name, name ∉ cells.map (·.field.name) → all.lookup name = seen.lookup name
  | [], seen, _, _, _, _ => ⟨seen, rfl, fun c hc => absurd hc List.not_mem_nil, fun _ _ => rfl⟩
  | c :: cells, seen, hfind, hnodup, hfresh, hread => by
    obtain ⟨hf, hfind⟩ := List.forall_mem_cons.1 hfind
    obtain ⟨hnew, hfresh⟩ := List.forall_mem_cons.1 hfresh
    obtain ⟨hr, hread⟩ := List.forall_mem_cons.1 hread
    rw [List.map_cons, List.nodup_cons] at hnodup
    have hother : ∀ c' ∈ cells, c'.field.name ≠ c.field.name := by
      intro c' hc' h
      exact hnodup.1 (h ▸ List.mem_map_of_mem hc')
    obtain ⟨all, hall, hseen, hkeep⟩ := exists_entries cells ((c.field.name, c.read) :: seen) hfind
      hnodup.2 (fun c' hc' => by
        rw [List.lookup_cons, beq_eq_false_iff_ne.2 (hother c' hc')]
        exact hfresh c' hc') hread
    refine ⟨all, ?_, List.forall_mem_cons.2 ⟨?_, hseen⟩, fun name hname => ?_⟩
    · simp only [Cell.before, List.map_cons, Value.toEntries, entries, Key.used, ok_bind, hf, hnew,
        hr]
      exact hall
    · rw [hkeep _ hnodup.1, List.lookup_cons, beq_self_eq_true]
    · rw [List.map_cons, List.mem_cons, not_or] at hname
      rw [hkeep name hname.2, List.lookup_cons, beq_eq_false_iff_ne.2 hname.1]

theorem complete_eq_ok {seen : List (String × Value)} : ∀ {cells : List Cell},
    (∀ c ∈ cells, seen.lookup c.field.name = some c.read) →
      complete seen (cells.map (·.field)) = .ok (Cell.after cells)
  | [], _ => rfl
  | c :: cells, h => by
    obtain ⟨hc, hcells⟩ := List.forall_mem_cons.1 h
    rw [List.map_cons, complete, hc, complete_eq_ok hcells]
    rfl

variable {cells : List Cell} {k : ℕ}

theorem fields_eq_ok (title : String) (hn : (cells.map (·.field.name)).Nodup)
    (h : ∀ c ∈ cells, Reads c.field.read k c.written c.read) {s : Source} (hs : s.Allows (k + 1)) :
    fields title (cells.map (·.field)) s (.object (Value.toEntries (Cell.before cells)) none)
      = .ok (Cell.after cells) := by
  obtain ⟨t, ht, hallows⟩ := hs.exists_enter
  obtain ⟨all, hall, hseen, -⟩ := exists_entries (s := t) cells [] (find?_name hn) hn
    (fun _ _ => rfl) fun c hc => (h c hc).read t hallows
  simp only [fields, ht, ok_bind, hall, noFault]
  exact complete_eq_ok hseen

theorem heldEntries_cells (h : ∀ c ∈ cells, Reads c.field.read k c.written c.read) {depth : ℕ}
    (hk : k < depth) :
    Doc.heldEntries depth (Value.toEntries (Cell.before cells)) = .ok () := by
  refine Doc.heldEntries_eq_ok fun e he => ?_
  rw [Value.toEntries_eq_map, Cell.before, List.map_map] at he
  obtain ⟨c, hc, rfl⟩ := List.mem_map.1 he
  exact ⟨⟨_, rfl⟩, (h c hc).held depth hk⟩

theorem reads_record (title : String) {fs : List Field} (hnodup : (fs.map (·.name)).Nodup)
    (cells : List Cell) (hfields : fs = cells.map (·.field))
    (h : ∀ c ∈ cells, Reads c.field.read k c.written c.read) :
    Reads (record title fs) (k + 1) (.object (Cell.before cells)) (.object (Cell.after cells)) := by
  have hn : (cells.map (·.field.name)).Nodup := by
    rwa [hfields, List.map_map] at hnodup
  subst hfields
  refine ⟨fun s hs => ?_, fun depth hk => ?_⟩
  · unfold record
    rw [Value.toDoc, fields_eq_ok title hn h hs]
    rfl
  · simp only [Value.toDoc, Doc.held, Doc.enter_eq_ok hk, ok_bind,
      heldEntries_cells h (show k < depth - 1 by omega), noFault]

/-! ### Tagged records -/

/-- The entries after the tag are all kept. -/
theorem taggedEntries_cells (tag : String) (names : List String) {s : Source}
    (seen : Option String) (hs : s.Allows k) : ∀ (cells : List Cell),
    (∀ c ∈ cells, c.field.name ≠ tag ∧ Reads c.field.read k c.written c.read) →
      taggedEntries tag names s seen (Value.toEntries (Cell.before cells))
        = .ok (seen, Value.toEntries (Cell.before cells))
  | [], _ => rfl
  | c :: cells, h => by
    obtain ⟨⟨hne, hc⟩, hcells⟩ := List.forall_mem_cons.1 h
    have hrest := taggedEntries_cells tag names seen hs cells hcells
    simp only [Cell.before, List.map_cons, Value.toEntries] at hrest ⊢
    simp only [taggedEntries, Key.used, ok_bind, if_neg hne, hc.hold hs, hrest]
    rfl

theorem reads_tagged (title tag : String) {variants : List Variant} {name : String} {v : Variant}
    (hv : variants.find? (·.name = name) = some v)
    (hnodup : (tag :: v.fields.map (·.name)).Nodup)
    (cells : List Cell) (hfields : v.fields = cells.map (·.field))
    (h : ∀ c ∈ cells, Reads c.field.read k c.written c.read) :
    Reads (tagged title tag variants) (k + 1)
      (.object ((tag, .string name) :: Cell.before cells))
      (.object ((tag, .string name) :: Cell.after cells)) := by
  rw [hfields, List.map_map, List.nodup_cons] at hnodup
  obtain ⟨hnew, hn⟩ := hnodup
  have hne : ∀ c ∈ cells, c.field.name ≠ tag := fun c hc heq =>
    hnew (heq ▸ List.mem_map_of_mem hc)
  have hname : name ∈ variants.map (·.name) :=
    List.mem_map.2 ⟨v, List.mem_of_find?_eq_some hv, by simpa using List.find?_some hv⟩
  refine ⟨fun s hs => ?_, fun depth hk => ?_⟩
  · obtain ⟨t, ht, hallows⟩ := hs.exists_enter
    have htag : variant (variants.map (·.name)) (.string (.ok name) none) = .ok name := by
      simp only [variant, ok_bind, known, if_pos hname]
    have hrest := taggedEntries_cells tag (variants.map (·.name)) (some name) hallows cells
      fun c hc => ⟨hne c hc, h c hc⟩
    have hkept := fields_eq_ok v.title hn h (s := .kept) trivial
    simp only [Value.toDoc, Value.toEntries, tagged, ht, ok_bind, taggedEntries, Key.used, if_true,
      Option.isSome_none, Bool.false_eq_true, if_false, htag, hrest, noFault, variantFields, hv,
      hfields, hkept]
    rfl
  · simp only [Value.toDoc, Value.toEntries, Doc.held, Doc.enter_eq_ok hk, ok_bind, Doc.heldEntries,
      Key.used, Except.map, heldEntries_cells h (show k < depth - 1 by omega), noFault]

end Reader

end MatrixFree.Json
