import MatrixFree.Proofs.Literals
import MatrixFree.Proofs.NumberTexts

/-!
# Documents of rendered values

A value's text, in any layout that puts only blanks between the tokens, is scanned as the value's
own document and nothing of what follows is touched (`Json.Scan.value_render`).
-/

namespace MatrixFree.Json

/-- A number's text starts with a sign or a digit. -/
theorem Numeral.Parts.Proper.exists_head {p : Numeral.Parts} (hp : p.Proper) :
    ∃ c cs, p.text = c :: cs ∧ (c = '-' ∨ Numeral.isDigit c = true) := by
  obtain ⟨c, cs, hcs⟩ := List.exists_cons_of_ne_nil hp.whole.ne_nil
  have hc : Numeral.isDigit c = true := hp.whole.isDigit c (hcs ▸ List.mem_cons_self)
  unfold Numeral.Parts.text
  rw [hcs]
  rcases p.negative with _ | _
  · exact ⟨c, _, rfl, .inr hc⟩
  · exact ⟨'-', _, rfl, .inl rfl⟩

/-! ### The document of a value -/

def Number.doc (n : Number) : Doc :=
  match n.parts with
  | none => .null
  | some p => .number p.numeral.value none

namespace Value

mutual

def toDoc : Value → Doc
  | null => .null
  | bool b => .bool b
  | number n => n.doc
  | string s => .string (.ok s) none
  | array vs => .array (toDocs vs) none
  | object fs => .object (toEntries fs) none

def toDocs : List Value → List Doc
  | [] => []
  | v :: vs => toDoc v :: toDocs vs

def toEntries : List (String × Value) → List (Key × Doc)
  | [] => []
  | (k, v) :: fs => (.name (.ok k) none, toDoc v) :: toEntries fs

end

theorem toDocs_eq_map : ∀ vs : List Value, toDocs vs = vs.map toDoc
  | [] => rfl
  | v :: vs => by rw [toDocs, toDocs_eq_map vs, List.map_cons]

theorem toEntries_eq_map : ∀ fs : List (String × Value),
    toEntries fs = fs.map fun f => (.name (.ok f.1) none, f.2.toDoc)
  | [] => rfl
  | f :: fs => by rw [toEntries, toEntries_eq_map fs, List.map_cons]

/-- Induction over the values in a value. -/
theorem induct {P : Value → Prop} (null : P null) (bool : ∀ b, P (bool b))
    (number : ∀ n, P (number n)) (string : ∀ s, P (string s))
    (array : ∀ vs, (∀ v ∈ vs, P v) → P (array vs))
    (object : ∀ fs, (∀ f ∈ fs, P f.2) → P (object fs)) (v : Value) : P v :=
  Value.rec null bool number string array object
    (fun _ hv => absurd hv List.not_mem_nil)
    (fun _ _ hv hvs => List.forall_mem_cons.2 ⟨hv, hvs⟩)
    (fun _ hf => absurd hf List.not_mem_nil)
    (fun _ _ hf hfs => List.forall_mem_cons.2 ⟨hf, hfs⟩)
    (fun _ _ hv => hv) v

end Value

/-! ### Blanks -/

/-- Only blanks stand between the tokens. -/
structure Layout.Blank (l : Layout) : Prop where
  gap : ∀ depth, ∀ c ∈ l.gap depth, Scan.isBlank c = true
  afterColon : ∀ c ∈ l.afterColon, Scan.isBlank c = true

theorem Layout.blank_compact : Layout.compact.Blank where
  gap _ _ hc := absurd hc List.not_mem_nil
  afterColon _ hc := absurd hc List.not_mem_nil

theorem Layout.blank_indented : Layout.indented.Blank where
  gap depth c hc := by
    rcases List.mem_cons.1 hc with rfl | hc
    · rfl
    · rw [List.eq_of_mem_replicate hc]
      rfl
  afterColon c hc := by
    rw [List.mem_singleton.1 hc]
    rfl

namespace Scan

variable {bs cs cs' rest : List Char} {c : Char}

theorem skipBlanks_append (hb : ∀ c ∈ bs, isBlank c = true) (cs : List Char) :
    skipBlanks (bs ++ cs) = skipBlanks cs := by
  unfold skipBlanks
  exact List.dropWhile_append_of_pos hb

theorem skipBlanks_cons (hc : isBlank c = false) (cs : List Char) :
    skipBlanks (c :: cs) = c :: cs := by
  simp [skipBlanks, hc]

theorem value_skip (hb : ∀ c ∈ bs, isBlank c = true) (fuel : ℕ) (cs : List Char) :
    value fuel (bs ++ cs) = value fuel cs := by
  rcases fuel with _ | fuel
  · rfl
  · unfold value
    rw [skipBlanks_append hb]

theorem entries_skip (hb : ∀ c ∈ bs, isBlank c = true) (fuel : ℕ) (cs : List Char) :
    entries fuel (bs ++ cs) = entries fuel cs := by
  rcases fuel with _ | fuel
  · rfl
  · unfold entries
    rw [skipBlanks_append hb]

theorem items_skip (hb : ∀ c ∈ bs, isBlank c = true) (fuel : ℕ) (cs : List Char) :
    items fuel (bs ++ cs) = items fuel cs := by
  rcases fuel with _ | fuel
  · rfl
  · unfold items
    rw [value_skip hb]

theorem ends_append (hb : ∀ c ∈ bs, isBlank c = true) (hr : Numeral.Ends rest) :
    Numeral.Ends (bs ++ rest) := by
  rcases bs with _ | ⟨b, bs⟩
  · exact hr
  · intro c hc
    obtain rfl : b = c := by simpa using hc
    have hblank := hb b List.mem_cons_self
    simp only [isBlank, Bool.or_eq_true, decide_eq_true_eq] at hblank
    rcases hblank with ((rfl | rfl) | rfl) | rfl <;> decide

theorem ends_cons {c : Char} (hc : c ∈ [',', ']', '}']) (cs : List Char) :
    Numeral.Ends (c :: cs) := by
  intro x hx
  obtain rfl : c = x := by simpa using hx
  simp only [List.mem_cons, List.not_mem_nil, or_false] at hc
  rcases hc with rfl | rfl | rfl <;> decide

/-! ### Values -/

/-- The value that is written is scanned from its text, at any depth and whatever follows. -/
def Scans (l : Layout) (v : Value) : Prop :=
  ∀ fuel depth rest, Numeral.Ends rest → 2 * (v.render l depth).length ≤ fuel →
    value fuel (v.render l depth ++ rest) = (v.toDoc, rest)

theorem word_append : ∀ (cs rest : List Char) (d : Doc), word cs d (cs ++ rest) = (d, rest)
  | [], _, _ => rfl
  | c :: cs, rest, d => by
    simp only [List.cons_append, word, if_pos]
    exact word_append cs rest d

theorem scans_null (l : Layout) : Scans l .null := by
  intro fuel depth rest hr hf
  obtain ⟨fuel, rfl⟩ : ∃ n, fuel = n + 1 := ⟨fuel - 1, by simp [Value.render] at hf; omega⟩
  exact word_append ['u', 'l', 'l'] rest .null

theorem scans_bool (l : Layout) (b : Bool) : Scans l (.bool b) := by
  intro fuel depth rest hr hf
  rcases b with _ | _
  · obtain ⟨fuel, rfl⟩ : ∃ n, fuel = n + 1 := ⟨fuel - 1, by simp [Value.render] at hf; omega⟩
    exact word_append ['a', 'l', 's', 'e'] rest (.bool false)
  · obtain ⟨fuel, rfl⟩ : ∃ n, fuel = n + 1 := ⟨fuel - 1, by simp [Value.render] at hf; omega⟩
    exact word_append ['r', 'u', 'e'] rest (.bool true)

/-- What starts a number starts nothing else. -/
theorem ne_of_numeral (hc : c = '-' ∨ Numeral.isDigit c = true) {x : Char}
    (hx : (decide (x = '-') || Numeral.isDigit x) = false) : c ≠ x := by
  rintro rfl
  rw [Bool.or_eq_false_iff, decide_eq_false_iff_not, ← Bool.not_eq_true] at hx
  exact hc.elim hx.1 hx.2

theorem isBlank_of_numeral (hc : c = '-' ∨ Numeral.isDigit c = true) : isBlank c = false := by
  have h1 : c ≠ ' ' := ne_of_numeral hc rfl
  have h2 : c ≠ '\n' := ne_of_numeral hc rfl
  have h3 : c ≠ '\t' := ne_of_numeral hc rfl
  have h4 : c ≠ '\r' := ne_of_numeral hc rfl
  simp [isBlank, h1, h2, h3, h4]

theorem value_of_numeral (hc : c = '-' ∨ Numeral.isDigit c = true) (fuel : ℕ) (cs : List Char) :
    value (fuel + 1) (c :: cs) = number (c :: cs) := by
  have hif : (c = '-' || Numeral.isDigit c) = true := by simpa using hc
  unfold value
  rw [skipBlanks_cons (isBlank_of_numeral hc)]
  split
  next h => cases h
  next h => exact absurd (List.cons.inj h).1 (ne_of_numeral hc rfl)
  next h => exact absurd (List.cons.inj h).1 (ne_of_numeral hc rfl)
  next h => exact absurd (List.cons.inj h).1 (ne_of_numeral hc rfl)
  next h => exact absurd (List.cons.inj h).1 (ne_of_numeral hc rfl)
  next h => exact absurd (List.cons.inj h).1 (ne_of_numeral hc rfl)
  next h => exact absurd (List.cons.inj h).1 (ne_of_numeral hc rfl)
  next h =>
    obtain ⟨rfl, rfl⟩ := List.cons.inj h
    exact if_pos hif

theorem scans_number (l : Layout) (n : Number) : Scans l (.number n) := by
  intro fuel depth rest hr hf
  have htext := n.text_eq
  rcases hp : n.parts with _ | p
  · rw [hp] at htext
    have hnull := scans_null l fuel depth rest hr
    simp only [Value.render, Value.toDoc, Number.doc, hp, htext] at hf hnull ⊢
    exact hnull hf
  · rw [hp] at htext
    have hproper := Number.proper_parts hp
    have hscan := Numeral.scan_append hproper hr
    obtain ⟨c, cs, hcs, hc⟩ := hproper.exists_head
    simp only [Value.render, Value.toDoc, Number.doc, hp, htext, Option.map_some,
      Option.getD_some, hcs] at hf hscan ⊢
    obtain ⟨fuel, rfl⟩ : ∃ n, fuel = n + 1 := ⟨fuel - 1, by simp at hf; omega⟩
    rw [List.cons_append] at hscan ⊢
    rw [value_of_numeral hc]
    unfold number
    rw [hscan]

theorem value_quote (fuel : ℕ) (cs : List Char) : value (fuel + 1) ('"' :: cs)
    = (.string (quoted cs).1 (quoted cs).2.1, (quoted cs).2.2) := rfl

theorem scans_string (l : Layout) (s : String) : Scans l (.string s) := by
  intro fuel depth rest hr hf
  obtain ⟨fuel, rfl⟩ : ∃ n, fuel = n + 1 := ⟨fuel - 1, by simp [Value.render, quote] at hf; omega⟩
  have hq := quoted_escape s.toList rest
  have htext : (Value.string s).render l depth ++ rest
      = '"' :: (s.toList.flatMap escape ++ '"' :: rest) := by
    simp [Value.render, quote]
  rw [htext, value_quote, hq, String.ofList_toList]
  rfl

/-! ### Containers -/

/-- No value starts with a blank or as an array ends. -/
theorem head_render (l : Layout) (depth : ℕ) (v : Value) :
    ∃ c cs, v.render l depth = c :: cs ∧ isBlank c = false ∧ c ≠ ']' := by
  rcases v with _ | b | n | s | vs | fs
  · exact ⟨_, _, rfl, by decide⟩
  · rcases b with _ | _
    · exact ⟨_, _, rfl, by decide⟩
    · exact ⟨_, _, rfl, by decide⟩
  · have htext := n.text_eq
    rcases hp : n.parts with _ | p
    · rw [hp] at htext
      exact ⟨_, _, htext, by decide⟩
    · rw [hp] at htext
      obtain ⟨c, cs, hcs, hc⟩ := (Number.proper_parts hp).exists_head
      exact ⟨c, cs, htext.trans hcs, isBlank_of_numeral hc, ne_of_numeral hc rfl⟩
  · exact ⟨_, _, rfl, by decide⟩
  · rcases vs with _ | ⟨v, vs⟩
    · exact ⟨_, _, rfl, by decide⟩
    · exact ⟨_, _, rfl, by decide⟩
  · rcases fs with _ | ⟨⟨k, v⟩, fs⟩
    · exact ⟨_, _, rfl, by decide⟩
    · exact ⟨_, _, rfl, by decide⟩

section Steps

variable {fuel : ℕ} {r : List Char} {d : Doc} {k : String}

theorem value_bracket (hne : c ≠ ']') (hs : skipBlanks cs = c :: rest) :
    value (fuel + 1) ('[' :: cs) = (.array (items fuel (c :: rest)).1 (items fuel (c :: rest)).2.1,
      (items fuel (c :: rest)).2.2) := by
  conv_lhs => unfold value
  rw [skipBlanks_cons rfl]
  simp only [hs]
  split
  next h => exact absurd (List.cons.inj h).1 hne
  next h => cases h
  next => rfl

theorem value_brace (hs : skipBlanks cs = '"' :: rest) : value (fuel + 1) ('{' :: cs)
    = (.object (entries fuel ('"' :: rest)).1 (entries fuel ('"' :: rest)).2.1,
      (entries fuel ('"' :: rest)).2.2) := by
  conv_lhs => unfold value
  rw [skipBlanks_cons rfl]
  simp [hs]

theorem items_comma (hv : value fuel cs = (d, r)) (hs : skipBlanks r = ',' :: rest) :
    items (fuel + 1) cs
      = (d :: (items fuel rest).1, (items fuel rest).2.1, (items fuel rest).2.2) := by
  conv_lhs => unfold items
  simp [hv, hs]

theorem items_close (hv : value fuel cs = (d, r)) (hs : skipBlanks r = ']' :: rest) :
    items (fuel + 1) cs = ([d], none, rest) := by
  conv_lhs => unfold items
  simp [hv, hs]

theorem colon_cons (cs : List Char) : colon (':' :: cs) = .ok cs := rfl

theorem entries_comma (hq : quoted cs = (.ok k, none, ':' :: r))
    (hv : value fuel r = (d, cs')) (hs : skipBlanks cs' = ',' :: rest) :
    entries (fuel + 1) ('"' :: cs)
      = ((.name (.ok k) none, d) :: (entries fuel rest).1, (entries fuel rest).2.1,
        (entries fuel rest).2.2) := by
  conv_lhs => unfold entries
  rw [skipBlanks_cons rfl]
  simp [hq, colon_cons, hv, hs]

theorem entries_close (hq : quoted cs = (.ok k, none, ':' :: r))
    (hv : value fuel r = (d, cs')) (hs : skipBlanks cs' = '}' :: rest) :
    entries (fuel + 1) ('"' :: cs) = ([(.name (.ok k) none, d)], none, rest) := by
  conv_lhs => unfold entries
  rw [skipBlanks_cons rfl]
  simp [hq, colon_cons, hv, hs]

end Steps

section Containers

variable {l : Layout} (hl : l.Blank)
include hl

theorem items_render (outer depth : ℕ) (rest : List Char) : ∀ (vs : List Value) (v : Value)
    (fuel : ℕ), Scans l v → (∀ w ∈ vs, Scans l w) →
      2 * ((v.render l depth).length + (Value.renderItems l depth vs).length) + 1 ≤ fuel →
      items fuel
        (v.render l depth ++ (Value.renderItems l depth vs ++ (l.gap outer ++ ']' :: rest)))
        = (v.toDoc :: Value.toDocs vs, none, rest)
  | [], v, fuel, hv, _, hf => by
    obtain ⟨fuel, rfl⟩ : ∃ n, fuel = n + 1 := ⟨fuel - 1, by omega⟩
    have hends : Numeral.Ends (l.gap outer ++ ']' :: rest) :=
      ends_append (hl.gap outer) (ends_cons (by decide) rest)
    exact items_close (hv fuel depth _ hends (by omega)) (skipBlanks_append (hl.gap outer) _)
  | w :: vs, v, fuel, hv, hvs, hf => by
    obtain ⟨fuel, rfl⟩ : ∃ n, fuel = n + 1 := ⟨fuel - 1, by omega⟩
    obtain ⟨hw, hvs⟩ := List.forall_mem_cons.1 hvs
    simp only [Value.renderItems, List.length_cons, List.length_append, List.cons_append,
      List.append_assoc] at hf ⊢
    have hrest := items_render outer depth rest vs w fuel hw hvs (by omega)
    rw [items_comma (hv fuel depth _ (ends_cons (by decide) _) (by omega)) (skipBlanks_cons rfl _),
      items_skip (hl.gap depth), hrest]
    rfl

theorem entries_render (outer depth : ℕ) (rest : List Char) :
    ∀ (fs : List (String × Value)) (k : String) (v : Value) (fuel : ℕ), Scans l v →
      (∀ f ∈ fs, Scans l f.2) →
      2 * ((v.render l depth).length + (Value.renderFields l depth fs).length) + 1 ≤ fuel →
      entries fuel (quote k ++ ':' :: (l.afterColon ++ (v.render l depth
          ++ (Value.renderFields l depth fs ++ (l.gap outer ++ '}' :: rest)))))
        = ((.name (.ok k) none, v.toDoc) :: Value.toEntries fs, none, rest)
  | [], k, v, fuel, hv, _, hf => by
    obtain ⟨fuel, rfl⟩ : ∃ n, fuel = n + 1 := ⟨fuel - 1, by omega⟩
    have hends : Numeral.Ends (l.gap outer ++ '}' :: rest) :=
      ends_append (hl.gap outer) (ends_cons (by decide) rest)
    have hvalue := (value_skip hl.afterColon fuel _).trans (hv fuel depth _ hends (by omega))
    have hquoted := quoted_escape k.toList
      (':' :: (l.afterColon ++ (v.render l depth ++ (l.gap outer ++ '}' :: rest))))
    rw [String.ofList_toList] at hquoted
    simp only [quote, Value.renderFields, List.cons_append, List.append_assoc, List.nil_append]
    exact entries_close hquoted hvalue (skipBlanks_append (hl.gap outer) _)
  | (k', w) :: fs, k, v, fuel, hv, hfs, hf => by
    obtain ⟨fuel, rfl⟩ : ∃ n, fuel = n + 1 := ⟨fuel - 1, by omega⟩
    obtain ⟨hw, hfs⟩ := List.forall_mem_cons.1 hfs
    simp only [Value.renderFields, List.length_cons, List.length_append, List.cons_append,
      List.append_assoc] at hf ⊢
    have hrest := entries_render outer depth rest fs k' w fuel hw hfs (by omega)
    have hvalue := fun more => (value_skip hl.afterColon fuel _).trans
      (hv fuel depth (',' :: more) (ends_cons (by decide) _) (by omega))
    have hquoted := fun more => quoted_escape k.toList (':' :: more)
    simp only [String.ofList_toList] at hquoted
    simp only [quote, List.cons_append, List.append_assoc, List.nil_append] at hrest ⊢
    rw [entries_comma (hquoted _) (hvalue _) (skipBlanks_cons rfl _), entries_skip (hl.gap depth),
      hrest]
    rfl

theorem scans_array (vs : List Value) (hvs : ∀ v ∈ vs, Scans l v) : Scans l (.array vs) := by
  intro fuel depth rest hr hf
  rcases vs with _ | ⟨v, vs⟩
  · obtain ⟨fuel, rfl⟩ : ∃ n, fuel = n + 1 := ⟨fuel - 1, by simp [Value.render] at hf; omega⟩
    rfl
  · obtain ⟨hv, hvs⟩ := List.forall_mem_cons.1 hvs
    simp only [Value.render, List.length_cons, List.length_append, List.length_nil,
      List.cons_append, List.append_assoc, List.nil_append] at hf ⊢
    obtain ⟨fuel, rfl⟩ : ∃ n, fuel = n + 1 := ⟨fuel - 1, by omega⟩
    obtain ⟨c, cs, hcs, hblank, hne⟩ := head_render l (depth + 1) v
    have hitems := items_render hl depth (depth + 1) rest vs v fuel hv hvs (by omega)
    rw [hcs, List.cons_append] at hitems ⊢
    rw [value_bracket hne ((skipBlanks_append (hl.gap _) _).trans (skipBlanks_cons hblank _)),
      hitems]
    rfl

theorem scans_object (fs : List (String × Value)) (hfs : ∀ f ∈ fs, Scans l f.2) :
    Scans l (.object fs) := by
  intro fuel depth rest hr hf
  rcases fs with _ | ⟨⟨k, v⟩, fs⟩
  · obtain ⟨fuel, rfl⟩ : ∃ n, fuel = n + 1 := ⟨fuel - 1, by simp [Value.render] at hf; omega⟩
    rfl
  · obtain ⟨hv, hfs⟩ := List.forall_mem_cons.1 hfs
    simp only [Value.render, List.length_cons, List.length_append, List.length_nil,
      List.cons_append, List.append_assoc, List.nil_append] at hf ⊢
    obtain ⟨fuel, rfl⟩ : ∃ n, fuel = n + 1 := ⟨fuel - 1, by omega⟩
    have hentries := entries_render hl depth (depth + 1) rest fs k v fuel hv hfs (by omega)
    simp only [quote, List.cons_append] at hentries ⊢
    rw [value_brace ((skipBlanks_append (hl.gap _) _).trans (skipBlanks_cons rfl _)), hentries]
    rfl

/-- Every value is scanned from its text. -/
theorem value_render (v : Value) : Scans l v := by
  induction v using Value.induct with
  | null => exact scans_null l
  | bool b => exact scans_bool l b
  | number n => exact scans_number l n
  | string s => exact scans_string l s
  | array vs ih => exact scans_array hl vs ih
  | object fs ih => exact scans_object hl fs ih

/-- The document of a rendered value is the value's own. -/
theorem document_render (v : Value) : document (v.render l 0) = (v.toDoc, []) := by
  have h := value_render hl v (2 * (v.render l 0).length + 2) 0 []
    (fun c hc => by simp at hc) (by omega)
  rwa [List.append_nil] at h

end Containers

end Scan

end MatrixFree.Json
