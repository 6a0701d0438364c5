import MatrixFree.Proofs.Forms
import MatrixFree.Proofs.MachineNumbers

/-!
# Texts with finite numbers

The text of a number that is infinite or undefined is `null`, which no reader of machine numbers
takes. What is read of a rendered value is read of the values in it (`Json.Reader.Takes`), so all
coefficients of a description that is read back from its text are finite
(`Description.finite_of_ofJson`).
-/

namespace MatrixFree

theorem exists_of_mapM_eq_ok {ε β γ : Type} {f : β → Except ε γ} : ∀ {l : List β} {out : List γ},
    l.mapM f = .ok out → ∀ x ∈ l, ∃ y, f x = .ok y
  | [], _, _ => fun _ hx => absurd hx List.not_mem_nil
  | x :: l, out, h => by
    rw [List.mapM_cons] at h
    obtain ⟨y, hy, h⟩ := bind_eq_ok_iff.1 h
    obtain ⟨ys, hys, -⟩ := bind_eq_ok_iff.1 h
    exact List.forall_mem_cons.2 ⟨⟨y, hy⟩, exists_of_mapM_eq_ok hys⟩

theorem Rounding.isFinite_eq (x : Float) : x.isFinite = !(x.isNaN || x.isInf) := by
  change x.toModel.unpack.isFinite = !(x.toModel.unpack.isNaN || x.toModel.unpack.isInf)
  rcases x.toModel.unpack with _ | _ | _ | _ <;> rfl

namespace Json.Reader

/-- The reader takes the document of the value from some source. -/
def Takes (r : Reader) (v : Value) : Prop := ∃ s w, r s v.toDoc = .ok w

theorem takes_list {β : Type} {item : Reader} {f : β → Value} {l : List β}
    (h : Takes (list item) (.array (l.map f))) : ∀ x ∈ l, Takes item (f x) := by
  intro x hx
  obtain ⟨s, w, h⟩ := h
  unfold list at h
  rw [Value.toDoc] at h
  obtain ⟨t, -, h⟩ := bind_eq_ok_iff.1 h
  obtain ⟨vs, hvs, -⟩ := bind_eq_ok_iff.1 h
  rw [Value.toDocs_eq_map, List.map_map] at hvs
  obtain ⟨y, hy⟩ := exists_of_mapM_eq_ok hvs _ (List.mem_map_of_mem hx)
  exact ⟨t, y, hy⟩

/-! ### Records -/

theorem takes_of_entries {fields : List Field} {s : Source} : ∀ {es : List (String × Value)}
    {seen all : List (String × Value)}, entries fields s seen (Value.toEntries es) = .ok all →
    ∀ e ∈ es, ∀ f, fields.find? (·.name = e.1) = some f → Takes f.read e.2
  | [], _, _, _ => fun e he => absurd he List.not_mem_nil
  | (name, v) :: es, seen, all, h => by
    rw [Value.toEntries, entries] at h
    obtain ⟨name', hname, h⟩ := bind_eq_ok_iff.1 h
    obtain rfl : name = name' := Except.ok.inj hname
    rcases hfind : fields.find? (·.name = name) with _ | f
    · rw [hfind] at h
      obtain ⟨-, -, h⟩ := bind_eq_ok_iff.1 h
      exact List.forall_mem_cons.2
        ⟨fun f hf => absurd (hfind.symm.trans hf) (by simp), takes_of_entries h⟩
    · rw [hfind] at h
      dsimp only at h
      split at h
      · cases h
      · obtain ⟨w, hw, h⟩ := bind_eq_ok_iff.1 h
        refine List.forall_mem_cons.2 ⟨fun g hg => ?_, takes_of_entries h⟩
        obtain rfl := Option.some.inj (hfind.symm.trans hg)
        exact ⟨s, w, hw⟩

theorem takes_of_fields {title : String} {fs : List Field} {s : Source}
    {es all : List (String × Value)}
    (h : fields title fs s (.object (Value.toEntries es) none) = .ok all) :
    ∀ e ∈ es, ∀ f, fs.find? (·.name = e.1) = some f → Takes f.read e.2 := by
  unfold fields at h
  obtain ⟨t, -, h⟩ := bind_eq_ok_iff.1 h
  obtain ⟨seen, hseen, -⟩ := bind_eq_ok_iff.1 h
  exact takes_of_entries hseen

theorem takes_record {title : String} {fs : List Field} {es : List (String × Value)}
    (h : Takes (record title fs) (.object es)) :
    ∀ e ∈ es, ∀ f, fs.find? (·.name = e.1) = some f → Takes f.read e.2 := by
  obtain ⟨s, w, h⟩ := h
  unfold record at h
  rw [Value.toDoc] at h
  rcases hf : fields title fs s (.object (Value.toEntries es) none) with _ | all
  · rw [hf] at h
    cases h
  · exact takes_of_fields hf

/-! ### Tagged records -/

theorem eq_of_taggedEntries {tag : String} {names : List String} {s : Source}
    {seen : Option String} : ∀ {es : List (String × Value)}
    {out : Option String × List (Key × Doc)}, (∀ e ∈ es, e.1 ≠ tag) →
    taggedEntries tag names s seen (Value.toEntries es) = .ok out →
    out = (seen, Value.toEntries es)
  | [], _, _, h => (Except.ok.inj h).symm
  | (name, v) :: es, out, hne, h => by
    obtain ⟨hname, hne⟩ := List.forall_mem_cons.1 hne
    rw [Value.toEntries, taggedEntries] at h
    obtain ⟨name', hname', h⟩ := bind_eq_ok_iff.1 h
    obtain rfl : name = name' := Except.ok.inj hname'
    rw [if_neg hname] at h
    obtain ⟨-, -, h⟩ := bind_eq_ok_iff.1 h
    obtain ⟨rest, hrest, h⟩ := bind_eq_ok_iff.1 h
    obtain rfl := eq_of_taggedEntries hne hrest
    exact (Except.ok.inj h).symm

theorem takes_tagged {title tag name : String} {variants : List Variant} {v : Variant}
    {es : List (String × Value)} (hv : variants.find? (·.name = name) = some v)
    (hne : ∀ e ∈ es, e.1 ≠ tag)
    (h : Takes (tagged title tag variants) (.object ((tag, .string name) :: es))) :
    ∀ e ∈ es, ∀ f, v.fields.find? (·.name = e.1) = some f → Takes f.read e.2 := by
  obtain ⟨s, w, h⟩ := h
  unfold tagged at h
  rw [Value.toDoc, Value.toEntries] at h
  obtain ⟨t, -, h⟩ := bind_eq_ok_iff.1 h
  obtain ⟨out, hout, h⟩ := bind_eq_ok_iff.1 h
  rw [taggedEntries] at hout
  obtain ⟨tag', htag, hout⟩ := bind_eq_ok_iff.1 hout
  obtain rfl : tag = tag' := Except.ok.inj htag
  rw [if_pos rfl, if_neg (by simp)] at hout
  obtain ⟨name', hname, hout⟩ := bind_eq_ok_iff.1 hout
  obtain rfl : name = name' := by
    unfold variant known at hname
    rw [Value.toDoc] at hname
    change (if name ∈ _ then _ else _) = _ at hname
    split at hname
    · exact Except.ok.inj hname
    · cases hname
  obtain rfl := eq_of_taggedEntries hne hout
  obtain ⟨-, -, h⟩ := bind_eq_ok_iff.1 h
  unfold variantFields at h
  dsimp only at h
  rw [hv] at h
  obtain ⟨all, hall, -⟩ := bind_eq_ok_iff.1 h
  exact takes_of_fields hall

end Json.Reader

namespace Form

open Json Reader

theorem isFinite_of_takes {x : Float} (h : Takes float (ofFloat x)) : x.isFinite = true := by
  obtain ⟨s, w, h⟩ := h
  rw [Rounding.isFinite_eq, Bool.not_eq_true']
  by_contra hx
  rw [Bool.not_eq_false] at hx
  rw [ofFloat, Value.toDoc, Number.doc, Number.parts, if_pos hx] at h
  exact unexpected_ne_ok (show Doc.null.unexpected "f64" = .ok w from h)

theorem finite_of_takes_floats {l : List Float} (h : Takes (.list float) (ofList ofFloat l)) :
    ∀ x ∈ l, x.isFinite = true :=
  fun x hx => isFinite_of_takes (takes_list h x hx)

theorem finite_of_takes_dense {m : DenseMatrix Float} (h : Takes denseReader (ofDense m)) :
    ∀ x ∈ m.data.toList, x.isFinite = true := by
  refine finite_of_takes_floats (takes_record h ("data", _) ?_ _ rfl)
  exact .tail _ (.tail _ (.head _))

theorem finite_of_takes_sparse {m : SparseMatrix Float} (h : Takes sparseReader (ofSparse m)) :
    ∀ x ∈ m.values.toList, x.isFinite = true := by
  refine finite_of_takes_floats (takes_record h ("values", _) ?_ _ rfl)
  exact .tail _ (.tail _ (.tail _ (.tail _ (.head _))))

theorem finite_of_takes_operator {op : Operator Float} (h : Takes operatorReader (ofOperator op)) :
    ∀ x ∈ op.coefficients, x.isFinite = true := by
  have hne : ∀ e ∈ operatorFields op, e.1 ≠ "type" := by
    cases op <;> simp [operatorFields]
  cases op with
  | scale factor =>
    rw [Operator.coefficients, List.forall_mem_singleton]
    exact isFinite_of_takes (takes_tagged rfl hne h ("alpha", _) (.head _) _ rfl)
  | dense m => exact finite_of_takes_dense (takes_tagged rfl hne h ("matrix", _) (.head _) _ rfl)
  | sparse m => exact finite_of_takes_sparse (takes_tagged rfl hne h ("matrix", _) (.head _) _ rfl)
  | convolve taps =>
    exact finite_of_takes_floats (takes_tagged rfl hne h ("kernel", _) (.head _) _ rfl)
  | _ => exact List.forall_mem_nil _

theorem finite_of_takes_description {d : Description Float}
    (h : Takes descriptionReader (ofDescription d)) : ∀ x ∈ d.coefficients, x.isFinite = true := by
  intro x hx
  obtain ⟨n, hn, hx⟩ := List.mem_flatMap.1 hx
  have hnode := takes_list (takes_record h ("nodes", _) (.head _) _ rfl) n hn
  exact finite_of_takes_operator (takes_record hnode ("op", _) (.head _) _ rfl) x hx

end Form

theorem Description.finite_of_ofJson {d d' : Description Float} (h : ofJson d.toJson = .ok d') :
    ∀ x ∈ d.coefficients, x.isFinite = true := by
  unfold ofJson toJson at h
  rw [Json.Reader.readText_text _ Json.Layout.blank_indented] at h
  split at h
  next v hv => exact Form.finite_of_takes_description ⟨_, v, hv⟩
  next => cases h

end MatrixFree
