import MatrixFree.Proofs.Readers
import MatrixFree.Description.Text

/-!
# Forms of descriptions

Each part of a description is taken back from its form, and its reader gives its form again, with
every coefficient replaced by what that coefficient's own text is read back as
(`Form.reads_description`).
-/

namespace MatrixFree

/-! ### Coefficients -/

section Coefficients

variable {α β : Type}

/-- The operator with other numbers in the places of its coefficients. -/
def Operator.map (f : α → β) : Operator α → Operator β
  | identity => .identity
  | negate => .negate
  | scale factor => .scale (f factor)
  | dense m => .dense ⟨m.rows, m.cols, m.data.map f⟩
  | sparse m => .sparse ⟨m.rows, m.cols, m.rowStarts, m.columns, m.values.map f⟩
  | sum => .sum
  | copy => .copy
  | concat => .concat
  | split => .split
  | stack => .stack
  | stride start step => .stride start step
  | transpose => .transpose
  | diagonal => .diagonal
  | diagonalPart => .diagonalPart
  | convolve taps => .convolve (taps.map f)

def Operator.coefficients : Operator α → List α
  | scale factor => [factor]
  | dense m => m.data.toList
  | sparse m => m.values.toList
  | convolve taps => taps.toList
  | _ => []

def NodeSpec.map (f : α → β) (n : NodeSpec α) : NodeSpec β := ⟨n.op.map f, n.input, n.output⟩

namespace Description

def map (f : α → β) (d : Description α) : Description β :=
  ⟨d.nodes.map (·.map f), d.edges, d.root, d.terminal, d.config⟩

/-- The coefficients of all operators. -/
def coefficients (d : Description α) : List α := d.nodes.flatMap (·.op.coefficients)

end Description

theorem list_map_eq_self_iff {f : α → α} {l : List α} : l.map f = l ↔ ∀ x ∈ l, f x = x := by
  conv_lhs => rhs; rw [← List.map_id l]
  exact List.map_eq_map_iff

theorem array_map_eq_self_iff {f : α → α} {t : Array α} :
    t.map f = t ↔ ∀ x ∈ t.toList, f x = x := by
  rw [← Array.toList_inj, Array.toList_map, list_map_eq_self_iff]

theorem Operator.map_eq_self_iff {f : α → α} {op : Operator α} :
    op.map f = op ↔ ∀ x ∈ op.coefficients, f x = x := by
  cases op with
  | dense m =>
    rw [coefficients, ← array_map_eq_self_iff]
    exact ⟨fun h => congrArg DenseMatrix.data (Operator.dense.inj h),
      fun h => congrArg (fun data => Operator.dense ⟨m.rows, m.cols, data⟩) h⟩
  | sparse m =>
    rw [coefficients, ← array_map_eq_self_iff]
    exact ⟨fun h => congrArg SparseMatrix.values (Operator.sparse.inj h),
      fun h => congrArg (fun v => Operator.sparse ⟨m.rows, m.cols, m.rowStarts, m.columns, v⟩) h⟩
  | convolve taps => simp [map, coefficients, array_map_eq_self_iff]
  | _ => simp [map, coefficients]

theorem Description.map_eq_self_iff {f : α → α} {d : Description α} :
    d.map f = d ↔ ∀ x ∈ d.coefficients, f x = x := by
  have hnodes : d.map f = d ↔ d.nodes.map (·.map f) = d.nodes :=
    ⟨fun h => congrArg Description.nodes h,
      fun h => congrArg (fun nodes => (⟨nodes, d.edges, d.root, d.terminal, d.config⟩ :
        Description α)) h⟩
  have hnode : ∀ n : NodeSpec α, n.map f = n ↔ n.op.map f = n.op := fun n =>
    ⟨fun h => congrArg NodeSpec.op h,
      fun h => congrArg (fun op => (⟨op, n.input, n.output⟩ : NodeSpec α)) h⟩
  simp only [hnodes, list_map_eq_self_iff, hnode, Operator.map_eq_self_iff, coefficients,
    List.mem_flatMap]
  exact ⟨fun h x ⟨n, hn, hx⟩ => h n hn x hx, fun h n hn x hx => h x ⟨n, hn, hx⟩⟩

end Coefficients

namespace Form

open Json Reader

/-! ### Back from the form -/

section Back

@[simp] theorem toNat_ofNat (n : ℕ) : toNat (ofNat n) = n := rfl

@[simp] theorem toSize_ofSize (n : UInt64) : toSize (ofSize n) = n := by
  simp [toSize, ofSize]

@[simp] theorem toWord_ofWord (n : UInt32) : toWord (ofWord n) = n := by
  simp [toWord, ofWord]

@[simp] theorem toFloat_ofFloat (x : Float) : toFloat (ofFloat x) = x := rfl

@[simp] theorem toOption_ofOption (s : Option String) : toOption (ofOption s) = s := by
  rcases s with _ | s <;> rfl

@[simp] theorem toNode_ofNode (n : NodeId) : toNode (ofNode n) = n := by
  simp [toNode, ofNode]

@[simp] theorem toEdgeId_ofEdgeId (e : EdgeId) : toEdgeId (ofEdgeId e) = e := by
  simp [toEdgeId, ofEdgeId]

variable {β : Type}

theorem toList_ofList {f : β → Value} {g : Value → β} (h : ∀ x, g (f x) = x) (l : List β) :
    toList g (ofList f l) = l := by
  have hid : g ∘ f = id := funext h
  rw [toList, ofList, Value.items, List.map_map, hid, List.map_id]

theorem toArray_toList_ofList {f : β → Value} {g : Value → β} (h : ∀ x, g (f x) = x)
    (t : Array β) : (toList g (ofList f t.toList)).toArray = t := by
  rw [toList_ofList h]

@[simp] theorem toShape_ofShape (s : Shape) : toShape (ofShape s) = s :=
  congrArg Shape.mk (toList_ofList toSize_ofSize s.dims)

@[simp] theorem toDense_ofDense (m : DenseMatrix Float) : toDense (ofDense m) = m := by
  simp [toDense, ofDense, Value.field, List.lookup_cons, toArray_toList_ofList toFloat_ofFloat]

@[simp] theorem toSparse_ofSparse (m : SparseMatrix Float) : toSparse (ofSparse m) = m := by
  simp [toSparse, ofSparse, Value.field, List.lookup_cons, toArray_toList_ofList toFloat_ofFloat,
    toArray_toList_ofList toSize_ofSize]

@[simp] theorem toOperator_ofOperator (op : Operator Float) : toOperator (ofOperator op) = op := by
  cases op <;> simp [toOperator, ofOperator, operatorFields, Operator.name, Value.field,
    List.lookup_cons, toArray_toList_ofList toFloat_ofFloat]

@[simp] theorem toNodeSpec_ofNodeSpec (n : NodeSpec Float) : toNodeSpec (ofNodeSpec n) = n := by
  simp [toNodeSpec, ofNodeSpec, Value.field, List.lookup_cons, toList_ofList toEdgeId_ofEdgeId,
    toList_ofList toShape_ofShape]

@[simp] theorem toEdgeSpec_ofEdgeSpec (e : EdgeSpec) : toEdgeSpec (ofEdgeSpec e) = e := by
  simp [toEdgeSpec, toEdge, ofEdgeSpec, Value.field, List.lookup_cons]

@[simp] theorem toConfig_ofConfig (c : Config) : toConfig (ofConfig c) = c := by
  simp [toConfig, toBool, ofConfig, Value.field, List.lookup_cons]

@[simp] theorem toDescription_ofDescription (d : Description Float) :
    toDescription (ofDescription d) = d := by
  simp [toDescription, ofDescription, Value.field, List.lookup_cons,
    toList_ofList toNodeSpec_ofNodeSpec, toList_ofList toEdgeSpec_ofEdgeSpec]

end Back

/-! ### Reading the forms -/

section Reading

variable {k : ℕ}

theorem unexpected_ne_ok {β : Type} {d : Doc} {expected : String} {b : β} :
    d.unexpected expected ≠ .ok b := by
  intro h
  unfold Doc.unexpected at h
  split at h <;> cases h

theorem float_eq_ok {s : Source} {d : Doc} {v : Value} (h : float s d = .ok v) :
    ∃ y, v = ofFloat y := by
  unfold float at h
  split at h
  next used _ =>
    obtain ⟨n, -, hn⟩ := bind_eq_ok_iff.1 h
    rcases n with n | x
    · exact ⟨_, (Except.ok.inj hn).symm⟩
    · exact ⟨_, (Except.ok.inj hn).symm⟩
  next => exact absurd h unexpected_ne_ok

/-- What a machine number is read back as from its own text. -/
def reread (x : Float) : Except Fault Float :=
  toFloat <$> float.readText ((ofFloat x).text .compact)

theorem reads_ofFloat {x y : Float} (h : reread x = .ok y) (k : ℕ) :
    Reads float k (ofFloat x) (ofFloat y) := by
  refine reads_float ?_ k
  unfold reread at h
  rcases hr : float.readText ((ofFloat x).text .compact) with _ | v
  · rw [hr] at h
    cases h
  · have hfloat := hr
    rw [readText_text float Layout.blank_compact] at hfloat
    obtain ⟨z, rfl⟩ := float_eq_ok hfloat
    rw [hr] at h
    rw [show z = y from Except.ok.inj h] at hr
    exact hr

theorem reads_ofSize (n : UInt64) (k : ℕ) : Reads size k (ofSize n) (ofSize n) :=
  reads_whole "usize" n.toNat_lt_size (le_refl _) k

theorem reads_ofWord (n : UInt32) (k : ℕ) : Reads word k (ofWord n) (ofWord n) :=
  reads_whole "u32" n.toNat_lt_size (by decide) k

theorem reads_ofOption (s : Option String) (k : ℕ) :
    Reads optionalString k (ofOption s) (ofOption s) := by
  rcases s with _ | s
  · exact reads_null k
  · exact reads_string s k

theorem reads_sizes (l : List UInt64) (k : ℕ) :
    Reads (.list size) (k + 1) (ofList ofSize l) (ofList ofSize l) :=
  reads_list fun n _ => reads_ofSize n k

theorem reads_floats {f : Float → Float} {t : Array Float}
    (h : ∀ x ∈ t.toList, reread x = .ok (f x)) (k : ℕ) :
    Reads (.list float) (k + 1) (ofList ofFloat t.toList) (ofList ofFloat (t.map f).toList) := by
  rw [Array.toList_map, ofList, ofList, List.map_map]
  exact reads_list fun x hx => reads_ofFloat (h x hx) k

theorem reads_edges (l : List EdgeId) (k : ℕ) :
    Reads (.list word) (k + 1) (ofList ofEdgeId l) (ofList ofEdgeId l) :=
  reads_list fun e _ => reads_ofWord e.val k

theorem reads_shapes (l : List Shape) (k : ℕ) :
    Reads (.list shapeReader) (k + 2) (ofList ofShape l) (ofList ofShape l) :=
  reads_list fun s _ => reads_sizes s.dims k

variable {f : Float → Float}

theorem reads_dense {m : DenseMatrix Float} (h : ∀ x ∈ m.data.toList, reread x = .ok (f x))
    (k : ℕ) : Reads denseReader (k + 2) (ofDense m) (ofDense ⟨m.rows, m.cols, m.data.map f⟩) := by
  refine reads_record _ (by decide) [.same (required "rows" size) (ofSize m.rows),
    .same (required "cols" size) (ofSize m.cols),
    ⟨required "data" (.list float), ofList ofFloat m.data.toList,
      ofList ofFloat (m.data.map f).toList⟩] rfl ?_
  simp only [List.forall_mem_cons]
  exact ⟨reads_ofSize _ _, reads_ofSize _ _, reads_floats h k, List.forall_mem_nil _⟩

theorem reads_sparse {m : SparseMatrix Float} (h : ∀ x ∈ m.values.toList, reread x = .ok (f x))
    (k : ℕ) : Reads sparseReader (k + 2) (ofSparse m)
      (ofSparse ⟨m.rows, m.cols, m.rowStarts, m.columns, m.values.map f⟩) := by
  refine reads_record _ (by decide) [.same (required "rows" size) (ofSize m.rows),
    .same (required "cols" size) (ofSize m.cols),
    .same (required "indptr" (.list size)) (ofList ofSize m.rowStarts.toList),
    .same (required "indices" (.list size)) (ofList ofSize m.columns.toList),
    ⟨required "values" (.list float), ofList ofFloat m.values.toList,
      ofList ofFloat (m.values.map f).toList⟩] rfl ?_
  simp only [List.forall_mem_cons]
  exact ⟨reads_ofSize _ _, reads_ofSize _ _, reads_sizes _ k, reads_sizes _ k, reads_floats h k,
    List.forall_mem_nil _⟩

theorem reads_operator {op : Operator Float} (h : ∀ x ∈ op.coefficients, reread x = .ok (f x))
    (k : ℕ) : Reads operatorReader (k + 3) (ofOperator op) (ofOperator (op.map f)) := by
  cases op with
  | scale factor =>
    refine reads_tagged _ _ rfl (by decide)
      [⟨required "alpha" float, ofFloat factor, ofFloat (f factor)⟩] rfl ?_
    simp only [List.forall_mem_cons]
    exact ⟨reads_ofFloat (h factor List.mem_cons_self) _, List.forall_mem_nil _⟩
  | dense m =>
    refine reads_tagged _ _ rfl (by decide)
      [⟨required "matrix" denseReader, ofDense m, ofDense _⟩] rfl ?_
    simp only [List.forall_mem_cons]
    exact ⟨reads_dense h k, List.forall_mem_nil _⟩
  | sparse m =>
    refine reads_tagged _ _ rfl (by decide)
      [⟨required "matrix" sparseReader, ofSparse m, ofSparse _⟩] rfl ?_
    simp only [List.forall_mem_cons]
    exact ⟨reads_sparse h k, List.forall_mem_nil _⟩
  | stride start step =>
    refine reads_tagged _ _ rfl (by decide) [.same (required "start" size) (ofSize start),
      .same (required "step" size) (ofSize step)] rfl ?_
    simp only [List.forall_mem_cons]
    exact ⟨reads_ofSize _ _, reads_ofSize _ _, List.forall_mem_nil _⟩
  | convolve taps =>
    refine reads_tagged _ _ rfl (by decide) [⟨required "kernel" (.list float),
      ofList ofFloat taps.toList, ofList ofFloat (taps.map f).toList⟩] rfl ?_
    simp only [List.forall_mem_cons]
    exact ⟨reads_floats h _, List.forall_mem_nil _⟩
  | _ => exact reads_tagged _ _ rfl (by decide) [] rfl (List.forall_mem_nil _)

theorem reads_nodeSpec {n : NodeSpec Float} (h : ∀ x ∈ n.op.coefficients, reread x = .ok (f x))
    (k : ℕ) : Reads nodeSpecReader (k + 4) (ofNodeSpec n) (ofNodeSpec (n.map f)) := by
  refine reads_record _ (by decide)
    [⟨required "op" operatorReader, ofOperator n.op, ofOperator (n.op.map f)⟩,
    .same (required "input_sizes" (.list shapeReader)) (ofList ofShape n.input.shapes),
    .same (required "output_sizes" (.list shapeReader)) (ofList ofShape n.output.shapes),
    .same ⟨"input_edges", .list word, some (.array [])⟩ (ofList ofEdgeId n.input.edges),
    .same ⟨"output_edges", .list word, some (.array [])⟩ (ofList ofEdgeId n.output.edges)] rfl ?_
  simp only [List.forall_mem_cons]
  exact ⟨reads_operator h k, reads_shapes _ _, reads_shapes _ _, reads_edges _ _, reads_edges _ _,
    List.forall_mem_nil _⟩

theorem reads_edgeSpec (e : EdgeSpec) (k : ℕ) :
    Reads edgeSpecReader (k + 1) (ofEdgeSpec e) (ofEdgeSpec e) := by
  refine reads_record _ (by decide) [.same (required "id" word) (ofEdgeId e.id),
    .same (required "source" word) (ofNode e.ends.source),
    .same (required "target" word) (ofNode e.ends.target)] rfl ?_
  simp only [List.forall_mem_cons]
  exact ⟨reads_ofWord _ _, reads_ofWord _ _, reads_ofWord _ _, List.forall_mem_nil _⟩

theorem reads_config (c : Config) (k : ℕ) :
    Reads configReader (k + 1) (ofConfig c) (ofConfig c) := by
  refine reads_record _ (by decide)
    [.same ⟨"verify_traversals", bool, some (.bool true)⟩ (.bool c.verifyTraversals),
    .same ⟨"report_on_drop", bool, some (.bool true)⟩ (.bool c.reportOnDrop),
    .same ⟨"label", optionalString, some .null⟩ (ofOption c.label)] rfl ?_
  simp only [List.forall_mem_cons]
  exact ⟨reads_bool _ _, reads_bool _ _, reads_ofOption _ _, List.forall_mem_nil _⟩

/-- The form of a description is read as the form of the description with every coefficient as its
own text is read. -/
theorem reads_description {d : Description Float}
    (h : ∀ x ∈ d.coefficients, reread x = .ok (f x)) :
    Reads descriptionReader 6 (ofDescription d) (ofDescription (d.map f)) := by
  have hnodes : Reads (.list nodeSpecReader) 5 (ofList ofNodeSpec d.nodes)
      (ofList ofNodeSpec (d.map f).nodes) := by
    rw [Description.map, ofList, ofList, List.map_map]
    exact reads_list fun n hn =>
      reads_nodeSpec (fun x hx => h x (List.mem_flatMap.2 ⟨n, hn, hx⟩)) 0
  refine reads_record _ (by decide) [⟨required "nodes" (.list nodeSpecReader),
      ofList ofNodeSpec d.nodes, ofList ofNodeSpec (d.map f).nodes⟩,
    .same (required "edges" (.list edgeSpecReader)) (ofList ofEdgeSpec d.edges),
    .same (required "root" word) (ofNode d.root),
    .same (required "terminal" word) (ofNode d.terminal),
    .same ⟨"config", configReader, some (ofConfig {})⟩ (ofConfig d.config)] rfl ?_
  simp only [List.forall_mem_cons]
  exact ⟨hnodes, reads_list fun e _ => reads_edgeSpec e _, reads_ofWord _ _, reads_ofWord _ _,
    reads_config _ _, List.forall_mem_nil _⟩

end Reading

end Form

/-- A description comes back from its text with every coefficient as its own text is read. -/
theorem Description.ofJson_toJson_of_reread {f : Float → Float} {d : Description Float}
    (h : ∀ x ∈ d.coefficients, Form.reread x = .ok (f x)) : ofJson d.toJson = .ok (d.map f) := by
  have hread := (Form.reads_description h).read (.text Json.Source.maxDepth)
    (show 6 < Json.Source.maxDepth by decide)
  unfold ofJson toJson
  rw [Json.Reader.readText_text _ Json.Layout.blank_indented, hread]
  dsimp only
  rw [Form.toDescription_ofDescription]

end MatrixFree
