import Mathlib.Data.List.Nodup
import MatrixFree.Proofs.Refusals

/-!
# What the check of a wiring establishes

In a `Wiring.WellFormed` wiring every node has a port for each edge that it lists, every registered
edge is listed once on each side by the node that the registry gives it, and the two ports of an
edge have one size. A wiring of no more nodes than there are names for is well formed if its check
passes (`Wiring.wellFormed_of_check`).
-/

namespace MatrixFree

namespace NodeId

@[simp] theorem ofIndex_index (n : NodeId) : ofIndex n.index = n := by
  rcases n with ⟨v⟩
  simp [ofIndex, index]

theorem index_ofIndex {i : ℕ} (h : i < UInt32.size) : (ofIndex i).index = i :=
  UInt32.toNat_ofNat_of_lt' h

theorem getElem?_ofIndex {β : Type} {l : List β} (hcount : l.length ≤ UInt32.size) {i : ℕ}
    (h : i < l.length) : l[(ofIndex i).index]? = some l[i] := by
  rw [index_ofIndex (h.trans_le hcount)]
  exact List.getElem?_eq_getElem h

theorem index_inj {m n : NodeId} : m.index = n.index ↔ m = n :=
  ⟨fun h => by rw [← ofIndex_index m, h, ofIndex_index], congrArg index⟩

theorem index_lt (n : NodeId) : n.index < UInt32.size := n.val.toNat_lt

theorem index_lt_word (n : NodeId) : n.index < UInt64.size :=
  n.index_lt.trans (by decide)

end NodeId

/-- No list of distinct things is longer than the numbers for them reach. -/
theorem length_le_of_nodup {β : Type} {f : β → ℕ} {m : ℕ} (hinj : Function.Injective f)
    (hlt : ∀ b, f b < m) {l : List β} (hl : l.Nodup) : l.length ≤ m := by
  have hsub : l.map f ⊆ List.range m := fun i hi => by
    obtain ⟨b, -, rfl⟩ := List.mem_map.1 hi
    exact List.mem_range.2 (hlt b)
  have := (List.subperm_of_subset (hl.map hinj) hsub).length_le
  rwa [List.length_map, List.length_range] at this

theorem EdgeId.length_lt_word {l : List EdgeId} (hl : l.Nodup) : l.length < UInt64.size := by
  have hinj : Function.Injective EdgeId.index := fun a b h => by
    rcases a with ⟨a⟩
    rcases b with ⟨b⟩
    exact congrArg EdgeId.mk (UInt32.toNat_inj.1 h)
  exact (length_le_of_nodup hinj (fun e => e.val.toNat_lt) hl).trans_lt (by decide)

theorem EdgeId.next_eq_ok_iff {e e' : EdgeId} : e.next = .ok e' ↔ e'.index = e.index + 1 := by
  have hlt : e.index < 4294967296 := e.val.toNat_lt
  have hlt' : e'.index < 4294967296 := e'.val.toNat_lt
  unfold next
  by_cases h : e = last
  · have hindex : e.index = 4294967295 := congrArg index h
    rw [if_pos h]
    exact ⟨fun herr => (nomatch herr), fun hsucc => by omega⟩
  · have hne : e.index ≠ 4294967295 := fun hindex => h (congrArg mk (UInt32.toNat_inj.1 hindex))
    have hadd : (e.val + 1).toNat = e.index + 1 := by
      have hfits : e.index + 1 < 4294967296 := by omega
      rw [UInt32.toNat_add, UInt32.toNat_one]
      exact Nat.mod_eq_of_lt hfits
    rw [if_neg h, Except.ok.injEq, ← hadd, index, UInt32.toNat_inj]
    exact ⟨fun heq => congrArg val heq.symm, fun hval => congrArg mk hval.symm⟩

theorem EdgeRegistry.get?_eq_some_iff {r : EdgeRegistry} {e : EdgeId} {edge : Edge} :
    r.get? e = some edge ↔ (e, edge) ∈ r.entries := by
  rcases r with ⟨l, hl⟩
  unfold get?
  induction l with
  | nil => simp
  | cons x l ih =>
    rcases x with ⟨e', edge'⟩
    obtain ⟨hx, hl⟩ := List.pairwise_cons.1 hl
    rw [List.lookup_cons, List.mem_cons]
    by_cases he : e = e'
    · subst he
      have hne : (e, edge) ∉ l := fun h => UInt32.lt_irrefl _ (hx (e, edge) h)
      simp [hne, eq_comm]
    · rw [beq_eq_false_iff_ne.2 he]
      simpa [he] using ih hl

namespace GraphCheck

variable {β γ : Type} {c : Prop} [Decidable c] {e : GraphError}

theorem guard_eq_ok_iff {k : γ → GraphCheck β} {x : GraphCheck β} {b : β} :
    (if c then refuse e >>= k else x) = .ok b ↔ ¬ c ∧ x = .ok b :=
  MatrixFree.guard_eq_ok_iff

theorem unless_eq_ok_iff {u : Unit} :
    (if c then refuse e else pure () : GraphCheck Unit) = .ok u ↔ ¬ c := by
  rw [← ite_not]
  exact require_eq_ok_iff

end GraphCheck

theorem Side.forall_iff {P : Side → Prop} : (∀ side, P side) ↔ P .input ∧ P .output :=
  ⟨fun h => ⟨h .input, h .output⟩, fun h side => by cases side; exacts [h.1, h.2]⟩

namespace Wiring

variable {α : Type} {edges : EdgeRegistry} {root terminal n : NodeId} {spec : NodeSpec α}

/-- The node whose side is open to the outside. -/
def outer (root terminal : NodeId) : Side → NodeId
  | .input => root
  | .output => terminal

def Claims.on (c : Claims) : Side → List EdgeId
  | .input => c.inputs
  | .output => c.outputs

/-- What is required of a node by itself. -/
structure NodeFits (edges : EdgeRegistry) (root terminal n : NodeId) (spec : NodeSpec α) :
    Prop where
  ports : ∀ side, (spec.ports side).shapes.length
    = (spec.ports side).edges.length + if n = outer root terminal side then 1 else 0
  fits : ∀ side, Shape.Fits (spec.ports side).shapes
  accepts : spec.op.Accepts spec.signature
  nodup : ∀ side, (spec.ports side).edges.Nodup
  listed : ∀ side, ∀ e ∈ (spec.ports side).edges,
    ∃ edge, edges.get? e = some edge ∧ endOn side edge = n

theorem checkInRange_eq_ok_iff {count : ℕ} {u : Unit} :
    checkInRange count n = .ok u ↔ n.index < count :=
  require_eq_ok_iff

theorem checkPorts_eq_ok_iff {side : Side} {p : PortList} {isOpen : Prop} [Decidable isOpen]
    {u : Unit} : checkPorts n side p (decide isOpen) = .ok u ↔
      p.shapes.length = p.edges.length + if isOpen then 1 else 0 := by
  unfold checkPorts
  simp only [decide_eq_true_eq]
  exact require_eq_ok_iff

theorem checkLength_eq_ok_iff {side : Side} {p : PortList} {u : Unit} :
    checkLength n side p = .ok u ↔ Shape.Fits p.shapes := by
  unfold checkLength
  split
  next t ht => exact iff_of_true rfl (Shape.foldlM_checkedSize_iff.1 ht).1
  next hnone =>
    refine iff_of_false nofun fun h => ?_
    rw [Shape.foldlM_checkedSize_iff.2 ⟨h, rfl⟩] at hnone
    cases hnone

theorem checkOperator_eq_ok_iff {u : Unit} :
    checkOperator n spec = .ok u ↔ spec.op.check spec.signature = .ok () := by
  unfold checkOperator
  rcases spec.op.check spec.signature with s | ⟨⟩
  · exact iff_of_false nofun nofun
  · exact iff_of_true rfl rfl

theorem claim_eq_ok_iff {side : Side} {seen seen' : List EdgeId} {e : EdgeId} :
    claim edges n side seen e = .ok seen' ↔
      (∃ edge, edges.get? e = some edge ∧ endOn side edge = n) ∧ e ∉ seen ∧ e :: seen = seen' := by
  unfold claim
  rcases edges.get? e with _ | edge
  · simp [GraphCheck.refuse]
  · by_cases hend : endOn side edge = n
    · by_cases hseen : e ∈ seen <;> simp [hend, hseen, GraphCheck.refuse]
    · simp [hend, GraphCheck.refuse]

theorem foldlM_claim_iff {side : Side} : ∀ {es seen seen' : List EdgeId},
    es.foldlM (claim edges n side) seen = .ok seen' ↔
      (es.Nodup ∧ ∀ e ∈ es, e ∉ seen)
        ∧ (∀ e ∈ es, ∃ edge, edges.get? e = some edge ∧ endOn side edge = n)
        ∧ es.reverse ++ seen = seen'
  | [], seen, seen' => by simp [pure, Except.pure]
  | e :: es, seen, seen' => by
    simp only [List.foldlM_cons, bind_eq_ok_iff, claim_eq_ok_iff, foldlM_claim_iff,
      List.nodup_cons, List.forall_mem_cons, List.reverse_cons, List.append_assoc,
      List.singleton_append]
    constructor
    · rintro ⟨_, ⟨hend, hseen, rfl⟩, ⟨hnd, hdis⟩, hreg, rfl⟩
      exact ⟨⟨⟨fun h => hdis e h List.mem_cons_self, hnd⟩, hseen,
        fun x hx h => hdis x hx (List.mem_cons_of_mem _ h)⟩, ⟨hend, hreg⟩, rfl⟩
    · rintro ⟨⟨⟨he, hnd⟩, hseen, hdis⟩, ⟨hend, hreg⟩, rfl⟩
      refine ⟨_, ⟨hend, hseen, rfl⟩, ⟨hnd, fun x hx h => ?_⟩, hreg, rfl⟩
      rcases List.mem_cons.1 h with rfl | h
      · exact he hx
      · exact hdis x hx h

theorem Claims.eq_of_on {c c' : Claims} (h : ∀ side, c.on side = c'.on side) : c = c' := by
  rcases c with ⟨inputs, outputs⟩
  rcases c' with ⟨inputs', outputs'⟩
  obtain rfl : inputs = inputs' := h .input
  obtain rfl : outputs = outputs' := h .output
  rfl

theorem checkNode_eq_ok_iff {seen seen' : Claims} :
    checkNode edges root terminal seen n spec = .ok seen' ↔
      NodeFits edges root terminal n spec ∧ spec.op.check spec.signature = .ok ()
        ∧ (∀ side, ∀ e ∈ (spec.ports side).edges, e ∉ seen.on side)
        ∧ ∀ side, (spec.ports side).edges.reverse ++ seen.on side = seen'.on side := by
  simp only [checkNode, bind_eq_ok_iff, checkPorts_eq_ok_iff, checkLength_eq_ok_iff,
    checkOperator_eq_ok_iff, foldlM_claim_iff]
  constructor
  · rintro ⟨_, hpi, _, hpo, _, hli, _, hlo, _, hop, inputs, ⟨⟨hndi, hdi⟩, hregi, rfl⟩,
      outputs, ⟨⟨hndo, hdo⟩, hrego, rfl⟩, h⟩
    obtain rfl := Except.ok.inj h
    exact ⟨⟨Side.forall_iff.2 ⟨hpi, hpo⟩, Side.forall_iff.2 ⟨hli, hlo⟩,
      Operator.accepts_of_check hop, Side.forall_iff.2 ⟨hndi, hndo⟩,
      Side.forall_iff.2 ⟨hregi, hrego⟩⟩, hop, Side.forall_iff.2 ⟨hdi, hdo⟩,
      Side.forall_iff.2 ⟨rfl, rfl⟩⟩
  · rintro ⟨hfits, hop, hdis, hseen⟩
    refine ⟨(), hfits.ports .input, (), hfits.ports .output, (), hfits.fits .input, (),
      hfits.fits .output, (), hop, _, ⟨⟨hfits.nodup .input, hdis .input⟩, hfits.listed .input, rfl⟩,
      _, ⟨⟨hfits.nodup .output, hdis .output⟩, hfits.listed .output, rfl⟩, ?_⟩
    exact congrArg Except.ok (Claims.eq_of_on (Side.forall_iff.2 ⟨hseen .input, hseen .output⟩))

/-- All edges that the nodes list on a side, node by node. -/
def listedOn (nodes : List (NodeSpec α)) (side : Side) : List EdgeId :=
  nodes.flatMap fun spec => (spec.ports side).edges

theorem foldlM_checkNode_iff : ∀ {nodes : List (NodeSpec α)} {k : ℕ} {seen seen' : Claims},
    (nodes.zipIdx k).foldlM
      (fun seen x => checkNode edges root terminal seen (.ofIndex x.2) x.1) seen = .ok seen' ↔
    (∀ (i : ℕ) (spec : NodeSpec α), nodes[i]? = some spec →
        NodeFits edges root terminal (.ofIndex (k + i)) spec
          ∧ spec.op.check spec.signature = .ok ())
      ∧ (∀ side, (listedOn nodes side).Nodup ∧ ∀ e ∈ listedOn nodes side, e ∉ seen.on side)
      ∧ ∀ side, (listedOn nodes side).reverse ++ seen.on side = seen'.on side
  | [], k, seen, seen' => by
    simp only [List.zipIdx_nil, List.foldlM_nil, pure, Except.pure, Except.ok.injEq]
    constructor
    · rintro rfl
      simp [listedOn]
    · rintro ⟨-, -, h⟩
      exact Claims.eq_of_on h
  | spec :: nodes, k, seen, seen' => by
    simp only [List.zipIdx_cons, List.foldlM_cons, bind_eq_ok_iff, checkNode_eq_ok_iff,
      foldlM_checkNode_iff]
    have hlisted : ∀ side, listedOn (spec :: nodes) side
        = (spec.ports side).edges ++ listedOn nodes side := fun _ => List.flatMap_cons
    simp only [hlisted, List.nodup_append, List.mem_append, List.reverse_append]
    constructor
    · rintro ⟨mid, ⟨hfits, hop, hdis, hmid⟩, hrest, hnd, hseen⟩
      refine ⟨fun i s hs => ?_, fun side => ⟨⟨hfits.nodup side, (hnd side).1, ?_⟩, ?_⟩, fun side => ?_⟩
      · rcases i with _ | i
        · obtain rfl : spec = s := by simpa using hs
          exact ⟨hfits, hop⟩
        · have := hrest i s hs
          rwa [Nat.add_right_comm] at this
      · rintro e he _ he' rfl
        refine (hnd side).2 e he' ?_
        rw [← hmid]
        exact List.mem_append_left _ (List.mem_reverse.2 he)
      · rintro e (he | he) hin
        · exact hdis side e he hin
        · refine (hnd side).2 e he ?_
          rw [← hmid]
          exact List.mem_append_right _ hin
      · rw [← hseen, ← hmid, List.append_assoc]
    · rintro ⟨hnodes, hnd, hseen⟩
      obtain ⟨hfits, hop⟩ := hnodes 0 spec rfl
      obtain ⟨mid, hmid⟩ : ∃ mid : Claims,
          ∀ side, (spec.ports side).edges.reverse ++ seen.on side = mid.on side :=
        ⟨⟨_, _⟩, Side.forall_iff.2 ⟨rfl, rfl⟩⟩
      refine ⟨mid, ⟨hfits, hop, fun side e he => (hnd side).2 e (.inl he), hmid⟩, fun i s hs => ?_,
        fun side => ⟨(hnd side).1.2.1, fun e he h => ?_⟩, fun side => ?_⟩
      · rw [Nat.add_assoc, Nat.add_comm 1]
        exact hnodes (i + 1) s hs
      · rw [← hmid, List.mem_append, List.mem_reverse] at h
        rcases h with h | h
        · exact (hnd side).1.2.2 e h e he rfl
        · exact (hnd side).2 e (.inr he) h
      · rw [← hmid, ← List.append_assoc]
        exact hseen side

theorem checkEdge_eq_ok_iff {nodes : List (NodeSpec α)} {seen : Claims} {e : EdgeId} {edge : Edge}
    {u : Unit} : checkEdge nodes seen e edge = .ok u ↔
      edge.source ≠ edge.target
        ∧ (∀ side, (endOn side edge).index < nodes.length ∧ e ∈ seen.on side)
        ∧ sizeAt nodes edge.source e = sizeAt nodes edge.target e := by
  simp only [checkEdge, bind_eq_ok_iff, checkInRange_eq_ok_iff, GraphCheck.guard_eq_ok_iff,
    GraphCheck.unless_eq_ok_iff, Decidable.not_not, Side.forall_iff]
  constructor
  · rintro ⟨_, hs, _, ht, hne, ho, hi, hsize⟩
    exact ⟨hne, ⟨⟨ht, hi⟩, hs, ho⟩, hsize⟩
  · rintro ⟨hne, ⟨⟨ht, hi⟩, hs, ho⟩, hsize⟩
    exact ⟨(), hs, (), ht, hne, ho, hi, hsize⟩

/-- The nodes, their ports and the registry describe one graph. -/
structure WellFormed (nodes : List (NodeSpec α)) (edges : EdgeRegistry) (root terminal : NodeId) :
    Prop where
  length_le : nodes.length ≤ UInt32.size
  outer_lt : ∀ side, (outer root terminal side).index < nodes.length
  closed : ∀ {side spec}, nodes[(outer root terminal side).index]? = some spec →
    (spec.ports side).edges = []
  nodeFits : ∀ {i spec}, nodes[i]? = some spec → NodeFits edges root terminal (.ofIndex i) spec
  claimed : ∀ {e edge}, edges.get? e = some edge →
    ∀ side, ∃ spec, nodes[(endOn side edge).index]? = some spec ∧ e ∈ (spec.ports side).edges
  source_ne : ∀ {e edge}, edges.get? e = some edge → edge.source ≠ edge.target
  sizes : ∀ {e edge}, edges.get? e = some edge →
    sizeAt nodes edge.source e = sizeAt nodes edge.target e

variable {nodes : List (NodeSpec α)}

theorem WellFormed.end_lt (h : WellFormed nodes edges root terminal) {e : EdgeId} {edge : Edge}
    (hget : edges.get? e = some edge) (side : Side) : (endOn side edge).index < nodes.length := by
  obtain ⟨spec, hs, -⟩ := h.claimed hget side
  exact (List.getElem?_eq_some_iff.1 hs).1

/-- Whatever the number of nodes, both outer sides are free of edges. -/
theorem check_eq_ok_iff : check nodes edges root terminal = .ok () ↔
    (∀ side, (outer root terminal side).index < nodes.length)
      ∧ (∀ side spec, nodes[(outer root terminal side).index]? = some spec →
          (spec.ports side).edges = [])
      ∧ ∃ seen, nodes.zipIdx.foldlM (fun seen x =>
          checkNode edges root terminal seen (.ofIndex x.2) x.1) ⟨[], []⟩ = .ok seen
        ∧ edges.entries.forM (fun x => checkEdge nodes seen x.1 x.2) = .ok () := by
  by_cases hlt : ∀ side, (outer root terminal side).index < nodes.length
  · have hr : root.index < nodes.length := hlt .input
    have ht : terminal.index < nodes.length := hlt .output
    simp only [check, bind_eq_ok_iff, checkInRange_eq_ok_iff, Side.forall_iff, outer,
      List.getElem?_eq_getElem hr, List.getElem?_eq_getElem ht, GraphCheck.guard_eq_ok_iff,
      Decidable.not_not, Option.some.injEq, forall_eq', NodeSpec.ports]
    simp only [hr, ht, true_and, exists_const, and_assoc]
  · refine iff_of_false (fun h => hlt ?_) fun h => hlt h.1
    simp only [check, bind_eq_ok_iff, checkInRange_eq_ok_iff] at h
    obtain ⟨_, hr, _, ht, -⟩ := h
    exact Side.forall_iff.2 ⟨hr, ht⟩

/-- An edge that is listed somewhere on a side is listed by the node at its end. -/
theorem exists_listing (hlen : nodes.length ≤ UInt32.size)
    (hfits : ∀ {i spec}, nodes[i]? = some spec → NodeFits edges root terminal (.ofIndex i) spec)
    {side : Side} {e : EdgeId} {edge : Edge} (he : e ∈ listedOn nodes side)
    (hget : edges.get? e = some edge) :
    ∃ spec, nodes[(endOn side edge).index]? = some spec ∧ e ∈ (spec.ports side).edges := by
  obtain ⟨spec, hspec, he⟩ := List.mem_flatMap.1 he
  obtain ⟨i, hi⟩ := List.mem_iff_getElem?.1 hspec
  obtain ⟨edge', hget', hend⟩ := (hfits hi).listed side e he
  obtain rfl : edge = edge' := by simpa [hget] using hget'
  have hilt : i < UInt32.size := (List.getElem?_eq_some_iff.1 hi).1.trans_le hlen
  exact ⟨spec, by rwa [hend, NodeId.index_ofIndex hilt], he⟩

theorem wellFormed_of_check (h : check nodes edges root terminal = .ok ())
    (hlen : nodes.length ≤ UInt32.size) : WellFormed nodes edges root terminal := by
  obtain ⟨hlt, hclosed, seen, hs, he⟩ := check_eq_ok_iff.1 h
  obtain ⟨hnodes, -, hseen⟩ := foldlM_checkNode_iff.1 hs
  have hfits : ∀ {i spec}, nodes[i]? = some spec →
      NodeFits edges root terminal (.ofIndex i) spec := fun {i spec} hi => by
    rw [← Nat.zero_add i]
    exact (hnodes i spec hi).1
  have hedge : ∀ {e edge}, edges.get? e = some edge → edge.source ≠ edge.target
      ∧ (∀ side, (endOn side edge).index < nodes.length ∧ e ∈ seen.on side)
      ∧ sizeAt nodes edge.source e = sizeAt nodes edge.target e := fun {e edge} hget =>
    checkEdge_eq_ok_iff.1 (forM_eq_ok_iff.1 he (e, edge) (EdgeRegistry.get?_eq_some_iff.1 hget))
  refine ⟨hlen, hlt, fun {side spec} => hclosed side spec, hfits, fun {e edge} hget side => ?_,
    fun hget => (hedge hget).1, fun hget => (hedge hget).2.2⟩
  have hin := ((hedge hget).2.1 side).2
  rw [← hseen, show Claims.on ⟨[], []⟩ side = [] by cases side <;> rfl, List.append_nil,
    List.mem_reverse] at hin
  exact exists_listing hlen hfits hin hget

end Wiring

end MatrixFree
