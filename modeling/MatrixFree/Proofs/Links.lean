import Mathlib.Data.Finset.Card
import Mathlib.Data.List.Nodup
import MatrixFree.Proofs.Kernels
import MatrixFree.Proofs.Shapes
import MatrixFree.Operator.Apply

/-!
# Links between elements

A family of links is `Complete` if it takes every element of the output from another element of
the input and uses every element of the input. The links of a stack of blocks and of a transpose
are (`Operator.complete_stackLinks`, `Operator.complete_transposeLinks`), so copying along them, in
either direction, leaves nothing of what the target held. Over exact scalars, copying along pairs
into zeros gives one product per pair (`Table.inner_transfer`).
-/

namespace MatrixFree

theorem mem_of_nodup_of_length {l : List ℕ} {n : ℕ} (hl : l.Nodup) (hlt : ∀ a ∈ l, a < n)
    (hlen : l.length = n) {j : ℕ} (hj : j < n) : j ∈ l := by
  have hsub : l.toFinset ⊆ Finset.range n := fun a ha =>
    Finset.mem_range.2 (hlt a (List.mem_toFinset.1 ha))
  have heq := Finset.eq_of_subset_of_card_le hsub
    (by rw [Finset.card_range, List.toFinset_card_of_nodup hl, hlen])
  exact List.mem_toFinset.1 (heq ▸ Finset.mem_range.2 hj)

/-- A place in a matrix is told by its address. -/
theorem address_inj {n i j i' j' : ℕ} (hi : i < n) (hi' : i' < n) (h : j * n + i = j' * n + i') :
    j = j' ∧ i = i' := by
  have hn : 0 < n := by omega
  have hdiv := congrArg (· / n) h
  have hmod := congrArg (· % n) h
  simp only [Nat.mul_comm _ n, Nat.mul_add_div hn, Nat.div_eq_of_lt hi, Nat.div_eq_of_lt hi',
    Nat.mul_add_mod, Nat.mod_eq_of_lt hi, Nat.mod_eq_of_lt hi', Nat.add_zero] at hdiv hmod
  exact ⟨hdiv, hmod⟩

theorem address_lt {m n i j : ℕ} (hi : i < n) (hj : j < m) : j * n + i < m * n := by
  have := Nat.mul_le_mul_right n (show j + 1 ≤ m from hj)
  rw [Nat.add_one_mul] at this
  omega

namespace Operator

theorem mem_cells {rows cols i j : ℕ} : (i, j) ∈ cells rows cols ↔ i < rows ∧ j < cols := by
  unfold cells
  split
  · simp_all
  · simp [and_comm]

theorem nodup_cells (rows cols : ℕ) : (cells rows cols).Nodup := by
  unfold cells
  split
  · exact List.nodup_nil
  · refine List.nodup_flatMap.2 ⟨fun j _ => ?_, ?_⟩
    · exact List.nodup_range.map fun i i' h => (Prod.mk.inj h).1
    · refine List.nodup_range.imp fun {j j'} hne p hp hp' => ?_
      obtain ⟨i, -, rfl⟩ := List.mem_map.1 hp
      obtain ⟨i', -, h⟩ := List.mem_map.1 hp'
      exact hne (Prod.mk.inj h).2.symm

theorem length_cells (rows cols : ℕ) : (cells rows cols).length = rows * cols := by
  unfold cells
  split
  · simp_all
  · simp [List.length_flatMap, Nat.mul_comm]

/-- The link the other way round. -/
def Link.swap (l : Link) : Link := ⟨l.input, l.output⟩

theorem map_swap_map_swap (links : List Link) : (links.map Link.swap).map Link.swap = links := by
  rw [List.map_map]
  exact List.map_id links

theorem scatter_eq_gather {α : Type} (links : List Link) (output input : Array α) :
    scatter links output input = gather (links.map Link.swap) output input := by
  rw [scatter, gather, List.map_map]
  rfl

/-- The links name each element of an output and of an input of the given sizes once. -/
structure Complete (links : List Link) (outputs inputs : ℕ) : Prop where
  outputs_nodup : (links.map Link.output).Nodup
  inputs_nodup : (links.map Link.input).Nodup
  output_lt : ∀ l ∈ links, l.output < outputs
  input_lt : ∀ l ∈ links, l.input < inputs
  length_outputs : links.length = outputs
  length_inputs : links.length = inputs

namespace Complete

variable {links : List Link} {outputs inputs j : ℕ} (hc : Complete links outputs inputs)
include hc

theorem mem_outputs (hj : j < outputs) : j ∈ links.map Link.output := by
  refine mem_of_nodup_of_length hc.outputs_nodup (fun a ha => ?_) ?_ hj
  · obtain ⟨l, hl, rfl⟩ := List.mem_map.1 ha
    exact hc.output_lt l hl
  · rw [List.length_map, hc.length_outputs]

theorem swap : Complete (links.map Link.swap) inputs outputs where
  outputs_nodup := by
    rw [List.map_map]
    exact hc.inputs_nodup
  inputs_nodup := by
    rw [List.map_map]
    exact hc.outputs_nodup
  output_lt := List.forall_mem_map.2 hc.input_lt
  input_lt := List.forall_mem_map.2 hc.output_lt
  length_outputs := by rw [List.length_map, hc.length_inputs]
  length_inputs := by rw [List.length_map, hc.length_outputs]

end Complete

theorem complete_transposeLinks (rows cols : ℕ) :
    Complete (transposeLinks rows cols) (rows * cols) (rows * cols) where
  outputs_nodup := by
    rw [transposeLinks, List.map_map]
    refine (nodup_cells rows cols).map_on fun p hp q hq h => ?_
    have hp := mem_cells.1 hp
    have hq := mem_cells.1 hq
    simp only [Function.comp_apply] at h
    have h : p.1 * cols + p.2 = q.1 * cols + q.2 := by omega
    obtain ⟨h1, h2⟩ := address_inj hp.2 hq.2 h
    exact Prod.ext h1 h2
  inputs_nodup := by
    rw [transposeLinks, List.map_map]
    refine (nodup_cells rows cols).map_on fun p hp q hq h => ?_
    have hp := mem_cells.1 hp
    have hq := mem_cells.1 hq
    simp only [Function.comp_apply] at h
    have h : p.2 * rows + p.1 = q.2 * rows + q.1 := by omega
    obtain ⟨h1, h2⟩ := address_inj hp.1 hq.1 h
    exact Prod.ext h2 h1
  output_lt l hl := by
    obtain ⟨p, hp, rfl⟩ := List.mem_map.1 hl
    have hp := mem_cells.1 hp
    simpa [Nat.add_comm] using address_lt hp.2 hp.1
  input_lt l hl := by
    obtain ⟨p, hp, rfl⟩ := List.mem_map.1 hl
    have hp := mem_cells.1 hp
    simpa [Nat.add_comm, Nat.mul_comm] using address_lt hp.1 hp.2
  length_outputs := by rw [transposeLinks, List.length_map, length_cells]
  length_inputs := by rw [transposeLinks, List.length_map, length_cells]

section Stack

variable {total cols : ℕ}

/-- Where the links of a stack of blocks lie: from row `above` on in the output, and from `base` on
in the input. -/
theorem mem_stackLinks : ∀ {is : List Shape} {above base : ℕ},
    (∀ s ∈ is, s.size = s.rows * s.cols) → (∀ s ∈ is, s.cols = cols) →
    ∀ l ∈ stackLinks total above base is,
      (∃ i j, i < (is.map Shape.rows).sum ∧ j < cols ∧ l.output = j * total + (above + i))
        ∧ base ≤ l.input ∧ l.input < base + (is.map Shape.size).sum
  | [], _, _, _, _ => nofun
  | s :: is, above, base, hsize, hcols => by
    intro l hl
    rw [List.map_cons, List.sum_cons, List.map_cons, List.sum_cons]
    have hs := hsize s List.mem_cons_self
    have hc := hcols s List.mem_cons_self
    rcases List.mem_append.1 hl with hl | hl
    · obtain ⟨⟨i, j⟩, hp, rfl⟩ := List.mem_map.1 hl
      obtain ⟨hi, hj⟩ := mem_cells.1 hp
      have := address_lt hi hj
      rw [Nat.mul_comm s.cols, ← hs] at this
      dsimp only
      exact ⟨⟨i, j, by omega, hc ▸ hj, by omega⟩, by omega, by omega⟩
    · obtain ⟨⟨i, j, hi, hj, ho⟩, h1, h2⟩ :=
        mem_stackLinks (fun t ht => hsize t (List.mem_cons_of_mem _ ht))
          (fun t ht => hcols t (List.mem_cons_of_mem _ ht)) l hl
      exact ⟨⟨s.rows + i, j, by omega, hj, by omega⟩, by omega, by omega⟩

theorem nodup_stackLinks_output : ∀ {is : List Shape} {above base : ℕ},
    (∀ s ∈ is, s.size = s.rows * s.cols) → (∀ s ∈ is, s.cols = cols) →
    above + (is.map Shape.rows).sum ≤ total →
    ((stackLinks total above base is).map Link.output).Nodup
  | [], _, _, _, _, _ => List.nodup_nil
  | s :: is, above, base, hsize, hcols, h => by
    rw [List.map_cons, List.sum_cons] at h
    rw [stackLinks, List.map_append]
    refine List.Nodup.append ?_ (nodup_stackLinks_output
      (fun t ht => hsize t (List.mem_cons_of_mem _ ht))
      (fun t ht => hcols t (List.mem_cons_of_mem _ ht)) (by omega)) ?_
    · rw [List.map_map]
      refine (nodup_cells _ _).map_on fun p hp q hq hpq => ?_
      have hp := mem_cells.1 hp
      have hq := mem_cells.1 hq
      simp only [Function.comp_apply] at hpq
      have hpq : p.2 * total + (above + p.1) = q.2 * total + (above + q.1) := by omega
      obtain ⟨h1, h2⟩ := address_inj (by omega) (by omega) hpq
      exact Prod.ext (by omega) h1
    -- the rows of the first block lie above those of all others
    · intro o ho ho'
      obtain ⟨l, hl, rfl⟩ := List.mem_map.1 ho
      obtain ⟨⟨i, j⟩, hp, rfl⟩ := List.mem_map.1 hl
      obtain ⟨hi, -⟩ := mem_cells.1 hp
      obtain ⟨l', hl', hll⟩ := List.mem_map.1 ho'
      obtain ⟨⟨i', j', hi', -, ho'⟩, -⟩ := mem_stackLinks
        (fun t ht => hsize t (List.mem_cons_of_mem _ ht))
        (fun t ht => hcols t (List.mem_cons_of_mem _ ht)) l' hl'
      rw [ho'] at hll
      simp only at hll
      have hll : j' * total + (above + s.rows + i') = j * total + (above + i) := by omega
      obtain ⟨-, h2⟩ := address_inj (by omega) (by omega) hll
      omega

theorem nodup_stackLinks_input : ∀ {is : List Shape} {above base : ℕ},
    (∀ s ∈ is, s.size = s.rows * s.cols) → (∀ s ∈ is, s.cols = cols) →
    ((stackLinks total above base is).map Link.input).Nodup
  | [], _, _, _, _ => List.nodup_nil
  | s :: is, above, base, hsize, hcols => by
    rw [stackLinks, List.map_append]
    refine List.Nodup.append ?_ (nodup_stackLinks_input
      (fun t ht => hsize t (List.mem_cons_of_mem _ ht))
      (fun t ht => hcols t (List.mem_cons_of_mem _ ht))) ?_
    · rw [List.map_map]
      refine (nodup_cells _ _).map_on fun p hp q hq hpq => ?_
      have hp := mem_cells.1 hp
      have hq := mem_cells.1 hq
      simp only [Function.comp_apply] at hpq
      have hpq : p.2 * s.rows + p.1 = q.2 * s.rows + q.1 := by omega
      obtain ⟨h1, h2⟩ := address_inj hp.1 hq.1 hpq
      exact Prod.ext h2 h1
    · intro o ho ho'
      obtain ⟨l, hl, rfl⟩ := List.mem_map.1 ho
      obtain ⟨⟨i, j⟩, hp, rfl⟩ := List.mem_map.1 hl
      obtain ⟨hi, hj⟩ := mem_cells.1 hp
      obtain ⟨l', hl', hll⟩ := List.mem_map.1 ho'
      obtain ⟨-, h1, -⟩ := mem_stackLinks
        (fun t ht => hsize t (List.mem_cons_of_mem _ ht))
        (fun t ht => hcols t (List.mem_cons_of_mem _ ht)) l' hl'
      have := address_lt hi hj
      rw [Nat.mul_comm s.cols, ← hsize s List.mem_cons_self] at this
      simp only at hll
      omega

theorem length_stackLinks : ∀ {is : List Shape} {above base : ℕ},
    (∀ s ∈ is, s.size = s.rows * s.cols) →
    (stackLinks total above base is).length = (is.map Shape.size).sum
  | [], _, _, _ => rfl
  | s :: is, above, base, hsize => by
    rw [stackLinks, List.length_append, List.length_map, length_cells, List.map_cons,
      List.sum_cons, hsize s List.mem_cons_self,
      length_stackLinks fun t ht => hsize t (List.mem_cons_of_mem _ ht)]

/-- Blocks with the columns of the output, whose rows fill it, fill it. -/
theorem complete_stackLinks {is : List Shape} (hsize : ∀ s ∈ is, s.size = s.rows * s.cols)
    (hcols : ∀ s ∈ is, s.cols = cols) (hrows : (is.map Shape.rows).sum = total)
    (hfill : (is.map Shape.size).sum = total * cols) :
    Complete (stackLinks total 0 0 is) (total * cols) (total * cols) where
  outputs_nodup := nodup_stackLinks_output hsize hcols (by omega)
  inputs_nodup := nodup_stackLinks_input hsize hcols
  output_lt l hl := by
    obtain ⟨⟨i, j, hi, hj, ho⟩, -⟩ := mem_stackLinks hsize hcols l hl
    rw [ho, Nat.mul_comm total]
    exact address_lt (by omega) hj
  input_lt l hl := by
    obtain ⟨-, -, h⟩ := mem_stackLinks hsize hcols l hl
    omega
  length_outputs := (length_stackLinks hsize).trans hfill
  length_inputs := (length_stackLinks hsize).trans hfill

end Stack

theorem nodup_diagonal (n : ℕ) : ((diagonalLinks n).map Prod.fst).Nodup := by
  rw [diagonalLinks, List.map_map]
  refine List.nodup_range.map_on fun i hi j hj h => ?_
  simp only [Function.comp_apply] at h
  have hi := List.mem_range.1 hi
  have hj := List.mem_range.1 hj
  exact (address_inj hi hj (by omega : i * n + i = j * n + j)).2

theorem diagonal_lt {n : ℕ} {p : ℕ × ℕ} (hp : p ∈ diagonalLinks n) : p.1 < n * n ∧ p.2 < n := by
  obtain ⟨i, hi, rfl⟩ := List.mem_map.1 hp
  have hi := List.mem_range.1 hi
  have := address_lt hi hi
  exact ⟨by simp only; omega, hi⟩

theorem map_snd_diagonal (n : ℕ) : (diagonalLinks n).map Prod.snd = List.range n := by
  rw [diagonalLinks, List.map_map]
  exact List.map_id _

end Operator

section Exact

variable {R : Type} [ExactScalar R]

/-- Elements that are copied to distinct places of a zero buffer: one product per pair. -/
theorem Table.inner_transfer {src z : Array R} : ∀ {pairs : List (ℕ × ℕ)} {d r : Array R},
    (pairs.map Prod.fst).Nodup → (∀ p ∈ pairs, d.getD p.1 0 = 0) → z.size = d.size →
    Table.transfer src pairs d = .ok r →
    Buffer.inner r z
      = Buffer.inner d z + (pairs.map fun p => src.getD p.2 0 * z.getD p.1 0).sum
  | [], d, r, _, _, _, h => by
    simp only [Table.transfer, List.foldlM_nil, pure, Except.pure, Except.ok.injEq] at h
    rw [h, List.map_nil, List.sum_nil, add_zero]
  | p :: pairs, d, r, hn, hd, hz, h => by
    obtain ⟨a, ha, hlt, h⟩ := Table.transfer_cons h
    rw [List.map_cons, List.nodup_cons] at hn
    have hrest : ∀ q ∈ pairs, (d.setIfInBounds p.1 a).getD q.1 0 = 0 := by
      intro q hq
      have hne : p.1 ≠ q.1 := fun h => hn.1 (h ▸ List.mem_map_of_mem hq)
      rw [Array.getD_eq_getD_getElem?, Array.getElem?_setIfInBounds_ne hne,
        ← Array.getD_eq_getD_getElem?, hd q (List.mem_cons_of_mem _ hq)]
    have hg : src.getD p.2 0 = a := by rw [Array.getD_eq_getD_getElem?, ha, Option.getD_some]
    rw [Table.inner_transfer hn.2 hrest (by simpa using hz) h, Buffer.inner_set hz hlt,
      hd p List.mem_cons_self, sub_zero, List.map_cons, List.sum_cons, hg, add_assoc]

end Exact

end MatrixFree
