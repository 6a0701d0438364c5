import MatrixFree.Proofs.Exact
import MatrixFree.Proofs.Shapes
import MatrixFree.Node.Basic

/-!
# The window of an edge

The ports of a side lie end to end in its buffer, and the part on the port of an edge is the
window of the edge. What is written to one window is not seen in another one
(`PortList.window_place_of_ne`), and if every port has an edge, the buffer is nothing but its
windows (`PortList.ext_window`, `PortList.inner_eq_sum_window`).
-/

namespace MatrixFree

namespace Buffer

variable {α : Type}

theorem getElem?_cuts (x : Array α) : ∀ (base : ℕ) (ns : List ℕ) (k : ℕ), (cuts x base ns)[k]?
    = (ns[k]?).map fun n => x.extract (base + (ns.take k).sum) (base + (ns.take k).sum + n)
  | _, [], _ => rfl
  | base, n :: ns, 0 => by simp [cuts]
  | base, n :: ns, k + 1 => by
    rw [cuts, List.getElem?_cons_succ, getElem?_cuts x (base + n) ns k, List.getElem?_cons_succ,
      List.take_succ_cons, List.sum_cons, Nat.add_assoc]

end Buffer

theorem OffsetMap.get?_tile {e : EdgeId} {s : Shape} : ∀ {edges : List EdgeId} {shapes : List Shape}
    (base : ℕ) {k : ℕ}, edges.Nodup → edges[k]? = some e → shapes[k]? = some s →
    get? (tile base edges shapes) e = some (base + ((shapes.take k).map Shape.size).sum)
  | e' :: edges, s' :: shapes, base, 0, _, he, _ => by
    obtain rfl : e' = e := by simpa using he
    rw [tile, get?, List.lookup_cons_self]
    rfl
  | e' :: edges, s' :: shapes, base, k + 1, hn, he, hs => by
    rw [List.getElem?_cons_succ] at he hs
    obtain ⟨hn', hn⟩ := List.nodup_cons.1 hn
    have hne : e ≠ e' := fun h => hn' (h ▸ List.mem_of_getElem? he)
    have ih := get?_tile (base + s'.size) hn he hs
    rw [get?] at ih
    rw [tile, get?, List.lookup_cons, beq_eq_false_iff_ne.2 hne, List.take_succ_cons,
      List.map_cons, List.sum_cons, ← Nat.add_assoc]
    exact ih

namespace PortList

/-- The place of an edge in the list. -/
def slot (p : PortList) (e : EdgeId) : ℕ := p.edges.idxOf e

/-- Where the port in a place starts. -/
def start (p : PortList) (k : ℕ) : ℕ := ((p.shapes.take k).map Shape.size).sum

/-- The part of a buffer that is on the port of an edge. -/
def window {α : Type} (p : PortList) (e : EdgeId) (x : Array α) : Array α :=
  x.extract (p.start (p.slot e)) (p.start (p.slot e) + (p.edgeSize? e).getD 0)

/-- The edges are distinct, each has a port, and the ports fit in a buffer. -/
structure Tiled (p : PortList) : Prop where
  nodup : p.edges.Nodup
  length_le : p.edges.length ≤ p.shapes.length
  fits : Shape.Fits p.shapes

variable {p : PortList} (hp : p.Tiled) {α : Type} {e e' : EdgeId} {x y part : Array α}

theorem edgeSize?_eq_none (he : e ∉ p.edges) : p.edgeSize? e = none := by
  have hfind : p.edges.findIdx? (· = e) = none :=
    List.findIdx?_eq_none_iff.2 fun x hx => decide_eq_false fun hxe => he (hxe ▸ hx)
  rw [edgeSize?, hfind]
  rfl

theorem start_add_le {j k : ℕ} {s : Shape} (hs : p.shapes[k]? = some s) (hjk : k < j) :
    p.start k + s.size ≤ p.start j := by
  obtain ⟨i, rfl⟩ : ∃ i, j = k + 1 + i := ⟨j - (k + 1), by omega⟩
  obtain ⟨hk, rfl⟩ := List.getElem?_eq_some_iff.1 hs
  rw [start, start, List.take_add, List.take_succ_eq_append_getElem hk, List.map_append,
    List.map_append, List.sum_append, List.sum_append, List.map_singleton, List.sum_singleton]
  omega

theorem start_add_le_sum {k : ℕ} {s : Shape} (hs : p.shapes[k]? = some s) :
    p.start k + s.size ≤ (p.shapes.map Shape.size).sum := by
  have h := start_add_le hs (List.getElem?_eq_some_iff.1 hs).1
  rwa [start, start, List.take_length] at h

section

variable (he : e ∈ p.edges)
include hp he

/-- An edge has a port, which starts at its offset. -/
theorem exists_port : ∃ s, p.shapes[p.slot e]? = some s ∧ p.edgeSize? e = some s.size
    ∧ OffsetMap.get? (.tile 0 p.edges p.shapes) e = some (p.start (p.slot e)) := by
  have hlt : p.slot e < p.edges.length := List.idxOf_lt_length_of_mem he
  have hget : p.edges[p.slot e]? = some e := List.getElem?_idxOf he
  have hlt : p.slot e < p.shapes.length := hlt.trans_le hp.length_le
  have hs : p.shapes[p.slot e]? = some p.shapes[p.slot e] := List.getElem?_eq_getElem hlt
  have hfind : p.edges.findIdx? (· = e) = some (p.slot e) :=
    List.findIdx?_eq_some_of_exists ⟨e, he, by simp⟩
  refine ⟨_, hs, ?_, ?_⟩
  · rw [edgeSize?, hfind, Option.bind_some, hs]
    rfl
  · rw [OffsetMap.get?_tile 0 hp.nodup hget hs, Nat.zero_add]
    rfl

theorem size_window (hx : x.size = Shape.total p.shapes) :
    some (p.window e x).size = p.edgeSize? e := by
  obtain ⟨s, hs, hsize, -⟩ := exists_port hp he
  have := start_add_le_sum hs
  rw [hp.fits.total_eq_sum] at hx
  rw [window, hsize, Array.size_extract, Option.getD_some]
  exact congrArg some (by omega)

/-- A window holds what was written to it. -/
theorem window_place (hx : x.size = Shape.total p.shapes) (hpart : some part.size = p.edgeSize? e) :
    p.window e (Table.place x (p.start (p.slot e)) part) = part := by
  obtain ⟨s, hs, hsize, -⟩ := exists_port hp he
  have := start_add_le_sum hs
  rw [hsize, Option.some.injEq] at hpart
  rw [hp.fits.total_eq_sum] at hx
  rw [window, hsize, Option.getD_some, ← hpart]
  exact Table.extract_place (by omega)

theorem apart_of_ne (he' : e' ∈ p.edges) (hne : e' ≠ e) :
    p.start (p.slot e) + (p.edgeSize? e).getD 0 ≤ p.start (p.slot e')
      ∨ p.start (p.slot e') + (p.edgeSize? e').getD 0 ≤ p.start (p.slot e) := by
  obtain ⟨s, hs, hsize, -⟩ := exists_port hp he
  obtain ⟨s', hs', hsize', -⟩ := exists_port hp he'
  rw [hsize, hsize', Option.getD_some, Option.getD_some]
  rcases Nat.lt_trichotomy (p.slot e) (p.slot e') with hlt | heq | hlt
  · exact .inl (start_add_le hs hlt)
  · exact absurd ((List.idxOf_inj he').1 heq.symm) hne
  · exact .inr (start_add_le hs' hlt)

theorem window_place_of_ne (he' : e' ∈ p.edges) (hne : e' ≠ e)
    (hx : x.size = Shape.total p.shapes) (hpart : some part.size = p.edgeSize? e) :
    p.window e' (Table.place x (p.start (p.slot e)) part) = p.window e' x := by
  obtain ⟨s, hs, hsize, -⟩ := exists_port hp he
  have hsum := start_add_le_sum hs
  have hapart := apart_of_ne hp he he' hne
  rw [hsize, Option.some.injEq] at hpart
  rw [hsize, Option.getD_some] at hapart
  rw [hp.fits.total_eq_sum] at hx
  refine Table.extract_place_of_disjoint (by omega) ?_
  omega

end

section

variable (hlen : p.edges.length = p.shapes.length) (hx : x.size = Shape.total p.shapes)
include hp hlen

theorem map_window (x : Array α) :
    (p.edges.map fun e => p.window e x) = Buffer.cuts x 0 (p.shapes.map Shape.size) := by
  refine List.ext_getElem? fun k => ?_
  rw [Buffer.getElem?_cuts, List.getElem?_map, List.getElem?_map, Option.map_map]
  rcases hk : p.edges[k]? with _ | e
  · have : p.edges.length ≤ k := List.getElem?_eq_none_iff.1 hk
    rw [List.getElem?_eq_none (by omega)]
    rfl
  · obtain ⟨hklt, hke⟩ := List.getElem?_eq_some_iff.1 hk
    have hslot : p.slot e = k := by
      rw [slot, ← hke]
      exact hp.nodup.idxOf_getElem k hklt
    obtain ⟨s, hs, hsize, -⟩ := exists_port hp (List.mem_of_getElem? hk)
    rw [hslot] at hs
    rw [hs]
    simp only [Option.map_some, Function.comp_apply, window, hslot, hsize, Option.getD_some, start,
      List.map_take, Nat.zero_add]

include hx

theorem join_window : Buffer.join (p.edges.map fun e => p.window e x) = x := by
  rw [hp.fits.total_eq_sum] at hx
  rw [map_window hp hlen, Buffer.join_cuts x 0 _ (by omega), Nat.zero_add, ← hx,
    Array.extract_size]

/-- If every port has an edge, a buffer is told by its windows. -/
theorem ext_window (hy : y.size = Shape.total p.shapes)
    (h : ∀ e ∈ p.edges, p.window e x = p.window e y) : x = y := by
  rw [← join_window hp hlen hx, ← join_window hp hlen hy, List.map_congr_left h]

end

theorem inner_eq_sum_window {R : Type} [CommRing R] (hp : p.Tiled)
    (hlen : p.edges.length = p.shapes.length) {x y : Array R} (hx : x.size = Shape.total p.shapes)
    (hy : y.size = Shape.total p.shapes) : Buffer.inner x y
      = (p.edges.map fun e => Buffer.inner (p.window e x) (p.window e y)).sum := by
  have hxs := hx.trans hp.fits.total_eq_sum
  have hys := hy.trans hp.fits.total_eq_sum
  have hz : List.zipWith Buffer.inner (Buffer.cuts x 0 (p.shapes.map Shape.size))
      (Buffer.cuts y 0 (p.shapes.map Shape.size))
      = p.edges.map fun e => Buffer.inner (p.window e x) (p.window e y) := by
    rw [← map_window hp hlen x, ← map_window hp hlen y, List.zipWith_map_left,
      List.zipWith_map_right, List.zipWith_self]
  rw [← hz, Buffer.inner_cuts 0 _ (by omega) (by omega), Nat.zero_add, ← hxs, Array.extract_size,
    hxs, ← hys, Array.extract_size]

end PortList

end MatrixFree
