import MatrixFree.Proofs.Tables

/-!
# Taking buffers apart and putting them together

The slices that `Buffer.segments` gives are `Buffer.cuts`, and laid end to end they are the window
they were cut from (`Buffer.join_cuts`). A map over chunks of a buffer that they fill exactly is
the chunks' images end to end (`Buffer.overChunks_eq`), whatever the buffer held before as long as
the images do not look at it.
-/

namespace MatrixFree.Buffer

variable {α : Type}

theorem paired_of_eq {β : Type} {b c : Array α} (h : b.size = c.size) (value : β) :
    paired b c value = .ok value := if_pos h

theorem paired_eq_ok_iff {β : Type} {b c : Array α} {value r : β} :
    paired b c value = .ok r ↔ b.size = c.size ∧ value = r := by
  unfold paired
  split <;> simp_all

theorem copy_of_eq {dest src : Array α} (h : dest.size = src.size) : copy dest src = .ok src :=
  if_pos h

theorem foldl_append (a : Array α) (parts : List (Array α)) :
    parts.foldl (· ++ ·) a = a ++ join parts := by
  induction parts generalizing a with
  | nil => simp [join]
  | cons p ps ih =>
    have hp : join (p :: ps) = #[] ++ p ++ join ps := ih (#[] ++ p)
    rw [List.foldl_cons, ih, hp, Array.empty_append, Array.append_assoc]

@[simp] theorem join_nil : join ([] : List (Array α)) = #[] := rfl

@[simp] theorem join_cons (p : Array α) (ps : List (Array α)) : join (p :: ps) = p ++ join ps := by
  rw [join, List.foldl_cons, foldl_append, Array.empty_append]

@[simp] theorem join_append (ps qs : List (Array α)) : join (ps ++ qs) = join ps ++ join qs := by
  induction ps with
  | nil => simp
  | cons p ps ih => rw [List.cons_append, join_cons, join_cons, ih, Array.append_assoc]

theorem size_join (ps : List (Array α)) : (join ps).size = (ps.map Array.size).sum := by
  induction ps with
  | nil => rfl
  | cons p ps ih => rw [join_cons, Array.size_append, ih, List.map_cons, List.sum_cons]

theorem size_join_of_forall {m : Nat} {ps : List (Array α)} (h : ∀ p ∈ ps, p.size = m) :
    (join ps).size = ps.length * m := by
  induction ps with
  | nil => simp
  | cons p ps ih =>
    rw [join_cons, Array.size_append, h p List.mem_cons_self,
      ih fun q hq => h q (List.mem_cons_of_mem _ hq), List.length_cons, Nat.add_one_mul]
    omega

/-- The slices of the given lengths that lie end to end from `start` on. -/
def cuts (b : Array α) : (start : Nat) → (lengths : List Nat) → List (Array α)
  | _, [] => []
  | start, n :: ns => b.extract start (start + n) :: cuts b (start + n) ns

theorem segments_eq_ok {b : Array α} (hb : b.size < UInt64.size) :
    ∀ (start : Nat) (ns : List Nat), start + ns.sum ≤ b.size →
      segments b start ns = .ok (cuts b start ns)
  | _, [], _ => rfl
  | start, n :: ns, h => by
    rw [List.sum_cons] at h
    unfold segments
    rw [Table.slice_of_le hb (by omega), ok_bind, segments_eq_ok hb (start + n) ns (by omega)]
    rfl

theorem length_cuts (b : Array α) : ∀ (start : Nat) (ns : List Nat),
    (cuts b start ns).length = ns.length
  | _, [] => rfl
  | start, n :: ns => by rw [cuts, List.length_cons, length_cuts b (start + n) ns, List.length_cons]

theorem map_size_cuts {b : Array α} : ∀ (start : Nat) (ns : List Nat), start + ns.sum ≤ b.size →
    (cuts b start ns).map Array.size = ns
  | _, [], _ => rfl
  | start, n :: ns, h => by
    rw [List.sum_cons] at h
    rw [cuts, List.map_cons, map_size_cuts (start + n) ns (by omega), Array.size_extract]
    congr 1
    omega

theorem size_of_mem_cuts {b p : Array α} {start m : Nat} {ns : List Nat}
    (h : start + ns.sum ≤ b.size) (hn : ∀ n ∈ ns, n = m) (hp : p ∈ cuts b start ns) :
    p.size = m := by
  refine hn p.size ?_
  rw [← map_size_cuts start ns h]
  exact List.mem_map_of_mem hp

/-- Cutting a window and joining the slices gives the window back. -/
theorem join_cuts (b : Array α) : ∀ (start : Nat) (ns : List Nat), start + ns.sum ≤ b.size →
    join (cuts b start ns) = b.extract start (start + ns.sum)
  | start, [], _ => by simp [cuts]
  | start, n :: ns, h => by
    rw [List.sum_cons] at h ⊢
    rw [cuts, join_cons, join_cuts b (start + n) ns (by omega), Array.extract_append_extract,
      Nat.min_eq_left (by omega), Nat.max_eq_right (by omega), Nat.add_assoc]

/-- Copying one buffer over all slices of another one. -/
theorem mapSegments_copy_eq_ok {b src : Array α} {ns : List Nat} (hb : b.size < UInt64.size)
    (hsum : b.size = ns.sum) (hn : ∀ n ∈ ns, n = src.size) :
    mapSegments (fun part => copy part src) ns b = .ok (join (ns.map fun _ => src)) := by
  unfold mapSegments
  rw [segments_eq_ok hb 0 ns (by omega), ok_bind,
    mapM_eq_ok (g := fun _ => src) fun p hp =>
      copy_of_eq (size_of_mem_cuts (by omega) hn hp), ok_bind]
  have hd : b.drop (Size.sum ns) = #[] := by simp [Size.sum_eq_sum, ← hsum]
  have hm : (cuts b 0 ns).map (fun _ => src) = ns.map fun _ => src := by
    rw [List.map_const', List.map_const', length_cuts]
  rw [hd, hm, Array.append_empty]
  rfl

section Chunks

variable {n m k : Nat} {f : Array α → Array α → Checked (Array α)} {g : Nat → Array α}
  {a b : Array α}

/-- The images of all chunks, when the chunks fill both buffers. -/
theorem overChunks_eq (hn : n ≠ 0) (hm : m ≠ 0) (ha : a.size = k * n) (hb : b.size = k * m)
    (hg : ∀ i < k, f (Table.chunk a n i) (Table.chunk b m i) = .ok (g i)) :
    overChunks n m f a b = .ok (join ((List.range k).map g)) := by
  have hk : min (a.size / n) (b.size / m) = k := by
    rw [ha, hb, Nat.mul_div_cancel _ (Nat.pos_of_ne_zero hn),
      Nat.mul_div_cancel _ (Nat.pos_of_ne_zero hm), Nat.min_self]
  have hd : b.drop (k * m) = #[] := by simp [← hb]
  unfold overChunks mapChunks
  rw [if_neg (by simp [hn, hm]), hk,
    mapM_eq_ok (g := g) fun i hi => hg i (List.mem_range.1 hi), ok_bind, hd, Array.append_empty]
  rfl

theorem size_join_range (hg : ∀ i < k, (g i).size = m) :
    (join ((List.range k).map g)).size = k * m := by
  rw [size_join_of_forall (m := m), List.length_map, List.length_range]
  simpa using hg

/-- The image of a chunk lies where the chunk does. -/
theorem chunk_join_range (hg : ∀ i < k, (g i).size = m) {i : Nat} (hi : i < k) :
    Table.chunk (join ((List.range k).map g)) m i = g i := by
  have hl : (join ((List.range i).map g)).size = i * m :=
    size_join_range fun j hj => hg j (by omega)
  obtain ⟨r, rfl⟩ : ∃ r, k = i + 1 + r := ⟨k - (i + 1), by omega⟩
  rw [List.range_add, List.map_append, join_append, List.range_succ, List.map_append, join_append,
    List.map_singleton, join_cons, join_nil, Array.append_empty, Table.chunk]
  have hrest : ∀ q : Array α, q.extract (i * m - i * m - m) (i * m + m - i * m - m) = #[] :=
    fun q => Array.extract_eq_empty_of_le (by omega)
  rw [Array.append_assoc, Array.extract_append, Array.extract_append, hl, hg i hi,
    Array.extract_eq_empty_of_le (by omega), hrest]
  simp [hg i hi]

end Chunks

end MatrixFree.Buffer
