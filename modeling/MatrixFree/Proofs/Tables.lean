import Mathlib.Algebra.BigOperators.Ring.Finset
import Mathlib.Algebra.Field.Rat
import Mathlib.Algebra.Order.Ring.Nat
import Mathlib.Tactic.Common
import MatrixFree.Buffer

/-!
# Reading and writing inside a table

Each access to a table succeeds exactly when its places are inside, and then does what the plain
array operation does (`Table.read_eq_ok_iff`, `Table.write_eq_ok_iff`, `Table.slice_eq_ok_iff`).
What a window write leaves at each place is `Table.getElem?_place`. Two copies of single elements
into buffers of one length agree wherever something was copied to (`Table.transfer_agree`), so a
copy that reaches every place hides what its target held before.
-/

namespace MatrixFree

theorem Size.sum_eq_sum (ns : List ℕ) : Size.sum ns = ns.sum := rfl

section Outcome

variable {ε β γ : Type}

theorem bind_eq_ok_iff {x : Except ε β} {f : β → Except ε γ} {c : γ} :
    (x >>= f) = .ok c ↔ ∃ b, x = .ok b ∧ f b = .ok c := by
  cases x <;> simp [bind, Except.bind]

theorem bind_eq_error_iff {x : Except ε β} {f : β → Except ε γ} {e : ε} :
    (x >>= f) = .error e ↔ x = .error e ∨ ∃ b, x = .ok b ∧ f b = .error e := by
  cases x <;> simp [bind, Except.bind]

theorem ok_bind (b : β) (f : β → Except ε γ) : ((Except.ok b : Except ε β) >>= f) = f b := rfl

/-- A guard of a sequence of steps. -/
theorem guard_eq_ok_iff {c : Prop} [Decidable c] {s : ε} {k : β → Except ε γ} {x : Except ε γ}
    {b : γ} : (if c then Except.error s >>= k else x) = .ok b ↔ ¬ c ∧ x = .ok b := by
  by_cases h : c
  · rw [if_pos h]
    exact ⟨fun hx => (nomatch hx), fun hx => absurd h hx.1⟩
  · rw [if_neg h]
    exact ⟨fun hx => ⟨h, hx⟩, fun hx => hx.2⟩

theorem require_eq_ok_iff {c : Prop} [Decidable c] {s : ε} {u : Unit} :
    (if c then Except.ok () else Except.error s) = .ok u ↔ c := by
  by_cases h : c <;> simp [h]

theorem mapM_eq_ok {f : β → Except ε γ} {g : β → γ} :
    ∀ {l : List β}, (∀ x ∈ l, f x = .ok (g x)) → l.mapM f = .ok (l.map g)
  | [], _ => rfl
  | x :: l, h => by
    rw [List.mapM_cons, h x List.mem_cons_self, ok_bind,
      mapM_eq_ok fun y hy => h y (List.mem_cons_of_mem _ hy)]
    rfl

theorem forM_eq_ok_iff {f : β → Except ε Unit} {u : Unit} :
    ∀ {l : List β}, l.forM f = .ok u ↔ ∀ x ∈ l, f x = .ok ()
  | [] => by simp [List.forM_eq_forM, pure, Except.pure]
  | x :: l => by
    rw [List.forM_eq_forM, List.forM_cons, bind_eq_ok_iff, List.forall_mem_cons]
    exact ⟨fun ⟨_, hx, h⟩ => ⟨hx, forM_eq_ok_iff.1 h⟩, fun ⟨hx, h⟩ => ⟨(), hx, forM_eq_ok_iff.2 h⟩⟩

end Outcome

variable {α : Type}

namespace Table

theorem position_eq_ok_iff {i j : Nat} : position i = .ok j ↔ i < UInt64.size ∧ i = j := by
  unfold position
  by_cases h : i < UInt64.size
  · rw [if_pos h]
    simp [h]
  · rw [if_neg h]
    simp [h]

theorem read_eq_ok_iff {t : Array α} {i : Nat} {a : α} :
    read t i = .ok a ↔ i < UInt64.size ∧ t[i]? = some a := by
  unfold read
  simp only [bind_eq_ok_iff, position_eq_ok_iff]
  constructor
  · rintro ⟨j, ⟨hi, rfl⟩, h⟩
    split at h <;> simp_all
  · rintro ⟨hi, ha⟩
    exact ⟨i, ⟨hi, rfl⟩, by rw [ha]⟩

theorem pick_eq_ok_iff {l : List α} {i : Nat} {a : α} :
    pick l i = .ok a ↔ i < UInt64.size ∧ l[i]? = some a := by
  unfold pick
  simp only [bind_eq_ok_iff, position_eq_ok_iff]
  constructor
  · rintro ⟨j, ⟨hi, rfl⟩, h⟩
    split at h <;> simp_all
  · rintro ⟨hi, ha⟩
    exact ⟨i, ⟨hi, rfl⟩, by rw [ha]⟩

theorem write_eq_ok_iff {t t' : Array α} {i : Nat} {a : α} :
    write t i a = .ok t' ↔ i < UInt64.size ∧ i < t.size ∧ t.setIfInBounds i a = t' := by
  unfold write
  simp only [bind_eq_ok_iff, position_eq_ok_iff]
  constructor
  · rintro ⟨j, ⟨hi, rfl⟩, h⟩
    split at h <;> simp_all
  · rintro ⟨hi, ht, ha⟩
    exact ⟨i, ⟨hi, rfl⟩, by rw [if_pos ht, ha]⟩

theorem range_eq_ok_iff {t : Array α} {start len : Nat} :
    range t start len = .ok () ↔ start + len < UInt64.size ∧ start + len ≤ t.size := by
  unfold range
  simp only [bind_eq_ok_iff, position_eq_ok_iff]
  constructor
  · rintro ⟨j, ⟨hi, rfl⟩, h⟩
    split at h <;> simp_all
  · rintro ⟨hi, ht⟩
    exact ⟨_, ⟨hi, rfl⟩, if_pos ht⟩

theorem slice_eq_ok_iff {t s : Array α} {start len : Nat} :
    slice t start len = .ok s ↔
      (start + len < UInt64.size ∧ start + len ≤ t.size) ∧ t.extract start (start + len) = s := by
  unfold slice
  rw [bind_eq_ok_iff, ← range_eq_ok_iff]
  simp only [pure, Except.pure, Except.ok.injEq]
  exact ⟨fun ⟨_, h⟩ => h, fun h => ⟨(), h⟩⟩

theorem slice_of_le {t : Array α} {start len : Nat} (ht : t.size < UInt64.size)
    (h : start + len ≤ t.size) : slice t start len = .ok (t.extract start (start + len)) :=
  slice_eq_ok_iff.2 ⟨⟨by omega, h⟩, rfl⟩

theorem size_fold_set (start : Nat) : ∀ (n : Nat) (f : (i : Nat) → i < n → α) (t : Array α),
    (n.fold (fun i h t => t.setIfInBounds (start + i) (f i h)) t).size = t.size
  | 0, _, _ => rfl
  | n + 1, f, t => by
    rw [Nat.fold_succ, Array.size_setIfInBounds]
    exact size_fold_set start n (fun i h => f i (by omega)) t

theorem getElem?_fold_set (start : Nat) :
    ∀ (n : Nat) (f : (i : Nat) → i < n → α) (t : Array α) (j : Nat), start + n ≤ t.size →
      (n.fold (fun i h t => t.setIfInBounds (start + i) (f i h)) t)[j]? =
        if h : start ≤ j ∧ j < start + n then some (f (j - start) (by omega)) else t[j]?
  | 0, _, _, _, _ => by rw [dif_neg (by omega)]; rfl
  | n + 1, f, t, j, ht => by
    have ih := getElem?_fold_set start n (fun i h => f i (by omega)) t j (by omega)
    rw [Nat.fold_succ, Array.getElem?_setIfInBounds, size_fold_set, ih]
    by_cases hj : start + n = j
    · subst hj
      rw [if_pos rfl, if_pos (by omega), dif_pos (by omega)]
      simp only [Nat.add_sub_cancel_left]
    · rw [if_neg hj]
      by_cases hlt : start ≤ j ∧ j < start + n
      · rw [dif_pos hlt, dif_pos (by omega)]
      · rw [dif_neg hlt, dif_neg (by omega)]

@[simp] theorem size_place (t part : Array α) (start : Nat) :
    (place t start part).size = t.size :=
  size_fold_set start part.size (fun i _ => part[i]) t

/-- A window that is written holds the new elements, and nothing else is touched. -/
theorem getElem?_place {t part : Array α} {start : Nat} (h : start + part.size ≤ t.size)
    (j : Nat) : (place t start part)[j]? =
      if start ≤ j ∧ j < start + part.size then part[j - start]? else t[j]? := by
  unfold place
  rw [getElem?_fold_set start part.size (fun i _ => part[i]) t j h]
  by_cases hj : start ≤ j ∧ j < start + part.size
  · rw [dif_pos hj, if_pos hj, Array.getElem?_eq_getElem]
  · rw [dif_neg hj, if_neg hj]

/-- A window holds what was written to it. -/
theorem extract_place {t part : Array α} {start : Nat} (h : start + part.size ≤ t.size) :
    (place t start part).extract start (start + part.size) = part := by
  refine Array.ext_getElem? fun j => ?_
  rw [Array.getElem?_extract, size_place, getElem?_place h]
  by_cases hj : j < part.size
  · rw [if_pos (by omega), if_pos (by omega), Nat.add_sub_cancel_left]
  · rw [if_neg (by omega), Array.getElem?_eq_none (by omega)]

/-- A window stays as it is when one beside it is written. -/
theorem extract_place_of_disjoint {t part : Array α} {start a b : Nat}
    (h : start + part.size ≤ t.size) (hd : start + part.size ≤ a ∨ b ≤ start) :
    (place t start part).extract a b = t.extract a b := by
  refine Array.ext_getElem? fun j => ?_
  rw [Array.getElem?_extract, Array.getElem?_extract, size_place, getElem?_place h]
  split
  · rw [if_neg (by omega)]
  · rfl

theorem transfer_cons {src d r : Array α} {p : Nat × Nat} {pairs : List (Nat × Nat)}
    (h : transfer src (p :: pairs) d = .ok r) :
    ∃ a, src[p.2]? = some a ∧ p.1 < d.size
      ∧ transfer src pairs (d.setIfInBounds p.1 a) = .ok r := by
  unfold transfer at h
  rw [List.foldlM_cons, bind_eq_ok_iff] at h
  obtain ⟨d', hd, h⟩ := h
  obtain ⟨a, ha, hw⟩ := bind_eq_ok_iff.1 hd
  obtain ⟨-, hlt, rfl⟩ := write_eq_ok_iff.1 hw
  exact ⟨a, (read_eq_ok_iff.1 ha).2, hlt, h⟩

theorem size_of_transfer {src : Array α} : ∀ {pairs : List (Nat × Nat)} {d r : Array α},
    transfer src pairs d = .ok r → r.size = d.size
  | [], d, r, h => by
    simp only [transfer, List.foldlM_nil, pure, Except.pure, Except.ok.injEq] at h
    rw [h]
  | p :: pairs, d, r, h => by
    obtain ⟨a, -, -, h⟩ := transfer_cons h
    rw [size_of_transfer h, Array.size_setIfInBounds]

/-- A place that no pair names keeps what it held. -/
theorem getElem?_transfer_of_notMem {src : Array α} {j : Nat} :
    ∀ {pairs : List (Nat × Nat)} {d r : Array α}, transfer src pairs d = .ok r →
      j ∉ pairs.map Prod.fst → r[j]? = d[j]?
  | [], d, r, h, _ => by
    simp only [transfer, List.foldlM_nil, pure, Except.pure, Except.ok.injEq] at h
    rw [h]
  | p :: pairs, d, r, h, hj => by
    obtain ⟨a, -, -, h⟩ := transfer_cons h
    obtain ⟨hp, hj⟩ := not_or.1 (mt List.mem_cons.2 hj)
    rw [getElem?_transfer_of_notMem h hj, Array.getElem?_setIfInBounds_ne (Ne.symm hp)]

/-- If no two pairs name one place, each place holds what its pair takes there. -/
theorem getElem?_transfer {src : Array α} {p : Nat × Nat} :
    ∀ {pairs : List (Nat × Nat)} {d r : Array α}, (pairs.map Prod.fst).Nodup →
      transfer src pairs d = .ok r → p ∈ pairs → r[p.1]? = src[p.2]?
  | q :: pairs, d, r, hn, h, hp => by
    obtain ⟨a, ha, hlt, h⟩ := transfer_cons h
    obtain ⟨hq, hn⟩ := List.nodup_cons.1 hn
    rcases List.mem_cons.1 hp with rfl | hp
    · rw [getElem?_transfer_of_notMem h hq, Array.getElem?_setIfInBounds_self_of_lt hlt, ha]
    · exact getElem?_transfer hn h hp

/-- Copying back along the same pairs gives what was copied, if they take every element of it. -/
theorem eq_of_transfer_swap {pairs : List (Nat × Nat)} {x s y t r : Array α}
    (hto : (pairs.map Prod.fst).Nodup) (hfrom : (pairs.map Prod.snd).Nodup)
    (hall : ∀ j < x.size, j ∈ pairs.map Prod.snd) (ht : t.size = x.size)
    (h : transfer x pairs s = .ok y) (hback : transfer y (pairs.map Prod.swap) t = .ok r) :
    r = x := by
  have hfst : (pairs.map Prod.swap).map Prod.fst = pairs.map Prod.snd := List.map_map
  refine Array.ext_getElem? fun j => ?_
  by_cases hj : j < x.size
  · obtain ⟨p, hp, rfl⟩ := List.mem_map.1 (hall j hj)
    have hr := getElem?_transfer (hfst ▸ hfrom) hback (List.mem_map_of_mem hp)
    exact hr.trans (getElem?_transfer hto h hp)
  · rw [Array.getElem?_eq_none (by rw [size_of_transfer hback]; omega),
      Array.getElem?_eq_none (by omega)]

/-- A copy of single elements succeeds when all of its places are inside. -/
theorem exists_transfer {src : Array α} (hs : src.size < UInt64.size) :
    ∀ {pairs : List (Nat × Nat)} {d : Array α}, d.size < UInt64.size →
      (∀ p ∈ pairs, p.1 < d.size ∧ p.2 < src.size) → ∃ r, transfer src pairs d = .ok r
  | [], d, _, _ => ⟨d, rfl⟩
  | p :: pairs, d, hd, hp => by
    obtain ⟨h1, h2⟩ := hp p List.mem_cons_self
    have hr : read src p.2 = .ok src[p.2] :=
      read_eq_ok_iff.2 ⟨by omega, Array.getElem?_eq_getElem h2⟩
    have hw : write d p.1 src[p.2] = .ok (d.setIfInBounds p.1 src[p.2]) :=
      write_eq_ok_iff.2 ⟨by omega, h1, rfl⟩
    have ih : ∃ r, transfer src pairs (d.setIfInBounds p.1 src[p.2]) = .ok r :=
      exists_transfer hs (by simpa using hd) fun q hq => by
        simpa using hp q (List.mem_cons_of_mem _ hq)
    unfold transfer
    rw [List.foldlM_cons, hr, ok_bind, hw, ok_bind]
    exact ih

/-- Two copies along the same pairs agree at each place that a pair names. -/
theorem transfer_agree {src : Array α} {j : Nat} :
    ∀ {pairs : List (Nat × Nat)} {d d' r r' : Array α}, d.size = d'.size →
      transfer src pairs d = .ok r → transfer src pairs d' = .ok r' →
      (d[j]? = d'[j]? ∨ j ∈ pairs.map Prod.fst) → r[j]? = r'[j]?
  | [], d, d', r, r', _, h, h', hj => by
    simp only [transfer, List.foldlM_nil, pure, Except.pure, Except.ok.injEq] at h h'
    subst h h'
    simpa using hj
  | p :: pairs, d, d', r, r', hsize, h, h', hj => by
    obtain ⟨a, ha, hlt, h⟩ := transfer_cons h
    obtain ⟨a', ha', hlt', h'⟩ := transfer_cons h'
    obtain rfl : a = a' := by simpa [ha] using ha'
    refine transfer_agree (by simpa using hsize) h h' ?_
    by_cases hp : p.1 = j
    · left
      rw [Array.getElem?_setIfInBounds, Array.getElem?_setIfInBounds, if_pos hp, if_pos hp,
        if_pos (hp ▸ hlt), if_pos (hp ▸ hlt')]
    · rw [Array.getElem?_setIfInBounds_ne hp, Array.getElem?_setIfInBounds_ne hp]
      simpa [Ne.symm hp] using hj

/-- A copy that reaches every place does not depend on what its target held. -/
theorem transfer_congr {src d d' r r' : Array α} {pairs : List (Nat × Nat)}
    (hsize : d.size = d'.size) (hall : ∀ j < d.size, j ∈ pairs.map Prod.fst)
    (h : transfer src pairs d = .ok r) (h' : transfer src pairs d' = .ok r') : r = r' := by
  refine Array.ext_getElem? fun j => ?_
  by_cases hj : j < d.size
  · exact transfer_agree hsize h h' (.inr (hall j hj))
  · rw [Array.getElem?_eq_none (by rw [size_of_transfer h]; omega),
      Array.getElem?_eq_none (by rw [size_of_transfer h']; omega)]

theorem size_chunk {t : Array α} {n i k : Nat} (ht : t.size = k * n) (hi : i < k) :
    (chunk t n i).size = n := by
  have h : (i + 1) * n ≤ k * n := Nat.mul_le_mul_right n hi
  rw [Nat.add_one_mul] at h
  rw [chunk, Array.size_extract]
  omega

theorem chunk_replicate {a : α} {n i k : Nat} (hi : i < k) :
    chunk (Array.replicate (k * n) a) n i = Array.replicate n a := by
  have hs := size_chunk (Array.size_replicate (n := k * n) (v := a)) hi
  refine Array.ext (by rw [hs, Array.size_replicate]) fun j h1 h2 => ?_
  simp [chunk]

end Table

end MatrixFree
