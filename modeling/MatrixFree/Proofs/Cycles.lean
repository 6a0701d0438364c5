import Mathlib.Data.List.Nodup
import Mathlib.Logic.Relation
import MatrixFree.Proofs.Tables
import MatrixFree.Topology.Cycle

/-!
# The search for a cycle

The search finds a cycle exactly if there is one (`Cycle.search_eq_ok_iff`), and what it finds is on
one (`Cycle.reaches_of_search`). Its first pass keeps above a node that it has seen and not finished
only nodes that this one reaches (`Cycle.Ordered`), so that an edge whose tail was finished before
its head closes a cycle (`Cycle.Ordered.reaches`). Without a cycle the list of finished nodes has
every edge go from an earlier node to a later one, and the second pass succeeds exactly on such a
list (`Cycle.foldlM_retrace_eq_ok_iff`); otherwise it stops at the tail of another edge.
-/

namespace MatrixFree.Cycle

variable {n : ℕ} {edges : List (ℕ × ℕ)} {stack rest : List ℕ} {p p' : Progress} {v : ℕ}

theorem mem_next {u : ℕ} : u ∈ next edges v ↔ (v, u) ∈ edges := by
  simp [next]

theorem mem_previous {u : ℕ} : u ∈ previous edges v ↔ (u, v) ∈ edges := by
  simp [previous]

theorem mem_push {fresh nodes : List ℕ} {u : ℕ} :
    u ∈ push fresh nodes stack ↔ (u ∈ nodes ∧ u ∈ fresh) ∨ u ∈ stack := by
  simp [push]

/-- The finished nodes after the top of the stack is popped. -/
def close (finished : List ℕ) (v : ℕ) : List ℕ := if v ∈ finished then finished else v :: finished

theorem mem_close {finished : List ℕ} {u : ℕ} : u ∈ close finished v ↔ u = v ∨ u ∈ finished := by
  unfold close
  split
  · constructor
    · exact .inr
    · rintro (rfl | h)
      · assumption
      · exact h
  · exact List.mem_cons

theorem finish_nil : finish edges [] p = .ok p := by
  rw [finish]

theorem finish_of_mem (hv : v ∈ p.fresh) : finish edges (v :: rest) p =
    if v ∈ next edges v then .error v
    else finish edges (push (p.fresh.erase v) (next edges v) (v :: rest))
      { p with fresh := p.fresh.erase v } := by
  rw [finish, if_pos hv]

theorem finish_of_notMem (hv : v ∉ p.fresh) : finish edges (v :: rest) p =
    finish edges rest { p with finished := close p.finished v } := by
  rw [finish, if_neg hv]
  rfl

/-- What both steps of the first pass preserve holds at its end. -/
theorem finish_invariant {I : List ℕ → Progress → Prop}
    (take : ∀ {v rest p}, v ∈ p.fresh → v ∉ next edges v → I (v :: rest) p →
      I (push (p.fresh.erase v) (next edges v) (v :: rest)) { p with fresh := p.fresh.erase v })
    (pop : ∀ {v rest p}, v ∉ p.fresh → I (v :: rest) p →
      I rest { p with finished := close p.finished v })
    (h : finish edges stack p = .ok p') (hI : I stack p) : I [] p' := by
  induction stack, p using finish.induct edges with
  | case1 p =>
    rw [finish_nil, Except.ok.injEq] at h
    exact h ▸ hI
  | case2 p v rest hv hl =>
    rw [finish_of_mem hv, if_pos hl] at h
    cases h
  | case3 p v rest hv hl ih =>
    rw [finish_of_mem hv, if_neg hl] at h
    exact ih h (take hv hl hI)
  | case4 p v rest hv ih =>
    rw [finish_of_notMem hv] at h
    exact ih h (pop hv hI)

theorem exists_finish (h : ∀ v, (v, v) ∉ edges) : ∃ p', finish edges stack p = .ok p' := by
  induction stack, p using finish.induct edges with
  | case1 p => exact ⟨p, finish_nil⟩
  | case2 p v rest hv hl => exact absurd (mem_next.1 hl) (h v)
  | case3 p v rest hv hl ih =>
    rw [finish_of_mem hv, if_neg hl]
    exact ih
  | case4 p v rest hv ih =>
    rw [finish_of_notMem hv]
    exact ih

/-- Every node below `n` is still fresh, is finished, or is on the stack, and no node that was seen
is its own successor. -/
structure Marked (n : ℕ) (edges : List (ℕ × ℕ)) (stack : List ℕ) (p : Progress) : Prop where
  fresh_nodup : p.fresh.Nodup
  fresh_lt : ∀ v ∈ p.fresh, v < n
  stack_lt : ∀ v ∈ stack, v < n
  finished_nodup : p.finished.Nodup
  finished_lt : ∀ v ∈ p.finished, v < n
  disjoint : ∀ v ∈ p.finished, v ∉ p.fresh
  covered : ∀ v < n, v ∈ p.fresh ∨ v ∈ p.finished ∨ v ∈ stack
  no_loop : ∀ v < n, v ∉ p.fresh → (v, v) ∉ edges

namespace Marked

theorem take (hv : v ∈ p.fresh) (hl : v ∉ next edges v) (h : Marked n edges (v :: rest) p) :
    Marked n edges (push (p.fresh.erase v) (next edges v) (v :: rest))
      { p with fresh := p.fresh.erase v } where
  fresh_nodup := h.fresh_nodup.erase v
  fresh_lt u hu := h.fresh_lt u (List.mem_of_mem_erase hu)
  stack_lt u hu := by
    rcases mem_push.1 hu with ⟨-, hu⟩ | hu
    · exact h.fresh_lt u (List.mem_of_mem_erase hu)
    · exact h.stack_lt u hu
  finished_nodup := h.finished_nodup
  finished_lt := h.finished_lt
  disjoint u hu hf := h.disjoint u hu (List.mem_of_mem_erase hf)
  covered u hu := by
    by_cases huv : u = v
    · exact .inr (.inr (mem_push.2 (.inr (huv ▸ List.mem_cons_self))))
    · rcases h.covered u hu with hf | hf | hs
      · exact .inl ((List.mem_erase_of_ne huv).2 hf)
      · exact .inr (.inl hf)
      · exact .inr (.inr (mem_push.2 (.inr hs)))
  no_loop u hu hf := by
    by_cases huv : u = v
    · subst huv
      exact fun he => hl (mem_next.2 he)
    · exact h.no_loop u hu fun hm => hf ((List.mem_erase_of_ne huv).2 hm)

theorem pop (hv : v ∉ p.fresh) (h : Marked n edges (v :: rest) p) :
    Marked n edges rest { p with finished := close p.finished v } where
  fresh_nodup := h.fresh_nodup
  fresh_lt := h.fresh_lt
  stack_lt u hu := h.stack_lt u (List.mem_cons_of_mem _ hu)
  finished_nodup := by
    dsimp only [close]
    split
    · exact h.finished_nodup
    next hn => exact List.nodup_cons.2 ⟨hn, h.finished_nodup⟩
  finished_lt u hu := by
    rcases mem_close.1 hu with rfl | hu
    · exact h.stack_lt u List.mem_cons_self
    · exact h.finished_lt u hu
  disjoint u hu := by
    rcases mem_close.1 hu with rfl | hu
    · exact hv
    · exact h.disjoint u hu
  covered u hu := by
    rcases h.covered u hu with hf | hf | hs
    · exact .inl hf
    · exact .inr (.inl (mem_close.2 (.inr hf)))
    · rcases List.mem_cons.1 hs with rfl | hs
      · exact .inr (.inl (mem_close.2 (.inl rfl)))
      · exact .inr (.inr hs)
  no_loop := h.no_loop

/-- When no node is fresh or on the stack, all are finished. -/
theorem mem_finished (h : Marked n edges [] p) (hseen : ∀ v < n, v ∉ p.fresh) (hv : v < n) :
    v ∈ p.finished :=
  ((h.covered v hv).resolve_left (hseen v hv)).resolve_right List.not_mem_nil

end Marked

/-- A walk of at least one edge goes from one node to the other. -/
abbrev Reaches (edges : List (ℕ × ℕ)) : ℕ → ℕ → Prop := Relation.TransGen fun a b => (a, b) ∈ edges

/-- No walk along the edges comes back to where it was. -/
def Acyclic (edges : List (ℕ × ℕ)) : Prop :=
  ∀ v, ¬ Relation.TransGen (fun a b => (a, b) ∈ edges) v v

/-- A successor of a finished node was finished before it or reaches it. A node that was seen and is
not finished reaches all that is above it on the stack, and each of its successors is finished, is
there, or reaches it. -/
structure Ordered (edges : List (ℕ × ℕ)) (stack : List ℕ) (p : Progress) : Prop where
  done : ∀ {A a B b}, p.finished = A ++ a :: B → (a, b) ∈ edges → b ∈ B ∨ Reaches edges b a
  above : ∀ {A b B}, stack = A ++ b :: B → b ∉ A → b ∉ p.fresh → b ∉ p.finished →
    (∀ c, (b, c) ∈ edges → c ∈ p.finished ∨ c ∈ A ∨ Reaches edges c b) ∧ ∀ a ∈ A, Reaches edges b a

/-- An element that is not in the first part of a list is first met in the second part. -/
theorem split_append {P A B l : List ℕ} {b : ℕ} (hP : b ∉ P) (h : P ++ l = A ++ b :: B) :
    ∃ C, A = P ++ C ∧ l = C ++ b :: B := by
  rcases List.append_eq_append_iff.1 h with ⟨C, hA, hl⟩ | ⟨C, rfl, hl⟩
  · exact ⟨C, hA, hl⟩
  · rcases C with _ | ⟨c, C⟩
    · exact ⟨[], by simp, hl.symm⟩
    · obtain ⟨rfl, -⟩ := List.cons.inj hl
      exact absurd (List.mem_append_right A List.mem_cons_self) hP

namespace Ordered

theorem take (hedges : ∀ e ∈ edges, e.2 < n) (hl : v ∉ next edges v)
    (hm : Marked n edges (v :: rest) p) (h : Ordered edges (v :: rest) p) :
    Ordered edges (push (p.fresh.erase v) (next edges v) (v :: rest))
      { p with fresh := p.fresh.erase v } := by
  refine ⟨h.done, fun {A b B} hs hA hf hd => ?_⟩
  unfold push at hs
  generalize hP : ((next edges v).filter (· ∈ p.fresh.erase v)).reverse = P at hs
  have hmem : ∀ {u}, u ∈ P ↔ (v, u) ∈ edges ∧ u ∈ p.fresh.erase v := fun {u} => by
    rw [← hP, List.mem_reverse, List.mem_filter, mem_next, decide_eq_true_iff]
  obtain ⟨C, rfl, hC⟩ := split_append (fun hb => hf (hmem.1 hb).2) hs
  rcases C with _ | ⟨w, C⟩
  -- the node just taken up: what is above it are the successors that were pushed
  · obtain ⟨rfl, rfl⟩ := List.cons.inj hC
    refine ⟨fun c hc => ?_, fun a ha => .single (hmem.1 (by simpa using ha)).1⟩
    by_cases hcf : c ∈ p.fresh.erase v
    · exact .inr (.inl (by simpa using hmem.2 ⟨hc, hcf⟩))
    have hcv : c ≠ v := fun h => hl (mem_next.2 (h ▸ hc))
    have hcf : c ∉ p.fresh := fun h => hcf ((List.mem_erase_of_ne hcv).2 h)
    by_cases hcd : c ∈ p.finished
    · exact .inl hcd
    -- a successor that is not finished is below, and reaches the node
    have hstack : c ∈ v :: rest :=
      ((hm.covered c (hedges _ hc)).resolve_left hcf).resolve_left hcd
    obtain ⟨D, E, hsplit, hD⟩ := List.eq_append_cons_of_mem hstack
    rcases D with _ | ⟨w, D⟩
    · exact absurd (List.cons.inj hsplit).1.symm hcv
    · obtain ⟨rfl, -⟩ := List.cons.inj hsplit
      exact .inr (.inr ((h.above hsplit hD hcf hcd).2 v List.mem_cons_self))
  · obtain ⟨rfl, -⟩ := List.cons.inj hC
    have hbv : b ≠ v := fun hb => hA (hb ▸ List.mem_append_right P List.mem_cons_self)
    have hbf : b ∉ p.fresh := fun hb => hf ((List.mem_erase_of_ne hbv).2 hb)
    obtain ⟨hsucc, hreach⟩ := h.above hC (fun hb => hA (List.mem_append_right P hb)) hbf hd
    refine ⟨fun c hc => (hsucc c hc).imp_right (.imp_left (List.mem_append_right P)),
      fun a ha => ?_⟩
    rcases List.mem_append.1 ha with ha | ha
    · exact (hreach v List.mem_cons_self).tail (hmem.1 ha).1
    · exact hreach a ha

theorem pop (hv : v ∉ p.fresh) (h : Ordered edges (v :: rest) p) :
    Ordered edges rest { p with finished := close p.finished v } := by
  refine ⟨fun {A a B b} hs he => ?_, fun {A b B} hs hA hf hd => ?_⟩
  · by_cases hvd : v ∈ p.finished
    · rw [show close p.finished v = p.finished from if_pos hvd] at hs
      exact h.done hs he
    · rw [show close p.finished v = v :: p.finished from if_neg hvd] at hs
      rcases A with _ | ⟨w, A⟩
      · obtain ⟨rfl, rfl⟩ := List.cons.inj hs
        exact ((h.above rfl List.not_mem_nil hv hvd).1 b he).imp_right
          (·.resolve_left List.not_mem_nil)
      · exact h.done (List.cons.inj hs).2 he
  · have hbv : b ≠ v := fun hb => hd (mem_close.2 (.inl hb))
    obtain ⟨hsucc, hreach⟩ := h.above (A := v :: A) (by rw [hs]; rfl)
      (fun hb => (List.mem_cons.1 hb).elim hbv hA) hf fun hb => hd (mem_close.2 (.inr hb))
    refine ⟨fun c hc => ?_, fun a ha => hreach a (List.mem_cons_of_mem _ ha)⟩
    rcases hsucc c hc with hc | hc | hc
    · exact .inl (mem_close.2 (.inr hc))
    · exact (List.mem_cons.1 hc).imp (fun hc => mem_close.2 (.inl hc)) .inl
    · exact .inr (.inr hc)

/-- If the tail of an edge was finished before the head, the head reaches the tail. -/
theorem reaches (h : Ordered edges stack p) (hnd : p.finished.Nodup) {A B : List ℕ} {u : ℕ}
    (hs : p.finished = A ++ v :: B) (hu : u ∈ B) (he : (u, v) ∈ edges) : Reaches edges v u := by
  obtain ⟨C, D, rfl⟩ := List.append_of_mem hu
  refine (h.done (A := A ++ v :: C) (B := D) (by simp [hs]) he).resolve_left fun hv => ?_
  rw [hs] at hnd
  exact (List.nodup_cons.1 (List.Nodup.of_append_right hnd)).1 (by simp [hv])

end Ordered

/-- Where the first pass stands after it was started from each node below `k`. -/
theorem foldlM_finish (hedges : ∀ e ∈ edges, e.2 < n) : ∀ {k : ℕ}, k ≤ n → ∀ {p : Progress},
    (List.range k).foldlM (fun p v =>
      if v ∈ p.fresh then finish edges [v] p else .ok p) ⟨List.range n, []⟩ = .ok p →
    Marked n edges [] p ∧ (∀ v < k, v ∉ p.fresh) ∧ Ordered edges [] p
  | 0, _, p, h => by
    simp only [List.range_zero, List.foldlM_nil, pure, Except.pure, Except.ok.injEq] at h
    subst h
    refine ⟨⟨List.nodup_range, fun v hv => List.mem_range.1 hv, nofun, List.nodup_nil, nofun, nofun,
      fun v hv => .inl (List.mem_range.2 hv), fun v hv hf => absurd (List.mem_range.2 hv) hf⟩,
      nofun, ?_, ?_⟩
    · intro A a B b hs
      simp at hs
    · intro A b B hs
      simp at hs
  | k + 1, hk, p, h => by
    rw [List.range_succ, List.foldlM_append, bind_eq_ok_iff] at h
    obtain ⟨q, hq, h⟩ := h
    simp only [List.foldlM_cons, List.foldlM_nil, bind_eq_ok_iff, pure, Except.pure,
      Except.ok.injEq, exists_eq_right] at h
    obtain ⟨hm, hseen, ho⟩ := foldlM_finish hedges (by omega) hq
    by_cases hv : k ∈ q.fresh
    · rw [if_pos hv] at h
      have := finish_invariant (I := fun stack p => Marked n edges stack p
          ∧ (∀ v < k + 1, v ∈ p.fresh → v ∈ stack) ∧ Ordered edges stack p)
        (fun {v rest p} hv hl ⟨hm, hs, ho⟩ => ⟨hm.take hv hl,
          fun u hu hf => mem_push.2 (.inr (hs u hu (List.mem_of_mem_erase hf))),
          ho.take hedges hl hm⟩)
        (fun {v rest p} hv ⟨hm, hs, ho⟩ => ⟨hm.pop hv,
          fun u hu hf => (List.mem_cons.1 (hs u hu hf)).resolve_left fun h => hv (h ▸ hf),
          ho.pop hv⟩) h ⟨?_, ?_, ?_⟩
      · exact ⟨this.1, fun v hv hf => List.not_mem_nil (this.2.1 v hv hf), this.2.2⟩
      · exact { hm with
          stack_lt := fun u hu => List.mem_singleton.1 hu ▸ hk
          covered := fun u hu => (hm.covered u hu).imp_right fun h =>
            .inl (h.resolve_right List.not_mem_nil) }
      · intro u hu hf
        by_contra hne
        exact hseen u (by rw [List.mem_singleton] at hne; omega) hf
      · refine ⟨ho.done, fun {A b B} hs hA hf => ?_⟩
        obtain ⟨rfl, rfl⟩ : A = [] ∧ b = k := by
          rcases A with _ | ⟨a, A⟩
          · exact ⟨rfl, (List.cons.inj hs).1.symm⟩
          · simp at hs
        exact absurd hv hf
    · rw [if_neg hv, Except.ok.injEq] at h
      subst h
      refine ⟨hm, fun u hu hf => ?_, ho⟩
      by_cases huk : u = k
      · exact hv (huk ▸ hf)
      · exact hseen u (by omega) hf

theorem exists_foldlM_finish (h : ∀ v, (v, v) ∉ edges) : ∀ (l : List ℕ) (p : Progress), ∃ p',
    l.foldlM (fun p v => if v ∈ p.fresh then finish edges [v] p else .ok p) p = .ok p'
  | [], p => ⟨p, rfl⟩
  | v :: l, p => by
    rw [List.foldlM_cons]
    by_cases hv : v ∈ p.fresh
    · obtain ⟨q, hq⟩ : ∃ q, finish edges [v] p = .ok q := exists_finish h
      rw [if_pos hv, hq, ok_bind]
      exact exists_foldlM_finish h l q
    · rw [if_neg hv, ok_bind]
      exact exists_foldlM_finish h l p

/-- The first pass stops only at a node that is its own successor. -/
theorem mem_of_finish_eq_error (h : finish edges stack p = .error v) : (v, v) ∈ edges := by
  induction stack, p using finish.induct edges with
  | case1 p =>
    rw [finish_nil] at h
    cases h
  | case2 p u rest hu hl =>
    rw [finish_of_mem hu, if_pos hl, Except.error.injEq] at h
    exact h ▸ mem_next.1 hl
  | case3 p u rest hu hl ih =>
    rw [finish_of_mem hu, if_neg hl] at h
    exact ih h
  | case4 p u rest hu ih =>
    rw [finish_of_notMem hu] at h
    exact ih h

theorem mem_of_foldlM_finish_eq_error : ∀ {l : List ℕ} {p : Progress},
    l.foldlM (fun p v => if v ∈ p.fresh then finish edges [v] p else .ok p) p = .error v →
    (v, v) ∈ edges
  | [], p, h => by cases h
  | u :: l, p, h => by
    rw [List.foldlM_cons, bind_eq_error_iff] at h
    rcases h with h | ⟨q, -, h⟩
    · split at h
      · exact mem_of_finish_eq_error h
      · cases h
    · exact mem_of_foldlM_finish_eq_error h

theorem retrace_found_eq_ok_iff {fresh r : List ℕ} : ∀ {stack : List ℕ},
    retrace edges stack fresh true = .ok r ↔ (∀ u ∈ stack, u ∉ fresh) ∧ fresh = r
  | [] => by
    rw [retrace]
    simp
  | v :: stack => by
    rw [retrace]
    by_cases hv : v ∈ fresh
    · simp [hv]
    · rw [if_neg hv, retrace_found_eq_ok_iff]
      simp [hv]

theorem retrace_eq_ok_iff {fresh r : List ℕ} (hv : v ∈ fresh) :
    retrace edges [v] fresh false = .ok r ↔
      (∀ u, (u, v) ∈ edges → u ∉ fresh.erase v) ∧ fresh.erase v = r := by
  rw [retrace, if_pos hv, if_neg Bool.false_ne_true, retrace_found_eq_ok_iff]
  refine and_congr_left' ⟨fun h u hu hf => ?_, fun h u hu => ?_⟩
  · exact h u (mem_push.2 (.inl ⟨mem_previous.2 hu, hf⟩)) hf
  · rcases mem_push.1 hu with ⟨hu, -⟩ | hu
    · exact h u (mem_previous.1 hu)
    · cases hu

/-- The second pass succeeds if every edge goes from an earlier node to a later one. -/
theorem foldlM_retrace_eq_ok_iff : ∀ {l fresh : List ℕ}, l.Nodup → fresh.Nodup →
    (∀ v ∈ l, v ∈ fresh) →
    ((∃ r, l.foldlM (fun fresh v => retrace edges [v] fresh false) fresh = .ok r) ↔
      ∀ A v B, l = A ++ v :: B → ∀ u ∈ fresh, (u, v) ∈ edges → u = v ∨ u ∈ A)
  | [], fresh, _, _, _ => by simp [pure, Except.pure]
  | v :: l, fresh, hl, hf, hlf => by
    obtain ⟨hvl, hl⟩ := List.nodup_cons.1 hl
    obtain ⟨hv, hlf⟩ := List.forall_mem_cons.1 hlf
    have hlf : ∀ u ∈ l, u ∈ fresh.erase v := fun u hu =>
      (List.mem_erase_of_ne fun h : u = v => hvl (h ▸ hu)).2 (hlf u hu)
    have ih := foldlM_retrace_eq_ok_iff hl (hf.erase v) hlf
    simp only [List.foldlM_cons, bind_eq_ok_iff, retrace_eq_ok_iff hv]
    constructor
    · rintro ⟨r, _, ⟨hpre, rfl⟩, h⟩ A w B hs u hu he
      rcases A with _ | ⟨a, A⟩
      · obtain ⟨rfl, -⟩ := List.cons.inj hs
        by_contra hne
        exact hpre u he ((List.mem_erase_of_ne fun h => hne (.inl h)).2 hu)
      · obtain ⟨rfl, hsplit⟩ := List.cons.inj hs
        by_cases huv : u = v
        · exact .inr (huv ▸ List.mem_cons_self)
        · exact (ih.1 ⟨r, h⟩ A w B hsplit u ((List.mem_erase_of_ne huv).2 hu) he).imp_right
            (List.mem_cons_of_mem _)
    · intro h
      obtain ⟨r, hr⟩ := ih.2 fun A w B hs u hu he => by
        rcases h (v :: A) w B (by rw [hs]; rfl) u (List.mem_of_mem_erase hu) he with huw | huA
        · exact .inl huw
        · refine .inr ((List.mem_cons.1 huA).resolve_left fun huv => ?_)
          exact hf.not_mem_erase (huv ▸ hu)
      refine ⟨r, _, ⟨fun u he hu => ?_, rfl⟩, hr⟩
      rcases h [] v l rfl u (List.mem_of_mem_erase hu) he with huv | huA
      · exact hf.not_mem_erase (huv ▸ hu)
      · cases huA

theorem mem_of_retrace_found_eq_error {fresh : List ℕ} {u : ℕ} : ∀ {stack : List ℕ},
    retrace edges stack fresh true = .error u → u ∈ stack ∧ u ∈ fresh
  | [], h => by
    rw [retrace] at h
    cases h
  | v :: stack, h => by
    rw [retrace] at h
    by_cases hv : v ∈ fresh
    · rw [if_pos hv, if_pos rfl, Except.error.injEq] at h
      exact h ▸ ⟨List.mem_cons_self, hv⟩
    · rw [if_neg hv] at h
      exact (mem_of_retrace_found_eq_error h).imp_left (List.mem_cons_of_mem _)

theorem mem_of_retrace_eq_error {fresh : List ℕ} {u : ℕ} (hv : v ∈ fresh)
    (h : retrace edges [v] fresh false = .error u) : (u, v) ∈ edges ∧ u ∈ fresh.erase v := by
  rw [retrace, if_pos hv, if_neg Bool.false_ne_true] at h
  obtain ⟨hu, hf⟩ := mem_of_retrace_found_eq_error h
  rcases mem_push.1 hu with ⟨hu, -⟩ | hu
  · exact ⟨mem_previous.1 hu, hf⟩
  · cases hu

/-- The second pass stops at the tail of an edge that goes from a later node to an earlier one. -/
theorem exists_of_foldlM_retrace_eq_error {u : ℕ} : ∀ {l fresh : List ℕ}, l.Nodup → fresh.Nodup →
    (∀ v ∈ l, v ∈ fresh) →
    l.foldlM (fun fresh v => retrace edges [v] fresh false) fresh = .error u →
    ∃ A v B, l = A ++ v :: B ∧ (u, v) ∈ edges ∧ u ∈ fresh ∧ u ∉ A ∧ u ≠ v
  | [], fresh, _, _, _, h => by cases h
  | v :: l, fresh, hl, hf, hlf, h => by
    obtain ⟨hvl, hl⟩ := List.nodup_cons.1 hl
    obtain ⟨hv, hlf⟩ := List.forall_mem_cons.1 hlf
    rw [List.foldlM_cons, bind_eq_error_iff] at h
    rcases h with h | ⟨r, hr, h⟩
    · obtain ⟨huv, hu⟩ := mem_of_retrace_eq_error hv h
      obtain ⟨hne, hu⟩ := hf.mem_erase_iff.1 hu
      exact ⟨[], v, l, rfl, huv, hu, List.not_mem_nil, hne⟩
    · obtain ⟨-, rfl⟩ := (retrace_eq_ok_iff hv).1 hr
      have hlf : ∀ w ∈ l, w ∈ fresh.erase v := fun w hw =>
        (List.mem_erase_of_ne fun h : w = v => hvl (h ▸ hw)).2 (hlf w hw)
      obtain ⟨A, w, B, rfl, huw, hu, hA, hne⟩ :=
        exists_of_foldlM_retrace_eq_error hl (hf.erase v) hlf h
      obtain ⟨huv, hu⟩ := hf.mem_erase_iff.1 hu
      exact ⟨v :: A, w, B, rfl, huw, hu, fun h => (List.mem_cons.1 h).elim huv hA, hne⟩

/-- The search succeeds exactly if there is no cycle. -/
theorem search_eq_ok_iff (he : ∀ e ∈ edges, e.1 < n ∧ e.2 < n) :
    search n edges = .ok () ↔ Acyclic edges := by
  have hsearch : search n edges = .ok () ↔ ∃ p, (List.range n).foldlM (fun p v =>
      if v ∈ p.fresh then finish edges [v] p else .ok p) ⟨List.range n, []⟩ = .ok p
      ∧ ∃ r, p.finished.foldlM (fun fresh v => retrace edges [v] fresh false) (List.range n)
        = .ok r := by
    simp [search, bind_eq_ok_iff, pure, Except.pure]
  rw [hsearch]
  have second : ∀ {p}, Marked n edges [] p → ((∃ r, p.finished.foldlM
      (fun fresh v => retrace edges [v] fresh false) (List.range n) = .ok r) ↔
      ∀ A v B, p.finished = A ++ v :: B → ∀ u ∈ List.range n, (u, v) ∈ edges → u = v ∨ u ∈ A) :=
    fun hm => foldlM_retrace_eq_ok_iff hm.finished_nodup List.nodup_range fun v hv =>
      List.mem_range.2 (hm.finished_lt v hv)
  constructor
  · rintro ⟨p, hp, hr⟩
    obtain ⟨hm, hseen, -⟩ := foldlM_finish (fun e h => (he e h).2) (Nat.le_refl n) hp
    have horder := (second hm).1 hr
    have step : ∀ {u v}, (u, v) ∈ edges → p.finished.idxOf u < p.finished.idxOf v := by
      intro u v huv
      obtain ⟨hu, hv⟩ := he _ huv
      obtain ⟨A, B, hs, hA⟩ := List.eq_append_cons_of_mem (hm.mem_finished hseen hv)
      have huA := (horder A v B hs u (List.mem_range.2 hu) huv).resolve_left fun h =>
        hm.no_loop v hv (hseen v hv) (h ▸ huv)
      rw [hs, List.idxOf_append_of_mem huA, List.idxOf_append_of_notMem hA, List.idxOf_cons_self]
      exact Nat.lt_add_right _ (List.idxOf_lt_length_of_mem huA)
    intro v hv
    have mono : ∀ {u w}, Relation.TransGen (fun a b => (a, b) ∈ edges) u w →
        p.finished.idxOf u < p.finished.idxOf w := by
      intro u w h
      induction h with
      | single h => exact step h
      | tail _ h ih => exact Nat.lt_trans ih (step h)
    exact Nat.lt_irrefl _ (mono hv)
  · intro hac
    obtain ⟨p, hp⟩ := exists_foldlM_finish (fun v hv => hac v (.single hv)) (List.range n)
      ⟨List.range n, []⟩
    obtain ⟨hm, hseen, ho⟩ := foldlM_finish (fun e h => (he e h).2) (Nat.le_refl n) hp
    refine ⟨p, hp, (second hm).2 fun A v B hs u hu huv => ?_⟩
    have hmem := hm.mem_finished hseen (List.mem_range.1 hu)
    rw [hs, List.mem_append, List.mem_cons] at hmem
    rcases hmem with huA | rfl | huB
    · exact .inr huA
    · exact .inl rfl
    -- were the tail after the head, the head would reach the tail
    · exact absurd ((ho.reaches hm.finished_nodup hs huB huv).tail huv) (hac v)

/-- What the search finds is on a cycle. -/
theorem reaches_of_search (he : ∀ e ∈ edges, e.1 < n ∧ e.2 < n) (h : search n edges = .error v) :
    Reaches edges v v := by
  unfold search at h
  rcases bind_eq_error_iff.1 h with h | ⟨p, hp, h⟩
  · exact .single (mem_of_foldlM_finish_eq_error h)
  · obtain ⟨hm, hseen, ho⟩ := foldlM_finish (fun e h => (he e h).2) (Nat.le_refl n) hp
    rcases bind_eq_error_iff.1 h with h | ⟨_, -, h⟩
    · obtain ⟨A, w, B, hs, hvw, hv, hA, hne⟩ := exists_of_foldlM_retrace_eq_error hm.finished_nodup
        List.nodup_range (fun u hu => List.mem_range.2 (hm.finished_lt u hu)) h
      have hv := hm.mem_finished hseen (List.mem_range.1 hv)
      rw [hs, List.mem_append, List.mem_cons] at hv
      have hB : v ∈ B := (hv.resolve_left hA).resolve_left hne
      exact .head hvw (ho.reaches hm.finished_nodup hs hB hvw)
    · cases h

end MatrixFree.Cycle
