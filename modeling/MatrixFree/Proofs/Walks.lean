import MatrixFree.Proofs.Links
import MatrixFree.Proofs.Topologies
import MatrixFree.Topology.Walk

/-!
# Walks

A walk over a sound topology does at each node what its visitor does and nothing else: it is
`Topology.visitAll` along a list of nodes that does not depend on the visitor
(`Topology.Sound.exists_walk`). The list holds a node only after the tails of all edges that it
waits for, and it holds all nodes if there is no cycle. A list that holds all nodes in such an order
is a `Topology.Schedule`, and there is one only if there is no cycle.
-/

namespace MatrixFree

namespace Frontier

variable {f f' : Frontier} {n : NodeId} {done : List NodeId}

/-- The nodes visited or ready are distinct, and none of them waits for anything. -/
structure Fresh (done : List NodeId) (f : Frontier) : Prop where
  nodup : (done ++ f.ready).Nodup
  waiting : ∀ n ∈ done ++ f.ready, f.waiting[n.index]? = some 0

theorem Fresh.arrive (hf : Fresh done f) (h : f.arrive n = some f') : Fresh done f' := by
  have keep : ∀ {k : ℕ}, f.waiting[n.index]? = some (k + 1) → ∀ m ∈ done ++ f.ready,
      (f.waiting.setIfInBounds n.index k)[m.index]? = some 0 := by
    intro k hk m hm
    have hne : n.index ≠ m.index := fun heq => by
      have := hf.waiting m hm
      rw [← heq, hk] at this
      cases this
    rw [Array.getElem?_setIfInBounds_ne hne, hf.waiting m hm]
  unfold Frontier.arrive at h
  split at h
  · cases h
  · obtain rfl : f = f' := by simpa using h
    exact hf
  next hw =>
    obtain rfl := Option.some.inj h
    have hn : n ∉ done ++ f.ready := fun hn => by
      rw [hf.waiting n hn] at hw
      cases hw
    have hlt : n.index < f.waiting.size := (Array.getElem?_eq_some_iff.1 hw).1
    refine ⟨?_, fun m hm => ?_⟩
    · dsimp only
      rw [← List.append_assoc]
      exact List.nodup_append.2 ⟨hf.nodup, List.nodup_singleton n, fun a ha b hb hab =>
        hn (List.mem_singleton.1 hb ▸ hab ▸ ha)⟩
    · dsimp only at hm ⊢
      rw [← List.append_assoc, List.mem_append, List.mem_singleton] at hm
      rcases hm with hm | rfl
      · exact keep hw m hm
      · rw [Array.getElem?_setIfInBounds_self_of_lt hlt]
  next k hw =>
    obtain rfl := Option.some.inj h
    exact ⟨hf.nodup, keep hw⟩

end Frontier

namespace Topology

open Frontier

variable {t : Topology} {d : Direction} {n : NodeId} {done visited : List NodeId}
  {f f' : Frontier} {σ : Type} {visit : Visitor σ} {s : σ}

/-- What every arrival keeps is kept when the edges of a node are followed. -/
theorem follow_keeps {P : Frontier → Prop} (hP : ∀ {f f' m}, P f → f.arrive m = some f' → P f') :
    ∀ {es : List EdgeId} {f f' : Frontier}, P f → t.follow d n es f = .ok f' → P f'
  | [], f, f', hf, h => by
    obtain rfl : f = f' := by simpa [follow] using h
    exact hf
  | e :: es, f, f', hf, h => by
    unfold follow at h
    split at h
    · cases h
    · split at h
      · cases h
      next ha => exact follow_keeps hP (hP hf ha) h

theorem downstream_eq_ok (hn : n.index < t.nodeCount) :
    t.downstream d n = .ok (t.listed n d.departure) := by
  have hget : t.adjacency[n.index]? = some t.adjacency[n.index] := Array.getElem?_eq_getElem hn
  unfold downstream
  rw [Table.read_eq_ok_iff.2 ⟨n.index_lt_word, hget⟩, listed, hget]
  rfl

theorem leave_eq_ok_iff : t.leave d n f = .ok f' ↔
    ∃ es, t.downstream d n = .ok es ∧ t.follow d n es f = .ok f' := by
  unfold leave
  rcases t.downstream d n with e | es
  · simp [Checked.lift, bind, Except.bind]
  · rcases hf : t.follow d n es f with e | g
    · simp [Checked.lift, ok_bind, hf, GraphCheck.ofExcept, GraphCheck.refuse]
    · simp [Checked.lift, ok_bind, hf, GraphCheck.ofExcept]

theorem fresh_leave {ready : List NodeId} (hf : Fresh visited f) (hr : f.ready = n :: ready)
    (h : t.leave d n { f with ready } = .ok f') : Fresh (n :: visited) f' := by
  obtain ⟨es, -, h⟩ := leave_eq_ok_iff.1 h
  have hperm : (visited ++ f.ready).Perm (n :: visited ++ ready) := by
    rw [hr]
    exact List.perm_middle
  have hf : Fresh (n :: visited) { f with ready } :=
    ⟨hperm.nodup_iff.1 hf.nodup, fun m hm => hf.waiting m (hperm.mem_iff.2 hm)⟩
  exact follow_keeps Fresh.arrive hf h

theorem walk_nil (hr : f.ready = []) :
    t.walk d visit s visited f = (s, .ok visited.reverse) := by
  unfold walk
  split
  · rfl
  next heq => rw [hr] at heq; cases heq

theorem walk_cons {ready : List NodeId} (hr : f.ready = n :: ready) :
    t.walk d visit s visited f = match visit n s with
      | (s, .error e) => (s, .error e)
      | (s, .ok ()) => match t.leave d n { f with ready } with
        | .error e => (s, .error e)
        | .ok f' => t.walk d visit s (n :: visited) f' := by
  conv_lhs => unfold walk
  split
  next heq => rw [hr] at heq; cases heq
  next m ready' heq =>
    rw [hr] at heq
    obtain ⟨rfl, rfl⟩ := List.cons.inj heq
    rcases visit n s with ⟨s', e | ⟨⟩⟩
    · rfl
    · dsimp only
      split
      next hl => rw [hl]
      next hl => rw [hl]

/-- Whatever the graph is, a walk does not visit a node twice. -/
theorem nodup_of_walk : ∀ (k : ℕ) {s : σ} {visited l : List NodeId} {f : Frontier}, f.weight < k →
    Fresh visited f → (t.walk d visit s visited f).2 = .ok l → l.Nodup
  | k + 1, s, visited, l, f, hk, hf, h => by
    rcases hr : f.ready with _ | ⟨n, ready⟩
    · rw [walk_nil hr] at h
      obtain rfl := Except.ok.inj h
      have := hf.nodup
      rw [hr, List.append_nil] at this
      exact List.nodup_reverse.2 this
    · rw [walk_cons hr] at h
      rcases hv : visit n s with ⟨s', e | ⟨⟩⟩
      · rw [hv] at h
        cases h
      · rw [hv] at h
        dsimp only at h
        rcases hl : t.leave d n { f with ready } with e | f'
        · rw [hl] at h
          cases h
        · rw [hl] at h
          have hw := weight_leave hl
          simp only [weight, hr, List.length_cons] at hw hk
          exact nodup_of_walk k (by simp only [weight]; omega) (fresh_leave hf hr hl) h

/-- A full walk from a node that waits for nothing is over no more nodes than there are names. -/
theorem nodeCount_le_of_traverse {l : List NodeId}
    (hstart : (t.dependencies d)[(t.start d).index]? = some 0)
    (h : (t.traverse d true visit s).2 = .ok l) : t.nodeCount ≤ UInt32.size := by
  have hf : Fresh [] ⟨t.dependencies d, [t.start d]⟩ :=
    ⟨List.nodup_singleton _, fun n hn => List.mem_singleton.1 hn ▸ hstart⟩
  unfold traverse at h
  rcases hw : t.walk d visit s [] ⟨t.dependencies d, [t.start d]⟩ with ⟨s', e | visited⟩
  · rw [hw] at h
    cases h
  · have hnd : visited.Nodup :=
      nodup_of_walk _ (Nat.lt_succ_self _) hf (congrArg Prod.snd hw)
    rw [hw] at h
    by_cases hlen : visited.length = t.nodeCount
    · exact hlen ▸ length_le_of_nodup (fun _ _ => NodeId.index_inj.1) NodeId.index_lt hnd
    · simp [hlen, GraphCheck.refuse] at h

/-- Visits the given nodes one after the other, until a visit fails. -/
def visitAll (visit : Visitor σ) : List NodeId → σ → σ × GraphCheck Unit
  | [], s => (s, .ok ())
  | n :: l, s =>
    match visit n s with
    | (s, .error e) => (s, .error e)
    | (s, .ok ()) => visitAll visit l s

/-- Whether the tail of an edge is still to be visited. -/
def pending (t : Topology) (d : Direction) (visited : List NodeId) (e : EdgeId) : Bool :=
  match t.edges.get? e with
  | some edge => d.tail edge ∉ visited
  | none => false

/-- Each node waits for its pending edges, and those without any were visited or are ready. -/
structure Counts (t : Topology) (d : Direction) (p : EdgeId → Bool) (done : List NodeId)
    (f : Frontier) : Prop where
  count : ∀ {n : NodeId}, n.index < t.nodeCount →
    f.waiting[n.index]? = some ((t.listed n d.arrival).countP p)
  mem : ∀ {n : NodeId}, n.index < t.nodeCount → (t.listed n d.arrival).countP p = 0 →
    n ∈ done ++ f.ready
  lt : ∀ n ∈ done ++ f.ready, n.index < t.nodeCount

theorem countP_and_ne {p : EdgeId → Bool} {e : EdgeId} : ∀ {l : List EdgeId}, l.Nodup → e ∈ l →
    p e = true → l.countP p = l.countP (fun x => p x && x ≠ e) + 1
  | x :: l, hl, he, hp => by
    obtain ⟨hx, hl⟩ := List.nodup_cons.1 hl
    rcases List.mem_cons.1 he with rfl | he
    · have hrest : l.countP (fun x => p x && x ≠ e) = l.countP p :=
        List.countP_congr fun y hy => by
          have hne : y ≠ e := fun h => hx (h ▸ hy)
          simp [hne]
      rw [List.countP_cons_of_pos hp, List.countP_cons_of_neg (by simp), hrest]
    · have hne : x ≠ e := fun h => hx (h ▸ he)
      have ih := countP_and_ne hl he hp
      rw [List.countP_cons, List.countP_cons, ih]
      simp only [hne, ne_eq, not_false_eq_true, decide_true, Bool.and_true]
      omega

theorem countP_and_ne_of_notMem {p : EdgeId → Bool} {e : EdgeId} {l : List EdgeId} (he : e ∉ l) :
    l.countP (fun x => p x && x ≠ e) = l.countP p :=
  List.countP_congr fun y hy => by
    have hne : y ≠ e := fun h => he (h ▸ hy)
    simp [hne]

namespace Counts

variable {p q : EdgeId → Bool} {e : EdgeId} {edge : Edge}

theorem congr (hc : Counts t d p done f)
    (h : ∀ n, ∀ e ∈ t.listed n d.arrival, p e = q e) : Counts t d q done f := by
  have hcount : ∀ n, (t.listed n d.arrival).countP q = (t.listed n d.arrival).countP p := fun n =>
    List.countP_congr fun e he => by rw [h n e he]
  exact ⟨fun hn => by rw [hcount]; exact hc.count hn,
    fun hn h0 => hc.mem hn (hcount _ ▸ h0), hc.lt⟩

theorem arrive (ht : t.Sound) (hc : Counts t d p done f) (he : t.edges.get? e = some edge)
    (hp : p e = true) : ∃ f', f.arrive (d.head edge) = some f'
      ∧ Counts t d (fun x => p x && x ≠ e) done f' := by
  have hlt := ht.head_lt (d := d) he
  have hin : e ∈ t.listed (d.head edge) d.arrival := ht.mem_arrivals.2 ⟨edge, he, rfl⟩
  have hone := countP_and_ne (ht.nodup_listed (d.head edge) d.arrival) hin hp
  have hwait := hc.count hlt
  have hsize : (d.head edge).index < f.waiting.size := (Array.getElem?_eq_some_iff.1 hwait).1
  have other : ∀ {n}, n ≠ d.head edge → (t.listed n d.arrival).countP (fun x => p x && x ≠ e)
      = (t.listed n d.arrival).countP p := fun {n} hn => countP_and_ne_of_notMem fun hen => by
    obtain ⟨edge', he', rfl⟩ := ht.mem_arrivals.1 hen
    rw [he, Option.some.injEq] at he'
    exact hn (he' ▸ rfl)
  -- only the head of the edge waits for one less
  have count : ∀ {n : NodeId}, n.index < t.nodeCount →
      (f.waiting.setIfInBounds (d.head edge).index ((t.listed (d.head edge) d.arrival).countP
        fun x => p x && x ≠ e))[n.index]?
        = some ((t.listed n d.arrival).countP fun x => p x && x ≠ e) := fun {n} hn => by
    by_cases hne : n = d.head edge
    · subst hne
      rw [Array.getElem?_setIfInBounds_self_of_lt hsize]
    · rw [Array.getElem?_setIfInBounds_ne fun h => hne (NodeId.index_inj.1 h.symm), hc.count hn,
        other hne]
  rw [hone] at hwait
  unfold Frontier.arrive
  rw [hwait]
  rcases hk : (t.listed (d.head edge) d.arrival).countP (fun x => p x && x ≠ e) with _ | k
  · rw [hk] at count
    refine ⟨_, rfl, count, fun {n} hn h0 => ?_, fun n hn => ?_⟩
    · dsimp only
      rw [← List.append_assoc, List.mem_append, List.mem_singleton]
      by_cases hne : n = d.head edge
      · exact .inr hne
      · exact .inl (hc.mem hn (by rw [← other hne, h0]))
    · dsimp only at hn
      rw [← List.append_assoc, List.mem_append, List.mem_singleton] at hn
      rcases hn with hn | rfl
      · exact hc.lt n hn
      · exact hlt
  · rw [hk] at count
    refine ⟨_, rfl, count, fun {n} hn h0 => ?_, hc.lt⟩
    have hne : n ≠ d.head edge := fun h => by
      rw [h, hk] at h0
      cases h0
    exact hc.mem hn (by rw [← other hne, h0])

theorem follow (ht : t.Sound) : ∀ {es : List EdgeId} {p : EdgeId → Bool} {f : Frontier},
    Counts t d p done f → es.Nodup → (∀ e ∈ es, p e = true ∧ ∃ edge, t.edges.get? e = some edge) →
    ∃ f', t.follow d n es f = .ok f' ∧ Counts t d (fun x => p x && x ∉ es) done f'
  | [], p, f, hc, _, _ => ⟨f, rfl, hc.congr fun _ _ _ => by simp⟩
  | e :: es, p, f, hc, hes, hp => by
    obtain ⟨he, hes⟩ := List.nodup_cons.1 hes
    obtain ⟨⟨hpe, edge, hget⟩, hp⟩ := List.forall_mem_cons.1 hp
    obtain ⟨g, hg, hc⟩ := hc.arrive ht hget hpe
    obtain ⟨f', hf, hc⟩ := follow ht hc hes fun x hx => by
      obtain ⟨hpx, hxe⟩ := hp x hx
      have hne : x ≠ e := fun h => he (h ▸ hx)
      exact ⟨by simp [hpx, hne], hxe⟩
    refine ⟨f', ?_, hc.congr fun _ x _ => ?_⟩
    · unfold Topology.follow
      rw [hget]
      dsimp only
      rw [hg]
      exact hf
    · simp only [List.mem_cons, not_or, Bool.decide_and, Bool.and_assoc]

theorem leave (ht : t.Sound) {ready : List NodeId} (hf : Fresh visited f)
    (hc : Counts t d (t.pending d visited) visited f) (hr : f.ready = n :: ready) :
    ∃ f', t.leave d n { f with ready } = .ok f'
      ∧ Counts t d (t.pending d (n :: visited)) (n :: visited) f' := by
  have hmem : ∀ m, m ∈ n :: visited ++ ready ↔ m ∈ visited ++ f.ready := fun m => by
    rw [hr]
    have hperm : (visited ++ n :: ready).Perm (n :: (visited ++ ready)) := List.perm_middle
    exact hperm.symm.mem_iff
  have hn : n ∉ visited := fun h => by
    have := hf.nodup
    rw [hr] at this
    exact List.disjoint_of_nodup_append this h List.mem_cons_self
  have hlt : n.index < t.nodeCount := hc.lt n (by rw [hr]; simp)
  have hc : Counts t d (t.pending d visited) (n :: visited) { f with ready } :=
    ⟨hc.count, fun hm h0 => (hmem _).2 (hc.mem hm h0), fun m hm => hc.lt m ((hmem m).1 hm)⟩
  obtain ⟨f', hf', hc⟩ := hc.follow ht (n := n) (ht.nodup_listed n d.departure) fun e he => by
    obtain ⟨edge, hget, htail⟩ := ht.mem_departures.1 he
    refine ⟨?_, edge, hget⟩
    rw [pending, hget]
    simp [htail, hn]
  refine ⟨f', leave_eq_ok_iff.2 ⟨_, downstream_eq_ok hlt, hf'⟩, hc.congr fun m e he => ?_⟩
  obtain ⟨edge, hget, -⟩ := ht.mem_arrivals.1 he
  have hdep : e ∈ t.listed n d.departure ↔ d.tail edge = n := by
    rw [ht.mem_departures]
    constructor
    · rintro ⟨edge', h, htail⟩
      rw [hget, Option.some.injEq] at h
      exact h ▸ htail
    · exact fun h => ⟨edge, hget, h⟩
  rw [pending, pending, hget]
  simp only [hdep, List.mem_cons, not_or, Bool.decide_and]
  exact Bool.and_comm _ _

end Counts

/-- The nodes from a point of a walk on: distinct, and each after the tails of the edges that it
waits for. No node is left out whose tails are all there. -/
structure Continues (t : Topology) (d : Direction) (visited rest : List NodeId) : Prop where
  nodup : (visited ++ rest).Nodup
  lt : ∀ n ∈ visited ++ rest, n.index < t.nodeCount
  tail_mem : ∀ {l₁ n l₂ e edge}, rest = l₁ ++ n :: l₂ → t.edges.get? e = some edge →
    d.head edge = n → d.tail edge ∈ visited ++ l₁
  mem : ∀ {n : NodeId}, n.index < t.nodeCount → (∀ {e edge}, t.edges.get? e = some edge →
    d.head edge = n → d.tail edge ∈ visited ++ rest) → n ∈ visited ++ rest

theorem countP_pending_eq_zero (ht : t.Sound) : (t.listed n d.arrival).countP (t.pending d visited) = 0
    ↔ ∀ {e edge}, t.edges.get? e = some edge → d.head edge = n → d.tail edge ∈ visited := by
  rw [List.countP_eq_zero]
  constructor
  · intro h e edge hget hn
    have := h e (ht.mem_arrivals.2 ⟨edge, hget, hn⟩)
    rw [pending, hget] at this
    simpa using this
  · intro h e he
    obtain ⟨edge, hget, hn⟩ := ht.mem_arrivals.1 he
    rw [pending, hget]
    simpa using h hget hn

/-- A walk visits the same nodes whatever is done at them. -/
theorem exists_walk (ht : t.Sound) : ∀ (k : ℕ) {visited : List NodeId} {f : Frontier}, f.weight < k →
    Fresh visited f → Counts t d (t.pending d visited) visited f →
    ∃ rest, Continues t d visited.reverse rest ∧ ∀ {σ : Type} (visit : Visitor σ) (s : σ),
      t.walk d visit s visited f = ((visitAll visit rest s).1,
        (visitAll visit rest s).2.map fun _ => visited.reverse ++ rest)
  | k + 1, visited, f, hk, hf, hc => by
    rcases hr : f.ready with _ | ⟨n, ready⟩
    · refine ⟨[], ⟨?_, ?_, ?_, ?_⟩, fun visit s => ?_⟩
      · have := hf.nodup
        rw [hr, List.append_nil] at this
        simpa using this
      · simpa [hr] using hc.lt
      · intro l₁ n l₂ e edge h
        simp at h
      · intro n hn h
        have := hc.mem hn ((countP_pending_eq_zero ht).2 fun hget hh => by simpa using h hget hh)
        simpa [hr] using this
      · rw [walk_nil hr]
        simp [visitAll, Except.map]
    · obtain ⟨f', hl, hc'⟩ := hc.leave ht hf hr
      have hw := weight_leave hl
      simp only [weight, hr, List.length_cons] at hw hk
      obtain ⟨rest, hrest, hwalk⟩ := exists_walk ht k (by simp only [weight]; omega)
        (fresh_leave hf hr hl) hc'
      rw [List.reverse_cons] at hrest
      have happ : visited.reverse ++ [n] ++ rest = visited.reverse ++ n :: rest := by simp
      refine ⟨n :: rest, ⟨happ ▸ hrest.nodup, happ ▸ hrest.lt, ?_, happ ▸ hrest.mem⟩,
        fun visit s => ?_⟩
      · intro l₁ m l₂ e edge h hget hm
        rcases l₁ with _ | ⟨n', l₁⟩
        -- the first node to be visited was ready, so it waits for nothing
        · obtain ⟨rfl, -⟩ := List.cons.inj h
          have hwait := hf.waiting n (by rw [hr]; simp)
          rw [hc.count (hc.lt n (by rw [hr]; simp)), Option.some.injEq] at hwait
          simpa using (countP_pending_eq_zero ht).1 hwait hget hm
        · obtain ⟨rfl, hsplit⟩ := List.cons.inj h
          simpa using hrest.tail_mem hsplit hget hm
      · rw [walk_cons hr, visitAll]
        rcases visit n s with ⟨s', e | ⟨⟩⟩
        · rfl
        · dsimp only
          rw [hl]
          dsimp only
          rw [hwalk visit s', List.reverse_cons, happ]

/-- An order in which to visit all nodes: each edge goes from an earlier node to a later one. -/
structure Schedule (t : Topology) (d : Direction) (l : List NodeId) : Prop where
  nodup : l.Nodup
  mem_iff : ∀ n : NodeId, n ∈ l ↔ n.index < t.nodeCount
  before : ∀ {e edge}, t.edges.get? e = some edge → l.idxOf (d.tail edge) < l.idxOf (d.head edge)

namespace Schedule

variable {l : List NodeId} (hl : t.Schedule d l)
include hl

theorem perm (hcount : t.nodeCount ≤ UInt32.size) :
    l.Perm ((List.range t.nodeCount).map NodeId.ofIndex) := by
  have hnd : (l.map NodeId.index).Nodup := hl.nodup.map fun _ _ => NodeId.index_inj.1
  have hperm : (l.map NodeId.index).Perm (List.range t.nodeCount) := by
    refine (List.perm_ext_iff_of_nodup hnd List.nodup_range).2 fun i => ?_
    rw [List.mem_map, List.mem_range]
    constructor
    · rintro ⟨n, hn, rfl⟩
      exact (hl.mem_iff n).1 hn
    · intro hi
      have hidx := NodeId.index_ofIndex (hi.trans_le hcount)
      exact ⟨.ofIndex i, (hl.mem_iff _).2 (by rwa [hidx]), hidx⟩
  have hback : (l.map NodeId.index).map NodeId.ofIndex = l := by
    rw [List.map_map]
    exact (List.map_congr_left fun n _ => n.ofIndex_index).trans (List.map_id l)
  exact hback ▸ hperm.map NodeId.ofIndex

theorem length_eq (hcount : t.nodeCount ≤ UInt32.size) : l.length = t.nodeCount := by
  rw [(hl.perm hcount).length_eq, List.length_map, List.length_range]

end Schedule

theorem acyclic_of_schedule {l : List NodeId} (hl : t.Schedule d l) : t.Acyclic := by
  have mono : ∀ {m n}, Relation.TransGen (t.Adj d) m n → l.idxOf m < l.idxOf n := by
    intro m n h
    induction h with
    | single h =>
      obtain ⟨e, edge, hget, rfl, rfl⟩ := h
      exact hl.before hget
    | tail _ h ih =>
      obtain ⟨e, edge, hget, rfl, rfl⟩ := h
      exact ih.trans (hl.before hget)
  intro n hn
  cases d with
  | forward => exact lt_irrefl _ (mono hn)
  | adjoint =>
    refine lt_irrefl (l.idxOf n) (mono (Relation.transGen_swap.1 ?_))
    exact Relation.TransGen.mono (fun _ _ => adj_swap.2) _ _ hn

namespace Continues

variable {l : List NodeId} (hl : t.Continues d [] l)
include hl

theorem schedule (ht : t.Sound) (hall : ∀ n : NodeId, n.index < t.nodeCount → n ∈ l) :
    t.Schedule d l := by
  have hnd : l.Nodup := hl.nodup
  refine ⟨hnd, fun n => ⟨hl.lt n, hall n⟩, fun {e edge} hget => ?_⟩
  obtain ⟨l₁, l₂, rfl⟩ := List.append_of_mem (hall _ (ht.head_lt (d := d) hget))
  have htail : d.tail edge ∈ l₁ := hl.tail_mem rfl hget rfl
  have hnot : d.head edge ∉ l₁ := fun hm =>
    List.disjoint_of_nodup_append hnd hm List.mem_cons_self
  rw [List.idxOf_append_of_mem htail, List.idxOf_append_of_notMem hnot, List.idxOf_cons_self]
  exact Nat.lt_add_right _ (List.idxOf_lt_length_of_mem htail)

theorem mem_of_acyclic (ht : t.Sound) (hac : t.Acyclic) (n : NodeId) :
    n.index < t.nodeCount → n ∈ l := by
  induction n using (hac.wellFounded d).induction with
  | _ n ih =>
    intro hn
    exact hl.mem hn fun {e edge} hget hhead =>
      ih _ ⟨e, edge, hget, rfl, hhead⟩ (ht.tail_lt hget)

theorem mem_of_length (hlen : l.length = t.nodeCount) {n : NodeId} (hn : n.index < t.nodeCount) :
    n ∈ l := by
  have hnd : l.Nodup := hl.nodup
  have hmem := mem_of_nodup_of_length (hnd.map fun _ _ => NodeId.index_inj.1)
    (fun i hi => by
      obtain ⟨m, hm, rfl⟩ := List.mem_map.1 hi
      exact hl.lt m hm) (by rw [List.length_map, hlen]) hn
  obtain ⟨m, hm, h⟩ := List.mem_map.1 hmem
  exact NodeId.index_inj.1 h ▸ hm

end Continues

/-- Where a walk starts. -/
theorem counts_start (ht : t.Sound) (d : Direction) : Fresh [] ⟨t.dependencies d, [t.start d]⟩
    ∧ Counts t d (t.pending d []) [] ⟨t.dependencies d, [t.start d]⟩ := by
  have hcount : ∀ n : NodeId,
      (t.listed n d.arrival).countP (t.pending d []) = (t.listed n d.arrival).length := fun n => by
    rw [List.countP_eq_length]
    intro e he
    obtain ⟨edge, hget, -⟩ := ht.mem_arrivals.1 he
    rw [pending, hget]
    simp
  have hdep : ∀ {n : NodeId}, n.index < t.nodeCount →
      (t.dependencies d)[n.index]? = some (t.listed n d.arrival).length := fun {n} hn => by
    rw [dependencies, Array.getElem?_map, listed, Array.getElem?_eq_getElem hn]
    rfl
  refine ⟨⟨List.nodup_singleton _, fun n hn => ?_⟩, fun hn => by rw [hcount, hdep hn],
    fun {n} hn h0 => ?_, fun n hn => ?_⟩
  · obtain rfl := List.mem_singleton.1 hn
    rw [hdep (ht.start_lt d), ht.start_listed]
    rfl
  · by_contra hne
    refine ht.arrival_ne hn (fun h => hne (List.mem_singleton.2 h)) ?_
    exact List.eq_nil_of_length_eq_zero (hcount n ▸ h0)
  · obtain rfl := List.mem_singleton.1 hn
    exact ht.start_lt d

theorem exists_walk_start (ht : t.Sound) (d : Direction) : ∃ l, Continues t d [] l
    ∧ ∀ {σ : Type} (visit : Visitor σ) (s : σ),
      t.walk d visit s [] ⟨t.dependencies d, [t.start d]⟩
        = ((visitAll visit l s).1, (visitAll visit l s).2.map fun _ => l) := by
  obtain ⟨hf, hc⟩ := counts_start ht d
  exact exists_walk ht _ (Nat.lt_succ_self _) hf hc

/-- Without a cycle, a full walk visits along a schedule. -/
theorem exists_traverse (ht : t.Sound) (hcount : t.nodeCount ≤ UInt32.size) (hac : t.Acyclic)
    (d : Direction) : ∃ l, t.Schedule d l ∧ ∀ {σ : Type} (verify : Bool) (visit : Visitor σ) (s : σ),
      t.traverse d verify visit s
        = ((visitAll visit l s).1, (visitAll visit l s).2.map fun _ => l) := by
  obtain ⟨l, hl, hwalk⟩ := exists_walk_start ht d
  have hsched := hl.schedule ht fun n => hl.mem_of_acyclic ht hac n
  refine ⟨l, hsched, fun verify visit s => ?_⟩
  unfold traverse
  rw [hwalk visit s]
  rcases visitAll visit l s with ⟨s', e | ⟨⟩⟩
  · rfl
  · simp [Except.map, hsched.length_eq hcount]

theorem visitAll_ok (hv : ∀ n s, (visit n s).2 = .ok ()) :
    ∀ (l : List NodeId) (s : σ), (visitAll visit l s).2 = .ok ()
  | [], _ => rfl
  | n :: l, s => by
    have h := hv n s
    rw [visitAll]
    rcases hvis : visit n s with ⟨s', e | ⟨⟩⟩
    · rw [hvis] at h
      cases h
    · exact visitAll_ok hv l s'

/-- A full walk with a visitor that never fails succeeds exactly if there is no cycle. -/
theorem traverse_isOk_iff (ht : t.Sound) (hcount : t.nodeCount ≤ UInt32.size) (d : Direction)
    (hv : ∀ n s, (visit n s).2 = .ok ()) (s : σ) :
    (∃ l, (t.traverse d true visit s).2 = .ok l) ↔ t.Acyclic := by
  constructor
  · rintro ⟨l', h⟩
    obtain ⟨l, hl, hwalk⟩ := exists_walk_start ht d
    have hok := visitAll_ok hv l s
    unfold traverse at h
    rw [hwalk visit s] at h
    rcases hva : visitAll visit l s with ⟨s', e | ⟨⟩⟩
    · rw [hva] at hok
      cases hok
    · rw [hva] at h
      by_cases hlen : l.length = t.nodeCount
      · exact acyclic_of_schedule (hl.schedule ht fun n => hl.mem_of_length hlen)
      · simp [Except.map, hlen, GraphCheck.refuse] at h
  · intro hac
    obtain ⟨l, -, htr⟩ := exists_traverse ht hcount hac d
    exact ⟨l, by rw [htr, visitAll_ok hv l s]; rfl⟩

end Topology

end MatrixFree
