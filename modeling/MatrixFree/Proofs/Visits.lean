import MatrixFree.Proofs.Walks

/-!
# Visits of a walk

What a walk visits on a topology that nobody checked. Whatever is done at the nodes, it goes along
one `Topology.Trail`. On a trail each node uses up what the frontier grants it
(`Frontier.visitsLeft`): one visit when the last edge that it waits for arrives, and one more if it
stands ready from the outset. So only the start can be visited twice (`Topology.Trail.exists_rest`).
A verified walk counts its visits, and a second visit of the start stands in for a node that it
never came to (`Topology.traverse_verified`).
-/

namespace MatrixFree

namespace Frontier

variable {f f' : Frontier} {m n : NodeId}

/-- How often a node can still be visited. -/
def visitsLeft (f : Frontier) (n : NodeId) : ℕ :=
  f.ready.count n + if f.waiting.getD n.index 0 = 0 then 0 else 1

/-- What an arrival changes. -/
theorem arrive_eq_some (h : f.arrive m = some f') : ∃ k, f.waiting[m.index]? = some k
    ∧ f' = ⟨f.waiting.setIfInBounds m.index (k - 1), f.ready ++ if k = 1 then [m] else []⟩ := by
  unfold arrive at h
  split at h
  · cases h
  next hw =>
    obtain ⟨hlt, hget⟩ := Array.getElem?_eq_some_iff.1 hw
    have hset : f.waiting.setIfInBounds m.index 0 = f.waiting := by
      rw [Array.setIfInBounds, dif_pos hlt, ← hget, Array.set_getElem_self]
    exact ⟨0, hw, by simp [← Option.some.inj h, hset]⟩
  next hw => exact ⟨1, hw, (Option.some.inj h).symm⟩
  next k hw => exact ⟨k + 2, hw, by simp [← Option.some.inj h]⟩

theorem visitsLeft_arrive (h : f.arrive m = some f') : f'.visitsLeft n = f.visitsLeft n := by
  obtain ⟨k, hk, rfl⟩ := arrive_eq_some h
  have hlt := (Array.getElem?_eq_some_iff.1 hk).1
  unfold visitsLeft
  rw [List.count_append, Array.getD_eq_getD_getElem?, Array.getD_eq_getD_getElem?]
  by_cases hn : n = m
  · subst hn
    rw [Array.getElem?_setIfInBounds_self_of_lt hlt, hk, Option.getD_some, Option.getD_some]
    rcases k with _ | _ | k <;> simp
  · have hne : (if k = 1 then [m] else []).count n = 0 := by
      split <;> simp [Ne.symm hn]
    rw [Array.getElem?_setIfInBounds_ne fun h => hn (NodeId.index_inj.1 h.symm), hne,
      Nat.add_zero]

theorem visitsLeft_cons {ready : List NodeId} (hr : f.ready = m :: ready) :
    f.visitsLeft n = [m].count n + visitsLeft { f with ready } n := by
  rw [visitsLeft, visitsLeft, hr, List.count_cons, List.count_singleton]
  dsimp only
  omega

/-- The nodes that are ready are nodes of a topology of `count` nodes. -/
structure InRange (count : ℕ) (f : Frontier) : Prop where
  size : f.waiting.size = count
  lt : ∀ n ∈ f.ready, n.index < count

theorem InRange.tail {count : ℕ} {ready : List NodeId} (hf : f.InRange count)
    (hr : f.ready = m :: ready) : InRange count { f with ready } :=
  ⟨hf.size, fun n hn => hf.lt n (hr ▸ List.mem_cons_of_mem _ hn)⟩

theorem InRange.arrive {count : ℕ} (hf : f.InRange count) (h : f.arrive m = some f') :
    f'.InRange count := by
  obtain ⟨k, hk, rfl⟩ := arrive_eq_some h
  have hlt : m.index < count := hf.size ▸ (Array.getElem?_eq_some_iff.1 hk).1
  refine ⟨by rw [Array.size_setIfInBounds, hf.size], fun n hn => ?_⟩
  rcases List.mem_append.1 hn with hn | hn
  · exact hf.lt n hn
  · split at hn
    · exact List.mem_singleton.1 hn ▸ hlt
    · cases hn

end Frontier

namespace Topology

open Frontier

variable {t : Topology} {d : Direction} {n : NodeId} {f f' : Frontier} {l : List NodeId}
  {σ : Type} {visit : Visitor σ}

theorem follow_eq_error {e : GraphError} : ∀ {es : List EdgeId} {f : Frontier},
    t.follow d n es f = .error e →
    (∃ id, e = .unknownEdge n id) ∨ ∃ m, e = .nodeOutOfRange m t.nodeCount
  | [], f, h => by cases h
  | id :: es, f, h => by
    unfold follow at h
    split at h
    · exact .inl ⟨id, (Except.error.inj h).symm⟩
    · split at h
      · exact .inr ⟨_, (Except.error.inj h).symm⟩
      · exact follow_eq_error h

theorem leave_keeps {P : Frontier → Prop} (hP : ∀ {f f' m}, P f → f.arrive m = some f' → P f')
    (hf : P f) (h : t.leave d n f = .ok f') : P f' := by
  obtain ⟨es, -, h⟩ := leave_eq_ok_iff.1 h
  exact follow_keeps hP hf h

theorem visitsLeft_leave (h : t.leave d n f = .ok f') (m : NodeId) :
    f'.visitsLeft m = f.visitsLeft m :=
  leave_keeps (P := fun g => g.visitsLeft m = f.visitsLeft m)
    (fun hg ha => (visitsLeft_arrive ha).trans hg) rfl h

/-- A node of the topology can be left, unless an edge of it leads nowhere. -/
theorem leave_eq_error {stop : Stop GraphError} (hn : n.index < t.nodeCount)
    (h : t.leave d n f = .error stop) :
    (∃ id, stop = .fault (.unknownEdge n id))
      ∨ ∃ m, stop = .fault (.nodeOutOfRange m t.nodeCount) := by
  unfold leave at h
  rw [downstream_eq_ok hn] at h
  rcases hf : t.follow d n (t.listed n d.departure) f with e | g
  · rw [Checked.lift, ok_bind, hf] at h
    rcases follow_eq_error hf with ⟨id, rfl⟩ | ⟨m, rfl⟩
    · exact .inl ⟨id, (Except.error.inj h).symm⟩
    · exact .inr ⟨m, (Except.error.inj h).symm⟩
  · rw [Checked.lift, ok_bind, hf] at h
    cases h

/-- The nodes that a walk visits from a frontier on, in this order, and how it ends: with no node
ready, or at a node with an edge that leads nowhere. -/
inductive Trail (t : Topology) (d : Direction) : Frontier → List NodeId → GraphCheck Unit → Prop
  | done {f : Frontier} : f.ready = [] → Trail t d f [] (.ok ())
  | stop {f : Frontier} {n : NodeId} {ready : List NodeId} {stop : Stop GraphError} :
      f.ready = n :: ready → t.leave d n { f with ready } = .error stop →
      Trail t d f [n] (.error stop)
  | visit {f f' : Frontier} {n : NodeId} {ready l : List NodeId} {r : GraphCheck Unit} :
      f.ready = n :: ready → t.leave d n { f with ready } = .ok f' → Trail t d f' l r →
      Trail t d f (n :: l) r

theorem exists_trail (t : Topology) (d : Direction) : ∀ (k : ℕ) {f : Frontier}, f.weight < k →
    ∃ l r, Trail t d f l r
  | k + 1, f, hk => by
    rcases hr : f.ready with _ | ⟨n, ready⟩
    · exact ⟨[], .ok (), .done hr⟩
    · rcases hl : t.leave d n { f with ready } with stop | f'
      · exact ⟨[n], .error stop, .stop hr hl⟩
      · have hw := weight_leave hl
        simp only [weight, hr, List.length_cons] at hw hk
        obtain ⟨l, r, h⟩ := exists_trail t d k (f := f') (by simp only [weight]; omega)
        exact ⟨n :: l, r, .visit hr hl h⟩

namespace Trail

variable {r : GraphCheck Unit} (h : Trail t d f l r)
include h

/-- Every walk goes along the trail, until it is stopped at a node. -/
theorem walk_eq (visit : Visitor σ) : ∀ (s : σ) (visited : List NodeId),
    t.walk d visit s visited f = ((visitAll visit l s).1,
      (visitAll visit l s).2 >>= fun _ => r.map fun _ => visited.reverse ++ l) := by
  induction h with
  | done hr =>
    intro s visited
    rw [walk_nil hr]
    simp [visitAll, Except.map, ok_bind]
  | @stop f n ready stop hr hl =>
    intro s visited
    rw [walk_cons hr, visitAll]
    rcases visit n s with ⟨s', e | ⟨⟩⟩
    · rfl
    · dsimp only
      rw [hl]
      rfl
  | @visit f f' n ready l r hr hl _ ih =>
    intro s visited
    rw [walk_cons hr, visitAll]
    rcases visit n s with ⟨s', e | ⟨⟩⟩
    · rfl
    · dsimp only
      rw [hl]
      dsimp only
      rw [ih s' (n :: visited), List.reverse_cons, List.append_assoc]
      rfl

/-- No node is visited more often than the frontier grants. -/
theorem count_le (m : NodeId) : l.count m ≤ f.visitsLeft m := by
  induction h with
  | done _ => exact Nat.zero_le _
  | stop hr _ =>
    rw [visitsLeft_cons hr]
    exact Nat.le_add_right _ _
  | visit hr hl _ ih =>
    rw [visitsLeft_leave hl] at ih
    rw [visitsLeft_cons hr, List.count_cons, List.count_singleton, Nat.add_comm]
    exact Nat.add_le_add_left ih _

theorem lt (hf : f.InRange t.nodeCount) : ∀ n ∈ l, n.index < t.nodeCount := by
  induction h with
  | done _ => exact fun _ hn => absurd hn List.not_mem_nil
  | stop hr _ =>
    intro n hn
    exact hf.lt n (hr ▸ List.mem_singleton.1 hn ▸ List.mem_cons_self)
  | visit hr hl _ ih =>
    have hrest := ih (leave_keeps InRange.arrive (hf.tail hr) hl)
    exact List.forall_mem_cons.2 ⟨hf.lt _ (hr ▸ List.mem_cons_self), hrest⟩

/-- A trail ends with no node ready, unless it comes to an edge that leads nowhere. -/
theorem end_eq (hf : f.InRange t.nodeCount) : r = .ok ()
    ∨ (∃ n id, r = .error (.fault (.unknownEdge n id)))
    ∨ ∃ m, r = .error (.fault (.nodeOutOfRange m t.nodeCount)) := by
  induction h with
  | done _ => exact .inl rfl
  | stop hr hl =>
    rcases leave_eq_error (hf.lt _ (hr ▸ List.mem_cons_self)) hl with ⟨id, rfl⟩ | ⟨m, rfl⟩
    · exact .inr (.inl ⟨_, id, rfl⟩)
    · exact .inr (.inr ⟨m, rfl⟩)
  | visit hr hl _ ih =>
    exact ih (leave_keeps InRange.arrive (hf.tail hr) hl)

end Trail

section Start

variable (hstart : (t.start d).index < t.nodeCount)
include hstart

theorem inRange_start : Frontier.InRange t.nodeCount ⟨t.dependencies d, [t.start d]⟩ :=
  ⟨Array.size_map, fun _ hn => List.mem_singleton.1 hn ▸ hstart⟩

/-- A walk visits the start and then nodes that are all different. The start can be one of them only
if it waits for an edge itself. -/
theorem Trail.exists_rest {r : GraphCheck Unit}
    (h : Trail t d ⟨t.dependencies d, [t.start d]⟩ l r) : ∃ rest, l = t.start d :: rest
      ∧ rest.Nodup ∧ (∀ n ∈ rest, n.index < t.nodeCount)
      ∧ (t.listed (t.start d) d.arrival = [] → t.start d ∉ rest) := by
  have hlt := h.lt (inRange_start hstart)
  have hcount : ∀ n, l.count n ≤ ([t.start d].count n
      + if (t.dependencies d).getD n.index 0 = 0 then 0 else 1) := h.count_le
  obtain ⟨rest, rfl⟩ : ∃ rest, l = t.start d :: rest := by
    cases h with
    | done hr => cases hr
    | stop hr _ => exact ⟨[], by rw [(List.cons.inj hr).1]⟩
    | visit hr _ _ => exact ⟨_, by rw [(List.cons.inj hr).1]⟩
  refine ⟨rest, rfl, List.nodup_iff_count_le_one.2 fun n => ?_, (List.forall_mem_cons.1 hlt).2,
    fun hnil => List.count_eq_zero.1 ?_⟩
  · have hbit : (if (t.dependencies d).getD n.index 0 = 0 then 0 else 1) ≤ 1 := by
      split <;> omega
    have := hcount n
    rw [List.count_cons, List.count_singleton] at this
    omega
  · have hdep : (t.dependencies d).getD (t.start d).index 0 = 0 := by
      have hget : t.adjacency[(t.start d).index]? = some t.adjacency[(t.start d).index] :=
        Array.getElem?_eq_getElem hstart
      rw [listed, hget] at hnil
      rw [dependencies, Array.getD_eq_getD_getElem?, Array.getElem?_map, hget]
      exact congrArg List.length hnil
    have := hcount (t.start d)
    rw [if_pos hdep, List.count_cons_self, List.count_singleton_self] at this
    omega

end Start

/-- The places of the nodes that are not in a list. -/
def placesLeft (t : Topology) (l : List NodeId) : List ℕ :=
  (List.range t.nodeCount).filter fun i => !l.any (·.index = i)

theorem mem_placesLeft {i : ℕ} :
    i ∈ t.placesLeft l ↔ i < t.nodeCount ∧ ∀ n ∈ l, n.index ≠ i := by
  simp [placesLeft]

theorem length_add_placesLeft (hl : l.Nodup) (hlt : ∀ n ∈ l, n.index < t.nodeCount) :
    l.length + (t.placesLeft l).length = t.nodeCount := by
  have hperm : (l.map NodeId.index).Perm
      ((List.range t.nodeCount).filter fun i => l.any (·.index = i)) := by
    refine (List.perm_ext_iff_of_nodup (hl.map fun _ _ => NodeId.index_inj.1)
      (List.nodup_range.filter _)).2 fun i => ?_
    rw [List.mem_map, List.mem_filter, List.mem_range, List.any_eq_true]
    constructor
    · rintro ⟨n, hn, rfl⟩
      exact ⟨hlt n hn, n, hn, decide_eq_true rfl⟩
    · rintro ⟨-, n, hn, h⟩
      exact ⟨n, hn, of_decide_eq_true h⟩
  have hsplit := List.length_eq_length_filter_add (l := List.range t.nodeCount)
    fun i => l.any (·.index = i)
  rw [List.length_range, ← hperm.length_eq, List.length_map] at hsplit
  exact hsplit.symm

/-- A second visit of the start counts as one of a node that is left. -/
theorem length_cons_add_placesLeft {rest : List NodeId} (hn : n.index < t.nodeCount)
    (hrest : rest.Nodup) (hlt : ∀ m ∈ rest, m.index < t.nodeCount) :
    (n :: rest).length + (t.placesLeft (n :: rest)).length = t.nodeCount + rest.count n := by
  by_cases hmem : n ∈ rest
  · have hleft : t.placesLeft (n :: rest) = t.placesLeft rest := by
      refine List.filter_congr fun i _ => congrArg _ ?_
      rw [List.any_cons, Bool.or_eq_right_iff_imp]
      exact fun h => List.any_eq_true.2 ⟨n, hmem, h⟩
    have := length_add_placesLeft hrest hlt
    rw [hleft, List.length_cons, List.count_eq_one_of_mem hrest hmem]
    omega
  · rw [List.count_eq_zero.2 hmem]
    exact length_add_placesLeft (List.nodup_cons.2 ⟨hmem, hrest⟩) (List.forall_mem_cons.2 ⟨hn, hlt⟩)

theorem placesLeft_eq_nil_iff (hl : l.Nodup) :
    t.placesLeft l = [] ↔ ∀ i < t.nodeCount, (l.map NodeId.index).count i = 1 := by
  have hnd : (l.map NodeId.index).Nodup := hl.map fun _ _ => NodeId.index_inj.1
  rw [List.eq_nil_iff_forall_not_mem]
  constructor
  · intro h i hi
    refine List.count_eq_one_of_mem hnd (List.mem_map.2 ?_)
    by_contra hnone
    exact h i (mem_placesLeft.2 ⟨hi, fun n hn heq => hnone ⟨n, hn, heq⟩⟩)
  · intro h i hi
    obtain ⟨hlt, hne⟩ := mem_placesLeft.1 hi
    obtain ⟨n, hn, heq⟩ := List.mem_map.1 (List.count_pos_iff.1 (h i hlt ▸ Nat.one_pos))
    exact hne n hn heq

/-- The visits of a walk: of the start, and then of the nodes in `rest`, which are all different.
The nodes in the places `left` are not visited. -/
structure Visits (t : Topology) (d : Direction) (rest : List NodeId) (left : List ℕ) : Prop where
  nodup : rest.Nodup
  lt : ∀ n ∈ rest, n.index < t.nodeCount
  start_notMem : t.listed (t.start d) d.arrival = [] → t.start d ∉ rest
  ascending : left.Pairwise (· < ·)
  mem_left : ∀ i, i ∈ left ↔ i < t.nodeCount ∧ ∀ n ∈ t.start d :: rest, n.index ≠ i

/-- A full walk calls its visitor along the trail, and counts the visits if none of them failed. -/
theorem Trail.traverse_eq_bind {r : GraphCheck Unit}
    (h : Trail t d ⟨t.dependencies d, [t.start d]⟩ l r) (verify : Bool) (visit : Visitor σ) (s : σ) :
    t.traverse d verify visit s = ((visitAll visit l s).1, (visitAll visit l s).2 >>= fun _ =>
      r >>= fun _ => if verify ∧ l.length ≠ t.nodeCount
        then .error (.fault (.unvisited d (t.missing l))) else .ok l) := by
  unfold traverse
  rw [h.walk_eq visit s []]
  rcases (visitAll visit l s).2 with stop | ⟨⟩
  · rfl
  · rcases r with stop | ⟨⟩
    · rfl
    · simp only [Except.map, ok_bind, List.reverse_nil, List.nil_append, GraphCheck.refuse]
      split <;> rfl

/-- A visitor that never fails is led along the whole trail. -/
theorem Trail.traverse_eq {r : GraphCheck Unit}
    (h : Trail t d ⟨t.dependencies d, [t.start d]⟩ l r) (hv : ∀ n s, (visit n s).2 = .ok ())
    (s : σ) : t.traverse d true visit s = ((visitAll visit l s).1, r >>= fun _ =>
      if l.length = t.nodeCount then .ok l else .error (.fault (.unvisited d (t.missing l)))) := by
  rw [h.traverse_eq_bind true visit s, visitAll_ok hv, ok_bind]
  simp only [ne_eq, true_and, ite_not]

/-- What a verified walk says if it comes to no edge that leads nowhere. It passes exactly if it
visited the start as often too many as it left out nodes, and names those that it left out
otherwise. So as long as it does not come back to the start, it passes exactly if it visited each
node once, and it names a node otherwise. -/
theorem traverse_verified (hstart : (t.start d).index < t.nodeCount)
    (hedge : ∀ n id, t.order d ≠ .error (.fault (.unknownEdge n id)))
    (hnode : ∀ n count, t.order d ≠ .error (.fault (.nodeOutOfRange n count))) :
    ∃ rest left, t.Visits d rest left
      ∧ (∀ {σ : Type} (visit : Visitor σ) (s : σ), (∀ n s, (visit n s).2 = .ok ()) →
          t.traverse d true visit s = ((visitAll visit (t.start d :: rest) s).1,
            if left.length = rest.count (t.start d) then .ok (t.start d :: rest)
            else .error (.fault (.unvisited d (left.map .ofIndex)))))
      ∧ (t.start d ∉ rest →
          ((∃ l, t.order d = .ok l)
            ↔ ∀ i < t.nodeCount, ((t.start d :: rest).map NodeId.index).count i = 1)
          ∧ ((∀ l, t.order d ≠ .ok l) → left ≠ [])) := by
  obtain ⟨l, r, h⟩ := exists_trail t d _ (Nat.lt_succ_self
    (Frontier.weight ⟨t.dependencies d, [t.start d]⟩))
  obtain ⟨rest, rfl, hnodup, hlt, hnot⟩ := h.exists_rest hstart
  have horder : t.order d = (r >>= fun _ => if (t.start d :: rest).length = t.nodeCount
      then .ok (t.start d :: rest)
      else .error (.fault (.unvisited d (t.missing (t.start d :: rest))))) := by
    unfold order
    rw [h.traverse_eq fun _ _ => rfl]
  obtain rfl : r = .ok () := by
    rcases h.end_eq (inRange_start hstart) with rfl | ⟨n, id, rfl⟩ | ⟨n, rfl⟩
    · rfl
    · exact absurd horder (hedge n id)
    · exact absurd horder (hnode n _)
  -- the walk counts its visits, and what it compares them with are the nodes left out
  have hlength := length_cons_add_placesLeft hstart hnodup hlt
  have hverdict : (t.start d :: rest).length = t.nodeCount
      ↔ (t.placesLeft (t.start d :: rest)).length = rest.count (t.start d) := by
    omega
  rw [ok_bind] at horder
  refine ⟨rest, t.placesLeft (t.start d :: rest), ⟨hnodup, hlt, hnot,
    List.pairwise_lt_range.filter _, fun i => mem_placesLeft⟩, fun visit s hv => ?_, fun hmem => ?_⟩
  · rw [h.traverse_eq hv, ok_bind]
    simp only [hverdict]
    rfl
  · simp only [hverdict, List.count_eq_zero.2 hmem, List.length_eq_zero_iff] at horder
    rw [← placesLeft_eq_nil_iff (List.nodup_cons.2 ⟨hmem, hnodup⟩)]
    refine ⟨⟨fun hok => ?_, fun hnil => ⟨_, horder.trans (if_pos hnil)⟩⟩,
      fun h hnil => h _ (horder.trans (if_pos hnil))⟩
    obtain ⟨l, hl⟩ := hok
    by_contra hnil
    rw [horder, if_neg hnil] at hl
    cases hl

/-- A node waits for an edge from a node that is not there. -/
def waiting : Topology :=
  ⟨#[⟨[], [⟨0⟩]⟩, ⟨[⟨0⟩], [⟨1⟩]⟩, ⟨[⟨1⟩, ⟨5⟩], []⟩],
    .ofList [(⟨0⟩, ⟨⟨0⟩, ⟨1⟩⟩), (⟨1⟩, ⟨⟨1⟩, ⟨2⟩⟩), (⟨5⟩, ⟨⟨3⟩, ⟨2⟩⟩)], ⟨0⟩, ⟨2⟩⟩

theorem traverse_verified_waiting :
    waiting.order .forward = .error (.fault (.unvisited .forward [⟨2⟩]))
      ∧ ∃ rest left, waiting.Visits .forward rest left ∧ left ≠ []
        ∧ left.map NodeId.ofIndex = [⟨2⟩] := by
  have h : waiting.order .forward = .error (.fault (.unvisited .forward [⟨2⟩])) := by
    decide +kernel
  obtain ⟨rest, left, hvisits, hverdict, hstart⟩ := traverse_verified (t := waiting) (d := .forward)
    (by decide) (fun n id => by rw [h]; exact nofun) fun n count => by rw [h]; exact nofun
  have hleft : left ≠ [] := (hstart (hvisits.start_notMem rfl)).2 fun l => by
    rw [h]
    exact nofun
  refine ⟨h, rest, left, hvisits, hleft, ?_⟩
  have horder := congrArg Prod.snd (hverdict (fun _ s => (s, .ok ())) () fun _ _ => rfl)
  change waiting.order .forward = _ at horder
  rw [h] at horder
  split at horder
  · cases horder
  · simpa using horder.symm

/-- Two nodes with an edge each way, and one without edges. -/
def looping : Topology :=
  ⟨#[⟨[⟨1⟩], [⟨0⟩]⟩, ⟨[⟨0⟩], [⟨1⟩]⟩, ⟨[], []⟩],
    .ofList [(⟨0⟩, ⟨⟨0⟩, ⟨1⟩⟩), (⟨1⟩, ⟨⟨1⟩, ⟨0⟩⟩)], ⟨0⟩, ⟨2⟩⟩

/-- A walk that comes back to its start can pass although it leaves a node out. -/
theorem order_looping : (looping.start .forward).index < looping.nodeCount
    ∧ looping.order .forward = .ok [⟨0⟩, ⟨1⟩, ⟨0⟩]
    ∧ (looping.traverse .forward true (fun n seen => (seen ++ [n], .ok ())) []).1
      = [⟨0⟩, ⟨1⟩, ⟨0⟩]
    ∧ 2 < looping.nodeCount
    ∧ ([⟨0⟩, ⟨1⟩, ⟨0⟩].map NodeId.index).count 2 = 0
    ∧ ([⟨0⟩, ⟨1⟩, ⟨0⟩].map NodeId.index).count 0 = 2 := by
  decide +kernel

end Topology

end MatrixFree
