import MatrixFree.Proofs.Visits

/-!
# The calls of a visitor

What a walk asks of its visitor on a topology that nobody checked. A visitor that is
`Topology.recorded` keeps the list of its calls with their answers, and does the same otherwise.
The calls follow the trail of the walk up to the first that fails (`Topology.visitAll_recorded`),
so there is at most one for each node and one more for the start (`Topology.traverse_calls`).
-/

namespace MatrixFree.Topology

variable {t : Topology} {d : Direction} {σ : Type} {visit : Visitor σ} {n : NodeId}
  {stop : Stop GraphError}

/-- The calls of a visitor with their answers, in order. -/
abbrev CallLog := List (NodeId × GraphCheck Unit)

/-- The visitor that also records its calls. -/
def recorded (visit : Visitor σ) : Visitor (σ × CallLog) := fun n s =>
  let (state, answer) := visit n s.1
  ((state, s.2 ++ [(n, answer)]), answer)

/-- What a visitor answers when it is called along a list, up to the first call that fails. -/
def answers (visit : Visitor σ) : List NodeId → σ → CallLog
  | [], _ => []
  | n :: l, s =>
    match visit n s with
    | (_, .error stop) => [(n, .error stop)]
    | (s, .ok ()) => (n, .ok ()) :: answers visit l s

/-- Recording changes nothing but the record. -/
theorem visitAll_recorded : ∀ (l : List NodeId) (s : σ) (log : CallLog),
    visitAll (recorded visit) l (s, log)
      = (((visitAll visit l s).1, log ++ answers visit l s), (visitAll visit l s).2)
  | [], s, log => by rw [answers, List.append_nil]; rfl
  | n :: l, s, log => by
    unfold visitAll recorded answers
    rcases visit n s with ⟨s', stop | ⟨⟩⟩
    · rfl
    · dsimp only
      have ih := visitAll_recorded l s' (log ++ [(n, .ok ())])
      rw [List.append_assoc] at ih
      exact ih

theorem answers_prefix : ∀ (l : List NodeId) (s : σ), (answers visit l s).map Prod.fst <+: l
  | [], _ => List.nil_prefix
  | n :: l, s => by
    unfold answers
    rcases visit n s with ⟨s', stop | ⟨⟩⟩
    · exact ⟨l, rfl⟩
    · exact List.cons_prefix_cons.2 ⟨rfl, answers_prefix l s'⟩

theorem answers_of_ok (hv : ∀ n s, (visit n s).2 = .ok ()) :
    ∀ (l : List NodeId) (s : σ), (answers visit l s).map Prod.fst = l
  | [], _ => rfl
  | n :: l, s => by
    have hn := hv n s
    unfold answers
    rcases hvis : visit n s with ⟨s', stop | ⟨⟩⟩
    · rw [hvis] at hn
      cases hn
    · exact congrArg (n :: ·) (answers_of_ok hv l s')

/-- A call that fails is the last one, and its fault is that of all the visits together. -/
theorem answers_of_error : ∀ {l : List NodeId} {s : σ}, (n, .error stop) ∈ answers visit l s →
    (visitAll visit l s).2 = .error stop
      ∧ ∃ before, answers visit l s = before ++ [(n, .error stop)]
        ∧ ∀ call ∈ before, call.2 = .ok ()
  | [], s, h => by cases h
  | m :: l, s, h => by
    unfold answers at h ⊢
    unfold visitAll
    rcases hvis : visit m s with ⟨s', stop' | ⟨⟩⟩ <;> rw [hvis] at h
    · obtain ⟨rfl, hstop⟩ := Prod.mk.inj (List.mem_singleton.1 h)
      obtain rfl := Except.error.inj hstop
      exact ⟨rfl, [], rfl, List.forall_mem_nil _⟩
    · rcases List.mem_cons.1 h with h | h
      · cases (Prod.mk.inj h).2
      · obtain ⟨hend, before, hlog, hok⟩ := answers_of_error h
        exact ⟨hend, (m, .ok ()) :: before, congrArg _ hlog, List.forall_mem_cons.2 ⟨rfl, hok⟩⟩

/-- On a topology whatsoever a walk from a node that is there ends after at most one call for each
node and one more, which can only be for the start. If a call fails, it is the last one, what it
says is the outcome, and the calls up to it are those that any visitor gets that never fails. -/
theorem traverse_calls (hstart : (t.start d).index < t.nodeCount) :
    ∃ calls : List NodeId, ∀ {σ : Type} (verify : Bool) (visit : Visitor σ) (s : σ),
      ∃ final log outcome, t.traverse d verify visit s = (final, outcome)
        ∧ t.traverse d verify (recorded visit) (s, []) = ((final, log), outcome)
        ∧ log.length ≤ t.nodeCount + 1
        ∧ (∀ n, (log.map Prod.fst).count n ≤ if n = t.start d then 2 else 1)
        ∧ log.map Prod.fst <+: calls
        ∧ ((∀ n s, (visit n s).2 = .ok ()) → log.map Prod.fst = calls)
        ∧ ∀ n stop, (n, .error stop) ∈ log → outcome = .error stop
            ∧ ∃ before, log = before ++ [(n, .error stop)] ∧ ∀ call ∈ before, call.2 = .ok () := by
  obtain ⟨l, r, h⟩ := exists_trail t d _ (Nat.lt_succ_self
    (Frontier.weight ⟨t.dependencies d, [t.start d]⟩))
  obtain ⟨rest, rfl, hnodup, hlt, -⟩ := h.exists_rest hstart
  refine ⟨t.start d :: rest, fun verify visit s => ?_⟩
  have hcalled : (answers visit (t.start d :: rest) s).map Prod.fst <+: t.start d :: rest :=
    answers_prefix _ s
  refine ⟨_, answers visit (t.start d :: rest) s, _, h.traverse_eq_bind verify visit s, ?_, ?_,
    fun n => ?_, hcalled, fun hv => answers_of_ok hv _ s, fun n stop hmem => ?_⟩
  · rw [h.traverse_eq_bind verify (recorded visit), visitAll_recorded, List.nil_append]
  · have hle := hcalled.length_le
    have hrest := length_add_placesLeft hnodup hlt
    rw [List.length_map, List.length_cons] at hle
    omega
  · refine (hcalled.sublist.count_le n).trans ?_
    have hone := List.nodup_iff_count_le_one.1 hnodup n
    rw [List.count_cons]
    by_cases hn : n = t.start d
    · rw [if_pos hn, if_pos (by simp [hn])]
      omega
    · rw [if_neg hn, if_neg (by simpa using Ne.symm hn)]
      omega
  · obtain ⟨hend, hlog⟩ := answers_of_error hmem
    rw [hend]
    exact ⟨rfl, hlog⟩

/-- A visitor that succeeds the given number of times and then refuses. -/
def tiring : Visitor ℕ := fun n left =>
  match left with
  | 0 => (0, GraphCheck.refuse (.rootHasInputs n))
  | left + 1 => (left, .ok ())

/-- A walk that comes back to its start is stopped there. -/
theorem traverse_calls_tiring : (looping.start .forward).index < looping.nodeCount
    ∧ ∃ log : CallLog, log.map Prod.fst = [⟨0⟩, ⟨1⟩, ⟨0⟩] ∧ log.length ≤ 4
      ∧ (log.map Prod.fst).count ⟨0⟩ ≤ 2
      ∧ (looping.traverse .forward true tiring 2).2 = .error (.fault (.rootHasInputs ⟨0⟩)) := by
  have hstart : (looping.start .forward).index < looping.nodeCount := by decide
  have hlog : (looping.traverse .forward true (recorded tiring) (2, [])).1.2
      = [(⟨0⟩, .ok ()), (⟨1⟩, .ok ()), (⟨0⟩, .error (.fault (.rootHasInputs ⟨0⟩)))] := by
    decide +kernel
  obtain ⟨calls, h⟩ := traverse_calls hstart
  obtain ⟨final, log, outcome, hwalk, hrecorded, hlength, hcount, -, -, herror⟩ := h true tiring 2
  rw [hrecorded] at hlog
  obtain rfl : log = _ := hlog
  refine ⟨hstart, _, rfl, hlength, hcount ⟨0⟩, ?_⟩
  rw [hwalk]
  exact (herror ⟨0⟩ _ (by simp)).1

end MatrixFree.Topology
