import MatrixFree.Proofs.OperatorChecks
import MatrixFree.Wiring

/-!
# What a check refuses with

A step `Refuses` with faults of a kind if it ends early in no other way: it never traps, and every
fault that it reports is of that kind. The port checks of all operators do not trap
(`Operator.refuses_check`), and the check of a wiring refuses with errors of the configuration
only (`Wiring.refuses_check`).
-/

namespace MatrixFree

/-- The step ends early only with faults that satisfy `P`. -/
def Refuses {ε β : Type} (P : ε → Prop) (x : Except (Stop ε) β) : Prop :=
  ∀ stop, x = .error stop → ∃ e, stop = .fault e ∧ P e

namespace Refuses

variable {ε β γ : Type} {P : ε → Prop}

theorem ok (b : β) : Refuses P (.ok b) := nofun

theorem fault {e : ε} (h : P e) : Refuses P (.error (.fault e) : Except (Stop ε) β) := by
  rintro _ ⟨⟩
  exact ⟨e, rfl, h⟩

theorem bind {x : Except (Stop ε) β} {f : β → Except (Stop ε) γ} (hx : Refuses P x)
    (hf : ∀ b, x = .ok b → Refuses P (f b)) : Refuses P (x >>= f) := by
  intro stop h
  rcases hb : x with s | b
  · rw [hb] at h
    obtain rfl : s = stop := by simpa [Bind.bind, Except.bind] using h
    exact hx s hb
  · rw [hb, ok_bind] at h
    exact hf b hb stop h

theorem ite {c : Prop} [Decidable c] {x y : Except (Stop ε) β} (hx : c → Refuses P x)
    (hy : ¬ c → Refuses P y) : Refuses P (if c then x else y) := by
  by_cases h : c
  · rw [if_pos h]
    exact hx h
  · rw [if_neg h]
    exact hy h

/-- A guard of a sequence of steps. -/
theorem guarded_of {c : Prop} [Decidable c] {e : ε} {k : γ → Except (Stop ε) β}
    {x : Except (Stop ε) β} (he : c → P e) (hx : ¬ c → Refuses P x) :
    Refuses P (if c then (Except.error (.fault e) : Except (Stop ε) γ) >>= k else x) :=
  .ite (fun h => .bind (.fault (he h)) nofun) hx

theorem guarded {c : Prop} [Decidable c] {e : ε} {k : γ → Except (Stop ε) β}
    {x : Except (Stop ε) β} (he : P e) (hx : ¬ c → Refuses P x) :
    Refuses P (if c then (Except.error (.fault e) : Except (Stop ε) γ) >>= k else x) :=
  .guarded_of (fun _ => he) hx

/-- Each step of a fold is taken from what the steps before it came to. -/
theorem foldlM_of_split {f : γ → β → Except (Stop ε) γ} : ∀ {l : List β} {c : γ},
    (∀ l₁ b l₂ c', l = l₁ ++ b :: l₂ → l₁.foldlM f c = .ok c' → Refuses P (f c' b)) →
      Refuses P (l.foldlM f c)
  | [], c, _ => .ok c
  | b :: l, c, hf => by
    rw [List.foldlM_cons]
    refine .bind (hf [] b l c rfl rfl) fun c' hc' => foldlM_of_split fun l₁ b' l₂ c'' hl h => ?_
    refine hf (b :: l₁) b' l₂ c'' (congrArg (b :: ·) hl) ?_
    rwa [List.foldlM_cons, hc', ok_bind]

theorem foldlM {f : γ → β → Except (Stop ε) γ} (hf : ∀ c b, Refuses P (f c b)) (l : List β)
    (c : γ) : Refuses P (l.foldlM f c) :=
  foldlM_of_split fun _ b _ c' _ _ => hf c' b

theorem forM_of_mem {f : β → Except (Stop ε) Unit} : ∀ {l : List β}, (∀ b ∈ l, Refuses P (f b)) →
    Refuses P (l.forM f)
  | [], _ => .ok ()
  | b :: l, hf => by
    obtain ⟨hb, hf⟩ := List.forall_mem_cons.1 hf
    rw [List.forM_eq_forM, List.forM_cons]
    exact .bind hb fun _ _ => forM_of_mem hf

theorem forM {f : β → Except (Stop ε) Unit} (hf : ∀ b, Refuses P (f b)) (l : List β) :
    Refuses P (l.forM f) :=
  forM_of_mem fun b _ => hf b

theorem mapFault {ε' : Type} {f : ε → ε'} {Q : ε' → Prop} {x : Except (Stop ε) β}
    (hx : Refuses P x) (hf : ∀ e, P e → Q (f e)) :
    Refuses Q (x.mapError (Stop.mapFault f)) := by
  rcases x with s | b
  · obtain ⟨e, rfl, he⟩ := hx s rfl
    exact .fault (hf e he)
  · exact .ok b

end Refuses

/-- The check does not trap. -/
abbrev ShapeCheck.Safe {β : Type} (x : ShapeCheck β) : Prop := Refuses (fun _ => True) x

namespace ShapeCheck

variable {sig : Signature}

theorem safe_refuse {β : Type} (f : ShapeFault) : Safe (refuse f : ShapeCheck β) := .fault trivial

theorem safe_agree (which : Agreement) (a b : ℕ) : Safe (agree which a b) :=
  .ite (fun _ => .ok ()) fun _ => safe_refuse _

theorem safe_sized (which : Quantity) : ∀ n, Safe (sized which n)
  | some n => .ok n
  | none => safe_refuse _

theorem safe_portsOn (side : Side) (shapes : List Shape) : ∀ n, Safe (portsOn side shapes n)
  | some _ => .ite (fun _ => .ok ()) fun _ => safe_refuse _
  | none => .ite (fun _ => safe_refuse _) fun _ => .ok ()

theorem safe_ports (sig : Signature) (m n : Option ℕ) : Safe (ports sig m n) :=
  .bind (safe_portsOn _ _ m) fun _ _ => safe_portsOn _ _ n

theorem safe_port {shapes : List Shape} (h : shapes ≠ []) : Safe (port shapes 0) := by
  obtain ⟨s, rest, rfl⟩ := List.exists_cons_of_ne_nil h
  rw [show port (s :: rest) 0 = .ok s from port_eq_ok_iff.2 rfl]
  exact .ok s

theorem inputs_ne {n : Option ℕ} {u : Unit} (h : ports sig (some 1) n = .ok u) :
    sig.inputs ≠ [] := by
  have := portsOn_eq_ok_iff.1 (ports_eq_ok_iff.1 h).1
  exact List.ne_nil_of_length_eq_add_one this

theorem outputs_ne {n : Option ℕ} {u : Unit} (h : ports sig n (some 1) = .ok u) :
    sig.outputs ≠ [] := by
  have := portsOn_eq_ok_iff.1 (ports_eq_ok_iff.1 h).2
  exact List.ne_nil_of_length_eq_add_one this

theorem safe_pred {n : ℕ} (h : n ≠ 0) : Safe (pred n) := by
  rw [pred, if_neg h]
  exact .ok _

theorem safe_divide {n d : ℕ} (h : d ≠ 0) : Safe (divide n d) := by
  rw [divide, if_neg h]
  exact .ok _

end ShapeCheck

open ShapeCheck

theorem SparseMatrix.safe_check {α : Type} (A : SparseMatrix α) : Safe A.check := by
  unfold check
  refine .guarded trivial fun _ => .guarded trivial fun _ => .guarded trivial fun _ => ?_
  split
  · exact safe_refuse _
  · exact .ok ()

namespace Operator

variable {α : Type}

theorem safe_checkProduct {rows cols : ℕ} {sig : Signature}
    (h : ports sig (some 1) (some 1) = .ok ()) : Safe (checkProduct rows cols sig) := by
  refine .bind (safe_port (inputs_ne h)) fun _ _ => .guarded trivial fun _ => .guarded trivial
    fun hc => .bind (safe_divide hc) fun _ _ => .guarded trivial fun _ =>
    .bind (safe_sized _ _) fun _ _ => .bind (safe_port (outputs_ne h)) fun _ _ => safe_agree _ _ _

/-- No check of ports traps. -/
theorem refuses_check (op : Operator α) (sig : Signature) : Safe (op.check sig) := by
  cases op
  case identity | negate | scale =>
    exact .bind (safe_ports _ _ _) fun _ _ => safe_agree _ _ _
  case dense A =>
    exact .bind (safe_ports _ _ _) fun _ hp => .bind (safe_sized _ _) fun _ _ =>
      .bind (safe_agree _ _ _) fun _ _ => safe_checkProduct hp
  case sparse A =>
    exact .bind (safe_ports _ _ _) fun _ hp => .bind A.safe_check fun _ _ => safe_checkProduct hp
  case sum | copy =>
    refine .bind (safe_ports _ _ _) fun _ hp => .bind (safe_port ?_) fun _ _ =>
      .forM (fun _ => safe_agree _ _ _) _
    first | exact outputs_ne hp | exact inputs_ne hp
  case concat | split =>
    exact .bind (safe_ports _ _ _) fun _ _ => safe_agree _ _ _
  case stack =>
    exact .bind (safe_ports _ _ _) fun _ hp => .bind (safe_port (outputs_ne hp)) fun _ _ =>
      .bind (.forM (fun _ => safe_agree _ _ _) _) fun _ _ => .bind (safe_sized _ _) fun _ _ =>
      .bind (safe_agree _ _ _) fun _ _ => safe_agree _ _ _
  case stride start step =>
    refine .bind (safe_ports _ _ _) fun _ _ => .guarded trivial fun _ => .ite (fun _ => .ok ())
      fun hl => .bind (safe_pred hl) fun _ _ => .bind (safe_sized _ _) fun _ _ =>
      .ite (fun _ => safe_refuse _) fun _ => .ok ()
  case transpose =>
    exact .bind (safe_ports _ _ _) fun _ hp => .bind (safe_port (inputs_ne hp)) fun _ _ =>
      .bind (safe_port (outputs_ne hp)) fun _ _ => .bind (safe_agree _ _ _) fun _ _ =>
      safe_agree _ _ _
  case diagonal | diagonalPart =>
    exact .bind (safe_ports _ _ _) fun _ _ => .bind (safe_sized _ _) fun _ _ => safe_agree _ _ _
  case convolve taps =>
    refine .bind (safe_ports _ _ _) fun _ _ => .guarded trivial fun ht =>
      .bind (safe_pred fun h0 => ht ?_) fun _ _ => .bind (safe_sized _ _) fun _ _ =>
      safe_agree _ _ _
    rw [Array.isEmpty_iff_size_eq_zero]
    exact h0

end Operator

namespace Wiring

variable {α : Type}

theorem refuses_checkInRange (count : ℕ) (n : NodeId) :
    Refuses (·.isConfiguration = true) (checkInRange count n) :=
  .ite (fun _ => .ok ()) fun _ => .fault rfl

theorem refuses_claim (edges : EdgeRegistry) (n : NodeId) (side : Side) (seen : List EdgeId)
    (e : EdgeId) : Refuses (·.isConfiguration = true) (claim edges n side seen e) := by
  unfold claim
  split
  · exact .fault rfl
  · exact .ite (fun _ => .fault rfl) fun _ => .ite (fun _ => .fault rfl) fun _ => .ok _

theorem refuses_checkNode (edges : EdgeRegistry) (root terminal : NodeId) (seen : Claims)
    (n : NodeId) (spec : NodeSpec α) :
    Refuses (·.isConfiguration = true) (checkNode edges root terminal seen n spec) := by
  have ports : ∀ side p isOpen,
      Refuses (·.isConfiguration = true) (checkPorts n side p isOpen) := fun _ _ _ =>
    .ite (fun _ => .ok ()) fun _ => .fault rfl
  have length : ∀ side p, Refuses (·.isConfiguration = true) (checkLength n side p) := by
    intro side p
    unfold checkLength
    split
    · exact .ok ()
    · exact .fault rfl
  exact .bind (ports _ _ _) fun _ _ => .bind (ports _ _ _) fun _ _ =>
    .bind (length _ _) fun _ _ => .bind (length _ _) fun _ _ =>
    .bind ((spec.op.refuses_check _).mapFault fun _ _ => rfl) fun _ _ =>
    .bind (.foldlM (refuses_claim edges n .input) _ _) fun _ _ =>
    .bind (.foldlM (refuses_claim edges n .output) _ _) fun _ _ => .ok _

theorem refuses_checkEdge (nodes : List (NodeSpec α)) (seen : Claims) (e : EdgeId) (edge : Edge) :
    Refuses (·.isConfiguration = true) (checkEdge nodes seen e edge) :=
  .bind (refuses_checkInRange _ _) fun _ _ => .bind (refuses_checkInRange _ _) fun _ _ =>
    .guarded rfl fun _ => .guarded rfl fun _ => .guarded rfl fun _ =>
    .ite (fun _ => .fault rfl) fun _ => .ok ()

section Check

variable {P : GraphError → Prop} {nodes : List (NodeSpec α)} {edges : EdgeRegistry}
  {root terminal : NodeId}

/-- The faults of a wiring are those of its two ends and those of its lists. -/
theorem refuses_check_of (hrange : ∀ n, n = root ∨ n = terminal →
      Refuses P (checkInRange nodes.length n))
    (hroot : ∀ spec, nodes[root.index]? = some spec → spec.input.edges ≠ [] →
      P (.rootHasInputs root))
    (hterminal : ∀ spec, nodes[terminal.index]? = some spec → spec.output.edges ≠ [] →
      P (.terminalHasOutputs terminal))
    (hlists : Refuses P (do
      let seen ← nodes.zipIdx.foldlM
        (fun seen x => checkNode edges root terminal seen (.ofIndex x.2) x.1) ⟨[], []⟩
      edges.entries.forM fun x => checkEdge nodes seen x.1 x.2)) :
    Refuses P (check nodes edges root terminal) := by
  refine .bind (hrange root (.inl rfl)) fun _ _ => .bind (hrange terminal (.inr rfl)) fun _ _ => ?_
  dsimp only
  split
  next spec hs =>
    refine .guarded_of (hroot spec hs) fun _ => ?_
    split
    next spec ht => exact .guarded_of (hterminal spec ht) fun _ => hlists
    · exact hlists
  · split
    next spec ht => exact .guarded_of (hterminal spec ht) fun _ => hlists
    · exact hlists

end Check

/-- A wiring is refused with errors of the configuration only. -/
theorem refuses_check (nodes : List (NodeSpec α)) (edges : EdgeRegistry)
    (root terminal : NodeId) :
    Refuses (·.isConfiguration = true) (check nodes edges root terminal) :=
  refuses_check_of (fun _ _ => refuses_checkInRange _ _) (fun _ _ _ => rfl) (fun _ _ _ => rfl)
    (.bind (.foldlM (fun _ _ => refuses_checkNode _ _ _ _ _ _) _ _) fun _ _ =>
      .forM (fun _ => refuses_checkEdge _ _ _ _) _)

end Wiring

end MatrixFree
