import MatrixFree.Proofs.Sessions

/-!
# What a solve depends on

A solver reads its graph only through evaluations, and what these give does not depend on what the
buffers held before. So the outcome of a solve is the same in all states of a graph
(`LeastSquares.solve_congr`). It is refused for a length or a tolerance that does not fit, with the
graph left as it was, and for no other reason (`LeastSquares.solve_outcome`).
-/

namespace MatrixFree.LeastSquares

open MatrixFree.Graph

variable {α : Type} [SolverScalar α] {specs : List (NodeSpec α)} {edges : EdgeRegistry}
  {root terminal : NodeId} {config : Config} {g g' g₀ g₁ g₂ : Graph α}

/-- In two states of a graph a vector is mapped to the same result, or refused alike. -/
theorem exists_apply_congr (elapsed elapsed' : Duration)
    (h : Valid specs edges root terminal config g) (h' : Valid specs edges root terminal config g')
    (d : Direction) (x : Array α) :
    ∃ next next' out, apply elapsed d g x = (next, out) ∧ apply elapsed' d g' x = (next', out)
      ∧ Valid specs edges root terminal config next
      ∧ Valid specs edges root terminal config next' := by
  refine ⟨_, _, (apply elapsed d g x).2, rfl, ?_, (Reachable.refl.apply elapsed d x).valid h,
    (Reachable.refl.apply elapsed' d x).valid h'⟩
  rw [apply_eq, apply_eq, h.evaluateOne_congr h' d elapsed elapsed' x]

theorem exists_iterate_congr (elapsed elapsed' : Duration) (threshold : α) :
    ∀ (left : ℕ) (st : State α) {g g' : Graph α},
    Valid specs edges root terminal config g → Valid specs edges root terminal config g' →
    ∃ next next' out, iterate elapsed threshold left g st = (next, out)
      ∧ iterate elapsed' threshold left g' st = (next', out) := by
  intro left
  induction left with
  | zero =>
    intro st g g' _ _
    unfold iterate
    split
    · exact ⟨g, g', _, rfl, rfl⟩
    · exact ⟨g, g', _, rfl, rfl⟩
  | succ left ih =>
    intro st g g' h h'
    obtain ⟨g₁, g₁', out, hq, hq', h₁, h₁'⟩ :=
      exists_apply_congr elapsed elapsed' h h' .forward st.p
    unfold iterate
    rw [hq, hq']
    split
    · exact ⟨g, g', _, rfl, rfl⟩
    · rcases out with stop | q
      · exact ⟨g₁, g₁', _, rfl, rfl⟩
      · dsimp only
        split
        · exact ⟨g₁, g₁', _, rfl, rfl⟩
        · obtain ⟨g₂, g₂', out, hs, hs', h₂, h₂'⟩ := exists_apply_congr elapsed elapsed' h₁ h₁'
            .adjoint (Kernel.axpy (-(st.gamma / Kernel.dot q q)) q st.r)
          rw [hs, hs']
          rcases out with stop | s
          · exact ⟨g₂, g₂', _, rfl, rfl⟩
          · exact ih _ h₂ h₂'

/-- The outcome of a solve does not depend on what the buffers of the graph hold. -/
theorem solve_congr (elapsed elapsed' : Duration)
    (h : Valid specs edges root terminal config g) (h' : Valid specs edges root terminal config g')
    (b : Array α) (options : Options α) :
    (solve elapsed g b options).2 = (solve elapsed' g' b options).2 := by
  have hin : g.inputLength = g'.inputLength := h.size_buffer h' .forwardInput
  have hout : g.outputLength = g'.outputLength := h.size_buffer h' .forwardOutput
  unfold solve
  rw [hin, hout]
  split
  · rfl
  · split
    · rfl
    · obtain ⟨g₁, g₁', out, hs, hs', h₁, h₁'⟩ := exists_apply_congr elapsed elapsed' h h' .adjoint b
      dsimp only
      rw [hs, hs']
      rcases out with stop | s
      · rfl
      · obtain ⟨g₂, g₂', out, hit, hit'⟩ := exists_iterate_congr elapsed elapsed'
          (options.tol * Kernel.norm2 s) options.maxIters.toNat
          ⟨Array.replicate g'.inputLength 0, b, s, Kernel.dot s s, []⟩ h₁ h₁'
        dsimp only
        rw [hit, hit']
        rcases out with stop | ⟨st, converged⟩ <;> rfl

/-- A solve on a graph that was built gives the same in any two of its states. It fails exactly if
the right-hand side has the wrong length or else if the tolerance is not a number or is negative,
and leaves the graph as it was then. -/
theorem solve_outcome (hbuild : build specs root terminal edges config = .ok g₀)
    (h₁ : g₀.Reachable g₁) (h₂ : g₀.Reachable g₂) (b : Array α) (options : Options α)
    (elapsed elapsed' : Duration) :
    (solve elapsed g₁ b options).2 = (solve elapsed' g₂ b options).2
      ∧ (b.size ≠ g₁.outputLength → solve elapsed g₁ b options
          = (g₁, .error (.fault (.rhsLength g₁.outputLength b.size))))
      ∧ (b.size = g₁.outputLength →
          (SolverScalar.isNaN options.tol = true ∨ SolverScalar.lt options.tol 0 = true →
            solve elapsed g₁ b options = (g₁, .error (.fault (.invalidTolerance options.tol))))
          ∧ (SolverScalar.isNaN options.tol = false ∧ SolverScalar.lt options.tol 0 = false →
            ∃ g' r, solve elapsed g₁ b options = (g', .ok r))) := by
  have hv₁ := h₁.valid (.of_build hbuild)
  have hv₂ := h₂.valid (.of_build hbuild)
  refine ⟨solve_congr elapsed elapsed' hv₁ hv₂ b options, solve_of_length_ne, fun hb => ⟨?_, ?_⟩⟩
  · intro ht
    exact solve_of_invalid_tolerance hb (by simpa using ht)
  · rintro ⟨hnan, hneg⟩
    have ht : ¬(SolverScalar.isNaN options.tol || SolverScalar.lt options.tol 0) = true := by
      simp [hnan, hneg]
    obtain ⟨g', r, hr, -⟩ := exists_solve_eq_ok hv₁ hb ht
    exact ⟨g', r, hr⟩

theorem solve_outcome_splitting :
    ∃ r, (solve ⟨2⟩ splittingGraph #[1, 2, 3, 4, 5] ⟨3, 0⟩).2 = .ok r
      ∧ (solve ⟨9⟩ (splittingGraph.evaluate .adjoint ⟨7⟩).1 #[1, 2, 3, 4, 5] ⟨3, 0⟩).2 = .ok r
      ∧ solve ⟨2⟩ splittingGraph #[1, 2, 3, 4, 5] ⟨3, -1⟩
        = (splittingGraph, .error (.fault (.invalidTolerance (-1)))) := by
  have hreach : splittingGraph.Reachable (splittingGraph.evaluate .adjoint ⟨7⟩).1 :=
    .evaluate .adjoint ⟨7⟩ .refl
  obtain ⟨hsame, -, hfits⟩ :=
    solve_outcome build_splitting .refl hreach #[1, 2, 3, 4, 5] ⟨3, 0⟩ ⟨2⟩ ⟨9⟩
  obtain ⟨-, -, hrefused⟩ :=
    solve_outcome build_splitting .refl hreach #[1, 2, 3, 4, 5] ⟨3, -1⟩ ⟨2⟩ ⟨9⟩
  obtain ⟨g', r, hr⟩ := (hfits rfl).2 (by decide +kernel)
  exact ⟨r, by rw [hr], by rw [← hsame, hr], (hrefused rfl).1 (by decide +kernel)⟩

end MatrixFree.LeastSquares
