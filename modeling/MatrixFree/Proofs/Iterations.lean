import Mathlib.Algebra.Order.Ring.Nat
import Mathlib.Algebra.Field.Rat
import MatrixFree.LeastSquares

/-!
# The tests of the solver's loop

`LeastSquares.Tested` describes how a solve comes to the test of its loop after `k` updates, from
where it goes on as the loop does (`LeastSquares.Tested.iterate_eq`), and `LeastSquares.Stops` when
it leaves the loop there. A solve with a result leaves it after as many updates as the result counts
(`LeastSquares.tested_of_solve`), and no later test is reached (`LeastSquares.Tested.le_of_stops`).
The trace has one entry for each test after the first (`LeastSquares.Tested.reverse_trace`).
-/

namespace MatrixFree.LeastSquares

variable {α : Type} [SolverScalar α]

section

variable {elapsed : Duration} {threshold : α} {left : ℕ}
  {g g₁ g₂ : Graph α} {st : State α}

theorem iterate_of_le (h : SolverScalar.le (SolverScalar.sqrt st.gamma) threshold = true) :
    iterate elapsed threshold left g st = (g, .ok (st, true)) := by
  unfold iterate
  rw [if_pos h]

/-- One iteration, where the operator does not map the direction to zero. -/
theorem iterate_succ {q s : Array α}
    (h : ¬ SolverScalar.le (SolverScalar.sqrt st.gamma) threshold = true)
    (hq : apply elapsed .forward g st.p = (g₁, .ok q))
    (hqq : ¬ Scalar.isZero (Kernel.dot q q) = true)
    (hs : apply elapsed .adjoint g₁ (Kernel.axpy (-(st.gamma / Kernel.dot q q)) q st.r)
      = (g₂, .ok s)) :
    iterate elapsed threshold (left + 1) g st = iterate elapsed threshold left g₂
      (advance st (Kernel.axpy (-(st.gamma / Kernel.dot q q)) q st.r) s
        (Kernel.axpy (st.gamma / Kernel.dot q q) st.p st.x)) := by
  conv_lhs => unfold iterate
  rw [if_neg h]
  dsimp only
  rw [hq]
  dsimp only
  rw [if_neg hqq, hs]

end

/-- After `k` updates the loop of a solve is tested on a graph, with the normal residual `s` and a
state. -/
inductive Tested (elapsed : Duration) (g : Graph α) (b : Array α) (options : Options α)
    (threshold : α) : ℕ → Graph α → Array α → State α → Prop
  | start {g₁ : Graph α} {s : Array α} (hs : apply elapsed .adjoint g b = (g₁, .ok s))
      (ht : threshold = options.tol * Kernel.norm2 s) :
      Tested elapsed g b options threshold 0 g₁ s
        ⟨Array.replicate g.inputLength 0, b, s, Kernel.dot s s, []⟩
  | update {k : ℕ} {g₁ g₂ g₃ : Graph α} {s q s' : Array α} {st : State α}
      (h : Tested elapsed g b options threshold k g₁ s st)
      (hle : ¬ SolverScalar.le (SolverScalar.sqrt st.gamma) threshold = true)
      (hk : k < options.maxIters.toNat)
      (hq : apply elapsed .forward g₁ st.p = (g₂, .ok q))
      (hqq : ¬ Scalar.isZero (Kernel.dot q q) = true)
      (hs : apply elapsed .adjoint g₂ (Kernel.axpy (-(st.gamma / Kernel.dot q q)) q st.r)
        = (g₃, .ok s')) :
      Tested elapsed g b options threshold (k + 1) g₃ s'
        (advance st (Kernel.axpy (-(st.gamma / Kernel.dot q q)) q st.r) s'
          (Kernel.axpy (st.gamma / Kernel.dot q q) st.p st.x))

/-- The loop is left at a test: the normal residual is within the threshold, no iteration is left,
or the operator maps the direction to zero. -/
def Stops (elapsed : Duration) (options : Options α) (threshold : α) (k : ℕ) (g : Graph α)
    (st : State α) : Prop :=
  SolverScalar.le (SolverScalar.sqrt st.gamma) threshold = true ∨ k = options.maxIters.toNat
    ∨ ∃ g' q, apply elapsed .forward g st.p = (g', .ok q) ∧ Scalar.isZero (Kernel.dot q q) = true

/-- The body of the loop is entered at a test. -/
def Enters (options : Options α) (threshold : α) (k : ℕ) (st : State α) : Prop :=
  ¬ SolverScalar.le (SolverScalar.sqrt st.gamma) threshold = true ∧ k < options.maxIters.toNat

variable {elapsed : Duration} {g g' g₁ g₂ : Graph α} {b s s' : Array α} {options : Options α}
  {threshold threshold' : α} {j k : ℕ} {st st' : State α}

/-- An evaluation comes to one graph and one result. -/
theorem apply_unique {d : Direction} {x : Array α} (h : apply elapsed d g x = (g₁, .ok s))
    (h' : apply elapsed d g x = (g₂, .ok s')) : g₁ = g₂ ∧ s = s' := by
  rwa [h, Prod.mk.injEq, Except.ok.injEq] at h'

namespace Tested

theorem exists_start (h : Tested elapsed g b options threshold k g₁ s st) : ∃ g₀ s₀,
    apply elapsed .adjoint g b = (g₀, .ok s₀) ∧ threshold = options.tol * Kernel.norm2 s₀ := by
  induction h with
  | start hs ht => exact ⟨_, _, hs, ht⟩
  | update _ _ _ _ _ _ ih => exact ih

theorem threshold_eq (h : Tested elapsed g b options threshold j g₁ s st)
    (h' : Tested elapsed g b options threshold' k g₂ s' st') : threshold = threshold' := by
  obtain ⟨g₀, s₀, hs, rfl⟩ := h.exists_start
  obtain ⟨g₀', s₀', hs', rfl⟩ := h'.exists_start
  rw [(apply_unique hs hs').2]

/-- A solve comes to each test in one way. -/
theorem unique (h : Tested elapsed g b options threshold k g₁ s st)
    (h' : Tested elapsed g b options threshold k g₂ s' st') : g₁ = g₂ ∧ s = s' ∧ st = st' := by
  induction h generalizing g₂ s' st' with
  | start hs ht =>
    cases h' with
    | start hs' ht' =>
      obtain ⟨rfl, rfl⟩ := apply_unique hs hs'
      exact ⟨rfl, rfl, rfl⟩
  | update _ _ _ hq _ hs ih =>
    cases h' with
    | update h' _ _ hq' _ hs' =>
      obtain ⟨rfl, rfl, rfl⟩ := ih h'
      obtain ⟨rfl, rfl⟩ := apply_unique hq hq'
      obtain ⟨rfl, rfl⟩ := apply_unique hs hs'
      exact ⟨rfl, rfl, rfl⟩

/-- A solve goes on from a test as the loop does with the iterations that are left. -/
theorem iterate_eq (h : Tested elapsed g b options threshold k g₁ s st) :
    k ≤ options.maxIters.toNat ∧ ∃ g₀ s₀, apply elapsed .adjoint g b = (g₀, .ok s₀)
      ∧ iterate elapsed threshold options.maxIters.toNat g₀
          ⟨Array.replicate g.inputLength 0, b, s₀, Kernel.dot s₀ s₀, []⟩
        = iterate elapsed threshold (options.maxIters.toNat - k) g₁ st := by
  induction h with
  | start hs ht => exact ⟨Nat.zero_le _, _, _, hs, rfl⟩
  | update h hle hk hq hqq hs ih =>
    obtain ⟨-, g₀, s₀, hstart, hit⟩ := ih
    refine ⟨hk, g₀, s₀, hstart, hit.trans ?_⟩
    rw [← Nat.sub_add_cancel (Nat.sub_pos_of_lt hk), iterate_succ hle hq hqq hs, Nat.sub_sub]

/-- The tests before a test were reached. -/
theorem exists_of_le (h : Tested elapsed g b options threshold k g₁ s st) (hj : j ≤ k) :
    ∃ g₂ s' st', Tested elapsed g b options threshold j g₂ s' st' := by
  induction h with
  | start hs ht =>
    obtain rfl := Nat.le_zero.1 hj
    exact ⟨_, _, _, .start hs ht⟩
  | update h hle hk hq hqq hs ih =>
    rcases Nat.le_succ_iff.1 hj with hj | rfl
    · exact ih hj
    · exact ⟨_, _, _, .update h hle hk hq hqq hs⟩

/-- After the test where the loop is left there is none. -/
theorem le_of_stops (h : Tested elapsed g b options threshold k g₁ s st)
    (hstop : Stops elapsed options threshold k g₁ st)
    (h' : Tested elapsed g b options threshold j g₂ s' st') : j ≤ k := by
  by_contra hlt
  obtain ⟨g₃, s₃, st₃, hnext⟩ := h'.exists_of_le (show k + 1 ≤ j by omega)
  cases hnext with
  | update hlast hle hk hq hqq _ =>
    obtain ⟨rfl, rfl, rfl⟩ := h.unique hlast
    rcases hstop with hstop | hstop | ⟨g₄, q, hq', hzero⟩
    · exact hle hstop
    · omega
    · exact hqq ((apply_unique hq hq').2 ▸ hzero)

theorem length_trace (h : Tested elapsed g b options threshold k g₁ s st) :
    st.trace.length = k := by
  induction h with
  | start => rfl
  | update _ _ _ _ _ _ ih => exact congrArg (· + 1) ih

/-- The trace has an entry for each test after the first. -/
theorem reverse_trace (h : Tested elapsed g b options threshold k g₁ s st)
    {entry : ℕ → Iteration α}
    (hentry : ∀ {i g₂ s' st'}, Tested elapsed g b options threshold (i + 1) g₂ s' st' →
      entry i = ⟨i + 1, Kernel.norm2 st'.r, SolverScalar.sqrt st'.gamma⟩) :
    st.trace.reverse = (List.range k).map entry := by
  induction h with
  | start => rfl
  | update h hle hk hq hqq hs ih =>
    rw [List.range_succ, List.map_append, ← ih, List.map_singleton,
      hentry (.update h hle hk hq hqq hs)]
    simp [advance, h.length_trace]

end Tested

/-- What the loop gives, it gives at a test where it is left. -/
theorem tested_of_iterate {converged : Bool} (left : ℕ)
    (h : Tested elapsed g b options threshold k g₁ s st) (hk : k + left = options.maxIters.toNat)
    (hit : iterate elapsed threshold left g₁ st = (g', .ok (st', converged))) :
    ∃ k g₂ s', Tested elapsed g b options threshold k g₂ s' st'
      ∧ Stops elapsed options threshold k g₂ st'
      ∧ converged = SolverScalar.le (SolverScalar.sqrt st'.gamma) threshold := by
  induction left generalizing k g₁ s st
  all_goals
    unfold iterate at hit
    split at hit
    next hle =>
      simp only [Prod.mk.injEq, Except.ok.injEq] at hit
      obtain ⟨-, rfl, rfl⟩ := hit
      exact ⟨k, g₁, s, h, .inl hle, hle.symm⟩
  case zero.isFalse hle =>
    simp only [Prod.mk.injEq, Except.ok.injEq] at hit
    obtain ⟨-, rfl, rfl⟩ := hit
    exact ⟨k, g₁, s, h, .inr (.inl hk), by simpa using hle⟩
  case succ.isFalse left ih hle =>
    dsimp only at hit
    split at hit
    · cases hit
    · rename_i g₂ q hq
      split at hit
      · rename_i hzero
        simp only [Prod.mk.injEq, Except.ok.injEq] at hit
        obtain ⟨-, rfl, rfl⟩ := hit
        exact ⟨k, g₁, s, h, .inr (.inr ⟨g₂, q, hq, hzero⟩), by simpa using hle⟩
      · rename_i hqq
        split at hit
        · cases hit
        · rename_i g₃ s' hs
          exact ih (.update h hle (by omega) hq hqq hs) (by omega) hit

/-- A result tells how the solve stood at the test where it left its loop. -/
theorem tested_of_solve {result : Result α}
    (hsolve : solve elapsed g b options = (g', .ok result)) :
    ∃ threshold g₁ s st, Tested elapsed g b options threshold result.iterations g₁ s st
      ∧ Stops elapsed options threshold result.iterations g₁ st
      ∧ result = ⟨st.x, st.trace.length, Kernel.norm2 st.r,
          SolverScalar.le (SolverScalar.sqrt st.gamma) threshold, st.trace.reverse⟩ := by
  unfold solve at hsolve
  split at hsolve
  · cases hsolve
  · split at hsolve
    · cases hsolve
    · dsimp only at hsolve
      split at hsolve
      · cases hsolve
      · rename_i g₁ s hs
        split at hsolve
        · cases hsolve
        · rename_i g₂ st converged hit
          simp only [Prod.mk.injEq, Except.ok.injEq] at hsolve
          obtain ⟨-, rfl⟩ := hsolve
          obtain ⟨k, g₃, s', h, hstop, hconv⟩ := tested_of_iterate _ (.start hs rfl)
            (Nat.zero_add _) hit
          dsimp only
          rw [h.length_trace]
          exact ⟨_, g₃, s', st, h, hstop, by rw [h.length_trace, hconv]⟩

end MatrixFree.LeastSquares
