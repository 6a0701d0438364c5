import MatrixFree.Proofs.Rereading

/-!
# Round trips

A description with finite coefficients always comes back from its text, and all of it but the
coefficients comes back as it was. A coefficient comes back as what its own text is read as. That
is the coefficient if the text is short, but not always (`Description.round_trip`).
-/

namespace MatrixFree.Description

open Form

/-- A description with finite coefficients is always read back. -/
theorem exists_ofJson_toJson {d : Description Float}
    (hd : ∀ x ∈ d.coefficients, x.isFinite = true) :
    ∃ f : Float → Float, (∀ x ∈ d.coefficients, reread x = .ok (f x))
      ∧ ofJson d.toJson = .ok (d.map f) := by
  have htotal : ∀ x : Float, ∃ y, x.isFinite = true → reread x = .ok y := fun x => by
    by_cases hx : x.isFinite = true
    · obtain ⟨y, hy⟩ := exists_reread hx
      exact ⟨y, fun _ => hy⟩
    · exact ⟨x, fun h => absurd h hx⟩
  choose f hf using htotal
  have hreread : ∀ x ∈ d.coefficients, reread x = .ok (f x) := fun x hx => hf x (hd x hx)
  exact ⟨f, hreread, ofJson_toJson_of_reread hreread⟩

/-- A description with finite coefficients is read back from its text with every coefficient as
its own text is read. So it comes back if and only if all coefficients do, and those with short
texts do. -/
theorem round_trip {d : Description Float} (hd : ∀ x ∈ d.coefficients, x.isFinite = true) :
    (∃ f : Float → Float, (∀ x ∈ d.coefficients, reread x = .ok (f x))
        ∧ ofJson d.toJson = .ok (d.map f))
      ∧ (ofJson d.toJson = .ok d ↔ ∀ x ∈ d.coefficients, reread x = .ok x)
      ∧ ∀ x ∈ d.coefficients, Short x → reread x = .ok x := by
  obtain ⟨f, hreread, hjson⟩ := exists_ofJson_toJson hd
  refine ⟨⟨f, hreread, hjson⟩, ?_, fun x hx hshort => reread_eq_self_of_short (hd x hx) hshort⟩
  rw [hjson]
  constructor
  · intro h x hx
    have hself := map_eq_self_iff.1 (Except.ok.inj h) x hx
    rw [hreread x hx, hself]
  · intro h
    refine congrArg Except.ok (map_eq_self_iff.2 fun x hx => ?_)
    exact Except.ok.inj ((hreread x hx).symm.trans (h x hx))

/-- A convolution and a scaling, with an edge between them and a name of many kinds of
characters. -/
def chain : Description Float :=
  { nodes := [⟨.convolve #[0.1, -0.25, 1e20, 0.0], ⟨[], [⟨[3]⟩]⟩, ⟨[⟨7⟩], [⟨[2, 3]⟩]⟩⟩,
      ⟨.scale 2.5, ⟨[⟨7⟩], [⟨[2, 3]⟩]⟩, ⟨[], [⟨[6]⟩]⟩⟩]
    edges := [⟨⟨7⟩, ⟨0⟩, ⟨1⟩⟩]
    root := ⟨0⟩
    terminal := ⟨1⟩
    config := { label := some "\"∇\\\n\x01" } }

theorem round_trip_chain :
    (∀ x ∈ chain.coefficients, x.isFinite = true) ∧ ofJson chain.toJson = .ok chain := by
  have hfinite : ∀ x ∈ chain.coefficients, x.isFinite = true := by decide +kernel
  have hshort : ∀ x ∈ chain.coefficients, Short x := by decide +kernel
  obtain ⟨-, hiff, hself⟩ := round_trip hfinite
  exact ⟨hfinite, hiff.2 fun x hx => hself x hx (hshort x hx)⟩

/-- One node that multiplies by `factor`. -/
def scaling (factor : Float) : Description Float :=
  { nodes := [⟨.scale factor, ⟨[], [⟨[1]⟩]⟩, ⟨[], [⟨[1]⟩]⟩⟩]
    edges := []
    root := ⟨0⟩
    terminal := ⟨0⟩
    config := {} }

/-- The number `1e-23` is read as the next one: the power of ten that the word is divided by is
itself rounded. -/
theorem scaling_drifts :
    (∀ x ∈ (scaling (.ofBits 0x3b282db34012b251)).coefficients, x.isFinite = true)
      ∧ ofJson (scaling (.ofBits 0x3b282db34012b251)).toJson
        = .ok (scaling (.ofBits 0x3b282db34012b252))
      ∧ scaling (.ofBits 0x3b282db34012b252) ≠ scaling (.ofBits 0x3b282db34012b251) := by
  have hdrift : reread (.ofBits 0x3b282db34012b251) = .ok (.ofBits 0x3b282db34012b252) := by
    decide +kernel
  have hjson := @ofJson_toJson_of_reread (fun _ => .ofBits 0x3b282db34012b252)
    (scaling (.ofBits 0x3b282db34012b251)) fun x hx => by rw [List.mem_singleton.1 hx, hdrift]
  exact ⟨by decide +kernel, hjson, by decide +kernel⟩

end MatrixFree.Description
