import Mathlib.Algebra.Field.Rat
import Mathlib.Algebra.Order.Ring.Nat
import MatrixFree.Json.Doc

/-!
# Strings come back from their text

Every character of a string is written as one piece, and is read back from that piece
(`Json.Literal.exists_piece`), so a quoted string is the string that was written
(`Json.Scan.quoted_escape`).
-/

namespace MatrixFree.Json

theorem Literal.hexDigit?_digitChar {d : ℕ} (hd : d < 16) :
    hexDigit? (Nat.digitChar d) = some d := by
  have : ∀ d < 16, hexDigit? (Nat.digitChar d) = some d := by decide
  exact this d hd

theorem Literal.utf8Size_digitChar {d : ℕ} (hd : d < 16) : (Nat.digitChar d).utf8Size = 1 := by
  have : ∀ d < 16, (Nat.digitChar d).utf8Size = 1 := by decide
  exact this d hd

namespace Literal

theorem hasFourBytes_hexText (n : ℕ) (cs : List Char) : hasFourBytes (hexText n ++ cs) = true := by
  have hlt : ∀ m : ℕ, m % 16 < 16 := fun m => Nat.mod_lt m (by decide)
  simp [hasFourBytes, hexText, utf8Size_digitChar (hlt _)]

theorem unit?_hexText {n : ℕ} (hn : n < 65536) : ∃ a b c d, hexText n = [a, b, c, d]
    ∧ unit? a b c d = some n := by
  refine ⟨_, _, _, _, rfl, ?_⟩
  have hlt : ∀ m : ℕ, m % 16 < 16 := fun m => Nat.mod_lt m (by decide)
  simp only [unit?, List.mapM_cons, List.mapM_nil, hexDigit?_digitChar (hlt _), Option.pure_def,
    Option.bind_eq_bind, Option.bind_some, Option.map_some, List.foldl_cons, List.foldl_nil]
  exact congrArg some (by omega)

/-- A control character written by number is read as that unit. -/
theorem scan_unit {n : ℕ} (hn : n < 65536) (cs : List Char) :
    scan ('\\' :: 'u' :: (hexText n ++ cs)) = (.unit n :: (scan cs).1, (scan cs).2) := by
  have hfour := hasFourBytes_hexText n cs
  obtain ⟨a, b, c, d, htext, hunit⟩ := unit?_hexText hn
  rw [htext] at hfour ⊢
  simp only [List.cons_append, List.nil_append] at hfour ⊢
  conv_lhs => unfold scan
  simp [hunit, hfour]

/-- A character with a name of its own is written by it. -/
theorem scan_escaped {e c : Char} (hu : e ≠ 'u') (he : escaped? e = some c) (cs : List Char) :
    scan ('\\' :: e :: cs) = (.char c :: (scan cs).1, (scan cs).2) := by
  conv_lhs => unfold scan
  simp [hu, he]

theorem scan_char {c : Char} (hq : c ≠ '"') (hb : c ≠ '\\') (hc : ¬ c < ' ') (cs : List Char) :
    scan (c :: cs) = (.char c :: (scan cs).1, (scan cs).2) := by
  conv_lhs => unfold scan
  simp [hq, hb, hc]

theorem assemble_unit {β : Type} {n : ℕ} (hn : n < 0xD800) (ending : Except Fault β)
    (ps : List Piece) :
    assemble ending (.unit n :: ps) = (Char.ofNat n :: ·) <$> assemble ending ps := by
  have hl : isLeading n = false := by simp [isLeading]; omega
  have ht : isTrailing n = false := by simp [isTrailing]; omega
  conv_lhs => unfold assemble
  simp [hl, ht]

/-- What is written for a character is read as one piece, which stands for the character. -/
theorem exists_piece (c : Char) :
    ∃ p, (∀ cs, scan (escape c ++ cs) = (p :: (scan cs).1, (scan cs).2))
    ∧ ∀ {β : Type} (ending : Except Fault β) ps,
        assemble ending (p :: ps) = (c :: ·) <$> assemble ending ps := by
  unfold escape
  split_ifs with h1 h2 h3 h4 h5 h6 h7 h8
  any_goals
    subst c
    exact ⟨_, scan_escaped (by decide) rfl, fun _ _ => rfl⟩
  · have hlt : c.toNat < 32 := h8
    refine ⟨.unit c.toNat, scan_unit (by omega), fun ending ps => ?_⟩
    rw [assemble_unit (by omega), Char.ofNat_toNat]
  · exact ⟨.char c, scan_char h1 h2 h8, fun _ _ => rfl⟩

end Literal

theorem Scan.quoted_escape (l : List Char) (rest : List Char) :
    quoted (l.flatMap escape ++ '"' :: rest) = (.ok (String.ofList l), none, rest) := by
  have key : ∃ ps, Literal.scan (l.flatMap escape ++ '"' :: rest) = (ps, .ok rest)
      ∧ Literal.assemble (.ok rest : Except Fault (List Char)) ps = .ok l := by
    induction l with
    | nil => exact ⟨[], by unfold Literal.scan; rfl, rfl⟩
    | cons c l ih =>
      obtain ⟨ps, hscan, hps⟩ := ih
      obtain ⟨p, hp, hassemble⟩ := Literal.exists_piece c
      refine ⟨p :: ps, ?_, ?_⟩
      · rw [List.flatMap_cons, List.append_assoc, hp, hscan]
      · rw [hassemble, hps]
        rfl
  obtain ⟨ps, hscan, hps⟩ := key
  unfold quoted
  rw [hscan]
  dsimp only
  rw [hps]
  rfl

end MatrixFree.Json
