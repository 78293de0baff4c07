import Mathlib.Tactic.Basic
import TypedClient.Json.Text
import TypedClient.Json.Token

/-!
# Quoted texts

A text in quotation marks is read back as it was, up to its closing mark and not further,
whatever follows.
-/

namespace TypedClient.Json

variable {rest : List Char}

/-- An escape by a code that is no half of a pair is read as its character. -/
theorem readString_code {a b c d : Char} {code : Nat} (hcode : hexValue? [a, b, c, d] = some code)
    (hsmall : code < 0xD800) :
    readString ('\\' :: 'u' :: a :: b :: c :: d :: rest) =
      prepend (Char.ofNat code) (readString rest) := by
  have hhigh : isHighHalf code = false := by
    simp only [isHighHalf, Bool.and_eq_false_iff, decide_eq_false_iff_not]
    omega
  have hlow : isLowHalf code = false := by
    simp only [isLowHalf, Bool.and_eq_false_iff, decide_eq_false_iff_not]
    omega
  rw [readString.eq_def]
  -- what follows may look like the second half of a pair
  split <;> grind

/-- An escape by one letter is read as the character that it stands for. -/
theorem readString_short {c d : Char} (hc : c ≠ 'u') (h : shortEscape? c = some d) :
    readString ('\\' :: c :: rest) = prepend d (readString rest) := by
  rw [readString.eq_def]
  split <;> grind

/-- A character that needs no escape stands for itself. -/
theorem readString_plain {c : Char} (hmark : c ≠ '"') (hslash : c ≠ '\\') (hc : ¬ c.toNat < 0x20) :
    readString (c :: rest) = prepend c (readString rest) := by
  rw [readString.eq_def]
  split <;> grind

/-- The code of a control character is spelled by two digits behind zeros. -/
theorem hexValue?_control {n : Nat} (hn : n < 0x20) :
    hexValue? ['0', '0', Nat.digitChar (n / 16), Nat.digitChar (n % 16)] = some n := by
  have hall : ∀ m < 0x20,
      hexValue? ['0', '0', Nat.digitChar (m / 16), Nat.digitChar (m % 16)] = some m := by
    decide
  exact hall n hn

/-- A character is spelled by one letter behind a backslash, by its code, or by itself. -/
theorem escaped_cases (c : Char) :
    (∃ d, escaped c = ['\\', d] ∧ d ≠ 'u' ∧ shortEscape? d = some c) ∨
      (c.toNat < 0x20 ∧ escaped c =
        ['\\', 'u', '0', '0', Nat.digitChar (c.toNat / 16), Nat.digitChar (c.toNat % 16)]) ∨
      (c ≠ '"' ∧ c ≠ '\\' ∧ ¬ c.toNat < 0x20 ∧ escaped c = [c]) := by
  unfold escaped
  -- the seven characters with an escape of one letter come first
  iterate 7
    split
    · subst_vars
      exact .inl ⟨_, rfl, by decide, rfl⟩
  split
  · exact .inr (.inl ⟨‹_›, rfl⟩)
  · exact .inr (.inr ⟨‹_›, ‹_›, ‹_›, rfl⟩)

/-- The spelling of a character is read as the character. -/
theorem readString_escaped (c : Char) :
    readString (escaped c ++ rest) = prepend c (readString rest) := by
  rcases escaped_cases c with ⟨d, he, hd, hshort⟩ | ⟨hcontrol, he⟩ | ⟨hmark, hslash, hc, he⟩
  · rw [he]
    exact readString_short hd hshort
  · rw [he]
    refine (readString_code (hexValue?_control hcontrol) (by omega)).trans ?_
    rw [Char.ofNat_toNat]
    rfl
  · rw [he]
    exact readString_plain hmark hslash hc

/-- A quoted text is read back. -/
theorem readString_quoted (text : List Char) :
    readString (text.flatMap escaped ++ '"' :: rest) = some (text, rest) := by
  induction text with
  | nil => rfl
  | cons c text ih =>
    rw [List.flatMap_cons, List.append_assoc, readString_escaped, ih]
    rfl

end TypedClient.Json
