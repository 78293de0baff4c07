/-!
# Replacement

Occurrences of a pattern are found from left to right and do not overlap; text
outside them is kept. The scan keeps a count of the characters that still
belong to the occurrence being replaced, so it is structural in the text.
-/

namespace TypedClient.Text

/-- Replace what follows once `skip` more characters have been passed over. -/
def replaceAfter (pattern by_ : List Char) : Nat → List Char → List Char
  | _, [] => []
  | skip + 1, _ :: rest => replaceAfter pattern by_ skip rest
  | 0, c :: rest =>
    if pattern.isPrefixOf (c :: rest) then
      by_ ++ replaceAfter pattern by_ (pattern.length - 1) rest
    else
      c :: replaceAfter pattern by_ 0 rest

/-- Every occurrence of a non-empty `pattern` replaced by `by_`. -/
def replaceAll (pattern by_ text : List Char) : List Char :=
  if pattern.isEmpty then text else replaceAfter pattern by_ 0 text

/-- `replaceAll` on strings. -/
def replace (text pattern by_ : String) : String :=
  String.ofList (replaceAll pattern.toList by_.toList text.toList)

@[simp] theorem replaceAfter_nil (pattern by_ : List Char) (skip : Nat) :
    replaceAfter pattern by_ skip [] = [] := by cases skip <;> rfl

/-- A text that holds the pattern nowhere stays as it is. -/
theorem replaceAfter_of_not_infix (pattern by_ text : List Char)
    (h : ¬ pattern <:+: text) : replaceAfter pattern by_ 0 text = text := by
  induction text with
  | nil => simp
  | cons c rest ih =>
    have hp : pattern.isPrefixOf (c :: rest) = false := by
      rw [Bool.eq_false_iff]
      intro hq
      exact h (List.IsPrefix.isInfix (List.isPrefixOf_iff_prefix.1 hq))
    have hr : ¬ pattern <:+: rest := fun hq => h (List.infix_cons hq)
    simp [replaceAfter, hp, ih hr]

end TypedClient.Text
