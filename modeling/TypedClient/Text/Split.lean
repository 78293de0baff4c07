/-!
# Splitting a text

A text is cut at every occurrence of a character. There is always one part more
than occurrences, and no part holds the character.
-/

namespace TypedClient.Text

/-- The parts of a text between occurrences of `mark`; there is always one. -/
def splitAt (mark : Char) : List Char → List (List Char)
  | [] => [[]]
  | c :: rest =>
    if c = mark then [] :: splitAt mark rest
    else
      match splitAt mark rest with
      | [] => [[c]]
      | part :: parts => (c :: part) :: parts

/-- There is always a part. -/
theorem splitAt_ne_nil (mark : Char) (text : List Char) : splitAt mark text ≠ [] := by
  cases text with
  | nil => simp [splitAt]
  | cons c rest =>
    unfold splitAt
    split
    · simp
    · split <;> simp

/-- No part holds the character that the text was cut at. -/
theorem not_mem_of_mem_splitAt {mark : Char} {text part : List Char}
    (h : part ∈ splitAt mark text) : mark ∉ part := by
  induction text generalizing part with
  | nil => simp_all [splitAt]
  | cons c rest ih =>
    unfold splitAt at h
    split at h
    · rcases List.mem_cons.1 h with rfl | h
      · simp
      · exact ih h
    · rename_i hc
      split at h
      · rename_i hr
        exact absurd hr (splitAt_ne_nil mark rest)
      · rename_i first others hr
        rcases List.mem_cons.1 h with rfl | h
        · have := ih (by rw [hr]; exact List.mem_cons_self)
          simp only [List.mem_cons, not_or]
          exact ⟨fun hm => hc hm.symm, this⟩
        · exact ih (by rw [hr]; exact List.mem_cons_of_mem _ h)

end TypedClient.Text
