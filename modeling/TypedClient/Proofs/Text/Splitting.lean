import TypedClient.Text.Split

/-!
# Texts cut into parts

A text without the character is one part. Behind its first occurrence the text is cut
further, and what is appended without the character extends the last part.
-/

namespace TypedClient.Text

variable {mark : Char} {text suffix : List Char}

/-- A text without the character is a single part. -/
theorem splitAt_of_not_mem (h : mark ∉ text) : splitAt mark text = [text] := by
  induction text with
  | nil => rfl
  | cons c rest ih =>
    have hc : c ≠ mark := fun hc => h (hc ▸ List.mem_cons_self)
    rw [splitAt, if_neg hc, ih fun hm => h (List.mem_cons_of_mem c hm)]

/-- What is appended to a text without the character extends its last part. -/
theorem splitAt_append (h : mark ∉ suffix) {front : List (List Char)} {last : List Char}
    (hparts : splitAt mark text = front ++ [last]) :
    splitAt mark (text ++ suffix) = front ++ [last ++ suffix] := by
  induction text generalizing front last with
  | nil =>
    have hempty : [] ++ [[]] = front ++ [last] := hparts
    obtain ⟨rfl, hlast⟩ := List.append_inj' hempty rfl
    rw [List.nil_append, splitAt_of_not_mem h, ← List.singleton_inj.1 hlast]
    rfl
  | cons c rest ih =>
    rw [List.cons_append, splitAt]
    rw [splitAt] at hparts
    by_cases hc : c = mark
    · rw [if_pos hc] at hparts ⊢
      cases front with
      | nil => exact absurd (List.cons_eq_cons.1 hparts).2 (splitAt_ne_nil mark rest)
      | cons part front =>
        obtain ⟨rfl, hrest⟩ := List.cons_eq_cons.1 hparts
        rw [ih hrest]
        rfl
    · rw [if_neg hc] at hparts ⊢
      cases hrest : splitAt mark rest with
      | nil => exact absurd hrest (splitAt_ne_nil mark rest)
      | cons part parts =>
        rw [hrest] at hparts
        cases front with
        | nil =>
          obtain ⟨rfl, rfl⟩ := List.cons_eq_cons.1 hparts
          have happended : splitAt mark (rest ++ suffix) = [] ++ [part ++ suffix] := ih hrest
          rw [happended]
          rfl
        | cons first front =>
          obtain ⟨rfl, rfl⟩ := List.cons_eq_cons.1 hparts
          have happended : splitAt mark (rest ++ suffix) =
              (part :: front) ++ [last ++ suffix] := ih hrest
          rw [happended]
          rfl

/-- A text is cut right behind its first part. -/
theorem splitAt_append_cons {part : List Char} (h : mark ∉ part) :
    splitAt mark (part ++ mark :: text) = part :: splitAt mark text := by
  induction part with
  | nil => rw [List.nil_append, splitAt, if_pos rfl]
  | cons c part ih =>
    have hc : c ≠ mark := fun hc => h (hc ▸ List.mem_cons_self)
    rw [List.cons_append, splitAt, if_neg hc, ih fun hm => h (List.mem_cons_of_mem c hm)]

end TypedClient.Text
