/-!
# Ranges of characters

A class of characters is listed as ranges of codes, from the lowest to the highest.
The law says that looking for a code in such a list finds it exactly when one of
the ranges holds it.
-/

namespace TypedClient.Text

/-- The codes from one to another. -/
structure CodeRange where
  /-- The lowest code. -/
  first : Nat
  /-- The highest code. -/
  last : Nat
  deriving DecidableEq, Repr

namespace CodeRange

/-- Whether a code is in a range. -/
def contains (range : CodeRange) (code : Nat) : Bool := range.first ≤ code && code ≤ range.last

/-- Whether ranges are listed from the lowest to the highest and do not meet, given
that the first of them starts at `low` or later. -/
def areSorted (low : Nat) : List CodeRange → Bool
  | [] => true
  | range :: rest =>
    low ≤ range.first && range.first ≤ range.last && areSorted (range.last + 1) rest

/-- Look for a code in ranges that are sorted. The ranges above the code are not
looked at. -/
def find (code : Nat) : List CodeRange → Bool
  | [] => false
  | range :: rest => if code < range.first then false else code ≤ range.last || find code rest

/-- A code below all of the ranges is in none of them. -/
theorem any_contains_of_lt {low code : Nat} {ranges : List CodeRange} (hl : code < low)
    (h : areSorted low ranges = true) : ranges.any (·.contains code) = false := by
  induction ranges generalizing low with
  | nil => rfl
  | cons range rest ih =>
    simp only [areSorted, Bool.and_eq_true, decide_eq_true_eq] at h
    have hfirst : ¬range.first ≤ code := by omega
    rw [List.any_cons, ih (by omega) h.2, Bool.or_false, contains]
    simp [hfirst]

/-- A code is found exactly when one of the ranges holds it. -/
theorem find_eq_any {low : Nat} (code : Nat) {ranges : List CodeRange}
    (h : areSorted low ranges = true) : find code ranges = ranges.any (·.contains code) := by
  induction ranges generalizing low with
  | nil => rfl
  | cons range rest ih =>
    simp only [areSorted, Bool.and_eq_true, decide_eq_true_eq] at h
    by_cases hc : code < range.first
    · have hnone : areSorted range.first (range :: rest) = true := by
        simp [areSorted, h.1.2, h.2]
      rw [any_contains_of_lt hc hnone]
      simp [find, hc]
    · have hf : range.first ≤ code := by omega
      simp [find, contains, hc, hf, ih h.2]

end CodeRange

end TypedClient.Text
