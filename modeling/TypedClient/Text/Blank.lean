/-!
# Blank characters

A character is blank when it has the Unicode property `White_Space`. Trimming
removes blanks from the ends of a text and nothing else: the law of `trimEnd`
is that what it removed was blank and what remains does not end in a blank.
-/

namespace TypedClient.Text

/-- A character with the Unicode property `White_Space`: 25 code points. -/
def isBlank (c : Char) : Bool :=
  let n := c.toNat
  (9 ≤ n && n ≤ 13) || n == 0x20 || n == 0x85 || n == 0xA0 || n == 0x1680 ||
    (0x2000 ≤ n && n ≤ 0x200A) || n == 0x2028 || n == 0x2029 || n == 0x202F ||
    n == 0x205F || n == 0x3000

/-- The text without the blanks it starts with. -/
def trimStart (text : List Char) : List Char := text.dropWhile isBlank

/-- The text without the blanks it ends with: a blank is kept when something
that is not blank comes after it. -/
def trimEnd : List Char → List Char
  | [] => []
  | c :: rest =>
    match trimEnd rest with
    | [] => if isBlank c then [] else [c]
    | kept => c :: kept

/-- The text without the blanks at either end. -/
def trim (text : List Char) : List Char := trimEnd (trimStart text)

/-- A text of blanks only, the empty text among them. -/
def isAllBlank (text : List Char) : Bool := text.all isBlank

/-- `trim` on strings. -/
def trimmed (text : String) : String := String.ofList (trim text.toList)

@[simp] theorem trimEnd_nil : trimEnd [] = [] := rfl

/-- Nothing remains of a text exactly when the text is blank. -/
theorem trimEnd_eq_nil_iff (text : List Char) : trimEnd text = [] ↔ isAllBlank text = true := by
  induction text with
  | nil => simp [isAllBlank]
  | cons c rest ih =>
    simp only [isAllBlank, List.all_cons, Bool.and_eq_true] at ih ⊢
    unfold trimEnd
    cases h : trimEnd rest with
    | nil => cases hc : isBlank c <;> simp_all
    | cons d kept => simp_all

/-- What is left after trimming does not end in a blank. -/
theorem isBlank_of_mem_getLast?_trimEnd (text : List Char) (c : Char)
    (h : c ∈ (trimEnd text).getLast?) : isBlank c = false := by
  induction text with
  | nil => simp at h
  | cons d rest ih =>
    unfold trimEnd at h
    cases hr : trimEnd rest with
    | nil =>
      rw [hr] at h
      cases hd : isBlank d <;> simp_all
    | cons e kept =>
      rw [hr] at h ih
      exact ih (by simpa [List.getLast?_cons_cons] using h)

end TypedClient.Text
