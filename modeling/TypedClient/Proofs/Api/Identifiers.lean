import Mathlib.Data.List.Basic
import TypedClient.Api.Identifier

/-!
# What identifiers look like

The identifier for a name can stand for a binding of a module, whatever the name is. A
count behind an underscore keeps an identifier one: no reserved word has an underscore.
-/

namespace TypedClient

/-- Whether a name can stand for a binding of a module. -/
structure IsIdentifier (name : String) : Prop where
  /-- Every character is one that an identifier can hold. -/
  characters : ∀ c ∈ name.toList, isIdentifierChar c = true
  /-- There is a first character, and it is no digit. -/
  start : ∃ c rest, name.toList = c :: rest ∧ c.isDigit = false
  /-- It is no reserved word. -/
  unreserved : name ∉ reservedWords

/-- Every character of a name is one that an identifier can hold. -/
def HasIdentifierChars (name : String) : Prop := ∀ c ∈ name.toList, isIdentifierChar c = true

/-- Two names of such characters make one. -/
theorem HasIdentifierChars.append {name name' : String} (h : HasIdentifierChars name)
    (h' : HasIdentifierChars name') : HasIdentifierChars (name ++ name') := by
  intro c hc
  rw [String.toList_append] at hc
  exact (List.mem_append.1 hc).elim (h c) (h' c)

/-- A name keeps its characters of identifiers when more of them follow. -/
theorem HasIdentifierChars.ending {name : String} (h : HasIdentifierChars name) (ending : String)
    (hending : ending.toList.all isIdentifierChar = true) : HasIdentifierChars (name ++ ending) :=
  h.append fun c hc => List.all_eq_true.1 hending c hc

/-- An underscore is a character that an identifier can hold. -/
theorem isIdentifierChar_underscore : isIdentifierChar '_' = true := by decide

/-- No reserved word has an underscore. -/
theorem not_mem_reservedWords_of_underscore {name : String} (h : '_' ∈ name.toList) :
    name ∉ reservedWords := by
  have hnone : ∀ word ∈ reservedWords, '_' ∉ word.toList := by decide
  exact fun hmem => hnone name hmem h

/-- An underscore in front keeps the characters, and makes a start. -/
theorem guardStart_spec {name : List Char} (h : ∀ c ∈ name, isIdentifierChar c = true) :
    (∀ c ∈ guardStart name, isIdentifierChar c = true) ∧
      ∃ c rest, guardStart name = c :: rest ∧ c.isDigit = false := by
  have hunderscore : ('_' : Char).isDigit = false := by decide
  unfold guardStart
  split
  · exact ⟨by simp [isIdentifierChar_underscore], '_', [], rfl, hunderscore⟩
  · rename_i c rest
    split
    · refine ⟨fun d hd => ?_, '_', c :: rest, rfl, hunderscore⟩
      rcases List.mem_cons.1 hd with rfl | hd
      · exact isIdentifierChar_underscore
      · exact h d hd
    · rename_i hdigit
      exact ⟨h, c, rest, rfl, by simpa using hdigit⟩

/-- An underscore behind keeps an identifier, and unmakes a reserved word. -/
theorem isIdentifier_guardReserved {name : List Char}
    (hcharacters : ∀ c ∈ name, isIdentifierChar c = true)
    (hstart : ∃ c rest, name = c :: rest ∧ c.isDigit = false) :
    IsIdentifier (String.ofList (guardReserved name)) := by
  obtain ⟨c, rest, rfl, hdigit⟩ := hstart
  unfold guardReserved
  split
  · refine ⟨fun d hd => ?_, ⟨c, rest ++ ['_'], by simp, hdigit⟩,
      not_mem_reservedWords_of_underscore (by simp)⟩
    rw [String.toList_ofList] at hd
    rcases List.mem_append.1 hd with hd | hd
    · exact hcharacters d hd
    · rw [List.mem_singleton.1 hd]
      exact isIdentifierChar_underscore
  · rename_i hreserved
    exact ⟨by simpa using hcharacters, ⟨c, rest, by simp, hdigit⟩, by simpa using hreserved⟩

/-- The identifier for a name is one. -/
theorem isIdentifier_identifier (name : String) : IsIdentifier (identifier name) := by
  have hsanitized : ∀ c ∈ sanitize name.toList, isIdentifierChar c = true :=
    fun _ => isIdentifierChar_of_mem_sanitize
  obtain ⟨hcharacters, hstart⟩ := guardStart_spec hsanitized
  exact isIdentifier_guardReserved hcharacters hstart

/-- The identifier for a name has characters that an identifier can hold. -/
theorem hasIdentifierChars_identifier (name : String) : HasIdentifierChars (identifier name) :=
  (isIdentifier_identifier name).characters

/-- A text of characters that an identifier can hold is left as it is. -/
theorem sanitize_of_characters {name : List Char} (h : ∀ c ∈ name, isIdentifierChar c = true) :
    sanitize name = name := by
  have hkept : ∀ c ∈ name, (if isIdentifierChar c then c else '_') = c :=
    fun c hc => if_pos (h c hc)
  rw [sanitize, List.map_congr_left hkept, List.map_id']

/-- The identifier for an identifier is that identifier. -/
theorem IsIdentifier.identifier_eq {name : String} (h : IsIdentifier name) :
    identifier name = name := by
  obtain ⟨c, rest, hname, hdigit⟩ := h.start
  have hstart : guardStart name.toList = name.toList := by
    rw [hname, guardStart, if_neg (by simp [hdigit])]
  rw [identifier, sanitize_of_characters h.characters, hstart, guardReserved,
    if_neg (by simpa using h.unreserved), String.ofList_toList]

/-- What is put in front of a name is an underscore. -/
theorem guardStart_of_not_underscore {name : List Char} (h : '_' ∉ guardStart name) :
    guardStart name = name := by
  match name with
  | [] => exact absurd List.mem_cons_self h
  | c :: rest =>
    rw [guardStart] at h ⊢
    split at h
    · exact absurd List.mem_cons_self h
    · rename_i hdigit
      exact if_neg hdigit

/-- What is put behind a name is an underscore. -/
theorem guardReserved_of_not_underscore {name : List Char} (h : '_' ∉ guardReserved name) :
    guardReserved name = name := by
  unfold guardReserved at h ⊢
  split at h
  · exact absurd (by simp) h
  · rename_i hreserved
    exact if_neg hreserved

/-- Nothing but underscores is put into a name: an identifier without one is the name. -/
theorem identifier_of_not_underscore {name : String} (h : '_' ∉ (identifier name).toList) :
    identifier name = name := by
  rw [identifier, String.toList_ofList] at h
  have hreserved := guardReserved_of_not_underscore h
  rw [hreserved] at h
  have hstart := guardStart_of_not_underscore h
  rw [hstart] at h
  have hcharacters : ∀ c ∈ name.toList, isIdentifierChar c = true := by
    intro c hc
    by_contra hinvalid
    exact h (List.mem_map.2 ⟨c, hc, if_neg hinvalid⟩)
  rw [identifier, hreserved, hstart, sanitize_of_characters hcharacters, String.ofList_toList]

/-- A digit is a character that an identifier can hold. -/
theorem isIdentifierChar_of_isDigit {c : Char} (h : c.isDigit = true) :
    isIdentifierChar c = true := by
  obtain ⟨hlow, hhigh⟩ : '0' ≤ c ∧ c ≤ '9' := by simpa [Char.isDigit, Char.le_def] using h
  simp [isIdentifierChar, hlow, hhigh]

/-- An identifier with a count is one. -/
theorem IsIdentifier.counted {base : String} (h : IsIdentifier base) (count : Nat) :
    IsIdentifier (base ++ "_" ++ toString count) := by
  have htext : (base ++ "_" ++ toString count).toList =
      base.toList ++ '_' :: Nat.toDigits 10 count := by
    simp
  obtain ⟨c, rest, hbase, hdigit⟩ := h.start
  refine ⟨fun d hd => ?_, ⟨c, rest ++ '_' :: Nat.toDigits 10 count, ?_, hdigit⟩,
    not_mem_reservedWords_of_underscore (by simp)⟩
  · rw [htext] at hd
    rcases List.mem_append.1 hd with hd | hd
    · exact h.characters d hd
    · rcases List.mem_cons.1 hd with rfl | hd
      · exact isIdentifierChar_underscore
      · exact isIdentifierChar_of_isDigit (Nat.isDigit_of_mem_toDigits (by decide) (by decide) hd)
  · rw [htext, hbase, List.cons_append]

/-- Texts without underscores that follow an underscore can be told from what stands before. -/
theorem eq_of_append_underscore {f f' x y : String} (hx : '_' ∉ x.toList)
    (hy : '_' ∉ y.toList) (h : f ++ "_" ++ x = f' ++ "_" ++ y) : f = f' ∧ x = y := by
  have hlists : f.toList ++ '_' :: x.toList = f'.toList ++ '_' :: y.toList := by
    simpa using congrArg String.toList h
  have hsame : f.toList = f'.toList ∧ x.toList = y.toList := by
    rcases List.append_eq_append_iff.1 hlists with ⟨middle, hf, hrest⟩ | ⟨middle, hf, hrest⟩
    · cases middle with
      | nil => exact ⟨by simpa using hf.symm, by simpa using hrest⟩
      | cons c middle =>
        rw [(List.cons.inj hrest).2] at hx
        exact absurd (List.mem_append_right _ List.mem_cons_self) hx
    · cases middle with
      | nil => exact ⟨by simpa using hf, by simpa using hrest.symm⟩
      | cons c middle =>
        rw [(List.cons.inj hrest).2] at hy
        exact absurd (List.mem_append_right _ List.mem_cons_self) hy
  exact ⟨String.ext hsame.1, String.ext hsame.2⟩

end TypedClient
