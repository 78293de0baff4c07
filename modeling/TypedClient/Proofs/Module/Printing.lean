import TypedClient.Proofs.Module.Variables
import TypedClient.Proofs.Shape.Texts
import TypedClient.Proofs.TypeScript.Spelling

/-!
# Printed parts are inert

The texts of a document are printed in quotation marks and in comments, which separate them from
what follows; nothing else that is printed has percent signs. So what is printed for texts
without variables names none, whatever stands next to it.
-/

namespace TypedClient

/-! ### Numbers and names -/

namespace Binary64

variable {digits : List Char} {lead : Int} {c : Char}

/-- Positional notation adds zeros and a point to the digits. -/
theorem mem_positional (h : c ∈ positional digits lead) : c ∈ digits ∨ c = '0' ∨ c = '.' := by
  unfold positional at h
  split at h
  · simp only [List.cons_append, List.mem_cons, List.mem_append] at h
    rcases h with rfl | rfl | h | h
    · exact .inr (.inl rfl)
    · exact .inr (.inr rfl)
    · exact .inr (.inl (List.eq_of_mem_replicate h))
    · exact .inl h
  · simp only [List.mem_append, List.mem_cons] at h
    rcases h with (h | h) | rfl | h
    · exact .inl (List.mem_of_mem_take h)
    · exact .inr (.inl (List.eq_of_mem_replicate h))
    · exact .inr (.inr rfl)
    · split at h
      · exact .inr (.inl (List.mem_singleton.1 h))
      · exact .inl (List.mem_of_mem_drop h)

/-- Scientific notation adds a point, and an exponent with its sign. -/
theorem mem_scientific (h : c ∈ scientific digits lead) :
    c ∈ digits ∨ c ∈ decimalDigits lead.natAbs ∨ c ∈ ['.', 'e', '-', '+'] := by
  have hsign : (if lead < 0 then '-' else '+') ∈ ['.', 'e', '-', '+'] := by
    split <;> decide
  rcases List.mem_append.1 h with h | h
  · split at h
    · exact absurd h List.not_mem_nil
    · exact .inl h
    · simp only [List.mem_cons] at h ⊢
      tauto
  · rcases List.mem_cons.1 h with rfl | h
    · exact .inr (.inr (by decide))
    · rcases List.mem_cons.1 h with rfl | h
      · exact .inr (.inr hsign)
      · exact .inr (.inl h)

end Binary64

/-- Digits are no percent signs. -/
theorem not_mem_toDigits (n : ℕ) : '%' ∉ Nat.toDigits 10 n :=
  fun h => absurd (Nat.isDigit_of_mem_toDigits (by decide) (by decide) h) (by decide)

/-- A floating-point number is written without percent signs. -/
theorem Binary64.not_mem_text (x : Binary64) : '%' ∉ x.text.toList := by
  have hpositional : ∀ n lead, '%' ∉ positional (decimalDigits n) lead := by
    intro n lead h
    rcases mem_positional h with h | h | h
    · exact not_mem_toDigits n h
    · exact absurd h (by decide)
    · exact absurd h (by decide)
  have hscientific : ∀ n lead, '%' ∉ scientific (decimalDigits n) lead := by
    intro n lead h
    rcases mem_scientific h with h | h | h
    · exact not_mem_toDigits n h
    · exact not_mem_toDigits _ h
    · exact absurd h (by decide)
  have hbody : ∀ (p : Prop) [Decidable p] n lead,
      '%' ∉ if p then positional (decimalDigits n) lead else scientific (decimalDigits n) lead := by
    intro p _ n lead
    split
    · exact hpositional n lead
    · exact hscientific n lead
  unfold Binary64.text
  rw [String.toList_ofList]
  split
  · exact List.not_mem_cons_of_ne_of_not_mem (by decide) (hbody _ _ _)
  · exact hbody _ _ _

/-- A number is written without percent signs. -/
theorem Number.not_mem_text (number : Number) : '%' ∉ number.text.toList := by
  have hdigits : ∀ n : ℕ, '%' ∉ (toString n).toList := by
    intro n
    rw [Nat.toString_eq_ofList_toDigits, String.toList_ofList]
    exact not_mem_toDigits n
  cases number with
  | integer value =>
    cases value with
    | ofNat n => exact hdigits n
    | negSucc n =>
      have htext : text (.integer (.negSucc n)) = "-" ++ toString (n + 1) := rfl
      rw [htext, String.toList_append, List.mem_append]
      exact not_or.2 ⟨by decide, hdigits (n + 1)⟩
  | float x => exact x.not_mem_text

/-- A name is written without percent signs. -/
theorem HasIdentifierChars.not_mem {name : String} (h : HasIdentifierChars name) :
    '%' ∉ name.toList :=
  fun hmem => absurd (h '%' hmem) (by decide)

namespace Module

/-! ### Texts in quotation marks -/

/-- A character that is not written as itself is in no variable, and the code that is written for
it behind a backslash has no percent signs. -/
theorem escaped_eq_or (c : Char) :
    Json.escaped c = [c] ∨
      Separates c ∧ ∃ code, Json.escaped c = '\\' :: code ∧ '%' ∉ code := by
  have hshort : ∀ d, Json.shortEscape? d = some c → d ≠ 'u' → Separates c ∧ d ≠ '%' := by
    intro d hd hu
    unfold Json.shortEscape? at hd
    split at hd <;> cases hd <;> decide
  have hcontrol : c.toNat < 0x20 → Separates c := by
    have hgreat : ∀ v ∈ variableNames, v.toList.all (0x20 ≤ ·.toNat) := by decide
    intro hc v hv hmem
    have hc' : 0x20 ≤ c.toNat := of_decide_eq_true (List.all_eq_true.1 (hgreat v hv) c hmem)
    omega
  have hdigit : ∀ n < 16, Nat.digitChar n ≠ '%' := by decide
  rcases Json.escaped_cases c with ⟨d, he, hu, hd⟩ | ⟨hc, he⟩ | ⟨-, -, -, he⟩
  · obtain ⟨hseparates, hpercent⟩ := hshort d hd hu
    exact .inr ⟨hseparates, [d], he, by simpa using Ne.symm hpercent⟩
  · refine .inr ⟨hcontrol hc, _, he, ?_⟩
    have hfirst := hdigit (c.toNat / 16) (by omega)
    have hsecond := hdigit (c.toNat % 16) (by omega)
    simp [Ne.symm hfirst, Ne.symm hsecond]
  · exact .inl he

/-- Escaping puts nothing into a text that could be part of a variable. -/
theorem IsFixed.escaped (front : List Char) {text : List Char} (h : IsFixed (front ++ text)) :
    IsFixed (front ++ text.flatMap Json.escaped) := by
  -- `front` is what is written as itself since the last escape: a variable might begin there
  induction text generalizing front with
  | nil => exact h
  | cons c text ih =>
    rw [List.flatMap_cons]
    rcases escaped_eq_or c with he | ⟨hc, code, he, hcode⟩
    · have hnext := ih (front ++ [c]) (by rwa [List.append_assoc])
      rwa [he, ← List.append_assoc]
    · obtain ⟨hfront, htext⟩ := (isFixed_append_cons_iff hc).1 h
      rw [he]
      exact (isFixed_append_cons_iff (by decide)).2
        ⟨hfront, isInert_of_not_mem hcode _ (ih [] htext)⟩

/-- A text in quotation marks is inert. -/
theorem isInert_quoted {text : String} (h : Fixed text) : IsInert (Json.quoted text).toList := by
  rw [Json.quoted, String.toList_ofList]
  have hmark : IsInert ['"'] := isInert_of_not_mem (by decide)
  exact hmark.append ((IsFixed.escaped [] h).isInert_append (by decide) isInert_nil)

theorem compactElements_eq_map (elements : List Json) :
    Json.compactElements elements = elements.map Json.compact := by
  induction elements with
  | nil => rfl
  | cons value rest ih => rw [Json.compactElements, ih, List.map_cons]

theorem compactMembers_eq_map (members : List (String × Json)) :
    Json.compactMembers members = members.map fun m => Json.quoted m.1 ++ ":" ++ m.2.compact := by
  induction members with
  | nil => rfl
  | cons m rest ih => rw [Json.compactMembers, ih, List.map_cons]

/-- A value is written inertly. -/
theorem isInert_compact {value : Json} (h : value.IsWrittenWith Fixed) :
    IsInert value.compact.toList := by
  induction value using Json.tree_induction with
  | null => exact isInert_plain "null" (by decide)
  | bool b =>
    cases b with
    | false => exact isInert_plain "false" (by decide)
    | true => exact isInert_plain "true" (by decide)
  | number n => exact isInert_plain n.text n.not_mem_text
  | string text => exact isInert_quoted (Json.isWrittenWith_string.1 h)
  | array elements ih =>
    rw [Json.compact, compactElements_eq_map]
    refine (isInert_joinWith "," (by decide) fun t ht => ?_).between "[" "]" (by decide) (by decide)
    obtain ⟨v, hv, rfl⟩ := List.mem_map.1 ht
    exact ih v hv (Json.isWrittenWith_array.1 h v hv)
  | object members ih =>
    rw [Json.compact, compactMembers_eq_map]
    refine (isInert_joinWith "," (by decide) fun t ht => ?_).between "\x7b" "\x7d" (by decide)
      (by decide)
    obtain ⟨m, hm, rfl⟩ := List.mem_map.1 ht
    obtain ⟨hkey, hvalue⟩ := Json.isWrittenWith_object.1 h m hm
    exact ((isInert_quoted hkey).concat (isInert_plain ":" (by decide))).concat (ih m hm hvalue)

/-! ### Texts in comments -/

open TypeScript

/-- Breaking up comment ends puts nothing into a text that could be part of a variable. -/
theorem IsFixed.brokenUp (front : List Char) {text : List Char} (h : IsFixed (front ++ text)) :
    IsFixed (front ++ brokenUp text) := by
  -- the end of a comment takes two characters, so the induction is on the length
  induction hlength : text.length using Nat.strong_induction_on generalizing front text with
  | _ length ih =>
    subst hlength
    cases text with
    | nil => exact h
    | cons c rest =>
      by_cases hc : c = '*' → rest.head? ≠ some '/'
      · have hrest := ih rest.length (by simp) (front ++ [c]) (by rwa [List.append_assoc]) rfl
        rw [brokenUp_cons hc]
        rwa [List.append_assoc] at hrest
      · push Not at hc
        obtain ⟨rfl, hslash⟩ := hc
        obtain ⟨others, rfl⟩ := List.head?_eq_some_iff.1 hslash
        obtain ⟨hfront, hothers⟩ := (isFixed_append_cons_iff (by decide)).1 h
        have hshort : others.length < ('*' :: '/' :: others).length := by
          rw [List.length_cons, List.length_cons]
          omega
        have hrest := ih others.length hshort [] ((isFixed_cons_iff (by decide)).1 hothers) rfl
        have hmarks : IsInert ['\\', '/'] := isInert_of_not_mem (by decide)
        rw [brokenUp_end]
        exact (isFixed_append_cons_iff (by decide)).2 ⟨hfront, hmarks _ hrest⟩

/-- Trimming leaves a part of a text. -/
theorem infix_trim (text : List Char) : Text.trim text <:+: text :=
  (isPrefix_trimEnd _).isInfix.trans (List.dropWhile_suffix _).isInfix

/-- A trimmed text names no variable when the text names none. -/
theorem fixed_trimmed {text : String} (h : Fixed text) : Fixed (Text.trimmed text) := by
  rw [Fixed, Text.trimmed, String.toList_ofList]
  exact h.within (infix_trim _)

/-- The lines of a comment name no variable when the text names none. -/
theorem IsFixed.docLines {text : List Char} (h : IsFixed text) :
    ∀ line ∈ docLines text, IsFixed line := by
  intro line hline
  obtain ⟨full, hfull, rfl⟩ := List.mem_map.1 hline
  have hline : IsFixed full :=
    h.within (((infix_of_mem_lines _).2 full hfull).trans (infix_trim text))
  exact (IsFixed.brokenUp [] hline).within (isPrefix_trimEnd _).isInfix

theorem isInert_indentation (depth : ℕ) : IsInert (Text.indentation depth).toList := by
  refine isInert_of_not_mem fun hmem => ?_
  rw [Text.indentation, String.toList_ofList] at hmem
  exact absurd (List.eq_of_mem_replicate hmem) (by decide)

/-- A line of a comment is inert. -/
theorem isInert_docLine (depth : ℕ) {line : List Char} (h : IsFixed line) :
    IsInert (docLine (Text.indentation depth).toList line) := by
  refine (isInert_indentation depth).append ?_
  split
  · exact isInert_of_not_mem (by decide)
  · have hstar : IsInert [' ', '*', ' '] := isInert_of_not_mem (by decide)
    rw [List.append_assoc]
    exact hstar.append (h.isInert_append (by decide) isInert_nil)

/-- The comment around lines is inert. -/
theorem isInert_docBlock (depth : ℕ) {lines : List (List Char)}
    (h : ∀ line ∈ lines, IsFixed line) :
    IsInert (docBlock (Text.indentation depth).toList lines) := by
  have hindent := isInert_indentation depth
  have hend : IsInert ['*', '/', '\n'] := isInert_of_not_mem (by decide)
  have hstart : ∀ c, c ≠ '%' → IsInert ['/', '*', '*', c] := fun c hc =>
    isInert_of_not_mem (by simp [Ne.symm hc])
  unfold docBlock
  split
  · rename_i line
    rw [List.append_assoc]
    exact (hindent.append (hstart ' ' (by decide))).append
      ((h line List.mem_cons_self).isInert_append (by decide) hend)
  · have hlines := isInert_flatMap fun line hl => isInert_docLine depth (h line hl)
    have hspace : IsInert [' '] := isInert_of_not_mem (by decide)
    exact (((hindent.append (hstart '\n' (by decide))).append hlines).append hindent).append
      (hspace.append hend)

/-- A documentation comment is inert when the text names no variable. -/
theorem isInert_docComment {text : String} (h : Fixed text) (depth : ℕ) :
    IsInert (docComment text depth).toList := by
  cases hblank : Text.isAllBlank text.toList with
  | true =>
    rw [docComment_of_isAllBlank hblank]
    exact isInert_nil
  | false =>
    rw [toList_docComment hblank]
    exact isInert_docBlock depth h.docLines

end Module

end TypedClient
