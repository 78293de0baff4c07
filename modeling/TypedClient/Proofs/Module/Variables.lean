import Mathlib.Data.List.Infix
import TypedClient.Proofs.Json.Texts
import TypedClient.Proofs.Module.Documentation

/-!
# Texts without variables

Filling in leaves a text alone for every choice of values exactly when the text names no
variable. Texts that name none may name one when they are put together, but not where a
character comes between them that no variable has. A part is inert when it can stand in front of
any text without a variable.
-/

namespace TypedClient

namespace Text

variable {pattern front text : List Char} {c : Char}

/-- A pattern without a character is found before the character or behind it. -/
theorem infix_append_cons_iff (hne : pattern ≠ []) (hc : c ∉ pattern) :
    pattern <:+: front ++ c :: text ↔ pattern <:+: front ∨ pattern <:+: text := by
  induction front with
  | nil =>
    have hapart : ¬ pattern <+: c :: text := by
      rw [← List.isPrefixOf_iff_prefix]
      have hnil : pattern.isPrefixOf (c :: text) = pattern.isPrefixOf [] :=
        isPrefixOf_append_cons [] hc
      rw [hnil, List.isPrefixOf_iff_prefix, List.prefix_nil]
      exact hne
    rw [List.nil_append, List.infix_cons_iff, or_iff_right hapart, List.infix_nil,
      or_iff_right hne]
  | cons d front ih =>
    have hbefore : pattern <+: d :: (front ++ c :: text) ↔ pattern <+: d :: front := by
      rw [← List.isPrefixOf_iff_prefix, ← List.isPrefixOf_iff_prefix]
      exact Bool.eq_iff_iff.1 (isPrefixOf_append_cons (d :: front) hc)
    rw [List.cons_append, List.infix_cons_iff, List.infix_cons_iff, hbefore, ih, or_assoc]

/-- What is passed over is left out. -/
theorem replaceAfter_eq_drop (by_ : List Char) (skip : ℕ) (text : List Char) :
    replaceAfter pattern by_ skip text = replaceAfter pattern by_ 0 (text.drop skip) := by
  induction skip generalizing text with
  | zero => rfl
  | succ skip ih =>
    cases text with
    | nil => rfl
    | cons c text => exact ih text

/-- An occurrence at the front is replaced. -/
theorem replaceAfter_append_self (hne : pattern ≠ []) (by_ text : List Char) :
    replaceAfter pattern by_ 0 (pattern ++ text) = by_ ++ replaceAfter pattern by_ 0 text := by
  obtain ⟨c, rest, rfl⟩ := List.exists_cons_of_ne_nil hne
  have hfound : (c :: rest).isPrefixOf (c :: (rest ++ text)) = true :=
    List.isPrefixOf_iff_prefix.2 (List.prefix_append (c :: rest) text)
  rw [List.cons_append, replaceAfter, if_pos hfound, replaceAfter_eq_drop]
  simp

/-- Every text is put together of occurrences of a pattern and of other characters. -/
theorem replacing_induction {motive : List Char → Prop} (hne : pattern ≠ []) (nil : motive [])
    (found : ∀ rest, motive rest → motive (pattern ++ rest))
    (char : ∀ c rest, ¬ pattern <+: c :: rest → motive rest → motive (c :: rest))
    (text : List Char) : motive text := by
  induction hlength : text.length using Nat.strong_induction_on generalizing text with
  | _ length ih =>
    subst hlength
    cases text with
    | nil => exact nil
    | cons c rest =>
      by_cases hstarts : pattern <+: c :: rest
      · obtain ⟨rest', heq⟩ := hstarts
        rw [← heq]
        refine found rest' (ih _ ?_ rest' rfl)
        have hpositive := List.length_pos_of_ne_nil hne
        rw [← heq, List.length_append]
        omega
      · exact char c rest hstarts (ih _ (Nat.lt_succ_self _) rest rfl)

/-- A character at which no occurrence begins is kept. -/
theorem replaceAfter_cons (by_ : List Char) {rest : List Char} (h : ¬ pattern <+: c :: rest) :
    replaceAfter pattern by_ 0 (c :: rest) = c :: replaceAfter pattern by_ 0 rest := by
  rw [replaceAfter, if_neg (by rwa [List.isPrefixOf_iff_prefix])]

/-- Replacing a pattern by itself does nothing. -/
theorem replaceAfter_self (hne : pattern ≠ []) (text : List Char) :
    replaceAfter pattern pattern 0 text = text := by
  induction text using replacing_induction hne with
  | nil => rfl
  | found rest ih => rw [replaceAfter_append_self hne, ih]
  | char c rest h ih => rw [replaceAfter_cons pattern h, ih]

/-- Leaving out all occurrences makes no text longer. -/
theorem length_replaceAfter_nil_le (hne : pattern ≠ []) (text : List Char) :
    (replaceAfter pattern [] 0 text).length ≤ text.length := by
  induction text using replacing_induction hne with
  | nil => exact Nat.le_refl 0
  | found rest ih =>
    rw [replaceAfter_append_self hne, List.nil_append, List.length_append]
    omega
  | char c rest h ih =>
    rw [replaceAfter_cons [] h]
    exact Nat.succ_le_succ ih

/-- Leaving out all occurrences leaves a text as long as it is only when there are none. -/
theorem not_infix_of_length_replaceAfter (hne : pattern ≠ [])
    (h : (replaceAfter pattern [] 0 text).length = text.length) : ¬ pattern <:+: text := by
  have hpositive := List.length_pos_of_ne_nil hne
  induction text using replacing_induction hne with
  | nil => simpa using hne
  | found rest ih =>
    have hle := length_replaceAfter_nil_le hne rest
    rw [replaceAfter_append_self hne, List.nil_append, List.length_append] at h
    omega
  | char c rest hstarts ih =>
    rw [replaceAfter_cons [] hstarts] at h
    rw [List.infix_cons_iff, not_or]
    exact ⟨hstarts, ih (Nat.succ.inj h)⟩

end Text

namespace Module

/-- The variables that are filled in. -/
def variableNames : List String := ["%version%", "%when%", "%typescript-version%"]

/-- A text is fixed when it names no variable. -/
def IsFixed (text : List Char) : Prop := ∀ v ∈ variableNames, ¬ v.toList <:+: text

/-- A text of a document is fixed when its characters are. -/
abbrev Fixed (text : String) : Prop := IsFixed text.toList

/-- A character separates when no variable has it. -/
def Separates (c : Char) : Prop := ∀ v ∈ variableNames, c ∉ v.toList

/-- A part is inert when what names no variable still names none behind it. -/
def IsInert (part : List Char) : Prop := ∀ rest, IsFixed rest → IsFixed (part ++ rest)

instance : DecidablePred IsFixed := fun text =>
  inferInstanceAs (Decidable (∀ v ∈ variableNames, ¬ v.toList <:+: text))

instance : DecidablePred Separates := fun c =>
  inferInstanceAs (Decidable (∀ v ∈ variableNames, c ∉ v.toList))

theorem ne_nil_of_mem_variableNames : ∀ v ∈ variableNames, v.toList ≠ [] := by decide

section Parts

variable {front part text rest : List Char} {c : Char}

theorem isFixed_nil : IsFixed [] := by decide

/-- A part of a text without variables has none. -/
theorem IsFixed.within (h : IsFixed text) (hpart : part <:+: text) : IsFixed part :=
  fun v hv hfound => h v hv (hfound.trans hpart)

/-- No variable goes past a character that no variable has. -/
theorem isFixed_append_cons_iff (hc : Separates c) :
    IsFixed (front ++ c :: text) ↔ IsFixed front ∧ IsFixed text := by
  have hsplit : ∀ v ∈ variableNames,
      (¬ v.toList <:+: front ++ c :: text ↔ ¬ v.toList <:+: front ∧ ¬ v.toList <:+: text) :=
    fun v hv => by
      rw [Text.infix_append_cons_iff (ne_nil_of_mem_variableNames v hv) (hc v hv), not_or]
  constructor
  · exact fun h => ⟨fun v hv => ((hsplit v hv).1 (h v hv)).1,
      fun v hv => ((hsplit v hv).1 (h v hv)).2⟩
  · exact fun h v hv => (hsplit v hv).2 ⟨h.1 v hv, h.2 v hv⟩

/-- A character that no variable has can stand in front of a text without variables. -/
theorem isFixed_cons_iff (hc : Separates c) : IsFixed (c :: text) ↔ IsFixed text := by
  have hsplit : IsFixed ([] ++ c :: text) ↔ IsFixed [] ∧ IsFixed text := isFixed_append_cons_iff hc
  exact hsplit.trans (and_iff_right isFixed_nil)

/-- Texts without variables can stand below each other. -/
theorem allowsLines_isFixed : AllowsLines Fixed where
  empty := isFixed_nil
  below above below habove hbelow := by
    rw [Fixed, String.toList_append, String.toList_append, List.append_assoc]
    exact (isFixed_append_cons_iff (by decide)).2 ⟨habove, hbelow⟩

theorem isInert_nil : IsInert [] := fun _ h => h

theorem IsInert.append (h : IsInert part) (hrest : IsInert rest) : IsInert (part ++ rest) := by
  intro text htext
  rw [List.append_assoc]
  exact h _ (hrest text htext)

/-- An inert part names no variable. -/
theorem IsInert.isFixed (h : IsInert part) : IsFixed part := by
  have hall := h [] isFixed_nil
  rwa [List.append_nil] at hall

/-- A part without percent signs is inert, since every variable begins with one. -/
theorem isInert_of_not_mem (h : '%' ∉ part) : IsInert part := by
  have hstart : ∀ v ∈ variableNames, v.toList.head? = some '%' := by decide
  intro rest hrest
  induction part with
  | nil => exact hrest
  | cons c part ih =>
    rw [List.mem_cons, not_or] at h
    intro v hv hfound
    rcases List.infix_cons_iff.1 hfound with hstarts | hlater
    · obtain ⟨others, hothers⟩ := List.head?_eq_some_iff.1 (hstart v hv)
      rw [hothers] at hstarts
      exact h.1 (List.cons_prefix_cons.1 hstarts).1
    · exact ih h.2 v hv hlater

/-- A text without variables is inert together with what separates it from what follows. -/
theorem IsFixed.isInert_append (h : IsFixed text) (hc : Separates c) (hrest : IsInert rest) :
    IsInert (text ++ c :: rest) := by
  intro behind hbehind
  rw [List.append_assoc, List.cons_append]
  exact (isFixed_append_cons_iff hc).2 ⟨h, hrest behind hbehind⟩

/-- Text without percent signs is inert. -/
theorem isInert_plain (text : String) (h : '%' ∉ text.toList) : IsInert text.toList :=
  isInert_of_not_mem h

/-- Texts that are inert make an inert text. -/
theorem IsInert.concat {text text' : String} (h : IsInert text.toList) (h' : IsInert text'.toList) :
    IsInert (text ++ text').toList := by
  rw [String.toList_append]
  exact h.append h'

/-- An inert text stays inert between texts without percent signs. -/
theorem IsInert.between {text : String} (h : IsInert text.toList) (front back : String)
    (hfront : '%' ∉ front.toList) (hback : '%' ∉ back.toList) :
    IsInert (front ++ text ++ back).toList :=
  ((isInert_plain front hfront).concat h).concat (isInert_plain back hback)

/-- Inert parts one after another. -/
theorem isInert_flatMap {α : Type} {f : α → List Char} {elements : List α}
    (h : ∀ a ∈ elements, IsInert (f a)) : IsInert (elements.flatMap f) := by
  induction elements with
  | nil => exact isInert_nil
  | cons a elements ih =>
    obtain ⟨ha, helements⟩ := List.forall_mem_cons.1 h
    rw [List.flatMap_cons]
    exact ha.append (ih helements)

/-- Inert texts with a separator between them. -/
theorem isInert_joinWith (separator : String) (hseparator : '%' ∉ separator.toList)
    {texts : List String} (h : ∀ t ∈ texts, IsInert t.toList) :
    IsInert (Text.joinWith separator texts).toList := by
  induction texts with
  | nil => exact isInert_nil
  | cons t texts ih =>
    obtain ⟨ht, htexts⟩ := List.forall_mem_cons.1 h
    cases texts with
    | nil => exact ht
    | cons t' texts =>
      exact (ht.concat (isInert_plain separator hseparator)).concat (ih htexts)

end Parts

/-! ### What filling in changes -/

/-- The variables stand for themselves. -/
def Variables.names : Variables := ⟨"%version%", "%when%", "%typescript-version%"⟩

/-- The variables stand for nothing. -/
def Variables.blank : Variables := ⟨"", "", ""⟩

section Filling

variable {text : String}

/-- Replacing with patterns that are not empty. -/
theorem toList_replace {pattern : String} (hne : pattern.toList ≠ []) (text by_ : String) :
    (Text.replace text pattern by_).toList =
      Text.replaceAfter pattern.toList by_.toList 0 text.toList := by
  rw [Text.replace, String.toList_ofList, Text.replaceAll, List.isEmpty_eq_false_iff.2 hne]
  rfl

/-- A text that names no variable is left alone. -/
theorem Variables.fillIn_of_isFixed (values : Variables) (h : Fixed text) :
    values.fillIn text = text := by
  have hkept : ∀ v ∈ variableNames, ∀ by_, Text.replace text v by_ = text := by
    intro v hv by_
    refine String.ext ?_
    rw [toList_replace (ne_nil_of_mem_variableNames v hv)]
    exact Text.replaceAfter_of_not_infix _ _ _ (h v hv)
  unfold Variables.fillIn
  rw [hkept _ (by decide), hkept _ (by decide), hkept _ (by decide)]

/-- The variables are replaced one after another. -/
theorem Variables.toList_fillIn (values : Variables) (text : String) :
    (values.fillIn text).toList =
      Text.replaceAfter "%typescript-version%".toList values.language.toList 0
        (Text.replaceAfter "%when%".toList values.time.toList 0
          (Text.replaceAfter "%version%".toList values.version.toList 0 text.toList)) := by
  rw [Variables.fillIn, toList_replace (by decide), toList_replace (by decide),
    toList_replace (by decide)]

/-- What stands before a character that no variable has and what stands behind it are filled in by
themselves. -/
theorem Variables.fillIn_append_cons (values : Variables) {c : Char} (hc : Separates c)
    (front text : List Char) :
    (values.fillIn (String.ofList (front ++ c :: text))).toList =
      (values.fillIn (String.ofList front)).toList ++
        c :: (values.fillIn (String.ofList text)).toList := by
  have hsplit : ∀ v ∈ variableNames, ∀ by_ front text : List Char,
      Text.replaceAfter v.toList by_ 0 (front ++ c :: text) =
        Text.replaceAfter v.toList by_ 0 front ++ c :: Text.replaceAfter v.toList by_ 0 text :=
    fun v hv by_ front text =>
      Text.replaceAfter_append_cons (ne_nil_of_mem_variableNames v hv) (hc v hv) (Nat.zero_le _)
  have hlist : ∀ text, (String.ofList text).toList = text := fun _ => String.toList_ofList
  rw [values.toList_fillIn, values.toList_fillIn, values.toList_fillIn, hlist (front ++ c :: text),
    hlist front, hlist text, hsplit "%version%" (by decide), hsplit "%when%" (by decide),
    hsplit "%typescript-version%" (by decide)]

/-- Variables that stand for themselves change nothing. -/
theorem Variables.fillIn_names (text : String) : Variables.names.fillIn text = text := by
  have hkept : ∀ (text v : String), v.toList ≠ [] → Text.replace text v v = text := by
    intro text v hne
    refine String.ext ?_
    rw [toList_replace hne, Text.replaceAfter_self hne]
  unfold Variables.fillIn
  exact (hkept _ _ (by decide)).trans ((hkept _ _ (by decide)).trans (hkept _ _ (by decide)))

/-- A text that is left alone by variables that stand for nothing names none. -/
theorem isFixed_of_fillIn_blank (h : Variables.blank.fillIn text = text) : Fixed text := by
  have hle : ∀ (text v : String), v.toList ≠ [] →
      (Text.replace text v "").toList.length ≤ text.toList.length := by
    intro text v hne
    rw [toList_replace hne]
    exact Text.length_replaceAfter_nil_le hne _
  have hkept : ∀ (text v : String), v.toList ≠ [] →
      (Text.replace text v "").toList.length = text.toList.length →
      ¬ v.toList <:+: text.toList ∧ Text.replace text v "" = text := by
    intro text v hne hlength
    have hreplace := toList_replace hne text ""
    have hnone : ¬ v.toList <:+: text.toList :=
      Text.not_infix_of_length_replaceAfter hne (hreplace ▸ hlength)
    refine ⟨hnone, String.ext ?_⟩
    rw [hreplace]
    exact Text.replaceAfter_of_not_infix _ _ _ hnone
  -- the lengths only go down, so each of the three replacements keeps the length
  have hthird := hle (Text.replace (Text.replace text "%version%" "") "%when%" "")
    "%typescript-version%" (by decide)
  have hsecond := hle (Text.replace text "%version%" "") "%when%" (by decide)
  have hfirst := hle text "%version%" (by decide)
  have hlength := congrArg (fun text => text.toList.length) h
  dsimp only [Variables.blank, Variables.fillIn] at hlength
  obtain ⟨hversion, heq⟩ := hkept text "%version%" (by decide) (by omega)
  rw [heq] at hthird hsecond hlength
  obtain ⟨hwhen, heq⟩ := hkept text "%when%" (by decide) (by omega)
  rw [heq] at hthird hlength
  obtain ⟨hlanguage, -⟩ := hkept text "%typescript-version%" (by decide) (by omega)
  intro v hv
  simp only [variableNames, List.mem_cons, List.not_mem_nil, or_false] at hv
  rcases hv with rfl | rfl | rfl
  · exact hversion
  · exact hwhen
  · exact hlanguage

/-- What is filled in does not depend on the values exactly when a text names no variable. -/
theorem fillIn_eq_iff_isFixed :
    (∀ values values' : Variables, values.fillIn text = values'.fillIn text) ↔ Fixed text := by
  constructor
  · exact fun h =>
      isFixed_of_fillIn_blank ((h _ Variables.names).trans (Variables.fillIn_names text))
  · exact fun h values values' =>
      (values.fillIn_of_isFixed h).trans (values'.fillIn_of_isFixed h).symm

end Filling

end Module

end TypedClient
