import TypedClient.Module.Generate
import TypedClient.Proofs.Outcomes
import TypedClient.Proofs.TypeScript.Comments

/-!
# Documentation in a module

Whatever the texts of a document say, all they add to a module are comments that stand between
its lines. The variables are replaced afterwards, inside comments too. They are written without
stars, slashes, blanks and line feeds, and what they stand for has none of the first two, so no
comment end comes about and every comment stays the comment around its lines.
-/

namespace TypedClient

/-! ### Replacing what no mark is part of -/

namespace Text

variable {pattern by_ front text : List Char} {c : Char}

/-- A pattern without a character that begins a text ends before this character. -/
theorem isPrefixOf_append_cons (front : List Char) (hc : c ∉ pattern) :
    pattern.isPrefixOf (front ++ c :: text) = pattern.isPrefixOf front := by
  induction pattern generalizing front with
  | nil => rfl
  | cons p pattern ih =>
    rw [List.mem_cons, not_or] at hc
    cases front with
    | nil =>
      rw [List.nil_append, List.isPrefixOf_cons_cons, beq_false_of_ne (Ne.symm hc.1),
        Bool.false_and]
      rfl
    | cons d front =>
      rw [List.cons_append, List.isPrefixOf_cons_cons, List.isPrefixOf_cons_cons,
        ih front hc.2]

/-- No occurrence goes past a character that is not in the pattern. -/
theorem replaceAfter_append_cons (hne : pattern ≠ []) (hc : c ∉ pattern) {skip : ℕ}
    (hskip : skip ≤ front.length) :
    replaceAfter pattern by_ skip (front ++ c :: text) =
      replaceAfter pattern by_ skip front ++ c :: replaceAfter pattern by_ 0 text := by
  induction front generalizing skip with
  | nil =>
    obtain rfl : skip = 0 := Nat.le_zero.1 hskip
    have hapart : pattern.isPrefixOf (c :: text) = false := by
      obtain ⟨p, rest, rfl⟩ := List.exists_cons_of_ne_nil hne
      exact isPrefixOf_append_cons [] hc
    have hkept : replaceAfter pattern by_ 0 (c :: text) = c :: replaceAfter pattern by_ 0 text := by
      rw [replaceAfter, hapart]
      rfl
    rw [List.nil_append, hkept, replaceAfter_nil, List.nil_append]
  | cons d front ih =>
    cases skip with
    | succ skip => exact ih (Nat.le_of_succ_le_succ hskip)
    | zero =>
      have hbefore : pattern.isPrefixOf (d :: (front ++ c :: text)) =
          pattern.isPrefixOf (d :: front) :=
        isPrefixOf_append_cons (d :: front) hc
      rw [List.cons_append, replaceAfter, replaceAfter]
      simp only [hbefore]
      split
      · rename_i hmatch
        have hlength : pattern.length - 1 ≤ front.length := by
          have := (List.isPrefixOf_iff_prefix.1 hmatch).length_le
          rw [List.length_cons] at this
          omega
        rw [ih hlength, List.append_assoc]
      · rw [ih (Nat.zero_le _), List.cons_append]

/-- What a text consists of after replacing comes from the text or from the replacement. -/
theorem mem_replaceAfter {skip : ℕ} (h : c ∈ replaceAfter pattern by_ skip text) :
    c ∈ by_ ∨ c ∈ text := by
  induction text generalizing skip with
  | nil => simp at h
  | cons d text ih =>
    cases skip with
    | succ skip => exact (ih h).imp_right (List.mem_cons_of_mem d)
    | zero =>
      rw [replaceAfter] at h
      split at h
      · rcases List.mem_append.1 h with h | h
        · exact .inl h
        · exact (ih h).imp_right (List.mem_cons_of_mem d)
      · rcases List.mem_cons.1 h with rfl | h
        · exact .inr List.mem_cons_self
        · exact (ih h).imp_right (List.mem_cons_of_mem d)

/-- After replacing, a text begins with the replacement or as before. -/
theorem head?_replaceAfter (hne : by_ ≠ []) (h : (replaceAfter pattern by_ 0 text).head? = some c) :
    c ∈ by_ ∨ text.head? = some c := by
  cases text with
  | nil => simp at h
  | cons d text =>
    rw [replaceAfter] at h
    split at h
    · obtain ⟨e, others, rfl⟩ := List.exists_cons_of_ne_nil hne
      exact .inl (Option.some.inj h ▸ List.mem_cons_self)
    · exact .inr h

end Text

namespace TypeScript

/-- A replacement that is not empty and has no star and no slash completes no comment end. -/
theorem IsOpen.replaceAfter {pattern by_ text : List Char} (hne : by_ ≠ []) (hstar : '*' ∉ by_)
    (hslash : '/' ∉ by_) (h : IsOpen text) (skip : ℕ) :
    IsOpen (Text.replaceAfter pattern by_ skip text) := by
  have hreplaced : ∀ part rest : List Char, '*' ∉ part → IsOpen rest → IsOpen (part ++ rest) := by
    intro part rest hpart hrest
    induction part with
    | nil => exact hrest
    | cons c part ih =>
      rw [List.mem_cons, not_or] at hpart
      exact (ih hpart.2).cons (Ne.symm hpart.1)
  induction text generalizing skip with
  | nil => rwa [Text.replaceAfter_nil]
  | cons c text ih =>
    have hrest := ih (h.part (List.suffix_cons c text).isInfix)
    cases skip with
    | succ skip => exact hrest skip
    | zero =>
      rw [Text.replaceAfter]
      split
      · exact hreplaced _ _ hstar (hrest _)
      · refine (hrest 0).cons_of_head? ?_
        rintro rfl hhead
        rcases Text.head?_replaceAfter hne hhead with hmem | hhead
        · exact hslash hmem
        · obtain ⟨rest, rfl⟩ := List.head?_eq_some_iff.1 hhead
          exact h (List.prefix_append ['*', '/'] rest).isInfix

end TypeScript

namespace Module

open TypeScript

/-! ### Filling in variables -/

/-- The characters that comments and lines are made with. -/
def separators : List Char := [' ', '*', '/', '\n']

/-- A change to texts that goes on between the marks of comments and lines. -/
structure KeepsMarks (f : List Char → List Char) : Prop where
  /-- Nothing comes of nothing. -/
  nil : f [] = []
  /-- What stands before a mark and what stands behind it are changed by themselves. -/
  split : ∀ c ∈ separators, ∀ front text, f (front ++ c :: text) = f front ++ c :: f text
  /-- Nothing comes of nothing else. -/
  eq_nil : ∀ text, f text = [] → text = []
  /-- No comment end comes about. -/
  isOpen : ∀ text, IsOpen text → IsOpen (f text)
  /-- No line feed comes about. -/
  feed : ∀ text, '\n' ∉ text → '\n' ∉ f text

section KeepsMarks

variable {f g : List Char → List Char} {text : List Char} {lines : List (List Char)}

theorem KeepsMarks.comp (hg : KeepsMarks g) (hf : KeepsMarks f) :
    KeepsMarks fun text => g (f text) where
  nil := by rw [hf.nil, hg.nil]
  split := fun c hc front text => by rw [hf.split c hc, hg.split c hc]
  eq_nil := fun text h => hf.eq_nil text (hg.eq_nil _ h)
  isOpen := fun text h => hg.isOpen _ (hf.isOpen text h)
  feed := fun text h => hg.feed _ (hf.feed text h)

/-- Marks at the front are kept. -/
theorem KeepsMarks.append (hf : KeepsMarks f) {front : List Char}
    (h : ∀ c ∈ front, c ∈ separators) (text : List Char) : f (front ++ text) = front ++ f text := by
  induction front with
  | nil => rfl
  | cons c front ih =>
    obtain ⟨hc, hfront⟩ := List.forall_mem_cons.1 h
    have hsplit := hf.split c hc [] (front ++ text)
    rwa [hf.nil, List.nil_append, ih hfront] at hsplit

/-- A text of marks alone is kept. -/
theorem KeepsMarks.marks (hf : KeepsMarks f) (marks : List Char)
    (h : ∀ c ∈ marks, c ∈ separators) : f marks = marks := by
  have hall := hf.append h []
  rwa [List.append_nil, hf.nil, List.append_nil] at hall

theorem mem_separators_of_mem_indentation {depth : ℕ} {c : Char}
    (h : c ∈ (Text.indentation depth).toList) : c ∈ separators := by
  rw [Text.indentation, String.toList_ofList] at h
  rw [List.eq_of_mem_replicate h]
  decide

/-- The blanks a line is indented by are kept. -/
theorem KeepsMarks.indent (hf : KeepsMarks f) (depth : ℕ) (text : List Char) :
    f ((Text.indentation depth).toList ++ text) = (Text.indentation depth).toList ++ f text :=
  hf.append (fun _ hc => mem_separators_of_mem_indentation hc) text

/-- The line of a comment for a line becomes the one for what comes of it. -/
theorem KeepsMarks.docLine (hf : KeepsMarks f) (depth : ℕ) (line text : List Char) :
    f (docLine (Text.indentation depth).toList line ++ text) =
      docLine (Text.indentation depth).toList (f line) ++ f text := by
  have hempty : (f line).isEmpty = line.isEmpty := by
    cases hline : line.isEmpty with
    | true =>
      rw [List.isEmpty_iff.1 hline, hf.nil]
      rfl
    | false =>
      rw [← Bool.not_eq_true, List.isEmpty_iff] at hline ⊢
      exact fun hnil => hline (hf.eq_nil line hnil)
  unfold TypeScript.docLine
  rw [hempty, List.append_assoc, List.append_assoc, hf.indent]
  split
  · rw [hf.append (by simp [separators]), List.append_assoc]
  · have hline : f (line ++ '\n' :: text) = f line ++ '\n' :: f text :=
      hf.split '\n' (by decide) line text
    rw [List.append_assoc, List.append_assoc, List.append_assoc, List.append_assoc,
      hf.append (by simp [separators]), List.singleton_append, hline]
    rfl

theorem KeepsMarks.docLines (hf : KeepsMarks f) (depth : ℕ) (lines : List (List Char))
    (text : List Char) :
    f (lines.flatMap (TypeScript.docLine (Text.indentation depth).toList) ++ text) =
      (lines.map f).flatMap (TypeScript.docLine (Text.indentation depth).toList) ++ f text := by
  induction lines with
  | nil => rfl
  | cons line lines ih =>
    rw [List.flatMap_cons, List.append_assoc, hf.docLine, ih, List.map_cons, List.flatMap_cons,
      List.append_assoc]

/-- What stands around lines stays around what comes of them. -/
theorem KeepsMarks.docBlock (hf : KeepsMarks f) (depth : ℕ) (lines : List (List Char)) :
    f (docBlock (Text.indentation depth).toList lines) =
      docBlock (Text.indentation depth).toList (lines.map f) := by
  by_cases hlength : lines.length = 1
  · obtain ⟨line, rfl⟩ := List.length_eq_one_iff.1 hlength
    have hline : f (line ++ ' ' :: ['*', '/', '\n']) = f line ++ [' ', '*', '/', '\n'] := by
      rw [hf.split ' ' (by decide), hf.marks ['*', '/', '\n'] (by simp [separators])]
    rw [TypeScript.docBlock, List.append_assoc, List.append_assoc, hf.indent,
      hf.append (by simp [separators]), hline]
    simp [TypeScript.docBlock]
  · have hend : f ((Text.indentation depth).toList ++ ([' ', '*', '/'] ++ ['\n'])) =
        (Text.indentation depth).toList ++ ([' ', '*', '/'] ++ ['\n']) := by
      rw [hf.indent, hf.marks _ (by simp [separators])]
    have hfeed : ∀ text, f ('\n' :: text) = '\n' :: f text := fun text => by
      simpa only [hf.nil, List.nil_append] using hf.split '\n' (by decide) [] text
    rw [docBlock_of_length_ne_one _ hlength, docBlock_of_length_ne_one _ (by rwa [List.length_map]),
      List.append_assoc, hf.indent, hf.append (by simp [separators]), hfeed, List.append_assoc,
      hf.docLines, hend]
    simp only [List.append_assoc]

/-- Replacing a pattern without marks by a text that brings none. -/
theorem keepsMarks_replaceAll {pattern by_ : List Char} (hpattern : pattern ≠ [])
    (hmarks : ∀ c ∈ separators, c ∉ pattern) (hne : by_ ≠ []) (hstar : '*' ∉ by_)
    (hslash : '/' ∉ by_) (hfeed : '\n' ∉ by_) : KeepsMarks (Text.replaceAll pattern by_) := by
  have hreplace : Text.replaceAll pattern by_ = Text.replaceAfter pattern by_ 0 := by
    funext text
    rw [Text.replaceAll, List.isEmpty_eq_false_iff.2 hpattern]
    rfl
  rw [hreplace]
  refine ⟨rfl, ?split, ?eq_nil, ?isOpen, ?feed⟩
  case split =>
    exact fun c hc front text =>
      Text.replaceAfter_append_cons hpattern (hmarks c hc) (Nat.zero_le _)
  case eq_nil =>
    intro text h
    cases text with
    | nil => rfl
    | cons c text =>
      rw [Text.replaceAfter] at h
      split at h
      · exact absurd (List.append_eq_nil_iff.1 h).1 hne
      · cases h
  case isOpen => exact fun text h => h.replaceAfter hne hstar hslash 0
  case feed => exact fun text h hm => (Text.mem_replaceAfter hm).elim hfeed h

/-- What a variable stands for has no marks of comments and lines in it but blanks. -/
structure IsHarmless (value : String) : Prop where
  /-- It is not empty. -/
  nonempty : value.toList ≠ []
  /-- There is no star in it. -/
  star : '*' ∉ value.toList
  /-- There is no slash in it. -/
  slash : '/' ∉ value.toList
  /-- There is no line feed in it. -/
  feed : '\n' ∉ value.toList

theorem keepsMarks_replace {by_ : String} (pattern : String) (hpattern : pattern.toList ≠ [])
    (hmarks : ∀ c ∈ separators, c ∉ pattern.toList) (h : IsHarmless by_) :
    KeepsMarks (Text.replaceAll pattern.toList by_.toList) :=
  keepsMarks_replaceAll hpattern hmarks h.nonempty h.star h.slash h.feed

/-- What all variables stand for is without marks. -/
structure Variables.AreHarmless (values : Variables) : Prop where
  /-- The version of the generator. -/
  version : IsHarmless values.version
  /-- The time of the run. -/
  time : IsHarmless values.time
  /-- The versions of the language. -/
  language : IsHarmless values.language

/-- Filling in variables keeps the marks of comments and lines. -/
theorem Variables.AreHarmless.keepsMarks {values : Variables} (h : values.AreHarmless) :
    KeepsMarks fun text => (values.fillIn (String.ofList text)).toList := by
  have hversion := keepsMarks_replace "%version%" (by decide) (by simp [separators]) h.version
  have htime := keepsMarks_replace "%when%" (by decide) (by simp [separators]) h.time
  have hlanguage :=
    keepsMarks_replace "%typescript-version%" (by decide) (by simp [separators]) h.language
  have hall := hlanguage.comp (htime.comp hversion)
  simpa [Variables.fillIn, Text.replace] using hall

end KeepsMarks

/-! ### Comments of a module -/

section Inserting

variable {f : List Char → List Char} {kind : List Char → Prop} {start : Bool}
  {plain text : List Char}

/-- Filling in keeps what is inserted between lines, if the parts stay of their kind. -/
theorem inserted_map (hf : KeepsMarks f)
    (hkind : ∀ part, kind part → kind (f part) ∧ ∃ front, part = front ++ ['\n'])
    (h : Inserted kind start plain text) {line : List Char} (hline : start = true → line = []) :
    Inserted kind true (f (line ++ plain)) (f (line ++ text)) := by
  have hfeed : ∀ front text, f (front ++ '\n' :: text) = f front ++ '\n' :: f text :=
    hf.split '\n' (by decide)
  induction h generalizing line with
  | nil => exact .refl _ _ _
  | @char start c plain text _ ih =>
    by_cases hc : c = '\n'
    · subst hc
      rw [hfeed, hfeed]
      exact (Inserted.refl _ _ (f line)).feed (ih fun _ => rfl)
    · have hnext : (c == '\n') = true → line ++ [c] = [] := fun heq => absurd (eq_of_beq heq) hc
      have hlonger := ih hnext
      rwa [List.append_assoc, List.append_assoc] at hlonger
  | @part inserted plain text hpart _ ih =>
    obtain rfl := hline rfl
    obtain ⟨hfilled, front, rfl⟩ := hkind _ hpart
    have hbehind : f (front ++ ['\n'] ++ text) = f (front ++ ['\n']) ++ f text := by
      rw [List.append_assoc, List.singleton_append, hfeed, hfeed, hf.nil]
      simp
    rw [List.nil_append, List.nil_append, hbehind]
    exact .part hfilled (ih fun _ => rfl)

end Inserting

/-- A text is the comment around lines without comment ends and line feeds. -/
def IsBlock (part : List Char) : Prop :=
  ∃ (depth : ℕ) (lines : List (List Char)), (∀ line ∈ lines, IsOpen line ∧ '\n' ∉ line) ∧
    part = docBlock (Text.indentation depth).toList lines

theorem IsBlock.isComment {part : List Char} (h : IsBlock part) :
    ∃ depth lines, IsComment depth lines part := by
  obtain ⟨depth, lines, hlines, rfl⟩ := h
  exact ⟨depth, lines, isComment_docBlock depth (fun line hl => (hlines line hl).1)
    fun line hl => (hlines line hl).2⟩

/-- A comment ends with the line it stands on. -/
theorem IsBlock.exists_line {part : List Char} (h : IsBlock part) :
    ∃ front, part = front ++ ['\n'] := by
  obtain ⟨depth, lines, hcomment⟩ := h.isComment
  obtain ⟨front, rfl⟩ := hcomment.ends
  exact ⟨front ++ ['*', '/'], by simp⟩

/-- What becomes of a comment when variables are filled in is one. -/
theorem IsBlock.map {f : List Char → List Char} (hf : KeepsMarks f) {part : List Char}
    (h : IsBlock part) : IsBlock (f part) := by
  obtain ⟨depth, lines, hlines, rfl⟩ := h
  refine ⟨depth, lines.map f, fun line hline => ?_, hf.docBlock depth lines⟩
  obtain ⟨full, hfull, rfl⟩ := List.mem_map.1 hline
  exact ⟨hf.isOpen full (hlines full hfull).1, hf.feed full (hlines full hfull).2⟩

/-- The comment for a documentation text, if there is one, stands around its lines. -/
theorem isBlock_of_isDocComment {part : List Char} (h : IsDocComment part) :
    part = [] ∨ IsBlock part := by
  obtain ⟨doc, depth, rfl⟩ := h
  cases hblank : Text.isAllBlank doc.toList with
  | true =>
    rw [docComment_of_isAllBlank hblank]
    exact .inl rfl
  | false => exact .inr ⟨depth, _, fun _ => isOpen_of_mem_docLines, toList_docComment hblank depth⟩

/-- A module that is being built, without documentation. -/
def Builder.undocumented (b : Builder) : Builder :=
  { b with declarations := b.declarations.map Declaration.undocumented }

/-- The first of each name does not depend on anything but names. -/
theorem firstByNameFrom_map {α β : Type} {name : β → String} {name' : α → String} {g : α → β}
    (hname : ∀ a, name (g a) = name' a) (seen : List String) (elements : List α) :
    firstByNameFrom name seen (elements.map g) = (firstByNameFrom name' seen elements).map g := by
  induction elements generalizing seen with
  | nil => rfl
  | cons a rest ih =>
    rw [List.map_cons, firstByNameFrom, firstByNameFrom, hname]
    split
    · exact ih seen
    · rw [ih, List.map_cons]

/-- Documentation only inserts comments into the text of a module. -/
theorem documents_text (b : Builder) (template : String) (options : Options) :
    Documents true (b.undocumented.text template options) (b.text template options) := by
  have hprinted : b.undocumented.printedDeclarations =
      b.printedDeclarations.map Declaration.undocumented :=
    firstByNameFrom_map Declaration.name_undocumented [] b.declarations
  have hdeclarations : Documents true
      (Text.joinWith "\n" (b.undocumented.printedDeclarations.map
        (Declaration.text options.declarationsOnly)))
      (Text.joinWith "\n" (b.printedDeclarations.map
        (Declaration.text options.declarationsOnly))) := by
    refine Documents.joinLines ?_
    rw [hprinted, List.map_map, List.forall₂_map_left_iff, List.forall₂_map_right_iff,
      List.forall₂_same]
    exact fun d _ => documents_declaration options.declarationsOnly d
  exact ((Documents.refl true _).feed hdeclarations).append (.refl false "\n")

/-- The comment for a text that is not blank is the comment around the lines of the trimmed text,
each with its comment ends broken up, and there is none for a blank one. All that documentation
adds to a module are such comments between its lines, before variables are filled in and after. -/
theorem documentation_only_comments :
    (∀ text depth, (docComment text depth = "" ↔ Text.isAllBlank text.toList = true) ∧
      (Text.isAllBlank text.toList = false →
        IsComment depth (docLines text.toList) (docComment text depth).toList)) ∧
    (∀ (b : Builder) template options,
      Inserted IsDocComment true (b.undocumented.text template options).toList
        (b.text template options).toList) ∧
    ∀ dialects document template options values text warnings, values.AreHarmless →
      ofDocument dialects document template options values = (.ok text, warnings) →
      ∃ api b, (Dialect.readWith dialects document).1 = .ok api ∧ (build api options).1 = .ok b ∧
        Inserted (fun part => ∃ depth lines, IsComment depth lines part) true
          (values.fillIn (b.undocumented.text template options)).toList text.toList := by
  refine ⟨fun text depth => ⟨docComment_eq_empty_iff text depth,
    fun hblank => isComment_docComment hblank depth⟩, documents_text, ?_⟩
  intro dialects document template options values text warnings hvalues h
  rw [ofDocument] at h
  generalize Dialect.readWith dialects document = outcome at h ⊢
  obtain ⟨e | api, first⟩ := outcome
  · cases (Prod.mk.inj h).1
  · simp only [ofApi] at h
    generalize hbuild : build api options = outcome at h
    obtain ⟨e | b, more⟩ := outcome
    · cases (Prod.mk.inj h).1
    · obtain rfl : values.fillIn (b.text template options) = text :=
        Except.ok.inj (Prod.mk.inj h).1
      refine ⟨api, b, rfl, by rw [hbuild], ?_⟩
      have hblocks : Inserted IsBlock true (b.undocumented.text template options).toList
          (b.text template options).toList :=
        Inserted.mono (fun _ => isBlock_of_isDocComment) (documents_text b template options)
      have hfilled := inserted_map hvalues.keepsMarks
        (fun part hpart => ⟨hpart.map hvalues.keepsMarks, hpart.exists_line⟩) hblocks fun _ => rfl
      rw [List.nil_append, List.nil_append, String.ofList_toList, String.ofList_toList] at hfilled
      exact hfilled.mono fun _ hpart => .inr hpart.isComment

/-- Stars and slashes at the ends of lines, next to an escaped comment end, and a document whose
only operation is described by what would end a comment. -/
theorem documentation_only_comments_slashes :
    let text := "\n a *// b*\r\n\n/ * c *"
    let values : Variables := ⟨"0.1.0", "2026-01-31T12:00:00Z", languageVersion⟩
    let document := Json.object [("swagger", .string "2.0"), ("paths", .object [("/pets/*/food",
      .object [("get", .object [("summary", .string "*/ %version%"),
        ("description", .string "Feeds\n*/")])])])]
    docLines text.toList = ["a *\\// b*".toList, [], "/ * c *".toList] ∧
      docComment text 1 =
        "    /**\n     * a *\\// b*\n     *\n     * / * c *\n     */\n" ∧
      IsComment 1 (docLines text.toList) (docComment text 1).toList ∧
      values.AreHarmless ∧ ∃ filled warnings api b,
        ofDocument Dialect.known document "// %version%" {} values = (.ok filled, warnings) ∧
          (Dialect.readWith Dialect.known document).1 = .ok api ∧ (build api {}).1 = .ok b ∧
          Inserted (fun part => ∃ depth lines, IsComment depth lines part) true
            (values.fillIn (b.undocumented.text "// %version%" {})).toList filled.toList := by
  intro text values document
  have hvalues : values.AreHarmless := by
    constructor <;> constructor <;> decide
  have hfilled : (ofDocument Dialect.known document "// %version%" {} values).1.toOption.isSome =
      true := by
    decide +kernel
  obtain ⟨filled, hsome⟩ := Option.isSome_iff_exists.1 hfilled
  have hmodule : ofDocument Dialect.known document "// %version%" {} values =
      (.ok filled, (ofDocument Dialect.known document "// %version%" {} values).2) :=
    Prod.ext (eq_ok_of_toOption hsome) rfl
  obtain ⟨api, b, hread, hbuild, hinserted⟩ :=
    documentation_only_comments.2.2 Dialect.known document _ {} values filled _ hvalues hmodule
  exact ⟨by decide, by decide, (documentation_only_comments.1 text 1).2 (by decide), hvalues,
    filled, _, api, b, hmodule, hread, hbuild, hinserted⟩

end Module

end TypedClient
