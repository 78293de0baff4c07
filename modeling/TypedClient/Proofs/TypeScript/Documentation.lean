import TypedClient.Proofs.Text.Splitting
import TypedClient.Proofs.TypeScript.Tokens

/-!
# What a documentation comment holds

A comment holds the lines of its text, one after another, each with its comment ends broken
up. A comment end needs a star and a slash next to each other, and neither escaping, cutting
into lines and trimming them nor the marks that begin a line put these two together, so the
one comment end is the last thing on the last line.
-/

namespace TypedClient

namespace Text

variable {text rest line : List Char} {c : Char}

/-- Nothing remains of a text that is trimmed exactly when it is blank. -/
theorem trim_eq_nil_iff (text : List Char) : trim text = [] ↔ isAllBlank text = true := by
  rw [trim, trimEnd_eq_nil_iff]
  induction text with
  | nil => rfl
  | cons c rest ih =>
    unfold trimStart at ih ⊢
    cases hc : isBlank c with
    | true => simpa [isAllBlank, hc] using ih
    | false => simp [isAllBlank, hc]

/-- Whether a character in front of a text belongs to the ending of a line. -/
def EndsLine (c : Char) (rest : List Char) : Prop :=
  c = '\n' ∨ c = '\r' ∧ rest.head? = some '\n'

/-- A character that ends no line belongs to the first line of what follows it. -/
theorem lines_cons (hc : ¬ EndsLine c rest) :
    lines (c :: rest) = (c :: (lines rest).headD []) :: (lines rest).tail := by
  rw [lines.eq_def]
  split
  · contradiction
  · rename_i heq
    obtain ⟨rfl, rfl⟩ := List.cons.inj heq
    exact absurd (Or.inr ⟨rfl, rfl⟩) hc
  · rename_i heq
    exact absurd (Or.inl (List.cons.inj heq).1) hc
  · rename_i heq
    obtain ⟨rfl, rfl⟩ := List.cons.inj heq
    cases lines rest <;> rfl

/-- What holds of the empty text and is kept by endings of lines and by other characters holds
of every text. -/
theorem lines_induction {motive : List Char → Prop} (nil : motive [])
    (pair : ∀ rest, motive rest → motive ('\r' :: '\n' :: rest))
    (feed : ∀ rest, motive rest → motive ('\n' :: rest))
    (char : ∀ c rest, ¬ EndsLine c rest → motive rest → motive (c :: rest)) (text : List Char) :
    motive text := by
  have hends : ∀ c rest, (∀ others, c = '\r' → rest = '\n' :: others → False) →
      (c = '\n' → False) → ¬ EndsLine c rest := by
    rintro c rest hpair hfeed (hc | ⟨hc, hrest⟩)
    · exact hfeed hc
    · obtain ⟨others, rfl⟩ := List.head?_eq_some_iff.1 hrest
      exact hpair others hc rfl
  induction text using lines.induct with
  | case1 => exact nil
  | case2 rest ih => exact pair rest ih
  | case3 rest ih => exact feed rest ih
  | case4 c rest hpair hfeed _ ih => exact char c rest (hends c rest hpair hfeed) ih
  | case5 c rest hpair hfeed _ _ _ ih => exact char c rest (hends c rest hpair hfeed) ih

/-- The first line begins as the text does, if it is not empty. -/
theorem head?_headD_lines (h : ((lines text).headD []).head? = some c) : text.head? = some c := by
  induction text using lines_induction with
  | nil => cases h
  | pair rest ih => cases h
  | feed rest ih => cases h
  | char d rest hd ih =>
    rw [lines_cons hd] at h
    exact h

/-- No line holds a line feed. -/
theorem not_mem_of_mem_lines (h : line ∈ lines text) : '\n' ∉ line := by
  induction text using lines_induction generalizing line with
  | nil => cases h
  | pair rest ih =>
    rcases List.mem_cons.1 h with rfl | h
    · exact List.not_mem_nil
    · exact ih h
  | feed rest ih =>
    rcases List.mem_cons.1 h with rfl | h
    · exact List.not_mem_nil
    · exact ih h
  | char c rest hc ih =>
    rw [lines_cons hc] at h
    rcases List.mem_cons.1 h with rfl | h
    · refine List.not_mem_cons_of_ne_of_not_mem (fun hfeed => hc (.inl hfeed.symm)) ?_
      cases hlines : lines rest with
      | nil => exact List.not_mem_nil
      | cons first others =>
        rw [hlines] at ih
        exact ih List.mem_cons_self
    · exact ih (List.mem_of_mem_tail h)

end Text

namespace TypeScript

open Text (EndsLine)

/-! ### Lines of a text with its comment ends broken up -/

/-- A text with every comment end in it broken up. -/
def brokenUp (text : List Char) : List Char := Text.replaceAll ['*', '/'] ['*', '\\', '/'] text

/-- The lines that a comment holds for a text. -/
def docLines (text : List Char) : List (List Char) :=
  (Text.lines (Text.trim text)).map fun line => Text.trimEnd (brokenUp line)

section BrokenUp

variable {text rest line : List Char} {c : Char}

/-- A comment end is broken up. -/
theorem brokenUp_end (rest : List Char) :
    brokenUp ('*' :: '/' :: rest) = '*' :: '\\' :: '/' :: brokenUp rest := rfl

/-- A character that begins no comment end is kept. -/
theorem brokenUp_cons (h : c = '*' → rest.head? ≠ some '/') :
    brokenUp (c :: rest) = c :: brokenUp rest := by
  have hnone : ['*', '/'].isPrefixOf (c :: rest) = false := by
    rw [Bool.eq_false_iff, Ne, List.isPrefixOf_iff_prefix]
    intro hstarts
    obtain ⟨hstar, hslash⟩ := List.cons_prefix_cons.1 hstarts
    obtain ⟨others, rfl⟩ := hslash
    exact h hstar.symm rfl
  have hstep : brokenUp (c :: rest) = if ['*', '/'].isPrefixOf (c :: rest) then
      ['*', '\\', '/'] ++ Text.replaceAfter ['*', '/'] ['*', '\\', '/'] 1 rest
    else c :: brokenUp rest := rfl
  rw [hstep, hnone]
  rfl

/-- A text begins as before when its comment ends are broken up. -/
theorem head?_brokenUp (text : List Char) : (brokenUp text).head? = text.head? := by
  cases text with
  | nil => rfl
  | cons c rest =>
    by_cases h : c = '*' → rest.head? ≠ some '/'
    · rw [brokenUp_cons h]
      rfl
    · push Not at h
      obtain ⟨rfl, hslash⟩ := h
      obtain ⟨others, rfl⟩ := List.head?_eq_some_iff.1 hslash
      rfl

/-- Breaking up comment ends leaves nothing only of nothing. -/
theorem brokenUp_eq_nil_iff : brokenUp text = [] ↔ text = [] := by
  rw [← List.head?_eq_none_iff, head?_brokenUp, List.head?_eq_none_iff]

/-- Breaking up comment ends and cutting into lines can be done in either order. -/
theorem lines_brokenUp (text : List Char) :
    Text.lines (brokenUp text) = (Text.lines text).map brokenUp := by
  induction text using Text.lines_induction with
  | nil => rfl
  | pair rest ih => exact congrArg ([] :: ·) ih
  | feed rest ih => exact congrArg ([] :: ·) ih
  | char c rest hc ih =>
    have hfirst : (Text.lines (brokenUp rest)).headD [] =
        brokenUp ((Text.lines rest).headD []) := by
      rw [ih]
      cases Text.lines rest <;> rfl
    have htail : (Text.lines (brokenUp rest)).tail = (Text.lines rest).tail.map brokenUp := by
      rw [ih, List.map_tail]
    by_cases h : c = '*' → rest.head? ≠ some '/'
    · -- the line that the character is put in front of begins as the rest does
      have hline : c = '*' → ((Text.lines rest).headD []).head? ≠ some '/' :=
        fun hstar hslash => h hstar (Text.head?_headD_lines hslash)
      have hends : ¬ EndsLine c (brokenUp rest) := by
        rwa [EndsLine, head?_brokenUp]
      rw [brokenUp_cons h, Text.lines_cons hends, Text.lines_cons hc, hfirst, htail, List.map_cons,
        brokenUp_cons hline]
    · push Not at h
      obtain ⟨rfl, hslash⟩ := h
      obtain ⟨others, rfl⟩ := List.head?_eq_some_iff.1 hslash
      have hkept : ∀ others, brokenUp ('/' :: others) = '/' :: brokenUp others :=
        fun others => brokenUp_cons fun hstar => absurd hstar (by decide)
      have hslashLine : Text.lines ('/' :: others) =
          ('/' :: (Text.lines others).headD []) :: (Text.lines others).tail :=
        Text.lines_cons (by simp [EndsLine])
      rw [hkept] at hfirst htail
      rw [brokenUp_end, Text.lines_cons (by simp [EndsLine]), Text.lines_cons (by simp [EndsLine]),
        Text.lines_cons hc, List.headD_cons, List.tail_cons, hfirst, htail, hslashLine]
      simp [brokenUp_end, hkept]

end BrokenUp

/-! ### Where a comment ends -/

/-- What a line of a comment with several lines is: a star, and behind a blank what it carries. -/
def carried (indent line : List Char) : List Char :=
  indent ++ ' ' :: '*' :: (if line.isEmpty then [] else ' ' :: line)

/-- A text is the comment for lines at a depth of nesting. -/
structure IsComment (depth : ℕ) (lines : List (List Char)) (comment : List Char) : Prop where
  /-- It begins with a comment start behind its indentation. -/
  starts : (Text.indentation depth).toList ++ ['/', '*', '*'] <+: comment
  /-- It ends with a comment end and a line feed. -/
  ends : ['*', '/', '\n'] <:+ comment
  /-- There is no other comment end. -/
  once : ∀ before after, comment = before ++ '*' :: '/' :: after → after = ['\n']
  /-- A single line stands between the two. -/
  single : ∀ line, lines = [line] →
    comment = (Text.indentation depth).toList ++ '/' :: '*' :: '*' :: ' ' ::
      (line ++ [' ', '*', '/', '\n'])
  /-- Of several lines each stands on a line of its own, in order. -/
  several : lines.length ≠ 1 →
    Text.splitAt '\n' comment = ((Text.indentation depth).toList ++ ['/', '*', '*']) ::
      (lines.map (carried (Text.indentation depth).toList) ++
        [(Text.indentation depth).toList ++ [' ', '*', '/'], []])
  /-- It means nothing, whatever follows. -/
  closed : IsClosed comment []

section Ends

variable {text rest line : List Char} {c : Char}

/-- A comment end begins at a star that a slash follows. -/
theorem IsOpen.cons_of_head? (h : IsOpen text) (hc : c = '*' → text.head? ≠ some '/') :
    IsOpen (c :: text) := by
  intro hend
  rcases List.infix_cons_iff.1 hend with hhere | hlater
  · obtain ⟨hstar, rest, rfl⟩ := List.cons_prefix_cons.1 hhere
    exact hc hstar.symm rfl
  · exact h hlater

theorem IsOpen.cons (hc : c ≠ '*') (h : IsOpen text) : IsOpen (c :: text) :=
  h.cons_of_head? fun hstar => absurd hstar hc

theorem IsOpen.cons_star (hc : c ≠ '/') (h : IsOpen (c :: text)) : IsOpen ('*' :: c :: text) :=
  h.cons_of_head? fun _ hslash => hc (Option.some.inj hslash)

/-- Behind a text without a comment end another one does not complete any, unless it begins
with a slash. -/
theorem IsOpen.append (h : IsOpen text) (hc : c ≠ '/') (h' : IsOpen (c :: rest)) :
    IsOpen (text ++ c :: rest) := by
  induction text with
  | nil => exact h'
  | cons d text ih =>
    refine (ih (h.part (List.suffix_cons d text).isInfix)).cons_of_head? ?_
    rintro rfl hslash
    cases text with
    | nil => exact hc (Option.some.inj hslash)
    | cons e text =>
      obtain rfl : e = '/' := Option.some.inj hslash
      exact h (List.prefix_append ['*', '/'] text).isInfix

/-- Blanks complete no comment end. -/
theorem IsOpen.indent (h : IsOpen text) (depth : ℕ) :
    IsOpen ((Text.indentation depth).toList ++ text) := by
  rw [Text.indentation, String.toList_ofList]
  induction 4 * depth with
  | zero => exact h
  | succ count ih => exact ih.cons (by decide)

/-- A line of a comment completes no comment end. -/
theorem IsOpen.docLine (hline : IsOpen line) (h : IsOpen text) (depth : ℕ) :
    IsOpen (docLine (Text.indentation depth).toList line ++ text) := by
  have hfeed : IsOpen ('\n' :: text) := h.cons (by decide)
  unfold TypeScript.docLine
  rw [List.append_assoc]
  split
  · have hall := ((hfeed.cons_star (by decide)).cons (c := ' ') (by decide)).indent depth
    simpa using hall
  · have hcarried : IsOpen (' ' :: (line ++ '\n' :: text)) :=
      (hline.append (by decide) hfeed).cons (by decide)
    have hall := ((hcarried.cons_star (by decide)).cons (c := ' ') (by decide)).indent depth
    simpa using hall

/-- Lines of a comment complete no comment end. -/
theorem IsOpen.docLines {lines : List (List Char)} (hlines : ∀ line ∈ lines, IsOpen line)
    (h : IsOpen text) (depth : ℕ) :
    IsOpen (lines.flatMap (TypeScript.docLine (Text.indentation depth).toList) ++ text) := by
  induction lines with
  | nil => exact h
  | cons line lines ih =>
    rw [List.flatMap_cons, List.append_assoc]
    exact (hlines line List.mem_cons_self).docLine
      (ih fun l hl => hlines l (List.mem_cons_of_mem _ hl)) depth

/-- What has no comment end up to its last star has one comment end only. -/
theorem IsOpen.once (h : IsOpen (text ++ ['*'])) {before after : List Char}
    (heq : text ++ ['*', '/', '\n'] = before ++ '*' :: '/' :: after) : after = ['\n'] := by
  have hfeed : (text ++ ['*', '/']) ++ ['\n'] = (before ++ ['*', '/']) ++ after := by
    simpa using heq
  rcases List.eq_nil_or_concat after with rfl | ⟨after, last, rfl⟩
  · have hlast := congrArg List.getLast? hfeed
    simp at hlast
  · rw [List.concat_eq_append, ← List.append_assoc] at hfeed
    obtain ⟨hslash, hlast⟩ := List.append_inj' hfeed rfl
    rcases List.eq_nil_or_concat after with rfl | ⟨after, last', rfl⟩
    · simpa using hlast.symm
    · have hstar : (text ++ ['*']) ++ ['/'] = (before ++ ['*', '/'] ++ after) ++ [last'] := by
        simpa using hslash
      have hopen : text ++ ['*'] = before ++ ['*', '/'] ++ after :=
        (List.append_inj' hstar rfl).1
      exact absurd ⟨before, after, hopen.symm⟩ h

end Ends

section Blocks

variable {lines : List (List Char)} {rest : List Char}

/-- A line of a comment with several lines, with its line feed. -/
theorem docLine_eq (indent line : List Char) :
    docLine indent line = carried indent line ++ ['\n'] := by
  unfold docLine carried
  split <;> simp

/-- Indentation holds no line feed. -/
theorem not_mem_indentation (depth : ℕ) : '\n' ∉ (Text.indentation depth).toList := by
  rw [Text.indentation, String.toList_ofList]
  exact fun h => absurd (List.eq_of_mem_replicate h) (by decide)

/-- The comment around several lines. -/
theorem docBlock_of_length_ne_one (indent : List Char) (h : lines.length ≠ 1) :
    docBlock indent lines = indent ++ ['/', '*', '*'] ++
      '\n' :: (lines.flatMap (docLine indent) ++ (indent ++ [' ', '*', '/'] ++ ['\n'])) := by
  unfold docBlock
  split
  · exact absurd rfl h
  · simp

/-- Lines of a comment are cut into what they carry. -/
theorem splitAt_docLines (depth : ℕ) (h : ∀ line ∈ lines, '\n' ∉ line) :
    Text.splitAt '\n' (lines.flatMap (docLine (Text.indentation depth).toList) ++ rest) =
      lines.map (carried (Text.indentation depth).toList) ++ Text.splitAt '\n' rest := by
  induction lines with
  | nil => rfl
  | cons line lines ih =>
    obtain ⟨hline, hlines⟩ := List.forall_mem_cons.1 h
    have hcarried : '\n' ∉ carried (Text.indentation depth).toList line := by
      unfold carried
      split <;> simp [not_mem_indentation, hline]
    rw [List.flatMap_cons, docLine_eq, List.append_assoc, List.append_assoc, List.singleton_append,
      Text.splitAt_append_cons hcarried, ih hlines, List.map_cons, List.cons_append]

/-- What stands between the comment start and the comment end. -/
def between (indent : List Char) : List (List Char) → List Char
  | [line] => ' ' :: (line ++ [' '])
  | lines => '\n' :: (lines.flatMap (docLine indent) ++ (indent ++ [' ']))

theorem docBlock_eq (indent : List Char) (lines : List (List Char)) :
    docBlock indent lines =
      indent ++ ['/', '*', '*'] ++ (between indent lines ++ ['*', '/', '\n']) := by
  unfold docBlock between
  split <;> simp

/-- Up to the star of the comment end there is no comment end. -/
theorem isOpen_between (depth : ℕ) (h : ∀ line ∈ lines, IsOpen line) :
    IsOpen ((Text.indentation depth).toList ++ ['/', '*', '*'] ++
      (between (Text.indentation depth).toList lines ++ ['*'])) := by
  have hstar : IsOpen [' ', '*'] := by simp [IsOpen, List.infix_cons_iff]
  have hstart : IsOpen ['/', '*', '*'] := by simp [IsOpen, List.infix_cons_iff]
  have hbetween : ∃ c rest, between (Text.indentation depth).toList lines ++ ['*'] = c :: rest ∧
      c ≠ '/' ∧ IsOpen (c :: rest) := by
    unfold between
    split
    · rename_i line
      refine ⟨' ', line ++ [' ', '*'], by simp, by decide, IsOpen.cons (by decide) ?_⟩
      exact (h line List.mem_cons_self).append (by decide) hstar
    · refine ⟨'\n', lines.flatMap (docLine (Text.indentation depth).toList) ++
        ((Text.indentation depth).toList ++ [' ', '*']), by simp, by decide,
        IsOpen.cons (by decide) ?_⟩
      exact IsOpen.docLines h (hstar.indent depth) depth
  obtain ⟨c, rest, heq, hc, hopen⟩ := hbetween
  rw [heq, List.append_assoc]
  exact (hstart.append hc hopen).indent depth

/-- The comment around several lines is cut into its start, what carries them, and its end. -/
theorem splitAt_docBlock (depth : ℕ) (hlength : lines.length ≠ 1)
    (h : ∀ line ∈ lines, '\n' ∉ line) :
    Text.splitAt '\n' (docBlock (Text.indentation depth).toList lines) =
      ((Text.indentation depth).toList ++ ['/', '*', '*']) ::
        (lines.map (carried (Text.indentation depth).toList) ++
          [(Text.indentation depth).toList ++ [' ', '*', '/'], []]) := by
  have hindent := not_mem_indentation depth
  have hlast : Text.splitAt '\n' (((Text.indentation depth).toList ++ [' ', '*', '/']) ++ ['\n']) =
      [(Text.indentation depth).toList ++ [' ', '*', '/'], []] :=
    Text.splitAt_append_cons (by simp [hindent])
  rw [docBlock_of_length_ne_one _ hlength, Text.splitAt_append_cons (by simp [hindent]),
    splitAt_docLines depth h, hlast]

/-- The comment around lines without comment ends and line feeds. -/
theorem isComment_docBlock (depth : ℕ) (hopen : ∀ line ∈ lines, IsOpen line)
    (hfeed : ∀ line ∈ lines, '\n' ∉ line) :
    IsComment depth lines (docBlock (Text.indentation depth).toList lines) where
  starts := by
    rw [docBlock_eq]
    exact List.prefix_append _ _
  ends := by
    rw [docBlock_eq, ← List.append_assoc]
    exact List.suffix_append _ _
  once := by
    intro before after heq
    rw [docBlock_eq, ← List.append_assoc] at heq
    refine IsOpen.once ?_ heq
    rw [List.append_assoc]
    exact isOpen_between depth hopen
  single := by
    rintro line rfl
    rw [docBlock_eq, between]
    simp
  several := fun hlength => splitAt_docBlock depth hlength hfeed
  closed := isClosed_docBlock depth hopen

/-- Each line of a comment has no comment end and no line feed. -/
theorem isOpen_of_mem_docLines {text line : List Char} (h : line ∈ docLines text) :
    IsOpen line ∧ '\n' ∉ line := by
  obtain ⟨full, hfull, rfl⟩ := List.mem_map.1 h
  have htrimmed : Text.trimEnd (brokenUp full) <:+: brokenUp full :=
    (isPrefix_trimEnd _).isInfix
  have hbroken : brokenUp full ∈ Text.lines (brokenUp (Text.trim text)) := by
    rw [lines_brokenUp]
    exact List.mem_map_of_mem hfull
  have hopen : IsOpen (brokenUp full) := isOpen_replaceAfter 0 full
  exact ⟨hopen.part htrimmed, fun hm => Text.not_mem_of_mem_lines hbroken (htrimmed.subset hm)⟩

/-- The comment for a text that is not blank stands around its lines. -/
theorem toList_docComment {text : String} (h : Text.isAllBlank text.toList = false) (depth : ℕ) :
    (docComment text depth).toList =
      docBlock (Text.indentation depth).toList (docLines text.toList) := by
  have hescape : escapeDoc text.toList = brokenUp (Text.trim text.toList) := rfl
  have hlines : (Text.lines (escapeDoc text.toList)).map Text.trimEnd = docLines text.toList := by
    rw [hescape, lines_brokenUp, List.map_map]
    rfl
  unfold docComment
  split
  · rename_i hnil
    rw [hescape, brokenUp_eq_nil_iff, Text.trim_eq_nil_iff, h] at hnil
    cases hnil
  · rw [hlines, String.toList_ofList]

/-- There is no comment for a blank text. -/
theorem docComment_of_isAllBlank {text : String} (h : Text.isAllBlank text.toList = true)
    (depth : ℕ) : docComment text depth = "" := by
  have hnil : escapeDoc text.toList = [] :=
    brokenUp_eq_nil_iff.2 ((Text.trim_eq_nil_iff _).2 h)
  rw [docComment, hnil]

/-- A text that is not blank becomes the comment for its lines. -/
theorem isComment_docComment {text : String} (h : Text.isAllBlank text.toList = false)
    (depth : ℕ) : IsComment depth (docLines text.toList) (docComment text depth).toList := by
  rw [toList_docComment h]
  exact isComment_docBlock depth (fun line hl => (isOpen_of_mem_docLines hl).1)
    fun line hl => (isOpen_of_mem_docLines hl).2

/-- There is no comment exactly when the text is blank. -/
theorem docComment_eq_empty_iff (text : String) (depth : ℕ) :
    docComment text depth = "" ↔ Text.isAllBlank text.toList = true := by
  refine ⟨fun hempty => ?_, fun h => docComment_of_isAllBlank h depth⟩
  by_contra hblank
  have hends := (isComment_docComment (Bool.eq_false_iff.2 hblank) depth).ends.length_le
  rw [hempty] at hends
  exact absurd hends (by decide)

end Blocks

end TypeScript

end TypedClient
