import TypedClient.Proofs.Api.Identifiers
import TypedClient.Proofs.Json.Quotation
import TypedClient.Proofs.Number.Numerals
import TypedClient.TypeScript.Doc

/-!
# Tokens of types

The text of a type is cut into words, quoted texts, numbers and marks, each as long as it
can be; blanks and comments stand between them and mean nothing. A documentation comment is
one comment, because the only comment end in it is its own.
-/

namespace TypedClient.TypeScript

/-- A token of a type. -/
inductive Token where
  /-- A name or a keyword. -/
  | word (name : String)
  /-- A quoted text. -/
  | text (value : String)
  /-- A number. -/
  | number (value : Number)
  /-- A character that stands for itself. -/
  | mark (c : Char)
  deriving DecidableEq, Repr

/-- The characters that are tokens by themselves. -/
def marks : List Char :=
  ['\x7b', '\x7d', '[', ']', '(', ')', '<', '>', '|', '&', ',', ':', ';', '?']

/-- What follows the end of a comment. -/
def afterComment : List Char → Option (List Char)
  | [] => none
  | '*' :: '/' :: rest => some rest
  | _ :: rest => afterComment rest

/-- Read the longest token or gap at the front of a text, and what follows it. -/
def lexeme? : List Char → Option (Option Token × List Char)
  | [] => none
  | '/' :: '*' :: rest => (afterComment rest).map fun after => (none, after)
  | '"' :: rest =>
    (Json.readString rest).map fun (chars, after) => (some (.text (String.ofList chars)), after)
  | c :: rest =>
    if Json.isGap c then some (none, rest)
    else if c ∈ marks then some (some (.mark c), rest)
    else if isIdentifierChar c && !c.isDigit then
      let (name, after) := (c :: rest).span isIdentifierChar
      some (some (.word (String.ofList name)), after)
    else do
      let (numeral, after) ← Json.readNumeral (c :: rest)
      let value ← numeral.nearest?
      return (some (.number value), after)

/-- The tokens of a text once `skip` more characters of a token are passed over. -/
def tokensAfter : Nat → List Char → Option (List Token)
  | _, [] => some []
  | skip + 1, _ :: rest => tokensAfter skip rest
  | 0, c :: rest =>
    (lexeme? (c :: rest)).bind fun (token, after) =>
      (tokensAfter (rest.length - after.length) rest).map (token.toList ++ ·)

/-- The tokens of a text, in order. -/
def tokens? (text : List Char) : Option (List Token) := tokensAfter 0 text

/-- A text does not continue a word or a number. -/
def Stops (rest : List Char) : Prop := ∀ c ∈ rest.head?, isIdentifierChar c = false ∧ c ≠ '.'

/-- A text is read as tokens whatever follows it. -/
def IsClosed (text : List Char) (tokens : List Token) : Prop :=
  ∀ rest, tokens? (text ++ rest) = (tokens? rest).map (tokens ++ ·)

/-- A text is read as tokens where what follows does not continue it. -/
def IsRead (text : List Char) (tokens : List Token) : Prop :=
  ∀ rest, Stops rest → tokens? (text ++ rest) = (tokens? rest).map (tokens ++ ·)

section Lexemes

variable {text other rest : List Char} {tokens others : List Token} {token : Option Token}

/-- What a text starts with tells whether it stops a word or a number. -/
theorem stops_cons {c : Char} (h : isIdentifierChar c = false ∧ c ≠ '.') : Stops (c :: rest) :=
  fun _ hd => Option.some.inj hd ▸ h

/-- Characters that belong to a token are passed over. -/
theorem tokensAfter_append (text rest : List Char) :
    tokensAfter text.length (text ++ rest) = tokens? rest := by
  induction text with
  | nil => rfl
  | cons c text ih => exact ih

/-- What is read first comes first, and the tokens of what follows come behind it. -/
theorem tokens?_append (hne : text ≠ []) (h : lexeme? (text ++ rest) = some (token, rest)) :
    tokens? (text ++ rest) = (tokens? rest).map (token.toList ++ ·) := by
  obtain ⟨c, text, rfl⟩ := List.exists_cons_of_ne_nil hne
  rw [List.cons_append] at h ⊢
  have hskip : (text ++ rest).length - rest.length = text.length := by
    rw [List.length_append, Nat.add_sub_cancel]
  rw [tokens?, tokensAfter, h, Option.bind_some]
  simp only
  rw [hskip, tokensAfter_append]

theorem isClosed_nil : IsClosed [] [] := fun rest => by simp

theorem IsClosed.isRead (h : IsClosed text tokens) : IsRead text tokens := fun rest _ => h rest

theorem IsClosed.append (h : IsClosed text tokens) (h' : IsClosed other others) :
    IsClosed (text ++ other) (tokens ++ others) := fun rest => by
  rw [List.append_assoc, h, h', Option.map_map]
  simp [Function.comp_def]

/-- Behind a text that is closed another may begin in any way. -/
theorem IsClosed.append_isRead (h : IsClosed text tokens) (h' : IsRead other others) :
    IsRead (text ++ other) (tokens ++ others) := fun rest hrest => by
  rw [List.append_assoc, h, h' rest hrest, Option.map_map]
  simp [Function.comp_def]

/-- A text closes what it does not continue. -/
theorem IsRead.append_isClosed {c : Char} (h : IsRead text tokens)
    (h' : IsClosed (c :: other) others) (hstops : Stops (c :: other)) :
    IsClosed (text ++ c :: other) (tokens ++ others) := fun rest => by
  have hboth : Stops (c :: other ++ rest) := hstops
  rw [List.append_assoc, h _ hboth, h' rest, Option.map_map]
  simp [Function.comp_def]

theorem isClosed_of_lexeme? (token : Option Token) (hne : text ≠ [])
    (h : ∀ rest, lexeme? (text ++ rest) = some (token, rest)) : IsClosed text token.toList :=
  fun rest => tokens?_append hne (h rest)

/-- A blank means nothing. -/
theorem isClosed_gap {c : Char} (h : Json.isGap c = true) : IsClosed [c] [] := by
  have hcases : c = ' ' ∨ c = '\t' ∨ c = '\n' ∨ c = '\r' := by
    simpa [Json.isGap, or_assoc] using h
  refine isClosed_of_lexeme? none (List.cons_ne_nil _ _) fun rest => ?_
  rcases hcases with rfl | rfl | rfl | rfl <;> rfl

/-- A mark is a token by itself. -/
theorem isClosed_mark {c : Char} (h : c ∈ marks) : IsClosed [c] [.mark c] := by
  have hall : marks.all (fun d => !Json.isGap d && d != '/' && d != '"') = true := by decide
  obtain ⟨⟨hgap, hslash⟩, hquote⟩ : (Json.isGap c = false ∧ c ≠ '/') ∧ c ≠ '"' := by
    simpa using List.all_eq_true.1 hall c h
  refine isClosed_of_lexeme? (some (.mark c)) (List.cons_ne_nil _ _) fun rest => ?_
  rw [List.singleton_append]
  unfold lexeme?
  split <;> simp_all

/-- A quoted text is one token. -/
theorem isClosed_quoted (value : String) :
    IsClosed (Json.quoted value).toList [.text value] := by
  have htext : (Json.quoted value).toList =
      '"' :: (value.toList.flatMap Json.escaped ++ ['"']) := by
    rw [Json.quoted, String.toList_ofList]
    rfl
  rw [htext]
  refine isClosed_of_lexeme? (some (.text value)) (List.cons_ne_nil _ _) fun rest => ?_
  simp [lexeme?, Json.readString_quoted]

/-- A word of a type: letters, digits, underscores and dollar signs, no digit in front. -/
structure IsWord (name : String) : Prop where
  /-- Every character is one that an identifier can hold. -/
  characters : ∀ c ∈ name.toList, isIdentifierChar c = true
  /-- There is a first character, and it is no digit. -/
  start : ∃ c rest, name.toList = c :: rest ∧ c.isDigit = false

/-- A word can be told by its characters. -/
theorem isWord_of_all {name : String} (hall : name.toList.all isIdentifierChar = true)
    (hstart : name.toList.head?.any (fun c => !c.isDigit) = true) : IsWord name := by
  refine ⟨List.all_eq_true.1 hall, ?_⟩
  cases hname : name.toList with
  | nil => simp [hname] at hstart
  | cons c rest => exact ⟨c, rest, rfl, by simpa [hname] using hstart⟩

/-- The characters that begin something else than a word or a number. -/
def specials : List Char := '/' :: '"' :: ' ' :: '\t' :: '\n' :: '\r' :: marks

/-- No character of a word is among them, and no sign. -/
theorem isIdentifierChar_of_mem_specials {c : Char} (h : c ∈ specials) :
    isIdentifierChar c = false ∧ c ≠ '-' := by
  have hall : specials.all (fun d => !isIdentifierChar d && d != '-') = true := by decide
  simpa using List.all_eq_true.1 hall c h

/-- A character that begins a word or a number is read by itself in no other way. -/
theorem lexeme?_cons {c : Char} (h : isIdentifierChar c = true ∨ c = '-') (rest : List Char) :
    lexeme? (c :: rest) =
      if isIdentifierChar c && !c.isDigit then
        some (some (.word (String.ofList ((c :: rest).span isIdentifierChar).1)),
          ((c :: rest).span isIdentifierChar).2)
      else (Json.readNumeral (c :: rest)).bind fun read =>
        read.1.nearest?.map fun value => (some (.number value), read.2) := by
  have hne : ∀ d ∈ specials, c ≠ d := by
    rintro d hd rfl
    obtain ⟨hspecial, hminus⟩ := isIdentifierChar_of_mem_specials hd
    rcases h with h | h
    · exact absurd h (by rw [hspecial]; decide)
    · exact hminus h
  have hgap : Json.isGap c = false := by
    have := hne ' ' (by decide)
    have := hne '\t' (by decide)
    have := hne '\n' (by decide)
    have := hne '\r' (by decide)
    simp_all [Json.isGap]
  have hmark : c ∉ marks := fun hc => hne c (by simp [specials, hc]) rfl
  have hslash := hne '/' (by decide)
  have hquote := hne '"' (by decide)
  unfold lexeme?
  split
  · simp_all
  · simp_all
  · simp_all
  · rename_i d rest' _ hd heq
    obtain ⟨rfl, rfl⟩ := List.cons.inj heq
    rw [if_neg (by simp [hgap]), if_neg hmark]
    split
    · rfl
    · cases hread : Json.readNumeral (c :: rest) with
      | none => rfl
      | some read => cases hnearest : read.1.nearest? <;> simp [hnearest]

/-- A word is one token where no character of a word follows. -/
theorem isRead_word {name : String} (h : IsWord name) : IsRead name.toList [.word name] := by
  intro rest hrest
  obtain ⟨c, others, hname, hdigit⟩ := h.start
  have hc : isIdentifierChar c = true := h.characters c (by simp [hname])
  have hspan : (name.toList ++ rest).span isIdentifierChar = (name.toList, rest) :=
    span_append h.characters fun d hd => (hrest d hd).1
  have hlexeme : lexeme? (name.toList ++ rest) = some (some (.word name), rest) := by
    rw [hname, List.cons_append] at hspan ⊢
    rw [lexeme?_cons (.inl hc), hspan]
    simp [hc, hdigit, ← hname]
  exact tokens?_append (by simp [hname]) hlexeme

/-- A number is one token where no character of a number follows. -/
theorem isRead_number {number : Number} (h : number.IsCanonical) :
    IsRead number.text.toList [.number number] := by
  intro rest hrest
  obtain ⟨n, hproper, htext, hnearest⟩ := Number.exists_numeral h
  have hends : Numeral.Ends rest := by
    intro c hc
    obtain ⟨hidentifier, hpoint⟩ := hrest c hc
    have hne : ∀ d, isIdentifierChar d = true → c ≠ d := by
      rintro d hd rfl
      exact absurd hd (by rw [hidentifier]; decide)
    refine ⟨?_, hpoint, hne 'e' (by decide), hne 'E' (by decide)⟩
    rw [← Bool.not_eq_true]
    exact fun hdigit => hne c (isIdentifierChar_of_isDigit hdigit) rfl
  have hread := Numeral.readNumeral_spelling hproper hends
  have hstart : ∃ c others, n.spelling = c :: others ∧ (c.isDigit = true ∨ c = '-') := by
    cases hsign : n.negative with
    | true => exact ⟨'-', _, by rw [Numeral.spelling, hsign]; rfl, .inr rfl⟩
    | false =>
      obtain ⟨d, digits, hwhole⟩ := List.exists_cons_of_ne_nil hproper.nonempty
      refine ⟨d, _, by rw [Numeral.spelling, hsign, hwhole]; rfl, .inl ?_⟩
      exact hproper.whole d (by simp [hwhole])
  obtain ⟨c, others, hcons, hc⟩ := hstart
  have hlexeme : lexeme? (n.spelling ++ rest) = some (some (.number number), rest) := by
    rw [hcons, List.cons_append] at hread ⊢
    have hword : (isIdentifierChar c && !c.isDigit) = false := by
      rcases hc with hdigit | rfl
      · simp [hdigit]
      · rfl
    rw [lexeme?_cons (hc.imp_left isIdentifierChar_of_isDigit), hread, hword]
    simp [hnearest]
  rw [← htext]
  exact tokens?_append (by simp [hcons]) hlexeme

end Lexemes

section Comments

variable {text rest line : List Char}

/-- A text has no comment end in it. -/
def IsOpen (text : List Char) : Prop := ¬ ['*', '/'] <:+: text

theorem IsOpen.part {part : List Char} (h : IsOpen text) (hpart : part <:+: text) :
    IsOpen part := fun hend => h (hend.trans hpart)

/-- A text without a comment end is passed over up to a character that completes none. -/
theorem afterComment_append {c : Char} (h : IsOpen text) (hc : c ≠ '/') :
    afterComment (text ++ c :: rest) = afterComment (c :: rest) := by
  induction text with
  | nil => rfl
  | cons d text ih =>
    have hopen : IsOpen text := h.part (List.suffix_cons d text).isInfix
    have hnext : afterComment (d :: (text ++ c :: rest)) = afterComment (text ++ c :: rest) := by
      rw [afterComment.eq_def]
      split
      · simp_all
      · rename_i heq
        obtain ⟨rfl, htext⟩ := List.cons.inj heq
        cases text with
        | nil => exact absurd (List.cons.inj htext).1 hc
        | cons e text =>
          obtain ⟨rfl, -⟩ := List.cons.inj htext
          exact absurd (List.prefix_append ['*', '/'] text).isInfix h
      · rename_i heq
        obtain ⟨rfl, rfl⟩ := List.cons.inj heq
        rfl
    rw [List.cons_append, hnext, ih hopen]

/-- A character that begins no comment end is passed over. -/
theorem afterComment_cons {c : Char} (hc : c ≠ '*') :
    afterComment (c :: rest) = afterComment rest := by
  rw [afterComment.eq_def]
  split <;> simp_all

/-- Blanks are passed over. -/
theorem afterComment_replicate (count : ℕ) :
    afterComment (List.replicate count ' ' ++ rest) = afterComment rest := by
  induction count with
  | zero => rfl
  | succ count ih => exact (afterComment_cons (by decide)).trans ih

/-- A line of a comment is passed over. -/
theorem afterComment_docLine (count : ℕ) (h : IsOpen line) :
    afterComment (docLine (List.replicate count ' ') line ++ rest) = afterComment rest := by
  unfold docLine
  rw [List.append_assoc, afterComment_replicate]
  split
  · rfl
  · simp only [List.append_assoc, List.cons_append, List.nil_append]
    have hhead : afterComment (' ' :: '*' :: ' ' :: (line ++ '\n' :: rest)) =
        afterComment (line ++ '\n' :: rest) := by
      simp [afterComment]
    rw [hhead, afterComment_append h (by decide), afterComment_cons (by decide)]

/-- Lines of a comment are passed over. -/
theorem afterComment_docLines (count : ℕ) {lines : List (List Char)}
    (h : ∀ line ∈ lines, IsOpen line) :
    afterComment (lines.flatMap (docLine (List.replicate count ' ')) ++ rest) =
      afterComment rest := by
  induction lines with
  | nil => rfl
  | cons line lines ih =>
    rw [List.flatMap_cons, List.append_assoc,
      afterComment_docLine count (h line List.mem_cons_self),
      ih fun l hl => h l (List.mem_cons_of_mem _ hl)]

/-- Escaping leaves no comment end. -/
theorem isOpen_replaceAfter (skip : ℕ) (text : List Char) :
    IsOpen (Text.replaceAfter ['*', '/'] ['*', '\\', '/'] skip text) := by
  induction text generalizing skip with
  | nil => simp [IsOpen]
  | cons c text ih =>
    cases skip with
    | succ skip => exact ih skip
    | zero =>
      unfold Text.replaceAfter
      split
      · intro hend
        have hrest : ['*', '/'] <:+: Text.replaceAfter ['*', '/'] ['*', '\\', '/'] 1 text := by
          simpa [List.infix_cons_iff] using hend
        exact ih 1 hrest
      · rename_i hprefix
        intro hend
        rcases List.infix_cons_iff.1 hend with hhere | hlater
        · obtain ⟨hstar, hslash⟩ := List.cons_prefix_cons.1 hhere
          cases text with
          | nil => simp at hslash
          | cons d text =>
            rw [Text.replaceAfter] at hslash
            split at hslash
            · exact absurd (List.cons_prefix_cons.1 hslash).1 (by decide)
            · obtain ⟨rfl, -⟩ := List.cons_prefix_cons.1 hslash
              exact hprefix (by simp [← hstar])
        · exact ih 0 hlater

/-- A line of a text is a part of it, and the first one stands at its front. -/
theorem infix_of_mem_lines (text : List Char) :
    (∀ line ∈ (Text.lines text).head?, line <+: text) ∧
      ∀ line ∈ Text.lines text, line <:+: text := by
  fun_induction Text.lines text with
  | case1 => simp
  | case2 rest ih =>
    have hlater : ∀ line ∈ Text.lines rest, line <:+: '\r' :: '\n' :: rest := fun line hline =>
      (ih.2 line hline).trans (List.suffix_append ['\r', '\n'] rest).isInfix
    exact ⟨by simp, List.forall_mem_cons.2 ⟨List.nil_infix, hlater⟩⟩
  | case3 rest ih =>
    have hlater : ∀ line ∈ Text.lines rest, line <:+: '\n' :: rest := fun line hline =>
      (ih.2 line hline).trans (List.suffix_cons '\n' rest).isInfix
    exact ⟨by simp, List.forall_mem_cons.2 ⟨List.nil_infix, hlater⟩⟩
  | case4 c rest =>
    have hfirst : [c] <+: c :: rest := List.prefix_append [c] rest
    exact ⟨by simp, by simpa using hfirst.isInfix⟩
  | case5 c rest _ _ line others hlines ih =>
    rw [hlines] at ih
    have hfirst : c :: line <+: c :: rest :=
      List.cons_prefix_cons.2 ⟨rfl, ih.1 line rfl⟩
    have hlater : ∀ l ∈ others, l <:+: c :: rest := fun l hl =>
      (ih.2 l (List.mem_cons_of_mem _ hl)).trans (List.suffix_cons c rest).isInfix
    exact ⟨by simpa using hfirst, List.forall_mem_cons.2 ⟨hfirst.isInfix, hlater⟩⟩

/-- What is left after trimming the end stands at the front. -/
theorem isPrefix_trimEnd (text : List Char) : Text.trimEnd text <+: text := by
  induction text with
  | nil => exact List.prefix_rfl
  | cons c text ih =>
    unfold Text.trimEnd
    split
    · split
      · exact List.nil_prefix
      · exact List.prefix_append [c] text
    · exact List.cons_prefix_cons.2 ⟨rfl, ih⟩

/-- A comment means nothing. -/
theorem isClosed_comment {body : List Char} (h : ∀ rest, afterComment (body ++ rest) = some rest) :
    IsClosed ('/' :: '*' :: body) [] := by
  refine isClosed_of_lexeme? none (List.cons_ne_nil _ _) fun rest => ?_
  simp [lexeme?, h]

/-- The indentation of a line means nothing. -/
theorem isClosed_indentation (depth : ℕ) : IsClosed (Text.indentation depth).toList [] := by
  have hblanks : ∀ count : ℕ, IsClosed (List.replicate count ' ') [] := by
    intro count
    induction count with
    | zero => exact isClosed_nil
    | succ count ih => exact (isClosed_gap (by decide)).append ih
  rw [Text.indentation, String.toList_ofList]
  exact hblanks _

/-- The comment around lines without a comment end means nothing. -/
theorem isClosed_docBlock (depth : ℕ) {lines : List (List Char)}
    (h : ∀ line ∈ lines, IsOpen line) :
    IsClosed (docBlock (Text.indentation depth).toList lines) [] := by
  have hindent := isClosed_indentation depth
  have hfeed : IsClosed ['\n'] [] := isClosed_gap (by decide)
  unfold docBlock
  split
  · rename_i line
    have hbody : IsClosed ('/' :: '*' :: '*' :: ' ' :: (line ++ [' ', '*', '/'])) [] := by
      refine isClosed_comment fun rest => ?_
      have hline : afterComment (line ++ ' ' :: '*' :: '/' :: rest) =
          afterComment (' ' :: '*' :: '/' :: rest) :=
        afterComment_append (h line List.mem_cons_self) (by decide)
      simp [afterComment, hline]
    have hall := (hindent.append hbody).append hfeed
    simpa using hall
  · have hbody : IsClosed ('/' :: '*' :: '*' :: '\n' ::
        (lines.flatMap (docLine (Text.indentation depth).toList) ++
          ((Text.indentation depth).toList ++ [' ', '*', '/']))) [] := by
      refine isClosed_comment fun rest => ?_
      simp [afterComment, Text.indentation, afterComment_docLines (4 * depth) h,
        afterComment_replicate]
    have hall := (hindent.append hbody).append hfeed
    simpa using hall

/-- A documentation comment means nothing. -/
theorem isClosed_docComment (doc : String) (depth : ℕ) :
    IsClosed (docComment doc depth).toList [] := by
  have hopen : ∀ line ∈ (Text.lines (escapeDoc doc.toList)).map Text.trimEnd, IsOpen line := by
    intro line hline
    obtain ⟨full, hfull, rfl⟩ := List.mem_map.1 hline
    have hescaped : IsOpen (escapeDoc doc.toList) := isOpen_replaceAfter 0 _
    exact (hescaped.part ((infix_of_mem_lines _).2 full hfull)).part
      (isPrefix_trimEnd full).isInfix
  unfold docComment
  split
  · exact isClosed_nil
  · rw [String.toList_ofList]
    exact isClosed_docBlock depth hopen

end Comments

end TypedClient.TypeScript
