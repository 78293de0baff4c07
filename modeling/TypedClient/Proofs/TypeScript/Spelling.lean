import TypedClient.Proofs.TypeScript.Grammar

/-!
# The tokens of printed types

The text of a type is read as the tokens of its parts with the signs between them, at any
depth of indentation and whatever its documentation says.
-/

namespace TypedClient.TypeScript

/-- A name of a type: a word that stands for no type by itself. -/
structure IsTypeName (name : String) : Prop extends IsWord name where
  /-- It is no word that the grammar uses. -/
  unreserved : name ∉ typeWords

namespace TypeNode

/-- The literals of a type are texts, numbers and truth values, and its names are names. -/
inductive IsPlain : TypeNode → Prop where
  /-- A keyword. -/
  | keyword (k : Keyword) : IsPlain (.keyword k)
  /-- A literal text. -/
  | string (value : String) : IsPlain (.literal (.string value))
  /-- A literal number. -/
  | number {value : Number} (h : value.IsCanonical) : IsPlain (.literal (.number value))
  /-- A literal truth value. -/
  | bool (value : Bool) : IsPlain (.literal (.bool value))
  /-- An array type. -/
  | array {element : TypeNode} (h : IsPlain element) : IsPlain (.array element)
  /-- An object type. -/
  | object {members : List (Field TypeNode)} (h : ∀ m ∈ members, IsPlain m.value) :
    IsPlain (.object members)
  /-- A union. -/
  | union {members : List TypeNode} (h : ∀ m ∈ members, IsPlain m) : IsPlain (.union members)
  /-- An intersection. -/
  | intersection {members : List TypeNode} (h : ∀ m ∈ members, IsPlain m) :
    IsPlain (.intersection members)
  /-- A tuple. -/
  | tuple {members : List TypeNode} (h : ∀ m ∈ members, IsPlain m) : IsPlain (.tuple members)
  /-- A named type. -/
  | reference {name : String} {arguments : List TypeNode} (hname : IsTypeName name)
    (h : ∀ t ∈ arguments, IsPlain t) : IsPlain (.reference name arguments)

end TypeNode

/-- Lists of tokens with a mark between neighbours. -/
def separated (c : Char) : List (List Token) → List Token
  | [] => []
  | [ts] => ts
  | ts :: rest => ts ++ .mark c :: separated c rest

/-- Tokens in parentheses when `wrap` is set. -/
def wrapped (wrap : Bool) (ts : List Token) : List Token :=
  if wrap then .mark '(' :: (ts ++ [.mark ')']) else ts

/-- The tokens of a literal. -/
def literalSpelling : Json → List Token
  | .string value => [.text value]
  | .number value => [.number value]
  | .bool true => [.word "true"]
  | .bool false => [.word "false"]
  | _ => []

/-- The tokens before the type of a member. -/
def headSpelling (key : Key) (optional readonly : Bool) : List Token :=
  match key with
  | .named name =>
    (if readonly then [.word "readonly"] else []) ++
      .text name :: (if optional then [.mark '?'] else []) ++ [.mark ':']
  | .wildcard =>
    (if readonly then [.word "readonly"] else []) ++
      [.mark '[', .word "key", .mark ':', .word "string", .mark ']', .mark ':']

namespace TypeNode

mutual

/-- The tokens of a type. -/
def spelling : TypeNode → List Token
  | .keyword k => [.word k.word]
  | .literal value => literalSpelling value
  | .array element =>
    wrapped (element.isUnion || element.isIntersection) element.spelling ++
      [.mark '[', .mark ']']
  | .object members => .mark '\x7b' :: (memberSpellings members ++ [.mark '\x7d'])
  | .union [] => [.word "never"]
  | .union (member :: members) => separated '|' (spellings false (member :: members))
  | .intersection [] => [.word "any"]
  | .intersection (member :: members) => separated '&' (spellings true (member :: members))
  | .tuple members => .mark '[' :: (separated ',' (spellings false members) ++ [.mark ']'])
  | .reference name [] => [.word name]
  | .reference name (argument :: arguments) =>
    .word name :: .mark '<' ::
      (separated ',' (spellings false (argument :: arguments)) ++ [.mark '>'])

/-- The tokens of types, unions in parentheses when `wrap` is set. -/
def spellings (wrap : Bool) : List TypeNode → List (List Token)
  | [] => []
  | member :: rest => wrapped (wrap && member.isUnion) member.spelling :: spellings wrap rest

/-- The tokens of the members of an object type. -/
def memberSpellings : List (Field TypeNode) → List Token
  | [] => []
  | member :: rest =>
    headSpelling member.key member.optional member.readonly ++ member.value.spelling ++
      .mark ';' :: memberSpellings rest

end

theorem spellings_eq_map (wrap : Bool) (members : List TypeNode) :
    spellings wrap members = members.map fun m => wrapped (wrap && m.isUnion) m.spelling := by
  induction members with
  | nil => rfl
  | cons m rest ih => rw [spellings, ih, List.map_cons]

theorem textsAt_eq_map (depth : ℕ) (wrap : Bool) (members : List TypeNode) :
    textsAt depth wrap members =
      members.map fun m => parenthesised (wrap && m.isUnion) (m.textAt depth) := by
  induction members with
  | nil => rfl
  | cons m rest ih => rw [textsAt, ih, List.map_cons]

end TypeNode

section Texts

variable {text : String} {tokens : List Token}

/-- The words of the grammar are words. -/
theorem isWord_of_mem_typeWords {w : String} (h : w ∈ typeWords) : IsWord w := by
  have hall : ∀ w ∈ typeWords, w.toList.all isIdentifierChar = true ∧
      w.toList.head?.any (fun c => !c.isDigit) = true := by
    decide
  exact isWord_of_all (hall w h).1 (hall w h).2

/-- Every keyword is written as a word of the grammar. -/
theorem word_mem_typeWords (k : Keyword) : k.word ∈ typeWords := by cases k <;> decide

theorem isRead_typeWord {w : String} (h : w ∈ typeWords) : IsRead w.toList [.word w] :=
  isRead_word (isWord_of_mem_typeWords h)

/-- Parentheses are read as marks around what they hold. -/
theorem isRead_parenthesised (wrap : Bool) (h : IsRead text.toList tokens) :
    IsRead (parenthesised wrap text).toList (wrapped wrap tokens) := by
  cases wrap with
  | false => exact h
  | true =>
    have hclose : IsClosed (text.toList ++ [')']) (tokens ++ [.mark ')']) :=
      h.append_isClosed (isClosed_mark (by decide)) (stops_cons (by decide))
    have hall := (isClosed_mark (c := '(') (by decide)).append hclose
    simpa [parenthesised, wrapped] using hall.isRead

/-- A separator is read as its mark. -/
structure IsSeparator (separator : String) (c : Char) : Prop where
  /-- It is read as the mark whatever follows. -/
  closed : IsClosed separator.toList [.mark c]
  /-- It continues no word and no number. -/
  stops : ∃ d rest, separator.toList = d :: rest ∧ isIdentifierChar d = false ∧ d ≠ '.'

theorem isSeparator_bar : IsSeparator " | " '|' :=
  ⟨((isClosed_gap (by decide)).append (isClosed_mark (by decide))).append
      (isClosed_gap (by decide)), ' ', _, rfl, by decide⟩

theorem isSeparator_ampersand : IsSeparator " & " '&' :=
  ⟨((isClosed_gap (by decide)).append (isClosed_mark (by decide))).append
      (isClosed_gap (by decide)), ' ', _, rfl, by decide⟩

theorem isSeparator_comma : IsSeparator ", " ',' :=
  ⟨(isClosed_mark (by decide)).append (isClosed_gap (by decide)), ',', _, rfl, by decide⟩

/-- Texts with a separator between them are read as their tokens with the mark between them. -/
theorem isRead_joinWith {separator : String} {c : Char} (hseparator : IsSeparator separator c)
    {texts : List String} {tokens : List (List Token)}
    (h : List.Forall₂ (fun text ts => IsRead text.toList ts) texts tokens) :
    IsRead (Text.joinWith separator texts).toList (separated c tokens) := by
  obtain ⟨d, others, hd, hstops⟩ := hseparator.stops
  have hclosed := hseparator.closed
  induction h with
  | nil => exact isClosed_nil.isRead
  | @cons text ts texts tokens hfirst hrest ih =>
    cases hrest with
    | nil => exact hfirst
    | cons hsecond hrest =>
      have hmark : IsClosed (text.toList ++ separator.toList) (ts ++ [.mark c]) := by
        rw [hd] at hclosed ⊢
        exact hfirst.append_isClosed hclosed (stops_cons hstops)
      have hall := hmark.append_isRead ih
      simpa [Text.joinWith, separated] using hall

/-- What comes before the type of a member is read whatever follows. -/
theorem isClosed_head (key : Key) (optional readonly : Bool) :
    IsClosed ((if readonly then "readonly " else "").toList ++
      (TypeNode.keyText key optional).toList ++ [':']) (headSpelling key optional readonly) := by
  have hcolon : IsClosed [':'] [.mark ':'] := isClosed_mark (by decide)
  have hreadonly : IsClosed (if readonly then "readonly " else "").toList
      (if readonly then [.word "readonly"] else []) := by
    cases readonly with
    | false => exact isClosed_nil
    | true =>
      have hword : IsRead "readonly".toList [.word "readonly"] := isRead_typeWord (by decide)
      exact hword.append_isClosed (isClosed_gap (c := ' ') (by decide)) (stops_cons (by decide))
  cases key with
  | named name =>
    have hquestion : IsClosed (if optional then "?" else "").toList
        (if optional then [.mark '?'] else []) := by
      cases optional with
      | false => exact isClosed_nil
      | true => exact isClosed_mark (by decide)
    have hall := (hreadonly.append ((isClosed_quoted name).append hquestion)).append hcolon
    simpa [TypeNode.keyText, headSpelling] using hall
  | wildcard =>
    have hkey : IsClosed ("key".toList ++ [':']) [.word "key", .mark ':'] :=
      (isRead_word (isWord_of_all (by decide) (by decide))).append_isClosed hcolon
        (stops_cons (by decide))
    have hstring : IsClosed ("string".toList ++ [']']) [.word "string", .mark ']'] :=
      (isRead_typeWord (by decide)).append_isClosed (isClosed_mark (by decide))
        (stops_cons (by decide))
    have hgap : IsClosed [' '] [] := isClosed_gap (by decide)
    have hopen : IsClosed ['['] [.mark '['] := isClosed_mark (by decide)
    have hall := hreadonly.append (hopen.append (hkey.append (hgap.append (hstring.append hcolon))))
    simpa [TypeNode.keyText, headSpelling] using hall

/-- Members of an object type are read as their tokens, each with its comment. -/
theorem isClosed_membersText (depth : ℕ) {members : List (Field TypeNode)}
    (h : ∀ m ∈ members, IsRead (m.value.textAt depth).toList m.value.spelling) :
    IsClosed (TypeNode.membersText depth members).toList (TypeNode.memberSpellings members) := by
  induction members with
  | nil => exact isClosed_nil
  | cons m rest ih =>
    obtain ⟨hvalue, hrest⟩ := List.forall_mem_cons.1 h
    obtain ⟨comment, hcomment, htext⟩ : ∃ comment : String, IsClosed comment.toList [] ∧
        TypeNode.membersText depth (m :: rest) = comment ++ Text.indentation depth ++
          (if m.readonly then "readonly " else "") ++ TypeNode.keyText m.key m.optional ++ ": " ++
            m.value.textAt depth ++ ";\n" ++ TypeNode.membersText depth rest := by
      cases hdoc : m.doc with
      | none => exact ⟨"", isClosed_nil, by rw [TypeNode.membersText, hdoc]⟩
      | some doc =>
        exact ⟨docComment doc depth, isClosed_docComment doc depth, by
          rw [TypeNode.membersText, hdoc]⟩
    have hgap : IsClosed [' '] [] := isClosed_gap (by decide)
    have hfeed : IsClosed ['\n'] [] := isClosed_gap (by decide)
    have hsemicolon : IsClosed [';'] [.mark ';'] := isClosed_mark (by decide)
    have hend := hvalue.append_isClosed (hsemicolon.append hfeed) (stops_cons (by decide))
    have hall := (hcomment.append ((isClosed_indentation depth).append
      ((isClosed_head m.key m.optional m.readonly).append (hgap.append hend)))).append (ih hrest)
    rw [htext, TypeNode.memberSpellings]
    simpa using hall

end Texts

/-- Types between separators are read as their tokens between marks. -/
theorem isRead_textsAt {separator : String} {c : Char} (hseparator : IsSeparator separator c)
    (depth : ℕ) (wrap : Bool) {members : List TypeNode}
    (h : ∀ m ∈ members, IsRead (m.textAt depth).toList m.spelling) :
    IsRead (Text.joinWith separator (TypeNode.textsAt depth wrap members)).toList
      (separated c (TypeNode.spellings wrap members)) := by
  rw [TypeNode.textsAt_eq_map, TypeNode.spellings_eq_map]
  refine isRead_joinWith hseparator ?_
  rw [List.forall₂_map_left_iff, List.forall₂_map_right_iff, List.forall₂_same]
  exact fun m hm => isRead_parenthesised _ (h m hm)

/-- The text of a type is read as its tokens. -/
theorem isRead_textAt {t : TypeNode} (h : t.IsPlain) (depth : ℕ) :
    IsRead (t.textAt depth).toList t.spelling := by
  induction h generalizing depth with
  | keyword k => exact isRead_typeWord (word_mem_typeWords k)
  | string value => exact (isClosed_quoted value).isRead
  | number h => exact isRead_number h
  | bool value =>
    cases value with
    | true => exact isRead_typeWord (w := "true") (by decide)
    | false => exact isRead_typeWord (w := "false") (by decide)
  | @array element _ ih =>
    have hbrackets : IsClosed ['[', ']'] [.mark '[', .mark ']'] :=
      (isClosed_mark (c := '[') (by decide)).append (isClosed_mark (c := ']') (by decide))
    have hall := (isRead_parenthesised (element.isUnion || element.isIntersection)
      (ih depth)).append_isClosed hbrackets (stops_cons (by decide))
    simpa [TypeNode.textAt, TypeNode.spelling] using hall.isRead
  | @object members _ ih =>
    have hopen : IsClosed ['\x7b'] [.mark '\x7b'] := isClosed_mark (by decide)
    have hclose : IsClosed ['\x7d'] [.mark '\x7d'] := isClosed_mark (by decide)
    cases members with
    | nil =>
      have hall := hopen.append hclose
      simpa [TypeNode.textAt, TypeNode.spelling, TypeNode.memberSpellings] using hall.isRead
    | cons m rest =>
      have hfeed : IsClosed ['\n'] [] := isClosed_gap (by decide)
      have hmembers := isClosed_membersText (depth + 1) fun m hm => ih m hm (depth + 1)
      have hall := (hopen.append hfeed).append
        (hmembers.append ((isClosed_indentation depth).append hclose))
      simpa [TypeNode.textAt, TypeNode.spelling] using hall.isRead
  | @union members _ ih =>
    cases members with
    | nil => exact isRead_typeWord (w := "never") (by decide)
    | cons m rest => exact isRead_textsAt isSeparator_bar depth false fun t ht => ih t ht depth
  | @intersection members _ ih =>
    cases members with
    | nil => exact isRead_typeWord (w := "any") (by decide)
    | cons m rest => exact isRead_textsAt isSeparator_ampersand depth true fun t ht => ih t ht depth
  | @tuple members _ ih =>
    have hopen : IsClosed ['['] [.mark '['] := isClosed_mark (by decide)
    have hclose : IsClosed [']'] [.mark ']'] := isClosed_mark (by decide)
    have hmembers := isRead_textsAt isSeparator_comma depth false fun t ht => ih t ht depth
    have hall := hopen.append (hmembers.append_isClosed hclose (stops_cons (by decide)))
    simpa [TypeNode.textAt, TypeNode.spelling] using hall.isRead
  | @reference name arguments hname _ ih =>
    have hword := isRead_word hname.toIsWord
    cases arguments with
    | nil => exact hword
    | cons a rest =>
      have hopen : IsClosed ['<'] [.mark '<'] := isClosed_mark (by decide)
      have hclose : IsClosed ['>'] [.mark '>'] := isClosed_mark (by decide)
      have harguments := isRead_textsAt isSeparator_comma depth false fun t ht => ih t ht depth
      have hall := (hword.append_isClosed hopen (stops_cons (by decide))).append
        (harguments.append_isClosed hclose (stops_cons (by decide)))
      simpa [TypeNode.textAt, TypeNode.spelling] using hall.isRead

end TypedClient.TypeScript
