import TypedClient.Proofs.TypeScript.Documentation
import TypedClient.TypeScript.Print

/-!
# Where comments stand

Documentation changes the text of a declaration in one way: comments are inserted where lines
begin. What is left without them is the text of the declaration without its documentation.
-/

namespace TypedClient.TypeScript

/-! ### Texts with insertions -/

/-- A text is another one with parts of a kind inserted where lines begin. The flag says whether
the two begin where a line does. -/
inductive Inserted (kind : List Char → Prop) : Bool → List Char → List Char → Prop where
  /-- Nothing is left. -/
  | nil {start : Bool} : Inserted kind start [] []
  /-- A character of both. -/
  | char {start : Bool} (c : Char) {plain text : List Char} :
    Inserted kind (c == '\n') plain text → Inserted kind start (c :: plain) (c :: text)
  /-- A part that is inserted. -/
  | part {inserted plain text : List Char} :
    kind inserted → Inserted kind true plain text → Inserted kind true plain (inserted ++ text)

namespace Inserted

variable {kind kind' : List Char → Prop} {start : Bool} {plain text plain' text' : List Char}

theorem refl (kind : List Char → Prop) (start : Bool) (text : List Char) :
    Inserted kind start text text := by
  induction text generalizing start with
  | nil => exact .nil
  | cons c text ih => exact .char c (ih _)

/-- What is inserted within lines only is inserted as well where a line begins. -/
theorem of_false (h : Inserted kind false plain text) (start : Bool) :
    Inserted kind start plain text := by
  cases h with
  | nil => exact .nil
  | char c h => exact .char c h

/-- Texts one after another, the second one of which begins within a line. -/
theorem append (h : Inserted kind start plain text) (h' : Inserted kind false plain' text') :
    Inserted kind start (plain ++ plain') (text ++ text') := by
  induction h with
  | nil => exact h'.of_false _
  | char c _ ih => exact .char c ih
  | part hpart _ ih =>
    rw [List.append_assoc]
    exact .part hpart ih

/-- Lines one after another. -/
theorem feed (h : Inserted kind start plain text) (h' : Inserted kind true plain' text') :
    Inserted kind start (plain ++ '\n' :: plain') (text ++ '\n' :: text') :=
  h.append (.char '\n' h')

/-- Parts of a kind are of another kind too, or empty. -/
theorem mono (hkind : ∀ part, kind part → part = [] ∨ kind' part)
    (h : Inserted kind start plain text) : Inserted kind' start plain text := by
  induction h with
  | nil => exact .nil
  | char c _ ih => exact .char c ih
  | part hpart _ ih =>
    rcases hkind _ hpart with rfl | hpart
    · exact ih
    · exact .part hpart ih

end Inserted

/-- A text is the comment for a documentation text. -/
def IsDocComment (part : List Char) : Prop :=
  ∃ doc depth, part = (docComment doc depth).toList

/-- A text is another one with documentation comments inserted where lines begin. -/
def Documents (start : Bool) (plain text : String) : Prop :=
  Inserted IsDocComment start plain.toList text.toList

namespace Documents

variable {start : Bool} {plain text plain' text' separator : String} {plains texts : List String}

theorem refl (start : Bool) (text : String) : Documents start text text := Inserted.refl _ _ _

theorem append (h : Documents start plain text) (h' : Documents false plain' text') :
    Documents start (plain ++ plain') (text ++ text') := by
  rw [Documents, String.toList_append, String.toList_append]
  exact Inserted.append h h'

/-- Behind a text that is the same in both. -/
theorem behind (h : Documents false plain text) (start : Bool) (front : String) :
    Documents start (front ++ plain) (front ++ text) :=
  (refl start front).append h

theorem feed (h : Documents start plain text) (h' : Documents true plain' text') :
    Documents start (plain ++ "\n" ++ plain') (text ++ "\n" ++ text') := by
  have hboth := Inserted.feed h h'
  simpa [Documents] using hboth

/-- A comment where a line begins, if there is documentation. -/
theorem comment (doc : Option String) (depth : ℕ) (h : Documents true plain text) :
    Documents true plain
      ((match doc with
        | some doc => docComment doc depth
        | none => "") ++ text) := by
  rw [Documents, String.toList_append]
  cases doc with
  | none => exact h
  | some doc => exact .part ⟨doc, depth, rfl⟩ h

/-- Texts between separators. -/
theorem joinWith (hseparator : ∀ p t, Documents start p t →
      Documents false (separator ++ p) (separator ++ t))
    (h : List.Forall₂ (Documents start) plains texts) :
    Documents start (Text.joinWith separator plains) (Text.joinWith separator texts) := by
  induction h with
  | nil => exact refl _ _
  | @cons plain text plains texts hfirst hrest ih =>
    cases hrest with
    | nil => exact hfirst
    | @cons plain' text' plains texts hsecond hrest =>
      change Documents start (plain ++ separator ++ Text.joinWith separator (plain' :: plains))
        (text ++ separator ++ Text.joinWith separator (text' :: texts))
      rw [String.append_assoc, String.append_assoc]
      exact hfirst.append (hseparator _ _ ih)

/-- Texts between separators, none of which begins a line. -/
theorem joinWithin (separator : String) (h : List.Forall₂ (Documents false) plains texts) :
    Documents false (Text.joinWith separator plains) (Text.joinWith separator texts) :=
  joinWith (fun _ _ hnext => hnext.behind false separator) h

/-- Lines between line feeds. -/
theorem joinLines (h : List.Forall₂ (Documents true) plains texts) :
    Documents true (Text.joinWith "\n" plains) (Text.joinWith "\n" texts) :=
  joinWith (fun _ _ hlines => (refl false "").feed hlines) h

theorem parenthesised (wrap : Bool) (h : Documents false plain text) :
    Documents false (parenthesised wrap plain) (parenthesised wrap text) := by
  cases wrap with
  | false => exact h
  | true => exact (h.behind false "(").append (refl false ")")

end Documents

/-! ### Types and declarations without documentation -/

mutual

/-- A type without the documentation of its members. -/
def TypeNode.undocumented : TypeNode → TypeNode
  | .keyword k => .keyword k
  | .literal value => .literal value
  | .array element => .array element.undocumented
  | .object members => .object (undocumentedMembers members)
  | .union members => .union (undocumentedTypes members)
  | .intersection members => .intersection (undocumentedTypes members)
  | .tuple members => .tuple (undocumentedTypes members)
  | .reference name arguments => .reference name (undocumentedTypes arguments)

/-- Types without the documentation of their members. -/
def undocumentedTypes : List TypeNode → List TypeNode
  | [] => []
  | t :: rest => t.undocumented :: undocumentedTypes rest

/-- Members without documentation. -/
def undocumentedMembers : List (Field TypeNode) → List (Field TypeNode)
  | [] => []
  | m :: rest =>
    { m with value := m.value.undocumented, doc := none } :: undocumentedMembers rest

end

/-- A parameter without the documentation in its type. -/
def Parameter.undocumented (p : Parameter) : Parameter := { p with type := p.type.undocumented }

/-- A function without documentation. -/
def Function.undocumented (f : Function) : Function :=
  { f with parameters := f.parameters.map Parameter.undocumented,
           returnType := f.returnType.undocumented, doc := none }

/-- A declaration without documentation. -/
def Declaration.undocumented : Declaration → Declaration
  | .interface name members => .interface name (undocumentedMembers members)
  | .alias name type => .alias name type.undocumented
  | .enumeration e => .enumeration e
  | .function f => .function f.undocumented

/-- Documentation is no part of the name. -/
theorem Declaration.name_undocumented (d : Declaration) : d.undocumented.name = d.name := by
  cases d <;> rfl

namespace TypeNode

theorem isUnion_undocumented (t : TypeNode) : t.undocumented.isUnion = t.isUnion := by
  cases t <;> rfl

theorem isIntersection_undocumented (t : TypeNode) :
    t.undocumented.isIntersection = t.isIntersection := by
  cases t <;> rfl

mutual

/-- Documentation only inserts comments into the text of a type. -/
theorem documents_textAt (depth : ℕ) :
    ∀ t : TypeNode, Documents false (t.undocumented.textAt depth) (t.textAt depth)
  | .keyword k => .refl _ _
  | .literal value => .refl _ _
  | .array element => by
    have helement := (documents_textAt depth element).parenthesised
      (element.isUnion || element.isIntersection)
    rw [undocumented, textAt, textAt, isUnion_undocumented, isIntersection_undocumented]
    exact helement.append (.refl false "[]")
  | .object [] => .refl _ _
  | .object (m :: rest) => by
    have hmembers := (documents_membersText (depth + 1) (m :: rest)).append
      (.refl false (Text.indentation depth ++ "\x7d"))
    have hall := (Documents.refl false "\x7b").feed hmembers
    have hstart : "\x7b\n" = "\x7b" ++ "\n" := rfl
    have hobject : (undocumented (.object (m :: rest))).textAt depth = "\x7b\n" ++
        membersText (depth + 1) (undocumentedMembers (m :: rest)) ++ Text.indentation depth ++
          "\x7d" := rfl
    rw [hobject, textAt, hstart]
    simpa only [String.append_assoc] using hall
  | .union [] => .refl _ _
  | .union (t :: rest) => .joinWithin " | " (documents_textsAt depth false (t :: rest))
  | .intersection [] => .refl _ _
  | .intersection (t :: rest) => .joinWithin " & " (documents_textsAt depth true (t :: rest))
  | .tuple members =>
    ((Documents.joinWithin ", " (documents_textsAt depth false members)).behind false "[").append
      (.refl false "]")
  | .reference name [] => .refl _ _
  | .reference name (t :: rest) =>
    ((Documents.joinWithin ", " (documents_textsAt depth false (t :: rest))).behind false
      (name ++ "<")).append (.refl false ">")

theorem documents_textsAt (depth : ℕ) (wrap : Bool) :
    ∀ types, List.Forall₂ (Documents false) (textsAt depth wrap (undocumentedTypes types))
      (textsAt depth wrap types)
  | [] => .nil
  | t :: rest => by
    rw [undocumentedTypes, textsAt, textsAt, isUnion_undocumented]
    exact .cons ((documents_textAt depth t).parenthesised _) (documents_textsAt depth wrap rest)

theorem documents_membersText (depth : ℕ) :
    ∀ members, Documents true (membersText depth (undocumentedMembers members))
      (membersText depth members)
  | [] => .refl _ _
  | m :: rest => by
    have hline := ((documents_textAt depth m.value).behind true
      (Text.indentation depth ++ (if m.readonly then "readonly " else "") ++
        keyText m.key m.optional ++ ": ")).append (.refl false ";")
    have hall := Documents.comment m.doc depth
      (hline.feed (documents_membersText depth rest))
    have hend : ";\n" = ";" ++ "\n" := rfl
    rw [undocumentedMembers, membersText, membersText, hend]
    simp only [String.append_assoc, String.empty_append] at hall ⊢
    exact hall

end

end TypeNode

/-- Documentation only inserts comments into the text of a declaration. -/
theorem documents_declaration (ambient : Bool) (d : Declaration) :
    Documents true (d.undocumented.text ambient) (d.text ambient) := by
  cases d with
  | interface name members =>
    exact (TypeNode.documents_textAt 0 (.object members)).behind true
      ("export interface " ++ name ++ " ")
  | «alias» name type =>
    exact ((TypeNode.documents_textAt 0 type).behind true
      ("export type " ++ name ++ " = ")).append (.refl false ";")
  | enumeration e => exact .refl _ _
  | function f =>
    have hparameters : List.Forall₂ (Documents false)
        (f.undocumented.parameters.map Parameter.text) (f.parameters.map Parameter.text) := by
      rw [Function.undocumented, List.map_map, List.forall₂_map_left_iff,
        List.forall₂_map_right_iff, List.forall₂_same]
      exact fun p _ => (TypeNode.documents_textAt 0 p.type).behind false
        (p.name ++ (if p.optional then "?" else "") ++ ": ")
    have hhead := (((Documents.joinWithin ", " hparameters).behind false (f.name ++ "(")).append
      (.refl false "): ")).append (TypeNode.documents_textAt 0 f.returnType)
    cases ambient with
    | true =>
      exact .comment f.doc 0 ((hhead.behind true "export declare function ").append
        (.refl false ";"))
    | false =>
      have hopened := ((hhead.behind true "export async function ").append
        (.refl false " \x7b\n")).append (.refl false (Text.indentation 1))
      exact .comment f.doc 0 (((hopened.append (.refl false "return ")).append
        (.refl false f.returns.text)).append (.refl false ";\n\x7d"))

end TypedClient.TypeScript
