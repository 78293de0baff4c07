import TypedClient.Proofs.Module.Printing
import TypedClient.Proofs.Reduction.Texts
import TypedClient.Proofs.TypeScript.Aliases
import TypedClient.Proofs.TypeScript.Walk

/-!
# Inert types and declarations

A type or a declaration is inert when its text is, at every depth of nesting. What is made of
inert parts is inert, and so is what is made of shapes whose texts name no variable.
-/

namespace TypedClient.TypeScript

open TypedClient.Module (Fixed isInert_plain isInert_joinWith)

/-- The text of a type is inert at every depth. -/
def TypeNode.IsInert (t : TypeNode) : Prop := ∀ depth, Module.IsInert (t.textAt depth).toList

/-- The text of a member of an object type is inert: its key and its documentation name no
variable, and its type is inert. -/
structure IsInertMember (m : Field TypeNode) : Prop where
  /-- The key. -/
  key : ∀ name, m.key = .named name → Fixed name
  /-- The documentation. -/
  doc : ∀ text, m.doc = some text → Fixed text
  /-- The type. -/
  value : m.value.IsInert

/-- The text of an expression is inert. -/
def Expression.IsInert (e : Expression) : Prop := Module.IsInert e.text.toList

/-- The text of a declaration is inert, in both kinds of module. -/
def Declaration.IsInert (d : Declaration) : Prop :=
  ∀ ambient, Module.IsInert (d.text ambient).toList

/-- The text of a constant is inert, in both kinds of module. -/
def Constant.IsInert (c : Constant) : Prop :=
  ∀ ambient, Module.IsInert (c.text ambient).toList

/-! ### Types -/

/-- A text that is left out unless a flag is set. -/
theorem isInert_ite (flag : Bool) (text : String) (h : '%' ∉ text.toList) :
    Module.IsInert (if flag then text else "").toList := by
  cases flag with
  | false => exact Module.isInert_nil
  | true => exact isInert_plain text h

namespace TypeNode

variable {members : List TypeNode} {element : TypeNode}

/-- Parentheses keep a text inert. -/
theorem isInert_parenthesised (wrap : Bool) {text : String} (h : Module.IsInert text.toList) :
    Module.IsInert (parenthesised wrap text).toList := by
  cases wrap with
  | false => exact h
  | true => exact h.between "(" ")" (by decide) (by decide)

/-- The word of a built-in type is inert. -/
theorem isInert_keyword (k : Keyword) : (keyword k).IsInert := by
  have hword : '%' ∉ k.word.toList := by
    cases k <;> decide
  exact fun _ => isInert_plain k.word hword

/-- The type of a single value is inert when no text of the value names a variable. -/
theorem isInert_literal {value : Json} (h : value.IsWrittenWith Fixed) : (literal value).IsInert :=
  fun _ => Module.isInert_compact h

/-- A list of an inert type is inert. -/
theorem isInert_array (h : element.IsInert) : (array element).IsInert :=
  fun depth => (isInert_parenthesised _ (h depth)).concat (isInert_plain "[]" (by decide))

/-- The texts of inert types are inert, in parentheses too. -/
theorem isInert_textsAt (h : ∀ m ∈ members, m.IsInert) (depth : ℕ) (wrap : Bool) :
    ∀ text ∈ textsAt depth wrap members, Module.IsInert text.toList := by
  rw [textsAt_eq_map]
  intro text htext
  obtain ⟨m, hm, rfl⟩ := List.mem_map.1 htext
  exact isInert_parenthesised _ (h m hm depth)

/-- A union of inert types is inert. -/
theorem isInert_union (h : ∀ m ∈ members, m.IsInert) : (union members).IsInert := by
  intro depth
  cases members with
  | nil => exact isInert_plain "never" (by decide)
  | cons m rest => exact isInert_joinWith " | " (by decide) (isInert_textsAt h depth false)

/-- An intersection of inert types is inert. -/
theorem isInert_intersection (h : ∀ m ∈ members, m.IsInert) : (intersection members).IsInert := by
  intro depth
  cases members with
  | nil => exact isInert_keyword .any depth
  | cons m rest => exact isInert_joinWith " & " (by decide) (isInert_textsAt h depth true)

/-- Inert types behind each other, separated by commas. -/
theorem isInert_listed (h : ∀ m ∈ members, m.IsInert) (depth : ℕ) :
    Module.IsInert (Text.joinWith ", " (textsAt depth false members)).toList :=
  isInert_joinWith ", " (by decide) (isInert_textsAt h depth false)

/-- A tuple of inert types is inert. -/
theorem isInert_tuple (h : ∀ m ∈ members, m.IsInert) : (tuple members).IsInert :=
  fun depth => (isInert_listed h depth).between "[" "]" (by decide) (by decide)

/-- A reference with inert arguments is inert when its name has no percent sign. -/
theorem isInert_reference {name : String} (hname : '%' ∉ name.toList)
    (h : ∀ m ∈ members, m.IsInert) : (reference name members).IsInert := by
  have hname := isInert_plain name hname
  intro depth
  cases members with
  | nil => exact hname
  | cons m rest =>
    exact ((hname.concat (isInert_plain "<" (by decide))).concat (isInert_listed h depth)).concat
      (isInert_plain ">" (by decide))

/-- The text of the key of a member is inert. -/
theorem isInert_keyText {key : Key} (h : ∀ name, key = .named name → Fixed name) (optional : Bool) :
    Module.IsInert (keyText key optional).toList := by
  cases key with
  | named name =>
    exact (Module.isInert_quoted (h name rfl)).concat (isInert_ite optional "?" (by decide))
  | wildcard => exact isInert_plain "[key: string]" (by decide)

/-- The comment of what is documented is inert. -/
theorem isInert_comment {doc : Option String} (h : ∀ text, doc = some text → Fixed text)
    (depth : ℕ) : Module.IsInert (match doc with
      | some text => docComment text depth
      | none => "").toList := by
  cases doc with
  | none => exact Module.isInert_nil
  | some text => exact Module.isInert_docComment (h text rfl) depth

/-- The lines of inert members are inert. -/
theorem isInert_membersText {members : List (Field TypeNode)} (h : ∀ m ∈ members, IsInertMember m)
    (depth : ℕ) : Module.IsInert (membersText depth members).toList := by
  induction members with
  | nil => exact Module.isInert_nil
  | cons m rest ih =>
    obtain ⟨hm, hrest⟩ := List.forall_mem_cons.1 h
    have hfront := (isInert_comment hm.doc depth).concat (Module.isInert_indentation depth)
    have hkey := (hfront.concat (isInert_ite m.readonly "readonly " (by decide))).concat
      (isInert_keyText hm.key m.optional)
    have htype := (hkey.concat (isInert_plain ": " (by decide))).concat (hm.value depth)
    rw [membersText]
    exact (htype.concat (isInert_plain ";\n" (by decide))).concat (ih hrest)

/-- An object type of inert members is inert. -/
theorem isInert_object {members : List (Field TypeNode)} (h : ∀ m ∈ members, IsInertMember m) :
    (object members).IsInert := by
  intro depth
  cases members with
  | nil => exact isInert_plain "\x7b\x7d" (by decide)
  | cons m rest =>
    have hlines := isInert_membersText h (depth + 1)
    have hopen := (isInert_plain "\x7b\n" (by decide)).concat hlines
    exact (hopen.concat (Module.isInert_indentation depth)).concat
      (isInert_plain "\x7d" (by decide))

end TypeNode

/-! ### Expressions -/

namespace Expression

variable {arguments : List Expression} {entries : List (String × Expression)}

/-- A name without a percent sign is inert. -/
theorem isInert_identifier {name : String} (h : '%' ∉ name.toList) : (identifier name).IsInert :=
  isInert_plain name h

/-- A value is inert when no text in it names a variable. -/
theorem isInert_literal {value : Json} (h : value.IsWrittenWith Fixed) : (literal value).IsInert :=
  Module.isInert_compact h

/-- The texts of expressions are those of each. -/
theorem texts_eq_map (arguments : List Expression) : texts arguments = arguments.map text := by
  induction arguments with
  | nil => rfl
  | cons e rest ih => rw [texts, ih, List.map_cons]

/-- A call with inert arguments is inert when its callee has no percent sign. -/
theorem isInert_call {callee : String} (hcallee : '%' ∉ callee.toList)
    (h : ∀ e ∈ arguments, e.IsInert) : (call callee arguments).IsInert := by
  have harguments : Module.IsInert (Text.joinWith ", " (texts arguments)).toList := by
    refine isInert_joinWith ", " (by decide) fun text htext => ?_
    rw [texts_eq_map] at htext
    obtain ⟨e, he, rfl⟩ := List.mem_map.1 htext
    exact h e he
  have hopen := (isInert_plain callee hcallee).concat (isInert_plain "(" (by decide))
  exact (hopen.concat harguments).concat (isInert_plain ")" (by decide))

/-- The texts of entries are inert when their keys have no percent signs and their values are
inert. -/
theorem isInert_entryTexts (h : ∀ entry ∈ entries, '%' ∉ entry.1.toList ∧ entry.2.IsInert) :
    ∀ text ∈ entryTexts entries, Module.IsInert text.toList := by
  induction entries with
  | nil => exact nofun
  | cons entry rest ih =>
    obtain ⟨⟨hkey, hvalue⟩, hrest⟩ := List.forall_mem_cons.1 h
    have hkey := isInert_plain entry.1 hkey
    have hboth := (hkey.concat (isInert_plain ": " (by decide))).concat hvalue
    refine List.forall_mem_cons.2 ⟨?_, ih hrest⟩
    unfold entryText
    split
    · split
      · exact hkey
      · exact hboth
    · exact hboth

/-- An object is inert when its keys have no percent signs and its values are inert. -/
theorem isInert_object (h : ∀ entry ∈ entries, '%' ∉ entry.1.toList ∧ entry.2.IsInert) :
    (object entries).IsInert := by
  cases entries with
  | nil => exact isInert_plain "\x7b\x7d" (by decide)
  | cons entry rest =>
    exact (isInert_joinWith ", " (by decide) (isInert_entryTexts h)).between "\x7b " " \x7d"
      (by decide) (by decide)

end Expression

/-! ### Constants and declarations -/

/-- A constant is inert. -/
theorem Constant.isInert {c : Constant} (hname : '%' ∉ c.name.toList)
    (hvalue : c.value.IsWrittenWith Fixed) : c.IsInert := by
  have hname := isInert_plain c.name hname
  have hvalue := Module.isInert_compact hvalue
  intro ambient
  cases ambient with
  | false =>
    exact ((hname.between "export const " " = " (by decide) (by decide)).concat hvalue).concat
      (isInert_plain ";" (by decide))
  | true =>
    exact ((hname.between "export declare const " ": " (by decide) (by decide)).concat
      hvalue).concat (isInert_plain ";" (by decide))

namespace Declaration

/-- An interface is inert. -/
theorem isInert_interface {name : String} {members : List (Field TypeNode)}
    (hname : '%' ∉ name.toList) (h : ∀ m ∈ members, IsInertMember m) :
    (interface name members).IsInert := by
  have hhead := (isInert_plain name hname).between "export interface " " " (by decide) (by decide)
  exact fun _ => hhead.concat (TypeNode.isInert_object h 0)

/-- An alias is inert. -/
theorem isInert_alias {name : String} {type : TypeNode} (hname : '%' ∉ name.toList)
    (h : type.IsInert) : («alias» name type).IsInert := by
  have hhead := (isInert_plain name hname).between "export type " " = " (by decide) (by decide)
  exact fun _ => (hhead.concat (h 0)).concat (isInert_plain ";" (by decide))

/-- An enumeration is inert. -/
theorem isInert_enumeration {e : Enumeration} (h : e.IsWrittenWith Fixed) :
    (enumeration e).IsInert := by
  have hbody : Module.IsInert (Text.joinWith ",\n" (e.members.map memberText)).toList := by
    refine isInert_joinWith ",\n" (by decide) fun text htext => ?_
    obtain ⟨m, hm, rfl⟩ := List.mem_map.1 htext
    have hname :=
      (Module.isInert_indentation 1).concat (isInert_plain m.name (h.names m hm).not_mem)
    exact (hname.concat (isInert_plain " = " (by decide))).concat
      (Module.isInert_compact (h.values m hm))
  have hmembers : Module.IsInert (if e.members.isEmpty then ""
      else "\n" ++ Text.joinWith ",\n" (e.members.map memberText) ++ "\n").toList := by
    split
    · exact Module.isInert_nil
    · exact hbody.between "\n" "\n" (by decide) (by decide)
  intro ambient
  have hkind := (isInert_ite ambient "declare " (by decide)).between "export " "enum " (by decide)
    (by decide)
  have hname := hkind.concat (isInert_plain e.name h.name.not_mem)
  exact ((hname.concat (isInert_plain " \x7b" (by decide))).concat hmembers).concat
    (isInert_plain "\x7d" (by decide))

/-- A function is inert. -/
theorem isInert_function {f : Function} (hname : '%' ∉ f.name.toList)
    (hparameters : ∀ p ∈ f.parameters, '%' ∉ p.name.toList ∧ p.type.IsInert)
    (hreturn : f.returnType.IsInert) (hreturns : f.returns.IsInert)
    (hdoc : ∀ text, f.doc = some text → Fixed text) : (function f).IsInert := by
  have hlist : Module.IsInert (Text.joinWith ", " (f.parameters.map Parameter.text)).toList := by
    refine isInert_joinWith ", " (by decide) fun text htext => ?_
    obtain ⟨p, hp, rfl⟩ := List.mem_map.1 htext
    obtain ⟨hname, htype⟩ := hparameters p hp
    have hkey := (isInert_plain p.name hname).concat (isInert_ite p.optional "?" (by decide))
    exact (hkey.concat (isInert_plain ": " (by decide))).concat (htype 0)
  have hreturnType : Module.IsInert f.returnType.text.toList := hreturn 0
  have hopen := (isInert_plain f.name hname).concat (isInert_plain "(" (by decide))
  have hhead := ((hopen.concat hlist).concat (isInert_plain "): " (by decide))).concat hreturnType
  intro ambient
  refine (TypeNode.isInert_comment hdoc 0).concat ?_
  split
  · exact hhead.between "export declare function " ";" (by decide) (by decide)
  · have hbody := (hhead.between "export async function " " \x7b\n" (by decide) (by decide)).concat
      (Module.isInert_indentation 1)
    exact ((hbody.concat (isInert_plain "return " (by decide))).concat hreturns).concat
      (isInert_plain ";\n\x7d" (by decide))

end Declaration

end TypedClient.TypeScript
