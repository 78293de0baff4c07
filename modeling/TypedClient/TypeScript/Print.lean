import TypedClient.Json.Text
import TypedClient.TypeScript.Doc
import TypedClient.TypeScript.Syntax

/-!
# Printing modules

The text of types, expressions and declarations. A union inside an array or an
intersection stands in parentheses, and an intersection inside an array too. In
an ambient module functions have no body and constants no value.
-/

namespace TypedClient

/-- The word of a keyword. -/
def Keyword.word : Keyword → String
  | .any => "any"
  | .void => "void"
  | .null => "null"
  | .undefined => "undefined"
  | .boolean => "boolean"
  | .number => "number"
  | .string => "string"

namespace TypeScript

/-- A text in parentheses when `wrap` is set. -/
def parenthesised (wrap : Bool) (text : String) : String :=
  if wrap then "(" ++ text ++ ")" else text

namespace TypeNode

/-- Whether the type is a union. -/
def isUnion : TypeNode → Bool
  | .union _ => true
  | _ => false

/-- Whether the type is an intersection. -/
def isIntersection : TypeNode → Bool
  | .intersection _ => true
  | _ => false

/-- The key of a member as it is written before the colon. Only a named member
can be optional. -/
def keyText (key : Key) (optional : Bool) : String :=
  match key with
  | .named name => Json.quoted name ++ (if optional then "?" else "")
  | .wildcard => "[key: string]"

mutual

/-- The text of a type whose members stand `depth` levels deep. -/
def textAt (depth : Nat) : TypeNode → String
  | .keyword k => k.word
  | .literal value => value.compact
  | .array element =>
    parenthesised (element.isUnion || element.isIntersection) (element.textAt depth) ++ "[]"
  | .object [] => "\x7b\x7d"
  | .object (member :: members) =>
    "\x7b\n" ++ membersText (depth + 1) (member :: members) ++ Text.indentation depth ++ "\x7d"
  | .union [] => "never"
  | .union (member :: members) => Text.joinWith " | " (textsAt depth false (member :: members))
  | .intersection [] => Keyword.any.word
  | .intersection (member :: members) =>
    Text.joinWith " & " (textsAt depth true (member :: members))
  | .tuple members => "[" ++ Text.joinWith ", " (textsAt depth false members) ++ "]"
  | .reference name [] => name
  | .reference name (argument :: arguments) =>
    name ++ "<" ++ Text.joinWith ", " (textsAt depth false (argument :: arguments)) ++ ">"

/-- The texts of types, unions in parentheses when `wrap` is set. -/
def textsAt (depth : Nat) (wrap : Bool) : List TypeNode → List String
  | [] => []
  | member :: rest =>
    parenthesised (wrap && member.isUnion) (member.textAt depth) :: textsAt depth wrap rest

/-- The lines of the members of an object type. -/
def membersText (depth : Nat) : List (Field TypeNode) → String
  | [] => ""
  | member :: rest =>
    (match member.doc with
      | some doc => docComment doc depth
      | none => "") ++
    Text.indentation depth ++ (if member.readonly then "readonly " else "") ++
      keyText member.key member.optional ++ ": " ++ member.value.textAt depth ++ ";\n" ++
      membersText depth rest

end

/-- The text of a type. -/
def text (type : TypeNode) : String := type.textAt 0

end TypeNode

namespace Expression

/-- An entry of an object whose value has the given text. A name under its own
key is written once. -/
def entryText (key : String) (value : Expression) (text : String) : String :=
  match value with
  | .identifier name => if name = key then key else key ++ ": " ++ text
  | _ => key ++ ": " ++ text

mutual

/-- The text of an expression. -/
def text : Expression → String
  | .identifier name => name
  | .literal value => value.compact
  | .call callee arguments => callee ++ "(" ++ Text.joinWith ", " (texts arguments) ++ ")"
  | .object [] => "\x7b\x7d"
  | .object (entry :: entries) =>
    "\x7b " ++ Text.joinWith ", " (entryTexts (entry :: entries)) ++ " \x7d"

/-- The texts of expressions. -/
def texts : List Expression → List String
  | [] => []
  | e :: rest => e.text :: texts rest

/-- The texts of the entries of an object. -/
def entryTexts : List (String × Expression) → List String
  | [] => []
  | (key, value) :: rest => entryText key value value.text :: entryTexts rest

end

end Expression

/-- The text of a parameter. -/
def Parameter.text (p : Parameter) : String :=
  p.name ++ (if p.optional then "?" else "") ++ ": " ++ p.type.text

/-- The text of a constant of an enumeration. -/
def memberText (m : EnumMember) : String :=
  Text.indentation 1 ++ m.name ++ " = " ++ m.value.compact

/-- The text of an enumeration. -/
def enumerationText (ambient : Bool) (e : Enumeration) : String :=
  let body := Text.joinWith ",\n" (e.members.map memberText)
  "export " ++ (if ambient then "declare " else "") ++ "enum " ++ e.name ++ " \x7b" ++
    (if e.members.isEmpty then "" else "\n" ++ body ++ "\n") ++ "\x7d"

/-- The text of a function. -/
def Function.text (ambient : Bool) (f : Function) : String :=
  let head := f.name ++ "(" ++ Text.joinWith ", " (f.parameters.map Parameter.text) ++ "): " ++
    f.returnType.text
  (match f.doc with
    | some doc => docComment doc 0
    | none => "") ++
  if ambient then "export declare function " ++ head ++ ";"
  else "export async function " ++ head ++ " \x7b\n" ++ Text.indentation 1 ++ "return " ++
    f.returns.text ++ ";\n\x7d"

/-- The text of a declaration. -/
def Declaration.text (ambient : Bool) : Declaration → String
  | .interface name members =>
    "export interface " ++ name ++ " " ++ (TypeNode.object members).text
  | .alias name type => "export type " ++ name ++ " = " ++ type.text ++ ";"
  | .enumeration e => enumerationText ambient e
  | .function f => f.text ambient

/-- The text of a constant. -/
def Constant.text (ambient : Bool) (c : Constant) : String :=
  if ambient then "export declare const " ++ c.name ++ ": " ++ c.value.compact ++ ";"
  else "export const " ++ c.name ++ " = " ++ c.value.compact ++ ";"

end TypeScript

end TypedClient
