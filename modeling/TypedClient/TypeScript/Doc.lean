import TypedClient.Text.Blank
import TypedClient.Text.Lines
import TypedClient.Text.Replace

/-!
# Documentation comments

A documentation text becomes a comment right above what it documents. The text
is trimmed, and a comment end inside it is broken up by a backslash, so the only
comment end that is written is the comment's own. A blank text leaves no comment.
-/

namespace TypedClient.TypeScript

/-- The text of a comment with every comment end in it broken up. -/
def escapeDoc (text : List Char) : List Char :=
  Text.replaceAll ['*', '/'] ['*', '\\', '/'] (Text.trim text)

/-- One line of a comment with several lines. -/
def docLine (indent line : List Char) : List Char :=
  indent ++ (if line.isEmpty then [' ', '*', '\n'] else [' ', '*', ' '] ++ line ++ ['\n'])

/-- The comment around lines of text, every line of it indented. -/
def docBlock (indent : List Char) : List (List Char) → List Char
  | [line] => indent ++ ['/', '*', '*', ' '] ++ line ++ [' ', '*', '/', '\n']
  | lines =>
    indent ++ ['/', '*', '*', '\n'] ++ lines.flatMap (docLine indent) ++ indent ++
      [' ', '*', '/', '\n']

/-- The comment for a documentation text at a depth of nesting, with its final
line feed. -/
def docComment (text : String) (depth : Nat) : String :=
  match escapeDoc text.toList with
  | [] => ""
  | escaped =>
    String.ofList
      (docBlock (Text.indentation depth).toList ((Text.lines escaped).map Text.trimEnd))

end TypedClient.TypeScript
