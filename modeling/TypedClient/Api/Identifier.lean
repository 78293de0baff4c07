/-!
# Identifiers

Names of a document become identifiers of the generated module: a character that
an identifier cannot hold becomes an underscore, a leading digit gets one in
front, and a reserved word gets one behind.
-/

namespace TypedClient

/-- A letter, digit, underscore or dollar sign, ASCII only. -/
def isIdentifierChar (c : Char) : Bool :=
  ('A' ≤ c && c ≤ 'Z') || ('a' ≤ c && c ≤ 'z') || ('0' ≤ c && c ≤ '9') || c = '_' || c = '$'

/-- Words that cannot name a binding in a module. -/
def reservedWords : List String :=
  ["await", "break", "case", "catch", "class", "const", "continue", "debugger", "default",
   "delete", "do", "else", "enum", "export", "extends", "false", "finally", "for", "function",
   "if", "implements", "import", "in", "instanceof", "interface", "let", "new", "null",
   "package", "private", "protected", "public", "return", "static", "super", "switch", "this",
   "throw", "true", "try", "typeof", "var", "void", "while", "with", "yield"]

/-- Every character that an identifier cannot hold replaced by an underscore. -/
def sanitize (name : List Char) : List Char :=
  name.map fun c => if isIdentifierChar c then c else '_'

/-- An underscore in front of a text that is empty or starts with a digit. -/
def guardStart (name : List Char) : List Char :=
  match name with
  | [] => ['_']
  | c :: rest => if c.isDigit then '_' :: c :: rest else c :: rest

/-- An underscore behind a reserved word. -/
def guardReserved (name : List Char) : List Char :=
  if reservedWords.contains (String.ofList name) then name ++ ['_'] else name

/-- The identifier for a name. -/
def identifier (name : String) : String :=
  String.ofList (guardReserved (guardStart (sanitize name.toList)))

/-- The characters of an identifier are those that it can hold. -/
theorem isIdentifierChar_of_mem_sanitize {name : List Char} {c : Char} (h : c ∈ sanitize name) :
    isIdentifierChar c = true := by
  obtain ⟨d, _, rfl⟩ := List.mem_map.1 h
  by_cases hd : isIdentifierChar d <;> simp [hd]
  decide

end TypedClient
