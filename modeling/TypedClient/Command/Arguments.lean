import TypedClient.Number.Unsigned

/-!
# Arguments of the command line

An argument that starts with two dashes is an option by its word, one that starts
with a single dash is some options by their letters, and any other is a value of
the option before it. Switches and options with one value are given at most once.
-/

namespace TypedClient.Command

/-- An option. -/
inductive Flag where
  | schema
  | template
  | out
  | outPath
  | declaration
  | tsx
  | noEmit
  | leadingComment
  | dictionaryThreshold
  /-- An older word for `schema`. -/
  | oldSchema
  /-- An older word for `noEmit`. -/
  | oldNoEmit
  /-- An older word for `template`. -/
  | oldTemplate
  | help
  | version
  deriving DecidableEq, Repr

/-- How many values an option takes. -/
inductive Arity where
  /-- None: the option is a switch. -/
  | none
  /-- Exactly one. -/
  | one
  /-- At least one, and each time the option is given. -/
  | many
  deriving DecidableEq, Repr

namespace Flag

/-- All options. -/
def all : List Flag :=
  [.schema, .template, .out, .outPath, .declaration, .tsx, .noEmit, .leadingComment,
   .dictionaryThreshold, .oldSchema, .oldNoEmit, .oldTemplate, .help, .version]

/-- The word of an option. -/
def word : Flag → String
  | .schema => "schema"
  | .template => "template"
  | .out => "out"
  | .outPath => "outPath"
  | .declaration => "declaration"
  | .tsx => "tsx"
  | .noEmit => "noEmit"
  | .leadingComment => "leadingComment"
  | .dictionaryThreshold => "dictionaryThreshold"
  | .oldSchema => "in"
  | .oldNoEmit => "dryrun"
  | .oldTemplate => "templateUrl"
  | .help => "help"
  | .version => "version"

/-- The letter of an option, for those that have one. -/
def letter? : Flag → Option Char
  | .declaration => some 'd'
  | .help => some 'h'
  | .version => some 'V'
  | _ => none

/-- How many values an option takes. -/
def arity : Flag → Arity
  | .schema | .oldSchema => .many
  | .template | .out | .outPath | .leadingComment | .dictionaryThreshold | .oldTemplate => .one
  | .declaration | .tsx | .noEmit | .oldNoEmit | .help | .version => .none

/-- What an option is for; nothing for the older words. -/
def purpose? : Flag → Option String
  | .schema => some ("One or more schemas. May be file paths, quoted glob patterns, " ++
      "http(s) URLs or '-' for stdin")
  | .template => some ("runtime template prepended to the output (file or URL); " ++
      "a bundled one is used if omitted")
  | .out => some "output file, only valid with a single schema"
  | .outPath => some "output directory; files are named after their schema"
  | .declaration => some "emit ambient declarations only (.d.ts)"
  | .tsx => some "use the .tsx extension"
  | .noEmit => some "print the generated code instead of writing files"
  | .leadingComment => some ("comment placed before the template; supports %version%, " ++
      "%when% and %typescript-version%")
  | .dictionaryThreshold => some ("objects merged from more keys than this become " ++
      "index signatures [default: 20]")
  | .help => some "Print help"
  | .version => some "Print version"
  | .oldSchema | .oldNoEmit | .oldTemplate => none

/-- The option with a word. -/
def ofWord? (text : String) : Option Flag := all.find? (·.word == text)

/-- The option with a letter. -/
def ofLetter? (c : Char) : Option Flag := all.find? (·.letter? == some c)

/-- An option as it is written. -/
def text (flag : Flag) : String := "--" ++ flag.word

/-- Every option is found by its word. -/
theorem ofWord?_word (flag : Flag) : ofWord? flag.word = some flag := by
  cases flag <;> decide

end Flag

/-- Why arguments cannot be understood. -/
inductive UsageError where
  /-- An argument that is no option and no value of one. -/
  | unexpected (argument : String)
  /-- An option that lacks a value. -/
  | missingValue (flag : Flag)
  /-- A value for a switch. -/
  | needlessValue (flag : Flag)
  /-- A value that the option cannot have. -/
  | invalidValue (flag : Flag) (value : String)
  /-- An option that is given again. -/
  | repeated (flag : Flag)
  deriving DecidableEq, Repr

/-- The wording of a usage error. -/
def UsageError.message : UsageError → String
  | .unexpected argument => "unexpected argument '" ++ argument ++ "' found"
  | .missingValue flag => "a value is required for '" ++ flag.text ++ "' but none was supplied"
  | .needlessValue flag => "unexpected value for '" ++ flag.text ++ "' found; no more were expected"
  | .invalidValue flag value => "invalid value '" ++ value ++ "' for '" ++ flag.text ++ "'"
  | .repeated flag => "the argument '" ++ flag.text ++ "' cannot be used multiple times"

/-- What the options say. -/
structure Arguments where
  /-- The schemas, in order. -/
  schemas : List String := []
  /-- Where the template is. -/
  template : Option String := none
  /-- The file to be written. -/
  out : Option String := none
  /-- The folder of the files to be written. -/
  outPath : Option String := none
  /-- Only ambient declarations. -/
  declaration : Bool := false
  /-- Whether the extension has an `x` at its end. -/
  tsx : Bool := false
  /-- Print instead of writing files. -/
  noEmit : Bool := false
  /-- The comment at the top. -/
  leadingComment : Option String := none
  /-- A merged object with more fields than this becomes a dictionary. -/
  dictionaryThreshold : Option Nat := none
  /-- The schemas given by the older word. -/
  oldSchemas : List String := []
  /-- Whether the older word for printing was given. -/
  oldNoEmit : Bool := false
  /-- The template given by the older word. -/
  oldTemplate : Option String := none
  deriving DecidableEq, Repr

/-- What is asked for. -/
inductive Request where
  /-- Generate modules. -/
  | generate (arguments : Arguments)
  /-- Show what the options are. -/
  | help
  /-- Show the version. -/
  | version
  deriving DecidableEq, Repr

namespace Arguments

/-- How many bits a threshold may have. -/
def thresholdBits : Nat := 64

/-- The value of an option that is given once. -/
def once {α : Type} (flag : Flag) (before : Option α) (value : Option α) (text : String) :
    Except UsageError (Option α) :=
  match value, before with
  | none, _ => .error (.invalidValue flag text)
  | some _, some _ => .error (.repeated flag)
  | some value, none => .ok (some value)

/-- A path is not empty. -/
def path? (text : String) : Option String := if text.isEmpty then none else some text

/-- Give an option one value. -/
def giveOne (a : Arguments) (flag : Flag) (value : String) : Except UsageError Arguments :=
  match flag with
  | .template => return { a with template := ← once flag a.template (some value) value }
  | .out => return { a with out := ← once flag a.out (path? value) value }
  | .outPath => return { a with outPath := ← once flag a.outPath (path? value) value }
  | .leadingComment =>
    return { a with leadingComment := ← once flag a.leadingComment (some value) value }
  | .dictionaryThreshold =>
    return { a with
      dictionaryThreshold :=
        ← once flag a.dictionaryThreshold (unsigned? thresholdBits value.toList) value }
  | .oldTemplate =>
    return { a with oldTemplate := ← once flag a.oldTemplate (some value) value }
  | _ => .error (.needlessValue flag)

/-- Turn a switch on. -/
def giveSwitch (a : Arguments) (flag : Flag) : Except UsageError Arguments :=
  match flag with
  | .declaration =>
    if a.declaration then .error (.repeated flag) else .ok { a with declaration := true }
  | .tsx => if a.tsx then .error (.repeated flag) else .ok { a with tsx := true }
  | .noEmit => if a.noEmit then .error (.repeated flag) else .ok { a with noEmit := true }
  | .oldNoEmit =>
    if a.oldNoEmit then .error (.repeated flag) else .ok { a with oldNoEmit := true }
  | _ => .error (.missingValue flag)

/-- Give an option its values. -/
def give (a : Arguments) (flag : Flag) (values : List String) : Except UsageError Arguments :=
  match flag.arity, values with
  | _, [] => .error (.missingValue flag)
  | .one, [value] => a.giveOne flag value
  | .one, _ | .none, _ => .error (.needlessValue flag)
  | .many, values =>
    .ok (if flag = .schema then { a with schemas := a.schemas ++ values }
      else { a with oldSchemas := a.oldSchemas ++ values })

end Arguments

/-- An argument by its form. -/
inductive Form where
  /-- Two dashes: no options follow. -/
  | separator
  /-- An option by its word, possibly with a value after an equals sign. -/
  | word (text : String) (value : Option String)
  /-- Options by their letters. -/
  | letters (letters : List Char)
  /-- A value. -/
  | value (text : String)
  deriving DecidableEq, Repr

/-- The form of an argument. A single dash is a value. -/
def Form.ofText (text : String) : Form :=
  match text.toList with
  | ['-', '-'] => .separator
  | '-' :: '-' :: rest =>
    match rest.span (· != '=') with
    | (name, _ :: attached) => .word (String.ofList name) (some (String.ofList attached))
    | (name, []) => .word (String.ofList name) none
  | '-' :: c :: rest => .letters (c :: rest)
  | _ => .value text

namespace Request

/-- Options that wait for values: an option, and its values so far. -/
abbrev Pending := Option (Flag × List String)

/-- Give an option that waits for values those that came. -/
def settle (a : Arguments) : Pending → Except UsageError Arguments
  | none => .ok a
  | some (flag, values) => a.give flag values

/-- What a switch asks for. -/
def ofSwitch (a : Arguments) (flag : Flag) : Except UsageError Request :=
  match flag with
  | .help => .ok .help
  | .version => .ok .version
  | _ => (a.giveSwitch flag).map .generate

/-- What letters ask for. The first that asks for a text to be shown ends the
arguments. -/
def ofLetters (a : Arguments) : List Char → Except UsageError Request
  | [] => .ok (.generate a)
  | c :: rest =>
    match Flag.ofLetter? c with
    | none => .error (.unexpected ("-" ++ String.singleton c))
    | some flag => do
      match ← ofSwitch a flag with
      | .generate a => ofLetters a rest
      | request => return request

/-- What the arguments ask for, after those that said `a` and left an option
waiting for values. -/
def readFrom (a : Arguments) (pending : Pending) : List String → Except UsageError Request
  | [] => (settle a pending).map .generate
  | argument :: rest =>
    match Form.ofText argument with
    | .separator =>
      match rest with
      | [] => (settle a pending).map .generate
      | next :: _ => .error (.unexpected next)
    | .word text value => do
      let a ← settle a pending
      match Flag.ofWord? text with
      | none => .error (.unexpected argument)
      | some flag =>
        match flag.arity, value with
        | .none, some _ => .error (.needlessValue flag)
        | .none, none =>
          match ← ofSwitch a flag with
          | .generate a => readFrom a none rest
          | request => return request
        | _, some value => readFrom (← a.give flag [value]) none rest
        | _, none => readFrom a (some (flag, [])) rest
    | .letters letters => do
      let a ← settle a pending
      match ← ofLetters a letters with
      | .generate a => readFrom a none rest
      | request => return request
    | .value text =>
      match pending with
      | some (flag, values) =>
        if flag.arity = .one ∧ values ≠ [] then .error (.unexpected text)
        else readFrom a (some (flag, values ++ [text])) rest
      | none => .error (.unexpected text)

/-- What the arguments ask for. -/
def ofArguments (arguments : List String) : Except UsageError Request := readFrom {} none arguments

end Request

namespace Arguments

/-- The older words that were used, with the words to use instead. -/
def outdated (a : Arguments) : List (Flag × Flag) :=
  (if a.oldSchemas.isEmpty then [] else [(.oldSchema, .schema)]) ++
    (if a.oldNoEmit then [(.oldNoEmit, .noEmit)] else []) ++
    (if a.oldTemplate.isSome then [(.oldTemplate, .template)] else [])

/-- What the older words say, said by the words to use instead. Schemas come
after the others, and a template by the newer word counts. -/
def updated (a : Arguments) : Arguments :=
  { a with
    schemas := a.schemas ++ a.oldSchemas
    noEmit := a.noEmit || a.oldNoEmit
    template := a.template.or a.oldTemplate
    oldSchemas := []
    oldNoEmit := false
    oldTemplate := none }

/-- Nothing is left to be said by the older words. -/
theorem outdated_updated (a : Arguments) : a.updated.outdated = [] := rfl

end Arguments

end TypedClient.Command
