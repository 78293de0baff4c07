import TypedClient.Json.Token

/-!
# Reading a strict text

The tokens of a text are folded over a stack of open containers. A key that is
repeated keeps its first place and takes the last value, and containers may not
be nested deeper than a given limit.
-/

namespace TypedClient.Json

/-- A container that is still open. -/
inductive Frame where
  /-- A list with its elements so far, the last one first. -/
  | elements (done : List Json)
  /-- An object with its members so far, and the key whose value is awaited. -/
  | members (done : List (String × Json)) (key : String)

/-- What may come next. -/
inductive Awaiting where
  /-- A value; the end of the list too when `orEnd` is set. -/
  | value (orEnd : Bool)
  /-- A key; the end of the object too when `orEnd` is set. -/
  | key (orEnd : Bool)
  /-- The colon after a key. -/
  | colon
  /-- A comma or the end of the container. -/
  | next
  /-- Nothing: the value is complete. -/
  | nothing (result : Json)

/-- A state of the reader. -/
structure Reading where
  /-- What may come next. -/
  awaiting : Awaiting
  /-- The open containers, the innermost first. -/
  stack : List Frame

/-- Hand a complete value to the innermost open container. -/
def Reading.complete (value : Json) : List Frame → Reading
  | [] => ⟨.nothing value, []⟩
  | .elements done :: up => ⟨.next, .elements (value :: done) :: up⟩
  | .members done key :: up => ⟨.next, .members (insert key value done) key :: up⟩

/-- Open a container unless that would be too deep. -/
def Reading.enter (limit : Nat) (stack : List Frame) (frame : Frame) (awaiting : Awaiting) :
    Option Reading :=
  if stack.length < limit then some ⟨awaiting, frame :: stack⟩ else none

/-- Read one more token. -/
def Reading.step (limit : Nat) (state : Reading) (token : Token) : Option Reading :=
  match state.awaiting, token, state.stack with
  | .value _, .scalar value, stack => some (complete value stack)
  | .value _, .openArray, stack => enter limit stack (.elements []) (.value true)
  | .value _, .openObject, stack => enter limit stack (.members [] "") (.key true)
  | .value true, .closeArray, .elements done :: up => some (complete (.array done.reverse) up)
  | .key _, .scalar (.string key), .members done _ :: up => some ⟨.colon, .members done key :: up⟩
  | .key true, .closeObject, .members done _ :: up => some (complete (.object done) up)
  | .colon, .colon, stack => some ⟨.value false, stack⟩
  | .next, .comma, .elements done :: up => some ⟨.value false, .elements done :: up⟩
  | .next, .comma, .members done key :: up => some ⟨.key false, .members done key :: up⟩
  | .next, .closeArray, .elements done :: up => some (complete (.array done.reverse) up)
  | .next, .closeObject, .members done _ :: up => some (complete (.object done) up)
  | _, _, _ => none

/-- The value that a list of tokens spells. -/
def ofTokens? (limit : Nat) (tokens : List Token) : Option Json :=
  (tokens.foldlM (Reading.step limit) ⟨.value false, []⟩).bind fun state =>
    match state.awaiting with
    | .nothing result => some result
    | _ => none

/-- Read a text whose containers are nested at most `limit` deep. -/
def read? (limit : Nat) (text : String) : Option Json :=
  (tokens? text.toList).bind (ofTokens? limit)

end TypedClient.Json
