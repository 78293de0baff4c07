import TypedClient.Api.Basic
import TypedClient.Shape.Reduce
import TypedClient.TypeScript.Declarations

/-!
# Building a module

A module is built endpoint by endpoint. Every endpoint adds two constants, a
named type for each group of its parameters that says something, and a function;
then come the enumerations and the remaining names. The arena grows on the way,
because each group of parameters gets a name.
-/

namespace TypedClient.Module

open TypeScript

/-- How a module is to be generated. -/
structure Options where
  /-- Only ambient declarations, without implementations. -/
  declarationsOnly : Bool := false
  /-- The comment at the top. -/
  leadingComment : Option String := none
  /-- Whether shapes are reduced, keeping constants. -/
  reduceTypes : Bool := true
  /-- A merged object with more fields than this becomes a dictionary. -/
  dictionaryThreshold : Nat := 20

/-- The type that wraps a response; templates define it. -/
def wrapperName : String := "_Response"

/-- The helper that sends a request; templates define it. -/
def senderName : String := "_.request"

/-- A module that is being built. -/
structure Builder where
  /-- The named shapes. -/
  arena : Arena
  /-- How a shape is made ready to be declared. -/
  prepare : Shape → Shape
  /-- The constants so far. -/
  constants : List Constant
  /-- The declarations so far. -/
  declarations : List Declaration
  /-- The warnings so far. -/
  warnings : List Warning

/-- A step of building; what was built before a failure is kept. -/
abbrev Building (α : Type) := ExceptT Failure (StateM Builder) α

/-- How shapes are made ready to be declared. -/
def Options.prepare (options : Options) (s : Shape) : Shape :=
  if options.reduceTypes then
    s.reduce { precise := true, dictionaryThreshold := options.dictionaryThreshold }
  else s

/-- The module before its first endpoint. -/
def Builder.start (arena : Arena) (options : Options) : Builder :=
  ⟨arena.map options.prepare, options.prepare, [], [], []⟩

namespace Building

/-- A result that needs no building. -/
def ofExcept {α : Type} (result : Except Failure α) : Building α := fun b => (result, b)

/-- Add declarations. -/
def declare (declarations : List Declaration) : Building Unit :=
  modify fun b => { b with declarations := b.declarations ++ declarations }

/-- Add the declarations that a shape needs. -/
def declareFor (s : Shape) : Building Unit := do
  let b ← get
  declare (← ofExcept (declarations b.arena s))

/-- Whether a shape says nothing. -/
def isTrivial (s : Shape) : Building Bool := do
  let b ← get
  return s.isTrivial b.arena

/-- The type of a shape. -/
def typeOf (s : Shape) : Building TypeNode := do
  let b ← get
  ofExcept (TypeNode.ofShape b.arena s)

/-- Give a name to a shape. -/
def define (name : String) (s : Shape) : Building Unit :=
  modify fun b =>
    let (arena, warnings) := b.arena.define name s
    { b with arena := arena, warnings := b.warnings ++ warnings }

/-- A reference to a group of parameters. A group that is a reference stays as it
is, and one that is not known stands for anything. -/
def nameGroup (name : String) (group : Option Shape) : Building Shape := do
  match group with
  | some (.reference target) => return .reference target
  | some s =>
    let b ← get
    define name (b.prepare s)
    return .reference name
  | none =>
    define name .any
    return .reference name

end Building

open Building

/-- A group of parameters under the name it has in a request. -/
structure Group where
  /-- The name of the function's parameter. -/
  key : String
  /-- The reference to the shape of the group. -/
  shape : Shape

/-- The groups of an endpoint in the order in which they are declared: the name
in a request, the ending of the type's name, and the shape. -/
def groupsOf (e : Endpoint) : List (String × String × Option Shape) :=
  [("path", "path", e.path), ("body", "body", e.body), ("query", "query", e.query),
   ("headers", "header", e.headers)]

/-- Declare the groups that say something. -/
def declareGroups (name : String) : List (String × String × Option Shape) → Building (List Group)
  | [] => pure []
  | (key, ending, shape) :: rest => do
    let reference ← nameGroup (name ++ "_parameter_" ++ ending) shape
    declareFor reference
    let silent ← isTrivial reference
    let others ← declareGroups name rest
    return if silent then others else ⟨key, reference⟩ :: others

/-- The literal type of a status. -/
def statusType : Status → TypeNode
  | .code value => .literal (.number (.integer value.toNat))
  | .default => .literal (.string "default")

/-- The type of response headers, `any` when they say nothing. -/
def headerType (name : String) (r : Response) : Building TypeNode :=
  match r.header with
  | none => pure .any
  | some header => do
    let reference ← nameGroup (name ++ "_response_header_" ++ r.status.text) (some header)
    declareFor reference
    if ← isTrivial reference then return .any else typeOf reference

/-- The arguments of the response wrapper, without those at the end that are `any`. -/
def wrapperArguments (status data header : TypeNode) : List TypeNode :=
  if header.isAny then (if data.isAny then [status] else [status, data])
  else [status, data, header]

/-- The type of a response, unless its payload says nothing. -/
def responseType? (name : String) (r : Response) : Building (Option TypeNode) := do
  let b ← get
  let shape := b.prepare r.shape
  if ← isTrivial shape then return none
  declareFor shape
  let data ← typeOf shape
  let header ← headerType name r
  return some (.reference wrapperName (wrapperArguments (statusType r.status) data header))

/-- The types of all responses that say something. -/
def responseTypes (name : String) : List Response → Building (List TypeNode)
  | [] => pure []
  | r :: rest => do
    let first ← responseType? name r
    let others ← responseTypes name rest
    return first.toList ++ others

/-- What a function returns, given the types of the responses. -/
def returnedType : List TypeNode → TypeNode
  | [] => .any
  | [only] => only
  | types => .union types

/-- The group under a key. -/
def group? (groups : List Group) (key : String) : Option Group := groups.find? (·.key = key)

/-- The parameters of a function for the groups under the keys. Only a body can
be left out. -/
def parametersFor (groups : List Group) (bodyOptional : Bool) :
    List String → Building (List TypeScript.Parameter)
  | [] => pure []
  | key :: rest =>
    match group? groups key with
    | none => parametersFor groups bodyOptional rest
    | some group => do
      let type ← typeOf group.shape
      let others ← parametersFor groups bodyOptional rest
      return ⟨key, key == "body" && bodyOptional, type⟩ :: others

/-- The request that a function sends: its groups, and how the body is written. -/
def requestFor (groups : List Group) (encoding : Encoding) : Expression :=
  .object
    (((["query", "body", "path", "headers"].filter fun key => (group? groups key).isSome).map
        fun key => (key, Expression.identifier key)) ++
      [("bodyType", .literal (.string encoding.word))])

/-- Add a constant. -/
def addConstant (name value : String) : Building Unit :=
  modify fun b => { b with constants := b.constants ++ [⟨name, .string value⟩] }

/-- Add an endpoint. -/
def addEndpoint (e : Endpoint) : Building Unit := do
  let name := e.functionName
  let groups ← declareGroups name (groupsOf e)
  addConstant (name ++ "_url") e.url
  addConstant (name ++ "_method") e.method.word
  let types ← responseTypes name e.responses
  let parameters ← parametersFor groups e.bodyOptional ["path", "query", "headers", "body"]
  declare [.function
    { name := name, parameters := parameters,
      returnType := .reference "Promise" [returnedType types],
      returns := .call senderName
        [.identifier (name ++ "_url"), .identifier (name ++ "_method"),
         requestFor groups e.bodyEncoding],
      doc := e.doc.text? }]

/-- Add endpoints in order. -/
def addEndpoints : List Endpoint → Building Unit
  | [] => pure ()
  | e :: rest => do
    addEndpoint e
    addEndpoints rest

/-- Add the declarations of names. -/
def addNames : List String → Building Unit
  | [] => pure ()
  | name :: rest => do
    declareFor (.reference name)
    addNames rest

/-- Add everything that a service offers. -/
def addApi (api : Api) : Building Unit := do
  addEndpoints api.endpoints
  declare (api.enums.map .enumeration)
  addNames api.interfaces

/-- The module for a service, and the warnings met on the way. -/
def build (api : Api) (options : Options) : Except Failure Builder × List Warning :=
  match (addApi api).run.run (Builder.start api.types options) with
  | (.ok _, b) => (.ok b, b.warnings)
  | (.error e, b) => (.error e, b.warnings)

end TypedClient.Module
