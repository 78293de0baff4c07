import TypedClient.Shape.Distinct

/-!
# Syntax of generated modules

The part of TypeScript that a generated module is written in: types, top-level
declarations, constants, and the expressions that function bodies need.
-/

namespace TypedClient.TypeScript

/-- A type. -/
inductive TypeNode where
  /-- A keyword such as `any`. -/
  | keyword (keyword : Keyword)
  /-- A literal type such as `"text"`, `42` or `true`. -/
  | literal (value : Json)
  /-- An array type. -/
  | array (element : TypeNode)
  /-- An object type; a member's `default` is not used. -/
  | object (members : List (Field TypeNode))
  /-- A union. -/
  | union (members : List TypeNode)
  /-- An intersection. -/
  | intersection (members : List TypeNode)
  /-- A tuple. -/
  | tuple (members : List TypeNode)
  /-- A named type with type arguments. -/
  | reference (name : String) (arguments : List TypeNode)
  deriving Inhabited

namespace TypeNode

/-- The keyword `any`. -/
def any : TypeNode := .keyword .any

/-- A named type without arguments. -/
def named (name : String) : TypeNode := .reference name []

/-- Whether the type is the keyword `any`. -/
def isAny : TypeNode → Bool
  | .keyword .any => true
  | _ => false

end TypeNode

/-- An expression. -/
inductive Expression where
  /-- A name. -/
  | identifier (name : String)
  /-- A literal value. -/
  | literal (value : Json)
  /-- A call. -/
  | call (callee : String) (arguments : List Expression)
  /-- An object. -/
  | object (entries : List (String × Expression))
  deriving Inhabited

/-- A parameter of a function. -/
structure Parameter where
  /-- The name. -/
  name : String
  /-- Whether the caller may leave it out. -/
  optional : Bool
  /-- The type. -/
  type : TypeNode

/-- A function whose body returns one expression. -/
structure Function where
  /-- The name. -/
  name : String
  /-- The parameters in order. -/
  parameters : List Parameter
  /-- The declared type of what is returned. -/
  returnType : TypeNode
  /-- The returned expression. -/
  returns : Expression
  /-- Documentation. -/
  doc : Option String

/-- A top-level declaration. -/
inductive Declaration where
  /-- An interface. -/
  | interface (name : String) (members : List (Field TypeNode))
  /-- A type alias. -/
  | alias (name : String) (type : TypeNode)
  /-- An enumeration. -/
  | enumeration (enumeration : Enumeration)
  /-- A function. -/
  | function (function : Function)

/-- The name that a declaration binds. -/
def Declaration.name : Declaration → String
  | .interface name _ => name
  | .alias name _ => name
  | .enumeration e => e.name
  | .function f => f.name

/-- A constant at the top of a module. -/
structure Constant where
  /-- The name. -/
  name : String
  /-- The value. -/
  value : Json

/-- The elements whose name is not among `seen` and was not met before. -/
def firstByNameFrom {α : Type} (name : α → String) (seen : List String) : List α → List α
  | [] => []
  | a :: rest =>
    if name a ∈ seen then firstByNameFrom name seen rest
    else a :: firstByNameFrom name (name a :: seen) rest

/-- The first element of every name, in order. -/
def firstByName {α : Type} (name : α → String) (elements : List α) : List α :=
  firstByNameFrom name [] elements

/-- No name is left twice, and none of the names seen before. -/
theorem nodup_firstByNameFrom {α : Type} (name : α → String) (seen : List String)
    (elements : List α) :
    ((firstByNameFrom name seen elements).map name).Nodup ∧
      ∀ a ∈ firstByNameFrom name seen elements, name a ∉ seen := by
  induction elements generalizing seen with
  | nil => simp [firstByNameFrom]
  | cons a rest ih =>
    unfold firstByNameFrom
    split
    · exact ih seen
    · rename_i ha
      obtain ⟨hn, hs⟩ := ih (name a :: seen)
      refine ⟨?_, ?_⟩
      · simp only [List.map_cons, List.nodup_cons, List.mem_map, not_exists, not_and]
        exact ⟨fun b hb he => hs b hb (he ▸ List.mem_cons_self), hn⟩
      · intro b hb
        rcases List.mem_cons.1 hb with rfl | hb
        · exact ha
        · exact fun hm => hs b hb (List.mem_cons_of_mem _ hm)

end TypedClient.TypeScript
