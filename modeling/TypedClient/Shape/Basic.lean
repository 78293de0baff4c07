import TypedClient.Json.Basic

/-!
# Shapes

A shape describes the values that a place in an API can hold: texts, numbers,
lists, objects with named fields, alternatives and combinations of those, and
references to shapes that have a name. A reference is only a name, so a shape
that contains itself is finite data.
-/

namespace TypedClient

/-- The key of a field: a name, or every name that no other field has. -/
inductive Key where
  /-- A named field. -/
  | named (name : String)
  /-- The index signature of a dictionary. -/
  | wildcard
  deriving DecidableEq, Repr, Inhabited

/-- A field of an object, over the kind of thing `σ` that describes its value. -/
structure Field (σ : Type) where
  /-- Which names the field stands for. -/
  key : Key
  /-- What the value looks like. -/
  value : σ
  /-- Whether the field may be absent. -/
  optional : Bool := false
  /-- Documentation. -/
  doc : Option String := none
  /-- The value that an absent field stands for. -/
  default : Option Json := none
  /-- Whether the field is not to be written to. -/
  readonly : Bool := false
  deriving Inhabited

/-- A value that stands for itself alone or for all values of its kind. -/
structure Literal where
  /-- The value; none is the undefined value. -/
  value : Option Json
  /-- Whether the literal stands for itself alone. -/
  constant : Bool

/-- A named constant of an enumeration. -/
structure EnumMember where
  /-- The name, an identifier. -/
  name : String
  /-- The value, a text or a number. -/
  value : Json

/-- An enumeration with a name of its own. -/
structure Enumeration where
  /-- The name, an identifier. -/
  name : String
  /-- The constants in order. -/
  members : List EnumMember

/-- How members are joined: one of them has to fit, or all of them have to. -/
inductive Connective where
  /-- A union. -/
  | or
  /-- An intersection. -/
  | and
  deriving DecidableEq, Repr

/-- What a value can look like. -/
inductive Shape where
  /-- Anything at all. -/
  | any
  /-- No value. -/
  | void
  /-- One value or the values of one kind. -/
  | literal (literal : Literal)
  /-- A list whose elements have one shape. -/
  | array (element : Shape)
  /-- An object. -/
  | object (fields : List (Field Shape))
  /-- A union or an intersection. -/
  | joined (connective : Connective) (members : List Shape)
  /-- A list with a shape for each position. -/
  | tuple (members : List Shape)
  /-- One of the constants of an enumeration. -/
  | enumeration (enumeration : Enumeration)
  /-- The shape with the given name. -/
  | reference (name : String)
  deriving Inhabited

namespace Literal

/-- Whether the literal is null or undefined. -/
def isNullish (l : Literal) : Bool :=
  match l.value with
  | none => true
  | some value => value.isNull

/-- Whether the literal is a list or an object. -/
def isComposite (l : Literal) : Bool :=
  match l.value with
  | none => false
  | some value => value.isComposite

end Literal

namespace Field

/-- A field with a name and nothing else said about it. -/
def named {σ : Type} (name : String) (value : σ) : Field σ := { key := .named name, value := value }

/-- Put a field in the place of the one with the same key, or at the end. -/
def insert {σ : Type} (field : Field σ) : List (Field σ) → List (Field σ)
  | [] => [field]
  | other :: rest => if other.key = field.key then field :: rest else other :: insert field rest

/-- The first field of the given name. -/
def find? {σ : Type} (name : String) (fields : List (Field σ)) : Option (Field σ) :=
  fields.find? (fun field => field.key = .named name)

/-- The keys of a list of fields. -/
def keys {σ : Type} (fields : List (Field σ)) : List Key := fields.map Field.key

/-- Inserting keeps the keys pairwise different. -/
theorem nodup_keys_insert {σ : Type} (field : Field σ) (fields : List (Field σ))
    (h : (keys fields).Nodup) : (keys (insert field fields)).Nodup := by
  have mem_insert : ∀ (fs : List (Field σ)) (k : Key),
      k ∈ keys (insert field fs) → k = field.key ∨ k ∈ keys fs := by
    intro fs k
    induction fs with
    | nil => simp [insert, keys]
    | cons g rest ih =>
      by_cases hg : g.key = field.key
      · simp only [insert, if_pos hg, keys, List.map_cons, List.mem_cons]
        intro hk
        exact hk.imp_right Or.inr
      · simp only [insert, if_neg hg, keys, List.map_cons, List.mem_cons] at ih ⊢
        rintro (hk | hk)
        · exact Or.inr (Or.inl hk)
        · exact (ih hk).imp_right Or.inr
  induction fields with
  | nil => simp [insert, keys]
  | cons g rest ih =>
    simp only [keys, List.map_cons, List.nodup_cons] at h
    by_cases hg : g.key = field.key
    · simp only [insert, if_pos hg, keys, List.map_cons, List.nodup_cons]
      exact ⟨hg ▸ h.1, h.2⟩
    · simp only [insert, if_neg hg, keys, List.map_cons, List.nodup_cons]
      refine ⟨fun hm => ?_, ih h.2⟩
      rcases mem_insert rest g.key hm with he | he
      · exact hg he
      · exact h.1 he

end Field

namespace Shape

/-- All texts. -/
def string : Shape := .literal ⟨some (.string ""), false⟩

/-- All numbers. -/
def number : Shape := .literal ⟨some (.number (.integer 1)), false⟩

/-- Both truth values. -/
def boolean : Shape := .literal ⟨some (.bool true), false⟩

/-- The null value. -/
def null : Shape := .literal ⟨some .null, false⟩

/-- The undefined value. -/
def undefined : Shape := .literal ⟨none, false⟩

/-- Exactly one value. -/
def constant (value : Json) : Shape := .literal ⟨some value, true⟩

/-- The object whose fields are added one by one: of two fields with one key the
later takes the place of the earlier. -/
def ofFields (fields : List (Field Shape)) : Shape :=
  .object (fields.foldl (fun acc field => Field.insert field acc) [])

/-- Whether the shape is an object. -/
def isObject : Shape → Bool
  | .object _ => true
  | _ => false

/-- Whether the shape is joined by the given connective. -/
def isJoinedBy (connective : Connective) : Shape → Bool
  | .joined c _ => c = connective
  | _ => false

mutual

/-- How deeply lists, objects and tuples are nested in a shape. -/
def nesting : Shape → Nat
  | .array element => element.nesting + 1
  | .object fields => nestingFields fields + 1
  | .joined _ members => nestingAll members
  | .tuple members => nestingAll members + 1
  | _ => 0

/-- The greatest nesting among shapes. -/
def nestingAll : List Shape → Nat
  | [] => 0
  | member :: rest => max member.nesting (nestingAll rest)

/-- The greatest nesting among the values of fields. -/
def nestingFields : List (Field Shape) → Nat
  | [] => 0
  | field :: rest => max field.value.nesting (nestingFields rest)

end

end Shape

end TypedClient
