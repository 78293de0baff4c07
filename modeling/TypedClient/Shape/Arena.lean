import TypedClient.Error
import TypedClient.Shape.Distinct

/-!
# Named shapes

An arena gives shapes to names, in the order in which the names were defined. A
name keeps its first shape. References may form chains; a chain that ends in a
shape resolves to it, and one that dangles or runs in a circle to nothing.
-/

namespace TypedClient

/-- Shapes by name, in the order of definition. -/
structure Arena where
  /-- The names with their shapes; no name comes twice. -/
  entries : List (String × Shape)

namespace Arena

/-- The arena without names. -/
def empty : Arena := ⟨[]⟩

/-- The shape of a name in a list of entries. -/
def lookup (name : String) : List (String × Shape) → Option Shape
  | [] => none
  | (other, shape) :: rest => if other = name then some shape else lookup name rest

/-- The shape of a name. -/
def find? (arena : Arena) (name : String) : Option Shape := lookup name arena.entries

/-- Whether a name is defined. -/
def contains (arena : Arena) (name : String) : Bool := (arena.find? name).isSome

/-- The number of names. -/
def size (arena : Arena) : Nat := arena.entries.length

/-- The names in order. -/
def names (arena : Arena) : List String := arena.entries.map Prod.fst

/-- Define a name. When it has a shape already it keeps it, and a warning tells
when that is a different one. -/
def define (arena : Arena) (name : String) (shape : Shape) : Arena × List Warning :=
  match arena.find? name with
  | some existing => (arena, if existing == shape then [] else [.alreadyDeclared name])
  | none => (⟨arena.entries ++ [(name, shape)]⟩, [])

/-- Change every shape in its place. -/
def map (f : Shape → Shape) (arena : Arena) : Arena :=
  ⟨arena.entries.map fun (name, shape) => (name, f shape)⟩

/-- The arena without one of its names. -/
def erase (arena : Arena) (name : String) : Arena :=
  ⟨arena.entries.filter fun entry => entry.1 ≠ name⟩

/-- Follow references from a name for at most `steps` names. -/
def resolveWithin (arena : Arena) : Nat → String → Option Shape
  | 0, _ => none
  | steps + 1, name =>
    match arena.find? name with
    | none => none
    | some (.reference next) => arena.resolveWithin steps next
    | some target => some target

/-- The first shape that is not a reference on the chain that starts at a name.
A chain longer than the arena passes some name twice and never ends. -/
def resolve? (arena : Arena) (name : String) : Option Shape :=
  arena.resolveWithin (arena.size + 1) name

/-- A name that is found is one of the entries. -/
theorem mem_of_lookup_eq_some {name : String} {shape : Shape} {entries : List (String × Shape)}
    (h : lookup name entries = some shape) : (name, shape) ∈ entries := by
  induction entries with
  | nil => simp [lookup] at h
  | cons entry rest ih =>
    obtain ⟨other, s⟩ := entry
    by_cases ho : other = name <;> simp_all [lookup]

/-- Erasing a defined name makes the arena smaller. -/
theorem size_erase_lt {arena : Arena} {name : String} {shape : Shape}
    (h : arena.find? name = some shape) : (arena.erase name).size < arena.size := by
  have hm := mem_of_lookup_eq_some h
  simp only [size, erase]
  exact List.length_filter_lt_length_iff_exists.2 ⟨_, hm, by simp⟩

end Arena

namespace Shape

/-- Whether a shape says nothing, so that it can be left out: anything, no value,
null, undefined, the object without fields, and a reference that leads to one of
these, to nothing or back to itself. A name that has been followed is erased, so
coming back to it finds nothing. -/
def isTrivial (s : Shape) (arena : Arena) : Bool :=
  match s with
  | .any | .void => true
  | .literal l => l.isNullish
  | .object fields => fields.isEmpty
  | .reference name =>
    match _h : arena.find? name with
    | none => true
    | some target => target.isTrivial (arena.erase name)
  | .array _ | .joined _ _ | .tuple _ | .enumeration _ => false
termination_by arena.size
decreasing_by exact Arena.size_erase_lt _h

end Shape

end TypedClient
