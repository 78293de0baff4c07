import TypedClient.Proofs.Document.References
import TypedClient.Proofs.Reduction.Literals
import TypedClient.Schema.OfJson

/-!
# Parts of a schema

A schema is a tree. What is read from a value of a document refers to references of
that value only, its scalars are literals, and what a dictionary is known to be
besides is never a reference. An enumeration that lists its values hides the schema
that stands in for them, so the references in that schema count only when it does not.
-/

namespace TypedClient.Schema

/-- Induction over the tree of a schema, with the claim at hand for every part. -/
@[elab_as_elim]
theorem tree_induction {motive : Schema → Prop} (anything : motive .anything)
    (scalar : ∀ s, motive (.scalar s)) (reference : ∀ r, motive (.reference r))
    (allOf : ∀ parts, (∀ p ∈ parts, motive p) → motive (.allOf parts))
    (oneOf : ∀ overlapping branches, (∀ b ∈ branches, motive b) →
      motive (.oneOf overlapping branches))
    (dictionary : ∀ extra base, motive extra → motive base → motive (.dictionary extra base))
    (enumeration : ∀ values base, motive base → motive (.enumeration values base))
    (kinds : ∀ nullable kinds, (∀ k ∈ kinds, motive k) → motive (.kinds nullable kinds))
    (array : ∀ element, motive element → motive (.array element))
    (tuple : ∀ positions, (∀ p ∈ positions, motive p) → motive (.tuple positions))
    (object : ∀ properties, (∀ f ∈ properties, motive f.value) → motive (.object properties))
    (malformedObject : motive .malformedObject) (schema : Schema) : motive schema :=
  @Schema.rec motive (fun schemas => ∀ s ∈ schemas, motive s)
    (fun fields => ∀ f ∈ fields, motive f.value) (fun field => motive field.value)
    anything scalar reference allOf oneOf dictionary enumeration kinds array tuple object
    malformedObject
    (by simp) (fun _ _ head tail => List.forall_mem_cons.2 ⟨head, tail⟩)
    (by simp) (fun _ _ head tail => List.forall_mem_cons.2 ⟨head, tail⟩)
    (fun _ _ _ _ _ _ value => value) schema

/-- A schema refers to what a reference points at. The flag tells of listed values
whether they hide the schema that stands in for them. -/
inductive RefersTo (hides : List Json → Bool) (r : String) : Schema → Prop where
  /-- The schema is the reference. -/
  | here : RefersTo hides r (.reference r)
  /-- One of the schemas that all hold refers to it. -/
  | part {parts : List Schema} {p : Schema} (hp : p ∈ parts) (h : RefersTo hides r p) :
    RefersTo hides r (.allOf parts)
  /-- One of the alternatives refers to it. -/
  | branch {overlapping : Bool} {branches : List Schema} {b : Schema} (hb : b ∈ branches)
    (h : RefersTo hides r b) : RefersTo hides r (.oneOf overlapping branches)
  /-- The schema of further members refers to it. -/
  | extra {extra base : Schema} (h : RefersTo hides r extra) :
    RefersTo hides r (.dictionary extra base)
  /-- The schema of an object with further members refers to it. -/
  | known {extra base : Schema} (h : RefersTo hides r base) :
    RefersTo hides r (.dictionary extra base)
  /-- The schema that stands in for listed values refers to it. -/
  | base {values : List Json} {base : Schema} (hv : hides values = false)
    (h : RefersTo hides r base) : RefersTo hides r (.enumeration values base)
  /-- One of the kinds refers to it. -/
  | kind {nullable : Bool} {kinds : List Schema} {k : Schema} (hk : k ∈ kinds)
    (h : RefersTo hides r k) : RefersTo hides r (.kinds nullable kinds)
  /-- The schema of elements refers to it. -/
  | element {element : Schema} (h : RefersTo hides r element) : RefersTo hides r (.array element)
  /-- The schema of a position refers to it. -/
  | position {positions : List Schema} {p : Schema} (hp : p ∈ positions)
    (h : RefersTo hides r p) : RefersTo hides r (.tuple positions)
  /-- The schema of a property refers to it. -/
  | property {properties : List (Field Schema)} {f : Field Schema} (hf : f ∈ properties)
    (h : RefersTo hides r f.value) : RefersTo hides r (.object properties)

/-- Whether a schema is no reference, and neither is what stands in for it. -/
def IsOwn : Schema → Prop
  | .reference _ => False
  | .enumeration _ base => base.IsOwn
  | _ => True

/-- A schema whose references are among the allowed ones, as it is read from a value. -/
inductive IsReadWith (allowed : String → Prop) : Schema → Prop where
  /-- The schema that demands nothing. -/
  | anything : IsReadWith allowed .anything
  /-- A kind is the literal that it is written as. -/
  | scalar (l : Literal) (hl : Shape.IsStandard (.literal l)) :
    IsReadWith allowed (.scalar (.literal l))
  /-- A reference is allowed. -/
  | reference {r : String} (hr : allowed r) : IsReadWith allowed (.reference r)
  /-- Schemas that all hold. -/
  | allOf {parts : List Schema} (h : ∀ p ∈ parts, IsReadWith allowed p) :
    IsReadWith allowed (.allOf parts)
  /-- Alternatives. -/
  | oneOf {overlapping : Bool} {branches : List Schema} (h : ∀ b ∈ branches, IsReadWith allowed b) :
    IsReadWith allowed (.oneOf overlapping branches)
  /-- What a dictionary is known to be besides is no reference. -/
  | dictionary {extra base : Schema} (hextra : IsReadWith allowed extra)
    (hbase : IsReadWith allowed base) (hown : base.IsOwn) :
    IsReadWith allowed (.dictionary extra base)
  /-- Listed values. -/
  | enumeration (values : List Json) {base : Schema} (hbase : IsReadWith allowed base) :
    IsReadWith allowed (.enumeration values base)
  /-- Several kinds. -/
  | kinds {nullable : Bool} {kinds : List Schema} (h : ∀ k ∈ kinds, IsReadWith allowed k) :
    IsReadWith allowed (.kinds nullable kinds)
  /-- A list. -/
  | array {element : Schema} (h : IsReadWith allowed element) : IsReadWith allowed (.array element)
  /-- A list with positions. -/
  | tuple {positions : List Schema} (h : ∀ p ∈ positions, IsReadWith allowed p) :
    IsReadWith allowed (.tuple positions)
  /-- An object, whose properties have names. -/
  | object {properties : List (Field Schema)} (h : ∀ f ∈ properties, IsReadWith allowed f.value)
    (hnamed : ∀ f ∈ properties, f.key ≠ .wildcard) : IsReadWith allowed (.object properties)
  /-- An object whose properties cannot be read. -/
  | malformedObject : IsReadWith allowed .malformedObject

/-- A schema refers to nothing but what is allowed. -/
theorem RefersTo.isAllowed {hides : List Json → Bool} {allowed : String → Prop} {r : String}
    {schema : Schema} (h : RefersTo hides r schema) (hread : IsReadWith allowed schema) :
    allowed r := by
  induction h with
  | here => cases hread with | reference hr => exact hr
  | part hp _ ih => cases hread with | allOf h => exact ih (h _ hp)
  | branch hb _ ih => cases hread with | oneOf h => exact ih (h _ hb)
  | extra _ ih => cases hread with | dictionary hextra => exact ih hextra
  | known _ ih => cases hread with | dictionary _ hbase => exact ih hbase
  | base _ _ ih => cases hread with | enumeration _ hbase => exact ih hbase
  | kind hk _ ih => cases hread with | kinds h => exact ih (h _ hk)
  | element _ ih => cases hread with | array h => exact ih h
  | position hp _ ih => cases hread with | tuple h => exact ih (h _ hp)
  | property hf _ ih => cases hread with | object h => exact ih (h _ hf)

/-- More may be allowed. -/
theorem IsReadWith.mono {allowed allowed' : String → Prop} {schema : Schema}
    (h : IsReadWith allowed schema) (hr : ∀ r, allowed r → allowed' r) :
    IsReadWith allowed' schema := by
  induction h with
  | anything => exact .anything
  | scalar l hl => exact .scalar l hl
  | reference h => exact .reference (hr _ h)
  | allOf _ ih => exact .allOf ih
  | oneOf _ ih => exact .oneOf ih
  | dictionary _ _ hown ihextra ihbase => exact .dictionary ihextra ihbase hown
  | enumeration values _ ih => exact .enumeration values ih
  | kinds _ ih => exact .kinds ih
  | array _ ih => exact .array ih
  | tuple _ ih => exact .tuple ih
  | object _ hnamed ih => exact .object ih hnamed
  | malformedObject => exact .malformedObject

/-! ### What is read from a node -/

/-- A value that a keyword of a node holds, or lists, or that a property names. -/
inductive IsBelow (value : Json) (node : List (String × Json)) : Prop where
  /-- The value of a keyword. -/
  | held {key : String} (h : Json.find? key node = some value)
  /-- A value in the list of a keyword. -/
  | listed {key : String} {values : List Json} (h : Json.find? key node = some (.array values))
    (hv : value ∈ values)
  /-- The value of a property. -/
  | named {name : String} {members : List (String × Json)}
    (h : Json.find? "properties" node = some (.object members)) (hv : (name, value) ∈ members)

/-- What is below a node is smaller. -/
theorem IsBelow.sizeOf_lt {value : Json} {node : List (String × Json)} (h : IsBelow value node) :
    sizeOf value < sizeOf node := by
  cases h with
  | held h => exact Json.sizeOf_find?_lt h
  | listed h hv =>
    have hlist := Json.sizeOf_find?_lt h
    have hvalue := List.sizeOf_lt_of_mem hv
    simp only [Json.array.sizeOf_spec] at hlist
    omega
  | named h hv =>
    have hlist := Json.sizeOf_find?_lt h
    have hvalue := sizeOf_lt_of_mem hv
    simp only [Json.object.sizeOf_spec] at hlist
    simp only at hvalue
    omega

/-- The references in what is below a node are references of the node. -/
theorem IsBelow.references_subset {value : Json} {node : List (String × Json)}
    (h : IsBelow value node) :
    Document.references value ⊆ Document.references (.object node) := by
  intro r hr
  cases h with
  | held h => exact Document.mem_references_member (Json.mem_of_find?_eq_some h) hr
  | listed h hv =>
    have hlist := Document.mem_references_array hv hr
    exact Document.mem_references_member (Json.mem_of_find?_eq_some h) hlist
  | named h hv =>
    have hlist := Document.mem_references_member hv hr
    exact Document.mem_references_member (Json.mem_of_find?_eq_some h) hlist

/-- What a keyword lists is below the node. -/
theorem isBelow_of_listed? {value : Json} {node : List (String × Json)} {keyword : String}
    {values : List Json} (h : listed? node keyword = some values) (hv : value ∈ values) :
    IsBelow value node := by
  obtain ⟨found, hfound, harray⟩ := Option.bind_eq_some_iff.1 h
  cases found with
  | array elements =>
    cases harray
    exact .listed hfound hv
  | _ => cases harray

/-- Induction over what is below a node, which is smaller although it need not be one of the
parts of the value in the tree. -/
theorem below_induction {motive : Json → Prop}
    (other : ∀ value, (∀ node, value ≠ .object node) → motive value)
    (object : ∀ node, (∀ v, IsBelow v node → motive v) → motive (.object node)) (value : Json) :
    motive value := by
  induction hn : sizeOf value using Nat.strongRecOn generalizing value with
  | ind n ih =>
    cases value with
    | object node =>
      refine object node fun v hv => ?_
      have hsmaller := hv.sizeOf_lt
      have hless : sizeOf v < n := by
        rw [← hn, Json.object.sizeOf_spec]
        omega
      exact ih _ hless v rfl
    | _ => exact other _ nofun

/-- A property of the object that is read from a node: its name and what is said of it come
from a member of `properties`. -/
inductive IsPropertyOf (node : List (String × Json)) : Field Schema → Prop where
  /-- It is read from a member. -/
  | read {members : List (String × Json)} {name : String} {value : Json} {optional readonly : Bool}
    (h : Json.find? "properties" node = some (.object members)) (hm : (name, value) ∈ members) :
    IsPropertyOf node
      { key := .named name, value := ofJson value, optional := optional, doc := description? value,
        default := value.get? "default", readonly := readonly }

/-- A property of schemas that reading a node keeps, whichever of its keywords count. -/
structure HoldsOfNode (node : List (String × Json)) (M : Schema → Prop) : Prop where
  /-- It holds of the schema that demands nothing. -/
  anything : M .anything
  /-- It holds of a kind, which is a general literal. -/
  scalar : ∀ l, Shape.IsStandard (.literal l) → l.constant = false → M (.scalar (.literal l))
  /-- It holds of schemas that all hold. -/
  allOf : ∀ parts, (∀ p ∈ parts, M p) → M (.allOf parts)
  /-- It holds of alternatives. -/
  oneOf : ∀ overlapping branches, (∀ b ∈ branches, M b) → M (.oneOf overlapping branches)
  /-- It holds of dictionaries that are known to be no reference besides. -/
  dictionary : ∀ extra base, M extra → M base → base.IsOwn → M (.dictionary extra base)
  /-- It holds of the values that the node lists. -/
  enumeration : ∀ values base, listed? node "enum" = some values → M base →
    M (.enumeration values base)
  /-- It holds of several kinds. -/
  kinds : ∀ nullable kinds, (∀ k ∈ kinds, M k) → M (.kinds nullable kinds)
  /-- It holds of lists. -/
  array : ∀ element, M element → M (.array element)
  /-- It holds of lists with positions. -/
  tuple : ∀ positions, (∀ p ∈ positions, M p) → M (.tuple positions)
  /-- It holds of the object with the properties of the node. -/
  object : ∀ properties, (∀ f ∈ properties, IsPropertyOf node f) →
    (∀ f ∈ properties, M f.value) → M (.object properties)
  /-- It holds of objects whose properties cannot be read. -/
  malformedObject : M .malformedObject

namespace HoldsOfNode

variable {node : List (String × Json)} {M : Schema → Prop}

/-- The object of a node, from what is below. -/
theorem ofProperties (hM : HoldsOfNode node M) (h : ∀ v, IsBelow v node → M (ofJson v)) :
    M (Schema.ofProperties node) := by
  rw [Schema.ofProperties]
  split
  · exact hM.object [] (by simp) (by simp)
  · rename_i properties hfind
    refine hM.object _ (fun f hf => ?_) fun f hf => ?_
    · obtain ⟨⟨⟨name, property⟩, hm⟩, -, rfl⟩ := List.mem_map.1 hf
      exact .read hfind hm
    · obtain ⟨⟨⟨name, property⟩, hm⟩, -, rfl⟩ := List.mem_map.1 hf
      exact h property (.named hfind hm)
  · exact hM.malformedObject

/-- The list of a node. -/
theorem ofItems (hM : HoldsOfNode node M) (h : ∀ v, IsBelow v node → M (ofJson v)) :
    M (Schema.ofItems node) := by
  rw [Schema.ofItems]
  split
  · exact hM.array _ hM.anything
  · rename_i positions hfind
    refine hM.tuple _ fun p hp => ?_
    obtain ⟨⟨position, hm⟩, -, rfl⟩ := List.mem_map.1 hp
    exact h position (.listed hfind hm)
  · rename_i items _ hfind
    exact hM.array _ (h items (.held hfind))

/-- A node without a kind. -/
theorem ofUntyped (hM : HoldsOfNode node M) (h : ∀ v, IsBelow v node → M (ofJson v)) :
    M (Schema.ofUntyped node) ∧ (Schema.ofUntyped node).IsOwn := by
  rw [Schema.ofUntyped]
  split
  · refine ⟨hM.ofProperties h, ?_⟩
    rw [Schema.ofProperties]
    split <;> exact trivial
  · exact ⟨hM.anything, trivial⟩

/-- A node of a named kind. -/
theorem ofKind (hM : HoldsOfNode node M) (h : ∀ v, IsBelow v node → M (ofJson v))
    (name : String) : M (Schema.ofKind name node) ∧ (Schema.ofKind name node).IsOwn := by
  unfold Schema.ofKind
  split
  · exact ⟨hM.scalar _ ⟨rfl, fun _ => rfl⟩ rfl, trivial⟩
  · exact ⟨hM.scalar _ ⟨rfl, fun _ => rfl⟩ rfl, trivial⟩
  · exact ⟨hM.scalar _ ⟨rfl, fun _ => rfl⟩ rfl, trivial⟩
  · exact ⟨hM.scalar _ ⟨rfl, fun _ => rfl⟩ rfl, trivial⟩
  · exact ⟨hM.scalar _ ⟨rfl, fun _ => rfl⟩ rfl, trivial⟩
  · exact ⟨hM.anything, trivial⟩
  · refine ⟨hM.ofItems h, ?_⟩
    rw [Schema.ofItems]
    split <;> exact trivial
  · refine ⟨hM.ofProperties h, ?_⟩
    rw [Schema.ofProperties]
    split <;> exact trivial
  · exact hM.ofUntyped h

/-- A node by its kind or kinds. -/
theorem ofTyped (hM : HoldsOfNode node M) (h : ∀ v, IsBelow v node → M (ofJson v)) :
    M (Schema.ofTyped node) ∧ (Schema.ofTyped node).IsOwn := by
  rw [Schema.ofTyped]
  split
  · exact hM.ofKind h _
  · refine ⟨hM.kinds _ _ fun k hk => ?_, trivial⟩
    obtain ⟨name, -, rfl⟩ := List.mem_map.1 hk
    exact (hM.ofKind h name).1
  · exact hM.ofUntyped h

/-- A node by what it lists, or by its kind. -/
theorem ofPlain (hM : HoldsOfNode node M) (h : ∀ v, IsBelow v node → M (ofJson v)) :
    M (Schema.ofPlain node) ∧ (Schema.ofPlain node).IsOwn := by
  obtain ⟨hread, hown⟩ := hM.ofTyped h
  rw [Schema.ofPlain]
  split
  · rename_i values hl
    exact ⟨hM.enumeration values _ hl hread, hown⟩
  · exact ⟨hread, hown⟩

/-- A node by its alternatives and its further members. -/
theorem ofBranches (hM : HoldsOfNode node M) (h : ∀ v, IsBelow v node → M (ofJson v)) :
    M (Schema.ofBranches node) := by
  obtain ⟨hread, hown⟩ := hM.ofPlain h
  have hlisted : ∀ {keyword values}, (hl : listed? node keyword = some values) →
      ∀ s ∈ values.attach.map (fun v => ofJson v.1), M s := by
    intro keyword values hl s hs
    obtain ⟨⟨v, hv⟩, -, rfl⟩ := List.mem_map.1 hs
    exact h v (isBelow_of_listed? hl hv)
  rw [Schema.ofBranches]
  split
  · rename_i hl
    exact hM.oneOf _ _ (hlisted hl)
  · split
    · rename_i hl
      exact hM.oneOf _ _ (hlisted hl)
    · split
      · exact hread
      · exact hread
      · exact hM.dictionary _ _ hM.anything hread hown
      · rename_i extra _ _ hfind
        exact hM.dictionary _ _ (h extra (.held hfind)) hread hown

/-- A node by its reference, when it stands for one, and by what is below it otherwise. -/
theorem ofObject (hM : HoldsOfNode node M)
    (hreference : ∀ r, Document.reference? node = some r → M (.reference r))
    (hbelow : Document.reference? node = none → ∀ v, IsBelow v node → M (ofJson v)) :
    M (ofJson (.object node)) := by
  rw [ofJson]
  split
  · rename_i spelling hr
    exact hreference spelling hr
  · rename_i hnone
    have hbelow := hbelow hnone
    split
    · rename_i parts hl
      refine hM.allOf _ fun p hp => ?_
      rcases List.mem_append.1 hp with hp | hp
      · obtain ⟨⟨part, hm⟩, -, rfl⟩ := List.mem_map.1 hp
        exact hbelow part (isBelow_of_listed? hl hm)
      · split at hp
        · rw [List.mem_singleton.1 hp]
          exact hM.ofBranches hbelow
        · cases hp
    · exact hM.ofBranches hbelow

end HoldsOfNode

/-- A value that is no object demands nothing. -/
theorem ofJson_of_ne_object {value : Json} (h : ∀ node, value ≠ .object node) :
    ofJson value = .anything := by
  cases value with
  | object node => exact absurd rfl (h node)
  | _ => simp [ofJson]

/-- Reading a node keeps its references among the allowed ones. -/
theorem holdsOfNode_isReadWith (node : List (String × Json)) (allowed : String → Prop) :
    HoldsOfNode node (IsReadWith allowed) where
  anything := .anything
  scalar l hl _ := .scalar l hl
  allOf _ h := .allOf h
  oneOf _ _ h := .oneOf h
  dictionary _ _ hextra hbase hown := .dictionary hextra hbase hown
  enumeration values _ _ hbase := .enumeration values hbase
  kinds _ _ h := .kinds h
  array _ h := .array h
  tuple _ h := .tuple h
  object properties hproperties h := by
    refine .object h fun f hf => ?_
    obtain ⟨_, _⟩ := hproperties f hf
    simp
  malformedObject := .malformedObject

/-- A node by its reference, when it stands for one, and by what is below it otherwise. -/
theorem isReadWith_ofObject {allowed : String → Prop} {node : List (String × Json)}
    (hreference : ∀ r, Document.reference? node = some r → allowed r)
    (hbelow : Document.reference? node = none →
      ∀ v, IsBelow v node → IsReadWith allowed (ofJson v)) :
    IsReadWith allowed (ofJson (.object node)) :=
  (holdsOfNode_isReadWith node allowed).ofObject (fun r hr => .reference (hreference r hr)) hbelow

/-- What is read from a value refers to references of the value only. -/
theorem isReadWith_ofJson (value : Json) :
    IsReadWith (fun r => r ∈ Document.references value) (ofJson value) := by
  induction value using below_induction with
  | other value h =>
    rw [ofJson_of_ne_object h]
    exact .anything
  | object node ih =>
    refine isReadWith_ofObject (fun r hr => Document.mem_references_of_reference? hr)
      fun _ v hv => ?_
    exact (ih v hv).mono fun r hr => hv.references_subset hr

end TypedClient.Schema
