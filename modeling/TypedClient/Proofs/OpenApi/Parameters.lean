import Mathlib.Data.List.Induction
import TypedClient.OpenApi.Endpoints
import TypedClient.Proofs.Shape.Parts

/-!
# Groups of parameters

A name is described by at most one parameter for each location: the last one of the operation
with this name and location, and the last one of the path where the operation has none. The
group for a location has one field for each name that is described there, and the field says
what that parameter says. Parameters replace each other twice, when those of the path and of
the operation are merged and when fields with one key are put in each other's place, and what
goes to other locations takes no part in either.
-/

namespace TypedClient

/-! ### Objects made of fields -/

/-- After inserting a field its key is there, and every key that was. -/
theorem Field.mem_keys_insert {σ : Type} {field : Field σ} {fields : List (Field σ)} {key : Key} :
    key ∈ Field.keys (Field.insert field fields) ↔ key = field.key ∨ key ∈ Field.keys fields := by
  induction fields with
  | nil => simp [Field.insert, Field.keys]
  | cons g rest ih =>
    unfold Field.insert
    split
    · rename_i hkey
      simp [Field.keys, hkey]
    · rw [Field.keys, List.map_cons, List.mem_cons, ← Field.keys, ih, Field.keys, Field.keys,
        List.map_cons, List.mem_cons, or_left_comm]

/-- After inserting a field there are that field and the fields with other keys. -/
theorem Field.mem_insert_iff {σ : Type} {field f : Field σ} {fields : List (Field σ)}
    (h : (Field.keys fields).Nodup) :
    f ∈ Field.insert field fields ↔ f = field ∨ f ∈ fields ∧ f.key ≠ field.key := by
  induction fields with
  | nil => simp [Field.insert]
  | cons g rest ih =>
    obtain ⟨hnew, hrest⟩ : g.key ∉ Field.keys rest ∧ (Field.keys rest).Nodup := List.nodup_cons.1 h
    unfold Field.insert
    split
    · rename_i hkey
      have hothers : ∀ other ∈ rest, other.key ≠ field.key := fun other ho he =>
        hnew (List.mem_map.2 ⟨other, ho, he.trans hkey.symm⟩)
      rw [List.mem_cons, List.mem_cons]
      refine or_congr_right ⟨fun hf => ⟨Or.inr hf, hothers f hf⟩, ?_⟩
      rintro ⟨rfl | hf, hne⟩
      · exact absurd hkey hne
      · exact hf
    · rename_i hkey
      rw [List.mem_cons, List.mem_cons, ih hrest]
      constructor
      · rintro (rfl | rfl | ⟨hf, hne⟩)
        · exact Or.inr ⟨Or.inl rfl, hkey⟩
        · exact Or.inl rfl
        · exact Or.inr ⟨Or.inr hf, hne⟩
      · rintro (rfl | ⟨rfl | hf, hne⟩)
        · exact Or.inr (Or.inl rfl)
        · exact Or.inl rfl
        · exact Or.inr (Or.inr ⟨hf, hne⟩)

/-- The object made of fields has those that no later field with the same key replaces. -/
theorem Shape.mem_foldl_insert_iff {fields : List (Field Shape)} {f : Field Shape} :
    f ∈ fields.foldl (fun acc field => Field.insert field acc) [] ↔
      ∃ before after, fields = before ++ f :: after ∧ f.key ∉ Field.keys after := by
  induction fields using List.reverseRecOn with
  | nil => simp
  | append_singleton fields last ih =>
    have hnodup : (Field.keys (fields.foldl (fun acc field => Field.insert field acc) [])).Nodup :=
      Shape.nodup_keys_foldl_insert fields [] List.nodup_nil
    rw [List.foldl_append, List.foldl_cons, List.foldl_nil, Field.mem_insert_iff hnodup, ih]
    constructor
    · rintro (rfl | ⟨⟨before, after, rfl, hlater⟩, hne⟩)
      · exact ⟨fields, [], rfl, List.not_mem_nil⟩
      · refine ⟨before, after ++ [last], by simp, ?_⟩
        rw [Field.keys, List.map_append, List.mem_append]
        exact not_or.2 ⟨hlater, by simpa using hne⟩
    · rintro ⟨before, after, heq, hlater⟩
      rcases List.eq_nil_or_concat after with rfl | ⟨after, g, rfl⟩
      · obtain ⟨-, hlast⟩ := List.append_inj' heq rfl
        exact Or.inl (List.singleton_inj.1 hlast).symm
      · rw [List.concat_eq_append, ← List.cons_append, ← List.append_assoc] at heq
        obtain ⟨rfl, hlast⟩ := List.append_inj' heq rfl
        obtain rfl := List.singleton_inj.1 hlast
        rw [List.concat_eq_append, Field.keys, List.map_append, List.mem_append, not_or] at hlater
        exact Or.inr ⟨⟨before, after, rfl, hlater.1⟩, by simpa using hlater.2⟩

/-- The object made of fields has their keys. -/
theorem Shape.mem_keys_foldl_insert {key : Key} {fields acc : List (Field Shape)} :
    key ∈ Field.keys (fields.foldl (fun acc field => Field.insert field acc) acc) ↔
      key ∈ Field.keys fields ∨ key ∈ Field.keys acc := by
  induction fields generalizing acc with
  | nil => simp [Field.keys]
  | cons f rest ih =>
    have hcons : key ∈ Field.keys (f :: rest) ↔ key = f.key ∨ key ∈ Field.keys rest := List.mem_cons
    rw [List.foldl_cons, ih, Field.mem_keys_insert, hcons, or_left_comm, or_assoc]

namespace OpenApi

/-! ### Which parameter describes a name -/

/-- The last of some parameters with a name and a location. -/
def lastOf? (name : String) (location : Location) (parameters : List Parameter) :
    Option Parameter :=
  (parameters.filter fun p => p.name == name && p.location == location).getLast?

/-- The parameter that describes a name at a location: the last one of the operation, if it has
one, and otherwise the last one of the path. -/
def describing? (shared own : List Parameter) (name : String) (location : Location) :
    Option Parameter :=
  (lastOf? name location own).or (lastOf? name location shared)

/-- The parameters that go to a location. -/
def goingTo (location : Location) (parameters : List Parameter) : List Parameter :=
  parameters.filter fun p => p.location == location

section Describing

variable {shared own shared' own' : List Parameter} {name : String} {location : Location}
  {p : Parameter}

theorem mem_goingTo {parameters : List Parameter} :
    p ∈ goingTo location parameters ↔ p ∈ parameters ∧ p.location = location := by
  simp [goingTo]

/-- What goes to other locations replaces nothing that goes to this one. -/
theorem goingTo_effectiveParameters (shared own : List Parameter) (location : Location) :
    goingTo location (effectiveParameters shared own) =
      effectiveParameters (goingTo location shared) (goingTo location own) := by
  simp only [goingTo, effectiveParameters, List.filter_append, List.filter_filter, List.any_filter]
  refine congrArg (· ++ _) (List.filter_congr fun p _ => ?_)
  by_cases hp : p.location = location
  · have hany : (own.any fun q => q.location == location &&
        (q.name == p.name && q.location == p.location)) =
        own.any fun q => q.name == p.name && q.location == p.location :=
      List.any_congr rfl fun q => by rw [hp, Bool.and_left_comm, Bool.and_self]
    rw [hany, Bool.and_comm]
  · have hfails : (p.location == location) = false := beq_eq_false_iff_ne.2 hp
    rw [hfails, Bool.false_and, Bool.and_false]

/-- Where the operation has a parameter with a name and a location, those of the path are
replaced by it. -/
theorem lastOf?_effectiveParameters (shared own : List Parameter) (name : String)
    (location : Location) :
    lastOf? name location (effectiveParameters shared own) =
      describing? shared own name location := by
  rw [describing?, lastOf?, lastOf?, lastOf?, effectiveParameters, List.filter_append,
    List.getLast?_append, List.filter_filter]
  cases hown : (own.filter fun p => p.name == name && p.location == location).getLast? with
  | some p => rfl
  | none =>
    rw [List.getLast?_eq_none_iff, List.filter_eq_nil_iff] at hown
    rw [Option.none_or, Option.none_or]
    refine congrArg List.getLast? (List.filter_congr fun p _ => ?_)
    cases hp : p.name == name && p.location == location with
    | false => rfl
    | true =>
      obtain ⟨rfl, rfl⟩ : p.name = name ∧ p.location = location := by simpa using hp
      rw [List.any_eq_false.2 hown]
      rfl

/-- The last element that passes a test is one behind which none does. -/
theorem getLast?_filter_append_cons {α : Type} {test : α → Bool} {earlier later : List α} {a : α}
    (ha : test a = true) (hlater : ∀ b ∈ later, test b = false) :
    ((earlier ++ a :: later).filter test).getLast? = some a := by
  have hnone : later.filter test = [] := List.filter_eq_nil_iff.2 fun b hb => by simp [hlater b hb]
  rw [List.filter_append, List.filter_cons_of_pos ha, hnone, List.getLast?_append]
  rfl

/-- A parameter describes its name when none of that name goes to the location after it. -/
theorem describing?_of_goingTo {earlier later : List Parameter}
    (h : goingTo location (effectiveParameters shared own) = earlier ++ p :: later)
    (hlater : ∀ q ∈ later, q.name ≠ p.name) :
    describing? shared own p.name location = some p := by
  have hlast : lastOf? p.name location (effectiveParameters shared own) =
      ((goingTo location (effectiveParameters shared own)).filter
        fun q => q.name == p.name).getLast? := by
    rw [lastOf?, goingTo, List.filter_filter]
  rw [← lastOf?_effectiveParameters, hlast, h]
  exact getLast?_filter_append_cons (beq_self_eq_true _) fun q hq => by simp [hlater q hq]

/-- The names that are described at a location are those of the parameters that go there. -/
theorem exists_mem_goingTo_iff :
    (∃ p ∈ goingTo location (effectiveParameters shared own), p.name = name) ↔
      ∃ p ∈ shared ++ own, p.location = location ∧ p.name = name := by
  have hsome (parameters : List Parameter) : lastOf? name location parameters ≠ none ↔
      ∃ p ∈ parameters, p.location = location ∧ p.name = name := by
    rw [lastOf?, Ne, List.getLast?_eq_none_iff, List.filter_eq_nil_iff]
    simp [and_comm]
  have hmerged := hsome (effectiveParameters shared own)
  rw [lastOf?_effectiveParameters, describing?, Ne, Option.or_eq_none_iff, not_and_or, ← Ne, ← Ne,
    hsome, hsome] at hmerged
  simp only [mem_goingTo, and_assoc, List.mem_append, or_and_right, exists_or, ← hmerged]
  exact or_comm

end Describing

/-! ### Reading a group -/

/-- The catalog once the schemas of some parameters were read in order. -/
def afterReading (document : Json) (parameters : List Parameter) (c : Catalog) : Catalog :=
  parameters.foldl (fun c p => (Catalog.shapeOf document (.object p.rest) c).2) c

/-- The field for a parameter whose schema is read into a catalog. -/
def fieldIn (document : Json) (c : Catalog) (p : Parameter) : Field Shape where
  key := .named p.name
  value := (Catalog.shapeOf document (.object p.rest) c).1
  optional := !p.required
  doc := p.description
  default := p.default

/-- The fields for parameters whose schemas are read one after another. -/
def fieldsIn (document : Json) : List Parameter → Catalog → List (Field Shape)
  | [], _ => []
  | p :: rest, c => fieldIn document c p :: fieldsIn document rest (afterReading document [p] c)

section Reading

variable {document : Json} {parameters : List Parameter} {c : Catalog}

/-- Reading parameters gives their fields. -/
theorem run_fieldsOf (document : Json) (parameters : List Parameter) (c : Catalog) :
    (fieldsOf (parameterField document) parameters).run.run c =
      (.ok (fieldsIn document parameters c), afterReading document parameters c) := by
  induction parameters generalizing c with
  | nil => rfl
  | cons p rest ih =>
    have hfirst : (parameterField document p).run.run c =
        (.ok (fieldIn document c p), afterReading document [p] c) := rfl
    rw [fieldsOf, ExceptT.run_bind, StateT.run_bind, hfirst]
    change ((fieldsOf (parameterField document) rest >>= fun fields =>
      pure (fieldIn document c p :: fields)).run.run (afterReading document [p] c)) = _
    rw [ExceptT.run_bind, StateT.run_bind, ih]
    rfl

/-- A group is the object of the fields for the parameters that go to its location. -/
theorem run_groupAt (document : Json) (parameters : List Parameter) (location : Location)
    (c : Catalog) :
    (groupAt document parameters location).run.run c =
      (.ok (.ofFields (fieldsIn document (goingTo location parameters) c)),
        afterReading document (goingTo location parameters) c) := by
  rw [groupAt, ExceptT.run_bind, StateT.run_bind, ← goingTo, run_fieldsOf]
  rfl

/-- The keys of the fields for parameters are their names. -/
theorem keys_fieldsIn (document : Json) (parameters : List Parameter) (c : Catalog) :
    Field.keys (fieldsIn document parameters c) = parameters.map fun p => .named p.name := by
  induction parameters generalizing c with
  | nil => rfl
  | cons p rest ih => exact congrArg (_ :: ·) (ih _)

/-- Each field is for a parameter whose schema is read after those of the ones before. -/
theorem exists_of_fieldsIn_eq_append {before after : List (Field Shape)} {f : Field Shape}
    (h : fieldsIn document parameters c = before ++ f :: after) :
    ∃ earlier p later, parameters = earlier ++ p :: later ∧
      f = fieldIn document (afterReading document earlier c) p ∧
      Field.keys after = later.map fun q => .named q.name := by
  induction before generalizing parameters c with
  | nil =>
    cases parameters with
    | nil => cases h
    | cons p rest =>
      obtain ⟨rfl, rfl⟩ := List.cons.inj h
      exact ⟨[], p, rest, rfl, rfl, keys_fieldsIn _ _ _⟩
  | cons g before ih =>
    cases parameters with
    | nil => cases h
    | cons first rest =>
      obtain ⟨earlier, p, later, rfl, hf, hafter⟩ := ih (List.cons.inj h).2
      exact ⟨first :: earlier, p, later, rfl, hf, hafter⟩

/-- The shape of a body and the catalog after its schema, if it has one, was read. -/
def bodyIn (document : Json) (c : Catalog) (p : Parameter) : Shape × Catalog :=
  match p.schema with
  | some schema => Catalog.shapeOf document schema c
  | none => (.any, c)

/-- The body of a request that is not a form is the last parameter that describes one. -/
theorem run_bodyOf_json {earlier later : List Parameter} {p : Parameter}
    (hp : p.location = .body) (hlater : ∀ q ∈ later, q.location ≠ .body) :
    (bodyOf document (earlier ++ p :: later) .json).run.run c =
      (.ok (some (bodyIn document c p).1, !p.required), (bodyIn document c p).2) := by
  have hbody : bodyParameter? (earlier ++ p :: later) = some p :=
    getLast?_filter_append_cons (by simp [hp]) fun q hq => by simp [hlater q hq]
  simp only [bodyOf, hbody, bodyIn]
  cases p.schema <;> rfl

/-- Without a parameter that describes a body there is none. -/
theorem run_bodyOf_json_of_none (h : ∀ p ∈ parameters, p.location ≠ .body) :
    (bodyOf document parameters .json).run.run c = (.ok (none, false), c) := by
  have hnone : parameters.filter (fun p => p.location == .body) = [] :=
    List.filter_eq_nil_iff.2 fun p hp => by simp [h p hp]
  simp only [bodyOf, bodyParameter?, hnone]
  rfl

/-- The group for a location has one field for each name that a parameter of the path or of the
operation has there, and the field says what the last one of the operation says, or of the path
if the operation has none. Parameters for other locations make no difference. A body that is
not a form is described by the last parameter for the body. -/
theorem groups_of_parameters (document : Json) (shared own : List Parameter)
    (location : Location) (c : Catalog) :
    (∃ fields c', (groupAt document (effectiveParameters shared own) location).run.run c =
        (.ok (.object fields), c') ∧
      (Field.keys fields).Nodup ∧
      (∀ key, key ∈ Field.keys fields ↔
        ∃ p ∈ shared ++ own, p.location = location ∧ key = .named p.name) ∧
      ∀ f ∈ fields, ∃ p earlier later,
        goingTo location (effectiveParameters shared own) = earlier ++ p :: later ∧
        describing? shared own p.name location = some p ∧
        f = fieldIn document (afterReading document earlier c) p) ∧
    (∀ shared' own', goingTo location shared' = goingTo location shared →
      goingTo location own' = goingTo location own →
      (groupAt document (effectiveParameters shared' own') location).run.run c =
        (groupAt document (effectiveParameters shared own) location).run.run c) ∧
    (∀ earlier p later, effectiveParameters shared own = earlier ++ p :: later →
      p.location = .body → (∀ q ∈ later, q.location ≠ .body) →
      (bodyOf document (effectiveParameters shared own) .json).run.run c =
        (.ok (some (bodyIn document c p).1, !p.required), (bodyIn document c p).2)) ∧
    ((∀ p ∈ shared ++ own, p.location ≠ .body) →
      (bodyOf document (effectiveParameters shared own) .json).run.run c =
        (.ok (none, false), c)) := by
  refine ⟨⟨_, _, run_groupAt _ _ _ _, ?nodup, ?keys, ?fields⟩, ?others, ?body, ?noBody⟩
  case nodup => exact Shape.nodup_keys_foldl_insert _ [] List.nodup_nil
  case keys =>
    intro key
    have hnil : key ∉ Field.keys ([] : List (Field Shape)) := List.not_mem_nil
    rw [Shape.mem_keys_foldl_insert, or_iff_left hnil, keys_fieldsIn, List.mem_map]
    constructor
    · rintro ⟨p, hp, rfl⟩
      obtain ⟨q, hq, hlocation, hname⟩ := exists_mem_goingTo_iff.1 ⟨p, hp, rfl⟩
      exact ⟨q, hq, hlocation, congrArg Key.named hname.symm⟩
    · rintro ⟨p, hp, hlocation, rfl⟩
      obtain ⟨q, hq, hname⟩ := exists_mem_goingTo_iff.2 ⟨p, hp, hlocation, rfl⟩
      exact ⟨q, hq, congrArg Key.named hname⟩
  case fields =>
    intro f hf
    obtain ⟨before, after, heq, hlast⟩ := Shape.mem_foldl_insert_iff.1 hf
    obtain ⟨earlier, p, later, hmerged, rfl, hafter⟩ := exists_of_fieldsIn_eq_append heq
    refine ⟨p, earlier, later, hmerged, describing?_of_goingTo hmerged fun q hq hname => ?_, rfl⟩
    exact hlast (hafter ▸ List.mem_map.2 ⟨q, hq, congrArg Key.named hname⟩)
  case others =>
    intro shared' own' hshared hown
    rw [run_groupAt, run_groupAt, goingTo_effectiveParameters, hshared, hown,
      ← goingTo_effectiveParameters]
  case body =>
    intro earlier p later hmerged hp hlater
    rw [hmerged]
    exact run_bodyOf_json hp hlater
  case noBody =>
    intro hnone
    refine run_bodyOf_json_of_none fun p hp hbody => ?_
    obtain ⟨q, hq, hlocation, -⟩ :=
      exists_mem_goingTo_iff.1 ⟨p, mem_goingTo.2 ⟨hp, hbody⟩, rfl⟩
    exact hnone q hq hlocation

/-- The path has a limit, a tag and a body. The operation says twice what the limit is, between
which it has a header with this name, and has a body of its own. -/
theorem groups_of_parameters_pets :
    let parameter := fun name location type => ({
      name := name, location := location, required := true, description := none, default := none,
      schema := some (.object [("type", .string type)]),
      rest := [("type", .string type)] } : Parameter)
    let shared := [parameter "limit" .query "string", parameter "tag" .query "string",
      parameter "pet" .body "object"]
    let own := [parameter "limit" .query "object", parameter "limit" .header "string",
      parameter "limit" .query "integer", parameter "name" .body "string"]
    let merged := effectiveParameters shared own
    let c := Catalog.empty
    describing? shared own "limit" .query = some (parameter "limit" .query "integer") ∧
      ((groupAt .null merged .query).run.run c).1 = .ok (.object
        [fieldIn .null c (parameter "tag" .query "string"),
          fieldIn .null (afterReading .null
            [parameter "tag" .query "string", parameter "limit" .query "object"] c)
            (parameter "limit" .query "integer")]) ∧
      (groupAt .null merged .query).run.run c =
        (groupAt .null (effectiveParameters shared
          [parameter "limit" .query "object", parameter "limit" .query "integer"])
            .query).run.run c ∧
      ((bodyOf .null merged .json).run.run c).1 =
        .ok (some (bodyIn .null c (parameter "name" .body "string")).1, false) := by
  intro parameter shared own merged c
  have hgroups := groups_of_parameters .null shared own .query c
  have hbody := hgroups.2.2.1 [parameter "tag" .query "string", parameter "pet" .body "object",
    parameter "limit" .query "object", parameter "limit" .header "string",
    parameter "limit" .query "integer"] (parameter "name" .body "string") [] rfl rfl (by simp)
  exact ⟨rfl, rfl, (hgroups.2.1 shared _ rfl rfl).symm, congrArg Prod.fst hbody⟩

end Reading

end OpenApi

end TypedClient
