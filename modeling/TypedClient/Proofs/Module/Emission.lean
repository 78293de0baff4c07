import TypedClient.Proofs.Module.References
import TypedClient.Proofs.TypeScript.Emission

/-!
# When building a module succeeds

Building a module needs types and declarations and fails only where one of these does. Where no
shape of a service has an empty name, none of the shapes that the module is built of has one:
they are shapes of the service made ready, and references. So every step succeeds and leaves a
builder from which the next one succeeds.
-/

namespace TypedClient.Module

open TypeScript Building

/-- No shape that a module is built of has an empty name. -/
structure IsNamedThroughout (b : Builder) : Prop where
  /-- No named shape has one. -/
  shapes : ∀ entry ∈ b.arena.entries, ¬ entry.2.HasEmptyName
  /-- Making a shape ready brings none. -/
  prepare : ∀ s, ¬ s.HasEmptyName → ¬ (b.prepare s).HasEmptyName

/-- A step succeeds on every builder without empty names, leaves such a builder, and has a
result of a kind. -/
def Succeeds {α : Type} (step : Building α) (result : α → Prop) : Prop :=
  ∀ b, IsNamedThroughout b → ∃ a b', step.Runs b a b' ∧ result a ∧ IsNamedThroughout b'

/-- No shape that is given has an empty name. -/
def IsNamed? (s : Option Shape) : Prop := ∀ known, s = some known → ¬ known.HasEmptyName

section Succeeds

variable {α β : Type} {result : α → Prop} {result' : β → Prop}

/-- Giving a result of the kind succeeds. -/
theorem succeeds_pure {a : α} (h : result a) : Succeeds (pure a) result :=
  fun b hb => ⟨a, b, rfl, h, hb⟩

/-- Two steps in a row. -/
theorem Succeeds.bind {step : Building α} {next : α → Building β} (h : Succeeds step result)
    (h' : ∀ a, result a → Succeeds (next a) result') : Succeeds (step >>= next) result' := by
  intro b hb
  obtain ⟨a, middle, hstep, ha, hmiddle⟩ := h b hb
  obtain ⟨c, b', hnext, hc, hb'⟩ := h' a ha middle hmiddle
  refine ⟨c, b', ?_, hc, hb'⟩
  rw [Runs, ExceptT.run_bind, StateT.run_bind, hstep]
  exact hnext

/-- A step, and what is made of its result. -/
theorem Succeeds.map {step : Building α} {f : α → β} (h : Succeeds step result)
    (hf : ∀ a, result a → result' (f a)) :
    Succeeds (step >>= fun a => pure (f a)) result' :=
  h.bind fun a ha => succeeds_pure (hf a ha)

/-- Looking at a builder without empty names shows one. -/
theorem succeeds_get : Succeeds get IsNamedThroughout := fun b hb => ⟨b, b, rfl, hb, hb⟩

/-- A result that does not fail. -/
theorem succeeds_ofExcept {r : Except Failure α} (h : ¬ Fails r) :
    Succeeds (Building.ofExcept r) fun _ => True := by
  obtain ⟨a, rfl⟩ := not_fails_iff.1 h
  exact fun b hb => ⟨a, b, rfl, trivial, hb⟩

/-- Asking whether a shape says something succeeds. -/
theorem succeeds_isTrivial (s : Shape) : Succeeds (isTrivial s) fun _ => True :=
  succeeds_get.map fun _ _ => trivial

/-- Declaring succeeds. -/
theorem succeeds_declare (ds : List Declaration) : Succeeds (declare ds) fun _ => True :=
  fun _ hb => ⟨(), _, rfl, trivial, ⟨hb.shapes, hb.prepare⟩⟩

/-- Adding a constant succeeds. -/
theorem succeeds_addConstant (name value : String) :
    Succeeds (addConstant name value) fun _ => True :=
  fun _ hb => ⟨(), _, rfl, trivial, ⟨hb.shapes, hb.prepare⟩⟩

/-- A shape without an empty name has a type. -/
theorem succeeds_typeOf {s : Shape} (h : ¬ s.HasEmptyName) : Succeeds (typeOf s) fun _ => True :=
  succeeds_get.bind fun _ _ => succeeds_ofExcept fun hfails =>
    h (TypeNode.fails_ofWidened_iff.1 hfails).of_widen

/-- Every shape has declarations, whatever names it has itself. -/
theorem succeeds_declareFor (s : Shape) : Succeeds (declareFor s) fun _ => True := by
  refine succeeds_get.bind fun b hb => (succeeds_ofExcept fun hfails => ?_).bind
    fun ds _ => succeeds_declare ds
  obtain ⟨name, target, -, hfind, hfails⟩ := fails_declarations_iff.1 hfails
  rw [fails_declarationOf_iff] at hfails
  exact hb.shapes _ (Arena.mem_of_lookup_eq_some hfind)
    (TypeNode.fails_ofWidened_iff.1 hfails).of_widen

/-- A shape without an empty name may get a name. -/
theorem succeeds_define {name : String} {s : Shape} (h : ¬ s.HasEmptyName) :
    Succeeds (define name s) fun _ => True := by
  intro b hb
  refine ⟨(), _, rfl, trivial, fun entry hentry => ?_, hb.prepare⟩
  rcases Arena.mem_entries_of_mem_define hentry with hentry | rfl
  · exact hb.shapes entry hentry
  · exact h

end Succeeds

/-- A reference has no empty name in it. -/
theorem not_hasEmptyName_reference (name : String) : ¬ (Shape.reference name).HasEmptyName := by
  rintro ⟨t, ho, hunnamed⟩
  cases ho
  exact hunnamed

/-- The shape that says nothing has no empty name in it. -/
theorem not_hasEmptyName_any : ¬ Shape.any.HasEmptyName := by
  rintro ⟨t, ho, hunnamed⟩
  cases ho
  exact hunnamed

/-- A group without an empty name gets a reference. -/
theorem succeeds_nameGroup (name : String) {group : Option Shape} (h : IsNamed? group) :
    Succeeds (nameGroup name group) fun s => ¬ s.HasEmptyName := by
  unfold nameGroup
  split
  · exact succeeds_pure (not_hasEmptyName_reference _)
  · rename_i s _
    refine succeeds_get.bind fun b hb => ?_
    exact (succeeds_define (hb.prepare s (h s rfl))).map fun _ _ => not_hasEmptyName_reference name
  · exact (succeeds_define not_hasEmptyName_any).map fun _ _ => not_hasEmptyName_reference name

/-- Groups without empty names can be declared, and those that are kept have none. -/
theorem succeeds_declareGroups (name : String) {groups : List (String × String × Option Shape)}
    (h : ∀ group ∈ groups, IsNamed? group.2.2) :
    Succeeds (declareGroups name groups) fun kept => ∀ g ∈ kept, ¬ g.shape.HasEmptyName := by
  induction groups with
  | nil => exact succeeds_pure (by simp)
  | cons group rest ih =>
    obtain ⟨hfirst, hrest⟩ := List.forall_mem_cons.1 h
    refine (succeeds_nameGroup _ hfirst).bind fun reference hreference => ?_
    refine (succeeds_declareFor reference).bind fun _ _ => ?_
    refine (succeeds_isTrivial reference).bind fun silent _ => ?_
    refine (ih hrest).map fun others hothers => ?_
    cases silent
    · exact List.forall_mem_cons.2 ⟨hreference, hothers⟩
    · exact hothers

/-- Headers without empty names have a type. -/
theorem succeeds_headerType (name : String) {r : Response} (h : IsNamed? r.header) :
    Succeeds (headerType name r) fun _ => True := by
  unfold headerType
  split
  · exact succeeds_pure trivial
  · rename_i header hheader
    rw [hheader] at h
    refine (succeeds_nameGroup _ h).bind fun reference hreference => ?_
    refine (succeeds_declareFor reference).bind fun _ _ => ?_
    refine (succeeds_isTrivial reference).bind fun silent _ => ?_
    cases silent
    · exact succeeds_typeOf hreference
    · exact succeeds_pure trivial

/-- A response without empty names has a type, or says nothing. -/
theorem succeeds_responseType? (name : String) {r : Response} (h : ¬ r.shape.HasEmptyName)
    (hheader : IsNamed? r.header) : Succeeds (responseType? name r) fun _ => True := by
  refine succeeds_get.bind fun b hb => (succeeds_isTrivial _).bind fun silent _ => ?_
  cases silent
  · refine (succeeds_declareFor _).bind fun _ _ => ?_
    refine (succeeds_typeOf (hb.prepare _ h)).bind fun _ _ => ?_
    exact (succeeds_headerType name hheader).map fun _ _ => trivial
  · exact succeeds_pure trivial

/-- Responses without empty names have types. -/
theorem succeeds_responseTypes (name : String) {responses : List Response}
    (h : ∀ r ∈ responses, ¬ r.shape.HasEmptyName ∧ IsNamed? r.header) :
    Succeeds (responseTypes name responses) fun _ => True := by
  induction responses with
  | nil => exact succeeds_pure trivial
  | cons r rest ih =>
    obtain ⟨⟨hshape, hheader⟩, hrest⟩ := List.forall_mem_cons.1 h
    refine (succeeds_responseType? name hshape hheader).bind fun _ _ => ?_
    exact (ih hrest).map fun _ _ => trivial

/-- Groups without empty names have parameters. -/
theorem succeeds_parametersFor {groups : List Group} (h : ∀ g ∈ groups, ¬ g.shape.HasEmptyName)
    (bodyOptional : Bool) (keys : List String) :
    Succeeds (parametersFor groups bodyOptional keys) fun _ => True := by
  induction keys with
  | nil => exact succeeds_pure trivial
  | cons key rest ih =>
    unfold parametersFor
    split
    · exact ih
    · rename_i group hgroup
      refine (succeeds_typeOf (h group (List.mem_of_find?_eq_some hgroup))).bind fun _ _ => ?_
      exact ih.map fun _ _ => trivial

/-- An endpoint without empty names can be added. -/
theorem succeeds_addEndpoint {e : Endpoint} (h : ∀ s ∈ shapesOf e, ¬ s.HasEmptyName) :
    Succeeds (addEndpoint e) fun _ => True := by
  have hgroups : ∀ group ∈ groupsOf e, IsNamed? group.2.2 := fun group hgroup s hs =>
    h s (List.mem_append_left _ (List.mem_filterMap.2 ⟨group, hgroup, hs⟩))
  have hresponses : ∀ r ∈ e.responses, ¬ r.shape.HasEmptyName ∧ IsNamed? r.header := by
    intro r hr
    have hmem {s : Shape} (hs : s ∈ r.shape :: r.header.toList) : s ∈ shapesOf e :=
      List.mem_append_right _ (List.mem_flatMap.2 ⟨r, hr, hs⟩)
    exact ⟨h _ (hmem List.mem_cons_self), fun s hs =>
      h s (hmem (List.mem_cons_of_mem _ (by simp [hs])))⟩
  refine (succeeds_declareGroups _ hgroups).bind fun groups hkept => ?_
  refine (succeeds_addConstant _ _).bind fun _ _ => (succeeds_addConstant _ _).bind fun _ _ => ?_
  refine (succeeds_responseTypes _ hresponses).bind fun types _ => ?_
  exact (succeeds_parametersFor hkept _ _).bind fun parameters _ => succeeds_declare _

/-- Endpoints without empty names can be added. -/
theorem succeeds_addEndpoints {endpoints : List Endpoint}
    (h : ∀ e ∈ endpoints, ∀ s ∈ shapesOf e, ¬ s.HasEmptyName) :
    Succeeds (addEndpoints endpoints) fun _ => True := by
  induction endpoints with
  | nil => exact succeeds_pure trivial
  | cons e rest ih =>
    obtain ⟨hfirst, hrest⟩ := List.forall_mem_cons.1 h
    exact (succeeds_addEndpoint hfirst).bind fun _ _ => ih hrest

/-- The interfaces of a service can be declared. -/
theorem succeeds_addNames (names : List String) : Succeeds (addNames names) fun _ => True := by
  induction names with
  | nil => exact succeeds_pure trivial
  | cons name rest ih => exact (succeeds_declareFor _).bind fun _ _ => ih

/-- A service without empty names. -/
structure HasNames (api : Api) : Prop where
  /-- No named shape has one. -/
  types : ∀ entry ∈ api.types.entries, ¬ entry.2.HasEmptyName
  /-- No shape of an endpoint has one. -/
  endpoints : ∀ e ∈ api.endpoints, ∀ s ∈ shapesOf e, ¬ s.HasEmptyName

/-- A service without empty names can be added. -/
theorem succeeds_addApi {api : Api} (h : HasNames api) : Succeeds (addApi api) fun _ => True :=
  (succeeds_addEndpoints h.endpoints).bind fun _ _ => (succeeds_declare _).bind fun _ _ =>
    succeeds_addNames _

/-- Making shapes ready brings no empty names. -/
theorem not_hasEmptyName_prepare (options : Options) {s : Shape} (h : ¬ s.HasEmptyName) :
    ¬ (options.prepare s).HasEmptyName := by
  unfold Options.prepare
  split
  · exact fun hreduced => h hreduced.of_reduce
  · exact h

/-- Building starts without empty names when the service has none. -/
theorem isNamedThroughout_start {api : Api} (h : HasNames api) (options : Options) :
    IsNamedThroughout (Builder.start api.types options) := by
  refine ⟨fun entry hentry => ?_, fun s => not_hasEmptyName_prepare options⟩
  obtain ⟨original, horiginal, rfl⟩ := List.mem_map.1 hentry
  exact not_hasEmptyName_prepare options (h.types original horiginal)

/-- A module can be built of a service without empty names. -/
theorem exists_build_eq_ok {api : Api} (h : HasNames api) (options : Options) :
    ∃ b, (build api options).1 = .ok b := by
  obtain ⟨_, b, hruns, -⟩ := succeeds_addApi h _ (isNamedThroughout_start h options)
  rw [build, hruns]
  exact ⟨b, rfl⟩

/-- A service without empty names has a module. -/
theorem exists_ofApi_eq_ok {api : Api} (h : HasNames api) (template : String) (options : Options) :
    ∃ text warnings, ofApi api template options = (.ok text, warnings) := by
  obtain ⟨b, hb⟩ := exists_build_eq_ok h options
  have hbuild : build api options = (.ok b, (build api options).2) := Prod.ext hb rfl
  rw [ofApi, hbuild]
  exact ⟨_, _, rfl⟩

/-- Where values have every key once, the type of a shape fails exactly when the shape has an
empty name, references aside, and its declarations fail exactly when the shape of a name has one
that it leads to through references that say something. A service without empty names has a
module, whatever the template and the options. -/
theorem emission_fails_iff :
    (∀ (arena : Arena) (s : Shape), s.HasUniqueValues →
      (Fails (TypeNode.ofShape arena s) ↔ s.HasEmptyName)) ∧
    (∀ (arena : Arena) (s : Shape),
      (∀ name target, arena.find? name = some target → target.HasUniqueValues) →
      (Fails (declarations arena s) ↔ ∃ name target, LeadsFrom arena s name ∧
        arena.find? name = some target ∧ target.HasEmptyName)) ∧
    ∀ api, HasNames api → ∀ template options,
      ∃ text warnings, ofApi api template options = (.ok text, warnings) := by
  refine ⟨fun arena s => TypeNode.fails_ofShape_iff, fun arena s hu => ?_,
    fun api h => exists_ofApi_eq_ok h⟩
  rw [fails_declarations_iff]
  refine exists_congr fun name => exists_congr fun target => and_congr_right fun _ =>
    and_congr_right fun hfind => ?_
  rw [fails_declarationOf_iff, TypeNode.fails_ofShape_iff (hu name target hfind)]

/-- An empty key in an element of a named list, reached through another name. The empty name of
the shape that leads there does not matter, and without the two names its declarations do not
fail. -/
theorem emission_fails_iff_tags :
    let tag := Shape.constant (.object [("", .null)])
    let arena : Arena := ⟨[("Pet", .object [.named "tags" (.reference "Tags")]),
      ("Tags", .array tag)]⟩
    let s := Shape.object [.named "" .string, .named "pet" (.reference "Pet")]
    let api : Api := ⟨"/", [], [], ["Pet"], ⟨[("Pet", .object [.named "name" .string])]⟩⟩
    Fails (TypeNode.ofShape arena tag) ∧ Fails (declarations arena s) ∧
      ¬ Fails (declarations Arena.empty s) ∧
      ∃ text warnings, ofApi api (bundledTemplate false) {} = (.ok text, warnings) := by
  intro tag arena s api
  have htag : tag.HasUniqueValues := by
    intro l value ho hvalue
    change Shape.Occurs (.literal l) (.literal ⟨some (.object [("", .null)]), true⟩) at ho
    cases ho
    cases hvalue
    exact .object (by decide) (by simpa using .null)
  have hname : tag.HasEmptyName := ⟨tag, .whole, _, rfl, .key List.mem_cons_self⟩
  have hunique : ∀ name target, arena.find? name = some target → target.HasUniqueValues := by
    intro name target hfind
    have hentry : (name, target) ∈ arena.entries := Arena.mem_of_lookup_eq_some hfind
    simp only [arena, List.mem_cons, Prod.mk.injEq, List.not_mem_nil, or_false] at hentry
    rcases hentry with ⟨-, rfl⟩ | ⟨-, rfl⟩
    · intro l value ho
      cases ho with
      | value hf ho =>
        rw [List.mem_singleton.1 hf] at ho
        cases ho
    · intro l value ho
      cases ho with
      | element ho => exact htag l value ho
  have hleads : LeadsFrom arena s "Tags" := by
    refine ⟨"Pet", .value (List.mem_cons_of_mem _ List.mem_cons_self) .whole, by decide +kernel,
      .single ⟨_, rfl, .value List.mem_cons_self .whole, by decide +kernel⟩⟩
  have hapi : HasNames api := by
    refine ⟨?_, by simp [api]⟩
    rintro entry hentry ⟨t, ho, hunnamed⟩
    rw [List.mem_singleton.1 hentry] at ho
    cases ho with
    | whole => exact absurd hunnamed (by simp [Shape.IsUnnamed, Field.keys, Field.named])
    | value hf ho =>
      rw [List.mem_singleton.1 hf] at ho
      change Shape.Occurs t (.literal ⟨some (.string ""), false⟩) at ho
      cases ho
      obtain ⟨value, hvalue, hempty⟩ := hunnamed
      cases hvalue
      cases hempty
  refine ⟨(emission_fails_iff.1 arena tag htag).2 hname,
    (emission_fails_iff.2.1 arena s hunique).2 ⟨"Tags", .array tag, hleads, rfl,
      hname.of_occurs (.element .whole)⟩, ?_, emission_fails_iff.2.2 api hapi _ _⟩
  have hempty : ∀ name target, Arena.empty.find? name ≠ some target := fun _ _ => by rintro ⟨⟩
  rw [emission_fails_iff.2.1 Arena.empty s fun name target h => absurd h (hempty name target)]
  rintro ⟨name, target, -, hfind, -⟩
  exact hempty name target hfind

end TypedClient.Module
