import TypedClient.OpenApi.Endpoints
import TypedClient.Proofs.Module.Emission
import TypedClient.Proofs.Schema.Definitions
import TypedClient.Proofs.Schema.Targets
import TypedClient.Proofs.TypeScript.Failures

/-!
# A function for every endpoint

Every endpoint adds types and then one function, and after the endpoints only types are
added. So the functions of a module are those of the endpoints in their order. Only the
first declaration of a name is printed: a function that has the name of a type is left
out when the type comes first, and a type when the function does. When no two endpoints
have one name, nothing else is lost.
-/

namespace TypedClient

namespace TypeScript

/-- The names of the functions among declarations. -/
def functionNames (declarations : List Declaration) : List String :=
  (declarations.filter fun d => !d.isType).map Declaration.name

/-- The names of the types among declarations. -/
def typeNames (declarations : List Declaration) : List String :=
  (declarations.filter Declaration.isType).map Declaration.name

section Names

variable {ds ds' : List Declaration} {d : Declaration} {name : String}

/-- The functions of two lists of declarations, one after the other. -/
@[simp]
theorem functionNames_append :
    functionNames (ds ++ ds') = functionNames ds ++ functionNames ds' := by
  rw [functionNames, List.filter_append, List.map_append, functionNames, functionNames]

/-- A type brings no function. -/
theorem functionNames_cons_of_isType (h : d.isType = true) :
    functionNames (d :: ds) = functionNames ds := by
  rw [functionNames, List.filter_cons_of_neg (by simp [h]), functionNames]

/-- A function comes before those of the rest. -/
theorem functionNames_cons_of_not_isType (h : ¬ d.isType = true) :
    functionNames (d :: ds) = d.name :: functionNames ds := by
  rw [functionNames, List.filter_cons_of_pos (by simpa using h), List.map_cons, functionNames]

/-- A type comes before those of the rest. -/
theorem typeNames_cons_of_isType (h : d.isType = true) :
    typeNames (d :: ds) = d.name :: typeNames ds := by
  rw [typeNames, List.filter_cons_of_pos h, List.map_cons, typeNames]

/-- A function brings no type. -/
theorem typeNames_cons_of_not_isType (h : ¬ d.isType = true) :
    typeNames (d :: ds) = typeNames ds := by
  rw [typeNames, List.filter_cons_of_neg h, typeNames]

/-- Types have no functions among them. -/
theorem functionNames_of_types (h : ∀ d ∈ ds, d.isType = true) : functionNames ds = [] := by
  rw [functionNames, List.filter_eq_nil_iff.2 fun d hd => by simp [h d hd], List.map_nil]

/-- A declaration is of a type or of a function. -/
theorem mem_typeNames_or_functionNames (h : d ∈ ds) :
    d.name ∈ typeNames ds ∨ d.name ∈ functionNames ds := by
  by_cases ht : d.isType = true
  · exact Or.inl (List.mem_map_of_mem (List.mem_filter.2 ⟨h, ht⟩))
  · exact Or.inr (List.mem_map_of_mem (List.mem_filter.2 ⟨h, by simpa using ht⟩))

/-- The name of a type is the name of a declaration. -/
theorem exists_of_mem_typeNames (h : name ∈ typeNames ds) : ∃ d ∈ ds, d.name = name := by
  obtain ⟨d, hd, hname⟩ := List.mem_map.1 h
  exact ⟨d, (List.mem_filter.1 hd).1, hname⟩

/-- Of functions with different names those are kept, in order, whose name was not seen
before and is not that of a type that is kept. -/
theorem functionNames_firstByNameFrom {seen : List String} (h : (functionNames ds).Nodup) :
    functionNames (firstByNameFrom Declaration.name seen ds) =
      (functionNames ds).filter fun name =>
        name ∉ seen ∧ name ∉ typeNames (firstByNameFrom Declaration.name seen ds) := by
  induction ds generalizing seen with
  | nil => rfl
  | cons d rest ih =>
    unfold firstByNameFrom
    by_cases ht : d.isType = true
    · rw [functionNames_cons_of_isType ht] at h ⊢
      split
      · exact ih h
      · rw [functionNames_cons_of_isType ht, typeNames_cons_of_isType ht, ih h]
        refine List.filter_congr fun name _ => ?_
        simp only [List.mem_cons, not_or, decide_eq_decide]
        tauto
    · rw [functionNames_cons_of_not_isType ht] at h ⊢
      obtain ⟨hnew, hrest⟩ := List.nodup_cons.1 h
      split
      · rename_i hseen
        rw [ih hrest, List.filter_cons_of_neg (by simp [hseen])]
      · rename_i hunseen
        have hkept := (nodup_firstByNameFrom Declaration.name (d.name :: seen) rest).2
        have hfree :
            d.name ∉ typeNames (firstByNameFrom Declaration.name (d.name :: seen) rest) := by
          intro hmem
          obtain ⟨t, ht, hname⟩ := exists_of_mem_typeNames hmem
          exact hkept t ht (hname ▸ List.mem_cons_self)
        rw [functionNames_cons_of_not_isType ht, typeNames_cons_of_not_isType ht, ih hrest,
          List.filter_cons_of_pos (by simp [hunseen, hfree])]
        refine congrArg _ (List.filter_congr fun name hname => ?_)
        have hne : name ≠ d.name := fun he => hnew (he ▸ hname)
        simp only [List.mem_cons, not_or, decide_eq_decide]
        tauto

/-- Of functions with different names those are kept, in order, that have no name of a
type that is kept. -/
theorem functionNames_firstByName (h : (functionNames ds).Nodup) :
    functionNames (firstByName Declaration.name ds) =
      (functionNames ds).filter (· ∉ typeNames (firstByName Declaration.name ds)) := by
  rw [firstByName, functionNames_firstByNameFrom h]
  simp

end Names

end TypeScript

namespace Module

open TypeScript Building

/-! ### What a step adds -/

/-- The second builder has declared more, functions of these names in order among it, and
leaves every name of the arena its shape. -/
structure Gains (names : List String) (b b' : Builder) : Prop where
  /-- It has declared more. -/
  declarations : ∃ ds, b'.declarations = b.declarations ++ ds ∧ functionNames ds = names
  /-- Names keep their shapes. -/
  arena : b.arena.IsWithin b'.arena

/-- A step adds functions of these names in order, and fails at an empty name only. -/
def Adds {α : Type} (names : List String) (step : Building α) : Prop :=
  ∀ b, match step.run.run b with
    | (.ok _, b') => Gains names b b'
    | (.error e, _) => e = .emptyPropertyKey

section Adds

variable {α β : Type} {names names' : List String} {step : Building α} {b b' b'' : Builder}

/-- A builder gains nothing over itself. -/
theorem Gains.refl (b : Builder) : Gains [] b b := ⟨⟨[], (List.append_nil _).symm, rfl⟩, .refl _⟩

/-- What is gained in two steps is gained in the order of the steps. -/
theorem Gains.trans (h : Gains names b b') (h' : Gains names' b' b'') :
    Gains (names ++ names') b b'' := by
  obtain ⟨ds, hds, hnames⟩ := h.declarations
  obtain ⟨ds', hds', hnames'⟩ := h'.declarations
  refine ⟨⟨ds ++ ds', ?_, ?_⟩, h.arena.trans h'.arena⟩
  · rw [hds', hds, List.append_assoc]
  · rw [functionNames_append, hnames, hnames']

/-- What is declared stays declared. -/
theorem Gains.mem (h : Gains names b b') {d : Declaration} (hd : d ∈ b.declarations) :
    d ∈ b'.declarations := by
  obtain ⟨ds, hds, -⟩ := h.declarations
  rw [hds]
  exact List.mem_append_left ds hd

/-- What a run of such a step adds. -/
theorem Adds.of_runs (h : Adds names step) {result : α} (hr : step.Runs b result b') :
    Gains names b b' := by
  have hb := h b
  rw [hr] at hb
  exact hb

/-- A step that changes nothing. -/
theorem adds_nothing (h : ∀ b, (step.run.run b).2 = b)
    (hfails : ∀ b e, (step.run.run b).1 = .error e → e = .emptyPropertyKey) : Adds [] step := by
  intro b
  have hsame := h b
  have herror := hfails b
  generalize step.run.run b = outcome at hsame herror
  obtain ⟨_ | a, b'⟩ := outcome
  · exact herror _ rfl
  · subst hsame
    exact .refl _

/-- Giving a result adds nothing. -/
theorem adds_pure (a : α) : Adds [] (pure a : Building α) :=
  adds_nothing (fun _ => rfl) fun _ _ h => nomatch h

/-- Looking at the builder adds nothing. -/
theorem adds_get : Adds [] (get : Building Builder) :=
  adds_nothing (fun _ => rfl) fun _ _ h => nomatch h

/-- A result that fails at an empty name only adds nothing. -/
theorem adds_ofExcept {result : Except Failure α} (h : FailsByName result) :
    Adds [] (Building.ofExcept result) :=
  adds_nothing (fun _ => rfl) fun _ e he => h e he

/-- Two steps add what each of them adds. -/
theorem Adds.bind {next : α → Building β} (h : Adds names step) (h' : ∀ a, Adds names' (next a)) :
    Adds (names ++ names') (step >>= next) := by
  intro b
  have hb := h b
  rw [ExceptT.run_bind, StateT.run_bind]
  generalize step.run.run b = outcome at hb
  obtain ⟨e | a, middle⟩ := outcome
  · exact hb
  · have hmiddle := h' a middle
    change match (next a).run.run middle with
      | (.ok _, b') => Gains (names ++ names') b b'
      | (.error e, _) => e = .emptyPropertyKey
    generalize (next a).run.run middle = outcome at hmiddle
    obtain ⟨e | result, b'⟩ := outcome
    · exact hmiddle
    · exact Gains.trans hb hmiddle

/-- A step that adds no function, and another. -/
theorem Adds.after {next : α → Building β} (h : Adds [] step) (h' : ∀ a, Adds names (next a)) :
    Adds names (step >>= next) :=
  h.bind h'

/-- Declarations add the functions among them. -/
theorem adds_declare (ds : List Declaration) : Adds (functionNames ds) (declare ds) :=
  fun _ => ⟨⟨ds, rfl, rfl⟩, .refl _⟩

/-- A declared function adds its name. -/
theorem adds_function {f : Function} {name : String} (h : f.name = name) :
    Adds [name] (declare [.function f]) :=
  h ▸ adds_declare [.function f]

/-- A constant adds no function. -/
theorem adds_addConstant (name value : String) : Adds [] (addConstant name value) :=
  fun _ => ⟨⟨[], (List.append_nil _).symm, rfl⟩, .refl _⟩

/-- Naming a shape adds no function, and other names keep their shapes. -/
theorem adds_define (name : String) (s : Shape) : Adds [] (define name s) :=
  fun b => ⟨⟨[], (List.append_nil _).symm, rfl⟩, Arena.isWithin_define b.arena name s⟩

/-- Asking whether a shape says something adds nothing. -/
theorem adds_isTrivial (s : Shape) : Adds [] (isTrivial s) :=
  adds_get.after fun _ => adds_pure _

/-- Making a type adds nothing, and fails at an empty name only. -/
theorem adds_typeOf (s : Shape) : Adds [] (typeOf s) :=
  adds_get.after fun _ => adds_ofExcept (TypeNode.failsByName_ofShape s)

/-- The declarations that a shape needs are of types. -/
theorem isType_of_mem_declarations {arena : Arena} {s : Shape} {ds : List Declaration}
    (h : declarations arena s = .ok ds) {d : Declaration} (hd : d ∈ ds) : d.isType = true := by
  have hclosed : AreClosed arena (fun _ => True) s ds :=
    areClosed_declarations (fun _ _ _ _ _ => trivial) (fun _ _ => trivial) h
  exact (hclosed.types d hd).isType

/-- Declaring what a shape needs adds no function. -/
theorem adds_declareFor (s : Shape) : Adds [] (declareFor s) := by
  refine adds_get.after fun b => ?_
  cases hds : declarations b.arena s with
  | error e => exact fun _ => failsByName_declarations s e hds
  | ok ds =>
    have htypes : functionNames ds = [] :=
      functionNames_of_types fun d hd => isType_of_mem_declarations hds hd
    have hadds := adds_declare ds
    rw [htypes] at hadds
    exact hadds

/-- Naming a group adds no function. -/
theorem adds_nameGroup (name : String) (group : Option Shape) : Adds [] (nameGroup name group) := by
  unfold nameGroup
  split
  · exact adds_pure _
  · exact adds_get.after fun _ => (adds_define _ _).after fun _ => adds_pure _
  · exact (adds_define _ _).after fun _ => adds_pure _

end Adds

/-! ### What endpoints add -/

/-- Declaring the groups of an endpoint adds no function. -/
theorem adds_declareGroups (name : String) (groups : List (String × String × Option Shape)) :
    Adds [] (declareGroups name groups) := by
  induction groups with
  | nil => exact adds_pure _
  | cons group rest ih =>
    refine (adds_nameGroup _ _).after fun reference => ?_
    refine (adds_declareFor reference).after fun _ => ?_
    exact (adds_isTrivial reference).after fun _ => ih.after fun _ => adds_pure _

/-- Making the type of headers adds no function. -/
theorem adds_headerType (name : String) (r : Response) : Adds [] (headerType name r) := by
  unfold headerType
  split
  · exact adds_pure _
  · refine (adds_nameGroup _ _).after fun reference => ?_
    refine (adds_declareFor reference).after fun _ => ?_
    refine (adds_isTrivial reference).after fun silent => ?_
    cases silent
    · exact adds_typeOf reference
    · exact adds_pure _

/-- Making the type of a response adds no function. -/
theorem adds_responseType? (name : String) (r : Response) : Adds [] (responseType? name r) := by
  refine adds_get.after fun b => (adds_isTrivial _).after fun silent => ?_
  cases silent
  · refine (adds_declareFor _).after fun _ => (adds_typeOf _).after fun _ => ?_
    exact (adds_headerType name r).after fun _ => adds_pure _
  · exact adds_pure _

/-- Making the types of responses adds no function. -/
theorem adds_responseTypes (name : String) (responses : List Response) :
    Adds [] (responseTypes name responses) := by
  induction responses with
  | nil => exact adds_pure _
  | cons r rest ih =>
    exact (adds_responseType? name r).after fun _ => ih.after fun _ => adds_pure _

/-- Making parameters adds no function. -/
theorem adds_parametersFor (groups : List Group) (bodyOptional : Bool) (keys : List String) :
    Adds [] (parametersFor groups bodyOptional keys) := by
  induction keys with
  | nil => exact adds_pure _
  | cons key rest ih =>
    unfold parametersFor
    split
    · exact ih
    · exact (adds_typeOf _).after fun _ => ih.after fun _ => adds_pure _

/-- An endpoint adds one function, which has its name. -/
theorem adds_addEndpoint (e : Endpoint) : Adds [e.functionName] (addEndpoint e) := by
  refine (adds_declareGroups _ _).after fun groups => ?_
  refine (adds_addConstant _ _).after fun _ => (adds_addConstant _ _).after fun _ => ?_
  refine (adds_responseTypes _ _).after fun types => ?_
  exact (adds_parametersFor _ _ _).after fun parameters => adds_function rfl

/-- Endpoints add a function each, in order. -/
theorem adds_addEndpoints (endpoints : List Endpoint) :
    Adds (endpoints.map Endpoint.functionName) (addEndpoints endpoints) := by
  induction endpoints with
  | nil => exact adds_pure _
  | cons e rest ih => exact (adds_addEndpoint e).bind fun _ => ih

/-- Declaring the interfaces of a service adds no function. -/
theorem adds_addNames (names : List String) : Adds [] (addNames names) := by
  induction names with
  | nil => exact adds_pure _
  | cons name rest ih => exact (adds_declareFor _).after fun _ => ih

/-- What follows the endpoints adds no function. -/
theorem adds_addApi (api : Api) :
    Adds (api.endpoints.map Endpoint.functionName) (addApi api) := by
  have henums : functionNames (api.enums.map .enumeration) = [] := by
    refine functionNames_of_types fun d hd => ?_
    obtain ⟨e, -, rfl⟩ := List.mem_map.1 hd
    rfl
  have hrest :
      Adds [] (declare (api.enums.map .enumeration) >>= fun _ => addNames api.interfaces) :=
    Adds.after (henums ▸ adds_declare _) fun _ => adds_addNames _
  have hadds := (adds_addEndpoints api.endpoints).bind fun _ => hrest
  rwa [List.append_nil] at hadds

/-- Adding names declares each of them that says something. -/
theorem exists_of_addNames {names : List String} {b b' : Builder} {result : Unit}
    (hr : (addNames names).Runs b result b') {name : String} (hn : name ∈ names)
    (ht : (Shape.reference name).isTrivial b.arena = false) :
    ∃ d ∈ b'.declarations, d.name = name := by
  induction names generalizing b with
  | nil => cases hn
  | cons first rest ih =>
    obtain ⟨_, middle, hfirst, hrest⟩ := runs_bind hr
    obtain ⟨ds, hds, rfl⟩ := runs_declareFor hfirst
    rcases List.mem_cons.1 hn with rfl | hn
    · have hclosed : AreClosed b.arena (fun _ => True) (.reference name) ds :=
        areClosed_declarations (fun _ _ _ _ _ => trivial) (fun _ _ => trivial) hds
      obtain ⟨d, hd, hname⟩ := hclosed.needed name (Or.inl ⟨.whole, ht⟩)
      have hgains := (adds_addNames rest).of_runs hrest
      exact ⟨d, hgains.mem (List.mem_append_right _ hd), hname⟩
    · exact ih hrest hn ht

/-! ### Modules of documents -/

/-- The interfaces of a document that is read are its definitions. -/
theorem interfaces_of_read {document : Json} {api : Api} {warnings : List Warning}
    (h : OpenApi.read document = (.ok api, warnings)) :
    ∃ resolved, Document.dereference document = .ok resolved ∧
      api.interfaces = (Catalog.definitions resolved).map fun entry => identifier entry.1 := by
  unfold OpenApi.read at h
  split at h
  · cases h
  · rename_i resolved view hprepare
    obtain ⟨found, hfound, hview⟩ := ok_of_bind_eq_ok hprepare
    obtain ⟨_, -, hsame⟩ := ok_of_bind_eq_ok hview
    cases hsame
    refine ⟨resolved, hfound, ?_⟩
    generalize hrun : (OpenApi.apiOf resolved view).run.run Catalog.empty = outcome at h
    obtain ⟨result, c⟩ := outcome
    obtain rfl : result = .ok api := congrArg Prod.fst h
    obtain ⟨endpoints, c₁, -, hrest⟩ := ok_of_run_bind_eq_ok hrun
    obtain ⟨interfaces, c₂, hnames, hrest⟩ := ok_of_run_bind_eq_ok hrest
    obtain ⟨_, c₃, -, hapi⟩ := ok_of_run_bind_eq_ok hrest
    cases hnames
    have hapi : _ = api := Except.ok.inj (congrArg Prod.fst hapi)
    rw [← hapi]
    exact Catalog.nameEach_fst resolved _ c₁

/-- A module can be built of a document that is read, unless some shape of it has an empty name,
and building fails at an empty name only. In the module of a document whose endpoints have
different names the functions are those of the endpoints in their order, without those that
have the name of a type in the module. A definition that says something has a declaration of
its name: a type, or the function that has that name. -/
theorem printed_endpoints_and_definitions {document : Json} {api : Api} {warnings : List Warning}
    (h : OpenApi.read document = (.ok api, warnings))
    (names : (api.endpoints.map Endpoint.functionName).Nodup) (options : Options) :
    (HasNames api → ∃ b, (build api options).1 = .ok b) ∧
    (∀ e, (build api options).1 = .error e → e = .emptyPropertyKey) ∧
    ∀ b, (build api options).1 = .ok b →
      functionNames b.printedDeclarations =
        (api.endpoints.map Endpoint.functionName).filter (· ∉ typeNames b.printedDeclarations) ∧
      ∃ resolved, Document.dereference document = .ok resolved ∧
        ∀ entry ∈ Catalog.definitions resolved,
          (Shape.reference (identifier entry.1)).isTrivial (api.types.map options.prepare) = false →
            identifier entry.1 ∈ typeNames b.printedDeclarations ∨
              identifier entry.1 ∈ functionNames b.printedDeclarations := by
  have hadds := adds_addApi api (Builder.start api.types options)
  refine ⟨fun hnames => exists_build_eq_ok hnames options, fun e he => ?_, fun b hb => ?_⟩
  · unfold build at he
    generalize (addApi api).run.run (Builder.start api.types options) = outcome at hadds he
    obtain ⟨_ | ⟨⟩, b⟩ := outcome
    · cases he
      exact hadds
    · cases he
  · unfold build at hb
    generalize hrun : (addApi api).run.run (Builder.start api.types options) = outcome at hadds hb
    obtain ⟨e | ⟨⟩, built⟩ := outcome
    · cases hb
    obtain rfl : built = b := Except.ok.inj hb
    constructor
    · obtain ⟨ds, hds, hfunctions⟩ := hadds.declarations
      have hnames : functionNames built.declarations = api.endpoints.map Endpoint.functionName := by
        rw [hds]
        exact hfunctions
      rw [Builder.printedDeclarations, functionNames_firstByName (hnames ▸ names), hnames]
    · obtain ⟨resolved, hresolved, hinterfaces⟩ := interfaces_of_read h
      refine ⟨resolved, hresolved, fun entry hentry hspeaks => ?_⟩
      obtain ⟨_, middle, hendpoints, hrest⟩ := runs_bind hrun
      obtain ⟨_, before, henums, hnames⟩ := runs_bind hrest
      have hgains := ((adds_addEndpoints api.endpoints).of_runs hendpoints).trans
        ((adds_declare _).of_runs henums)
      have hinterface : identifier entry.1 ∈ api.interfaces :=
        hinterfaces ▸ List.mem_map_of_mem hentry
      obtain ⟨d, hd, hname⟩ :=
        exists_of_addNames hnames hinterface (hgains.arena.isTrivial_eq_false hspeaks)
      obtain ⟨kept, hkept, hkeptname⟩ : ∃ kept ∈ built.printedDeclarations, kept.name = d.name :=
        exists_mem_firstByName hd
      rw [← hname, ← hkeptname]
      exact mem_typeNames_or_functionNames hkept

/-- What is known after a reference to a text that is named `Pet` has been followed. -/
private def petKnown : Catalog := { Catalog.empty with arena := ⟨[("Pet", .string)]⟩ }

/-- Following a reference to a text that is named `Pet`, before anything is known. -/
private theorem shapeOf_petReference {document : Json}
    (htarget : Document.resolve? document "#/definitions/Pet" =
      some (.object [("type", .string "string")]))
    (hlevels : Catalog.levels document = 2) :
    Catalog.shapeOf document (.object [("$ref", .string "#/definitions/Pet")]) Catalog.empty =
      (.reference "Pet", petKnown) := by
  have hpet : Schema.ofJson (.object [("$ref", .string "#/definitions/Pet")]) =
      .reference "#/definitions/Pet" := by
    simp [Schema.ofJson, Json.find?, Json.asString?]
  have htext : Schema.ofJson (.object [("type", .string "string")]) = .scalar .string := by
    rw [Catalog.ofJson_type, Schema.ofKind]
  have hname : Document.targetName "#/definitions/Pet" = "Pet" := rfl
  simp [Catalog.shapeOf, hpet, Catalog.shapeWith, Catalog.followWith, htarget, hname, hlevels,
    Catalog.nameWithin, htext, Catalog.knows, Catalog.empty, Catalog.begin, Catalog.finish,
    Arena.contains, Arena.find?, Arena.empty, Arena.lookup, Arena.define, petKnown]

/-- Two endpoints on one path and a definition that only one of them refers to: there is a
module, every endpoint has its function in it, and the definition has its type. -/
theorem printed_endpoints_and_definitions_pets :
    let pet : Json := .object [("$ref", .string "#/definitions/Pet")]
    let document : Json := .object
      [("swagger", .string "2.0"),
       ("paths", .object [("/pets", .object
         [("post", .object [("operationId", .string "addPet"), ("responses", .object [])]),
          ("get", .object [("operationId", .string "getPet"),
            ("responses", .object [("200", .object [("schema", pet)])])])])]),
       ("definitions", .object [("Pet", .object [("type", .string "string")])])]
    ∃ api b, OpenApi.read document = (.ok api, []) ∧
      (api.endpoints.map Endpoint.functionName).Nodup ∧ HasNames api ∧ (build api {}).1 = .ok b ∧
      functionNames b.printedDeclarations = ["getPet", "addPet"] ∧
      typeNames b.printedDeclarations = ["Pet"] := by
  intro pet document
  let endpoint (method : Method) (name : String) (responses : List Response) : Endpoint :=
    { url := "/pets", method, name := some name, path := some (.object []),
      query := some (.object []), headers := some (.object []), responses }
  have hshape : Catalog.shapeOf document pet Catalog.empty = (.reference "Pet", petKnown) :=
    shapeOf_petReference rfl rfl
  have hnames : Catalog.nameDefinitions document petKnown = (["Pet"], petKnown) := rfl
  -- what is read, in terms of the two walks over schemas
  have hsteps : OpenApi.read document =
      (let answer := Catalog.shapeOf document pet Catalog.empty
       let named := Catalog.nameDefinitions document answer.2
       (.ok ⟨"/", [endpoint .get "getPet" [⟨.code 200, answer.1, none⟩],
          endpoint .post "addPet" []], named.2.enums, named.1, named.2.arena⟩,
        named.2.warnings)) := rfl
  let api : Api := ⟨"/", [endpoint .get "getPet" [⟨.code 200, .reference "Pet", none⟩],
    endpoint .post "addPet" []], [], ["Pet"], petKnown.arena⟩
  have hread : OpenApi.read document = (.ok api, []) := by
    rw [hsteps, hshape]
    simp only [hnames]
    rfl
  have hunique : (api.endpoints.map Endpoint.functionName).Nodup := by decide
  have hgroup : ¬ (Shape.object []).HasEmptyName := by
    rintro ⟨t, ho, hunnamed⟩
    cases ho with
    | whole => exact absurd hunnamed (by simp [Shape.IsUnnamed, Field.keys])
    | value hf _ => cases hf
  have htext : ¬ Shape.string.HasEmptyName := by
    rintro ⟨t, ho, hunnamed⟩
    cases ho
    obtain ⟨value, hvalue, hempty⟩ := hunnamed
    cases hvalue
    cases hempty
  have hnamed : HasNames api := by
    refine ⟨fun entry hentry => ?_, fun e he s hs => ?_⟩
    · rw [List.mem_singleton.1 hentry]
      exact htext
    · have hshapes : s ∈ [Shape.object [], .object [], .object [], .reference "Pet"] := by
        rcases List.mem_cons.1 he with rfl | he
        · exact hs
        · rw [List.mem_singleton.1 he] at hs
          exact List.mem_append_left [Shape.reference "Pet"] hs
      simp only [List.mem_cons, List.not_mem_nil, or_false] at hshapes
      rcases hshapes with rfl | rfl | rfl | rfl
      · exact hgroup
      · exact hgroup
      · exact hgroup
      · exact not_hasEmptyName_reference "Pet"
  obtain ⟨hsucceeds, -, hprinted⟩ := printed_endpoints_and_definitions hread hunique {}
  obtain ⟨b, hb⟩ := hsucceeds hnamed
  have htypes : (build api {}).1.toOption.map (fun b => typeNames b.printedDeclarations) =
      some ["Pet"] := by
    decide +kernel
  rw [hb] at htypes
  have htypes : typeNames b.printedDeclarations = ["Pet"] := Option.some.inj htypes
  obtain ⟨hfunctions, -⟩ := hprinted b hb
  rw [htypes] at hfunctions
  exact ⟨api, b, hread, hunique, hnamed, hb, hfunctions, htypes⟩

/-- An endpoint that answers with the definition that it has the name of: the type is
declared first, and the function is lost. And an endpoint with an example that has an empty
key: there is no module at all. -/
theorem printed_endpoint_is_lost :
    let pet : Json := .object [("$ref", .string "#/definitions/Pet")]
    let answering (name : String) (response : Json) : String × Json :=
      ("paths", .object [("/pets", .object [("get", .object
        [("operationId", .string name), ("responses", .object [("200", response)])])])])
    let document : Json := .object
      [("swagger", .string "2.0"), answering "Pet" (.object [("schema", pet)]),
       ("definitions", .object [("Pet", .object [("type", .string "string")])])]
    let unnamed : Json := .object
      [("swagger", .string "2.0"), answering "getPet" (.object
        [("examples", .object [("application/json", .object [("", .bool true)])])])]
    (∃ api b, OpenApi.read document = (.ok api, []) ∧
      api.endpoints.map Endpoint.functionName = ["Pet"] ∧ (build api {}).1 = .ok b ∧
      functionNames b.printedDeclarations = [] ∧ typeNames b.printedDeclarations = ["Pet"]) ∧
    ∃ api warnings, OpenApi.read unnamed = (.ok api, warnings) ∧
      api.endpoints.map Endpoint.functionName = ["getPet"] ∧ ∀ b, (build api {}).1 ≠ .ok b := by
  intro pet answering document unnamed
  constructor
  · let endpoint (s : Shape) : Endpoint :=
      { url := "/pets", method := .get, name := some "Pet", path := some (.object []),
        query := some (.object []), headers := some (.object []),
        responses := [⟨.code 200, s, none⟩] }
    have hshape : Catalog.shapeOf document pet Catalog.empty = (.reference "Pet", petKnown) :=
      shapeOf_petReference rfl rfl
    have hnames : Catalog.nameDefinitions document petKnown = (["Pet"], petKnown) := rfl
    have hsteps : OpenApi.read document =
        (let answer := Catalog.shapeOf document pet Catalog.empty
         let named := Catalog.nameDefinitions document answer.2
         (.ok ⟨"/", [endpoint answer.1], named.2.enums, named.1, named.2.arena⟩,
          named.2.warnings)) := rfl
    let api : Api := ⟨"/", [endpoint (.reference "Pet")], [], ["Pet"], petKnown.arena⟩
    have hread : OpenApi.read document = (.ok api, []) := by
      rw [hsteps, hshape]
      simp only [hnames]
      rfl
    have hbuilt : (build api {}).1.toOption.map (fun b =>
        (functionNames b.printedDeclarations, typeNames b.printedDeclarations)) =
        some ([], ["Pet"]) := by
      decide +kernel
    obtain ⟨b, hb, hprinted⟩ := Option.map_eq_some_iff.1 hbuilt
    obtain ⟨hfunctions, htypes⟩ := Prod.mk.inj hprinted
    exact ⟨api, b, hread, rfl, eq_ok_of_toOption hb, hfunctions, htypes⟩
  · have hread : (OpenApi.read unnamed).1.toOption.map (fun api =>
        (api.endpoints.map Endpoint.functionName, (build api {}).1.toOption.isSome)) =
        some (["getPet"], false) := by
      decide +kernel
    obtain ⟨api, hapi, hbuilt⟩ := Option.map_eq_some_iff.1 hread
    obtain ⟨hnames, hfails⟩ := Prod.mk.inj hbuilt
    refine ⟨api, _, Prod.ext (eq_ok_of_toOption hapi) rfl, hnames, fun b hb => ?_⟩
    rw [hb] at hfails
    cases hfails

end Module

end TypedClient
