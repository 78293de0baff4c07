import TypedClient.Proofs.Module.Endpoints
import TypedClient.Proofs.Module.Groups

/-!
# Functions and their endpoints

Every function of a module is that of an endpoint. It has a parameter, and its request an
entry, for each group of parameters that says something, and the type of the parameter is a
reference to the group. The type that wraps a response has a reference to its headers. What
such a reference leads to is the group or the headers, made ready, unless its name was given
away before: by the document, which may have a type of that name, or by an earlier response
of the same status.
-/

namespace TypedClient

namespace Module

open TypeScript Building

/-! ### What a function says -/

/-- A type is a reference that leads to a shape. -/
def IsReferenceTo (arena : Arena) (t : TypeNode) (s : Shape) : Prop :=
  ∃ target, t = .named target ∧ arena.Leads (.reference target) s

/-- What the headers of a response stand for: without a description they say nothing. -/
def headerShape (api : Api) (options : Options) (arena : Arena) (e : Endpoint) (r : Response) :
    Shape :=
  match r.header with
  | none => .any
  | some _ => options.prepare (shapeUnder api (headerName e.functionName r.status)
      (firstHeader? options arena e.responses r.status))

/-- A type wraps a response of an endpoint: it has the status, a type for the payload, and a
reference to the headers, or `any` when these say nothing. -/
def Wraps (api : Api) (options : Options) (arena : Arena) (e : Endpoint) (r : Response)
    (t : TypeNode) : Prop :=
  ∃ data header, t = .reference wrapperName (wrapperArguments (statusType r.status) data header) ∧
    if (headerShape api options arena e r).isTrivial arena then header = .any
    else IsReferenceTo arena header (headerShape api options arena e r)

/-- A function is that of an endpoint. -/
structure IsFunctionOf (api : Api) (options : Options) (arena : Arena) (e : Endpoint)
    (f : Function) : Prop where
  /-- It has its name. -/
  name : f.name = e.functionName
  /-- It has a parameter for each group that says something. -/
  groups : ∀ g ∈ groupsOf e, (g.1 ∈ f.parameters.map Parameter.name ↔
    (groupShape api options e.functionName g).isTrivial arena = false)
  /-- The type of the parameter is a reference to the group. -/
  types : ∀ g ∈ groupsOf e, ∀ p ∈ f.parameters, p.name = g.1 →
    IsReferenceTo arena p.type (groupShape api options e.functionName g)
  /-- There are no other parameters, and none comes twice. -/
  order : (f.parameters.map Parameter.name).Sublist ["path", "query", "headers", "body"]
  /-- The request has an entry for each parameter, and the encoding of the body. -/
  request : f.returns = .call senderName
    [.identifier (e.functionName ++ "_url"), .identifier (e.functionName ++ "_method"),
     .object (((["query", "body", "path", "headers"].filter
         (· ∈ f.parameters.map Parameter.name)).map fun key => (key, .identifier key)) ++
       [("bodyType", .literal (.string e.bodyEncoding.word))])]
  /-- It returns the responses whose payload says something, in order. -/
  result : ∃ types, f.returnType = .reference "Promise" [returnedType types] ∧
    List.Forall₂ (Wraps api options arena e) (e.responses.filter (speaks options arena)) types

/-- A relation between lists that implies another for what stands in the first. -/
theorem forall₂_imp_mem {α β : Type} {R R' : α → β → Prop} {l : List α} {l' : List β}
    (h : List.Forall₂ R l l') (himp : ∀ a ∈ l, ∀ b, R a b → R' a b) : List.Forall₂ R' l l' := by
  induction h with
  | nil => exact .nil
  | cons hfirst _ ih =>
    exact .cons (himp _ List.mem_cons_self _ hfirst)
      (ih fun a ha => himp a (List.mem_cons_of_mem _ ha))

/-- A function that is declared while no function is added was declared before. -/
theorem Gains.mem_of_function {b b' : Builder} (h : Gains [] b b') {f : Function}
    (hf : .function f ∈ b'.declarations) : .function f ∈ b.declarations := by
  obtain ⟨ds, hds, hnone⟩ := h.declarations
  rw [hds] at hf
  refine (List.mem_append.1 hf).resolve_right fun hmem => ?_
  have hname : f.name ∈ functionNames ds :=
    List.mem_map_of_mem (List.mem_filter.2 ⟨hmem, rfl⟩)
  rw [hnone] at hname
  cases hname

/-! ### Parameters of a function -/

section Parameters

variable {api : Api} {options : Options} {b b' : Builder} {groups : List Group} {keys : List String}
  {bodyOptional : Bool} {parameters : List TypeScript.Parameter}

/-- There is a parameter for each key of a group, with the type of the group. -/
theorem parameters_of_parametersFor
    (hr : (parametersFor groups bodyOptional keys).Runs b parameters b') :
    b' = b ∧ parameters.map Parameter.name = keys.filter (fun key => (group? groups key).isSome) ∧
      ∀ p ∈ parameters, ∃ kept, group? groups p.name = some kept ∧
        (typeOf kept.shape).Runs b p.type b := by
  induction keys generalizing b parameters with
  | nil =>
    obtain ⟨rfl, rfl⟩ := runs_pure hr
    exact ⟨rfl, rfl, fun _ h => absurd h List.not_mem_nil⟩
  | cons key rest ih =>
    unfold parametersFor at hr
    split at hr
    · rename_i hnone
      rw [List.filter_cons_of_neg (by simp [hnone])]
      exact ih hr
    · rename_i kept hkept
      obtain ⟨type, b₁, htype, hr₁⟩ := runs_bind hr
      obtain ⟨others, b₂, hothers, hr₂⟩ := runs_bind hr₁
      obtain ⟨rfl, rfl⟩ := runs_pure hr₂
      obtain ⟨-, rfl⟩ := runs_typeOf htype
      obtain ⟨rfl, hnames, htypes⟩ := ih hothers
      refine ⟨rfl, ?_, List.forall_mem_cons.2 ⟨⟨kept, hkept, htype⟩, htypes⟩⟩
      rw [List.filter_cons_of_pos (by simp [hkept]), List.map_cons, hnames]

/-- A key is found exactly when a group has it. -/
theorem isSome_group?_iff {key : String} :
    (group? groups key).isSome = true ↔ key ∈ groups.map Group.key := by
  simp [group?, List.find?_isSome]

/-- The entries of a request are those of the groups that are parameters. -/
theorem entries_eq_of_names {names : List String}
    (hnames : names = ["path", "query", "headers", "body"].filter fun key =>
      (group? groups key).isSome) :
    (["query", "body", "path", "headers"].filter fun key => (group? groups key).isSome) =
      ["query", "body", "path", "headers"].filter (· ∈ names) := by
  refine List.filter_congr fun key hkey => ?_
  have hsub : ["query", "body", "path", "headers"] ⊆ ["path", "query", "headers", "body"] := by
    decide
  rw [Bool.eq_iff_iff, decide_eq_true_iff, hnames, List.mem_filter, and_iff_right (hsub hkey)]

/-- The keys of the groups of an endpoint differ. -/
theorem nodup_keys_groupsOf (e : Endpoint) : ((groupsOf e).map Prod.fst).Nodup := by
  change ["path", "body", "query", "headers"].Nodup
  decide

/-- Named groups have the keys of what they are named for. -/
theorem map_key_of_isNamedGroup {function : String} {arena : Arena}
    {shapes : List (String × String × Option Shape)}
    (h : List.Forall₂ (IsNamedGroup api options function arena) shapes groups) :
    groups.map Group.key = shapes.map Prod.fst := by
  induction h with
  | nil => rfl
  | cons first _ ih => rw [List.map_cons, List.map_cons, ih, first.key]

end Parameters

/-! ### The function of an endpoint -/

section Functions

variable {api : Api} {options : Options} {b b' : Builder} {e : Endpoint}

/-- What an endpoint of a closed interface has refers to types. -/
theorem isClosedResponse_of_mem (hclosed : api.IsClosed) (he : e ∈ api.endpoints) {r : Response}
    (hr : r ∈ e.responses) : IsClosedResponse api r := by
  have hmem {s : Shape} (hs : s ∈ r.shape :: r.header.toList) : s ∈ shapesOf e :=
    List.mem_append_right _ (List.mem_flatMap.2 ⟨r, hr, hs⟩)
  refine ⟨hclosed.shapes e he _ (hmem List.mem_cons_self), fun s hs => ?_,
    hclosed.headers e he r hr⟩
  exact hclosed.shapes e he s (hmem (List.mem_cons_of_mem _ (Option.mem_toList.2 hs)))

/-- A group of an endpoint of a closed interface refers to types. -/
theorem refersWithin_of_mem_groupsOf (hclosed : api.IsClosed) (he : e ∈ api.endpoints)
    {g : String × String × Option Shape} (hg : g ∈ groupsOf e) (s : Shape) (hs : g.2.2 = some s) :
    s.RefersWithin (· ∈ api.types.names) :=
  hclosed.shapes e he s (List.mem_append_left _ (List.mem_filterMap.2 ⟨g, hg, hs⟩))

/-- What a group stands for refers to types. -/
theorem refersWithin_groupShape (hclosed : api.IsClosed) (he : e ∈ api.endpoints)
    {g : String × String × Option Shape} (hg : g ∈ groupsOf e) :
    (groupShape api options e.functionName g).RefersWithin (· ∈ api.types.names) :=
  refersWithin_shapeUnder hclosed (refersWithin_of_mem_groupsOf hclosed he hg)

/-- A constant gives no name a shape. -/
theorem settles_addConstant (api : Api) (options : Options) (given : String → Prop)
    (name value : String) :
    Keeps (Settles api options given) (addConstant name value) := by
  intro b result b' hr
  obtain rfl := runs_addConstant hr
  exact ⟨.refl _, fun _ _ => rfl, fun hb => ⟨hb.prepare, hb.within, hb.closed⟩⟩

/-- An endpoint settles the names that it builds. -/
theorem settles_addEndpoint (hclosed : api.IsClosed) (he : e ∈ api.endpoints) {result : Unit}
    (hr : (addEndpoint e).Runs b result b') : Settles api options (Builds e) b b' := by
  have hallows := allows_settles api options (Builds e)
  have hdeclare (ds : List Declaration) : Keeps (Settles api options (Builds e)) (declare ds) := by
    intro b result b' hr
    obtain rfl := runs_declare hr
    exact hallows.declare b ds
  refine (hallows.bind (hallows.declareGroups fun g hg => ⟨.inl ⟨g, hg, rfl⟩, ?_⟩) fun _ =>
    hallows.bind (settles_addConstant _ _ _ _ _) fun _ =>
    hallows.bind (settles_addConstant _ _ _ _ _) fun _ =>
    hallows.bind (hallows.responseTypes fun r hr => ⟨.inr ⟨r, hr, rfl⟩, ?_⟩) fun _ =>
    hallows.bind (hallows.parametersFor _ _ _) fun _ => hdeclare _) b result b' hr
  · exact refersWithin_of_mem_groupsOf hclosed he hg
  · exact (isClosedResponse_of_mem hclosed he hr).header

/-- The groups of an endpoint get different names. -/
theorem pairwise_groupName (function : String) (e : Endpoint) :
    (groupsOf e).Pairwise fun g g' => groupName function g'.2.1 ≠ groupName function g.2.1 := by
  have hendings : ((groupsOf e).map fun g => g.2.1).Nodup := by
    change ["path", "body", "query", "header"].Nodup
    decide
  refine (List.pairwise_map.1 hendings).imp fun {g g'} hne hname => hne ?_
  exact ((String.append_right_inj _).1 hname).symm

/-- In line, as many payloads of an endpoint say something as at first. -/
theorem speaks_eq (hclosed : api.IsClosed) (he : e ∈ api.endpoints) (hb : IsInLine api options b)
    {r : Response} (hr : r ∈ e.responses) :
    speaks options b.arena r = speaks options (startArena api options) r :=
  congrArg not
    (hb.isTrivial_eq (refersWithin_prepare (isClosedResponse_of_mem hclosed he hr).shape))

/-- In line, the headers of a response stand for the same as at first. -/
theorem headerShape_eq (hclosed : api.IsClosed) (he : e ∈ api.endpoints)
    (hb : IsInLine api options b) (r : Response) :
    headerShape api options b.arena e r = headerShape api options (startArena api options) e r := by
  have hfirst (status : Status) : firstHeader? options b.arena e.responses status =
      firstHeader? options (startArena api options) e.responses status := by
    refine congrArg _ (List.filter_congr fun r hr => ?_)
    rw [speaks_eq hclosed he hb hr]
  unfold headerShape
  rw [hfirst]

/-- Headers stand for what refers to types. -/
theorem refersWithin_headerShape (hclosed : api.IsClosed) (he : e ∈ api.endpoints) (arena : Arena)
    (r : Response) : (headerShape api options arena e r).RefersWithin (· ∈ api.types.names) := by
  unfold headerShape
  split
  · exact Shape.everywhere_any.2 nofun
  · refine refersWithin_shapeUnder hclosed fun s hs => ?_
    obtain ⟨r', hr', hheader⟩ := List.exists_of_findSome?_eq_some hs
    exact (isClosedResponse_of_mem hclosed he (List.mem_filter.1 hr').1).header s hheader

/-- What is stored for the headers of a response is what they stand for. -/
theorem eq_headerShape (hclosed : api.IsClosed) (he : e ∈ api.endpoints) {r : Response}
    (hr : r ∈ e.responses) (hspeaks : speaks options (startArena api options) r = true)
    (hheader : r.header ≠ none) {s : Shape}
    (hstored : ((startArena api options).find? (headerName e.functionName r.status)).or
      ((firstHeader? options (startArena api options) e.responses r.status).map
        options.prepare) = some s) :
    s = headerShape api options (startArena api options) e r := by
  have hmem : r ∈ e.responses.filter fun r' =>
      speaks options (startArena api options) r' && r'.status = r.status :=
    List.mem_filter.2 ⟨hr, by simp [hspeaks]⟩
  unfold headerShape
  split
  · contradiction
  · cases hfirst : firstHeader? options (startArena api options) e.responses r.status with
    | none => exact absurd (List.findSome?_eq_none_iff.1 hfirst r hmem) hheader
    | some first =>
      obtain ⟨r', hr', hfound⟩ := List.exists_of_findSome?_eq_some hfirst
      have hdescribed := (isClosedResponse_of_mem hclosed he (List.mem_filter.1 hr').1).described
      have hunder : shapeUnder api (headerName e.functionName r.status) (some first) =
          (api.types.find? (headerName e.functionName r.status)).getD first := by
        unfold shapeUnder
        split
        · rename_i heq
          exact absurd (hfound.trans heq) (hdescribed _)
        · rfl
      rw [hfirst, find?_map] at hstored
      rw [hunder]
      cases hfind : api.types.find? (headerName e.functionName r.status) with
      | none =>
        rw [hfind] at hstored
        exact (Option.some.inj hstored).symm
      | some known =>
        rw [hfind] at hstored
        exact (Option.some.inj hstored).symm

/-- The types of the responses of an endpoint wrap these, in the arena of any later builder. -/
theorem wraps_of_responseTypes (hclosed : api.IsClosed) (he : e ∈ api.endpoints)
    (hb : IsInLine api options b)
    (hfree : ∀ r ∈ e.responses, b.arena.find? (headerName e.functionName r.status) =
      (startArena api options).find? (headerName e.functionName r.status))
    {types : List TypeNode} (hr : (responseTypes e.functionName e.responses).Runs b types b')
    {B : Builder} (hB : IsInLine api options B) (hwithin : b'.arena.IsWithin B.arena) :
    List.Forall₂ (Wraps api options B.arena e) (e.responses.filter (speaks options B.arena))
      types := by
  obtain ⟨htypes, hstored⟩ := wrapped_of_responseTypes hb
    (fun r hr => isClosedResponse_of_mem hclosed he hr) hr
  rw [List.filter_congr fun r hr => speaks_eq hclosed he hB hr]
  refine forall₂_imp_mem htypes fun r hr t hwrapped => ?_
  obtain ⟨hr, hspeaks⟩ := List.mem_filter.1 hr
  obtain ⟨data, header, rfl, hheader⟩ := hwrapped
  refine ⟨data, header, rfl, ?_⟩
  rw [hB.isTrivial_eq (refersWithin_headerShape hclosed he _ r), headerShape_eq hclosed he hB]
  cases hsome : r.header with
  | none =>
    rw [hsome] at hheader
    have hany : headerShape api options (startArena api options) e r = .any := by
      rw [headerShape, hsome]
    rw [hany, if_pos (by rw [Shape.isTrivial])]
    exact hheader
  | some described =>
    rw [hsome] at hheader
    obtain ⟨s, hs, rfl⟩ := hheader
    have hequal : s = headerShape api options (startArena api options) e r := by
      refine eq_headerShape hclosed he hr hspeaks (by simp [hsome]) ?_
      rw [← hfree r hr, ← hstored, hs]
    rw [← hequal]
    split
    · rfl
    · exact ⟨_, rfl, Or.inr ⟨_, rfl, hwithin _ _ hs⟩⟩

/-- A group of an endpoint is kept exactly when what it stands for says something. -/
theorem mem_keys_iff (hclosed : api.IsClosed) (he : e ∈ api.endpoints)
    (hb : IsInLine api options b) {arena : Arena} {groups : List Group}
    (hgroups : List.Forall₂ (IsNamedGroup api options e.functionName arena)
      ((groupsOf e).filter fun g =>
        !(groupShape api options e.functionName g).isTrivial (startArena api options)) groups)
    {g : String × String × Option Shape} (hg : g ∈ groupsOf e) :
    g.1 ∈ groups.map Group.key ↔
      (groupShape api options e.functionName g).isTrivial b.arena = false := by
  rw [map_key_of_isNamedGroup hgroups, hb.isTrivial_eq (refersWithin_groupShape hclosed he hg)]
  constructor
  · intro h
    obtain ⟨g', hg', hkey⟩ := List.mem_map.1 h
    obtain ⟨hmem, hspeaks⟩ := List.mem_filter.1 hg'
    obtain rfl := List.inj_on_of_nodup_map (nodup_keys_groupsOf e) hmem hg hkey
    simpa using hspeaks
  · intro h
    exact List.mem_map_of_mem (List.mem_filter.2 ⟨hg, by simpa using h⟩)

/-- The type of a group that is kept is a reference to what the group stands for. -/
theorem isReferenceTo_of_group? (hclosed : api.IsClosed) (he : e ∈ api.endpoints)
    (hb : IsInLine api options b) {arena : Arena} {groups : List Group}
    (hwithin : arena.IsWithin b.arena)
    (hgroups : List.Forall₂ (IsNamedGroup api options e.functionName arena)
      ((groupsOf e).filter fun g =>
        !(groupShape api options e.functionName g).isTrivial (startArena api options)) groups)
    {g : String × String × Option Shape} (hg : g ∈ groupsOf e) {kept : Group}
    (hkept : group? groups g.1 = some kept) {t : TypeNode}
    (hr : (typeOf kept.shape).Runs b t b) :
    IsReferenceTo b.arena t (groupShape api options e.functionName g) := by
  obtain ⟨g', hg', hnamed⟩ := exists_of_mem_forall₂ hgroups (List.mem_of_find?_eq_some hkept)
  obtain ⟨hmem, hspeaks⟩ := List.mem_filter.1 hg'
  have hkey : kept.key = g.1 := by simpa using List.find?_some hkept
  obtain rfl := List.inj_on_of_nodup_map (nodup_keys_groupsOf e) hmem hg
    (hnamed.key.symm.trans hkey)
  obtain ⟨target, htarget⟩ := hnamed.reference
  have hleads := hnamed.leads.mono hwithin
  rw [htarget] at hr hleads
  refine ⟨target, (eq_named_of_runs_typeOf ?_ hr).1, hleads⟩
  rw [hleads.isTrivial_eq, hb.isTrivial_eq (refersWithin_groupShape hclosed he hg)]
  simpa using hspeaks

/-- The function that an endpoint adds is its own, in the arena of any later builder. -/
theorem function_of_addEndpoint (hclosed : api.IsClosed) (he : e ∈ api.endpoints)
    (hb : IsInLine api options b)
    (hfree : ∀ name, Builds e name → b.arena.find? name = (startArena api options).find? name)
    {result : Unit} (hr : (addEndpoint e).Runs b result b') {f : Function}
    (hf : .function f ∈ b'.declarations) :
    .function f ∈ b.declarations ∨ ∀ B, IsInLine api options B → b'.arena.IsWithin B.arena →
      IsFunctionOf api options B.arena e f := by
  obtain ⟨groups, b₁, hgroups, hr₁⟩ := runs_bind hr
  obtain ⟨_, b₂, hurl, hr₂⟩ := runs_bind hr₁
  obtain ⟨_, b₃, hmethod, hr₃⟩ := runs_bind hr₂
  obtain ⟨types, b₄, htypes, hr₄⟩ := runs_bind hr₃
  obtain ⟨parameters, b₅, hparameters, hdeclare⟩ := runs_bind hr₄
  have hgains := ((((adds_declareGroups _ _).of_runs hgroups).trans
    ((adds_addConstant _ _).of_runs hurl)).trans ((adds_addConstant _ _).of_runs hmethod)).trans
    ((adds_responseTypes _ _).of_runs htypes)
  obtain ⟨rfl, hnames, hkinds⟩ := parameters_of_parametersFor hparameters
  obtain rfl := runs_declare hdeclare
  rcases List.mem_append.1 hf with hf | hf
  · exact Or.inl (hgains.mem_of_function hf)
  · obtain rfl := Declaration.function.inj (List.mem_singleton.1 hf)
    right
    intro B hB hwithin
    -- what the groups leave behind
    have hsettles := (allows_settles api options
        (fun name => ∃ g ∈ groupsOf e, name = groupName e.functionName g.2.1)).declareGroups
      (fun g hg => ⟨⟨g, hg, rfl⟩, refersWithin_of_mem_groupsOf hclosed he hg⟩) _ _ _ hgroups
    have hnamed := groups_of_declareGroups hclosed hb
      (fun g hg => refersWithin_of_mem_groupsOf hclosed he hg) (pairwise_groupName _ e)
      (fun g hg => hfree _ (.inl ⟨g, hg, rfl⟩)) hgroups
    -- the constants
    have hurl := settles_addConstant api options (fun _ => False) _ _ _ _ _ hurl
    have hmethod := settles_addConstant api options (fun _ => False) _ _ _ _ _ hmethod
    have hb₃ := hmethod.inLine (hurl.inLine (hsettles.inLine hb))
    -- and the responses
    have hlater := (allows_settles api options (fun _ => True)).responseTypes
      (fun r hr => ⟨trivial, (isClosedResponse_of_mem hclosed he hr).header⟩) _ _ _ htypes
    have hb₅ := hlater.inLine hb₃
    have hwithin₅ := (hurl.within.trans hmethod.within).trans hlater.within
    have hkeys (key : String) : key ∈ parameters.map Parameter.name ↔
        key ∈ ["path", "query", "headers", "body"] ∧ key ∈ groups.map Group.key := by
      rw [hnames, List.mem_filter, isSome_group?_iff]
    have hgroupkeys : ∀ g ∈ groupsOf e, g.1 ∈ ["path", "query", "headers", "body"] := by
      intro g hg
      have hsub : ["path", "body", "query", "headers"] ⊆ ["path", "query", "headers", "body"] := by
        decide
      exact hsub (List.mem_map_of_mem (f := Prod.fst) hg)
    have hentries := entries_eq_of_names hnames
    refine ⟨rfl, fun g hg => ?_, fun g hg p hp hname => ?_, ?_, ?_, types, rfl, ?_⟩
    · rw [hkeys, mem_keys_iff hclosed he hB hnamed hg]
      exact and_iff_right (hgroupkeys g hg)
    · obtain ⟨kept, hkept, htype⟩ := hkinds p hp
      obtain ⟨target, ht, hleads⟩ := isReferenceTo_of_group? hclosed he hb₅ hwithin₅ hnamed hg
        (hname ▸ hkept) htype
      exact ⟨target, ht, hleads.mono hwithin⟩
    · change (parameters.map Parameter.name).Sublist _
      rw [hnames]
      exact List.filter_sublist
    · simp only [requestFor, hentries]
    · refine wraps_of_responseTypes hclosed he hb₃ (fun r hr => ?_) htypes hB hwithin
      have hnone : ¬ ∃ g ∈ groupsOf e,
          headerName e.functionName r.status = groupName e.functionName g.2.1 := by
        rintro ⟨g, hg, hname⟩
        exact groupName_ne_headerName (underscore_not_mem_ending hg) hname.symm
      rw [hmethod.others _ not_false, hurl.others _ not_false, hsettles.others _ hnone]
      exact hfree _ (.inr ⟨r, hr, rfl⟩)

/-- Endpoints leave a builder in line. -/
theorem isInLine_addEndpoints (hclosed : api.IsClosed) {endpoints : List Endpoint}
    (hmem : ∀ e ∈ endpoints, e ∈ api.endpoints) (hb : IsInLine api options b) {result : Unit}
    (hr : (addEndpoints endpoints).Runs b result b') : IsInLine api options b' := by
  induction endpoints generalizing b with
  | nil =>
    obtain ⟨-, rfl⟩ := runs_pure hr
    exact hb
  | cons e rest ih =>
    obtain ⟨hfirst, hrest⟩ := List.forall_mem_cons.1 hmem
    obtain ⟨_, b₁, hadd, hothers⟩ := runs_bind hr
    exact ih hrest ((settles_addEndpoint hclosed hfirst hadd).inLine hb) hothers

/-- The functions that endpoints add are their own, when no two have one name. -/
theorem functions_of_addEndpoints (hclosed : api.IsClosed) {endpoints : List Endpoint}
    (hmem : ∀ e ∈ endpoints, e ∈ api.endpoints)
    (names : (endpoints.map Endpoint.functionName).Nodup) (hb : IsInLine api options b)
    (hfree : ∀ e ∈ endpoints, ∀ name, Builds e name →
      b.arena.find? name = (startArena api options).find? name)
    {result : Unit} (hr : (addEndpoints endpoints).Runs b result b') {f : Function}
    (hf : .function f ∈ b'.declarations) :
    .function f ∈ b.declarations ∨ ∃ e ∈ endpoints, ∀ B, IsInLine api options B →
      b'.arena.IsWithin B.arena → IsFunctionOf api options B.arena e f := by
  induction endpoints generalizing b with
  | nil =>
    obtain ⟨-, rfl⟩ := runs_pure hr
    exact Or.inl hf
  | cons e rest ih =>
    obtain ⟨hfirst, hrest⟩ := List.forall_mem_cons.1 hmem
    obtain ⟨hfreefirst, hfreerest⟩ := List.forall_mem_cons.1 hfree
    obtain ⟨hnew, hnames⟩ := List.nodup_cons.1 names
    obtain ⟨_, b₁, hadd, hothers⟩ := runs_bind hr
    have hsettles : Settles api options (Builds e) b b₁ := settles_addEndpoint hclosed hfirst hadd
    have hlater := (adds_addEndpoints rest).of_runs hothers
    have hkept : ∀ e' ∈ rest, ∀ name, Builds e' name →
        b₁.arena.find? name = (startArena api options).find? name := by
      intro e' he' name hbuilds
      refine (hsettles.others name fun hfirst => hnew ?_).trans (hfreerest e' he' name hbuilds)
      rw [functionName_eq_of_builds hfirst hbuilds]
      exact List.mem_map_of_mem he'
    rcases ih hrest hnames (hsettles.inLine hb) hkept hothers with hf | ⟨e', he', hown⟩
    · refine (function_of_addEndpoint hclosed hfirst hb hfreefirst hadd hf).imp_right fun hown => ?_
      exact ⟨e, List.mem_cons_self, fun B hB hwithin => hown B hB (hlater.arena.trans hwithin)⟩
    · exact Or.inr ⟨e', List.mem_cons_of_mem _ he', hown⟩

/-- The builder that a module is begun with is in line. -/
theorem isInLine_start (hclosed : api.IsClosed) (options : Options) :
    IsInLine api options (Builder.start api.types options) := by
  refine ⟨rfl, .refl _, fun name s hname => ?_⟩
  change (startArena api options).find? name = some s at hname
  rw [find?_map] at hname
  obtain ⟨original, horiginal, rfl⟩ := Option.map_eq_some_iff.1 hname
  exact refersWithin_prepare (hclosed.types _ (Arena.mem_of_lookup_eq_some horiginal))

end Functions

/-- Every function of the module of a document whose endpoints have different names is that of
an endpoint. It has a parameter, and its request an entry, for each group of the endpoint
that says something, of a type that leads to the group; and the types of its responses have
references that lead to their headers. -/
theorem functions_of_endpoints {document : Json} {api : Api} {warnings : List Warning}
    (h : OpenApi.read document = (.ok api, warnings))
    (names : (api.endpoints.map Endpoint.functionName).Nodup) {options : Options} {b : Builder}
    (hbuilt : (build api options).1 = .ok b) {f : Function}
    (hf : .function f ∈ b.printedDeclarations) :
    ∃ e ∈ api.endpoints, IsFunctionOf api options b.arena e f := by
  have hclosed := OpenApi.isClosed_of_read h
  have hrun := runs_of_build (Prod.ext hbuilt rfl)
  obtain ⟨_, b₁, hendpoints, hr₁⟩ := runs_bind hrun
  obtain ⟨_, b₂, henums, hnames⟩ := runs_bind hr₁
  have hstart := isInLine_start hclosed options
  have hf₂ := ((adds_addNames _).of_runs hnames).mem_of_function (mem_of_mem_firstByName hf)
  have hafter := (allows_settles api options (fun _ => True)).addNames _ _ _ _ hnames
  obtain rfl := runs_declare henums
  have hf₁ : .function f ∈ b₁.declarations := by
    refine (List.mem_append.1 hf₂).resolve_right fun hmem => ?_
    obtain ⟨e, -, he⟩ := List.mem_map.1 hmem
    cases he
  have hb₁ := isInLine_addEndpoints hclosed (fun _ he => he) hstart hendpoints
  have hb : IsInLine api options b := hafter.inLine ⟨hb₁.prepare, hb₁.within, hb₁.closed⟩
  rcases functions_of_addEndpoints hclosed (fun _ he => he) names hstart (fun _ _ _ _ => rfl)
    hendpoints hf₁ with hnone | ⟨e, he, hown⟩
  · exact absurd hnone List.not_mem_nil
  · exact ⟨e, he, hown b hb hafter.within⟩

/-! ### Names that are given away -/

/-- A document with two operations that have a parameter each. It has a type of the name that
is built for the query of the first, which has two keys for one status besides. -/
def petDocument : Json :=
  let text : Json := .object [("type", .string "string")]
  let limit : Json := .object
    [("name", .string "limit"), ("in", .string "query"), ("type", .string "string")]
  let response (header : String) : Json := .object
    [("examples", .object [("application/json", .string "")]),
     ("headers", .object [(header, text)])]
  .object
    [("swagger", .string "2.0"),
     ("paths", .object [("/pet", .object
       [("get", .object [("operationId", .string "getPet"), ("parameters", .array [limit]),
          ("responses", .object [("200", response "A"), ("+200", response "B")])]),
        ("post", .object [("operationId", .string "addPet"), ("parameters", .array [limit]),
          ("responses", .object [("200", response "C")])])])]),
     ("definitions", .object [("getPet_parameter_query", text)])]

/-- An endpoint with a parameter of the query, whose responses have one status and a header
each. -/
def petEndpoint (method : Method) (name : String) (limit : Shape)
    (headers : List (String × Shape)) : Endpoint where
  url := "/pet"
  method := method
  name := some name
  path := some (.object [])
  query := some (.object [{ Field.named "limit" limit with optional := true }])
  headers := some (.object [])
  responses := headers.map fun h =>
    ⟨.code 200, .infer (.string ""), some (.object [Field.named h.1 h.2])⟩

/-- What the document describes. -/
def petApi : Api where
  baseUrl := "/"
  endpoints := [petEndpoint .get "getPet" .string [("A", .string), ("B", .string)],
    petEndpoint .post "addPet" .string [("C", .string)]]
  enums := []
  interfaces := ["getPet_parameter_query"]
  types := ⟨[("getPet_parameter_query", .string)]⟩

/-- The document is read as said. -/
theorem read_petDocument : OpenApi.read petDocument = (.ok petApi, []) := by
  have htext : Schema.ofJson (.object [("type", .string "string")]) = .scalar .string := by
    rw [Catalog.ofJson_type, Schema.ofKind]
  have hshape (c : Catalog) :
      Catalog.shapeOf petDocument (.object [("type", .string "string")]) c = (.string, c) := by
    rw [Catalog.shapeOf, htext, Catalog.shapeWith]
  have hnames : Catalog.nameDefinitions petDocument Catalog.empty =
      (["getPet_parameter_query"], { Catalog.empty with arena := petApi.types }) := by
    have hdefinitions : Catalog.definitions petDocument =
        [("getPet_parameter_query", .object [("type", .string "string")])] := rfl
    have hname : identifier "getPet_parameter_query" = "getPet_parameter_query" := by decide
    have hlevels : Catalog.levels petDocument = 1 := rfl
    simp [Catalog.nameDefinitions, hdefinitions, Catalog.nameEach, hname, hlevels,
      Catalog.nameWithin, htext, Catalog.shapeWith, Catalog.knows, Catalog.empty, Catalog.begin,
      Catalog.finish, Arena.contains, Arena.find?, Arena.empty, Arena.lookup, Arena.define, petApi]
  -- what is read, in terms of the walks over schemas
  have hsteps : OpenApi.read petDocument =
      (let shape := Catalog.shapeOf petDocument (.object [("type", .string "string")])
       let a := shape Catalog.empty
       let b := shape a.2
       let q := shape b.2
       let c := shape q.2
       let p := shape c.2
       let named := Catalog.nameDefinitions petDocument p.2
       (.ok ⟨"/", [petEndpoint .get "getPet" q.1 [("A", a.1), ("B", b.1)],
          petEndpoint .post "addPet" p.1 [("C", c.1)]], named.2.enums, named.1, named.2.arena⟩,
        named.2.warnings)) := rfl
  rw [hsteps]
  simp only [hshape, hnames]
  rfl

/-- The name of a function, the text of the type of its result, and the names and texts of the
types of its parameters. -/
def signature? : Declaration → Option (List String)
  | .function f =>
    some (f.name :: f.returnType.text :: f.parameters.flatMap fun p => [p.name, p.type.text])
  | _ => none

/-- A function of a signature is among declarations. -/
theorem exists_of_signature? {ds : List Declaration} {signature : List String}
    (h : signature ∈ ds.filterMap signature?) : ∃ f, .function f ∈ ds ∧
      f.name :: f.returnType.text :: (f.parameters.flatMap fun p => [p.name, p.type.text]) =
        signature := by
  obtain ⟨d, hd, hsignature⟩ := List.mem_filterMap.1 h
  cases d with
  | function f => exact ⟨f, hd, Option.some.inj hsignature⟩
  | _ => cases hsignature

/-- The module of the document has the function of the second operation. -/
theorem functions_of_endpoints_pet :
    OpenApi.read petDocument = (.ok petApi, []) ∧
      (petApi.endpoints.map Endpoint.functionName).Nodup ∧
      ∃ b f, (build petApi {}).1 = .ok b ∧ .function f ∈ b.printedDeclarations ∧
        f.name = "addPet" ∧
        f.returnType.text = "Promise<_Response<200, string, addPet_response_header_200>>" ∧
        ∃ e ∈ petApi.endpoints, IsFunctionOf petApi {} b.arena e f := by
  have names : (petApi.endpoints.map Endpoint.functionName).Nodup := by decide
  have hfacts : (build petApi {}).1.toOption.map (fun b =>
      (b.printedDeclarations.filterMap signature?)[1]?) =
      some (some ["addPet", "Promise<_Response<200, string, addPet_response_header_200>>",
        "query", "addPet_parameter_query"]) := by
    decide +kernel
  obtain ⟨b, hb, hsignature⟩ := Option.map_eq_some_iff.1 hfacts
  obtain ⟨f, hf, hfunction⟩ := exists_of_signature? (List.mem_of_getElem? hsignature)
  obtain ⟨hname, hrest⟩ := List.cons.inj hfunction
  have hbuilt := eq_ok_of_toOption hb
  exact ⟨read_petDocument, names, b, f, hbuilt, hf, hname, (List.cons.inj hrest).1,
    functions_of_endpoints read_petDocument names hbuilt hf⟩

/-- The parameter of the first operation has the type of the document, and does not lead to
what the operation has in its query; and both responses have the headers of the first. -/
theorem function_has_foreign_types :
    ∃ b e query f, OpenApi.read petDocument = (.ok petApi, []) ∧
      (petApi.endpoints.map Endpoint.functionName).Nodup ∧ (build petApi {}).1 = .ok b ∧
      e ∈ petApi.endpoints ∧ .function f ∈ b.printedDeclarations ∧ f.name = e.functionName ∧
      e.query = some query ∧ (({} : Options).prepare query).isTrivial b.arena = false ∧
      (∃ p ∈ f.parameters, p.name = "query" ∧
        ¬ IsReferenceTo b.arena p.type (({} : Options).prepare query)) ∧
      e.responses.map (fun r => r.header.map fun s => s.fields?.map Field.keys) =
        [some (some [.named "A"]), some (some [.named "B"])] ∧
      f.returnType.text = "Promise<_Response<200, string, getPet_response_header_200> | " ++
        "_Response<200, string, getPet_response_header_200>>" ∧
      (b.arena.find? "getPet_response_header_200").map (fun s => s.fields?.map Field.keys) =
        some (some [.named "A"]) := by
  let query : Shape := .object [{ Field.named "limit" .string with optional := true }]
  have hprepared : ({} : Options).prepare query = query := rfl
  have hfacts : (build petApi {}).1.toOption.map (fun b =>
      ((b.printedDeclarations.filterMap signature?)[0]?,
        (b.arena.find? "getPet_parameter_query").map Shape.isObject,
        (b.arena.find? "getPet_response_header_200").map fun s => s.fields?.map Field.keys)) =
      some (some ["getPet", "Promise<_Response<200, string, getPet_response_header_200> | " ++
        "_Response<200, string, getPet_response_header_200>>", "query", "getPet_parameter_query"],
        some false, some (some [.named "A"])) := by
    decide +kernel
  obtain ⟨b, hb, hfacts⟩ := Option.map_eq_some_iff.1 hfacts
  obtain ⟨hsignature, hfacts⟩ := Prod.mk.inj hfacts
  obtain ⟨hforeign, hheader⟩ := Prod.mk.inj hfacts
  obtain ⟨f, hf, hfunction⟩ := exists_of_signature? (List.mem_of_getElem? hsignature)
  obtain ⟨hname, hrest⟩ := List.cons.inj hfunction
  obtain ⟨hresult, hparameters⟩ := List.cons.inj hrest
  obtain ⟨p, hp, hkey, htype⟩ : ∃ p ∈ f.parameters, p.name = "query" ∧
      p.type.text = "getPet_parameter_query" := by
    cases hlist : f.parameters with
    | nil =>
      rw [hlist] at hparameters
      cases hparameters
    | cons p rest =>
      rw [hlist] at hparameters
      obtain ⟨hkey, hrest⟩ := List.cons.inj hparameters
      exact ⟨p, List.mem_cons_self, hkey, (List.cons.inj hrest).1⟩
  refine ⟨b, _, query, f, read_petDocument, by decide, eq_ok_of_toOption hb, List.mem_cons_self,
    hf, hname, rfl, ?_, ⟨p, hp, hkey, ?_⟩, rfl, hresult, hheader⟩
  · rw [hprepared, Shape.isTrivial]
    rfl
  · rintro ⟨target, ht, hleads⟩
    obtain rfl : target = "getPet_parameter_query" := by
      rw [← htype, ht]
      rfl
    rcases hleads with hsame | ⟨name, hname, hfind⟩
    · cases hsame
    · obtain rfl := Shape.reference.inj hname
      rw [hfind] at hforeign
      cases hforeign

end Module

end TypedClient
