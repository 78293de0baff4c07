import TypedClient.Proofs.OpenApi.References
import TypedClient.Proofs.OpenApi.Texts
import TypedClient.Proofs.Schema.Texts

/-!
# Texts of an interface

Whatever a document describes is described with texts of the document. The shapes of an endpoint
are made of the parameters, schemas, headers and examples that are read for it, its documentation
is read, and the shapes that have names are those of parts of the document. All names are
identifiers.
-/

namespace TypedClient

/-- The texts of an endpoint are allowed: its path, its documentation and those in its shapes.
The name of its function has characters of identifiers. -/
structure Endpoint.IsWrittenWith (allowed : String → Prop) (e : Endpoint) : Prop where
  /-- The path. -/
  url : allowed e.url
  /-- The name of the function. -/
  name : HasIdentifierChars e.functionName
  /-- The parameters, payloads and headers. -/
  shapes : ∀ s ∈ Module.shapesOf e, s.IsWrittenWith allowed
  /-- The short text. -/
  summary : ∀ text, e.doc.summary = some text → allowed text
  /-- The longer text. -/
  description : ∀ text, e.doc.description = some text → allowed text
  /-- Where more is written. -/
  see : ∀ text, e.doc.see = some text → allowed text

/-- The texts of an interface are allowed, and its names have characters of identifiers. -/
structure Api.IsWrittenWith (allowed : String → Prop) (api : Api) : Prop where
  /-- The endpoints. -/
  endpoints : ∀ e ∈ api.endpoints, e.IsWrittenWith allowed
  /-- The enumerations. -/
  enums : ∀ e ∈ api.enums, e.IsWrittenWith allowed
  /-- The names to be declared. -/
  interfaces : ∀ name ∈ api.interfaces, HasIdentifierChars name
  /-- The named shapes. -/
  types : ∀ entry ∈ api.types.entries,
    HasIdentifierChars entry.1 ∧ entry.2.IsWrittenWith allowed

namespace OpenApi

open Catalog

section Steps

variable {allowed : String → Prop} {document : Json}

/-- The shape of a schema is written with its texts and those of the document. -/
theorem written_shapeOf (hlines : AllowsLines allowed) (hdocument : document.IsWrittenWith allowed)
    {schema : Json} (h : schema.IsWrittenWith allowed) :
    Fills document (fun _ s => s.IsWrittenWith allowed) (shapeOf document schema) := by
  intro c hc hstack
  obtain ⟨hadvances, hrenders⟩ := ensures_shapeOf (isScope_isNameOf document)
    (fun _ _ _ htarget => .reference htarget rfl) c hc hstack
  refine ⟨hadvances, fun s hs _ _ => ?_⟩
  cases hs
  exact hrenders.isWrittenWith
    (fun e he => (hadvances.sound.correlated e he).isWrittenWith hdocument)
    (Schema.isWrittenWith_ofJson hlines h)

/-- The object of one location is written with the texts of the parameters. -/
theorem written_groupAt (hlines : AllowsLines allowed) (hdocument : document.IsWrittenWith allowed)
    {parameters : List Parameter} (h : ∀ p ∈ parameters, p.IsWrittenWith allowed)
    (location : Location) :
    Fills document (fun _ s => s.IsWrittenWith allowed)
      (groupAt document parameters location) := by
  refine Fills.bind_of (fills_fieldsOf
    (Q := fun _ f => f.IsWrittenWith allowed ∧ f.value.IsWrittenWith allowed) fun p hp => ?_)
    fun fields hfields => fills_pure fun _ => Shape.isWrittenWith_ofFields hfields
  have hp := h p (List.mem_of_mem_filter hp)
  refine (written_shapeOf hlines hdocument hp.rest).bind_of fun s hs => fills_pure fun _ => ?_
  exact ⟨⟨fun name hname => Key.named.inj hname ▸ hp.name, hp.description, hp.default⟩, hs⟩

/-- The body of a request is written with the texts of the parameters. -/
theorem written_bodyOf (hlines : AllowsLines allowed) (hdocument : document.IsWrittenWith allowed)
    {parameters : List Parameter} (h : ∀ p ∈ parameters, p.IsWrittenWith allowed)
    (encoding : Encoding) :
    Fills document (fun _ body => ∀ s, body.1 = some s → s.IsWrittenWith allowed)
      (bodyOf document parameters encoding) := by
  have hsome : ∀ {s : Shape} {optional : Bool}, s.IsWrittenWith allowed →
      ∀ s', (some s, optional).1 = some s' → s'.IsWrittenWith allowed := by
    rintro s optional hs _ ⟨⟩
    exact hs
  cases encoding with
  | form =>
    exact (written_groupAt hlines hdocument h _).bind_of fun s hs => fills_pure fun _ => hsome hs
  | json =>
    unfold bodyOf
    cases hp : bodyParameter? parameters with
    | none => exact fills_pure fun _ => nofun
    | some p =>
      have hp := h p (List.mem_of_mem_filter (List.mem_of_getLast? hp))
      dsimp only
      cases hschema : p.schema with
      | none => exact fills_pure fun _ => hsome Shape.isWrittenWith_any
      | some schema =>
        exact (written_shapeOf hlines hdocument (hp.schema schema hschema)).bind_of
          fun s hs => fills_pure fun _ => hsome hs

/-- The object of response headers is written with the texts of the headers. -/
theorem written_headerGroup (hlines : AllowsLines allowed)
    (hdocument : document.IsWrittenWith allowed) {headers : List (String × Json)}
    (h : (Json.object headers).IsWrittenWith allowed) :
    Fills document (fun _ header => ∀ s, header = some s → s.IsWrittenWith allowed)
      (headerGroup document headers) := by
  unfold headerGroup
  split
  · exact fills_pure fun _ => nofun
  · refine Fills.bind_of (fills_fieldsOf
      (Q := fun _ f => f.IsWrittenWith allowed ∧ f.value.IsWrittenWith allowed)
      fun header hheader => ?_) fun fields hfields => fills_pure fun _ s hs => ?_
    · obtain ⟨hname, hvalue⟩ := Json.isWrittenWith_object.1 h header hheader
      refine (written_shapeOf hlines hdocument hvalue).bind_of fun s hs => fills_pure fun _ => ?_
      exact ⟨⟨fun name he => Key.named.inj he ▸ hname, Schema.allowed_of_description? hvalue,
        nofun⟩, hs⟩
    · cases hs
      exact Shape.isWrittenWith_ofFields hfields

/-- The payload and the headers of a response are written with allowed texts. -/
def IsWrittenResponse (allowed : String → Prop) (r : Response) : Prop :=
  r.shape.IsWrittenWith allowed ∧ ∀ s, r.header = some s → s.IsWrittenWith allowed

theorem written_responseOf (hlines : AllowsLines allowed)
    (hdocument : document.IsWrittenWith allowed) (status : Status) {node : ResponseNode}
    (h : node.IsWrittenWith allowed) :
    Fills document (fun _ => IsWrittenResponse allowed) (responseOf document status node) := by
  have hrest (shape : Shape) (hshape : shape.IsWrittenWith allowed) :
      Fills document (fun _ => IsWrittenResponse allowed) do
        let header ← headerGroup document node.headers
        return (⟨status, shape, header⟩ : Response) :=
    (written_headerGroup hlines hdocument h.headers).bind_of
      fun header hheader => fills_pure fun _ => ⟨hshape, hheader⟩
  unfold responseOf
  split
  · rename_i schema hschema
    exact (written_shapeOf hlines hdocument (h.schema schema hschema)).bind_of hrest
  · rename_i sample _ hsample
    exact (fills_pure fun _ => Shape.isWrittenWith_infer hlines (h.examples.find? hsample)).bind_of
      hrest
  · exact (fills_pure fun _ => Shape.isWrittenWith_any).bind_of hrest

/-- A parameter of an operation is its own or one of the path. -/
theorem mem_or_of_mem_effectiveParameters {shared own : List Parameter} {p : Parameter}
    (h : p ∈ effectiveParameters shared own) : p ∈ shared ∨ p ∈ own :=
  (List.mem_append.1 h).imp_left List.mem_of_mem_filter

/-- The documentation of an endpoint is that of the operation. -/
theorem written_docOf {operation : Operation} (h : operation.IsWrittenWith allowed) :
    (∀ text, (docOf operation).description = some text → allowed text) ∧
      ∀ text, (docOf operation).see = some text → allowed text := by
  have hdocs : ∀ {get : ExternalDocs → Option String} {text : String},
      operation.externalDocs.bind get = some text →
      (∀ docs : ExternalDocs, docs.IsWrittenWith allowed → get docs = some text → allowed text) →
      allowed text := by
    intro get text htext hallowed
    obtain ⟨docs, hdocs, hget⟩ := Option.bind_eq_some_iff.1 htext
    exact hallowed docs (h.externalDocs docs hdocs) hget
  refine ⟨fun text htext => ?_, fun text htext => hdocs htext fun docs hdocs => hdocs.url text⟩
  rcases Option.or_eq_some_iff.1 htext with htext | ⟨-, htext⟩
  · exact h.description text htext
  · exact hdocs htext fun docs hdocs => hdocs.description text

/-- An endpoint is written with the texts of its path, its parameters and its operation. -/
theorem written_endpointOf (hlines : AllowsLines allowed)
    (hdocument : document.IsWrittenWith allowed) {url : String} (hurl : allowed url)
    (method : Method) (pointer : String) {shared : List Parameter} {operation : Operation}
    (hshared : ∀ p ∈ shared, p.IsWrittenWith allowed) (h : operation.IsWrittenWith allowed) :
    Fills document (fun _ e => e.IsWrittenWith allowed)
      (endpointOf document url method shared operation pointer) := by
  have hparameters : ∀ p ∈ effectiveParameters shared operation.parameters,
      p.IsWrittenWith allowed := fun p hp =>
    (mem_or_of_mem_effectiveParameters hp).elim (hshared p) (h.parameters p)
  have hgroup := written_groupAt hlines hdocument hparameters
  refine (written_bodyOf hlines hdocument hparameters _).bind_of fun body hbody => ?_
  refine Fills.bind_of (fills_responsesOf (Q := fun _ => IsWrittenResponse allowed) pointer
    fun entry hentry status node hnode => ?_) fun responses hresponses => ?_
  · have hentry := (Json.isWrittenWith_object.1 h.responses entry hentry).2
    exact written_responseOf hlines hdocument status (yields_responseNode _ _ hentry hnode)
  refine (hgroup _).bind_of fun path hpath => (hgroup _).bind_of fun query hquery => ?_
  refine (hgroup _).bind_of fun headers hheaders => fills_pure fun _ => ?_
  refine ⟨hurl, ?name, fun s hs => ?shapes, h.summary, (written_docOf h).1, (written_docOf h).2⟩
  case name =>
    unfold Endpoint.functionName
    cases operation.operationId with
    | none => exact hasIdentifierChars_identifier _
    | some name => exact hasIdentifierChars_identifier name
  case shapes =>
    rcases List.mem_append.1 hs with hs | hs
    · simp only [Module.groupsOf, List.mem_filterMap, List.mem_cons, List.not_mem_nil, or_false]
        at hs
      obtain ⟨group, rfl | rfl | rfl | rfl, he⟩ := hs
      · cases he
        exact hpath
      · exact hbody s he
      · cases he
        exact hquery
      · cases he
        exact hheaders
    · obtain ⟨r, hr, hs⟩ := List.mem_flatMap.1 hs
      rcases List.mem_cons.1 hs with rfl | hs
      · exact (hresponses r hr).1
      · exact (hresponses r hr).2 s (Option.mem_toList.1 hs)

end Steps

/-- What is read of a document is an interface that is written with the texts of the
document. -/
theorem isWrittenWith_of_read {allowed : String → Prop} (hlines : AllowsLines allowed)
    {document : Json} (hdocument : document.IsWrittenWith allowed) {api : Api}
    {warnings : List Warning} (h : read document = (.ok api, warnings)) :
    api.IsWrittenWith allowed := by
  unfold read at h
  split at h
  · cases h
  · rename_i resolved view hprepare
    obtain ⟨resolved', hresolved, hview⟩ := ok_of_bind_eq_ok hprepare
    obtain ⟨view', hview, heq⟩ := ok_of_bind_eq_ok hview
    cases heq
    have hresolved := hdocument.dereference hresolved
    have hpaths := yields_document _ _ hresolved (ok_of_readAt hview)
    generalize hrun : (apiOf resolved view).run.run Catalog.empty = outcome at h
    obtain ⟨result, c⟩ := outcome
    obtain rfl : result = .ok api := congrArg Prod.fst h
    obtain ⟨endpoints, c₁, hendpoints, hrest⟩ := ok_of_run_bind_eq_ok hrun
    obtain ⟨interfaces, c₂, hnames, hrest⟩ := ok_of_run_bind_eq_ok hrest
    obtain ⟨_, c₃, hget, hapi⟩ := ok_of_run_bind_eq_ok hrest
    cases hget
    have hfills : Fills resolved (fun _ found => ∀ e ∈ found, e.IsWrittenWith allowed)
        (endpointsOf resolved view.paths) := by
      refine fills_endpointsOf fun entry hentry item method operation pointer hitem ho => ?_
      obtain ⟨hurl, hvalue⟩ := Json.isWrittenWith_object.1 hpaths entry hentry
      have hitem := yields_pathItem _ _ hvalue hitem
      exact written_endpointOf hlines hresolved hurl method pointer hitem.parameters
        (hitem.operations method operation ho)
    obtain ⟨hfirst, hwritten⟩ := hfills Catalog.empty isSound_empty rfl
    rw [hendpoints] at hfirst hwritten
    obtain ⟨hsecond, hfound, -⟩ := ensures_nameEach (isScope_isNameOf resolved)
      (fun entry hentry => .definition hentry rfl) c₁ hfirst.sound hfirst.inProgress
    cases hnames
    obtain rfl : _ = api := Except.ok.inj (congrArg Prod.fst hapi)
    refine ⟨hwritten endpoints rfl c₁ (.refl c₁), fun e he => ?_, fun name hname => ?_,
      hsecond.sound.isWrittenWith_entries hlines hresolved⟩
    · exact (hsecond.sound.correlated e he).isWrittenWith hresolved
    · change name ∈ (nameEach resolved (definitions resolved) c₁).1 at hname
      rw [hfound] at hname
      obtain ⟨entry, -, rfl⟩ := List.mem_map.1 hname
      exact hasIdentifierChars_identifier entry.1

end OpenApi

end TypedClient
