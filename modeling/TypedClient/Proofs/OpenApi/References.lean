import TypedClient.OpenApi.Endpoints
import TypedClient.Proofs.Module.References
import TypedClient.Proofs.Schema.Requests
import TypedClient.Proofs.Shape.Speaking

/-!
# References of an interface

What is read of a document refers to nothing but the names that the reading gave types to:
each reference comes from a schema, and when the reading is over nothing is in progress. So
the types, the groups of parameters, the payloads and the headers of an interface refer to
types of the interface. A header group is an object, and never a reference itself.
-/

namespace TypedClient

/-- An interface whose references are to its own types, and whose headers are no references. -/
structure Api.IsClosed (api : Api) : Prop where
  /-- A type refers to types. -/
  types : ∀ entry ∈ api.types.entries, entry.2.RefersWithin (· ∈ api.types.names)
  /-- So do the parameters, payloads and headers of an endpoint. -/
  shapes : ∀ e ∈ api.endpoints, ∀ s ∈ Module.shapesOf e, s.RefersWithin (· ∈ api.types.names)
  /-- Headers are described where they are sent. -/
  headers : ∀ e ∈ api.endpoints, ∀ r ∈ e.responses, ∀ name, r.header ≠ some (.reference name)

namespace OpenApi

open Catalog

/-- The references in a shape are to names that a catalog knows. -/
abbrev IsKnown (c : Catalog) (s : Shape) : Prop := s.RefersWithin fun name => c.knows name = true

/-- A step that is begun on a sound catalog with nothing in progress advances, and its result
is as said in every catalog that knows more. -/
def Fills {α : Type} (document : Json) (ensured : Catalog → α → Prop) (step : Cataloguing α) :
    Prop :=
  ∀ c, IsSound document (IsNameOf document) c → c.inProgress = [] →
    Advances document (IsNameOf document) c (step.run.run c).2 ∧
    ∀ a, (step.run.run c).1 = .ok a → ∀ c', (step.run.run c).2.Extends c' → ensured c' a

section Fills

variable {α β : Type} {document : Json} {ensured : Catalog → α → Prop} {step : Cataloguing α}

theorem fills_pure {a : α} (h : ∀ c, ensured c a) : Fills document ensured (pure a) := by
  intro c hc _
  refine ⟨hc.advances, fun a' ha c' _ => ?_⟩
  cases ha
  exact h c'

theorem fills_ofExcept (result : Except Failure α) :
    Fills document (fun _ a => result = .ok a) (Cataloguing.ofExcept result) :=
  fun _ hc _ => ⟨hc.advances, fun _ ha _ _ => ha⟩

/-- Two steps in a row. -/
theorem Fills.bind {next : α → Cataloguing β} {ensured' : Catalog → β → Prop}
    (h : Fills document ensured step)
    (h' : ∀ a, Fills document (fun c b => ensured c a → ensured' c b) (next a)) :
    Fills document ensured' (step >>= next) := by
  intro c hc hstack
  obtain ⟨hfirst, hensured⟩ := h c hc hstack
  rw [ExceptT.run_bind, StateT.run_bind]
  generalize step.run.run c = outcome at hfirst hensured
  obtain ⟨e | a, middle⟩ := outcome
  · exact ⟨hfirst, fun _ hok => nomatch hok⟩
  · obtain ⟨hnext, hensured'⟩ := h' a middle hfirst.sound (hfirst.inProgress.trans hstack)
    refine ⟨hfirst.trans hnext, fun b hb c' hc' => ?_⟩
    exact hensured' b hb c' hc' (hensured a rfl c' (hnext.grows.trans hc'))

/-- Two steps in a row, where the second one needs what the first ensures of its result. -/
theorem Fills.bind_of {next : α → Cataloguing β} {ensured' : Catalog → β → Prop} {Q : α → Prop}
    (h : Fills document (fun _ => Q) step) (h' : ∀ a, Q a → Fills document ensured' (next a)) :
    Fills document ensured' (step >>= next) := by
  intro c hc hstack
  obtain ⟨hfirst, hensured⟩ := h c hc hstack
  rw [ExceptT.run_bind, StateT.run_bind]
  generalize step.run.run c = outcome at hfirst hensured
  obtain ⟨e | a, middle⟩ := outcome
  · exact ⟨hfirst, fun _ hok => nomatch hok⟩
  · obtain ⟨hnext, hensured'⟩ := h' a (hensured a rfl middle (.refl _)) middle hfirst.sound
      (hfirst.inProgress.trans hstack)
    exact ⟨hfirst.trans hnext, hensured'⟩

end Fills

/-! ### Lists of steps -/

section Lists

variable {document : Json}

/-- What is read at a pointer is what is read of the value there. -/
theorem ok_of_readAt {α : Type} {read : Reader α} {pointer : String} {value : Json} {a : α}
    (h : readAt read pointer value = .ok a) : read value = .ok a := by
  unfold readAt at h
  split at h
  · rename_i a' ha
    exact ha.trans (congrArg Except.ok (Except.ok.inj h))
  · cases h

/-- Fields are as said when each of them is. -/
theorem fills_fieldsOf {α : Type} {Q : Catalog → Field Shape → Prop}
    {field : α → Cataloguing (Field Shape)} {elements : List α}
    (h : ∀ a ∈ elements, Fills document Q (field a)) :
    Fills document (fun c fields => ∀ f ∈ fields, Q c f) (fieldsOf field elements) := by
  induction elements with
  | nil => exact fills_pure (by simp)
  | cons a rest ih =>
    obtain ⟨hfirst, hrest⟩ := List.forall_mem_cons.1 h
    refine hfirst.bind fun f => (ih hrest).bind fun fields => fills_pure fun c hfields hf => ?_
    exact List.forall_mem_cons.2 ⟨hf, hfields⟩

/-- Responses are as said when each of them is. -/
theorem fills_responsesOf {Q : Catalog → Response → Prop} (pointer : String)
    {entries : List (String × Json)}
    (h : ∀ entry ∈ entries, ∀ status node, ResponseNode.read entry.2 = .ok node →
      Fills document Q (responseOf document status node)) :
    Fills document (fun c responses => ∀ r ∈ responses, Q c r)
      (responsesOf document pointer entries) := by
  induction entries with
  | nil => exact fills_pure (by simp)
  | cons entry rest ih =>
    obtain ⟨key, value⟩ := entry
    obtain ⟨hfirst, hrest⟩ := List.forall_mem_cons.1 h
    unfold responsesOf
    split
    · exact ih hrest
    · rename_i status _
      refine (fills_ofExcept _).bind_of fun node hnode => ?_
      refine (hfirst status node (ok_of_readAt hnode)).bind fun r =>
        (ih hrest).bind fun responses => fills_pure fun c hresponses hr => ?_
      exact List.forall_mem_cons.2 ⟨hr, hresponses⟩

/-- The endpoints on a path are as said when each of them is. -/
theorem fills_endpointsOn {Q : Catalog → Endpoint → Prop} (url pointer : String)
    {item : PathItem}
    (h : ∀ method operation pointer, item.operations method = some operation →
      Fills document Q (endpointOf document url method item.parameters operation pointer))
    (methods : List Method) :
    Fills document (fun c endpoints => ∀ e ∈ endpoints, Q c e)
      (endpointsOn document url pointer item methods) := by
  induction methods with
  | nil => exact fills_pure (by simp)
  | cons method rest ih =>
    unfold endpointsOn
    split
    · exact ih
    · rename_i operation hoperation
      refine (h method operation _ hoperation).bind fun e => ih.bind fun others =>
        fills_pure fun c hothers he => ?_
      exact List.forall_mem_cons.2 ⟨he, hothers⟩

theorem fills_noteReference (url : String) (item : Json) :
    Fills document (fun _ _ => True) (noteReference url item) := by
  intro c hc _
  refine ⟨?_, fun _ _ _ _ => trivial⟩
  change Advances document _ c (if (item.get? "$ref").isSome then _ else _)
  split
  · exact hc.advances_warn _
  · exact hc.advances

/-- The endpoints on all paths are as said when each of them is. -/
theorem fills_endpointsOf {Q : Catalog → Endpoint → Prop} {entries : List (String × Json)}
    (h : ∀ entry ∈ entries, ∀ item method operation pointer, PathItem.read entry.2 = .ok item →
      item.operations method = some operation →
      Fills document Q (endpointOf document entry.1 method item.parameters operation pointer)) :
    Fills document (fun c endpoints => ∀ e ∈ endpoints, Q c e) (endpointsOf document entries) := by
  induction entries with
  | nil => exact fills_pure (by simp)
  | cons entry rest ih =>
    obtain ⟨url, value⟩ := entry
    obtain ⟨hfirst, hrest⟩ := List.forall_mem_cons.1 h
    unfold endpointsOf
    split
    · refine (fills_noteReference _ _).bind_of fun _ _ => ?_
      refine (fills_ofExcept _).bind_of fun item hitem => ?_
      refine (fills_endpointsOn url _ (fun method operation pointer =>
        hfirst item method operation pointer (ok_of_readAt hitem)) _).bind fun here =>
          (ih hrest).bind fun others => fills_pure fun c hothers hhere => ?_
      exact List.forall_mem_append.2 ⟨hhere, hothers⟩
    · exact ih hrest

end Lists

section Steps

variable {document : Json}

/-- The shape of a schema has references to names that are given. -/
theorem fills_shapeOf (schema : Json) : Fills document IsKnown (shapeOf document schema) := by
  intro c hc hstack
  obtain ⟨hadvances, hrenders⟩ := ensures_shapeOf (isScope_isNameOf document)
    (fun _ _ _ htarget => .reference htarget rfl) c hc hstack
  refine ⟨hadvances, fun s hs c' hc' t ht name he => ?_⟩
  cases hs
  have haccounts := (hrenders.mono hc').accounts (Schema.isReadWith_ofJson schema) t ht
  rw [he] at haccounts
  exact haccounts

theorem isKnown_any (c : Catalog) : IsKnown c .any :=
  Shape.everywhere_any.2 nofun

/-- A shape that is guessed has no references. -/
theorem isKnown_infer (c : Catalog) (value : Json) : IsKnown c (.infer value) := by
  rintro t ht name rfl
  have hnone : Shape.Everywhere (fun s => ∀ name, s ≠ .reference name) (.ofSample value) :=
    Shape.everywhere_ofSample (fun _ _ _ => nofun) (fun _ => nofun) (fun _ => nofun)
      (fun _ _ => nofun) value
  have hnamed : Shape.IsNamed (.reference name) := trivial
  exact absurd rfl (hnone _ (Shape.occurs_of_occurs_reduce hnamed ht) name)

/-- An object has the references of the values of its fields. -/
theorem isKnown_ofFields {c : Catalog} {fields : List (Field Shape)}
    (h : ∀ f ∈ fields, IsKnown c f.value) : IsKnown c (.ofFields fields) :=
  Shape.everywhere_ofFields (fun _ _ _ => nofun) h

theorem fills_groupAt (parameters : List Parameter) (location : Location) :
    Fills document IsKnown (groupAt document parameters location) := by
  refine Fills.bind (fills_fieldsOf (Q := fun c f => IsKnown c f.value) fun p _ => ?_)
    fun fields => fills_pure fun c hfields => isKnown_ofFields hfields
  exact (fills_shapeOf _).bind fun s => fills_pure fun c hs => hs

theorem fills_bodyOf (parameters : List Parameter) (encoding : Encoding) :
    Fills document (fun c body => ∀ s, body.1 = some s → IsKnown c s)
      (bodyOf document parameters encoding) := by
  cases encoding with
  | form =>
    refine (fills_groupAt _ _).bind fun s => fills_pure fun c hs s' he => ?_
    cases he
    exact hs
  | json =>
    unfold bodyOf
    cases bodyParameter? parameters with
    | none => exact fills_pure fun _ _ => nofun
    | some p =>
      have hrest (shape : Shape) : Fills document
          (fun c body => IsKnown c shape → ∀ s, body.1 = some s → IsKnown c s)
          (pure (some shape, !p.required) : Cataloguing (Option Shape × Bool)) := by
        refine fills_pure fun c hs s' he => ?_
        cases he
        exact hs
      dsimp only
      cases p.schema with
      | none => exact @Fills.bind _ _ _ IsKnown _ _ _ (fills_pure isKnown_any) hrest
      | some schema => exact (fills_shapeOf schema).bind hrest

/-- A header group is an object. -/
theorem fills_headerGroup (headers : List (String × Json)) :
    Fills document (fun c header => (∀ s, header = some s → IsKnown c s) ∧
      ∀ name, header ≠ some (.reference name)) (headerGroup document headers) := by
  unfold headerGroup
  split
  · exact fills_pure fun _ => ⟨nofun, nofun⟩
  · refine Fills.bind (fills_fieldsOf (Q := fun c f => IsKnown c f.value) fun header _ => ?_)
      fun fields => fills_pure fun c hfields => ⟨fun s he => ?_, fun name he => ?_⟩
    · exact (fills_shapeOf _).bind fun s => fills_pure fun c hs => hs
    · cases he
      exact isKnown_ofFields hfields
    · cases he

/-- The payload and headers of a response are known, and the headers are no reference. -/
def IsKnownResponse (c : Catalog) (r : Response) : Prop :=
  IsKnown c r.shape ∧ (∀ s, r.header = some s → IsKnown c s) ∧
    ∀ name, r.header ≠ some (.reference name)

theorem fills_responseOf (status : Status) (node : ResponseNode) :
    Fills document IsKnownResponse (responseOf document status node) := by
  have hrest (shape : Shape) :
      Fills document (fun c r => IsKnown c shape → IsKnownResponse c r) do
        let header ← headerGroup document node.headers
        return (⟨status, shape, header⟩ : Response) :=
    (fills_headerGroup _).bind fun header => fills_pure fun c hheader hshape => ⟨hshape, hheader⟩
  unfold responseOf
  split
  · exact (fills_shapeOf _).bind hrest
  · exact @Fills.bind _ _ _ IsKnown _ _ _ (fills_pure fun c => isKnown_infer c _) hrest
  · exact @Fills.bind _ _ _ IsKnown _ _ _ (fills_pure isKnown_any) hrest

/-- All that an endpoint is made of is known. -/
def IsKnownEndpoint (c : Catalog) (e : Endpoint) : Prop :=
  (∀ s ∈ Module.shapesOf e, IsKnown c s) ∧
    ∀ r ∈ e.responses, ∀ name, r.header ≠ some (.reference name)

theorem fills_endpointOf (url pointer : String) (method : Method) (shared : List Parameter)
    (operation : Operation) :
    Fills document IsKnownEndpoint
      (endpointOf document url method shared operation pointer) := by
  refine (fills_bodyOf _ _).bind fun body => Fills.bind
    (fills_responsesOf _ fun _ _ status node _ => fills_responseOf status node) fun responses => ?_
  refine (fills_groupAt _ _).bind fun path => (fills_groupAt _ _).bind fun query => ?_
  refine (fills_groupAt _ _).bind fun headers => fills_pure ?_
  intro c hheaders hquery hpath hresponses hbody
  refine ⟨fun s hs => ?_, fun r hr => (hresponses r hr).2.2⟩
  rcases List.mem_append.1 hs with hs | hs
  · simp only [Module.groupsOf, List.mem_filterMap, List.mem_cons, List.not_mem_nil, or_false]
      at hs
    obtain ⟨group, rfl | rfl | rfl | rfl, he⟩ := hs
    · cases he
      exact hpath
    · exact hbody s he
    · cases he
      exact hquery
    · cases he
      exact hheaders
  · obtain ⟨r, hr, hs⟩ := List.mem_flatMap.1 hs
    rcases List.mem_cons.1 hs with rfl | hs
    · exact (hresponses r hr).1
    · exact (hresponses r hr).2.1 s (Option.mem_toList.1 hs)

end Steps

/-- The names that a catalog knows with nothing in progress are those of its arena. -/
theorem refersWithin_names {c : Catalog} (hstack : c.inProgress = []) {s : Shape}
    (h : IsKnown c s) : s.RefersWithin (· ∈ c.arena.names) := by
  intro t ht name he
  have hknown := knows_iff.1 (h t ht name he)
  rw [hstack] at hknown
  exact hknown.resolve_right List.not_mem_nil

/-- A type of a sound catalog refers to names that are known. -/
theorem isKnown_of_mem_entries {document : Json} {names : String → Json → Prop} {c : Catalog}
    (h : IsSound document names c) {entry : String × Shape} (hentry : entry ∈ c.arena.entries) :
    IsKnown c entry.2 := by
  obtain ⟨target, -, hrenders⟩ := h.entries entry hentry
  intro t ht name he
  have haccounts := hrenders.accounts (Schema.isReadWith_ofJson target) t ht
  rw [he] at haccounts
  exact haccounts

/-- What is read of a document is an interface whose references are to its own types. -/
theorem isClosed_of_read {document : Json} {api : Api} {warnings : List Warning}
    (h : read document = (.ok api, warnings)) : api.IsClosed := by
  unfold read at h
  split at h
  · cases h
  · rename_i resolved view _
    generalize hrun : (apiOf resolved view).run.run Catalog.empty = outcome at h
    obtain ⟨result, c⟩ := outcome
    obtain rfl : result = .ok api := congrArg Prod.fst h
    obtain ⟨endpoints, c₁, hendpoints, hrest⟩ := ok_of_run_bind_eq_ok hrun
    obtain ⟨interfaces, c₂, hnames, hrest⟩ := ok_of_run_bind_eq_ok hrest
    obtain ⟨_, c₃, hget, hapi⟩ := ok_of_run_bind_eq_ok hrest
    cases hget
    obtain ⟨hfirst, hknown⟩ := fills_endpointsOf
      (fun entry _ item method operation pointer _ _ =>
        fills_endpointOf entry.1 pointer method item.parameters operation)
      Catalog.empty (@isSound_empty resolved _) rfl
    rw [hendpoints] at hfirst hknown
    have hsecond := (ensures_nameEach (isScope_isNameOf resolved)
      (fun entry hentry => .definition hentry rfl) c₁ hfirst.sound hfirst.inProgress).1
    cases hnames
    obtain rfl : _ = api := Except.ok.inj (congrArg Prod.fst hapi)
    have hstack := hsecond.inProgress.trans hfirst.inProgress
    refine ⟨fun entry hentry => ?_, fun e he s hs => ?_, fun e he => ?_⟩
    · exact refersWithin_names hstack (isKnown_of_mem_entries hsecond.sound hentry)
    · exact refersWithin_names hstack ((hknown endpoints rfl _ hsecond.grows e he).1 s hs)
    · exact (hknown endpoints rfl _ hsecond.grows e he).2

end OpenApi

end TypedClient
