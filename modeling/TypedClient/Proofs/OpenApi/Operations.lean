import TypedClient.OpenApi.Endpoints
import TypedClient.Proofs.Document.Keys
import TypedClient.Proofs.OpenApi.Records

/-!
# Operations of a document

A document states operations: on each path, which is a key that starts with a slash, one
for each method under which the path item has something. Reading the document gives one
endpoint for each of them, in document order of the paths and in the order of the methods,
with one response for each key that is a status. It succeeds exactly when the references
can be replaced and the document, the items of its paths and the responses under statuses
are all as expected.
-/

namespace TypedClient.OpenApi

/-! ### What a document states -/

/-- The fields of a document. -/
def documentFields : List String := ["basePath", "paths"]

/-- The fields of a path item: one for each method, and the shared parameters. -/
def itemFields : List String := Method.all.map Method.word ++ ["parameters"]

/-- The fields of an operation. -/
def operationFields : List String :=
  ["operationId", "summary", "description", "deprecated", "externalDocs", "parameters",
   "responses"]

/-- The members of the object under a field, and none without such an object. -/
def membersUnder (fields : List String) (name : String) (value : Json) : List (String × Json) :=
  ((part? fields name value).bind Json.asObject?).getD []

/-- The paths that a document states, with their items. -/
def pathsIn (document : Json) : List (String × Json) :=
  (membersUnder documentFields "paths" document).filter fun entry => isPath entry.1

/-- The operation that a path item states for a method, unless there is none or it is null. -/
def operationIn? (item : Json) (method : Method) : Option Json :=
  (part? itemFields method.word item).filter fun value => !value.isNull

/-- The responses that an operation states, and whatever else stands there. -/
def responsesIn (operation : Json) : List (String × Json) :=
  membersUnder operationFields "responses" operation

/-- The statuses that an operation states responses for, in order. -/
def statusesIn (operation : Json) : List Status :=
  (responsesIn operation).filterMap fun entry => Status.ofText? entry.1

/-- An operation that a document states. -/
structure Stated where
  /-- Its path. -/
  url : String
  /-- Its method. -/
  method : Method
  /-- What is stated. -/
  operation : Json

/-- The operations that the item of a path states for methods, in the order of these. -/
def statedOn (url : String) (item : Json) (methods : List Method) : List Stated :=
  methods.filterMap fun method => (operationIn? item method).map fun v => ⟨url, method, v⟩

/-- The operations that a document states: path by path, in the order of all methods. -/
def statedIn (document : Json) : List Stated :=
  (pathsIn document).flatMap fun entry => statedOn entry.1 entry.2 Method.all

/-- The responses under statuses are as expected. -/
def ResponsesFit (entries : List (String × Json)) : Prop :=
  ∀ entry ∈ entries, (Status.ofText? entry.1).isSome = true →
    ∃ node, ResponseNode.read entry.2 = .ok node

/-- A document whose parts are as expected. -/
structure IsReadable (document : Json) : Prop where
  /-- The document itself is. -/
  view : ∃ view, Document.read document = .ok view
  /-- So is the item of each path, with its operations and parameters. -/
  items : ∀ entry ∈ pathsIn document, ∃ item, PathItem.read entry.2 = .ok item
  /-- So is the response of each operation under each status. -/
  responses : ∀ stated ∈ statedIn document, ResponsesFit (responsesIn stated.operation)

/-- An endpoint is that of a stated operation: of its path and method, with one response for
each status. -/
structure IsEndpointOf (stated : Stated) (e : Endpoint) : Prop where
  /-- It is on the path. -/
  url : e.url = stated.url
  /-- It has the method. -/
  method : e.method = stated.method
  /-- Its responses are those of the statuses. -/
  responses : e.responses.map Response.status = statusesIn stated.operation

/-! ### Views of parts -/

section Views

variable {value : Json}

/-- What holds everywhere in a value holds everywhere in its parts. -/
theorem everywhere_of_part? {P : Json → Prop} {fields : List String} {name : String} {v : Json}
    (h : value.Everywhere P) (hpart : part? fields name value = some v) : v.Everywhere P := by
  cases value with
  | object members => exact (Json.everywhere_object.1 h).2 _ (Json.mem_of_find?_eq_some hpart)
  | array elements => exact (Json.everywhere_array.1 h).2 _ (List.mem_of_getElem? hpart)
  | _ => cases hpart

/-- What holds everywhere in a value holds everywhere in the members under its fields. -/
theorem everywhere_of_mem_membersUnder {P : Json → Prop} {fields : List String} {name : String}
    {entry : String × Json} (h : value.Everywhere P)
    (hentry : entry ∈ membersUnder fields name value) : entry.2.Everywhere P := by
  unfold membersUnder at hentry
  cases hpart : part? fields name value with
  | none => simp [hpart] at hentry
  | some v =>
    rw [hpart, Option.bind_some] at hentry
    cases v with
    | object members =>
      exact (Json.everywhere_object.1 (everywhere_of_part? h hpart)).2 _ hentry
    | _ => simp [Json.asObject?] at hentry

/-- What is read from the members of an object. -/
theorem asObject?_of_members {entries : List (String × Json)} (h : members value = .ok entries) :
    value.asObject? = some entries := by
  cases value with
  | object _ =>
    cases h
    rfl
  | _ => cases h

/-- What a part of a record holds that takes the members of an object. -/
theorem eq_membersUnder {fields : List String} {name : String} {entries : List (String × Json)}
    (h : Holds (fun v entries => members v = .ok entries) [] (part? fields name value) entries) :
    entries = membersUnder fields name value := by
  unfold membersUnder
  cases hpart : part? fields name value with
  | none =>
    rw [hpart] at h
    exact h
  | some v =>
    rw [hpart] at h
    rw [Option.bind_some, asObject?_of_members h, Option.getD_some]

/-- The paths in the view of a document. -/
theorem paths_of_read {view : Document} (hkeys : value.HasDistinctKeys)
    (h : Document.read value = .ok view) :
    view.paths = membersUnder documentFields "paths" value := by
  refine eq_membersUnder (@holds_of_recordOf _ _ Document.paths _ _
    (slot "paths" true members fun a r => { r with paths := a }) view ⟨?_, by decide, ?_, ?_⟩
    "DocumentView" _ value (by rintro _ rfl; exact hkeys) h)
  · exact List.mem_cons_of_mem _ List.mem_cons_self
  · exact slot_sets fun _ _ _ h => h
  · intro t ht hne
    simp only [List.mem_cons, List.not_mem_nil, or_false] at ht
    rcases ht with rfl | rfl
    · exact slot_leaves fun _ _ => rfl
    · exact absurd rfl hne

/-- The responses in the view of an operation. -/
theorem responses_of_read {operation : Operation} (hkeys : value.HasDistinctKeys)
    (h : Operation.read value = .ok operation) : operation.responses = responsesIn value := by
  refine eq_membersUnder (@holds_of_recordOf _ _ Operation.responses _ _
    (slot "responses" true members fun a r => { r with responses := a }) operation
    ⟨?_, by decide, ?_, ?_⟩ "OperationView" _ value (by rintro _ rfl; exact hkeys) h)
  · simp
  · exact slot_sets fun _ _ _ h => h
  · intro t ht hne
    simp only [List.mem_cons, List.not_mem_nil, or_false] at ht
    rcases ht with rfl | rfl | rfl | rfl | rfl | rfl | rfl
    all_goals first | exact slot_leaves fun _ _ => rfl | exact absurd rfl hne

/-- What is related to nothing is nothing. -/
theorem eq_none_of_rel {α β : Type} {R : α → β → Prop} {found : Option β}
    (h : Option.Rel R none found) : found = none := by
  cases h
  rfl

/-- What is related to something is something related. -/
theorem exists_of_rel {α β : Type} {R : α → β → Prop} {a : α} {found : Option β}
    (h : Option.Rel R (some a) found) : ∃ b, R a b ∧ found = some b := by
  cases h with
  | some h => exact ⟨_, h, rfl⟩

/-- What is read where null counts as absent. -/
theorem rel_of_nullable {α : Type} {read : Reader α} {found : Option α}
    (h : nullable read value = .ok found) :
    Option.Rel (fun v a => read v = .ok a) ((some value).filter fun v => !v.isNull) found := by
  cases value with
  | null =>
    cases h
    exact .none
  | _ =>
    obtain ⟨a, ha, rfl⟩ := ok_of_map_eq_ok h
    exact .some ha

/-- What holds everywhere in a path item holds everywhere in its operations. -/
theorem everywhere_of_operationIn? {P : Json → Prop} {method : Method} {v : Json}
    (h : value.Everywhere P) (hstated : operationIn? value method = some v) : v.Everywhere P :=
  everywhere_of_part? h (Option.filter_eq_some_iff.1 hstated).1

theorem statedOn_cons_none {url : String} {method : Method} {rest : List Method}
    (h : operationIn? value method = none) :
    statedOn url value (method :: rest) = statedOn url value rest := by
  simp [statedOn, h]

theorem statedOn_cons_some {url : String} {method : Method} {rest : List Method} {v : Json}
    (h : operationIn? value method = some v) :
    statedOn url value (method :: rest) = ⟨url, method, v⟩ :: statedOn url value rest := by
  simp [statedOn, h]

/-- The operations on a path are of methods that were asked for, in order. -/
theorem statedOn_sublist (url : String) (item : Json) (methods : List Method) :
    ((statedOn url item methods).map fun stated => (stated.url, stated.method)).Sublist
      (methods.map fun method => (url, method)) := by
  induction methods with
  | nil => exact .slnil
  | cons method rest ih =>
    cases hstated : operationIn? item method with
    | none =>
      rw [statedOn_cons_none hstated]
      exact ih.cons _
    | some v =>
      rw [statedOn_cons_some hstated]
      exact ih.cons_cons _

/-- An operation on a path has that path. -/
theorem url_of_mem_statedOn {url : String} {methods : List Method} {stated : Stated}
    (h : stated ∈ statedOn url value methods) : stated.url = url := by
  obtain ⟨method, -, hmade⟩ := List.mem_filterMap.1 h
  obtain ⟨_, -, rfl⟩ := Option.map_eq_some_iff.1 hmade
  rfl

/-- Every method is one of all. -/
theorem mem_all (method : Method) : method ∈ Method.all := by
  cases method <;> decide

/-- The view of a path item has an operation for the methods that the item states one for. -/
theorem operations_of_read {item : PathItem} (hkeys : value.HasDistinctKeys)
    (h : PathItem.read value = .ok item) (method : Method) :
    Option.Rel (fun v operation => Operation.read v = .ok operation) (operationIn? value method)
      (item.operations method) := by
  have hholds := @holds_of_recordOf _ _ (fun r => r.operations method)
    (fun v found => nullable Operation.read v = .ok found) _ (PathItem.operationSlot method) item
    ⟨?_, by decide, ?_, ?_⟩ "PathItemView" _ value (by rintro _ rfl; exact hkeys) h
  · have hfields : (Method.all.map PathItem.operationSlot ++
        [slot "parameters" true (listOf Parameter.read) fun a (r : PathItem) =>
          { r with parameters := a }]).map Slot.name = itemFields := rfl
    rw [hfields] at hholds
    change Holds _ none (part? itemFields method.word value) _ at hholds
    unfold operationIn?
    cases hpart : part? itemFields method.word value with
    | none =>
      rw [hpart] at hholds
      rw [show item.operations method = none from hholds]
      exact .none
    | some v =>
      rw [hpart] at hholds
      exact rel_of_nullable hholds
  · exact List.mem_append_left _ (List.mem_map_of_mem (mem_all method))
  · refine slot_sets fun v a r hread => ?_
    simpa using hread
  · intro t ht hne
    rcases List.mem_append.1 ht with ht | ht
    · obtain ⟨m, -, rfl⟩ := List.mem_map.1 ht
      have hother : method ≠ m := fun he => hne (congrArg Method.word he.symm)
      exact slot_leaves fun _ _ => if_neg hother
    · rw [List.mem_singleton.1 ht]
      exact slot_leaves fun _ _ => rfl

end Views

/-! ### Steps that succeed exactly when something fits -/

/-- A step succeeds, whatever was catalogued, exactly when something fits, and its result is
then as said; otherwise it fails with the place of a mismatch. -/
def Decides {α : Type} (fits : Prop) (result : α → Prop) (step : Cataloguing α) : Prop :=
  ∀ c, match (step.run.run c).1 with
    | .ok a => fits ∧ result a
    | .error e => ¬ fits ∧ ∃ path message, e = .invalidDocument path message

section Decides

variable {α β : Type} {fits fits' : Prop} {result result' : α → Prop} {step : Cataloguing α}

/-- The same said in other words, or with less of the result. -/
theorem Decides.of_iff (h : Decides fits result step) (hfits : fits ↔ fits')
    (hresult : ∀ a, result a → result' a) : Decides fits' result' step := by
  intro c
  have hc := h c
  split at hc
  · exact ⟨hfits.1 hc.1, hresult _ hc.2⟩
  · exact ⟨fun hfit => hc.1 (hfits.2 hfit), hc.2⟩

theorem decides_pure {a : α} (h : result a) : Decides True result (pure a : Cataloguing α) :=
  fun _ => ⟨trivial, h⟩

/-- Two steps in a row. -/
theorem Decides.bind {next : α → Cataloguing β} {result' : β → Prop}
    (h : Decides fits result step) (h' : ∀ a, result a → Decides fits' result' (next a)) :
    Decides (fits ∧ fits') result' (step >>= next) := by
  intro c
  have hc := h c
  rw [ExceptT.run_bind, StateT.run_bind]
  generalize step.run.run c = outcome at hc
  obtain ⟨e | a, middle⟩ := outcome
  · exact ⟨fun hfit => hc.1 hfit.1, hc.2⟩
  · have hnext := h' a hc.2 middle
    change match ((next a).run.run middle).1 with
      | .ok b => (fits ∧ fits') ∧ result' b
      | .error e => ¬ (fits ∧ fits') ∧ ∃ path message, e = .invalidDocument path message
    split at hnext
    · exact ⟨⟨hc.1, hnext.1⟩, hnext.2⟩
    · exact ⟨fun hfit => hnext.1 hfit.2, hnext.2⟩

/-- A step that cannot fail, and another. -/
theorem Decides.after {next : α → Cataloguing β} {result' : β → Prop}
    (h : Decides True result step) (h' : ∀ a, result a → Decides fits result' (next a)) :
    Decides fits result' (step >>= next) :=
  (h.bind h').of_iff ⟨And.right, And.intro trivial⟩ fun _ hb => hb

/-- A step, and what is made of its result. -/
theorem Decides.map {f : α → β} {result' : β → Prop} (h : Decides fits result step)
    (h' : ∀ a, result a → result' (f a)) :
    Decides fits result' (step >>= fun a => pure (f a)) :=
  (h.bind fun a ha => decides_pure (h' a ha)).of_iff (and_iff_left trivial) fun _ hb => hb

/-- Reading a part of the document. -/
theorem decides_readAt (read : Reader α) (pointer : String) (value : Json) :
    Decides (∃ a, read value = .ok a) (fun a => read value = .ok a)
      (.ofExcept (readAt read pointer value)) := by
  intro c
  change match readAt read pointer value with
    | .ok a => (∃ a, read value = .ok a) ∧ read value = .ok a
    | .error e => (¬ ∃ a, read value = .ok a) ∧ ∃ path message, e = .invalidDocument path message
  unfold readAt
  cases read value with
  | ok a => exact ⟨⟨a, rfl⟩, rfl⟩
  | error m => exact ⟨fun ⟨_, h⟩ => (nomatch h), _, _, rfl⟩

end Decides

/-! ### Steps that cannot fail -/

/-- A step succeeds, whatever was catalogued. -/
abbrev Succeeds {α : Type} (step : Cataloguing α) : Prop := Decides True (fun _ => True) step

section Succeeds

variable (document : Json)

theorem succeeds_pure {α : Type} (a : α) : Succeeds (pure a) := decides_pure trivial

theorem succeeds_ofStep {α : Type} (action : Catalog → α × Catalog) :
    Succeeds (Cataloguing.ofStep action) :=
  fun _ => ⟨trivial, trivial⟩

theorem succeeds_fieldsOf {α : Type} {field : α → Cataloguing (Field Shape)}
    (h : ∀ a, Succeeds (field a)) (elements : List α) : Succeeds (fieldsOf field elements) := by
  induction elements with
  | nil => exact succeeds_pure _
  | cons a rest ih => exact (h a).after fun _ _ => ih.after fun _ _ => succeeds_pure _

theorem succeeds_groupAt (parameters : List Parameter) (location : Location) :
    Succeeds (groupAt document parameters location) := by
  refine Decides.after (succeeds_fieldsOf (fun p => ?_) _) fun _ _ => succeeds_pure _
  exact (succeeds_ofStep _).after fun _ _ => succeeds_pure _

theorem succeeds_bodyOf (parameters : List Parameter) (encoding : Encoding) :
    Succeeds (bodyOf document parameters encoding) := by
  cases encoding with
  | form => exact (succeeds_groupAt document _ _).after fun _ _ => succeeds_pure _
  | json =>
    unfold bodyOf
    cases bodyParameter? parameters with
    | none => exact succeeds_pure _
    | some p =>
      dsimp only
      cases p.schema with
      | none => exact (succeeds_pure _).after fun _ _ => succeeds_pure _
      | some schema => exact (succeeds_ofStep _).after fun _ _ => succeeds_pure _

theorem succeeds_headerGroup (headers : List (String × Json)) :
    Succeeds (headerGroup document headers) := by
  unfold headerGroup
  split
  · exact succeeds_pure _
  · refine Decides.after (succeeds_fieldsOf (fun header => ?_) _) fun _ _ => succeeds_pure _
    exact (succeeds_ofStep _).after fun _ _ => succeeds_pure _

end Succeeds

/-! ### Endpoints -/

section Endpoints

variable (document : Json)

/-- A response has the status that it was read for. -/
theorem decides_responseOf (status : Status) (node : ResponseNode) :
    Decides True (fun r => r.status = status) (responseOf document status node) := by
  have hrest (shape : Shape) : Decides True (fun r => r.status = status) do
      let header ← headerGroup document node.headers
      return (⟨status, shape, header⟩ : Response) :=
    (succeeds_headerGroup document _).after fun _ _ => decides_pure rfl
  unfold responseOf
  split
  · exact (succeeds_ofStep _).after fun shape _ => hrest shape
  · exact (succeeds_pure _).after fun shape _ => hrest shape
  · exact (succeeds_pure _).after fun shape _ => hrest shape

/-- There is a response for each status, in order. -/
theorem decides_responsesOf (pointer : String) (entries : List (String × Json)) :
    Decides (ResponsesFit entries)
      (fun responses => responses.map Response.status =
        entries.filterMap fun entry => Status.ofText? entry.1)
      (responsesOf document pointer entries) := by
  induction entries with
  | nil =>
    refine Decides.of_iff (@decides_pure _ (· = []) _ rfl) ?_ (by rintro _ rfl; rfl)
    simp [ResponsesFit]
  | cons entry rest ih =>
    obtain ⟨key, value⟩ := entry
    unfold responsesOf
    split
    · rename_i hnone
      refine ih.of_iff ?_ fun responses h => ?_
      · simp [ResponsesFit, hnone]
      · simpa [List.filterMap_cons, hnone] using h
    · rename_i status hstatus
      refine Decides.of_iff ((decides_readAt ResponseNode.read _ value).bind fun node _ =>
        (decides_responseOf document status node).after fun first hfirst =>
          ih.map fun others hothers => ?_) ?_ fun _ h => h
      · rw [List.map_cons, hfirst, hothers, List.filterMap_cons, hstatus]
      · simp [ResponsesFit, hstatus]

/-- The endpoint of an operation is as stated. -/
theorem decides_endpointOf {url pointer : String} {method : Method} {shared : List Parameter}
    {operation : Operation} {value : Json} (h : operation.responses = responsesIn value) :
    Decides (ResponsesFit (responsesIn value)) (IsEndpointOf ⟨url, method, value⟩)
      (endpointOf document url method shared operation pointer) := by
  rw [← h]
  refine (succeeds_bodyOf document _ _).after fun body _ => ?_
  refine ((decides_responsesOf document pointer _).bind fun responses hresponses => ?_).of_iff
    (and_iff_left trivial) fun _ h => h
  refine (succeeds_groupAt document _ _).after fun _ _ => ?_
  refine (succeeds_groupAt document _ _).after fun _ _ => ?_
  refine (succeeds_groupAt document _ _).after fun _ _ => ?_
  exact decides_pure ⟨rfl, rfl, by rw [hresponses, h]; rfl⟩

/-- The endpoints on a path are those of the operations that its item states. -/
theorem decides_endpointsOn {url pointer : String} {value : Json} {item : PathItem}
    (hkeys : value.Everywhere Json.HasDistinctKeys) (hitem : PathItem.read value = .ok item)
    (methods : List Method) :
    Decides (∀ stated ∈ statedOn url value methods, ResponsesFit (responsesIn stated.operation))
      (List.Forall₂ IsEndpointOf (statedOn url value methods))
      (endpointsOn document url pointer item methods) := by
  induction methods with
  | nil => exact (decides_pure .nil).of_iff (by simp [statedOn]) fun _ h => h
  | cons method rest ih =>
    have hview := operations_of_read (hkeys _ .refl) hitem method
    unfold endpointsOn
    cases hstated : operationIn? value method with
    | none =>
      rw [hstated] at hview
      rw [eq_none_of_rel hview, statedOn_cons_none hstated]
      exact ih
    | some v =>
      rw [hstated] at hview
      obtain ⟨operation, hread, hsome⟩ := exists_of_rel hview
      have hv := everywhere_of_operationIn? hkeys hstated
      rw [hsome, statedOn_cons_some hstated]
      refine ((decides_endpointOf document (responses_of_read (hv _ .refl) hread)).bind
        fun first hfirst => ih.map fun others hothers => ?_).of_iff ?_ fun _ h => h
      · exact .cons hfirst hothers
      · simp

/-- What is expected of the members of the paths. -/
def PathsFit (entries : List (String × Json)) : Prop :=
  ∀ entry ∈ entries, isPath entry.1 = true → (∃ item, PathItem.read entry.2 = .ok item) ∧
    ∀ stated ∈ statedOn entry.1 entry.2 Method.all, ResponsesFit (responsesIn stated.operation)

/-- The endpoints on all paths are those of the operations that the items state. -/
theorem decides_endpointsOf {entries : List (String × Json)}
    (hkeys : ∀ entry ∈ entries, entry.2.Everywhere Json.HasDistinctKeys) :
    Decides (PathsFit entries)
      (List.Forall₂ IsEndpointOf ((entries.filter fun entry => isPath entry.1).flatMap
        fun entry => statedOn entry.1 entry.2 Method.all))
      (endpointsOf document entries) := by
  induction entries with
  | nil => exact (decides_pure .nil).of_iff (by simp [PathsFit]) fun _ h => h
  | cons entry rest ih =>
    obtain ⟨url, value⟩ := entry
    have ih := ih fun entry h => hkeys entry (List.mem_cons_of_mem _ h)
    unfold endpointsOf
    split
    · rename_i hpath
      refine ((succeeds_ofStep _).after fun _ _ =>
        (decides_readAt PathItem.read _ value).bind fun item hitem =>
        (decides_endpointsOn document (hkeys _ List.mem_cons_self) hitem _).bind
        fun here hhere => ih.map fun others hothers => ?_).of_iff ?_ fun _ h => h
      · rw [List.filter_cons, if_pos hpath, List.flatMap_cons]
        exact List.rel_append hhere hothers
      · simp [PathsFit, hpath, and_assoc]
    · rename_i hpath
      refine ih.of_iff ?_ fun others h => ?_
      · simp [PathsFit, hpath]
      · rwa [List.filter_cons, if_neg hpath]

/-- What a document describes has an endpoint for each operation that it states. -/
theorem decides_apiOf {value : Json} {view : Document}
    (hkeys : value.Everywhere Json.HasDistinctKeys) (hview : Document.read value = .ok view) :
    Decides (PathsFit (membersUnder documentFields "paths" value))
      (fun api => List.Forall₂ IsEndpointOf (statedIn value) api.endpoints)
      (apiOf document view) := by
  unfold apiOf
  rw [paths_of_read (hkeys _ .refl) hview]
  refine ((decides_endpointsOf document fun entry h =>
    everywhere_of_mem_membersUnder hkeys h).bind fun endpoints hendpoints =>
      (succeeds_ofStep _).after fun _ _ => ?_).of_iff (and_iff_left trivial) fun _ h => h
  intro c
  exact ⟨trivial, hendpoints⟩

end Endpoints

/-! ### Whole documents -/

section Documents

variable {document resolved : Json}

theorem everywhere_null {P : Json → Prop} : Json.Everywhere P .null ↔ P .null := by
  rw [Json.everywhere_iff]
  exact and_iff_left fun part hp => nomatch hp

/-- The members under a field have different keys. -/
theorem nodup_keys_membersUnder {value : Json} {fields : List String} {name : String}
    (h : value.Everywhere Json.HasDistinctKeys) :
    ((membersUnder fields name value).map Prod.fst).Nodup := by
  unfold membersUnder
  cases hpart : part? fields name value with
  | none => exact List.nodup_nil
  | some v =>
    have hv := everywhere_of_part? h hpart v .refl
    cases v with
    | object members => exact hv
    | _ => exact List.nodup_nil

/-- Different paths, and different methods on one path, make different operations. -/
theorem nodup_statedIn (h : document.Everywhere Json.HasDistinctKeys) :
    ((statedIn document).map fun stated => (stated.url, stated.method)).Nodup := by
  have hpaths : ((pathsIn document).map Prod.fst).Nodup :=
    (nodup_keys_membersUnder h).sublist (List.filter_sublist.map _)
  have hmethods (url : String) (item : Json) :
      ((statedOn url item Method.all).map fun stated => (stated.url, stated.method)).Nodup :=
    List.Nodup.sublist (statedOn_sublist url item Method.all) (by
      exact List.Nodup.map (fun _ _ h => (Prod.mk.inj h).2) (by decide))
  rw [statedIn, List.map_flatMap, List.nodup_flatMap]
  refine ⟨fun entry _ => hmethods entry.1 entry.2, (List.pairwise_map.1 hpaths).imp ?_⟩
  -- operations on different paths
  intro entry other hne stated hstated hother
  obtain ⟨_, hmem, rfl⟩ := List.mem_map.1 hstated
  obtain ⟨_, hmem', hsame⟩ := List.mem_map.1 hother
  refine hne ?_
  rw [← url_of_mem_statedOn hmem, ← url_of_mem_statedOn hmem', (Prod.mk.inj hsame).1]

/-- The endpoints of operations have their paths and methods. -/
theorem map_eq_of_isEndpointOf {stated : List Stated} {endpoints : List Endpoint}
    (h : List.Forall₂ IsEndpointOf stated endpoints) :
    (stated.map fun s => (s.url, s.method)) = endpoints.map fun e => (e.url, e.method) := by
  induction h with
  | nil => rfl
  | cons first _ ih => rw [List.map_cons, List.map_cons, ih, first.url, first.method]

/-- A document is as expected when it is itself and the members of its paths are. -/
theorem isReadable_iff :
    IsReadable document ↔ (∃ view, Document.read document = .ok view) ∧
      PathsFit (membersUnder documentFields "paths" document) := by
  have hmem {entry : String × Json} : entry ∈ pathsIn document ↔
      entry ∈ membersUnder documentFields "paths" document ∧ isPath entry.1 = true :=
    List.mem_filter
  constructor
  · intro h
    refine ⟨h.view, fun entry hentry hpath => ?_⟩
    have hentry := hmem.2 ⟨hentry, hpath⟩
    exact ⟨h.items entry hentry, fun stated hstated =>
      h.responses stated (List.mem_flatMap.2 ⟨entry, hentry, hstated⟩)⟩
  · rintro ⟨hview, hpaths⟩
    refine ⟨hview, fun entry hentry => ?_, fun stated hstated => ?_⟩
    · exact (hpaths entry (hmem.1 hentry).1 (hmem.1 hentry).2).1
    · obtain ⟨entry, hentry, hstated⟩ := List.mem_flatMap.1 hstated
      exact (hpaths entry (hmem.1 hentry).1 (hmem.1 hentry).2).2 stated hstated

/-- What becomes of a document whose references can be replaced. -/
theorem read_of_dereference (h : document.Everywhere Json.HasDistinctKeys)
    (hresolved : TypedClient.Document.dereference document = .ok resolved) :
    match (read document).1 with
    | .ok api => IsReadable resolved ∧ List.Forall₂ IsEndpointOf (statedIn resolved) api.endpoints
    | .error e => ¬ IsReadable resolved ∧ ∃ path message, e = .invalidDocument path message := by
  have hkeys := TypedClient.Document.hasDistinctKeys_dereference h hresolved
  cases hview : Document.read resolved with
  | error m =>
    have hread : read document = (.error (m.toFailure ""), []) := by
      simp [read, prepare, hresolved, readAt, hview, bind, Except.bind]
    rw [hread, isReadable_iff, hview]
    exact ⟨fun ⟨⟨_, hok⟩, _⟩ => (nomatch hok), _, _, rfl⟩
  | ok view =>
    have hprepare : prepare document = .ok (resolved, view) := by
      simp [prepare, hresolved, readAt, hview, bind, Except.bind, pure, Except.pure]
    have hdecides := decides_apiOf resolved hkeys hview Catalog.empty
    have hread : (read document).1 = ((apiOf resolved view).run.run Catalog.empty).1 := by
      rw [read, hprepare]
      rfl
    rw [hread, isReadable_iff]
    cases hresult : ((apiOf resolved view).run.run Catalog.empty).1 with
    | ok api =>
      rw [hresult] at hdecides
      exact ⟨⟨⟨view, hview⟩, hdecides.1⟩, hdecides.2⟩
    | error e =>
      rw [hresult] at hdecides
      exact ⟨fun hfit => hdecides.1 hfit.2, hdecides.2⟩

/-- The endpoints of a document are those of the operations that it states with its references
replaced: in order, one for each, with one response for each status. No two have one path and
one method. The document is accepted exactly when its references can be replaced and all that
is read of it is as expected; otherwise the failure is that of replacing the references, or
says where something else was expected. -/
theorem endpoints_exact (h : document.Everywhere Json.HasDistinctKeys) :
    (∀ api, (read document).1 = .ok api →
      ∃ resolved, TypedClient.Document.dereference document = .ok resolved ∧
        List.Forall₂ IsEndpointOf (statedIn resolved) api.endpoints ∧
        (api.endpoints.map fun e => (e.url, e.method)).Nodup) ∧
    ((∃ api, (read document).1 = .ok api) ↔
      ∃ resolved, TypedClient.Document.dereference document = .ok resolved ∧
        IsReadable resolved) ∧
    ∀ e, (read document).1 = .error e →
      TypedClient.Document.dereference document = .error e ∨
        ∃ path message, e = .invalidDocument path message := by
  cases hresolved : TypedClient.Document.dereference document with
  | error e =>
    have hread : (read document).1 = .error e := by
      simp [read, prepare, hresolved, bind, Except.bind]
    rw [hread]
    refine ⟨fun _ hok => (nomatch hok), ⟨?_, ?_⟩, ?_⟩
    · rintro ⟨_, hok⟩
      cases hok
    · rintro ⟨_, hok, _⟩
      cases hok
    · rintro _ he
      cases he
      exact .inl rfl
  | ok resolved =>
    have hread := read_of_dereference h hresolved
    have hkeys := TypedClient.Document.hasDistinctKeys_dereference h hresolved
    cases hresult : (read document).1 with
    | error e =>
      rw [hresult] at hread
      refine ⟨fun _ hok => (nomatch hok), ⟨?_, ?_⟩, ?_⟩
      · rintro ⟨_, hok⟩
        cases hok
      · rintro ⟨_, hok, hfit⟩
        cases hok
        exact absurd hfit hread.1
      · rintro _ he
        cases he
        exact .inr hread.2
    | ok api =>
      rw [hresult] at hread
      refine ⟨?_, ⟨fun _ => ⟨resolved, rfl, hread.1⟩, fun _ => ⟨api, rfl⟩⟩, ?_⟩
      · rintro _ hok
        cases hok
        refine ⟨resolved, rfl, hread.2, ?_⟩
        rw [← map_eq_of_isEndpointOf hread.2]
        exact nodup_statedIn hkeys
      · exact fun _ he => (nomatch he)

/-- A document with two paths, the item of one of them a list, an operation that is null and
keys that are neither paths nor statuses. -/
theorem endpoints_exact_pets :
    let operation : Json := .object [("responses", .object
      [("200", .object []), ("x-note", .null), ("+404", .object []), ("default", .object [])])]
    let document : Json := .object
      [("swagger", .string "2.0"),
       ("paths", .object
         [("/pets", .array [.null, .null, operation, .null, operation, .null, .null]),
          ("x-note", .string "none"),
          ("/pet", .object [("delete", operation), ("post", .null), ("get", operation)])])]
    document.Everywhere Json.HasDistinctKeys ∧
      ∃ api, (read document).1 = .ok api ∧
        (api.endpoints.map fun e => (e.url, e.method)) =
          [("/pets", .put), ("/pets", .head), ("/pet", .get), ("/pet", .delete)] ∧
        (∀ e ∈ api.endpoints,
          e.responses.map Response.status = [.code 200, .code 404, .default]) ∧
        ∃ resolved, TypedClient.Document.dereference document = .ok resolved ∧
          List.Forall₂ IsEndpointOf (statedIn resolved) api.endpoints ∧
          (api.endpoints.map fun e => (e.url, e.method)).Nodup := by
  intro operation document
  have hkeys : document.Everywhere Json.HasDistinctKeys := by
    simp [document, operation, Json.everywhere_object, Json.everywhere_array,
      Json.everywhere_string, everywhere_null, Json.HasDistinctKeys]
  have hendpoints : (read document).1.toOption.map (fun api =>
      api.endpoints.map fun e => ((e.url, e.method), e.responses.map Response.status)) =
      some ([("/pets", .put), ("/pets", .head), ("/pet", .get), ("/pet", .delete)].map
        fun place => (place, [.code 200, .code 404, .default])) := by
    decide +kernel
  obtain ⟨api, hapi, hlist⟩ := Option.map_eq_some_iff.1 hendpoints
  have hread := eq_ok_of_toOption hapi
  refine ⟨hkeys, api, hread, ?_, fun e he => ?_, (endpoints_exact hkeys).1 api hread⟩
  · simpa [Function.comp_def] using congrArg (List.map Prod.fst) hlist
  · obtain ⟨_, -, hsame⟩ := List.mem_map.1 (hlist ▸ List.mem_map_of_mem he)
    exact (Prod.mk.inj hsame).2.symm

end Documents

end TypedClient.OpenApi
