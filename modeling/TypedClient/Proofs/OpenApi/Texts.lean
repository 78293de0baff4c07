import TypedClient.OpenApi.View
import TypedClient.Proofs.Json.Texts
import TypedClient.Proofs.OpenApi.Records

/-!
# Texts of records

A record holds texts of the value that it is read of: each field reads its own part of the value,
and stores what is as said of parts that are written with allowed texts. So path items,
operations, parameters and responses are written with the texts of the document.
-/

namespace TypedClient.OpenApi

/-! ### Records -/

section Records

variable {allowed : String → Prop} {ρ α : Type} {I : ρ → Prop} {slots : List (Slot ρ)}

/-- What is read of a value with allowed texts is as said. -/
def Reader.Yields (read : Reader α) (allowed : String → Prop) (Q : α → Prop) : Prop :=
  ∀ value a, value.IsWrittenWith allowed → read value = .ok a → Q a

/-- A field keeps what is said of a record when it stores a value with allowed texts. -/
def Slot.Keeps (s : Slot ρ) (allowed : String → Prop) (I : ρ → Prop) : Prop :=
  ∀ value r r', value.IsWrittenWith allowed → I r → s.store value r = .ok r' → I r'

/-- A field keeps what is said of a record when what it reads may be put there. -/
theorem keeps_slot {name : String} {hasDefault : Bool} {read : Reader α} {put : α → ρ → ρ}
    {Q : α → Prop} (hread : Reader.Yields read allowed Q) (hput : ∀ a r, Q a → I r → I (put a r)) :
    (slot name hasDefault read put).Keeps allowed I := by
  intro value r r' hvalue hr hstore
  obtain ⟨a, ha, rfl⟩ := ok_of_map_eq_ok hstore
  exact hput a r (hread value a hvalue ha) hr

/-- Storing members keeps what each field keeps. -/
theorem keeps_storeMembers (hslots : ∀ s ∈ slots, s.Keeps allowed I)
    {members : List (String × Json)} (hmembers : ∀ m ∈ members, m.2.IsWrittenWith allowed)
    {r r' : ρ} (hr : I r) (h : storeMembers slots members r = .ok r') : I r' := by
  induction members generalizing r with
  | nil =>
    cases h
    exact hr
  | cons m rest ih =>
    obtain ⟨hvalue, hrest⟩ := List.forall_mem_cons.1 hmembers
    unfold storeMembers at h
    split at h
    · rename_i s hfind
      obtain ⟨r₁, hstore, h⟩ := ok_of_bind_eq_ok h
      have hs := hslots s (List.mem_of_find?_eq_some hfind)
      exact ih hrest (hs _ r r₁ hvalue hr (ok_of_within hstore)) h
    · exact ih hrest hr h

/-- Storing elements keeps what each field keeps. -/
theorem keeps_storeElements (hslots : ∀ s ∈ slots, s.Keeps allowed I) {title : String}
    {total length count : Nat} {elements : List Json}
    (helements : ∀ v ∈ elements, v.IsWrittenWith allowed) {r r' : ρ} (hr : I r)
    (h : storeElements title total length count slots elements r = .ok r') : I r' := by
  induction slots generalizing count elements r with
  | nil =>
    cases elements <;> cases h
    exact hr
  | cons s slots ih =>
    cases elements with
    | nil =>
      rw [eq_of_storeElements_nil h]
      exact hr
    | cons value rest =>
      obtain ⟨hs, hslots⟩ := List.forall_mem_cons.1 hslots
      obtain ⟨hvalue, hrest⟩ := List.forall_mem_cons.1 helements
      obtain ⟨r₁, hstore, h⟩ := ok_of_bind_eq_ok h
      exact ih hslots hrest (hs value r r₁ hvalue hr (ok_of_within hstore)) h

/-- What is said of a record holds after the reading when it does of the defaults and each field
keeps it. -/
theorem yields_recordOf {title : String} {defaults : ρ} (hdefaults : I defaults)
    (hslots : ∀ s ∈ slots, s.Keeps allowed I) :
    Reader.Yields (recordOf title slots defaults) allowed I := by
  intro value r hvalue h
  cases value with
  | object members =>
    exact keeps_storeMembers hslots (fun m hm => (Json.isWrittenWith_object.1 hvalue m hm).2)
      hdefaults h
  | array elements =>
    exact keeps_storeElements hslots (Json.isWrittenWith_array.1 hvalue) hdefaults h
  | _ => cases h

theorem yields_text : Reader.Yields text allowed allowed := by
  intro value s hvalue h
  cases value with
  | string s' =>
    cases h
    exact Json.isWrittenWith_string.1 hvalue
  | _ => cases h

theorem yields_anything : Reader.Yields anything allowed (Json.IsWrittenWith allowed) := by
  intro value _ hvalue h
  cases h
  exact hvalue

theorem yields_members :
    Reader.Yields members allowed fun entries => (Json.object entries).IsWrittenWith allowed := by
  intro value entries hvalue h
  cases value with
  | object members =>
    cases h
    exact hvalue
  | _ => cases h

/-- Nothing need be said of what is read. -/
theorem yields_true (read : Reader α) : Reader.Yields read allowed fun _ => True :=
  fun _ _ _ _ => trivial

theorem Reader.Yields.nullable {read : Reader α} {Q : α → Prop}
    (h : Reader.Yields read allowed Q) :
    Reader.Yields (OpenApi.nullable read) allowed fun found => ∀ a, found = some a → Q a := by
  intro value found hvalue hread a ha
  unfold OpenApi.nullable at hread
  split at hread
  · cases hread
    cases ha
  · obtain ⟨a', ha', rfl⟩ := ok_of_map_eq_ok hread
    exact Option.some.inj ha ▸ h value a' hvalue ha'

theorem Reader.Yields.listOf {read : Reader α} {Q : α → Prop}
    (h : Reader.Yields read allowed Q) :
    Reader.Yields (OpenApi.listOf read) allowed fun found => ∀ a ∈ found, Q a := by
  have helements : ∀ (elements : List Json) (index : Nat) (found : List α),
      (∀ v ∈ elements, v.IsWrittenWith allowed) →
      elementsFrom read index elements = .ok found → ∀ a ∈ found, Q a := by
    intro elements
    induction elements with
    | nil =>
      intro index found _ hread
      cases hread
      simp
    | cons v rest ih =>
      intro index found hvalues hread
      obtain ⟨hv, hrest⟩ := List.forall_mem_cons.1 hvalues
      obtain ⟨first, hfirst, hread⟩ := ok_of_bind_eq_ok hread
      obtain ⟨others, hothers, hread⟩ := ok_of_bind_eq_ok hread
      cases hread
      exact List.forall_mem_cons.2
        ⟨h v first hv (ok_of_within hfirst), ih (index + 1) others hrest hothers⟩
  intro value found hvalue hread
  cases value with
  | array elements => exact helements elements 0 found (Json.isWrittenWith_array.1 hvalue) hread
  | _ => cases hread

end Records

/-! ### Parts of a document -/

/-- The texts of a parameter are allowed: its name, its documentation, its default value and
those of its schemas. -/
structure Parameter.IsWrittenWith (allowed : String → Prop) (p : Parameter) : Prop where
  /-- The name. -/
  name : allowed p.name
  /-- The documentation. -/
  description : ∀ text, p.description = some text → allowed text
  /-- The default value. -/
  default : ∀ value, p.default = some value → value.IsWrittenWith allowed
  /-- The schema of a body. -/
  schema : ∀ value, p.schema = some value → value.IsWrittenWith allowed
  /-- The schema of any other parameter. -/
  rest : (Json.object p.rest).IsWrittenWith allowed

/-- The texts of a parameter that are read so far are allowed. -/
structure Parameter.Draft.IsWrittenWith (allowed : String → Prop) (d : Parameter.Draft) :
    Prop where
  /-- The name. -/
  name : ∀ text, d.name = some text → allowed text
  /-- The documentation. -/
  description : ∀ text, d.description = some text → allowed text
  /-- The default value. -/
  default : ∀ value, d.default = some value → value.IsWrittenWith allowed
  /-- The schema of a body. -/
  schema : ∀ value, d.schema = some value → value.IsWrittenWith allowed

/-- The texts of a pointer to further documentation are allowed. -/
structure ExternalDocs.IsWrittenWith (allowed : String → Prop) (docs : ExternalDocs) : Prop where
  /-- What is written there. -/
  description : ∀ text, docs.description = some text → allowed text
  /-- Where it is. -/
  url : ∀ text, docs.url = some text → allowed text

/-- The texts of an operation are allowed, apart from its name. -/
structure Operation.IsWrittenWith (allowed : String → Prop) (operation : Operation) : Prop where
  /-- The short text. -/
  summary : ∀ text, operation.summary = some text → allowed text
  /-- The longer text. -/
  description : ∀ text, operation.description = some text → allowed text
  /-- The further documentation. -/
  externalDocs : ∀ docs, operation.externalDocs = some docs → docs.IsWrittenWith allowed
  /-- The parameters. -/
  parameters : ∀ p ∈ operation.parameters, p.IsWrittenWith allowed
  /-- The responses. -/
  responses : (Json.object operation.responses).IsWrittenWith allowed

/-- The texts of a path item are allowed. -/
structure PathItem.IsWrittenWith (allowed : String → Prop) (item : PathItem) : Prop where
  /-- The operations. -/
  operations : ∀ method operation, item.operations method = some operation →
    operation.IsWrittenWith allowed
  /-- The shared parameters. -/
  parameters : ∀ p ∈ item.parameters, p.IsWrittenWith allowed

/-- The texts of a response are allowed. -/
structure ResponseNode.IsWrittenWith (allowed : String → Prop) (node : ResponseNode) : Prop where
  /-- The schema of the payload. -/
  schema : ∀ value, node.schema = some value → value.IsWrittenWith allowed
  /-- The headers. -/
  headers : (Json.object node.headers).IsWrittenWith allowed
  /-- The examples. -/
  examples : (Json.object node.examples).IsWrittenWith allowed

section Parts

variable {allowed : String → Prop}

/-- An object without members has no texts. -/
theorem isWrittenWith_object_nil : (Json.object []).IsWrittenWith allowed :=
  Json.isWrittenWith_object.2 nofun

/-- A parameter that is read of a value has texts of the value. -/
theorem yields_parameter :
    Reader.Yields Parameter.read allowed (Parameter.IsWrittenWith allowed) := by
  intro value p hvalue h
  unfold Parameter.read at h
  split at h
  · rename_i members
    obtain ⟨draft, hdraft, h⟩ := ok_of_bind_eq_ok h
    have hslots : ∀ s ∈ Parameter.slots,
        s.Keeps allowed (Parameter.Draft.IsWrittenWith allowed) := by
      simp only [Parameter.slots, List.forall_mem_cons]
      refine ⟨?_, ?_, ?_, ?_, ?_, ?_, by simp⟩
      · exact keeps_slot yields_text fun _ _ ha h =>
          { h with name := fun _ htext => Option.some.inj htext ▸ ha }
      · exact keeps_slot (yields_true _) fun _ _ _ h => ⟨h.name, h.description, h.default, h.schema⟩
      · exact keeps_slot (yields_true _) fun _ _ _ h => ⟨h.name, h.description, h.default, h.schema⟩
      · exact keeps_slot yields_text.nullable fun _ _ ha h => { h with description := ha }
      · exact keeps_slot yields_anything.nullable fun _ _ ha h => { h with default := ha }
      · exact keeps_slot yields_anything.nullable fun _ _ ha h => { h with schema := ha }
    have hstart : Parameter.Draft.IsWrittenWith allowed {} := by
      constructor <;> simp
    have hwritten := keeps_storeMembers hslots
      (fun m hm => (Json.isWrittenWith_object.1 hvalue m hm).2) hstart hdraft
    split at h
    · cases h
    · cases h
    · rename_i name _ hname _
      cases h
      refine ⟨hwritten.name name hname, hwritten.description, hwritten.default, hwritten.schema,
        Json.isWrittenWith_object.2 fun m hm => ?_⟩
      exact Json.isWrittenWith_object.1 hvalue m (List.mem_of_mem_filter hm)
  · cases h

/-- A pointer to further documentation has texts of the value that it is read of. -/
theorem yields_externalDocs :
    Reader.Yields ExternalDocs.read allowed (ExternalDocs.IsWrittenWith allowed) := by
  refine yields_recordOf ⟨nofun, nofun⟩ ?_
  simp only [List.forall_mem_cons]
  exact ⟨keeps_slot yields_text.nullable fun _ _ ha h => { h with description := ha },
    keeps_slot yields_text.nullable fun _ _ ha h => { h with url := ha }, by simp⟩

/-- An operation has texts of the value that it is read of. -/
theorem yields_operation :
    Reader.Yields Operation.read allowed (Operation.IsWrittenWith allowed) := by
  refine yields_recordOf ⟨nofun, nofun, nofun, by simp, isWrittenWith_object_nil⟩ ?_
  simp only [List.forall_mem_cons]
  exact ⟨keeps_slot (yields_true _) fun _ _ _ h =>
      ⟨h.summary, h.description, h.externalDocs, h.parameters, h.responses⟩,
    keeps_slot yields_text.nullable fun _ _ ha h => { h with summary := ha },
    keeps_slot yields_text.nullable fun _ _ ha h => { h with description := ha },
    keeps_slot (yields_true _) fun _ _ _ h =>
      ⟨h.summary, h.description, h.externalDocs, h.parameters, h.responses⟩,
    keeps_slot yields_externalDocs.nullable fun _ _ ha h => { h with externalDocs := ha },
    keeps_slot yields_parameter.listOf fun _ _ ha h => { h with parameters := ha },
    keeps_slot yields_members fun _ _ ha h => { h with responses := ha }, by simp⟩

/-- The operation of a method is written with texts of the value that it is read of. -/
theorem keeps_operationSlot (method : Method) :
    (PathItem.operationSlot method).Keeps allowed (PathItem.IsWrittenWith allowed) := by
  refine keeps_slot yields_operation.nullable fun found item hfound h => ?_
  refine ⟨fun m operation hoperation => ?_, h.parameters⟩
  by_cases hm : m = method
  · exact hfound operation (by simpa [hm] using hoperation)
  · exact h.operations m operation (by simpa [hm] using hoperation)

/-- A path item has texts of the value that it is read of. -/
theorem yields_pathItem :
    Reader.Yields PathItem.read allowed (PathItem.IsWrittenWith allowed) := by
  have hdefaults : PathItem.IsWrittenWith allowed ⟨fun _ => none, []⟩ := by
    constructor <;> simp
  refine yields_recordOf hdefaults fun s hs => ?_
  rcases List.mem_append.1 hs with hs | hs
  · obtain ⟨method, -, rfl⟩ := List.mem_map.1 hs
    exact keeps_operationSlot method
  · rw [List.mem_singleton.1 hs]
    exact keeps_slot yields_parameter.listOf fun _ _ ha h => { h with parameters := ha }

/-- A response has texts of the value that it is read of. -/
theorem yields_responseNode :
    Reader.Yields ResponseNode.read allowed (ResponseNode.IsWrittenWith allowed) := by
  refine yields_recordOf ⟨nofun, isWrittenWith_object_nil, isWrittenWith_object_nil⟩ ?_
  simp only [List.forall_mem_cons]
  exact ⟨keeps_slot yields_anything.nullable fun _ _ ha h => { h with schema := ha },
    keeps_slot yields_members fun _ _ ha h => { h with headers := ha },
    keeps_slot yields_members fun _ _ ha h => { h with examples := ha }, by simp⟩

/-- The paths of a document have texts of the document. -/
theorem yields_document : Reader.Yields Document.read allowed fun view =>
    (Json.object view.paths).IsWrittenWith allowed := by
  refine yields_recordOf isWrittenWith_object_nil ?_
  simp only [List.forall_mem_cons]
  exact ⟨keeps_slot (yields_true _) fun _ _ _ h => h,
    keeps_slot yields_members fun _ _ ha _ => ha, by simp⟩

end Parts

end TypedClient.OpenApi
