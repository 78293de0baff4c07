import TypedClient.Proofs.Document.Stability
import TypedClient.Proofs.Schema.Steps

/-!
# Schemas of documents whose references were replaced

A schema refers to what the walk over the document meets in it, unless the object of its
properties stands for a reference itself. So where replacing references leaves a document
that stays as it is, and every reference that is left points to a place where the walk
comes to, no schema of the document has a reference that points at nothing.
-/

namespace TypedClient

namespace Document

/-- Where a walk comes to, no object of properties stands for a reference. -/
def KeepsProperties (document : Json) : Prop :=
  ∀ stack members properties, ComesTo document stack (.object members) →
    reference? members = none → Json.find? "properties" members = some (.object properties) →
      reference? properties = none

/-- No object of properties stands for a reference where none does anywhere. -/
theorem keepsProperties_of_everywhere {document : Json}
    (h : Json.Everywhere (fun part => ∀ properties,
      part.get? "properties" = some (.object properties) → reference? properties = none)
      document) : KeepsProperties document :=
  fun _ _ properties hcomes _ hp =>
    (Json.everywhere_object.1 (hcomes.everywhere h)).1 properties hp

/-- What a schema refers to is met in the value that it is read from. -/
theorem isReadWith_meets {document value : Json} {stack : List String}
    (hproperties : KeepsProperties document) (hcomes : ComesTo document stack value) :
    (Schema.ofJson value).IsReadWith fun r => ∃ node, Meets r node value := by
  -- The values below a node are not its parts in the tree, but they are smaller.
  induction hn : sizeOf value using Nat.strongRecOn generalizing value with
  | ind n ih =>
    cases value with
    | object node =>
      refine Schema.isReadWith_ofObject (fun r hr => ⟨_, .here hr⟩) fun hnone v hv => ?_
      have hsmaller := hv.sizeOf_lt
      have hless : sizeOf v < n := by
        rw [← hn, Json.object.sizeOf_spec]
        omega
      have hvisited : ComesTo document stack v ∧
          ∀ r place, Meets r place v → Meets r place (.object node) := by
        cases hv with
        | held h =>
          have hmem := Json.mem_of_find?_eq_some h
          exact ⟨hcomes.member hnone hmem, fun r place hm => .member hnone hmem hm⟩
        | listed h hv =>
          have hmem := Json.mem_of_find?_eq_some h
          exact ⟨(hcomes.member hnone hmem).element hv,
            fun r place hm => .member hnone hmem (.element hv hm)⟩
        | named h hv =>
          have hmem := Json.mem_of_find?_eq_some h
          have hobject := hproperties _ _ _ hcomes hnone h
          exact ⟨(hcomes.member hnone hmem).member hobject hv,
            fun r place hm => .member hnone hmem (.member hobject hv hm)⟩
      obtain ⟨hcomes', hmeets⟩ := hvisited
      exact (ih _ hless hcomes' rfl).mono fun r ⟨place, hm⟩ => ⟨place, hmeets r place hm⟩
    | _ =>
      rw [Schema.ofJson]
      · exact .anything
      · exact fun _ => Json.noConfusion

/-- A step of a walk over schemas reports no reference. -/
def ReportsNoReference (c c' : Catalog) : Prop :=
  ∀ r, Warning.danglingReference r ∈ c'.warnings → Warning.danglingReference r ∈ c.warnings

/-- A warning about something else than a reference reports no reference. -/
theorem reportsNoReference_append {c c' : Catalog} {warnings : List Warning}
    (h : c'.warnings = c.warnings ++ warnings)
    (hother : ∀ r, Warning.danglingReference r ∉ warnings) : ReportsNoReference c c' := by
  intro r hr
  rw [h] at hr
  exact (List.mem_append.1 hr).resolve_right (hother r)

/-- Giving a name warns of nothing but the name. -/
theorem danglingReference_not_mem_define (arena : Arena) (name : String) (s : Shape) (r : String) :
    Warning.danglingReference r ∉ (arena.define name s).2 := by
  unfold Arena.define
  split
  · split <;> simp
  · simp

/-- Where each reference that is met is to a definition, and points to a place where the
walk comes to, the schemas of such places lead to no report of a reference. -/
theorem holdsAlong_reportsNoReference {document : Json} (hproperties : KeepsProperties document)
    (hleft : ∀ r node, Meets r node document →
      ∃ target, resolve? document r = some target ∧ ComesTo document [] target) :
    Catalog.HoldsAlong document (ComesTo document []) ReportsNoReference := by
  have hmet : ∀ value r, ComesTo document [] value →
      (Schema.ofJson value).RefersTo (fun _ => false) r →
        ∃ target, resolve? document r = some target ∧ ComesTo document [] target := by
    intro value r hcomes hr
    obtain ⟨node, hm⟩ := hr.isAllowed (isReadWith_meets hproperties hcomes)
    exact hleft r node (hcomes.meets_document hm)
  refine ⟨fun c r hr => hr, fun c c' c'' h h' r hr => h r (h' r hr), ?_, ?_, ?_, ?_, ?_, ?_⟩
  · intro values c
    rcases Catalog.enumerate_cases document values c with
      ⟨_, _, _, _, _, hresult⟩ | ⟨_, _, _, _, hresult⟩ | ⟨w, hw, hresult⟩ | hresult
    · exact hresult ▸ fun r hr => hr
    · exact hresult ▸ fun r hr => hr
    · exact hresult ▸ reportsNoReference_append rfl (by simp [fun r => (hw r).symm])
    · exact hresult ▸ fun r hr => hr
  · intro w hw c
    exact reportsNoReference_append rfl (by simp [fun r => (hw r).symm])
  · intro value r hcomes hr hnone
    obtain ⟨target, htarget, -⟩ := hmet value r hcomes hr
    simp [htarget] at hnone
  · exact fun name c r hr => hr
  · exact fun name s c => reportsNoReference_append rfl (danglingReference_not_mem_define _ name s)
  · intro value r part hcomes hr hpart
    obtain ⟨target, htarget, htargetComes⟩ := hmet value r hcomes hr
    cases htarget.symm.trans hpart
    exact htargetComes

/-- Replacing the references of a document leaves a document that stays as it is, and each
reference that the walk over it meets is to a definition and points at something: when no
text comes to stand under `$ref`, and no reference that is left goes down below an object
that is replaced. When it goes down below no object that stands for a reference at all, and
no object of properties stands for one, then no schema of a place where the walk comes to
leads to a reference that has to be read as anything. -/
theorem dereference_stable {document out : Json} (h : dereference document = .ok out)
    (hmarks : KeepsMarks document)
    (hpaths : KeepsPaths document fun r => !isDefinition r) :
    dereference out = .ok out ∧
    (∀ r node, Meets r node out →
      isDefinition r = true ∧ ∃ target, resolve? out r = some target) ∧
    (KeepsPaths document (fun _ => true) → KeepsProperties out →
      ∀ requests : List Catalog.Request,
        (∀ request ∈ requests, ∀ part ∈ request.parts out, ComesTo out [] part) →
          ∀ r, Warning.danglingReference r ∉
            (Catalog.answers out requests Catalog.empty).2.warnings) := by
  have hleft : ∀ r node, Meets r node out →
      isDefinition r = true ∧ ∃ target, resolve? out r = some target := by
    intro r node hm
    obtain ⟨hmark, -, hpoints⟩ := resolve?_dereference h hmarks (by simp) hpaths hm
    exact ⟨hmark, hpoints⟩
  refine ⟨dereference_eq_self hleft, hleft, fun hbelow hproperties requests hrequests r hr => ?_⟩
  have hvisited : ∀ r node, Meets r node out →
      ∃ target, resolve? out r = some target ∧ ComesTo out [] target := by
    intro r node hm
    have hkind : ∀ r, (fun _ => true) r = false → isDefinition r = true :=
      fun _ => Bool.noConfusion
    obtain ⟨hmark, hnotBelow, target, htarget⟩ :=
      resolve?_dereference h hmarks hkind hbelow hm
    refine ⟨target, htarget, ComesTo.root.descend? hnotBelow ?_⟩
    rw [← resolve?_eq_descend? hmark, htarget]
  have hreports := (holdsAlong_reportsNoReference hproperties hvisited).answers hrequests
    Catalog.empty
  exact absurd (hreports r hr) List.not_mem_nil

/-- A parameter that is replaced and a definition that is left. -/
theorem dereference_stable_pets :
    let limit : Json := .object [("type", .string "integer")]
    let pet : Json := .object [("type", .string "object")]
    let document : Json := .object [("limit", limit),
      ("definitions", .object [("Pet", pet)]),
      ("body", .object [("$ref", .string "#/definitions/Pet")]),
      ("query", .object [("$ref", .string "#/limit")])]
    let out : Json := .object [("limit", limit),
      ("definitions", .object [("Pet", pet)]),
      ("body", .object [("$ref", .string "#/definitions/Pet")]), ("query", limit)]
    dereference document = .ok out ∧ KeepsMarks document ∧
      KeepsPaths document (fun r => !isDefinition r) ∧ KeepsPaths document (fun _ => true) ∧
      KeepsProperties out ∧ dereference out = .ok out ∧
      (∀ r node, Meets r node out →
        isDefinition r = true ∧ ∃ target, resolve? out r = some target) ∧
      ∀ r, Warning.danglingReference r ∉
        (Catalog.answers out [.definitions] Catalog.empty).2.warnings := by
  intro limit pet document out
  have h : dereference document = .ok out := rfl
  have hmarks : KeepsMarks document := keepsMarks_of_everywhere <| by
    simp [document, limit, pet, Json.everywhere_object, Json.everywhere_string, Json.get?,
      Json.find?]
  have hproperties : KeepsProperties out := keepsProperties_of_everywhere <| by
    simp [out, limit, pet, Json.everywhere_object, Json.everywhere_string, Json.get?, Json.find?]
  have hpaths : ∀ kind, KeepsPaths document kind := by
    intro kind r hr hmark
    have hspelled : r ∈ ["#/definitions/Pet", "#/limit"] := hr.mem_references
    rcases List.mem_pair.1 hspelled with rfl | rfl
    · rfl
    · cases hmark
  have hrequests : ∀ request ∈ [Catalog.Request.definitions], ∀ part ∈ request.parts out,
      ComesTo out [] part := by
    intro request hrequest part hpart
    obtain rfl := List.mem_singleton.1 hrequest
    obtain rfl : part = pet := List.mem_singleton.1 hpart
    have hdefinitions : ComesTo out [] (.object [("Pet", pet)]) :=
      ComesTo.root.member rfl (m := ("definitions", .object [("Pet", pet)])) (by simp)
    exact hdefinitions.member rfl (m := ("Pet", pet)) (by simp)
  obtain ⟨hsame, hleft, hreports⟩ := dereference_stable h hmarks (hpaths _)
  exact ⟨h, hmarks, hpaths _, hpaths _, hproperties, hsame, hleft,
    hreports (hpaths _) hproperties _ hrequests⟩

/-- A reference that is left goes down below an object that is replaced: it points at
nothing in the result, which cannot be read any more. -/
theorem dereference_unstable :
    let shared : Json := .object [("type", .string "object")]
    let below : Json := .object [("$ref", .string "#/definitions/A/properties/p")]
    let document : Json := .object [
      ("definitions", .object [("A", .object [("$ref", .string "#/shared"),
        ("properties", .object [("p", .object [("type", .string "string")])])])]),
      ("shared", shared), ("used", below)]
    let out : Json := .object [("definitions", .object [("A", shared)]), ("shared", shared),
      ("used", below)]
    dereference document = .ok out ∧
      Meets "#/definitions/A/properties/p" below out ∧
      resolve? out "#/definitions/A/properties/p" = none ∧
      dereference out = .error (.unresolvableReference "#/definitions/A/properties/p") := by
  intro shared below document out
  have hmember : ("used", below) ∈ [("definitions", Json.object [("A", shared)]),
      ("shared", shared), ("used", below)] := by simp
  exact ⟨rfl, .member rfl hmember (.here rfl), rfl, rfl⟩

end Document

end TypedClient
