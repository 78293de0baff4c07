import TypedClient.Proofs.Schema.Walk

/-!
# Requests to a catalog

A catalog is filled by requests: for the shape of some schema, and for the names of all
definitions. After any requests in any order nothing is in progress, and all that
occurs in the answers and in the named shapes is accounted for, however the references
of the document run in circles and whatever names coincide.
-/

namespace TypedClient.Catalog

/-- What can be asked of a catalog. -/
inductive Request where
  /-- The shape of a schema. -/
  | shape (schema : Json)
  /-- Names for all definitions. -/
  | definitions

/-- The shapes that answer a request. -/
def answer (document : Json) : Request → Catalog → List Shape × Catalog
  | .shape schema, c =>
    let (s, c) := shapeOf document schema c
    ([s], c)
  | .definitions, c =>
    let (names, c) := nameDefinitions document c
    (names.map .reference, c)

/-- The answers to requests that are made one after the other. -/
def answers (document : Json) : List Request → Catalog → List (List Shape) × Catalog
  | [], c => ([], c)
  | request :: rest, c =>
    let (first, c) := answer document request c
    let (others, c) := answers document rest c
    (first :: others, c)

/-- Shapes are an answer to a request: the one that renders the schema, or the names of
the definitions. -/
def IsAnswer (document : Json) (c : Catalog) : Request → List Shape → Prop
  | .shape schema, shapes => ∃ s, shapes = [s] ∧ Renders document c (Schema.ofJson schema) s
  | .definitions, shapes =>
    shapes = (definitions document).map (fun entry => .reference (identifier entry.1)) ∧
      ∀ entry ∈ definitions document, c.knows (identifier entry.1) = true

/-- What a request gives names to may have these. -/
def Admits (document : Json) (names : String → Json → Prop) (hides : List Json → Bool) :
    Request → Prop
  | .shape schema => ∀ r target, (Schema.ofJson schema).RefersTo hides r →
      Document.resolve? document r = some target → names (Document.targetName r) target
  | .definitions => ∀ entry ∈ definitions document, names (identifier entry.1) entry.2

section Answers

variable {document : Json} {names : String → Json → Prop} {hides : List Json → Bool}
  {c c' : Catalog}

/-- An answer stays one when the catalog grows. -/
theorem IsAnswer.mono {request : Request} {shapes : List Shape}
    (h : IsAnswer document c request shapes) (he : c.Extends c') :
    IsAnswer document c' request shapes := by
  cases request with
  | shape schema =>
    obtain ⟨s, hshapes, hs⟩ := h
    exact ⟨s, hshapes, hs.mono he⟩
  | definitions =>
    obtain ⟨hshapes, hknown⟩ := h
    exact ⟨hshapes, fun entry hentry => he.knows _ (hknown entry hentry)⟩

/-- The level is enough for any name when nothing is in progress. -/
theorem remaining_lt_levels (document : Json) :
    remaining (referenceNames document) [] < levels document := by
  have hle : remaining (referenceNames document) [] ≤ (referenceNames document).length :=
    remaining_le_length
  rw [referenceNames, List.length_map] at hle
  rw [levels]
  exact Nat.lt_succ_of_le hle

/-- Asking for the shape of a schema. -/
theorem ensures_shapeOf (hscope : IsScope document names hides) {schema : Json}
    (hadmits : Admits document names hides (.shape schema)) :
    Ensures document names [] (shapeOf document schema)
      (Renders document · (Schema.ofJson schema)) :=
  ensures_shapeWith hscope fun r hr => ensures_followWith fun target htarget =>
    ensures_nameWithin hscope (hadmits r target hr htarget) (Or.inl (remaining_lt_levels document))

/-- Asking for the names of definitions. -/
theorem ensures_nameEach (hscope : IsScope document names hides) {entries : List (String × Json)}
    (hnames : ∀ entry ∈ entries, names (identifier entry.1) entry.2) :
    Ensures document names [] (nameEach document entries) fun c found =>
      found = entries.map (fun entry => identifier entry.1) ∧
        ∀ entry ∈ entries, c.knows (identifier entry.1) = true := by
  induction entries with
  | nil => exact fun c hc _ => ⟨hc.advances, rfl, by simp⟩
  | cons entry rest ih =>
    intro c hc hstack
    have hname := hnames entry List.mem_cons_self
    obtain ⟨hfirst, -, hknown⟩ := ensures_nameWithin hscope hname
      (Or.inl (remaining_lt_levels document)) c hc hstack
    obtain ⟨hrest, hfound, hothers⟩ := ih (fun e he => hnames e (List.mem_cons_of_mem _ he)) _
      hfirst.sound (hfirst.inProgress.trans hstack)
    have hstays := hrest.grows.knows _ hknown
    exact ⟨hfirst.trans hrest, congrArg _ hfound, List.forall_mem_cons.2 ⟨hstays, hothers⟩⟩

/-- A request is answered. -/
theorem ensures_answer (hscope : IsScope document names hides) {request : Request}
    (hadmits : Admits document names hides request) :
    Ensures document names [] (answer document request) (IsAnswer document · request) := by
  cases request with
  | shape schema =>
    intro c hc hstack
    obtain ⟨hadvances, hshape⟩ := ensures_shapeOf hscope hadmits c hc hstack
    exact ⟨hadvances, _, rfl, hshape⟩
  | definitions =>
    intro c hc hstack
    obtain ⟨hadvances, hfound, hknown⟩ := ensures_nameEach hscope hadmits c hc hstack
    refine ⟨hadvances, ?_, hknown⟩
    change (nameEach document (definitions document) c).1.map _ = _
    rw [hfound, List.map_map]
    rfl

/-- Requests are answered one after the other. -/
theorem ensures_answers (hscope : IsScope document names hides) {requests : List Request}
    (hadmits : ∀ request ∈ requests, Admits document names hides request) :
    Ensures document names [] (answers document requests)
      fun c results => List.Forall₂ (IsAnswer document c) requests results := by
  induction requests with
  | nil => exact fun c hc _ => ⟨hc.advances, .nil⟩
  | cons request rest ih =>
    intro c hc hstack
    obtain ⟨hfirst, hanswer⟩ :=
      ensures_answer hscope (hadmits request List.mem_cons_self) c hc hstack
    obtain ⟨hrest, hanswers⟩ := ih (fun r hr => hadmits r (List.mem_cons_of_mem _ hr)) _
      hfirst.sound (hfirst.inProgress.trans hstack)
    exact ⟨hfirst.trans hrest, .cons (hanswer.mono hrest.grows) hanswers⟩

/-- The catalog without anything in it is sound. -/
theorem isSound_empty : IsSound document names empty :=
  ⟨fun _ h => absurd h List.not_mem_nil, List.nodup_nil, List.nodup_nil,
    fun _ h => absurd h List.not_mem_nil⟩

/-- Requests to the catalog without anything in it. -/
theorem answers_empty (hscope : IsScope document names hides) {requests : List Request}
    (hadmits : ∀ request ∈ requests, Admits document names hides request) :
    Advances document names empty (answers document requests empty).2 ∧
      List.Forall₂ (IsAnswer document (answers document requests empty).2) requests
        (answers document requests empty).1 :=
  ensures_answers hscope hadmits empty isSound_empty rfl

end Answers

/-! ### Whatever is asked -/

section Accounted

variable {document : Json} {c : Catalog}

/-- Without anything known of the names, a name may stand for all with references of the
document, and no schema that stands in for listed values is hidden. -/
theorem isScope_references (document : Json) :
    IsScope document
      (fun _ target => Document.references target ⊆ Document.references document)
      (fun _ => false) :=
  ⟨fun _ _ h => h, fun _ _ _ _ _ _ hpart => Document.references_subset_of_resolve? hpart,
    fun _ _ _ h => nomatch h⟩

/-- A definition is a part of the document. -/
theorem references_subset_of_mem_definitions {entry : String × Json}
    (h : entry ∈ definitions document) :
    Document.references entry.2 ⊆ Document.references document := by
  unfold definitions at h
  cases document with
  | object members =>
    cases hfind : Json.find? "definitions" members with
    | none => simp [Json.get?, hfind] at h
    | some found =>
      cases found with
      | object entries =>
        have hentry : entry ∈ entries := by simpa [Json.get?, hfind, Json.asObject?] using h
        intro r hr
        have hin := Document.mem_references_member hentry hr
        exact Document.mem_references_member (Json.mem_of_find?_eq_some hfind) hin
      | _ => simp [Json.get?, hfind, Json.asObject?] at h
  | _ => simp [Json.get?] at h

/-- A name is that of a part of the document: of what a reference points at, or of a
definition. -/
inductive IsNameOf (document : Json) (name : String) (target : Json) : Prop where
  /-- A reference of that name points at it. -/
  | reference {r : String} (h : Document.resolve? document r = some target)
    (hname : Document.targetName r = name)
  /-- It is the definition under a key of that name. -/
  | definition {key : String} (h : (key, target) ∈ definitions document)
    (hname : identifier key = name)

/-- All that a reference points at has its name. -/
theorem isScope_isNameOf (document : Json) :
    IsScope document (IsNameOf document) (fun _ => false) := by
  refine ⟨fun name target h => ?_, fun _ _ _ _ _ _ hpart => .reference hpart rfl,
    fun _ _ _ h => nomatch h⟩
  cases h with
  | reference h => exact Document.references_subset_of_resolve? h
  | definition h => exact references_subset_of_mem_definitions h

/-- What every shape made of a schema has holds everywhere in an answer. -/
theorem IsAnswer.everywhere {P : Shape → Prop} (hP : HoldsOfMade c P) {request : Request}
    {shapes : List Shape} (h : IsAnswer document c request shapes) {s : Shape} (hs : s ∈ shapes) :
    Shape.Everywhere P s := by
  cases request with
  | shape schema =>
    obtain ⟨s', rfl, hrenders⟩ := h
    rw [List.mem_singleton.1 hs]
    exact hrenders.everywhere hP (Schema.isReadWith_ofJson schema)
  | definitions =>
    obtain ⟨rfl, hknown⟩ := h
    obtain ⟨entry, hentry, rfl⟩ := List.mem_map.1 hs
    exact Shape.everywhere_reference.2 (hP.reference _ (hknown entry hentry))

/-- All that occurs in an answer is accounted for. -/
theorem IsAnswer.accounts {request : Request} {shapes : List Shape}
    (h : IsAnswer document c request shapes) {s : Shape} (hs : s ∈ shapes) :
    Shape.Everywhere c.Accounts s :=
  h.everywhere (holdsOfMade_accounts c) hs

/-- Among enumerations with different names each is the one found by its name. -/
theorem find?_name_of_mem {enums : List Enumeration} (h : (enums.map Enumeration.name).Nodup)
    {e : Enumeration} (he : e ∈ enums) : enums.find? (·.name = e.name) = some e := by
  induction enums with
  | nil => cases he
  | cons first rest ih =>
    obtain ⟨hfirst, hrest⟩ := List.nodup_cons.1 h
    rcases List.mem_cons.1 he with rfl | he
    · simp
    · have hne : first.name ≠ e.name := fun hname =>
        hfirst (hname ▸ List.mem_map_of_mem he)
      rw [List.find?_cons_of_neg (by simpa using hne)]
      exact ih hrest he

/-- After any requests nothing is in progress, no two enumerations have one name, and in
every answer and every named shape a reference names a shape, an enumeration is the one
of its name, and an object has every key once. -/
theorem answers_accounted (document : Json) (requests : List Request) :
    (answers document requests empty).2.inProgress = [] ∧
    ((answers document requests empty).2.enums.map Enumeration.name).Nodup ∧
    ∀ s, (∃ shapes ∈ (answers document requests empty).1, s ∈ shapes) ∨
        (∃ name, (name, s) ∈ (answers document requests empty).2.arena.entries) →
      (∀ name, Shape.Occurs (.reference name) s →
        (answers document requests empty).2.arena.contains name = true) ∧
      (∀ e, Shape.Occurs (.enumeration e) s →
        (answers document requests empty).2.enums.find? (·.name = e.name) = some e) ∧
      ∀ fields, Shape.Occurs (.object fields) s → (Field.keys fields).Nodup := by
  have hadmits : ∀ request ∈ requests, Admits document
      (fun _ target => Document.references target ⊆ Document.references document)
      (fun _ => false) request := by
    intro request _
    cases request with
    | shape schema => exact fun _ _ _ htarget => Document.references_subset_of_resolve? htarget
    | definitions => exact fun _ hentry => references_subset_of_mem_definitions hentry
  obtain ⟨hadvances, hanswers⟩ := answers_empty (isScope_references document) hadmits
  generalize answers document requests empty = result at hadvances hanswers
  obtain ⟨results, c⟩ := result
  have hstack : c.inProgress = [] := hadvances.inProgress
  refine ⟨hstack, hadvances.sound.enumsDiffer, fun s hs => ?_⟩
  have haccounts : Shape.Everywhere c.Accounts s := by
    rcases hs with ⟨shapes, hshapes, hs⟩ | ⟨name, hentry⟩
    · obtain ⟨request, -, hanswer⟩ := exists_of_mem_forall₂ hanswers hshapes
      exact hanswer.accounts hs
    · obtain ⟨target, -, hrenders⟩ := hadvances.sound.entries _ hentry
      exact hrenders.accounts (Schema.isReadWith_ofJson target)
  refine ⟨fun name ho => ?_, fun e ho => ?_, fun fields ho => haccounts _ ho⟩
  · have hknown : name ∈ c.arena.names ∨ name ∈ c.inProgress := knows_iff.1 (haccounts _ ho)
    rw [hstack] at hknown
    exact Arena.contains_iff.2 (hknown.resolve_right List.not_mem_nil)
  · exact find?_name_of_mem hadvances.sound.enumsDiffer (haccounts _ ho)

end Accounted

end TypedClient.Catalog
