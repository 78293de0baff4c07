import TypedClient.Proofs.Reduction.Agreement
import TypedClient.Proofs.Schema.Targets

/-!
# Index signatures of schemas

A schema with further members becomes an intersection: the object of its properties, and
a dictionary of the further members beside it. No object that is made of a schema has an
index signature and a named field, so both come together only when reducing merges
objects.
-/

namespace TypedClient.Catalog

section Made

variable {document : Json} {requests : List Request} {s : Shape}

/-- What every shape made of a schema has holds everywhere in the answers to requests, and
in the shapes that have names after them. -/
theorem everywhere_answers {P : Shape → Prop}
    (hP : HoldsOfMade (answers document requests empty).2 P)
    (hs : (∃ shapes ∈ (answers document requests empty).1, s ∈ shapes) ∨
      ∃ name, (name, s) ∈ (answers document requests empty).2.arena.entries) :
    Shape.Everywhere P s := by
  have hadmits : ∀ request ∈ requests, Admits document
      (fun _ target => Document.references target ⊆ Document.references document)
      (fun _ => false) request := by
    intro request _
    cases request with
    | shape schema => exact fun _ _ _ htarget => Document.references_subset_of_resolve? htarget
    | definitions => exact fun _ hentry => references_subset_of_mem_definitions hentry
  obtain ⟨hadvances, hanswers⟩ := answers_empty (isScope_references document) hadmits
  rcases hs with ⟨shapes, hshapes, hs⟩ | ⟨name, hentry⟩
  · obtain ⟨request, -, hanswer⟩ := exists_of_mem_forall₂ hanswers hshapes
    exact hanswer.everywhere hP hs
  · obtain ⟨target, -, hrenders⟩ := hadvances.sound.entries _ hentry
    exact hrenders.everywhere hP (Schema.isReadWith_ofJson target)

/-- The literals made of schemas are standard. -/
theorem holdsOfMade_isStandard (c : Catalog) : HoldsOfMade c Shape.IsStandard :=
  ⟨trivial, fun _ h => h, fun _ => trivial, fun _ _ _ => trivial, fun _ => trivial,
    fun _ _ => trivial, fun _ => trivial, fun _ _ => trivial, fun _ _ => trivial⟩

/-- The objects made of schemas keep named fields and index signatures apart. -/
theorem holdsOfMade_keepsApart (c : Catalog) : HoldsOfMade c Shape.KeepsApart where
  any := trivial
  literal _ _ := trivial
  array _ := trivial
  object _ _ hnamed hsignature := by
    obtain ⟨f, hf, hkey⟩ := List.mem_map.1 hsignature
    exact absurd hkey (hnamed f hf)
  dictionary _ _ k hk := List.mem_singleton.1 hk
  joined _ _ := trivial
  tuple _ := trivial
  enumeration _ _ := trivial
  reference _ _ := trivial

end Made

/-- No object that is made of schemas has a named field beside an index signature. An object of
the reduced shape that has both is merged of objects that stand together at one place, which a
threshold below two leaves none of. Its index signature is for anything or offers all that a
named field does exactly if it is for anything or the values agree that the merged objects have
under the two keys. -/
theorem signatures_consistent (document : Json) (requests : List Request) {reduction : Reduction}
    (precise : reduction.precise = true) {s : Shape}
    (hs : (∃ shapes ∈ (answers document requests empty).1, s ∈ shapes) ∨
      ∃ name, (name, s) ∈ (answers document requests empty).2.arena.entries) :
    (∀ fields, Shape.Occurs (.object fields) s → Key.wildcard ∈ Field.keys fields →
      ∀ k ∈ Field.keys fields, k = .wildcard) ∧
    ∀ fields, Shape.Occurs (.object fields) (s.reduce reduction) →
      ∀ w ∈ fields, w.key = .wildcard → ∀ n ∈ fields, n.key ≠ .wildcard →
        2 ≤ reduction.dictionaryThreshold ∧
        let unite := Shape.unionBy (Shape.reduce reduction)
        ∃ c objects, Shape.Merges reduction s c objects ∧
          fields = Shape.mergedFields c unite reduction.dictionaryThreshold objects ∧
          w.value = Shape.mergedValue unite (Shape.valuesUnder .wildcard objects) ∧
          n.value = Shape.mergedValue unite (Shape.valuesUnder n.key objects) ∧
          ((w.value = .any ∨
              ∀ a ∈ n.value.alternatives, ∃ b ∈ w.value.alternatives, (b == a) = true) ↔
            w.value = .any ∨ Shape.Agree unite (Shape.valuesUnder n.key objects)
              (Shape.valuesUnder .wildcard objects)) := by
  have hstandard := everywhere_answers (holdsOfMade_isStandard _) hs
  have hapart := everywhere_answers (holdsOfMade_keepsApart _) hs
  refine ⟨fun fields ho => hapart _ ho, fun fields ho w hw hkey n hn hname => ?_⟩
  obtain ⟨htwo, c, objects, hmerges, hfields, hwvalue, hnvalue, hagree⟩ :=
    Shape.exists_merges_of_signature precise hstandard hapart ho hw hkey hn hname
  exact ⟨htwo, c, objects, hmerges, hfields, hwvalue, hnvalue, or_congr_right hagree⟩

/-- An object with properties and further members of a given schema. -/
theorem ofJson_extended (properties extra : List (String × Json)) :
    Schema.ofJson (.object [("type", .string "object"), ("properties", .object properties),
      ("additionalProperties", .object extra)]) =
      .dictionary (Schema.ofJson (.object extra)) (.object (properties.map fun property =>
        { key := .named property.1
          value := Schema.ofJson property.2
          optional := true
          doc := Schema.description? property.2
          default := property.2.get? "default"
          readonly := ((property.2.get? "readOnly").bind Json.asBool?).getD false })) := by
  simp [Schema.ofJson, Schema.ofBranches, Schema.ofPlain, Schema.ofTyped, Schema.ofKind,
    Schema.ofProperties, Schema.listed?, Json.find?, Schema.requiredNames]
  conv_rhs => rw [← List.attach_map_subtype_val properties, List.map_map]
  rfl

/-- Texts beside texts agree, and so do objects beside equal objects. -/
theorem signatures_consistent_tags :
    let kind : String → List (String × Json) := fun name => [("type", .string name)]
    let extended : List (String × Json) → List (String × Json) → Json := fun properties extra =>
      .object [("type", .string "object"), ("properties", .object properties),
        ("additionalProperties", .object extra)]
    let record : List (String × Json) :=
      [("type", .string "object"), ("properties", .object [("x", .object (kind "string"))])]
    let requests : List Request := [
      .shape (extended [("id", .object (kind "string"))] (kind "string")),
      .shape (extended [("id", .object record)] record)]
    let id : Shape → Field Shape := fun value => { Field.named "id" value with optional := true }
    let signature : Shape → Field Shape := fun value => { key := .wildcard, value := value }
    let texts : Shape := .object [{ Field.named "x" .string with optional := true }]
    let reduction : Reduction := ⟨true, 2⟩
    let unite := Shape.unionBy (Shape.reduce reduction)
    (answers (.object []) requests empty).1 =
      [.string, texts].map (fun v => [.joined .and [.object [id v], .object [signature v]]]) ∧
    ∀ v ∈ [.string, texts],
      let s : Shape := .joined .and [.object [id v], .object [signature v]]
      s.reduce reduction = .object [id v, signature v] ∧
      ∃ c objects, Shape.Merges reduction s c objects ∧
        [id v, signature v] = Shape.mergedFields c unite 2 objects ∧
        Shape.Agree unite (Shape.valuesUnder (.named "id") objects)
          (Shape.valuesUnder .wildcard objects) := by
  intro kind extended record requests id signature texts reduction unite
  have hanswers : (answers (.object []) requests empty).1 =
      [.string, texts].map
        (fun v => [.joined .and [.object [id v], .object [signature v]]]) := by
    have hrecord : Schema.ofJson (.object record) =
        .object [{ Field.named "x" (.scalar .string) with optional := true }] := by
      simp [record, kind, Schema.ofJson, Schema.ofBranches, Schema.ofPlain, Schema.ofTyped,
        Schema.ofKind, Schema.ofProperties, Schema.listed?, Json.find?, Schema.requiredNames,
        Schema.description?, Json.get?, Field.named]
    have hplain : Json.find? "description" record = none ∧ Json.find? "default" record = none ∧
        Json.find? "readOnly" record = none := ⟨rfl, rfl, rfl⟩
    simp [requests, extended, ofJson_extended, hrecord, hplain, kind, ofJson_type, Schema.ofKind,
      Schema.description?, Json.get?, Json.find?, answers, answer, shapeOf, shapeWith, fieldsWith,
      withDictionary, dictionaryOf, Shape.isTrivial, Shape.ofFields, Field.insert, Field.named, id,
      signature, texts]
  refine ⟨hanswers, ?_⟩
  intro v hv s
  have hanswer : ∃ shapes ∈ (answers (.object []) requests empty).1, s ∈ shapes := by
    rw [hanswers]
    exact ⟨[s], List.mem_map_of_mem hv, List.mem_singleton_self s⟩
  have hreduce : s.reduce reduction = .object [id v, signature v] := by
    rcases List.mem_pair.1 hv with rfl | rfl <;> cbv
  have hoccurs : Shape.Occurs (.object [id v, signature v]) (s.reduce reduction) := hreduce ▸ .whole
  have hoffers : ∀ a ∈ v.alternatives, ∃ b ∈ v.alternatives, (b == a) = true := by
    intro a ha
    rcases List.mem_pair.1 hv with rfl | rfl <;>
      exact ⟨a, ha, by obtain rfl := List.mem_singleton.1 ha; cbv⟩
  obtain ⟨-, c, objects, hmerges, hfields, -, -, hagree⟩ :=
    (signatures_consistent (.object []) requests rfl (Or.inl hanswer)).2 _ hoccurs
      (signature v) (by simp) rfl (id v) (by simp) (by simp [id, Field.named])
  have hne : (signature v).value ≠ .any := by
    rcases List.mem_pair.1 hv with rfl | rfl <;> exact fun h => by cases h
  exact ⟨hreduce, c, objects, hmerges, hfields, (hagree.1 (Or.inr hoffers)).resolve_left hne⟩

/-- A number beside texts: the object of the properties and the dictionary are merged, and
the index signature of the merged object does not offer the number. -/
theorem signatures_contradict :
    let schema : Json := .object [("type", .string "object"),
      ("properties", .object [("id", .object [("type", .string "integer")])]),
      ("additionalProperties", .object [("type", .string "string")])]
    let id : Field Shape := { Field.named "id" .number with optional := true }
    let signature : Field Shape := { key := .wildcard, value := .string }
    let s : Shape := .joined .and [.object [id], .object [signature]]
    (answers (.object []) [.shape schema] empty).1 = [[s]] ∧
      s.reduce { precise := true } = .object [id, signature] ∧
      signature.key = .wildcard ∧ id.key ≠ .wildcard ∧
      ¬ (signature.value = .any ∨
        ∀ a ∈ id.value.alternatives, ∃ b ∈ signature.value.alternatives, (b == a) = true) := by
  intro schema id signature s
  have hschema : Schema.ofJson schema = .dictionary (.scalar .string)
      (.object [{ Field.named "id" (.scalar .number) with optional := true }]) := by
    simp [schema, ofJson_extended, ofJson_type, Schema.ofKind, Schema.description?, Json.get?,
      Json.find?, Field.named]
  refine ⟨?_, by cbv, rfl, by simp [id, Field.named], ?_⟩
  · simp [answers, answer, shapeOf, hschema, shapeWith, fieldsWith, withDictionary,
      dictionaryOf, Shape.isTrivial, Shape.ofFields, Field.insert, s, id, signature, Field.named]
  · rintro (hany | hoffers)
    · cases hany
    · obtain ⟨b, hb, hsame⟩ := hoffers .number (List.mem_singleton_self _)
      obtain rfl := List.mem_singleton.1 hb
      cases hsame

end TypedClient.Catalog
