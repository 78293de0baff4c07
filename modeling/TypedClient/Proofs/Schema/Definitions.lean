import TypedClient.Proofs.Document.Stability
import TypedClient.Proofs.Json.Pointers
import TypedClient.Proofs.Schema.Walk

/-!
# References to definitions

A definition is referred to by its key as a pointer writes it. Looking the reference up and
naming it both read the key, from the same text, so they agree with each other and with the
name that is given to the definition, whatever the key looks like.
-/

namespace TypedClient

/-- What has a key is found under it. -/
theorem Json.exists_find? {members : List (String × Json)} {key : String}
    (h : key ∈ members.map Prod.fst) : ∃ value, find? key members = some value := by
  induction members with
  | nil => cases h
  | cons m rest ih =>
    rw [find?]
    split
    · exact ⟨m.2, rfl⟩
    · rename_i hne
      exact ih ((List.mem_cons.1 h).resolve_left (Ne.symm hne))

namespace Document

/-- The reference to the definition under a key. -/
def definitionReference (key : String) : String :=
  "#/definitions/" ++ String.ofList (Json.escapeKey key.toList)

section References

variable {document : Json} {key : String}

/-- The text of the reference, behind what all of them start with. -/
theorem toList_definitionReference (key : String) :
    (definitionReference key).toList = definitionMark ++ Json.escapeKey key.toList := by
  rw [definitionReference, String.toList_append]
  exact congrArg (definitionMark ++ ·) String.toList_ofList

theorem isDefinition_definitionReference (key : String) :
    isDefinition (definitionReference key) = true := by
  rw [isDefinition, toList_definitionReference]
  exact List.isPrefixOf_iff_prefix.2 (List.prefix_append _ _)

/-- It is named by the key. -/
theorem targetName_definitionReference (key : String) :
    targetName (definitionReference key) = identifier key := by
  have hmark : definitionMark.isPrefixOf (definitionMark ++ Json.escapeKey key.toList) = true :=
    List.isPrefixOf_iff_prefix.2 (List.prefix_append _ _)
  rw [targetName, toList_definitionReference]
  simp only [hmark, if_true, List.drop_left, Json.unescapeKey_escapeKey, String.ofList_toList]

/-- It goes down by the key, below the definitions. -/
theorem path_definitionReference (key : String) :
    path (definitionReference key) = ["definitions".toList, key.toList] := by
  have hescaped : Json.escapeKey "definitions".toList = "definitions".toList := by decide
  have htext : (definitionReference key).toList = '#' :: '/' ::
      (Json.escapeKey "definitions".toList ++ Json.pointerOf [key.toList]) := by
    have hpointer : Json.pointerOf [key.toList] = '/' :: Json.escapeKey key.toList :=
      List.append_nil _
    have hmark : definitionMark = '#' :: '/' :: ("definitions".toList ++ ['/']) := by decide
    rw [toList_definitionReference, hpointer, hescaped, hmark]
    simp
  have hread : (["definitions".toList, key.toList].map Json.escapeKey).map Json.unescapeKey =
      ["definitions".toList, key.toList] := by
    simp [Json.unescapeKey_escapeKey]
  simp only [path, htext, Json.splitAt_pointerOf]
  exact hread

/-- It points at the definition. -/
theorem resolve?_definitionReference {target : Json}
    (h : Json.find? key (Catalog.definitions document) = some target) :
    resolve? document (definitionReference key) = some target := by
  rw [resolve?_eq_descend? (isDefinition_definitionReference key), path_definitionReference]
  have hfound : ∃ entries, document.child? "definitions".toList = some (.object entries) ∧
      Json.find? key entries = some target := by
    cases hget : document.get? "definitions" with
    | none => simp [Catalog.definitions, hget, Json.find?] at h
    | some value =>
      cases value with
      | object entries =>
        have hentries : Catalog.definitions document = entries := by
          rw [Catalog.definitions, hget]
          rfl
        cases document with
        | object members => exact ⟨entries, hget, hentries ▸ h⟩
        | _ => cases hget
      | _ => simp [Catalog.definitions, hget, Json.asObject?, Json.find?] at h
  obtain ⟨entries, hentries, htarget⟩ := hfound
  have hchild : (Json.object entries).child? key.toList = some target := by
    rw [Json.child?, String.ofList_toList, htarget]
  simp only [Json.descend?, hentries, hchild, Option.bind_some]

/-- A reference survives: no object that stands for it is replaced. -/
structure Survives (document : Json) (r : String) : Prop where
  /-- Wherever a walk meets such an object, it is left as it is. -/
  kept : ∀ level stack members, reference? members = some r →
    inlined (followWithin document level stack) (.object members) = .ok (.object members)
  /-- In the result it is where it was in the document, unless it is below a reference. -/
  placed : ∀ out keys members, dereference document = .ok out →
    goesBelow (fun _ => true) document keys = false →
      document.descend? keys = some (.object members) → reference? members = some r →
        out.descend? keys = some (.object members)
  /-- The document never fails because of the reference. -/
  harmless : dereference document ≠ .error (.unresolvableReference r) ∧
    dereference document ≠ .error (.circularReference r)

/-- A reference to a definition that points at something survives. -/
theorem survives_of_isDefinition {r : String} {target : Json} (hmark : isDefinition r = true)
    (htarget : resolve? document r = some target) : Survives document r := by
  have hkept : ∀ level stack members, reference? members = some r →
      inlined (followWithin document level stack) (.object members) = .ok (.object members) := by
    intro level stack members hr
    rw [inlined_of_reference? hr]
    unfold followWithin
    simp [htarget, hmark]
  have hcause : ∀ e, dereference document = .error e →
      e ≠ .unresolvableReference r ∧ e ≠ .circularReference r := by
    intro e he
    obtain ⟨bad, -, ⟨rfl, hnone⟩ | ⟨rfl, hself⟩⟩ := (he ▸ yields_dereference document).cause
    · refine ⟨fun h => ?_, by simp⟩
      cases h
      simp [htarget] at hnone
    · refine ⟨by simp, fun h => ?_⟩
      cases h
      obtain ⟨next, ⟨hreplaced, -⟩, -⟩ := Relation.TransGen.head'_iff.1 hself
      simp [hmark] at hreplaced
  refine ⟨hkept, fun out keys members hout hbelow hpart hr => ?_,
    fun h => (hcause _ h).1 rfl, fun h => (hcause _ h).2 rfl⟩
  obtain ⟨made, hmade, hinlined⟩ := exists_descend?_inlined hout hbelow hpart
  cases (hkept _ _ _ hr).symm.trans hinlined
  exact hmade

end References

end Document

namespace Catalog

open Document

/-- The names that definitions are given are those of their keys. -/
theorem nameEach_fst (document : Json) (entries : List (String × Json)) (c : Catalog) :
    (nameEach document entries c).1 = entries.map fun entry => identifier entry.1 := by
  induction entries generalizing c with
  | nil => rfl
  | cons entry rest ih => exact congrArg _ (ih _)

/-- A reference that points at something is read as the name for it. -/
theorem shapeOf_of_reference? {document target : Json} {members : List (String × Json)}
    {r : String} (hr : reference? members = some r) (htarget : resolve? document r = some target)
    (c : Catalog) :
    (shapeOf document (.object members) c).1 = .reference (targetName r) := by
  have hread : Schema.ofJson (.object members) = .reference r := by
    unfold reference? at hr
    rw [Schema.ofJson, hr]
  rw [shapeOf, hread, shapeWith, followWith, htarget]
  exact nameWithin_fst _ _ _ c

/-- The reference to a definition by its key points at the definition and survives, and it is
read as the name that the definition is given, which is that of its key. Unless the definition
is below a reference, the reference points at what has become of it in the result as well. -/
theorem definition_references_agree (document : Json) (key : String)
    (h : key ∈ (definitions document).map Prod.fst) :
    (∃ target, Json.find? key (definitions document) = some target ∧
      resolve? document (definitionReference key) = some target) ∧
    Survives document (definitionReference key) ∧
    (∀ out, dereference document = .ok out →
      goesBelow (fun _ => true) document (path (definitionReference key)) = false →
        ∃ made, resolve? out (definitionReference key) = some made) ∧
    targetName (definitionReference key) = identifier key ∧
    (∀ members c, reference? members = some (definitionReference key) →
      (shapeOf document (.object members) c).1 = .reference (identifier key)) ∧
    ∀ c, (nameDefinitions document c).1 =
      (definitions document).map fun entry => targetName (definitionReference entry.1) := by
  obtain ⟨target, hfound⟩ := Json.exists_find? h
  have htarget := resolve?_definitionReference hfound
  refine ⟨⟨target, hfound, htarget⟩,
    survives_of_isDefinition (isDefinition_definitionReference key) htarget,
    fun out hout hbelow => ?_, targetName_definitionReference key, fun members c hr => ?_,
    fun c => ?_⟩
  · have hmark := isDefinition_definitionReference key
    rw [resolve?_eq_descend? hmark] at htarget ⊢
    obtain ⟨made, hmade, -⟩ := exists_descend?_inlined hout hbelow htarget
    exact ⟨made, hmade⟩
  · rw [shapeOf_of_reference? hr htarget, targetName_definitionReference]
  · rw [nameDefinitions, nameEach_fst]
    exact List.map_congr_left fun entry _ => (targetName_definitionReference entry.1).symm

/-- Definitions with keys that look like what a pointer writes, and a list that refers to one of
them: the reference stays in the list. -/
theorem definition_references_agree_keys :
    let document : Json := .object
      [("definitions", .object [("~1", .object []), ("~01", .null), ("a/b", .bool true),
        ("", .string "any")]),
       ("pets", .array [.object [("$ref", .string "#/definitions/~01")]])]
    (∀ key ∈ ["~1", "~01", "a/b", ""], key ∈ (definitions document).map Prod.fst ∧
      (∃ target, Json.find? key (definitions document) = some target ∧
        resolve? document (definitionReference key) = some target) ∧
      targetName (definitionReference key) = identifier key) ∧
    ["~1", "~01", "a/b", ""].map definitionReference = ["#/definitions/~01",
      "#/definitions/~001", "#/definitions/a~1b", "#/definitions/"] ∧
    ∃ out, dereference document = .ok out ∧
      out.descend? ["pets".toList, ['0']] =
        some (.object [("$ref", .string "#/definitions/~01")]) := by
  intro document
  have hkeys : ∀ key ∈ ["~1", "~01", "a/b", ""], key ∈ (definitions document).map Prod.fst := by
    decide +kernel
  have hspelled : ["~1", "~01", "a/b", ""].map definitionReference = ["#/definitions/~01",
      "#/definitions/~001", "#/definitions/a~1b", "#/definitions/"] := by
    decide +kernel
  have hsome : (dereference document).toOption.isSome = true := by decide +kernel
  obtain ⟨out, hout⟩ := Option.isSome_iff_exists.1 hsome
  refine ⟨fun key hkey => ?_, hspelled, out, eq_ok_of_toOption hout, ?_⟩
  · obtain ⟨hresolved, -, -, hname, -⟩ :=
      definition_references_agree document key (hkeys key hkey)
    exact ⟨hkeys key hkey, hresolved, hname⟩
  · obtain ⟨-, hsurvives, -⟩ :=
      definition_references_agree document "~1" (hkeys _ List.mem_cons_self)
    rw [(List.cons.inj hspelled).1] at hsurvives
    exact hsurvives.placed out _ _ (eq_ok_of_toOption hout) rfl rfl rfl

end Catalog

end TypedClient
