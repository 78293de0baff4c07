import TypedClient.Proofs.Document.Stability

/-!
# Keys of a document

Replacing references keeps the keys of objects: what takes the place of a reference is a part
of the document, and an object that stays keeps its keys. So a property of values that looks
at nothing but the keys of objects and at scalars holds everywhere in a document with its
references replaced when it holds everywhere in the document. One such property is that a
document is read into objects that have every key once.
-/

namespace TypedClient

/-- Whether a value, if it is an object, has every key once. -/
def Json.HasDistinctKeys : Json → Prop
  | .object members => (members.map Prod.fst).Nodup
  | _ => True

/-- A property of values that looks at the keys of an object only, and at nothing in a list. -/
structure Json.LooksAtKeys (P : Json → Prop) : Prop where
  /-- It does not look at elements. -/
  array : ∀ elements elements', P (.array elements) → P (.array elements')
  /-- It does not look at the values of members. -/
  object : ∀ members members' : List (String × Json), members'.map Prod.fst = members.map Prod.fst →
    P (.object members) → P (.object members')

/-- Having every key once is said of the keys. -/
theorem Json.looksAtKeys_hasDistinctKeys : Json.LooksAtKeys Json.HasDistinctKeys := by
  refine ⟨fun _ _ _ => trivial, fun members members' hkeys h => ?_⟩
  rw [HasDistinctKeys, hkeys]
  exact h

namespace Document

section Keys

variable {P : Json → Prop} {document value x : Json} {f : String → Json → Except Failure Json}

/-- Members whose values are gone through keep their keys. -/
theorem map_fst_of_mapM {members out : List (String × Json)}
    (h : (members.mapM fun m => do return (m.1, ← inlined f m.2)) = .ok out) :
    out.map Prod.fst = members.map Prod.fst := by
  induction members generalizing out with
  | nil =>
    cases h
    rfl
  | cons m rest ih =>
    rw [List.mapM_cons] at h
    obtain ⟨first, hfirst, h⟩ := ok_of_bind_eq_ok h
    obtain ⟨others, hothers, h⟩ := ok_of_bind_eq_ok h
    obtain ⟨_, -, hfirst⟩ := ok_of_bind_eq_ok hfirst
    cases h
    cases hfirst
    rw [List.map_cons, List.map_cons, ih hothers]

/-- What is said of keys holds everywhere where it does in what follows from references. -/
theorem everywhere_inlined (hP : Json.LooksAtKeys P)
    (hf : ∀ r node y, node.Everywhere P → f r node = .ok y → y.Everywhere P)
    (hvalue : value.Everywhere P) (h : inlined f value = .ok x) : x.Everywhere P := by
  induction value using Json.tree_induction generalizing x with
  | array elements ih =>
    rw [inlined_array] at h
    obtain ⟨out, hout, h⟩ := ok_of_bind_eq_ok h
    cases h
    obtain ⟨hlist, helements⟩ := Json.everywhere_array.1 hvalue
    refine Json.everywhere_array.2 ⟨hP.array elements _ hlist, fun y hy => ?_⟩
    obtain ⟨v, hv, hy⟩ := exists_of_mem_mapM hout hy
    exact ih v hv (helements v hv) hy
  | object members ih =>
    cases hr : reference? members with
    | some r =>
      rw [inlined_of_reference? hr] at h
      exact hf r _ x hvalue h
    | none =>
      rw [inlined_of_reference?_eq_none hr] at h
      obtain ⟨out, hout, h⟩ := ok_of_bind_eq_ok h
      cases h
      obtain ⟨hkeys, hvalues⟩ := Json.everywhere_object.1 hvalue
      refine Json.everywhere_object.2
        ⟨hP.object members _ (map_fst_of_mapM hout) hkeys, fun m hm => ?_⟩
      obtain ⟨m', hm', hmade⟩ := exists_of_mem_mapM hout hm
      obtain ⟨y, hy, hsame⟩ := ok_of_bind_eq_ok hmade
      cases hsame
      exact ih m' hm' (hvalues m' hm') hy
  | _ =>
    cases h
    exact hvalue

/-- What is said of keys holds everywhere in what takes the place of a reference. -/
theorem everywhere_followWithin (hP : Json.LooksAtKeys P) (hdocument : document.Everywhere P)
    {level : Nat} {stack : List String} {r : String} {node : Json} (hnode : node.Everywhere P)
    (h : followWithin document level stack r node = .ok x) : x.Everywhere P := by
  induction level generalizing stack r node x with
  | zero =>
    unfold followWithin at h
    split at h
    · cases h
    · split at h
      · cases h
        exact hnode
      · split at h <;> cases h
  | succ level ih =>
    unfold followWithin at h
    split at h
    · cases h
    · rename_i target htarget
      split at h
      · cases h
        exact hnode
      · split at h
        · cases h
        · exact everywhere_inlined hP (fun _ _ _ hnode hy => ih hnode hy)
            (everywhere_of_resolve? hdocument htarget) h

/-- What is said of keys holds everywhere in a document with its references replaced when it
does in the document. -/
theorem everywhere_dereference (hP : Json.LooksAtKeys P) (hdocument : document.Everywhere P)
    (h : dereference document = .ok x) : x.Everywhere P :=
  everywhere_inlined hP (fun _ _ _ hnode hy => everywhere_followWithin hP hdocument hnode hy)
    hdocument h

/-- A document with its references replaced has every key once in each object when the
document has. -/
theorem hasDistinctKeys_dereference (hdocument : document.Everywhere Json.HasDistinctKeys)
    (h : dereference document = .ok x) : x.Everywhere Json.HasDistinctKeys :=
  everywhere_dereference Json.looksAtKeys_hasDistinctKeys hdocument h

end Keys

end Document

end TypedClient
