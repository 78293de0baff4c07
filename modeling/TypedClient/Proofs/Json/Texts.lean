import TypedClient.Proofs.Document.Keys

/-!
# Texts of a document

The texts of a document are its strings and the keys of its objects. A value is written with
allowed texts when each of them is allowed, and then so are its parts, what its references
point at, and the document with its references replaced.
-/

namespace TypedClient

/-- Texts can be put together line by line: no text at all is allowed, and two allowed texts
with a line feed between them are. -/
structure AllowsLines (allowed : String → Prop) : Prop where
  /-- No text at all is allowed. -/
  empty : allowed ""
  /-- A text is allowed below another. -/
  below : ∀ above below, allowed above → allowed below → allowed (above ++ "\n" ++ below)

namespace Json

/-- The outermost layer of a value has allowed texts only: a string is allowed, and so are the
keys of an object. -/
def UsesOnly (allowed : String → Prop) : Json → Prop
  | .string text => allowed text
  | .object members => ∀ key ∈ members.map Prod.fst, allowed key
  | _ => True

/-- All strings and keys in a value are allowed. -/
def IsWrittenWith (allowed : String → Prop) (value : Json) : Prop :=
  value.Everywhere (UsesOnly allowed)

section IsWrittenWith

variable {allowed : String → Prop} {value part : Json} {members : List (String × Json)}
  {key : String}

/-- A property of texts looks at no value of a member and at no element. -/
theorem looksAtKeys_usesOnly (allowed : String → Prop) : LooksAtKeys (UsesOnly allowed) :=
  ⟨fun _ _ _ => trivial, fun _ _ hkeys h => by rwa [UsesOnly, hkeys]⟩

@[simp] theorem isWrittenWith_string {text : String} :
    (Json.string text).IsWrittenWith allowed ↔ allowed text :=
  everywhere_string

@[simp] theorem isWrittenWith_array {elements : List Json} :
    (Json.array elements).IsWrittenWith allowed ↔ ∀ v ∈ elements, v.IsWrittenWith allowed :=
  everywhere_array.trans (and_iff_right trivial)

@[simp] theorem isWrittenWith_object :
    (Json.object members).IsWrittenWith allowed ↔
      ∀ m ∈ members, allowed m.1 ∧ m.2.IsWrittenWith allowed := by
  refine everywhere_object.trans ⟨fun ⟨hkeys, hvalues⟩ m hm => ?_, fun h => ⟨?_, fun m hm => ?_⟩⟩
  · exact ⟨hkeys m.1 (List.mem_map_of_mem hm), hvalues m hm⟩
  · intro key hkey
    obtain ⟨m, hm, rfl⟩ := List.mem_map.1 hkey
    exact (h m hm).1
  · exact (h m hm).2

/-- What is found in an object is written with allowed texts. -/
theorem IsWrittenWith.find? (h : (Json.object members).IsWrittenWith allowed)
    (hfind : Json.find? key members = some value) : value.IsWrittenWith allowed :=
  (isWrittenWith_object.1 h _ (mem_of_find?_eq_some hfind)).2

/-- What a value has under a key is written with allowed texts. -/
theorem IsWrittenWith.get? (h : value.IsWrittenWith allowed) (hget : value.get? key = some part) :
    part.IsWrittenWith allowed := by
  cases value with
  | object members => exact h.find? hget
  | _ => cases hget

/-- A text is allowed in a value that is written with allowed texts. -/
theorem IsWrittenWith.asString? {text : String} (h : value.IsWrittenWith allowed)
    (htext : value.asString? = some text) : allowed text := by
  cases value with
  | string s =>
    cases htext
    exact isWrittenWith_string.1 h
  | _ => cases htext

/-- A list of a value that is written with allowed texts has such elements. -/
theorem IsWrittenWith.asArray? {elements : List Json} (h : value.IsWrittenWith allowed)
    (helements : value.asArray? = some elements) : ∀ v ∈ elements, v.IsWrittenWith allowed := by
  cases value with
  | array values =>
    cases helements
    exact isWrittenWith_array.1 h
  | _ => cases helements

/-- The members of a value that is written with allowed texts have allowed keys and such
values. -/
theorem IsWrittenWith.asObject? (h : value.IsWrittenWith allowed)
    (hmembers : value.asObject? = some members) :
    ∀ m ∈ members, allowed m.1 ∧ m.2.IsWrittenWith allowed := by
  cases value with
  | object entries =>
    cases hmembers
    exact isWrittenWith_object.1 h
  | _ => cases hmembers

/-- A document with its references replaced has no other texts. -/
theorem IsWrittenWith.dereference (h : value.IsWrittenWith allowed)
    (hpart : Document.dereference value = .ok part) : part.IsWrittenWith allowed :=
  Document.everywhere_dereference (looksAtKeys_usesOnly allowed) h hpart

end IsWrittenWith

end Json

end TypedClient
