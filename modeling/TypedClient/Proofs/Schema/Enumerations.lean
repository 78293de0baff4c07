import TypedClient.Proofs.Schema.Walk
import TypedClient.Proofs.Shape.Unsigned

/-!
# Enumerations of equal values

A constant is named after the text of its value. The texts of the two zeros differ in
the sign only, and no identifier holds a sign, so equal lists of values make constants
of equal names. Where no two definitions share a name without being one value, an
enumeration is therefore settled by its name, up to the sign of zero.
-/

namespace TypedClient

/-- How the two zeros are written. -/
theorem Binary64.text_of_isZero {x : Binary64} (h : x.isZero = true) :
    x.text = if x.negative then "-0.0" else "0.0" := by
  have hshortest : x.shortest = ⟨0, 0⟩ := if_pos h
  rw [text, hshortest, if_pos h]
  cases x.negative <;> rfl

/-- Equal floating-point numbers have texts of one identifier. -/
theorem Binary64.identifier_text_eq_of_sameValue {x y : Binary64} (h : x.sameValue y = true) :
    identifier x.text = identifier y.text := by
  rw [sameValue, Bool.or_eq_true, Bool.and_eq_true, beq_iff_eq] at h
  rcases h with rfl | ⟨hx, hy⟩
  · rfl
  · rw [text_of_isZero hx, text_of_isZero hy]
    cases x.negative <;> cases y.negative <;> rfl

namespace Catalog

/-- Equal values name constants alike, and what names a constant differs in no more than
the sign of zero. -/
theorem constantLabel?_of_same {v w : Json} (h : v.same w = true) :
    (constantLabel? v).map identifier = (constantLabel? w).map identifier ∧
      (constantLabel? v ≠ none → v.unsigned = w.unsigned) := by
  cases v with
  | number n =>
    cases w with
    | number m =>
      cases n with
      | integer i =>
        cases m with
        | integer j =>
          have hij : i = j := by simpa [Json.same, Number.same] using h
          exact ⟨by rw [hij], fun _ => by rw [hij]⟩
        | float y => cases h
      | float x =>
        cases m with
        | integer j => cases h
        | float y =>
          have hxy : x.sameValue y = true := h
          refine ⟨congrArg some (Binary64.identifier_text_eq_of_sameValue hxy), fun _ => ?_⟩
          rw [Binary64.sameValue, Bool.or_eq_true, Bool.and_eq_true, beq_iff_eq] at hxy
          rcases hxy with rfl | ⟨hx, hy⟩
          · rfl
          · rw [Json.unsigned, Json.unsigned, if_pos hx, if_pos hy]
    | _ => cases h
  | string text =>
    cases w with
    | string text' =>
      have htext : text = text' := by simpa [Json.same] using h
      exact ⟨by rw [htext], fun _ => by rw [htext]⟩
    | _ => cases h
  | _ => cases w <;> first | exact ⟨rfl, fun hlabel => absurd rfl hlabel⟩ | cases h

/-- Equal lists of values make constants alike. -/
theorem constantsOf?_of_sameElements {values values' : List Json}
    (h : Json.sameElements values values' = true) (taken : List String) :
    (constantsOf? taken values).map (List.map EnumMember.unsigned) =
      (constantsOf? taken values').map (List.map EnumMember.unsigned) := by
  induction values generalizing values' taken with
  | nil =>
    cases values' with
    | nil => rfl
    | cons w rest' => cases h
  | cons v rest ih =>
    cases values' with
    | nil => cases h
    | cons w rest' =>
      obtain ⟨hfirst, hrest⟩ := Bool.and_eq_true_iff.1 h
      obtain ⟨hname, hvalue⟩ := constantLabel?_of_same hfirst
      rw [constantsOf?, constantsOf?]
      cases hv : constantLabel? v with
      | none =>
        cases hw : constantLabel? w with
        | none => rfl
        | some label => simp [hv, hw] at hname
      | some label =>
        cases hw : constantLabel? w with
        | none => simp [hv, hw] at hname
        | some label' =>
          rw [hv, hw] at hname
          have hidentifier : identifier label = identifier label' := Option.some.inj hname
          have hunsigned : v.unsigned = w.unsigned := hvalue (by simp [hv])
          have hothers := ih hrest (freeName taken (identifier label') :: taken)
          rw [Option.bind_some, Option.bind_some, hidentifier, Option.map_map, Option.map_map]
          generalize constantsOf? (freeName taken (identifier label') :: taken) rest = cs at hothers
          generalize constantsOf? (freeName taken (identifier label') :: taken) rest' = cs'
            at hothers
          cases cs with
          | none =>
            cases cs' with
            | none => rfl
            | some _ => cases hothers
          | some members =>
            cases cs' with
            | none => cases hothers
            | some members' =>
              have hmembers : members.map EnumMember.unsigned = members'.map EnumMember.unsigned :=
                Option.some.inj hothers
              simp [EnumMember.unsigned, hunsigned, hmembers]

/-- Equal lists of values make enumerations alike. -/
theorem enumerationOf?_of_sameElements {values values' : List Json}
    (h : Json.sameElements values values' = true) (name : String) :
    (enumerationOf? name values).map Enumeration.unsigned =
      (enumerationOf? name values').map Enumeration.unsigned := by
  have hconstants := constantsOf?_of_sameElements h []
  have hunsigned : ∀ cs : Option (List EnumMember),
      (cs.map (Enumeration.mk name)).map Enumeration.unsigned =
        (cs.map (List.map EnumMember.unsigned)).map (Enumeration.mk name) := by
    intro cs
    cases cs <;> rfl
  rw [enumerationOf?, enumerationOf?, hunsigned, hunsigned, hconstants]

/-- The key of listed values is that of a definition that lists them. -/
theorem exists_definition_of_correlatedKey? {values : List Json} {key : String}
    {entries : List (String × Json)} (h : correlatedKey? values entries = some key) :
    ∃ definition listed, (key, definition) ∈ entries ∧
      (definition.get? "enum").bind Json.asArray? = some listed ∧
        Json.sameElements listed values = true := by
  obtain ⟨⟨key', definition⟩, hfind, rfl⟩ := Option.map_eq_some_iff.1 h
  have hlists : listsExactly values definition = true := by
    simpa using List.find?_some hfind
  unfold listsExactly at hlists
  split at hlists
  · rename_i listed hlisted
    exact ⟨definition, listed, List.mem_of_find?_eq_some hfind, hlisted, hlists⟩
  · cases hlists

/-- Definitions of one name are one value. -/
def DefinitionsApart (document : Json) : Prop :=
  ∀ entry ∈ definitions document, ∀ entry' ∈ definitions document,
    identifier entry.1 = identifier entry'.1 → entry.2 = entry'.2

/-- An enumeration of a definition is the one that the values of this definition make,
however they were written where it was made. -/
theorem IsCorrelated.enumerationOf? {document : Json} {e : Enumeration}
    (he : IsCorrelated document e) (hapart : DefinitionsApart document) {values : List Json}
    {key : String} (hkey : correlatedKey? values (definitions document) = some key)
    (hname : e.name = identifier key) :
    (enumerationOf? (identifier key) values).map Enumeration.unsigned = some e.unsigned := by
  obtain ⟨values', key', hkey', he⟩ := he
  have hnames : identifier key' = identifier key :=
    (name_eq_of_enumerationOf? he).symm.trans hname
  obtain ⟨definition, listed, hmem, hlisted, hsame⟩ := exists_definition_of_correlatedKey? hkey
  obtain ⟨definition', listed', hmem', hlisted', hsame'⟩ :=
    exists_definition_of_correlatedKey? hkey'
  have hdefinition : definition' = definition := hapart _ hmem' _ hmem hnames
  have hlists : listed' = listed :=
    Option.some.inj (hlisted'.symm.trans (hdefinition ▸ hlisted))
  have hleft := enumerationOf?_of_sameElements hsame (identifier key)
  have hright := enumerationOf?_of_sameElements (hlists ▸ hsame') (identifier key)
  rw [← hleft, hright, ← hnames, he]
  rfl

/-- Values that have an enumeration under the name of their definition can be listed. -/
theorem IsCorrelated.canList {document : Json} {e : Enumeration} (he : IsCorrelated document e)
    (hapart : DefinitionsApart document) {values : List Json} {key : String}
    (hkey : correlatedKey? values (definitions document) = some key)
    (hname : e.name = identifier key) : canList document values = true := by
  have halike := he.enumerationOf? hapart hkey hname
  obtain ⟨e', he', -⟩ := Option.map_eq_some_iff.1 halike
  simp only [Catalog.canList, hkey, he', Option.isSome_some]

end Catalog

end TypedClient
