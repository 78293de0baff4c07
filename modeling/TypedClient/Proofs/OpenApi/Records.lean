import Mathlib.Data.List.Nodup
import Mathlib.Data.Option.Basic
import TypedClient.OpenApi.Record
import TypedClient.Proofs.Outcomes

/-!
# What a record is read from

A record that was read holds in each part what was read from its field: the member of that
name when the record is an object, and the element at the place of the field when it is a
list. A field that is left out leaves its part as it was before the reading.
-/

namespace TypedClient.OpenApi

/-- What a value has under one of the fields of a record: in an object the member of that
name, and in a list the element at the place of the field. -/
def part? (fields : List String) (name : String) : Json → Option Json
  | .object members => Json.find? name members
  | .array elements => elements[fields.idxOf name]?
  | _ => none

section Records

variable {ρ β : Type} {get : ρ → β} {P : Json → β → Prop} {slots : List (Slot ρ)} {s : Slot ρ}
  {r r' : ρ}

/-- A field leaves a part of the record as it is. -/
def Slot.Leaves (s : Slot ρ) (get : ρ → β) : Prop :=
  ∀ v r r', s.store v r = .ok r' → get r' = get r

/-- A field puts into a part of the record what its value stands for. -/
def Slot.Sets (s : Slot ρ) (get : ρ → β) (P : Json → β → Prop) : Prop :=
  ∀ v r r', s.store v r = .ok r' → P v (get r')

/-- One field of a record sets a part of it, and the others leave the part as it is. -/
structure IsPartOf (slots : List (Slot ρ)) (s : Slot ρ) (get : ρ → β) (P : Json → β → Prop) :
    Prop where
  /-- It is one of the fields. -/
  mem : s ∈ slots
  /-- The fields have different names. -/
  names : (slots.map Slot.name).Nodup
  /-- It sets the part. -/
  sets : s.Sets get P
  /-- The other fields leave it. -/
  leaves : ∀ t ∈ slots, t.name ≠ s.name → t.Leaves get

/-- What a part of a record is after the reading: what the value under its field stands for,
or what it was before. -/
def Holds (P : Json → β → Prop) (before : β) : Option Json → β → Prop
  | none, after => after = before
  | some value, after => P value after

theorem slot_leaves {α : Type} {name : String} {hasDefault : Bool} {read : Reader α}
    {put : α → ρ → ρ} (h : ∀ a r, get (put a r) = get r) :
    (slot name hasDefault read put).Leaves get := by
  intro v r r' hstore
  obtain ⟨a, -, rfl⟩ := ok_of_map_eq_ok hstore
  exact h a r

theorem slot_sets {α : Type} {name : String} {hasDefault : Bool} {read : Reader α}
    {put : α → ρ → ρ} (h : ∀ v a r, read v = .ok a → P v (get (put a r))) :
    (slot name hasDefault read put).Sets get P := by
  intro v r r' hstore
  obtain ⟨a, ha, rfl⟩ := ok_of_map_eq_ok hstore
  exact h v a r ha

/-- What succeeds one step further down has succeeded there. -/
theorem ok_of_within {α : Type} {step : Step} {result : Except Mismatch α} {a : α}
    (h : within step result = .ok a) : result = .ok a := by
  cases result with
  | error m => cases h
  | ok a' => exact congrArg Except.ok (Except.ok.inj h)

/-- Fields of one name are one field. -/
theorem IsPartOf.eq_of_name_eq (h : IsPartOf slots s get P) {t : Slot ρ} (ht : t ∈ slots)
    (hname : t.name = s.name) : t = s :=
  List.inj_on_of_nodup_map h.names ht h.mem hname

/-- The part of a record that is read from an object. -/
theorem holds_of_storeMembers (hpart : IsPartOf slots s get P) {members : List (String × Json)}
    (hkeys : (members.map Prod.fst).Nodup) (h : storeMembers slots members r = .ok r') :
    Holds P (get r) (Json.find? s.name members) (get r') := by
  induction members generalizing r with
  | nil =>
    cases h
    rfl
  | cons m rest ih =>
    obtain ⟨key, value⟩ := m
    obtain ⟨hnew, hrest⟩ := List.nodup_cons.1 hkeys
    unfold storeMembers at h
    split at h
    · rename_i t hfind
      obtain ⟨r₁, hstore, h⟩ := ok_of_bind_eq_ok h
      have hstore := ok_of_within hstore
      have ht : t ∈ slots := List.mem_of_find?_eq_some hfind
      have hname : t.name = key := by simpa using List.find?_some hfind
      have hlater := ih hrest h
      by_cases hkey : key = s.name
      · obtain rfl := hpart.eq_of_name_eq ht (hname.trans hkey)
        have hnone : Json.find? t.name rest = none := by
          cases hfound : Json.find? t.name rest with
          | none => rfl
          | some v =>
            exact absurd (List.mem_map_of_mem (Json.mem_of_find?_eq_some hfound)) (hname ▸ hnew)
        rw [hnone] at hlater
        rw [Json.find?, if_pos hkey, hlater]
        exact hpart.sets value r r₁ hstore
      · rw [Json.find?, if_neg hkey, ← hpart.leaves t ht (hname ▸ hkey) value r r₁ hstore]
        exact hlater
    · rename_i hfind
      have hkey : key ≠ s.name := by
        rintro rfl
        simpa using List.find?_eq_none.1 hfind s hpart.mem
      rw [Json.find?, if_neg hkey]
      exact ih hrest h

/-- Fields that are left out leave the record as it is. -/
theorem eq_of_storeElements_nil {title : String} {total length count : Nat}
    (h : storeElements title total length count slots [] r = .ok r') : r' = r := by
  induction slots generalizing count with
  | nil =>
    cases h
    rfl
  | cons t slots ih =>
    unfold storeElements at h
    split at h
    · exact ih h
    · cases h

/-- Fields that leave a part as it is do so together. -/
theorem leaves_storeElements {title : String} {total length count : Nat} {elements : List Json}
    (hleaves : ∀ t ∈ slots, t.Leaves get)
    (h : storeElements title total length count slots elements r = .ok r') : get r' = get r := by
  induction slots generalizing count elements r with
  | nil =>
    cases elements <;> cases h
    rfl
  | cons t slots ih =>
    cases elements with
    | nil => rw [eq_of_storeElements_nil h]
    | cons value rest =>
      obtain ⟨r₁, hstore, h⟩ := ok_of_bind_eq_ok h
      have hlater := ih (fun t ht => hleaves t (List.mem_cons_of_mem _ ht)) h
      exact hlater.trans (hleaves t List.mem_cons_self value r r₁ (ok_of_within hstore))

/-- The part of a record that is read from a list. -/
theorem holds_of_storeElements (hpart : IsPartOf slots s get P) {title : String}
    {total length count : Nat} {elements : List Json}
    (h : storeElements title total length count slots elements r = .ok r') :
    Holds P (get r) elements[(slots.map Slot.name).idxOf s.name]? (get r') := by
  induction slots generalizing count elements r with
  | nil => exact absurd hpart.mem List.not_mem_nil
  | cons t slots ih =>
    obtain ⟨hnew, hnames⟩ := List.nodup_cons.1 hpart.names
    cases elements with
    | nil =>
      rw [eq_of_storeElements_nil h]
      rfl
    | cons value rest =>
      obtain ⟨r₁, hstore, h⟩ := ok_of_bind_eq_ok h
      have hstore := ok_of_within hstore
      by_cases hname : t.name = s.name
      · obtain rfl := hpart.eq_of_name_eq List.mem_cons_self hname
        have hothers : ∀ u ∈ slots, u.Leaves get := fun u hu =>
          hpart.leaves u (List.mem_cons_of_mem _ hu) fun he => hnew (he ▸ List.mem_map_of_mem hu)
        rw [List.map_cons, List.idxOf_cons_self, List.getElem?_cons_zero]
        rw [Holds, leaves_storeElements hothers h]
        exact hpart.sets value r r₁ hstore
      · have hmem : s ∈ slots :=
          (List.mem_cons.1 hpart.mem).resolve_left fun he => hname (congrArg Slot.name he.symm)
        have hlater := ih ⟨hmem, hnames, hpart.sets, fun u hu =>
          hpart.leaves u (List.mem_cons_of_mem _ hu)⟩ h
        rw [hpart.leaves t List.mem_cons_self hname value r r₁ hstore] at hlater
        rw [List.map_cons, List.idxOf_cons_ne _ hname, List.getElem?_cons_succ]
        exact hlater

/-- A record that was read holds in a part what its field stands for. -/
theorem holds_of_recordOf (hpart : IsPartOf slots s get P) {title : String} {defaults : ρ}
    {value : Json} (hkeys : ∀ members, value = .object members → (members.map Prod.fst).Nodup)
    (h : recordOf title slots defaults value = .ok r) :
    Holds P (get defaults) (part? (slots.map Slot.name) s.name value) (get r) := by
  cases value with
  | object members => exact holds_of_storeMembers hpart (hkeys members rfl) h
  | array elements => exact holds_of_storeElements hpart h
  | _ => cases h

end Records

end TypedClient.OpenApi
