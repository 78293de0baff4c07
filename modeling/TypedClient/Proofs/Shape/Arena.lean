import Mathlib.Data.List.Nodup
import TypedClient.Shape.Arena

/-!
# Names of an arena

A name has a shape exactly when it is one of the names of the arena, and defining a
name adds that name and no other. Since a name keeps its first shape, no name comes
twice.
-/

namespace TypedClient.Arena

/-- A name is found exactly when an entry has it. -/
theorem isSome_lookup {name : String} {entries : List (String × Shape)} :
    (lookup name entries).isSome = true ↔ name ∈ entries.map Prod.fst := by
  induction entries with
  | nil => simp [lookup]
  | cons entry rest ih =>
    by_cases he : entry.1 = name
    · simp [lookup, he]
    · rw [lookup, if_neg he, ih, List.map_cons, List.mem_cons]
      exact ⟨Or.inr, fun h => h.resolve_left (Ne.symm he)⟩

variable {arena : Arena} {name other : String} {s : Shape}

/-- A name is defined exactly when it is one of the names. -/
theorem contains_iff : arena.contains name = true ↔ name ∈ arena.names :=
  isSome_lookup

/-- A name with a shape is one of the names. -/
theorem mem_names_of_find? (h : arena.find? name = some s) : name ∈ arena.names :=
  List.mem_map.2 ⟨_, mem_of_lookup_eq_some h, rfl⟩

/-- A name without a shape is none of the names. -/
theorem not_mem_names_of_find?_eq_none (h : arena.find? name = none) : name ∉ arena.names := by
  rw [← contains_iff, contains, h]
  exact Bool.false_ne_true

/-- Defining a name adds no other entry. -/
theorem mem_entries_of_mem_define {entry : String × Shape}
    (h : entry ∈ (arena.define name s).1.entries) : entry ∈ arena.entries ∨ entry = (name, s) := by
  unfold define at h
  split at h
  · exact Or.inl h
  · exact (List.mem_append.1 h).imp_right List.mem_singleton.1

/-- Defining a name keeps the others. -/
theorem mem_names_define (h : other ∈ arena.names) : other ∈ (arena.define name s).1.names := by
  unfold define
  split
  · exact h
  · rw [names, List.map_append]
    exact List.mem_append_left _ h

/-- A name that is defined is one of the names. -/
theorem mem_names_define_self : name ∈ (arena.define name s).1.names := by
  unfold define
  split
  · rename_i hfind
    exact mem_names_of_find? hfind
  · rw [names, List.map_append]
    exact List.mem_append_right _ (List.mem_singleton_self name)

/-- A name is found among more entries when it is found among the first, and else among
the others. -/
theorem lookup_append {entries entries' : List (String × Shape)} :
    lookup name (entries ++ entries') = (lookup name entries).or (lookup name entries') := by
  induction entries with
  | nil => rfl
  | cons entry rest ih =>
    by_cases he : entry.1 = name
    · simp [lookup, he]
    · simp [lookup, he, ih]

/-- A name keeps the shape that it has, whatever is defined. -/
theorem find?_define_of_eq_some {s' : Shape} (h : arena.find? other = some s') :
    (arena.define name s).1.find? other = some s' := by
  unfold define
  split
  · exact h
  · rw [find?, lookup_append, ← find?, h, Option.some_or]

/-- A name that is not defined gets no shape. -/
theorem find?_define_of_ne (hne : other ≠ name) :
    (arena.define name s).1.find? other = arena.find? other := by
  unfold define
  split
  · rfl
  · have hnone : lookup other [(name, s)] = none := by simp [lookup, Ne.symm hne]
    rw [find?, lookup_append, hnone, Option.or_none, find?]

/-- A name without a shape gets the one that it is defined with. -/
theorem find?_define_self (h : arena.find? name = none) :
    (arena.define name s).1.find? name = some s := by
  unfold define
  rw [h, find?, lookup_append, ← find?, h, Option.none_or, lookup, if_pos rfl]

/-- An erased name is not found, and others are as before. -/
theorem find?_erase :
    (arena.erase name).find? other = if other = name then none else arena.find? other := by
  obtain ⟨entries⟩ := arena
  induction entries with
  | nil => simp [erase, find?, lookup]
  | cons entry rest ih =>
    simp only [erase, find?] at ih ⊢
    by_cases he : entry.1 = name
    · rw [List.filter_cons_of_neg (by simpa using he), ih, lookup, he]
      by_cases ho : other = name
      · simp [ho]
      · simp [ho, Ne.symm ho]
    · rw [List.filter_cons_of_pos (by simpa using he), lookup, ih, lookup]
      by_cases ho : entry.1 = other
      · simp [← ho, he]
      · simp [ho]

/-- Names have in the second arena the shapes that they have in the first. -/
def IsWithin (arena arena' : Arena) : Prop :=
  ∀ name s, arena.find? name = some s → arena'.find? name = some s

theorem IsWithin.refl (arena : Arena) : arena.IsWithin arena := fun _ _ h => h

theorem IsWithin.trans {arena' arena'' : Arena} (h : arena.IsWithin arena')
    (h' : arena'.IsWithin arena'') : arena.IsWithin arena'' :=
  fun name s hs => h' name s (h name s hs)

/-- Defining a name leaves the others their shapes, and the name its own. -/
theorem isWithin_define (arena : Arena) (name : String) (s : Shape) :
    arena.IsWithin (arena.define name s).1 :=
  fun _ _ h => find?_define_of_eq_some h

/-- Erasing a name from both leaves the others their shapes. -/
theorem IsWithin.erase {arena' : Arena} (h : arena.IsWithin arena') (name : String) :
    (arena.erase name).IsWithin (arena'.erase name) := by
  intro other s hs
  rw [find?_erase] at hs ⊢
  split at hs
  · cases hs
  · rename_i hne
    rw [if_neg hne]
    exact h other s hs

/-- A reference says as much as the shape of its name, without that name. -/
theorem isTrivial_reference {target : Shape} (h : arena.find? name = some target) :
    (Shape.reference name).isTrivial arena = target.isTrivial (arena.erase name) := by
  rw [Shape.isTrivial]
  split
  · rename_i hnone
    simp [h] at hnone
  · rename_i found hfound
    rw [Option.some.inj (hfound.symm.trans h)]

/-- What says something still does when more names have shapes. -/
theorem IsWithin.isTrivial_eq_false {arena' : Arena} (h : arena.IsWithin arena')
    (hs : s.isTrivial arena = false) : s.isTrivial arena' = false := by
  induction s, arena using Shape.isTrivial.induct generalizing arena' with
  | case5 arena name hnone =>
    rw [Shape.isTrivial] at hs
    split at hs
    · cases hs
    · rename_i hfound
      simp [hnone] at hfound
  | case6 arena name target hfind ih =>
    rw [isTrivial_reference hfind] at hs
    rw [isTrivial_reference (h name target hfind)]
    exact ih (h.erase name) hs
  | _ => simp_all [Shape.isTrivial]

/-- A new name comes after the others. -/
theorem names_define (h : name ∉ arena.names) :
    (arena.define name s).1.names = arena.names ++ [name] := by
  unfold define
  split
  · rename_i hfind
    exact absurd (mem_names_of_find? hfind) h
  · rw [names, List.map_append]
    rfl

/-- Defining a name makes no name come twice. -/
theorem nodup_names_define (h : arena.names.Nodup) : (arena.define name s).1.names.Nodup := by
  by_cases hname : name ∈ arena.names
  · obtain ⟨other, hfind⟩ := Option.isSome_iff_exists.1 (contains_iff.2 hname)
    rw [define, hfind]
    exact h
  · rw [names_define hname, ← List.concat_eq_append]
    exact h.concat hname

end TypedClient.Arena
