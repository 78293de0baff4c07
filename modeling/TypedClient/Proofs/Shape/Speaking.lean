import TypedClient.Proofs.Shape.Arena
import TypedClient.Proofs.Shape.Parts

/-!
# Shapes that say something

A shape says something when the chain of references that starts at it ends in a shape that
does. A name that is followed is erased on the way, but a chain that ends passes no name
twice, so erasing changes nothing. A chain that starts at a shape whose references are all
defined stays with the definitions, whatever other names have shapes too.
-/

namespace TypedClient

open Arena

/-- A chain of references leads from a shape to one that says something by itself. -/
inductive Shape.Speaks (arena : Arena) : Shape → Prop where
  /-- A shape that is no reference says something by itself. -/
  | here {s : Shape} (h : ∀ name, s ≠ .reference name) (hs : s.isTrivial Arena.empty = false) :
      Speaks arena s
  /-- A reference says what the shape of its name does. -/
  | there {name : String} {s : Shape} (h : arena.find? name = some s) (hs : Speaks arena s) :
      Speaks arena (.reference name)

/-- The references in a shape are to known names. -/
def Shape.RefersWithin (known : String → Prop) : Shape → Prop :=
  Shape.Everywhere fun s => ∀ name, s = .reference name → known name

/-- A shape stands for another: it is the same, or a reference to it. -/
def Arena.Leads (arena : Arena) (s target : Shape) : Prop :=
  s = target ∨ ∃ name, s = .reference name ∧ arena.find? name = some target

section Speaks

variable {arena arena' : Arena} {s target : Shape} {name : String}

/-- What is no reference says in every arena the same. -/
theorem isTrivial_of_ne_reference (h : ∀ name, s ≠ .reference name) :
    s.isTrivial arena = s.isTrivial Arena.empty := by
  cases s with
  | reference name => exact absurd rfl (h name)
  | _ => simp only [Shape.isTrivial]

/-- Without a name a chain still ends, or the chain from the shape of that name does. -/
theorem Shape.Speaks.erase (h : s.Speaks arena) (hname : arena.find? name = some target) :
    s.Speaks (arena.erase name) ∨ target.Speaks (arena.erase name) := by
  induction h with
  | here h hs => exact Or.inl (.here h hs)
  | @there other s hother _ ih =>
    by_cases he : other = name
    · subst he
      obtain rfl := Option.some.inj (hother.symm.trans hname)
      exact ih.elim Or.inr Or.inr
    · refine ih.imp_left (.there ?_)
      rw [find?_erase, if_neg he]
      exact hother

/-- The chain from the shape of a name ends without the name too. -/
theorem Shape.Speaks.erase_self (h : s.Speaks arena) (hname : arena.find? name = some s) :
    s.Speaks (arena.erase name) :=
  (h.erase hname).elim id id

/-- A chain ends in an arena with more names too. -/
theorem Shape.Speaks.mono (h : s.Speaks arena) (hwithin : arena.IsWithin arena') :
    s.Speaks arena' := by
  induction h with
  | here h hs => exact .here h hs
  | there hname _ ih => exact .there (hwithin _ _ hname) ih

/-- Erasing a name leaves names that had their shapes before. -/
theorem isWithin_of_erase (arena : Arena) (name : String) :
    (arena.erase name).IsWithin arena := by
  intro other s hs
  rw [find?_erase] at hs
  split at hs
  · cases hs
  · exact hs

/-- A shape is not left out exactly when it says something. -/
theorem isTrivial_eq_false_iff : s.isTrivial arena = false ↔ s.Speaks arena := by
  induction s, arena using Shape.isTrivial.induct with
  | case5 arena name hnone =>
    refine ⟨fun hs => ?_, fun hs => ?_⟩
    · rw [Shape.isTrivial] at hs
      split at hs
      · cases hs
      · rename_i hfound
        simp [hnone] at hfound
    · cases hs with
      | here h _ => exact absurd rfl (h name)
      | there h _ => simp [hnone] at h
  | case6 arena name target hfind ih =>
    rw [isTrivial_reference hfind, ih]
    refine ⟨fun hs => .there hfind (hs.mono (isWithin_of_erase arena name)), fun hs => ?_⟩
    cases hs with
    | here h _ => exact absurd rfl (h name)
    | there h hs =>
      obtain rfl := Option.some.inj (h.symm.trans hfind)
      exact hs.erase_self h
  | _ =>
    rw [isTrivial_of_ne_reference (by simp)]
    refine ⟨fun hs => .here (by simp) hs, fun hs => ?_⟩
    cases hs with
    | here _ hs => exact hs

/-- A shape that stands for another says as much. -/
theorem Arena.Leads.isTrivial_eq (h : arena.Leads s target) :
    s.isTrivial arena = target.isTrivial arena := by
  rcases h with rfl | ⟨name, rfl, hname⟩
  · rfl
  · rw [Bool.eq_iff_iff, ← not_iff_not, Bool.not_eq_true, Bool.not_eq_true,
      isTrivial_eq_false_iff, isTrivial_eq_false_iff]
    refine ⟨fun hs => ?_, .there hname⟩
    cases hs with
    | here h _ => exact absurd rfl (h name)
    | there h hs =>
      obtain rfl := Option.some.inj (h.symm.trans hname)
      exact hs

/-- What a shape stands for stays when more names have shapes. -/
theorem Arena.Leads.mono (h : arena.Leads s target) (hwithin : arena.IsWithin arena') :
    arena'.Leads s target :=
  h.imp_right fun ⟨name, hs, hname⟩ => ⟨name, hs, hwithin name target hname⟩

/-- Where definitions refer to each other only, a shape that refers to them only says as much
as it does when other names have shapes too. -/
theorem isTrivial_eq_of_isWithin
    (hclosed : ∀ name s, arena.find? name = some s → s.RefersWithin (· ∈ arena.names))
    (hwithin : arena.IsWithin arena') (hs : s.RefersWithin (· ∈ arena.names)) :
    s.isTrivial arena' = s.isTrivial arena := by
  rw [Bool.eq_iff_iff, ← not_iff_not, Bool.not_eq_true, Bool.not_eq_true,
    isTrivial_eq_false_iff, isTrivial_eq_false_iff]
  refine ⟨fun h => ?_, fun h => h.mono hwithin⟩
  induction h with
  | here h hspeaks => exact .here h hspeaks
  | @there name s hname _ ih =>
    obtain ⟨found, hfound⟩ := Option.isSome_iff_exists.1 (isSome_lookup.2 (hs.here name rfl))
    obtain rfl := Option.some.inj ((hwithin name found hfound).symm.trans hname)
    exact .there hfound (ih (hclosed name found hfound))

end Speaks

end TypedClient
