import Mathlib.Logic.Relation
import TypedClient.Proofs.Remaining
import TypedClient.Proofs.Shape.Speaking
import TypedClient.TypeScript.OfShape

/-!
# Names that stand for other names

A name whose shape is a reference is an alias, and aliases form chains. A chain ends at a
shape that is no reference, at a name without a shape, or it comes back to a name that it
has passed. Resolving counts its steps and the test for triviality erases the names that
it has followed, but both say how the chain goes on: a chain that is longer than the arena
has passed some name twice.
-/

namespace TypedClient

namespace Arena

/-- The shape of the first name is a reference to the second. -/
def IsAlias (arena : Arena) (name next : String) : Prop :=
  arena.find? name = some (.reference next)

/-- Following aliases leads from the first name to the second, in any number of steps. -/
def Passes (arena : Arena) (name last : String) : Prop :=
  Relation.ReflTransGen arena.IsAlias name last

/-- The chain of a name ends at a shape that is no reference. -/
def Reaches (arena : Arena) (name : String) (target : Shape) : Prop :=
  ∃ last, arena.Passes name last ∧ arena.find? last = some target ∧
    ∀ next, target ≠ .reference next

/-- The chain of a name ends at a name without a shape. -/
def Dangles (arena : Arena) (name : String) : Prop :=
  ∃ last, arena.Passes name last ∧ arena.find? last = none

/-- The chain of a name comes to a name that leads back to itself. -/
def Cycles (arena : Arena) (name : String) : Prop :=
  ∃ last, arena.Passes name last ∧ Relation.TransGen arena.IsAlias last last

section Chains

variable {arena : Arena} {name next last : String} {target : Shape}

/-- A name is an alias of one name at most. -/
theorem rightUnique_isAlias (arena : Arena) : Relator.RightUnique arena.IsAlias := by
  intro name next next' h h'
  have hsame : some (Shape.reference next) = some (.reference next') := Eq.trans (Eq.symm h) h'
  cases hsame
  rfl

/-- The chain of an alias goes on as the chain of the name that it stands for. -/
theorem Reaches.head (h : arena.IsAlias name next) (hr : arena.Reaches next target) :
    arena.Reaches name target :=
  hr.imp fun _ ⟨hpass, htarget⟩ => ⟨.head h hpass, htarget⟩

theorem Dangles.head (h : arena.IsAlias name next) (hd : arena.Dangles next) :
    arena.Dangles name :=
  hd.imp fun _ ⟨hpass, hnone⟩ => ⟨.head h hpass, hnone⟩

theorem Cycles.head (h : arena.IsAlias name next) (hc : arena.Cycles next) :
    arena.Cycles name :=
  hc.imp fun _ ⟨hpass, hself⟩ => ⟨.head h hpass, hself⟩

/-- A name that is no alias passes itself only. -/
theorem eq_of_passes (hend : ∀ next, ¬ arena.IsAlias name next) (h : arena.Passes name last) :
    last = name := by
  cases Relation.ReflTransGen.cases_head h with
  | inl he => exact he.symm
  | inr hstep =>
    obtain ⟨next, hnext, -⟩ := hstep
    exact absurd hnext (hend next)

/-- From a name that leads back to itself only such names are passed. -/
theorem transGen_of_passes (hself : Relation.TransGen arena.IsAlias name name)
    (h : arena.Passes name last) : Relation.TransGen arena.IsAlias last last := by
  induction h with
  | refl => exact hself
  | @tail middle last _ hstep ih =>
    obtain ⟨next, hnext, hback⟩ := Relation.TransGen.head'_iff.1 ih
    -- the one step that leaves `middle` leads to `last`
    obtain rfl : next = last := rightUnique_isAlias arena hnext hstep
    exact Relation.TransGen.tail' hback hstep

/-- A chain that ends at a name that is no alias passes no other end. -/
theorem passes_of_end (hend : ∀ next, ¬ arena.IsAlias last next) (h : arena.Passes name last)
    {other : String} (ho : arena.Passes name other) : arena.Passes other last := by
  rcases Relation.ReflTransGen.total_of_right_unique (rightUnique_isAlias arena) h ho with hlo | hol
  · rw [eq_of_passes hend hlo]
    exact .refl
  · exact hol

/-- Where a chain reaches a shape, the name of that shape is no alias. -/
theorem not_isAlias_of_ne_reference (h : arena.find? last = some target)
    (hne : ∀ next, target ≠ .reference next) (next : String) : ¬ arena.IsAlias last next :=
  fun halias => hne next (Option.some.inj (h.symm.trans halias))

/-- A chain that reaches a shape does not dangle. -/
theorem Reaches.not_dangles (h : arena.Reaches name target) : ¬ arena.Dangles name := by
  rintro ⟨other, hother, hnone⟩
  obtain ⟨last, hlast, hfind, hne⟩ := h
  have hpass : arena.Passes other last :=
    passes_of_end (not_isAlias_of_ne_reference hfind hne) hlast hother
  have hend : ∀ next, ¬ arena.IsAlias other next := fun next halias =>
    nomatch hnone.symm.trans halias
  rw [eq_of_passes hend hpass, hnone] at hfind
  cases hfind

/-- A chain that reaches a shape does not run in a circle. -/
theorem Reaches.not_cycles (h : arena.Reaches name target) : ¬ arena.Cycles name := by
  rintro ⟨other, hother, hself⟩
  obtain ⟨last, hlast, hfind, hne⟩ := h
  have hend := not_isAlias_of_ne_reference hfind hne
  have hpass : arena.Passes other last := passes_of_end hend hlast hother
  obtain ⟨next, hnext, -⟩ := Relation.TransGen.head'_iff.1 (transGen_of_passes hself hpass)
  exact hend next hnext

end Chains

section Resolve

variable {arena : Arena} {name : String} {target : Shape} {steps : Nat}

/-- What is found within some steps is where the chain ends. -/
theorem reaches_of_resolveWithin (h : arena.resolveWithin steps name = some target) :
    arena.Reaches name target := by
  induction steps generalizing name with
  | zero => cases h
  | succ steps ih =>
    rw [resolveWithin] at h
    split at h
    · cases h
    · rename_i next hfind
      exact (ih h).head hfind
    · rename_i found hne hfind
      cases h
      exact ⟨name, .refl, hfind, fun next he => hne next (he ▸ rfl)⟩

/-- Where nothing is found, the chain dangles or runs in a circle, if the steps allow for
all names that the chain has not passed before. -/
theorem dangles_or_cycles_of_resolveWithin {met : List String}
    (hmet : ∀ m ∈ met, Relation.TransGen arena.IsAlias m name)
    (hsteps : remaining arena.names met < steps)
    (h : arena.resolveWithin steps name = none) : arena.Dangles name ∨ arena.Cycles name := by
  induction steps generalizing name met with
  | zero => exact absurd hsteps (Nat.not_lt_zero _)
  | succ steps ih =>
    rw [resolveWithin] at h
    split at h
    · rename_i hfind
      exact Or.inl ⟨name, .refl, hfind⟩
    · rename_i next hfind
      by_cases hback : name ∈ met
      · exact Or.inr ⟨name, .refl, hmet name hback⟩
      · have hless : remaining arena.names (name :: met) < remaining arena.names met :=
          remaining_cons_lt (mem_names_of_find? hfind) hback
        have hmet' : ∀ m ∈ name :: met, Relation.TransGen arena.IsAlias m next :=
          List.forall_mem_cons.2 ⟨.single hfind, fun m hm => (hmet m hm).tail hfind⟩
        exact (ih hmet' (by omega) h).imp (Dangles.head hfind) (Cycles.head hfind)
    · cases h

/-- Resolving takes enough steps for every name of the arena and one more. -/
theorem dangles_or_cycles_of_resolve? (h : arena.resolve? name = none) :
    arena.Dangles name ∨ arena.Cycles name := by
  have hsteps : remaining arena.names [] ≤ arena.names.length := remaining_le_length
  rw [names, List.length_map] at hsteps
  exact dangles_or_cycles_of_resolveWithin (by simp) (Nat.lt_succ_of_le hsteps) h

/-- A name resolves to the shape at which its chain ends. -/
theorem resolve?_eq_some_iff : arena.resolve? name = some target ↔ arena.Reaches name target := by
  refine ⟨reaches_of_resolveWithin, fun h => ?_⟩
  cases hr : arena.resolve? name with
  | none =>
    rcases dangles_or_cycles_of_resolve? hr with hd | hc
    · exact absurd hd h.not_dangles
    · exact absurd hc h.not_cycles
  | some found =>
    obtain ⟨last, hlast, hfind, hne⟩ := h
    obtain ⟨last', hlast', hfind', hne'⟩ := reaches_of_resolveWithin hr
    have hpass : arena.Passes last' last :=
      passes_of_end (not_isAlias_of_ne_reference hfind hne) hlast hlast'
    rw [eq_of_passes (not_isAlias_of_ne_reference hfind' hne') hpass] at hfind
    exact hfind'.symm.trans hfind

/-- A name resolves to nothing exactly when its chain dangles or runs in a circle. -/
theorem resolve?_eq_none_iff :
    arena.resolve? name = none ↔ arena.Dangles name ∨ arena.Cycles name := by
  refine ⟨dangles_or_cycles_of_resolve?, fun h => ?_⟩
  rw [Option.eq_none_iff_forall_ne_some]
  intro target hsome
  have hreaches := resolve?_eq_some_iff.1 hsome
  exact h.elim hreaches.not_dangles hreaches.not_cycles

/-- A reference says something exactly when its chain ends at a shape that does. -/
theorem speaks_reference_iff : (Shape.reference name).Speaks arena ↔
    ∃ target, arena.Reaches name target ∧ target.isTrivial arena = false := by
  constructor
  · intro h
    generalize hs : Shape.reference name = s at h
    induction h generalizing name with
    | here hne _ => exact absurd hs.symm (hne name)
    | @there other s hfind hspeaks ih =>
      cases hs
      cases hspeaks with
      | here hne hs =>
        rw [← isTrivial_of_ne_reference hne] at hs
        exact ⟨s, ⟨other, .refl, hfind, hne⟩, hs⟩
      | there =>
        obtain ⟨target, hreaches, htarget⟩ := ih rfl
        exact ⟨target, hreaches.head hfind, htarget⟩
  · rintro ⟨target, ⟨last, hpass, hfind, hne⟩, htarget⟩
    rw [isTrivial_of_ne_reference hne] at htarget
    induction hpass using Relation.ReflTransGen.head_induction_on with
    | refl => exact .there hfind (.here hne htarget)
    | head hstep _ ih => exact .there hstep ih

end Resolve

end Arena

namespace TypeScript

/-- What a name that says nothing is written as, by what it resolves to: an object without
fields and no value are `void`, null and undefined are themselves, and the rest is `any`. -/
def TypeNode.ofTrivial : Option Shape → TypeNode
  | some (.object []) | some .void => .keyword .void
  | some (.literal ⟨some .null, _⟩) => .keyword .null
  | some (.literal ⟨none, _⟩) => .keyword .undefined
  | _ => .any

variable {arena : Arena} {name : String}

/-- A reference is trivial exactly when its name resolves to nothing, or to a shape that is
trivial and no reference. -/
theorem isTrivial_reference_iff : (Shape.reference name).isTrivial arena = true ↔
    arena.resolve? name = none ∨ ∃ target, arena.resolve? name = some target ∧
      (∀ next, target ≠ .reference next) ∧ target.isTrivial arena = true := by
  rw [← Bool.not_eq_false, isTrivial_eq_false_iff, Arena.speaks_reference_iff]
  constructor
  · intro h
    cases hr : arena.resolve? name with
    | none => exact Or.inl rfl
    | some target =>
      have hreaches := Arena.resolve?_eq_some_iff.1 hr
      have htrivial : ¬ target.isTrivial arena = false := fun ht => h ⟨target, hreaches, ht⟩
      obtain ⟨-, -, -, hne⟩ := hreaches
      exact Or.inr ⟨target, rfl, hne, by simpa using htrivial⟩
  · rintro h ⟨target, hreaches, htarget⟩
    have hr := Arena.resolve?_eq_some_iff.2 hreaches
    rcases h with hnone | ⟨other, hother, -, ht⟩
    · cases hnone.symm.trans hr
    · obtain rfl := Option.some.inj (hother.symm.trans hr)
      rw [htarget] at ht
      cases ht

/-- A name that says nothing is written as what it resolves to. -/
theorem TypeNode.ofReference_eq : TypeNode.ofReference arena name =
    if (Shape.reference name).isTrivial arena then TypeNode.ofTrivial (arena.resolve? name)
    else .named name := by
  unfold TypeNode.ofReference
  split
  · rename_i htrivial
    rcases isTrivial_reference_iff.1 htrivial with hnone | ⟨target, hr, -, ht⟩
    · rw [hnone]
      rfl
    · rw [hr]
      cases target with
      | literal l =>
        obtain ⟨value, constant⟩ := l
        rw [Shape.isTrivial] at ht
        cases value with
        | none => rfl
        | some value =>
          cases value <;> first | rfl | simp [Literal.isNullish, Json.isNull] at ht
      | object fields =>
        rw [Shape.isTrivial, List.isEmpty_iff] at ht
        rw [ht]
        rfl
      | _ => rfl
  · rfl

/-- A name resolves to the first shape on its chain that is no reference, and to nothing
exactly when the chain dangles or runs in a circle. A reference to it is trivial exactly
when it resolves to nothing or to a trivial shape, and then it is written as what that shape
amounts to; any other reference is written as its name. -/
theorem reference_resolved (arena : Arena) (name : String) :
    (∀ target, arena.resolve? name = some target ↔ arena.Reaches name target) ∧
    (arena.resolve? name = none ↔ arena.Dangles name ∨ arena.Cycles name) ∧
    ((Shape.reference name).isTrivial arena = true ↔
      arena.resolve? name = none ∨ ∃ target, arena.resolve? name = some target ∧
        (∀ next, target ≠ .reference next) ∧ target.isTrivial arena = true) ∧
    TypeNode.ofShape arena (.reference name) = .ok
      (if (Shape.reference name).isTrivial arena then TypeNode.ofTrivial (arena.resolve? name)
      else .named name) := by
  refine ⟨fun _ => Arena.resolve?_eq_some_iff, Arena.resolve?_eq_none_iff,
    isTrivial_reference_iff, ?_⟩
  rw [← TypeNode.ofReference_eq, TypeNode.ofShape]
  simp only [Shape.widen, TypeNode.ofWidened]

-- a circle that is entered from outside of it
example :
    let arena : Arena := ⟨[("A", .reference "B"), ("B", .reference "C"), ("C", .reference "B")]⟩
    arena.resolve? "A" = none ∧ TypeNode.ofReference arena "A" = .any := by
  cbv

end TypeScript

end TypedClient
