import TypedClient.Proofs.Module.Building

/-!
# What building may change

Between its constants and its function an endpoint only declares what shapes need and
gives names to groups and headers. So a relation between builders that declaring and
naming keep is kept by all of this: what is true of one such change is true of any
number of them.
-/

namespace TypedClient.Module

open TypeScript Building

/-- A relation between builders that any number of declarations keep, and any number of
names that are given to groups. -/
structure Allows (given : String → Option Shape → Prop) (R : Builder → Builder → Prop) : Prop where
  /-- A builder is related to itself. -/
  refl : ∀ b, R b b
  /-- Two changes make one. -/
  trans : ∀ b b' b'', R b b' → R b' b'' → R b b''
  /-- Declarations may be added. -/
  declare : ∀ b ds, R b { b with declarations := b.declarations ++ ds }
  /-- The group made ready, or the shape that says nothing, may get the name. -/
  define : ∀ b name group s, given name group →
    (s = .any ∨ ∃ known, group = some known ∧ s = b.prepare known) →
    R b { b with arena := (b.arena.define name s).1,
                 warnings := b.warnings ++ (b.arena.define name s).2 }

/-- Every run of a step that succeeds takes a builder to one that is related to it. -/
def Keeps {α : Type} (R : Builder → Builder → Prop) (step : Building α) : Prop :=
  ∀ b result b', step.Runs b result b' → R b b'

section Keeps

variable {α β : Type} {given : String → Option Shape → Prop} {R : Builder → Builder → Prop}

theorem Allows.pure (hR : Allows given R) (a : α) : Keeps R (pure a : Building α) := by
  intro b result b' hr
  obtain ⟨-, rfl⟩ := runs_pure hr
  exact hR.refl b'

/-- Two steps in a row. -/
theorem Allows.bind (hR : Allows given R) {step : Building α} {next : α → Building β}
    (h : Keeps R step) (h' : ∀ a, Keeps R (next a)) : Keeps R (step >>= next) := by
  intro b result b' hr
  obtain ⟨a, middle, hstep, hnext⟩ := runs_bind hr
  exact hR.trans b middle b' (h b a middle hstep) (h' a middle result b' hnext)

theorem Allows.get (hR : Allows given R) : Keeps R (get : Building Builder) := by
  intro b result b' hr
  obtain ⟨-, rfl⟩ := runs_get hr
  exact hR.refl b'

theorem Allows.isTrivial (hR : Allows given R) (s : Shape) : Keeps R (Building.isTrivial s) := by
  intro b result b' hr
  obtain ⟨-, rfl⟩ := runs_isTrivial hr
  exact hR.refl b'

theorem Allows.typeOf (hR : Allows given R) (s : Shape) : Keeps R (Building.typeOf s) := by
  intro b result b' hr
  obtain ⟨-, rfl⟩ := runs_typeOf hr
  exact hR.refl b'

theorem Allows.declareFor (hR : Allows given R) (s : Shape) : Keeps R (Building.declareFor s) := by
  intro b result b' hr
  obtain ⟨ds, -, rfl⟩ := runs_declareFor hr
  exact hR.declare b ds

theorem Allows.nameGroup (hR : Allows given R) {name : String} {group : Option Shape}
    (hn : given name group) : Keeps R (Building.nameGroup name group) := by
  intro b result b' hr
  rcases runs_nameGroup hr with ⟨_, -, -, rfl⟩ | ⟨-, s, hs, rfl⟩
  · exact hR.refl b'
  · exact hR.define b name group s hn hs

theorem Allows.declareGroups (hR : Allows given R) {name : String}
    {groups : List (String × String × Option Shape)}
    (hn : ∀ group ∈ groups, given (name ++ "_parameter_" ++ group.2.1) group.2.2) :
    Keeps R (declareGroups name groups) := by
  induction groups with
  | nil => exact hR.pure _
  | cons group rest ih =>
    refine hR.bind (hR.nameGroup (hn group List.mem_cons_self)) fun reference => ?_
    refine hR.bind (hR.declareFor reference) fun _ => hR.bind (hR.isTrivial reference) fun _ => ?_
    exact hR.bind (ih fun g hg => hn g (List.mem_cons_of_mem _ hg)) fun _ => hR.pure _

theorem Allows.headerType (hR : Allows given R) {name : String} {r : Response}
    (hn : given (name ++ "_response_header_" ++ r.status.text) r.header) :
    Keeps R (headerType name r) := by
  unfold Module.headerType
  split
  · exact hR.pure _
  · rename_i header hheader
    rw [hheader] at hn
    refine hR.bind (hR.nameGroup hn) fun reference => ?_
    refine hR.bind (hR.declareFor reference) fun _ => ?_
    refine hR.bind (hR.isTrivial reference) fun silent => ?_
    cases silent
    · exact hR.typeOf reference
    · exact hR.pure _

theorem Allows.responseType? (hR : Allows given R) {name : String} {r : Response}
    (hn : given (name ++ "_response_header_" ++ r.status.text) r.header) :
    Keeps R (responseType? name r) := by
  refine hR.bind hR.get fun b => hR.bind (hR.isTrivial _) fun silent => ?_
  cases silent
  · refine hR.bind (hR.declareFor _) fun _ => hR.bind (hR.typeOf _) fun _ => ?_
    exact hR.bind (hR.headerType hn) fun _ => hR.pure _
  · exact hR.pure _

theorem Allows.responseTypes (hR : Allows given R) {name : String} {responses : List Response}
    (hn : ∀ r ∈ responses, given (name ++ "_response_header_" ++ r.status.text) r.header) :
    Keeps R (responseTypes name responses) := by
  induction responses with
  | nil => exact hR.pure _
  | cons r rest ih =>
    refine hR.bind (hR.responseType? (hn r List.mem_cons_self)) fun _ => ?_
    exact hR.bind (ih fun r hr => hn r (List.mem_cons_of_mem _ hr)) fun _ => hR.pure _

theorem Allows.parametersFor (hR : Allows given R) (groups : List Group) (bodyOptional : Bool)
    (keys : List String) : Keeps R (parametersFor groups bodyOptional keys) := by
  induction keys with
  | nil => exact hR.pure _
  | cons key rest ih =>
    unfold Module.parametersFor
    split
    · exact ih
    · exact hR.bind (hR.typeOf _) fun _ => hR.bind ih fun _ => hR.pure _

theorem Allows.addNames (hR : Allows given R) (interfaces : List String) :
    Keeps R (addNames interfaces) := by
  induction interfaces with
  | nil => exact hR.pure _
  | cons name rest ih => exact hR.bind (hR.declareFor _) fun _ => ih

end Keeps

end TypedClient.Module
