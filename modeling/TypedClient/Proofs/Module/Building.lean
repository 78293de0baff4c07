import TypedClient.Module.Generate
import TypedClient.Proofs.Outcomes

/-!
# Steps of building

What each basic step of building a module does to the builder when it succeeds, and
how a run of several steps comes apart into runs of each. Later results look at
these equations only, not at the steps themselves.
-/

namespace TypedClient

namespace TypeScript

section FirstByName

variable {α : Type} {name : α → String} {seen : List String} {elements : List α} {a : α}

/-- What is kept was there. -/
theorem mem_of_mem_firstByNameFrom (h : a ∈ firstByNameFrom name seen elements) : a ∈ elements := by
  induction elements generalizing seen with
  | nil => exact h
  | cons b rest ih =>
    unfold firstByNameFrom at h
    split at h
    · exact List.mem_cons_of_mem _ (ih h)
    · rcases List.mem_cons.1 h with rfl | h
      · exact List.mem_cons_self
      · exact List.mem_cons_of_mem _ (ih h)

/-- Of every name that was not seen before an element is kept. -/
theorem exists_mem_firstByNameFrom (ha : a ∈ elements) (hs : name a ∉ seen) :
    ∃ b ∈ firstByNameFrom name seen elements, name b = name a := by
  induction elements generalizing seen with
  | nil => simp at ha
  | cons b rest ih =>
    unfold firstByNameFrom
    split
    · rename_i hb
      rcases List.mem_cons.1 ha with rfl | ha
      · exact absurd hb hs
      · exact ih ha hs
    · by_cases he : name b = name a
      · exact ⟨b, List.mem_cons_self, he⟩
      · rcases List.mem_cons.1 ha with rfl | ha
        · exact absurd rfl he
        · have hnew : name a ∉ name b :: seen := by
            simp only [List.mem_cons, not_or]
            exact ⟨fun h => he h.symm, hs⟩
          obtain ⟨c, hc, hname⟩ := ih ha hnew
          exact ⟨c, List.mem_cons_of_mem _ hc, hname⟩

/-- What is kept was there. -/
theorem mem_of_mem_firstByName (h : a ∈ firstByName name elements) : a ∈ elements :=
  mem_of_mem_firstByNameFrom h

/-- Of every name an element is kept. -/
theorem exists_mem_firstByName (ha : a ∈ elements) :
    ∃ b ∈ firstByName name elements, name b = name a :=
  exists_mem_firstByNameFrom ha List.not_mem_nil

end FirstByName

end TypeScript

namespace Module

open TypeScript

namespace Building

/-- A step succeeds on a builder: what it results in and the builder it leaves. -/
def Runs {α : Type} (step : Building α) (b : Builder) (result : α) (b' : Builder) : Prop :=
  step.run.run b = (.ok result, b')

section Runs

variable {α β : Type} {b b' : Builder}

/-- A step that builds nothing. -/
theorem runs_pure {a result : α} (h : (pure a : Building α).Runs b result b') :
    result = a ∧ b' = b := by
  cases h
  exact ⟨rfl, rfl⟩

/-- A step followed by another. -/
theorem runs_bind {step : Building α} {next : α → Building β} {result : β}
    (h : (step >>= next).Runs b result b') :
    ∃ a middle, step.Runs b a middle ∧ (next a).Runs middle result b' :=
  ok_of_run_bind_eq_ok h

/-- Looking at the builder. -/
theorem runs_get {result : Builder} (h : (get : Building Builder).Runs b result b') :
    result = b ∧ b' = b := by
  cases h
  exact ⟨rfl, rfl⟩

theorem runs_ofExcept {r : Except Failure α} {result : α} (h : (ofExcept r).Runs b result b') :
    r = .ok result ∧ b' = b := by
  cases h
  exact ⟨rfl, rfl⟩

theorem runs_declare {ds : List Declaration} {result : Unit} (h : (declare ds).Runs b result b') :
    b' = { b with declarations := b.declarations ++ ds } := by
  cases h
  rfl

theorem runs_addConstant {name value : String} {result : Unit}
    (h : (addConstant name value).Runs b result b') :
    b' = { b with constants := b.constants ++ [⟨name, .string value⟩] } := by
  cases h
  rfl

theorem runs_define {name : String} {s : Shape} {result : Unit}
    (h : (define name s).Runs b result b') :
    b' = { b with arena := (b.arena.define name s).1,
                  warnings := b.warnings ++ (b.arena.define name s).2 } := by
  cases h
  rfl

theorem runs_isTrivial {s : Shape} {result : Bool} (h : (isTrivial s).Runs b result b') :
    result = s.isTrivial b.arena ∧ b' = b := by
  cases h
  exact ⟨rfl, rfl⟩

/-- The type of a shape is the one in the arena so far. -/
theorem runs_typeOf {s : Shape} {t : TypeNode} (h : (typeOf s).Runs b t b') :
    TypeNode.ofShape b.arena s = .ok t ∧ b' = b := by
  obtain ⟨_, _, hget, hrest⟩ := runs_bind h
  obtain ⟨rfl, rfl⟩ := runs_get hget
  exact runs_ofExcept hrest

/-- The declarations that are added are those that the shape needs. -/
theorem runs_declareFor {s : Shape} {result : Unit} (h : (declareFor s).Runs b result b') :
    ∃ ds, declarations b.arena s = .ok ds ∧
      b' = { b with declarations := b.declarations ++ ds } := by
  obtain ⟨_, _, hget, hrest⟩ := runs_bind h
  obtain ⟨rfl, rfl⟩ := runs_get hget
  obtain ⟨ds, _, hneeded, hdeclare⟩ := runs_bind hrest
  obtain ⟨hds, rfl⟩ := runs_ofExcept hneeded
  exact ⟨ds, hds, runs_declare hdeclare⟩

/-- A group becomes a reference. One that is no reference already gets a shape: its
own made ready, or the one that says nothing. -/
theorem runs_nameGroup {name : String} {group : Option Shape} {result : Shape}
    (h : (nameGroup name group).Runs b result b') :
    (∃ target, group = some (.reference target) ∧ result = .reference target ∧ b' = b) ∨
      result = .reference name ∧ ∃ s,
        (s = .any ∨ ∃ known, group = some known ∧ s = b.prepare known) ∧
        b' = { b with arena := (b.arena.define name s).1,
                      warnings := b.warnings ++ (b.arena.define name s).2 } := by
  unfold nameGroup at h
  split at h
  · obtain ⟨rfl, rfl⟩ := runs_pure h
    exact Or.inl ⟨_, rfl, rfl, rfl⟩
  · rename_i known _
    obtain ⟨_, _, hget, hrest⟩ := runs_bind h
    obtain ⟨rfl, rfl⟩ := runs_get hget
    obtain ⟨_, _, hdefine, hpure⟩ := runs_bind hrest
    obtain ⟨rfl, rfl⟩ := runs_pure hpure
    exact Or.inr ⟨rfl, _, Or.inr ⟨known, rfl, rfl⟩, runs_define hdefine⟩
  · obtain ⟨_, _, hdefine, hpure⟩ := runs_bind h
    obtain ⟨rfl, rfl⟩ := runs_pure hpure
    exact Or.inr ⟨rfl, _, Or.inl rfl, runs_define hdefine⟩

end Runs

end Building

/-- A module is built when adding everything to the first builder succeeds. -/
theorem runs_of_build {api : Api} {options : Options} {b : Builder} {warnings : List Warning}
    (h : build api options = (.ok b, warnings)) :
    (addApi api).Runs (Builder.start api.types options) () b := by
  unfold build at h
  split at h
  · rename_i hrun
    cases h
    exact hrun
  · cases h

end Module

end TypedClient
