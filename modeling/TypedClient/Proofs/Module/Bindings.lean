import Mathlib.Data.List.Nodup
import TypedClient.Proofs.Module.Changes
import TypedClient.Proofs.Module.References

/-!
# Names bound as values

A module binds names as values by its constants, functions and enumerations. When no two
functions have one name, the constants of the endpoints are all printed, in order, and
bind different names; so do the functions and enumerations that are left. But constants
are told apart from constants only: a name is bound twice exactly when a function or an
enumeration has the name of a constant.
-/

namespace TypedClient

namespace TypeScript

/-- Whether a declaration binds a name as a value. -/
def Declaration.bindsValue : Declaration → Bool
  | .interface _ _ | .alias _ _ => false
  | .enumeration _ | .function _ => true

/-- When no name comes twice, nothing is left out. -/
theorem firstByNameFrom_of_nodup {α : Type} {name : α → String} {seen : List String}
    {elements : List α} (h : (elements.map name).Nodup) (hs : ∀ a ∈ elements, name a ∉ seen) :
    firstByNameFrom name seen elements = elements := by
  induction elements generalizing seen with
  | nil => rfl
  | cons a rest ih =>
    obtain ⟨hnew, hrest⟩ := List.nodup_cons.1 h
    rw [firstByNameFrom, if_neg (hs a List.mem_cons_self)]
    refine congrArg _ (ih hrest fun b hb hmem => ?_)
    rcases List.mem_cons.1 hmem with he | hmem
    · exact hnew (he ▸ List.mem_map_of_mem hb)
    · exact hs b (List.mem_cons_of_mem _ hb) hmem

end TypeScript

namespace Module

open TypeScript Building

/-- The names that a module binds as values. -/
def Builder.valueNames (b : Builder) : List String :=
  b.printedConstants.map Constant.name ++
    (b.printedDeclarations.filter Declaration.bindsValue).map Declaration.name

/-- The constants of an endpoint: its path and its method. -/
def constantsOf (e : Endpoint) : List Constant :=
  [⟨e.functionName ++ "_url", .string e.url⟩,
   ⟨e.functionName ++ "_method", .string e.method.word⟩]

/-! ### The constants of endpoints -/

section Constants

variable {b b' : Builder}

/-- Declaring and naming leave the constants as they are. -/
theorem allows_constants : Allows (fun _ _ => True) fun b b' => b'.constants = b.constants :=
  ⟨fun _ => rfl, fun _ _ _ h h' => h'.trans h, fun _ _ => rfl, fun _ _ _ _ _ _ => rfl⟩

/-- An endpoint adds its constants. -/
theorem constants_addEndpoint {e : Endpoint} {result : Unit}
    (hr : (addEndpoint e).Runs b result b') : b'.constants = b.constants ++ constantsOf e := by
  obtain ⟨groups, b₁, hgroups, hr₁⟩ := runs_bind hr
  obtain ⟨_, b₂, hurl, hr₂⟩ := runs_bind hr₁
  obtain ⟨_, b₃, hmethod, hr₃⟩ := runs_bind hr₂
  obtain ⟨types, b₄, htypes, hr₄⟩ := runs_bind hr₃
  obtain ⟨parameters, b₅, hparameters, hr₅⟩ := runs_bind hr₄
  have h₁ := allows_constants.declareGroups (fun _ _ => trivial) _ _ _ hgroups
  have h₄ := allows_constants.responseTypes (fun _ _ => trivial) _ _ _ htypes
  have h₅ := allows_constants.parametersFor _ _ _ _ _ _ hparameters
  obtain rfl := runs_addConstant hurl
  obtain rfl := runs_addConstant hmethod
  obtain rfl := runs_declare hr₅
  dsimp only at h₁ h₄ h₅ ⊢
  rw [h₅, h₄, h₁, List.append_assoc]
  rfl

/-- Endpoints add their constants in order. -/
theorem constants_addEndpoints {endpoints : List Endpoint} {result : Unit}
    (hr : (addEndpoints endpoints).Runs b result b') :
    b'.constants = b.constants ++ endpoints.flatMap constantsOf := by
  induction endpoints generalizing b with
  | nil =>
    obtain ⟨-, rfl⟩ := runs_pure hr
    exact (List.append_nil _).symm
  | cons e rest ih =>
    obtain ⟨_, middle, hfirst, hrest⟩ := runs_bind hr
    rw [ih hrest, constants_addEndpoint hfirst, List.flatMap_cons, List.append_assoc]

/-- The constants of a module are those of the endpoints. -/
theorem constants_of_build {api : Api} {options : Options} {warnings : List Warning}
    (h : build api options = (.ok b, warnings)) :
    b.constants = api.endpoints.flatMap constantsOf := by
  obtain ⟨_, b₁, hendpoints, hr₁⟩ := runs_bind (runs_of_build h)
  obtain ⟨_, b₂, henums, hnames⟩ := runs_bind hr₁
  have h₂ := allows_constants.addNames _ _ _ _ hnames
  obtain rfl := runs_declare henums
  rw [h₂]
  exact (constants_addEndpoints hendpoints).trans (List.nil_append _)

/-- The two constants of an endpoint have different names. -/
theorem url_ne_method (name name' : String) : name ++ "_url" ≠ name' ++ "_method" := by
  intro h
  have hends := congrArg (fun text : String => text.toList.getLast?) h
  simp at hends

/-- Endpoints with different names have constants with different names. -/
theorem nodup_constantNames {endpoints : List Endpoint}
    (h : (endpoints.map Endpoint.functionName).Nodup) :
    ((endpoints.flatMap constantsOf).map Constant.name).Nodup := by
  rw [List.map_flatMap, List.nodup_flatMap]
  refine ⟨fun e _ => ?_, (List.pairwise_map.1 h).imp fun {e e'} hne => ?_⟩
  · simp [constantsOf]
  · have hne' : e'.functionName ≠ e.functionName := Ne.symm hne
    simp [constantsOf, url_ne_method, (url_ne_method _ _).symm, hne']

end Constants

/-! ### Names that are bound twice -/

section ValueNames

variable {api : Api} {options : Options} {b : Builder} {warnings : List Warning}

/-- When no two functions have one name, all constants of the endpoints are printed. -/
theorem printedConstants_of_build (h : build api options = (.ok b, warnings))
    (names : (api.endpoints.map Endpoint.functionName).Nodup) :
    b.printedConstants = api.endpoints.flatMap constantsOf := by
  rw [Builder.printedConstants, constants_of_build h]
  exact firstByNameFrom_of_nodup (nodup_constantNames names) fun _ _ => List.not_mem_nil

/-- A function that is declared is that of an endpoint, and an enumeration is one of the
interface. -/
theorem exists_of_bindsValue (h : build api options = (.ok b, warnings)) {d : Declaration}
    (hd : d ∈ b.declarations) (hvalue : d.bindsValue = true) :
    (∃ e ∈ api.endpoints, d.name = e.functionName) ∨
      ∃ enumeration, HasEnumeration api enumeration ∧ d.name = enumeration.name := by
  rcases (isSound_build h).types d hd with ht | ⟨f, rfl, hf⟩
  · match d, ht, hvalue with
    | .enumeration enumeration, ht, _ => exact Or.inr ⟨enumeration, ht, rfl⟩
  · obtain ⟨e, he, hname⟩ := List.mem_map.1 hf
    exact Or.inl ⟨e, he, hname.symm⟩

/-- When no two functions have one name, the constants of the endpoints are all printed, and
what else is bound as a value has the name of an endpoint's function or of an enumeration.
No name is bound twice exactly when none of these is the name of a constant. -/
theorem valueNames_bound_once (h : build api options = (.ok b, warnings))
    (names : (api.endpoints.map Endpoint.functionName).Nodup) :
    b.printedConstants = api.endpoints.flatMap constantsOf ∧
      (∀ d ∈ b.printedDeclarations, d.bindsValue = true →
        (∃ e ∈ api.endpoints, d.name = e.functionName) ∨
          ∃ enumeration, HasEnumeration api enumeration ∧ d.name = enumeration.name) ∧
      (b.valueNames.Nodup ↔ ∀ d ∈ b.printedDeclarations, d.bindsValue = true →
        ∀ e ∈ api.endpoints,
          d.name ≠ e.functionName ++ "_url" ∧ d.name ≠ e.functionName ++ "_method") := by
  have hprinted := printedConstants_of_build h names
  refine ⟨hprinted, fun d hd => exists_of_bindsValue h (mem_of_mem_firstByName hd), ?_⟩
  have hdeclared : ((b.printedDeclarations.filter Declaration.bindsValue).map
      Declaration.name).Nodup :=
    (nodup_firstByNameFrom Declaration.name [] b.declarations).1.sublist
      (List.filter_sublist.map _)
  rw [Builder.valueNames, List.nodup_append', hprinted]
  refine ⟨fun ⟨_, _, hapart⟩ d hd hvalue e he => ?_, fun hapart => ⟨nodup_constantNames names,
    hdeclared, fun name hconstant hmem => ?_⟩⟩
  · have hbound : d.name ∈
        (b.printedDeclarations.filter Declaration.bindsValue).map Declaration.name :=
      List.mem_map_of_mem (List.mem_filter.2 ⟨hd, hvalue⟩)
    have hfree : ∀ c ∈ constantsOf e, d.name ≠ c.name := fun c hc hname =>
      hapart (List.mem_map_of_mem (List.mem_flatMap.2 ⟨e, he, hc⟩)) (hname ▸ hbound)
    exact ⟨hfree _ List.mem_cons_self, hfree _ (List.mem_cons_of_mem _ List.mem_cons_self)⟩
  · obtain ⟨c, hc, rfl⟩ := List.mem_map.1 hconstant
    obtain ⟨e, he, hce⟩ := List.mem_flatMap.1 hc
    obtain ⟨d, hd, hname⟩ := List.mem_map.1 hmem
    obtain ⟨hd, hvalue⟩ := List.mem_filter.1 hd
    obtain ⟨hurl, hmethod⟩ := hapart d hd hvalue e he
    simp only [constantsOf, List.mem_cons, List.not_mem_nil, or_false] at hce
    rcases hce with rfl | rfl
    · exact hurl hname
    · exact hmethod hname

end ValueNames

/-- An interface with two endpoints, one of them without a name of its own, an enumeration in
a response and a listed one: no name is bound twice. -/
theorem valueNames_bound_once_pets :
    let kind : Enumeration := ⟨"Kind", [⟨"cat", .string "cat"⟩]⟩
    let api : Api :=
      { baseUrl := "/"
        endpoints := [{ url := "/pets", method := .get, name := some "listPets",
                        responses := [⟨.code 200, .enumeration kind, none⟩] },
                      { url := "/pets", method := .post }]
        enums := [⟨"Status", []⟩]
        interfaces := []
        types := .empty }
    ∃ b warnings, build api {} = (.ok b, warnings) ∧
      (api.endpoints.map Endpoint.functionName).Nodup ∧
      b.printedConstants = api.endpoints.flatMap constantsOf ∧
      (∀ d ∈ b.printedDeclarations, d.bindsValue = true →
        (∃ e ∈ api.endpoints, d.name = e.functionName) ∨
          ∃ enumeration, HasEnumeration api enumeration ∧ d.name = enumeration.name) ∧
      (b.valueNames.Nodup ↔ ∀ d ∈ b.printedDeclarations, d.bindsValue = true →
        ∀ e ∈ api.endpoints,
          d.name ≠ e.functionName ++ "_url" ∧ d.name ≠ e.functionName ++ "_method") := by
  intro kind api
  have hvalues : (build api {}).1.toOption.map Builder.valueNames =
      some ["listPets_url", "listPets_method", "pets_post_url", "pets_post_method",
        "Kind", "listPets", "pets_post", "Status"] := by
    decide +kernel
  obtain ⟨b, hb, -⟩ := Option.map_eq_some_iff.1 hvalues
  have h : build api {} = (.ok b, (build api {}).2) := Prod.ext (eq_ok_of_toOption hb) rfl
  have names : (api.endpoints.map Endpoint.functionName).Nodup := by decide +kernel
  exact ⟨b, _, h, names, valueNames_bound_once h names⟩

/-- Two endpoints, one of which is called what a constant of the other is called: that name
is bound by a constant and by a function. -/
theorem valueNames_bind_twice :
    let api : Api :=
      { baseUrl := "/"
        endpoints := [{ url := "/pet", method := .get, name := some "pet" },
                      { url := "/url", method := .get, name := some "pet_url" }]
        enums := []
        interfaces := []
        types := .empty }
    (api.endpoints.map Endpoint.functionName).Nodup ∧
      ∃ b, (build api {}).1 = .ok b ∧ ¬ b.valueNames.Nodup ∧
        "pet_url" ∈ b.printedConstants.map Constant.name ∧
        "pet_url" ∈ (b.printedDeclarations.filter Declaration.bindsValue).map Declaration.name := by
  intro api
  have hvalues : (build api {}).1.toOption.map (fun b =>
      (b.printedConstants.map Constant.name,
        (b.printedDeclarations.filter Declaration.bindsValue).map Declaration.name)) =
      some (["pet_url", "pet_method", "pet_url_url", "pet_url_method"], ["pet", "pet_url"]) := by
    decide +kernel
  obtain ⟨b, hb, hnames⟩ := Option.map_eq_some_iff.1 hvalues
  obtain ⟨hconstants, hdeclared⟩ := Prod.mk.inj hnames
  refine ⟨by decide, b, eq_ok_of_toOption hb, ?_, ?_, ?_⟩
  · rw [Builder.valueNames, hconstants, hdeclared]
    decide
  · rw [hconstants]
    decide
  · rw [hdeclared]
    decide

end Module

end TypedClient
