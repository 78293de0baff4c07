import TypedClient.Proofs.Api.Identifiers
import TypedClient.Proofs.Module.Bindings
import TypedClient.Proofs.Module.Endpoints

/-!
# Names derived from paths

A derived name is the path with underscores for what an identifier cannot hold, without the
underscores in front, and the method. So it tells the method, and the path up to these
underscores: endpoints that differ in more than that bind different names.
-/

namespace TypedClient

/-- What a derived name keeps of a path. -/
def pathStem (url : String) : String :=
  String.ofList ((sanitize url.toList).dropWhile (· = '_'))

/-- A derived name before it is guarded: what is kept of the path, and the method. -/
def derivedText (url : String) (method : Method) : String :=
  if pathStem url = "" then method.word else pathStem url ++ "_" ++ method.word

section Guards

variable {x y : List Char}

/-- A guard in front is an underscore, or nothing. -/
theorem guardStart_eq (name : List Char) :
    guardStart name = name ∨ guardStart name = '_' :: name := by
  match name with
  | [] => exact .inr rfl
  | c :: rest =>
    rw [guardStart]
    split
    · exact .inr rfl
    · exact .inl rfl

/-- What does not begin with an underscore can be told from its guarded form. -/
theorem guardStart_injective (hx : x.head? ≠ some '_') (hy : y.head? ≠ some '_')
    (h : guardStart x = guardStart y) : x = y := by
  rcases guardStart_eq x with hgx | hgx <;> rcases guardStart_eq y with hgy | hgy <;>
    rw [hgx, hgy] at h
  · exact h
  · exact absurd (congrArg List.head? h) hx
  · exact absurd (congrArg List.head? h).symm hy
  · exact (List.cons.inj h).2

/-- What does not end with an underscore can be told from its guarded form. -/
theorem guardReserved_injective (hx : x.getLast? ≠ some '_') (hy : y.getLast? ≠ some '_')
    (h : guardReserved x = guardReserved y) : x = y := by
  have hends : ∀ z : List Char, (z ++ ['_']).getLast? = some '_' := by simp
  unfold guardReserved at h
  split at h <;> split at h
  · exact List.append_cancel_right h
  · exact absurd (h ▸ hends x) hy
  · exact absurd (h ▸ hends y) hx
  · exact h

end Guards

section Names

variable {url url' : String} {method method' : Method}

/-- The words of methods are letters, and different. -/
theorem underscore_not_mem_word (method : Method) : '_' ∉ method.word.toList := by
  cases method <;> decide

theorem sanitize_word (method : Method) : sanitize method.word.toList = method.word.toList := by
  cases method <;> decide

theorem word_injective (h : method.word = method'.word) : method = method' := by
  cases method <;> cases method' <;> first | rfl | exact absurd h (by decide)

/-- The text of a derived name before it is guarded. -/
theorem dropWhile_sanitize (url : String) (method : Method) :
    (sanitize (url ++ "_" ++ method.word).toList).dropWhile (· = '_') =
      (derivedText url method).toList := by
  have hsanitized : sanitize (url ++ "_" ++ method.word).toList =
      sanitize url.toList ++ '_' :: method.word.toList := by
    have happend : ∀ x y, sanitize (x ++ y) = sanitize x ++ sanitize y :=
      fun _ _ => List.map_append
    rw [String.toList_append, String.toList_append, happend, happend, sanitize_word,
      List.append_assoc]
    rfl
  have hword : ('_' :: method.word.toList).dropWhile (· = '_') = method.word.toList := by
    cases method <;> decide
  rw [hsanitized, List.dropWhile_append, hword, derivedText]
  by_cases hstem : (sanitize url.toList).dropWhile (· = '_') = []
  · rw [if_pos (by simp [hstem]), if_pos (by rw [pathStem, hstem])]
  · have hne : pathStem url ≠ "" := fun h => hstem (by simpa [pathStem] using h)
    rw [if_neg (by simpa using hstem), if_neg hne]
    simp [pathStem]

/-- A derived name is its text, guarded. -/
theorem derivedName_eq (url : String) (method : Method) :
    derivedName url method =
      String.ofList (guardReserved (guardStart (derivedText url method).toList)) := by
  have hcharacters : ∀ c ∈ (derivedText url method).toList, isIdentifierChar c = true := by
    rw [← dropWhile_sanitize]
    exact fun c hc => isIdentifierChar_of_mem_sanitize ((List.dropWhile_sublist _).mem hc)
  rw [derivedName, dropWhile_sanitize, identifier, String.toList_ofList,
    sanitize_of_characters hcharacters]

/-- The text of a derived name does not begin with an underscore. -/
theorem head?_derivedText (url : String) (method : Method) :
    (derivedText url method).toList.head? ≠ some '_' := by
  rw [← dropWhile_sanitize]
  intro h
  have hstops := List.head?_dropWhile_not (· = '_') (sanitize (url ++ "_" ++ method.word).toList)
  rw [h] at hstops
  exact absurd hstops (by simp)

/-- It ends with the method, so not with an underscore, also when it is guarded in front. -/
theorem getLast?_derivedText (url : String) (method : Method) :
    (guardStart (derivedText url method).toList).getLast? ≠ some '_' := by
  have hlast : ∀ front : List Char, (front ++ method.word.toList).getLast? ≠ some '_' := by
    intro front
    have hne : method.word.toList ≠ [] := by cases method <;> decide
    have hword : method.word.toList.getLast? ≠ some '_' := by cases method <;> decide
    rwa [List.getLast?_append_of_ne_nil front hne]
  have htext : ∃ front, (derivedText url method).toList = front ++ method.word.toList := by
    unfold derivedText
    split
    · exact ⟨[], rfl⟩
    · exact ⟨_, String.toList_append⟩
  obtain ⟨front, htext⟩ := htext
  rcases guardStart_eq (derivedText url method).toList with hguard | hguard <;>
    rw [hguard, htext]
  · exact hlast front
  · exact hlast ('_' :: front)

/-- The text tells the method and what is kept of the path. -/
theorem derivedText_injective (h : derivedText url method = derivedText url' method') :
    method = method' ∧ pathStem url = pathStem url' := by
  have hplain := underscore_not_mem_word method
  have hplain' := underscore_not_mem_word method'
  unfold derivedText at h
  split at h <;> split at h
  · rename_i hstem hstem'
    exact ⟨word_injective h, hstem.trans hstem'.symm⟩
  · exact absurd (by simp [h]) hplain
  · exact absurd (by simp [← h]) hplain'
  · obtain ⟨hstem, hword⟩ := eq_of_append_underscore hplain hplain' h
    exact ⟨word_injective hword, hstem⟩

/-- Derived names are equal exactly when the methods are, and what is kept of the paths. -/
theorem derivedName_eq_iff :
    derivedName url method = derivedName url' method' ↔
      method = method' ∧ pathStem url = pathStem url' := by
  constructor
  · intro h
    rw [derivedName_eq, derivedName_eq] at h
    have hguarded := guardReserved_injective (getLast?_derivedText url method)
      (getLast?_derivedText url' method') (String.ofList_injective h)
    have htext := guardStart_injective (head?_derivedText url method)
      (head?_derivedText url' method') hguarded
    exact derivedText_injective (String.toList_injective htext)
  · rintro ⟨rfl, hstem⟩
    rw [derivedName_eq, derivedName_eq, derivedText, derivedText, hstem]

end Names

namespace Module

open TypeScript Building

/-- What the name of an endpoint without a name of its own is derived from, as far as the name
tells it. -/
def derivation (e : Endpoint) : Method × String := (e.method, pathStem e.url)

/-- Endpoints without names of their own have different names exactly when their names are
derived from different things. -/
theorem nodup_functionNames_iff {endpoints : List Endpoint} (h : ∀ e ∈ endpoints, e.name = none) :
    (endpoints.map Endpoint.functionName).Nodup ↔ (endpoints.map derivation).Nodup := by
  have hname : ∀ e ∈ endpoints, e.functionName = derivedName e.url e.method :=
    fun e he => by rw [Endpoint.functionName, h e he, Option.getD_none]
  simp only [List.Nodup, List.pairwise_map]
  refine List.Pairwise.iff_of_mem fun {e e'} he he' => not_congr ?_
  rw [hname e he, hname e' he', derivedName_eq_iff, derivation, derivation, Prod.mk.injEq]

/-- Endpoints have constants with different names only when their names are different. -/
theorem nodup_of_constantNames {endpoints : List Endpoint}
    (h : ((endpoints.flatMap constantsOf).map Constant.name).Nodup) :
    (endpoints.map Endpoint.functionName).Nodup := by
  rw [List.map_flatMap, List.nodup_flatMap] at h
  refine List.pairwise_map.2 (h.2.imp fun {e e'} hapart hname => ?_)
  have hurl : ∀ e : Endpoint, e.functionName ++ "_url" ∈ (constantsOf e).map Constant.name :=
    fun _ => List.mem_cons_self
  exact hapart (hurl e) (hname ▸ hurl e')

/-- The functions that a module declares are those of the endpoints, in order. -/
theorem functionNames_of_build {api : Api} {options : Options} {b : Builder}
    {warnings : List Warning} (h : build api options = (.ok b, warnings)) :
    functionNames b.declarations = api.endpoints.map Endpoint.functionName := by
  obtain ⟨ds, hds, hnames⟩ := ((adds_addApi api).of_runs (runs_of_build h)).declarations
  rw [hds]
  exact hnames

/-- Derived names are equal exactly when the methods are and the paths are the same once what
an identifier cannot hold has become an underscore, and those in front are left out. So
endpoints without names of their own leave each other their constants exactly when no two of
them agree in this, and then their functions too: only those are left out that have the name
of a type. -/
theorem derived_names_apart :
    (∀ url url' method method', derivedName url method = derivedName url' method' ↔
      method = method' ∧ pathStem url = pathStem url') ∧
    ∀ (api : Api) (options : Options) (b : Builder) (warnings : List Warning),
      build api options = (.ok b, warnings) → (∀ e ∈ api.endpoints, e.name = none) →
        (b.printedConstants = api.endpoints.flatMap constantsOf ↔
          (api.endpoints.map derivation).Nodup) ∧
        ((api.endpoints.map derivation).Nodup →
          functionNames b.printedDeclarations =
            (api.endpoints.map Endpoint.functionName).filter
              (· ∉ typeNames b.printedDeclarations)) := by
  refine ⟨fun _ _ _ _ => derivedName_eq_iff, fun api options b warnings h hnone => ?_⟩
  rw [← nodup_functionNames_iff hnone]
  refine ⟨⟨fun hprinted => ?_, printedConstants_of_build h⟩, fun names => ?_⟩
  · have hnodup := (nodup_firstByNameFrom Constant.name [] b.constants).1
    rw [← firstByName, ← Builder.printedConstants, hprinted] at hnodup
    exact nodup_of_constantNames hnodup
  · have hdeclared := functionNames_of_build h
    rw [Builder.printedDeclarations, functionNames_firstByName (hdeclared ▸ names), hdeclared]

/-- Three endpoints without names of their own, two of them at one path: all their constants
and functions are left. -/
theorem derived_names_apart_pets :
    let api : Api :=
      { baseUrl := "/"
        endpoints := [{ url := "/pets", method := .get },
                      { url := "/pets", method := .delete },
                      { url := "/pets/\x7bid\x7d", method := .delete }]
        enums := []
        interfaces := []
        types := .empty }
    ∃ b warnings, build api {} = (.ok b, warnings) ∧ (∀ e ∈ api.endpoints, e.name = none) ∧
      (api.endpoints.map derivation).Nodup ∧
      b.printedConstants = api.endpoints.flatMap constantsOf ∧
      functionNames b.printedDeclarations = ["pets_get", "pets_delete", "pets__id__delete"] := by
  intro api
  have hfound : (build api {}).1.toOption.map (fun b => typeNames b.printedDeclarations) =
      some [] := by
    decide +kernel
  obtain ⟨b, hb, htypes⟩ := Option.map_eq_some_iff.1 hfound
  have h : build api {} = (.ok b, (build api {}).2) := Prod.ext (eq_ok_of_toOption hb) rfl
  have hnone : ∀ e ∈ api.endpoints, e.name = none := by decide
  have hapart : (api.endpoints.map derivation).Nodup := by decide +kernel
  obtain ⟨hconstants, hfunctions⟩ := derived_names_apart.2 api {} b _ h hnone
  have hnames : api.endpoints.map Endpoint.functionName =
      ["pets_get", "pets_delete", "pets__id__delete"] := by
    decide +kernel
  refine ⟨b, _, h, hnone, hapart, hconstants.2 hapart, ?_⟩
  rw [hfunctions hapart, hnames, htypes]
  rfl

/-- Two paths that differ in a character that no identifier can hold give one name, and of the
endpoints only the first has constants in the module. -/
theorem derived_names_collide :
    let api : Api :=
      { baseUrl := "/"
        endpoints := [{ url := "/a-b", method := .get }, { url := "/a_b", method := .get }]
        enums := []
        interfaces := []
        types := .empty }
    derivedName "/a-b" .get = derivedName "/a_b" .get ∧
      ∃ b, (build api {}).1 = .ok b ∧
        b.printedConstants.map Constant.name = ["a_b_get_url", "a_b_get_method"] ∧
        functionNames b.printedDeclarations = ["a_b_get"] := by
  intro api
  have hfound : (build api {}).1.toOption.map (fun b =>
      (b.printedConstants.map Constant.name, functionNames b.printedDeclarations)) =
      some (["a_b_get_url", "a_b_get_method"], ["a_b_get"]) := by
    decide +kernel
  obtain ⟨b, hb, hnames⟩ := Option.map_eq_some_iff.1 hfound
  obtain ⟨hconstants, hfunctions⟩ := Prod.mk.inj hnames
  exact ⟨by decide +kernel, b, eq_ok_of_toOption hb, hconstants, hfunctions⟩

end Module

end TypedClient
