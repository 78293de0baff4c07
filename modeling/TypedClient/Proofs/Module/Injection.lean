import TypedClient.Proofs.Module.Texts

/-!
# What the values of variables can change

Variables are filled in when a module is complete, in texts of the document too. So what is
generated depends on what they stand for exactly when the complete module names one. It names
none when neither the texts of the document nor the template and the comment do.
-/

namespace TypedClient.Module

open TypeScript

section Injection

variable {dialects : List Dialect} {document : Json} {template : String} {options : Options}

/-- Before anything is filled in, a module that can be generated names no variable. -/
def NamesNone (dialects : List Dialect) (document : Json) (template : String) (options : Options) :
    Prop :=
  ∀ api warnings text more, Dialect.readWith dialects document = (.ok api, warnings) →
    ofApi api template options = (.ok text, more) → Fixed text

/-- A document that is not read has no module. -/
theorem ofDocument_of_unread {e : Failure} {warnings : List Warning}
    (h : Dialect.readWith dialects document = (.error e, warnings)) (values : Variables) :
    ofDocument dialects document template options values = (.error e, warnings) := by
  rw [ofDocument, h]

section Read

variable {api : Api} {warnings more : List Warning}

/-- There is no module where building fails. -/
theorem ofDocument_of_error {e : Failure}
    (h : Dialect.readWith dialects document = (.ok api, warnings))
    (hresult : ofApi api template options = (.error e, more)) (values : Variables) :
    ofDocument dialects document template options values = (.error e, warnings ++ more) := by
  rw [ofDocument, h]
  dsimp only
  rw [hresult, Except.map]

/-- The values are filled in last. -/
theorem ofDocument_of_ok {text : String}
    (h : Dialect.readWith dialects document = (.ok api, warnings))
    (hresult : ofApi api template options = (.ok text, more)) (values : Variables) :
    ofDocument dialects document template options values =
      (.ok (values.fillIn text), warnings ++ more) := by
  rw [ofDocument, h]
  dsimp only
  rw [hresult, Except.map]

end Read

/-- The values do not matter exactly when the module names no variable. -/
theorem ofDocument_eq_iff_namesNone :
    (∀ values values', ofDocument dialects document template options values =
      ofDocument dialects document template options values') ↔
      NamesNone dialects document template options := by
  constructor
  · intro h api warnings text more hread htext
    refine fillIn_eq_iff_isFixed.1 fun values values' => ?_
    have heq := h values values'
    rw [ofDocument_of_ok hread htext, ofDocument_of_ok hread htext] at heq
    exact Except.ok.inj (congrArg Prod.fst heq)
  · intro h values values'
    rcases hread : Dialect.readWith dialects document with ⟨e | api, warnings⟩
    · rw [ofDocument_of_unread hread, ofDocument_of_unread hread]
    · rcases hresult : ofApi api template options with ⟨e | text, more⟩
      · rw [ofDocument_of_error hread hresult, ofDocument_of_error hread hresult]
      · have hfixed := h api warnings text more hread hresult
        rw [ofDocument_of_ok hread hresult, ofDocument_of_ok hread hresult,
          fillIn_eq_iff_isFixed.2 hfixed values values']

/-- What is generated is the text of a module, with the values filled in. -/
theorem exists_builder_of_ofDocument {values : Variables} {filled : String}
    {warnings : List Warning}
    (h : ofDocument dialects document template options values = (.ok filled, warnings)) :
    ∃ api b, (Dialect.readWith dialects document).1 = .ok api ∧ (build api options).1 = .ok b ∧
      filled = values.fillIn (b.text template options) := by
  rcases hread : Dialect.readWith dialects document with ⟨e | api, first⟩
  · rw [ofDocument_of_unread hread] at h
    cases h
  · rcases hbuild : build api options with ⟨e | b, more⟩
    · rw [ofDocument_of_error hread (by rw [ofApi, hbuild])] at h
      cases h
    · rw [ofDocument_of_ok hread (by rw [ofApi, hbuild])] at h
      exact ⟨api, b, rfl, by rw [hbuild], (Except.ok.inj (congrArg Prod.fst h)).symm⟩

/-- The module for an interface names no variable when neither the texts of the interface nor the
template and the comment do. -/
theorem fixed_of_ofApi {api : Api} (hapi : api.IsWrittenWith Fixed) (htemplate : Fixed template)
    (hcomment : ∀ comment, options.leadingComment = some comment → Fixed comment) {text : String}
    {warnings : List Warning} (h : ofApi api template options = (.ok text, warnings)) :
    Fixed text := by
  unfold ofApi at h
  split at h
  · rename_i b more hbuild
    cases h
    exact (isInert_of_build hapi hbuild).fixed_text htemplate hcomment
  · cases h

/-- What a document of a known dialect describes is written with the texts of the document. -/
theorem isWrittenWith_of_readWith_known (hdocument : document.IsWrittenWith Fixed) {api : Api}
    {warnings : List Warning} (h : Dialect.readWith Dialect.known document = (.ok api, warnings)) :
    api.IsWrittenWith Fixed := by
  unfold Dialect.readWith at h
  split at h
  · rename_i dialect hselect
    unfold Dialect.select at hselect
    split at hselect
    · rename_i found hfound
      cases hselect
      obtain rfl : dialect = Dialect.openApi2 :=
        List.mem_singleton.1 (List.mem_of_find?_eq_some hfound)
      exact OpenApi.isWrittenWith_of_read allowsLines_isFixed hdocument h
    · cases hselect
  · cases h

end Injection

/-! ### Parts on lines of their own -/

/-- A part of a text has its lines to itself: a line feed is right before it and right behind it. -/
def HasLines (part text : List Char) : Prop :=
  ∃ front back, text = front ++ '\n' :: (part ++ '\n' :: back)

section Lines

variable {part text : List Char}

/-- A part keeps its lines when more is written around the text. -/
theorem HasLines.within (h : HasLines part text) (front back : List Char) :
    HasLines part (front ++ text ++ back) := by
  obtain ⟨before, behind, rfl⟩ := h
  exact ⟨front ++ before, behind ++ back, by simp⟩

theorem HasLines.isInfix (h : HasLines part text) : part <:+: text := by
  obtain ⟨front, back, rfl⟩ := h
  exact ⟨front ++ ['\n'], '\n' :: back, by simp⟩

/-- Texts that are joined by line feeds have their lines to themselves between two more. -/
theorem hasLines_joinWith {texts : List String} {t : String} (h : t ∈ texts) :
    HasLines t.toList ('\n' :: ((Text.joinWith "\n" texts).toList ++ ['\n'])) := by
  induction texts with
  | nil => exact absurd h List.not_mem_nil
  | cons first texts ih =>
    cases texts with
    | nil =>
      rw [List.mem_singleton.1 h]
      exact ⟨[], [], rfl⟩
    | cons second texts =>
      have hjoined : (Text.joinWith "\n" (first :: second :: texts)).toList =
          first.toList ++ '\n' :: (Text.joinWith "\n" (second :: texts)).toList := by
        rw [Text.joinWith, String.toList_append, String.toList_append, List.append_assoc]
        · rfl
        · exact List.cons_ne_nil _ _
      rw [hjoined]
      rcases List.mem_cons.1 h with rfl | h
      · exact ⟨[], (Text.joinWith "\n" (second :: texts)).toList ++ ['\n'], by simp⟩
      · simpa using (ih h).within ('\n' :: first.toList) []

/-- A constant has its lines to itself. -/
theorem hasLines_of_mem_printedConstants {b : Builder} {c : Constant}
    (h : c ∈ b.printedConstants) (template : String) (options : Options) :
    HasLines (c.text options.declarationsOnly).toList (b.text template options).toList := by
  have hconstants := hasLines_joinWith
    (List.mem_map_of_mem (f := Constant.text options.declarationsOnly) h)
  rw [b.toList_text, ← List.append_assoc]
  generalize String.toList _ ++ template.toList = front
  simpa using hconstants.within front _

/-- A declaration has its lines to itself. -/
theorem hasLines_of_mem_printedDeclarations {b : Builder} {d : Declaration}
    (h : d ∈ b.printedDeclarations) (template : String) (options : Options) :
    HasLines (d.text options.declarationsOnly).toList (b.text template options).toList := by
  have hdeclarations := hasLines_joinWith
    (List.mem_map_of_mem (f := Declaration.text options.declarationsOnly) h)
  rw [b.toList_text, ← List.append_assoc]
  generalize String.toList _ ++ template.toList = front
  simpa using hdeclarations.within (front ++ '\n' :: _) []

/-- Filling in leaves a part alone that has its lines to itself and names no variable, whatever
stands around it. -/
theorem HasLines.fillIn {part text : String} (h : HasLines part.toList text.toList)
    (hpart : Fixed part) (values : Variables) :
    HasLines part.toList (values.fillIn text).toList := by
  obtain ⟨front, back, htext⟩ := h
  have hfeed : Separates '\n' := by decide
  have hkept : (values.fillIn (String.ofList part.toList)).toList = part.toList := by
    rw [String.ofList_toList, values.fillIn_of_isFixed hpart]
  refine ⟨(values.fillIn (String.ofList front)).toList, (values.fillIn (String.ofList back)).toList,
    ?_⟩
  rw [← String.ofList_toList (s := text), htext, values.fillIn_append_cons hfeed,
    values.fillIn_append_cons hfeed, hkept]

end Lines

/-- Whether a constant of a text is printed for a document of a known dialect. -/
def printsConstant (document : Json) (options : Options) (text : String) : Bool :=
  (Dialect.readWith Dialect.known document).1.toOption.any fun api =>
    (build api options).1.toOption.any fun b =>
      b.printedConstants.any fun c => (c.text options.declarationsOnly).toList == text.toList

theorem exists_of_printsConstant {document : Json} {options : Options} {text : String}
    (h : printsConstant document options text = true) :
    ∃ api b c, (Dialect.readWith Dialect.known document).1 = .ok api ∧
      (build api options).1 = .ok b ∧ c ∈ b.printedConstants ∧
      c.text options.declarationsOnly = text := by
  obtain ⟨api, hread, hbuilt⟩ := (Option.any_eq_true _ _).1 h
  obtain ⟨b, hbuild, hconstants⟩ := (Option.any_eq_true _ _).1 hbuilt
  obtain ⟨c, hc, htext⟩ := List.any_eq_true.1 hconstants
  exact ⟨api, b, c, eq_ok_of_toOption hread, eq_ok_of_toOption hbuild, hc,
    String.ext (eq_of_beq htext)⟩

/-- What is generated is the same for all values of the variables exactly when the module names no
variable before they are filled in, whatever the dialects, the document, the template and the
options. The module for an interface names none when no text of the interface does, nor the
template nor the comment. So the values do not matter to a document of a known dialect without a
variable in its texts, below a template and a comment without one. In any case the constants and
declarations that name no variable themselves are in what is generated as they are. -/
theorem same_output_for_all_variables :
    (∀ dialects document template options,
      (∀ values values', ofDocument dialects document template options values =
        ofDocument dialects document template options values') ↔
        NamesNone dialects document template options) ∧
    (∀ (api : Api) template options text warnings, api.IsWrittenWith Fixed → Fixed template →
      (∀ comment, options.leadingComment = some comment → Fixed comment) →
      ofApi api template options = (.ok text, warnings) → Fixed text) ∧
    (∀ (document : Json) template options values values', document.IsWrittenWith Fixed →
      Fixed template → (∀ comment, options.leadingComment = some comment → Fixed comment) →
      ofDocument Dialect.known document template options values =
        ofDocument Dialect.known document template options values') ∧
    ∀ dialects document template options values filled warnings,
      ofDocument dialects document template options values = (.ok filled, warnings) →
      ∃ api b, (Dialect.readWith dialects document).1 = .ok api ∧ (build api options).1 = .ok b ∧
        (∀ c ∈ b.printedConstants, Fixed (c.text options.declarationsOnly) →
          HasLines (c.text options.declarationsOnly).toList filled.toList) ∧
        ∀ d ∈ b.printedDeclarations, Fixed (d.text options.declarationsOnly) →
          HasLines (d.text options.declarationsOnly).toList filled.toList := by
  refine ⟨fun _ _ _ _ => ofDocument_eq_iff_namesNone,
    fun _ _ _ _ _ hapi htemplate hcomment h => fixed_of_ofApi hapi htemplate hcomment h, ?_, ?_⟩
  · intro document template options values values' hdocument htemplate hcomment
    refine ofDocument_eq_iff_namesNone.2 (fun api warnings text more hread htext => ?_)
      values values'
    exact fixed_of_ofApi (isWrittenWith_of_readWith_known hdocument hread) htemplate hcomment htext
  · intro dialects document template options values filled warnings h
    obtain ⟨api, b, hread, hbuild, rfl⟩ := exists_builder_of_ofDocument h
    exact ⟨api, b, hread, hbuild,
      fun c hc hfixed => (hasLines_of_mem_printedConstants hc _ _).fillIn hfixed values,
      fun d hd hfixed => (hasLines_of_mem_printedDeclarations hd _ _).fillIn hfixed values⟩

/-- Texts with percent signs next to the words of variables: those of a document, of its template
and of the comment, and the key of a field of an interface. Documentation that names the version
leaves the constant for the path alone. -/
theorem same_output_for_all_variables_percent :
    let document := Json.object [("swagger", .string "2.0"), ("paths", .object [("/%version/pets",
      .object [("get", .object [("summary", .string "version% of %when"),
        ("responses", .object [("200", .object [("examples", .object [("application/json",
          .object [("%typescript-", .string "version%")])])])])])])])]
    let api : Api := ⟨"/", [], [], ["Pet"], ⟨[("Pet", .object [.named "%when" .string])]⟩⟩
    let options : Options := { leadingComment := some "// %when" }
    let values : Variables := ⟨"1.0.0", "2026-01-31T12:00:00Z", languageVersion⟩
    let values' : Variables := ⟨"2.0.0", "", "%"⟩
    let versioned := Json.object [("swagger", .string "2.0"), ("paths", .object [("/pets",
      .object [("get", .object [("summary", .string "since %version%")])])])]
    document.IsWrittenWith Fixed ∧ api.IsWrittenWith Fixed ∧ Fixed "when% %version" ∧
      (∀ comment, options.leadingComment = some comment → Fixed comment) ∧
      (∃ text warnings, ofApi api "when% %version" options = (.ok text, warnings) ∧ Fixed text) ∧
      (∃ text warnings,
        ofDocument Dialect.known document "when% %version" options values =
          (.ok text, warnings)) ∧
      ofDocument Dialect.known document "when% %version" options values =
        ofDocument Dialect.known document "when% %version" options values' ∧
      NamesNone Dialect.known document "when% %version" options ∧
      ∃ filled warnings,
        ofDocument Dialect.known versioned "// %version%" {} values = (.ok filled, warnings) ∧
          HasLines "export const pets_get_url = \"/pets\";".toList filled.toList := by
  intro document api options values values' versioned
  have hdocument : document.IsWrittenWith Fixed := by
    simp only [document, Json.isWrittenWith_object, Json.isWrittenWith_string,
      List.forall_mem_cons, List.not_mem_nil, false_implies, implies_true, and_true]
    decide
  have hapi : api.IsWrittenWith Fixed := by
    have hfield : (Field.named "%when" Shape.string).IsWrittenWith Fixed := by
      refine ⟨fun name hname => ?_, by simp [Field.named], by simp [Field.named]⟩
      rw [← Key.named.inj hname]
      decide
    have hvalue : Shape.string.IsWrittenWith Fixed :=
      Shape.isWrittenWith_kind allowsLines_isFixed (by simp) rfl false
    have hshape : (Shape.object [.named "%when" .string]).IsWrittenWith Fixed :=
      Shape.isWrittenWith_object.2 (List.forall_mem_singleton.2 ⟨hfield, hvalue⟩)
    have hname : HasIdentifierChars "Pet" := hasIdentifierChars_identifier "Pet"
    constructor <;> simp [api, hname, hshape]
  have htemplate : Fixed "when% %version" := by decide
  have hcomment : ∀ comment, options.leadingComment = some comment → Fixed comment := by
    rintro comment ⟨⟩
    decide
  have hmodule : (ofApi api "when% %version" options).1.toOption.isSome = true := by
    decide +kernel
  obtain ⟨text, hsome⟩ := Option.isSome_iff_exists.1 hmodule
  have htext : ofApi api "when% %version" options = (.ok text, _) :=
    Prod.ext (eq_ok_of_toOption hsome) rfl
  have hfilled : (ofDocument Dialect.known document "when% %version" options
      values).1.toOption.isSome = true := by
    decide +kernel
  obtain ⟨filled, hsome⟩ := Option.isSome_iff_exists.1 hfilled
  have hsame := same_output_for_all_variables.2.2.1 document "when% %version" options
  have hversioned : (ofDocument Dialect.known versioned "// %version%" {}
      values).1.toOption.isSome = true := by
    decide +kernel
  obtain ⟨output, houtput⟩ := Option.isSome_iff_exists.1 hversioned
  have houtput : ofDocument Dialect.known versioned "// %version%" {} values = (.ok output, _) :=
    Prod.ext (eq_ok_of_toOption houtput) rfl
  have hprinted : printsConstant versioned {} "export const pets_get_url = \"/pets\";" = true := by
    decide +kernel
  obtain ⟨_, _, c, hread, hbuild, hc, hconstant⟩ := exists_of_printsConstant hprinted
  obtain ⟨_, _, hread', hbuild', hconstants, -⟩ :=
    same_output_for_all_variables.2.2.2 Dialect.known versioned _ {} values output _ houtput
  obtain rfl := Except.ok.inj (hread.symm.trans hread')
  obtain rfl := Except.ok.inj (hbuild.symm.trans hbuild')
  have hlines := hconstants c hc (by rw [hconstant]; decide)
  rw [hconstant] at hlines
  exact ⟨hdocument, hapi, htemplate, hcomment,
    ⟨text, _, htext, same_output_for_all_variables.2.1 api _ options text _ hapi htemplate hcomment
      htext⟩,
    ⟨filled, _, Prod.ext (eq_ok_of_toOption hsome) rfl⟩,
    hsame values values' hdocument htemplate hcomment,
    (same_output_for_all_variables.1 _ _ _ _).1 fun values values' =>
      hsame values values' hdocument htemplate hcomment,
    output, _, houtput, hlines⟩

/-- A path with a variable in it: the constant for the path changes with the variables, though
neither the template nor a comment names one. -/
theorem variables_reach_url :
    let document := Json.object [("swagger", .string "2.0"),
      ("paths", .object [("/%version%/pets", .object [("get", .object [])])])]
    Fixed "" ∧ ({} : Options).leadingComment = none ∧
      ofDocument Dialect.known document "" {} Variables.names ≠
        ofDocument Dialect.known document "" {} Variables.blank := by
  intro document
  -- the module is long, so the kernel looks at the one constant that names the variable
  have hprinted : printsConstant document {}
      "export const version__pets_get_url = \"/%version%/pets\";" = true := by
    decide +kernel
  obtain ⟨api, b, c, hread, hbuild, hc, hconstant⟩ := exists_of_printsConstant hprinted
  have hnamed : "%version%".toList <:+: (b.text "" {}).toList := by
    refine List.IsInfix.trans ?_ (hasLines_of_mem_printedConstants hc "" {}).isInfix
    rw [hconstant]
    decide
  refine ⟨by decide, rfl, fun heq => ?_⟩
  have hread : Dialect.readWith Dialect.known document = (.ok api, _) := Prod.ext hread rfl
  have hmodule : ofApi api "" {} = (.ok (b.text "" {}), (build api {}).2) := by
    have hbuild : build api {} = (.ok b, _) := Prod.ext hbuild rfl
    rw [ofApi, hbuild]
  rw [ofDocument_of_ok hread hmodule, ofDocument_of_ok hread hmodule, Variables.fillIn_names] at heq
  have hfixed := isFixed_of_fillIn_blank (Except.ok.inj (congrArg Prod.fst heq)).symm
  exact hfixed "%version%" (by decide) hnamed

end TypedClient.Module
