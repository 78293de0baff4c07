import TypedClient.Proofs.Module.InertShapes
import TypedClient.Proofs.Module.References
import TypedClient.Proofs.OpenApi.Descriptions

/-!
# Texts of a module

Everything that building adds to a module is inert when the texts of the interface name no
variable: each step adds declarations of shapes of the interface, gives identifiers as names, or
writes paths and documentation down. So the module names no variable unless its template or its
comment does.
-/

namespace TypedClient

/-- Allowed texts may stand on lines of their own. -/
theorem AllowsLines.joinLines {allowed : String → Prop} (h : AllowsLines allowed)
    {texts : List String} (htexts : ∀ t ∈ texts, allowed t) :
    allowed (Text.joinWith "\n" texts) := by
  induction texts with
  | nil => exact h.empty
  | cons t texts ih =>
    obtain ⟨ht, htexts⟩ := List.forall_mem_cons.1 htexts
    cases texts with
    | nil => exact ht
    | cons t' texts => exact h.below t _ ht (ih htexts)

namespace Module

open TypeScript Building

/-- All parts of a module that is being built are inert, and the shapes that it is built of name
no variable. -/
structure Builder.IsInert (b : Builder) : Prop where
  /-- The named shapes. -/
  arena : b.arena.IsWrittenWith Fixed
  /-- Making a shape ready puts no variable into it. -/
  prepare : ∀ s, s.IsWrittenWith Fixed → (b.prepare s).IsWrittenWith Fixed
  /-- The constants. -/
  constants : ∀ c ∈ b.constants, c.IsInert
  /-- The declarations. -/
  declarations : ∀ d ∈ b.declarations, d.IsInert

/-- A step keeps all parts of a module inert, and what it results in is of a kind. -/
def Writes {α : Type} (step : Building α) (result : α → Prop) : Prop :=
  ∀ b a b', b.IsInert → step.Runs b a b' → result a ∧ b'.IsInert

section Steps

variable {α β : Type} {result : α → Prop} {result' : β → Prop} {s : Shape}

theorem writes_pure {a : α} (h : result a) : Writes (pure a) result := by
  intro b a' b' hb hr
  obtain ⟨rfl, rfl⟩ := runs_pure hr
  exact ⟨h, hb⟩

/-- Two steps in a row. -/
theorem Writes.bind {step : Building α} {next : α → Building β} (h : Writes step result)
    (h' : ∀ a, result a → Writes (next a) result') : Writes (step >>= next) result' := by
  intro b c b' hb hr
  obtain ⟨a, middle, hstep, hnext⟩ := runs_bind hr
  obtain ⟨ha, hmiddle⟩ := h b a middle hb hstep
  exact h' a ha middle c b' hmiddle hnext

/-- A step, and what is made of its result. -/
theorem Writes.map {step : Building α} {f : α → β} (h : Writes step result)
    (hf : ∀ a, result a → result' (f a)) : Writes (step >>= fun a => pure (f a)) result' :=
  h.bind fun a ha => writes_pure (hf a ha)

theorem writes_get : Writes get Builder.IsInert := by
  intro b a b' hb hr
  obtain ⟨rfl, rfl⟩ := runs_get hr
  exact ⟨hb, hb⟩

theorem writes_isTrivial (s : Shape) : Writes (isTrivial s) fun _ => True := by
  intro b a b' hb hr
  obtain ⟨-, rfl⟩ := runs_isTrivial hr
  exact ⟨trivial, hb⟩

/-- Inert declarations may be added. -/
theorem writes_declare {ds : List Declaration} (h : ∀ d ∈ ds, d.IsInert) :
    Writes (declare ds) fun _ => True := by
  intro b a b' hb hr
  rw [runs_declare hr]
  exact ⟨trivial, hb.arena, hb.prepare, hb.constants,
    List.forall_mem_append.2 ⟨hb.declarations, h⟩⟩

/-- The declarations of a shape that names no variable are inert. -/
theorem writes_declareFor (hs : s.IsWrittenWith Fixed) : Writes (declareFor s) fun _ => True := by
  intro b a b' hb hr
  obtain ⟨ds, hds, rfl⟩ := runs_declareFor hr
  exact ⟨trivial, hb.arena, hb.prepare, hb.constants,
    List.forall_mem_append.2 ⟨hb.declarations, isInert_declarations hb.arena hs hds⟩⟩

/-- The type of a shape that names no variable is inert. -/
theorem writes_typeOf (hs : s.IsWrittenWith Fixed) : Writes (typeOf s) TypeNode.IsInert := by
  intro b t b' hb hr
  obtain ⟨ht, rfl⟩ := runs_typeOf hr
  exact ⟨TypeNode.isInert_ofShape hb.arena hs ht, hb⟩

/-- A constant without variables may be added. -/
theorem writes_addConstant {name value : String} (hname : HasIdentifierChars name)
    (hvalue : Fixed value) : Writes (addConstant name value) fun _ => True := by
  intro b a b' hb hr
  rw [runs_addConstant hr]
  have hconstant : Constant.IsInert ⟨name, .string value⟩ :=
    Constant.isInert hname.not_mem (Json.isWrittenWith_string.2 hvalue)
  exact ⟨trivial, hb.arena, hb.prepare,
    List.forall_mem_append.2 ⟨hb.constants, List.forall_mem_singleton.2 hconstant⟩,
    hb.declarations⟩

/-- A group that names no variable gets a reference that names none. -/
theorem writes_nameGroup {name : String} (hname : HasIdentifierChars name) {group : Option Shape}
    (h : ∀ s, group = some s → s.IsWrittenWith Fixed) :
    Writes (nameGroup name group) fun s => s.IsWrittenWith Fixed := by
  intro b a b' hb hr
  rcases runs_nameGroup hr with ⟨target, htarget, rfl, rfl⟩ | ⟨rfl, s, hs, rfl⟩
  · exact ⟨h _ htarget, hb⟩
  · have hwritten : s.IsWrittenWith Fixed := by
      rcases hs with rfl | ⟨known, hknown, rfl⟩
      · exact Shape.isWrittenWith_any
      · exact hb.prepare known (h known hknown)
    exact ⟨Shape.isWrittenWith_reference.2 hname, hb.arena.define hname hwritten, hb.prepare,
      hb.constants, hb.declarations⟩

end Steps

/-! ### Endpoints -/

section Endpoints

variable {name : String}

/-- Groups are declared inertly. -/
theorem writes_declareGroups (hname : HasIdentifierChars name)
    {groups : List (String × String × Option Shape)}
    (hendings : ∀ group ∈ groups, group.2.1.toList.all isIdentifierChar = true)
    (h : ∀ group ∈ groups, ∀ s, group.2.2 = some s → s.IsWrittenWith Fixed) :
    Writes (declareGroups name groups) fun kept => ∀ g ∈ kept, g.shape.IsWrittenWith Fixed := by
  induction groups with
  | nil => exact writes_pure nofun
  | cons group rest ih =>
    obtain ⟨hending, hendings⟩ := List.forall_mem_cons.1 hendings
    obtain ⟨hfirst, hrest⟩ := List.forall_mem_cons.1 h
    have hgroup := (hname.ending "_parameter_" (by decide)).ending group.2.1 hending
    refine (writes_nameGroup hgroup hfirst).bind fun reference hreference => ?_
    refine (writes_declareFor hreference).bind fun _ _ => ?_
    refine (writes_isTrivial reference).bind fun silent _ => ?_
    refine (ih hendings hrest).map fun others hothers => ?_
    cases silent
    · exact List.forall_mem_cons.2 ⟨hreference, hothers⟩
    · exact hothers

/-- The type of a status is inert. -/
theorem isInert_statusType (status : Status) : (statusType status).IsInert := by
  cases status with
  | code value =>
    exact TypeNode.isInert_literal (Json.everywhere_iff.2 ⟨trivial, nofun⟩)
  | default => exact TypeNode.isInert_literal (Json.isWrittenWith_string.2 (by decide))

/-- The text of a status has characters of identifiers. -/
theorem all_statusText (status : Status) : status.text.toList.all isIdentifierChar = true := by
  cases status with
  | code value =>
    rw [Status.text, Nat.toString_eq_ofList_toDigits, String.toList_ofList, List.all_eq_true]
    exact fun c hc => isIdentifierChar_of_isDigit
      (Nat.isDigit_of_mem_toDigits (by decide) (by decide) hc)
  | default => decide

/-- The type of response headers is inert. -/
theorem writes_headerType (hname : HasIdentifierChars name) {r : Response}
    (h : ∀ s, r.header = some s → s.IsWrittenWith Fixed) :
    Writes (headerType name r) TypeNode.IsInert := by
  unfold headerType
  split
  · exact writes_pure (TypeNode.isInert_keyword .any)
  · rename_i header hheader
    rw [hheader] at h
    have hgroup := (hname.ending "_response_header_" (by decide)).ending r.status.text
      (all_statusText r.status)
    refine (writes_nameGroup hgroup h).bind fun reference hreference => ?_
    refine (writes_declareFor hreference).bind fun _ _ => ?_
    refine (writes_isTrivial reference).bind fun silent _ => ?_
    cases silent
    · exact writes_typeOf hreference
    · exact writes_pure (TypeNode.isInert_keyword .any)

/-- The type of a response is inert. -/
theorem writes_responseType? (hname : HasIdentifierChars name) {r : Response}
    (h : r.shape.IsWrittenWith Fixed) (hheader : ∀ s, r.header = some s → s.IsWrittenWith Fixed) :
    Writes (responseType? name r) fun found => ∀ t, found = some t → t.IsInert := by
  refine writes_get.bind fun b hb => (writes_isTrivial _).bind fun silent _ => ?_
  have hshape := hb.prepare _ h
  cases silent
  · refine (writes_declareFor hshape).bind fun _ _ => ?_
    refine (writes_typeOf hshape).bind fun data hdata => ?_
    refine (writes_headerType hname hheader).map fun header hheader t ht => ?_
    cases ht
    refine TypeNode.isInert_reference (by decide) fun argument hargument => ?_
    have hmem : argument = statusType r.status ∨ argument = data ∨ argument = header := by
      unfold wrapperArguments at hargument
      split at hargument
      · split at hargument
        · exact .inl (List.mem_singleton.1 hargument)
        · rcases List.mem_cons.1 hargument with h | h
          · exact .inl h
          · exact .inr (.inl (List.mem_singleton.1 h))
      · simpa using hargument
    rcases hmem with rfl | rfl | rfl
    · exact isInert_statusType r.status
    · exact hdata
    · exact hheader
  · exact writes_pure nofun

/-- The types of responses are inert. -/
theorem writes_responseTypes (hname : HasIdentifierChars name) {responses : List Response}
    (h : ∀ r ∈ responses, r.shape.IsWrittenWith Fixed ∧
      ∀ s, r.header = some s → s.IsWrittenWith Fixed) :
    Writes (responseTypes name responses) fun types => ∀ t ∈ types, t.IsInert := by
  induction responses with
  | nil => exact writes_pure nofun
  | cons r rest ih =>
    obtain ⟨⟨hshape, hheader⟩, hrest⟩ := List.forall_mem_cons.1 h
    refine (writes_responseType? hname hshape hheader).bind fun first hfirst => ?_
    refine (ih hrest).map fun others hothers => List.forall_mem_append.2 ⟨fun t ht => ?_, hothers⟩
    exact hfirst t (Option.mem_toList.1 ht)

/-- What a function returns is inert. -/
theorem isInert_returnedType {types : List TypeNode} (h : ∀ t ∈ types, t.IsInert) :
    (returnedType types).IsInert := by
  unfold returnedType
  split
  · exact TypeNode.isInert_keyword .any
  · exact h _ List.mem_cons_self
  · exact TypeNode.isInert_union h

/-- The parameters of a function are inert. -/
theorem writes_parametersFor {groups : List Group} (h : ∀ g ∈ groups, g.shape.IsWrittenWith Fixed)
    (bodyOptional : Bool) (keys : List String) (hkeys : ∀ key ∈ keys, '%' ∉ key.toList) :
    Writes (parametersFor groups bodyOptional keys) fun parameters =>
      ∀ p ∈ parameters, '%' ∉ p.name.toList ∧ p.type.IsInert := by
  induction keys with
  | nil => exact writes_pure nofun
  | cons key rest ih =>
    obtain ⟨hkey, hrest⟩ := List.forall_mem_cons.1 hkeys
    unfold parametersFor
    split
    · exact ih hrest
    · rename_i group hgroup
      have hshape := h group (List.mem_of_find?_eq_some hgroup)
      refine (writes_typeOf hshape).bind fun type htype => ?_
      exact (ih hrest).map fun others hothers => List.forall_mem_cons.2 ⟨⟨hkey, htype⟩, hothers⟩

/-- The request of a function is inert. -/
theorem isInert_requestFor (groups : List Group) (encoding : Encoding) :
    (requestFor groups encoding).IsInert := by
  refine Expression.isInert_object (List.forall_mem_append.2 ⟨fun entry hentry => ?_, ?_⟩)
  · obtain ⟨key, hkey, rfl⟩ := List.mem_map.1 hentry
    have hkeys : ∀ key ∈ ["query", "body", "path", "headers"], '%' ∉ key.toList := by decide
    have hplain := hkeys key (List.mem_of_mem_filter hkey)
    exact ⟨hplain, Expression.isInert_identifier hplain⟩
  · have hkey : '%' ∉ "bodyType".toList := by decide
    have hword : Fixed encoding.word := by
      cases encoding <;> decide
    exact List.forall_mem_singleton.2
      ⟨hkey, Expression.isInert_literal (Json.isWrittenWith_string.2 hword)⟩

/-- The documentation of an endpoint names no variable when its texts name none. -/
theorem fixed_of_text? {e : Endpoint} (h : e.IsWrittenWith Fixed) {text : String}
    (htext : e.doc.text? = some text) : Fixed text := by
  have hlines : ∀ line ∈ e.doc.lines, Fixed line := by
    unfold Documentation.lines
    refine List.forall_mem_append.2 ⟨List.forall_mem_append.2 ⟨List.forall_mem_append.2
      ⟨fun line hline => ?_, fun line hline => ?_⟩, fun line hline => ?_⟩, fun line hline => ?_⟩
    · obtain ⟨doc, hdoc, rfl⟩ := Option.map_eq_some_iff.1 (Option.mem_toList.1 hline)
      exact fixed_trimmed (h.description doc hdoc)
    · obtain ⟨doc, hdoc, rfl⟩ := Option.map_eq_some_iff.1 (Option.mem_toList.1 hline)
      exact fixed_trimmed (h.summary doc hdoc)
    · split at hline
      · rw [List.mem_singleton.1 hline]
        decide
      · exact absurd hline List.not_mem_nil
    · obtain ⟨url, hurl, rfl⟩ := Option.map_eq_some_iff.1 (Option.mem_toList.1 hline)
      rw [Fixed, String.toList_append]
      exact isInert_plain "@see " (by decide) _ (h.see url hurl)
  rw [Documentation.text?] at htext
  split at htext
  · cases htext
  · split at htext
    · cases htext
    · cases htext
      exact allowsLines_isFixed.joinLines fun line hline => hlines line (List.mem_of_mem_filter hline)

/-- An endpoint whose texts name no variable is added inertly. -/
theorem writes_addEndpoint {e : Endpoint} (h : e.IsWrittenWith Fixed) :
    Writes (addEndpoint e) fun _ => True := by
  have hgroups : ∀ group ∈ groupsOf e, ∀ s, group.2.2 = some s → s.IsWrittenWith Fixed :=
    fun group hgroup s hs =>
      h.shapes s (List.mem_append_left _ (List.mem_filterMap.2 ⟨group, hgroup, hs⟩))
  have hendings : ∀ group ∈ groupsOf e, group.2.1.toList.all isIdentifierChar = true := by
    simp only [groupsOf, List.forall_mem_cons]
    exact ⟨by decide, by decide, by decide, by decide, List.forall_mem_nil _⟩
  have hresponses : ∀ r ∈ e.responses, r.shape.IsWrittenWith Fixed ∧
      ∀ s, r.header = some s → s.IsWrittenWith Fixed := by
    intro r hr
    have hmem {s : Shape} (hs : s ∈ r.shape :: r.header.toList) : s ∈ shapesOf e :=
      List.mem_append_right _ (List.mem_flatMap.2 ⟨r, hr, hs⟩)
    exact ⟨h.shapes _ (hmem List.mem_cons_self), fun s hs =>
      h.shapes s (hmem (List.mem_cons_of_mem _ (Option.mem_toList.2 hs)))⟩
  have hurlName := h.name.ending "_url" (by decide)
  have hmethodName := h.name.ending "_method" (by decide)
  have hmethod : Fixed e.method.word := by
    cases e.method <;> decide
  refine (writes_declareGroups h.name hendings hgroups).bind fun groups hkept => ?_
  refine (writes_addConstant hurlName h.url).bind fun _ _ => ?_
  refine (writes_addConstant hmethodName hmethod).bind fun _ _ => ?_
  refine (writes_responseTypes h.name hresponses).bind fun types htypes => ?_
  refine (writes_parametersFor hkept e.bodyOptional ["path", "query", "headers", "body"]
    (by decide)).bind fun parameters hparameters => ?_
  refine writes_declare (List.forall_mem_singleton.2 ?_)
  refine Declaration.isInert_function h.name.not_mem hparameters ?returnType ?returns
    fun text htext => fixed_of_text? h htext
  case returnType =>
    exact TypeNode.isInert_reference (by decide)
      (List.forall_mem_singleton.2 (isInert_returnedType htypes))
  case returns =>
    refine Expression.isInert_call (by decide) ?_
    simp only [List.forall_mem_cons]
    exact ⟨Expression.isInert_identifier hurlName.not_mem,
      Expression.isInert_identifier hmethodName.not_mem, isInert_requestFor groups _,
      List.forall_mem_nil _⟩

theorem writes_addEndpoints {endpoints : List Endpoint}
    (h : ∀ e ∈ endpoints, e.IsWrittenWith Fixed) :
    Writes (addEndpoints endpoints) fun _ => True := by
  induction endpoints with
  | nil => exact writes_pure trivial
  | cons e rest ih =>
    obtain ⟨he, hrest⟩ := List.forall_mem_cons.1 h
    exact (writes_addEndpoint he).bind fun _ _ => ih hrest

theorem writes_addNames {names : List String} (h : ∀ name ∈ names, HasIdentifierChars name) :
    Writes (addNames names) fun _ => True := by
  induction names with
  | nil => exact writes_pure trivial
  | cons name rest ih =>
    obtain ⟨hname, hrest⟩ := List.forall_mem_cons.1 h
    exact (writes_declareFor (Shape.isWrittenWith_reference.2 hname)).bind fun _ _ => ih hrest

/-- An interface whose texts name no variable is added inertly. -/
theorem writes_addApi {api : Api} (h : api.IsWrittenWith Fixed) :
    Writes (addApi api) fun _ => True := by
  refine (writes_addEndpoints h.endpoints).bind fun _ _ => ?_
  refine (writes_declare fun d hd => ?_).bind fun _ _ => writes_addNames h.interfaces
  obtain ⟨e, he, rfl⟩ := List.mem_map.1 hd
  exact Declaration.isInert_enumeration (h.enums e he)

end Endpoints

/-! ### The text of a module -/

/-- Making shapes ready puts no variable into them. -/
theorem isWrittenWith_prepare (options : Options) {s : Shape} (h : s.IsWrittenWith Fixed) :
    (options.prepare s).IsWrittenWith Fixed := by
  unfold Options.prepare
  split
  · exact h.reduce allowsLines_isFixed _
  · exact h

/-- A module for an interface whose texts name no variable has inert parts. -/
theorem isInert_of_build {api : Api} (h : api.IsWrittenWith Fixed) {options : Options} {b : Builder}
    {warnings : List Warning} (hb : build api options = (.ok b, warnings)) : b.IsInert := by
  have hstart : (Builder.start api.types options).IsInert := by
    refine ⟨fun entry hentry => ?_, fun s => isWrittenWith_prepare options, nofun, nofun⟩
    obtain ⟨original, horiginal, rfl⟩ := List.mem_map.1 hentry
    obtain ⟨hname, hshape⟩ := h.types original horiginal
    exact ⟨hname, isWrittenWith_prepare options hshape⟩
  exact (writes_addApi h _ _ _ hstart (runs_of_build hb)).2

/-- The text of a module begins with its comment and its template, before constants and
declarations. -/
theorem Builder.toList_text (b : Builder) (template : String) (options : Options) :
    (b.text template options).toList =
      (options.leadingComment.elim "" (· ++ "\n")).toList ++ (template.toList ++ '\n' ::
        ((Text.joinWith "\n"
          (b.printedConstants.map (Constant.text options.declarationsOnly))).toList ++ '\n' ::
        ((Text.joinWith "\n"
          (b.printedDeclarations.map (Declaration.text options.declarationsOnly))).toList ++
            ['\n']))) := by
  unfold Builder.text
  simp only [String.toList_append, List.append_assoc]
  cases options.leadingComment <;> rfl

/-- The text of a module with inert parts names no variable unless its template or its comment
does. -/
theorem Builder.IsInert.fixed_text {b : Builder} (h : b.IsInert) {template : String}
    (htemplate : Fixed template) {options : Options}
    (hcomment : ∀ comment, options.leadingComment = some comment → Fixed comment) :
    Fixed (b.text template options) := by
  have hfeed : Module.IsInert ['\n'] := isInert_of_not_mem (by decide)
  have hlead : Module.IsInert (options.leadingComment.elim "" (· ++ "\n")).toList := by
    cases hlead : options.leadingComment with
    | none => exact isInert_nil
    | some comment =>
      rw [Option.elim_some, String.toList_append]
      exact (hcomment comment hlead).isInert_append (by decide) isInert_nil
  have hconstants : ∀ text ∈ b.printedConstants.map (Constant.text options.declarationsOnly),
      Module.IsInert text.toList := by
    intro text htext
    obtain ⟨c, hc, rfl⟩ := List.mem_map.1 htext
    exact h.constants c (mem_of_mem_firstByName hc) _
  have hdeclarations : ∀ text ∈ b.printedDeclarations.map
      (Declaration.text options.declarationsOnly), Module.IsInert text.toList := by
    intro text htext
    obtain ⟨d, hd, rfl⟩ := List.mem_map.1 htext
    exact h.declarations d (mem_of_mem_firstByName hd) _
  have hbody := (isInert_joinWith "\n" (by decide) hconstants).append
    (hfeed.append ((isInert_joinWith "\n" (by decide) hdeclarations).append hfeed))
  rw [Fixed, b.toList_text]
  exact (hlead.append (htemplate.isInert_append (by decide) hbody)).isFixed

end Module

end TypedClient
