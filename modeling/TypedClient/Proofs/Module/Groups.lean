import TypedClient.Proofs.Api.Identifiers
import TypedClient.Proofs.Module.Changes
import TypedClient.Proofs.OpenApi.References
import TypedClient.Proofs.Schema.Correlation

/-!
# Groups and headers in the arena

The groups of parameters of an endpoint and the headers of its responses get names that are
built of the name of its function. Endpoints whose functions have different names build
different names, so a name that an endpoint builds has a shape before only when the document
has a type of that name, or when an earlier response of the endpoint has the same status.
What has the name keeps it: the arena grows, and a name keeps its first shape.
-/

namespace TypedClient

namespace Module

open TypeScript Building

/-! ### Names that endpoints build -/

/-- The name for a group of parameters of a function. -/
def groupName (function ending : String) : String := function ++ "_parameter_" ++ ending

/-- The name for the headers of the responses of a function with a status. -/
def headerName (function : String) (status : Status) : String :=
  function ++ "_response_header_" ++ status.text

/-- The names that an endpoint builds. -/
def Builds (e : Endpoint) (name : String) : Prop :=
  (∃ group ∈ groupsOf e, name = groupName e.functionName group.2.1) ∨
    ∃ r ∈ e.responses, name = headerName e.functionName r.status

section Names

variable {f f' x y : String} {status status' : Status}

/-- A code is written in digits. -/
theorem isDigit_of_mem_text {value : UInt16} {c : Char} (h : c ∈ (Status.code value).text.toList) :
    c.isDigit = true := by
  have hdigits : c ∈ Nat.toDigits 10 value.toNat := by simpa [Status.text] using h
  exact Nat.isDigit_of_mem_toDigits (by decide) (by decide) hdigits

/-- A status is written without underscores. -/
theorem underscore_not_mem_text (status : Status) : '_' ∉ status.text.toList := by
  cases status with
  | default => decide
  | code value => exact fun h => absurd (isDigit_of_mem_text h) (by decide)

/-- Different statuses are written differently. -/
theorem text_injective (h : status.text = status'.text) : status = status' := by
  have hword (value : UInt16) : (Status.code value).text ≠ "default" := by
    intro he
    have hmem : 'd' ∈ (Status.code value).text.toList := by
      rw [he]
      decide
    exact absurd (isDigit_of_mem_text hmem) (by decide)
  cases status with
  | default =>
    cases status' with
    | default => rfl
    | code value => exact absurd h.symm (hword value)
  | code value =>
    cases status' with
    | default => exact absurd h (hword value)
    | code value' =>
      have hcounts := Catalog.counted_injective "" (congrArg ("" ++ "_" ++ ·) h)
      exact congrArg _ (UInt16.toNat_inj.1 hcounts)

/-- No ending of a group has an underscore. -/
theorem underscore_not_mem_ending {e : Endpoint} {group : String × String × Option Shape}
    (h : group ∈ groupsOf e) : '_' ∉ group.2.1.toList := by
  have hendings : ∀ ending ∈ ["path", "body", "query", "header"], '_' ∉ ending.toList := by decide
  exact hendings _ (List.mem_map_of_mem (f := fun group => group.2.1) h)

theorem groupName_eq (function ending : String) :
    groupName function ending = function ++ "_parameter" ++ "_" ++ ending := by
  simp [groupName, String.append_assoc]

theorem headerName_eq (function : String) (status : Status) :
    headerName function status = function ++ "_response_header" ++ "_" ++ status.text := by
  simp [headerName, String.append_assoc]

/-- Different statuses make different names. -/
theorem headerName_injective (h : headerName f status = headerName f status') :
    status = status' := by
  rw [headerName_eq, headerName_eq] at h
  exact text_injective (eq_of_append_underscore (underscore_not_mem_text _)
    (underscore_not_mem_text _) h).2

/-- A group and headers have different names. -/
theorem groupName_ne_headerName (hx : '_' ∉ x.toList) :
    groupName f x ≠ headerName f' status := by
  intro h
  rw [groupName_eq, headerName_eq] at h
  have hstart := (eq_of_append_underscore hx (underscore_not_mem_text _) h).1
  have hends := congrArg (fun text : String => text.toList.reverse[2]?) hstart
  simp at hends

/-- Functions of different names make different names for groups. -/
theorem eq_of_groupName_eq (hx : '_' ∉ x.toList) (hy : '_' ∉ y.toList)
    (h : groupName f x = groupName f' y) : f = f' ∧ x = y := by
  rw [groupName_eq, groupName_eq] at h
  obtain ⟨hstart, hend⟩ := eq_of_append_underscore hx hy h
  exact ⟨(String.append_left_inj _).1 hstart, hend⟩

/-- An endpoint builds names that no endpoint with another function does. -/
theorem functionName_eq_of_builds {e e' : Endpoint} {name : String} (h : Builds e name)
    (h' : Builds e' name) : e.functionName = e'.functionName := by
  rcases h with ⟨group, hg, rfl⟩ | ⟨r, hr, rfl⟩ <;> rcases h' with ⟨group', hg', h⟩ | ⟨r', hr', h⟩
  · exact (eq_of_groupName_eq (underscore_not_mem_ending hg) (underscore_not_mem_ending hg') h).1
  · exact absurd h (groupName_ne_headerName (underscore_not_mem_ending hg))
  · exact absurd h.symm (groupName_ne_headerName (underscore_not_mem_ending hg'))
  · rw [headerName_eq, headerName_eq] at h
    exact (String.append_left_inj _).1
      (eq_of_append_underscore (underscore_not_mem_text _) (underscore_not_mem_text _) h).1

end Names

/-! ### Shapes that are made ready -/

section Prepare

variable {options : Options} {known : String → Prop}

@[simp]
theorem prepare_any : options.prepare .any = .any := by
  unfold Options.prepare
  split <;> rfl

@[simp]
theorem prepare_reference (name : String) :
    options.prepare (.reference name) = .reference name := by
  unfold Options.prepare
  split <;> rfl

/-- What is made ready has no other references. -/
theorem refersWithin_prepare {s : Shape} (h : s.RefersWithin known) :
    (options.prepare s).RefersWithin known := by
  unfold Options.prepare
  split
  · rintro t ht name rfl
    have hnamed : Shape.IsNamed (.reference name) := trivial
    exact h _ (Shape.occurs_of_occurs_reduce hnamed ht) name rfl
  · exact h

end Prepare

/-- What a name stands for that a group is to have: a group that is a reference has no need
of it, and otherwise it is what the document gives the name, if it does, and else the group. -/
def shapeUnder (api : Api) (name : String) : Option Shape → Shape
  | some (.reference target) => .reference target
  | group => (api.types.find? name).getD (group.getD .any)

/-! ### Builders in line -/

/-- The types of an interface, made ready: the arena that a module is begun with. -/
abbrev startArena (api : Api) (options : Options) : Arena := api.types.map options.prepare

/-- A builder keeps the types of an interface, and has no shapes that refer to other names. -/
structure IsInLine (api : Api) (options : Options) (b : Builder) : Prop where
  /-- Shapes are made ready as the options say. -/
  prepare : b.prepare = options.prepare
  /-- Types keep their shapes. -/
  within : (startArena api options).IsWithin b.arena
  /-- References are to types. -/
  closed : ∀ name s, b.arena.find? name = some s → s.RefersWithin (· ∈ api.types.names)

/-- The second builder has kept all names their shapes and is in line if the first is; only
some names have got shapes. -/
structure Settles (api : Api) (options : Options) (given : String → Prop) (b b' : Builder) :
    Prop where
  /-- Names keep their shapes. -/
  within : b.arena.IsWithin b'.arena
  /-- Other names get no shapes. -/
  others : ∀ name, ¬ given name → b'.arena.find? name = b.arena.find? name
  /-- It stays in line. -/
  inLine : IsInLine api options b → IsInLine api options b'

section Settles

variable {api : Api} {options : Options} {given given' : String → Prop} {b b' : Builder}
  {name : String} {group : Option Shape}

theorem find?_map (f : Shape → Shape) (arena : Arena) (name : String) :
    (arena.map f).find? name = (arena.find? name).map f := by
  obtain ⟨entries⟩ := arena
  induction entries with
  | nil => rfl
  | cons entry rest ih =>
    simp only [Arena.find?, Arena.map, List.map_cons, Arena.lookup] at ih ⊢
    split
    · rfl
    · exact ih

theorem names_map (f : Shape → Shape) (arena : Arena) : (arena.map f).names = arena.names := by
  simp [Arena.names, Arena.map, Function.comp_def]

/-- In line, a shape that refers to types says in the arena as much as it does at first. -/
theorem IsInLine.isTrivial_eq (h : IsInLine api options b) {s : Shape}
    (hs : s.RefersWithin (· ∈ api.types.names)) :
    s.isTrivial b.arena = s.isTrivial (startArena api options) := by
  refine isTrivial_eq_of_isWithin (fun name s hname => ?_) h.within ?_
  · rw [names_map]
    exact h.closed name s (h.within name s hname)
  · rwa [names_map]

/-- Declaring and naming settle the names that are given. -/
theorem allows_settles (api : Api) (options : Options) (given : String → Prop) :
    Allows (fun name group =>
      given name ∧ ∀ s, group = some s → s.RefersWithin (· ∈ api.types.names))
      (Settles api options given) := by
  refine ⟨fun b => ⟨.refl _, fun _ _ => rfl, id⟩, fun b b' b'' h h' => ?_, fun b ds => ?_,
    fun b name group s hgiven hs => ?_⟩
  · exact ⟨h.within.trans h'.within, fun name hn => (h'.others name hn).trans (h.others name hn),
      fun hb => h'.inLine (h.inLine hb)⟩
  · exact ⟨.refl _, fun _ _ => rfl, fun hb => ⟨hb.prepare, hb.within, hb.closed⟩⟩
  · refine ⟨Arena.isWithin_define _ _ _, fun other hother => ?_, fun hb => ⟨hb.prepare, ?_, ?_⟩⟩
    · exact Arena.find?_define_of_ne fun he => hother (he ▸ hgiven.1)
    · exact hb.within.trans (Arena.isWithin_define _ _ _)
    · intro other found hfound
      cases hbefore : b.arena.find? other with
      | some known =>
        obtain rfl := Option.some.inj ((Arena.find?_define_of_eq_some hbefore).symm.trans hfound)
        exact hb.closed other known hbefore
      | none =>
        have he : other = name := by
          by_contra hne
          rw [Arena.find?_define_of_ne hne, hbefore] at hfound
          cases hfound
        subst he
        obtain rfl := Option.some.inj ((Arena.find?_define_self hbefore).symm.trans hfound)
        rcases hs with rfl | ⟨known, hknown, rfl⟩
        · exact Shape.everywhere_any.2 nofun
        · rw [hb.prepare]
          exact refersWithin_prepare (hgiven.2 known hknown)

/-- A group that is a reference stays one. -/
theorem runs_nameGroup_reference {target : String} {result : Shape}
    (h : (nameGroup name (some (.reference target))).Runs b result b') :
    result = .reference target ∧ b' = b :=
  runs_pure h

/-- Another group gets the name, unless that has a shape. -/
theorem runs_nameGroup_of_ne (hne : ∀ target, group ≠ some (.reference target)) {result : Shape}
    (h : (nameGroup name group).Runs b result b') :
    result = .reference name ∧ b'.arena.find? name =
      some ((b.arena.find? name).getD ((group.map b.prepare).getD .any)) := by
  have hdefine (s : Shape) : (b.arena.define name s).1.find? name =
      some ((b.arena.find? name).getD s) := by
    cases hbefore : b.arena.find? name with
    | none => exact Arena.find?_define_self hbefore
    | some known => exact Arena.find?_define_of_eq_some hbefore
  unfold nameGroup at h
  split at h
  · exact absurd rfl (hne _)
  · obtain ⟨_, _, hget, hrest⟩ := runs_bind h
    obtain ⟨rfl, rfl⟩ := runs_get hget
    obtain ⟨_, _, hdef, hpure⟩ := runs_bind hrest
    obtain ⟨rfl, rfl⟩ := runs_pure hpure
    rw [runs_define hdef]
    exact ⟨rfl, hdefine _⟩
  · obtain ⟨_, _, hdef, hpure⟩ := runs_bind h
    obtain ⟨rfl, rfl⟩ := runs_pure hpure
    rw [runs_define hdef]
    exact ⟨rfl, hdefine _⟩

end Settles

/-! ### Groups of parameters -/

section Groups

variable {api : Api} {options : Options} {b b' : Builder} {name : String} {group : Option Shape}

/-- What a name stands for refers to types when the group does. -/
theorem refersWithin_shapeUnder (hclosed : api.IsClosed)
    (hgroup : ∀ s, group = some s → s.RefersWithin (· ∈ api.types.names)) :
    (options.prepare (shapeUnder api name group)).RefersWithin (· ∈ api.types.names) := by
  refine refersWithin_prepare ?_
  have hown : ((api.types.find? name).getD (group.getD .any)).RefersWithin
      (· ∈ api.types.names) := by
    cases hfind : api.types.find? name with
    | some s => exact hclosed.types _ (Arena.mem_of_lookup_eq_some hfind)
    | none =>
      cases group with
      | some s => exact hgroup s rfl
      | none => exact Shape.everywhere_any.2 nofun
  unfold shapeUnder
  split
  · exact hgroup _ rfl
  · exact hown

/-- A group that is named when only the document may have a type of the name. -/
theorem leads_nameGroup (hb : IsInLine api options b)
    (hfree : b.arena.find? name = (startArena api options).find? name) {result : Shape}
    (hr : (nameGroup name group).Runs b result b') :
    (∃ target, result = .reference target) ∧
      b'.arena.Leads result (options.prepare (shapeUnder api name group)) := by
  by_cases href : ∃ target, group = some (.reference target)
  · obtain ⟨target, rfl⟩ := href
    obtain ⟨rfl, rfl⟩ := runs_nameGroup_reference hr
    refine ⟨⟨target, rfl⟩, Or.inl ?_⟩
    rw [shapeUnder, prepare_reference]
  · have hne : ∀ target, group ≠ some (.reference target) := fun target he => href ⟨target, he⟩
    obtain ⟨rfl, hfind⟩ := runs_nameGroup_of_ne hne hr
    refine ⟨⟨name, rfl⟩, Or.inr ⟨name, rfl, ?_⟩⟩
    have hunder : shapeUnder api name group = (api.types.find? name).getD (group.getD .any) := by
      unfold shapeUnder
      split
      · exact absurd rfl (hne _)
      · rfl
    rw [hfind, hfree, find?_map, hb.prepare, hunder]
    cases api.types.find? name with
    | some known => rfl
    | none =>
      cases group with
      | some s => rfl
      | none => exact congrArg some prepare_any.symm

/-- What a group of parameters of a function stands for. -/
def groupShape (api : Api) (options : Options) (function : String)
    (g : String × String × Option Shape) : Shape :=
  options.prepare (shapeUnder api (groupName function g.2.1) g.2.2)

/-- A group is declared: under its key, as a reference to what it stands for. -/
structure IsNamedGroup (api : Api) (options : Options) (function : String) (arena : Arena)
    (g : String × String × Option Shape) (kept : Group) : Prop where
  /-- It has its key. -/
  key : kept.key = g.1
  /-- It is a reference. -/
  reference : ∃ target, kept.shape = .reference target
  /-- The reference is to what the group stands for. -/
  leads : arena.Leads kept.shape (groupShape api options function g)

/-- The groups that say something are declared. -/
theorem groups_of_declareGroups (hclosed : api.IsClosed) (hb : IsInLine api options b)
    {function : String} {groups : List (String × String × Option Shape)}
    (hknown : ∀ g ∈ groups, ∀ s, g.2.2 = some s → s.RefersWithin (· ∈ api.types.names))
    (hapart : groups.Pairwise fun g g' => groupName function g'.2.1 ≠ groupName function g.2.1)
    (hfree : ∀ g ∈ groups, b.arena.find? (groupName function g.2.1) =
      (startArena api options).find? (groupName function g.2.1))
    {result : List Group} (hr : (declareGroups function groups).Runs b result b') :
    List.Forall₂ (IsNamedGroup api options function b'.arena)
      (groups.filter fun g =>
        !(groupShape api options function g).isTrivial (startArena api options)) result := by
  induction groups generalizing b result with
  | nil =>
    obtain ⟨rfl, rfl⟩ := runs_pure hr
    exact .nil
  | cons g rest ih =>
    obtain ⟨hfirst, hrest⟩ := List.pairwise_cons.1 hapart
    obtain ⟨hknownfirst, hknownrest⟩ := List.forall_mem_cons.1 hknown
    obtain ⟨hfreefirst, hfreerest⟩ := List.forall_mem_cons.1 hfree
    obtain ⟨key, ending, shape⟩ := g
    obtain ⟨reference, b₁, hname, hr₁⟩ := runs_bind hr
    obtain ⟨_, b₂, hdeclare, hr₂⟩ := runs_bind hr₁
    obtain ⟨silent, b₃, hsilent, hr₃⟩ := runs_bind hr₂
    obtain ⟨others, b₄, hothers, hr₄⟩ := runs_bind hr₃
    obtain ⟨rfl, rfl⟩ := runs_pure hr₄
    obtain ⟨rfl, rfl⟩ := runs_isTrivial hsilent
    have hnamed := (allows_settles api options (· = groupName function ending)).nameGroup
      ⟨rfl, hknownfirst⟩ _ _ _ hname
    have hdeclared := (allows_settles api options (fun _ => False)).declareFor _ _ _ _ hdeclare
    have hlater := (allows_settles api options (fun _ => True)).declareGroups
      (fun g hg => ⟨trivial, hknownrest g hg⟩) _ _ _ hothers
    have hb₃ := hdeclared.inLine (hnamed.inLine hb)
    have htail := ih hb₃ hknownrest hrest (fun g hg => ?_) hothers
    · obtain ⟨href, hleads⟩ := leads_nameGroup hb hfreefirst hname
      have hsame := (hleads.mono hdeclared.within).isTrivial_eq.trans
        (hb₃.isTrivial_eq (refersWithin_shapeUnder hclosed hknownfirst))
      have hdecl : IsNamedGroup api options function b'.arena (key, ending, shape)
          ⟨key, reference⟩ :=
        ⟨rfl, href, (hleads.mono hdeclared.within).mono hlater.within⟩
      rw [hsame, List.filter_cons]
      change List.Forall₂ _ (if !(groupShape api options function (key, ending, shape)).isTrivial _
        then _ else _) (if (groupShape api options function (key, ending, shape)).isTrivial _
        then _ else _)
      split
      · rename_i hspeaks
        rw [if_neg (by simpa using hspeaks)]
        exact .cons hdecl htail
      · rename_i hspeaks
        rw [if_pos (by simpa using hspeaks)]
        exact htail
    · rw [hdeclared.others _ not_false, hnamed.others _ (hfirst g hg)]
      exact hfreerest g hg

end Groups

/-! ### Headers of responses -/

/-- Whether the payload of a response says something. -/
def speaks (options : Options) (arena : Arena) (r : Response) : Bool :=
  !(options.prepare r.shape).isTrivial arena

/-- The headers that come first among the responses of a status whose payload says
something. -/
def firstHeader? (options : Options) (arena : Arena) (responses : List Response)
    (status : Status) : Option Shape :=
  (responses.filter fun r => speaks options arena r && r.status = status).findSome?
    Response.header

/-- A type wraps a response: it has the status, a type for the payload, and for headers the
name of what is stored for them, unless that says nothing. -/
def IsWrapped (function : String) (base arena : Arena) (r : Response)
    (t : TypeNode) : Prop :=
  ∃ data header, t = .reference wrapperName (wrapperArguments (statusType r.status) data header) ∧
    match r.header with
    | none => header = .any
    | some _ => ∃ s, arena.find? (headerName function r.status) = some s ∧
        header = if s.isTrivial base then .any else .named (headerName function r.status)

section Headers

variable {api : Api} {options : Options} {b b' : Builder} {function : String} {r : Response}
  {responses : List Response}

/-- A response refers to types only, and describes its headers itself. -/
structure IsClosedResponse (api : Api) (r : Response) : Prop where
  /-- The payload does. -/
  shape : r.shape.RefersWithin (· ∈ api.types.names)
  /-- So do the headers. -/
  header : ∀ s, r.header = some s → s.RefersWithin (· ∈ api.types.names)
  /-- They are no reference. -/
  described : ∀ name, r.header ≠ some (.reference name)

/-- The type of a reference that says something is its name. -/
theorem eq_named_of_runs_typeOf {name : String} {t : TypeNode}
    (hs : (Shape.reference name).isTrivial b.arena = false)
    (hr : (typeOf (.reference name)).Runs b t b') : t = .named name ∧ b' = b := by
  obtain ⟨ht, rfl⟩ := runs_typeOf hr
  refine ⟨?_, rfl⟩
  have hof : TypeNode.ofShape b'.arena (.reference name) =
      .ok (TypeNode.ofReference b'.arena name) := rfl
  rw [hof, TypeNode.ofReference, if_neg (by simp [hs])] at ht
  exact (Except.ok.inj ht).symm

/-- What the type of headers is, and what is stored for them. -/
theorem header_of_headerType (hb : IsInLine api options b) (hclosed : IsClosedResponse api r)
    {t : TypeNode} (hr : (headerType function r).Runs b t b') :
    b'.arena.find? (headerName function r.status) =
        (b.arena.find? (headerName function r.status)).or (r.header.map options.prepare) ∧
      match r.header with
      | none => t = .any
      | some _ => ∃ s, b'.arena.find? (headerName function r.status) = some s ∧
          t = if s.isTrivial (startArena api options) then .any
            else .named (headerName function r.status) := by
  unfold headerType at hr
  cases hheader : r.header with
  | none =>
    rw [hheader] at hr
    obtain ⟨rfl, rfl⟩ := runs_pure hr
    exact ⟨(Option.or_none).symm, rfl⟩
  | some header =>
    rw [hheader] at hr
    obtain ⟨reference, b₁, hname, hr₁⟩ := runs_bind hr
    obtain ⟨_, b₂, hdeclare, hr₂⟩ := runs_bind hr₁
    obtain ⟨silent, b₃, hsilent, hr₃⟩ := runs_bind hr₂
    have hname : (nameGroup (headerName function r.status) (some header)).Runs b reference b₁ :=
      hname
    have hne : ∀ target, some header ≠ some (.reference target) := fun target =>
      hheader ▸ hclosed.described target
    have hnamed := (allows_settles api options (fun _ => True)).nameGroup
      ⟨trivial, fun s hs => hclosed.header s (hheader.trans hs)⟩ _ _ _ hname
    have hdeclared := (allows_settles api options (fun _ => False)).declareFor _ _ _ _ hdeclare
    obtain ⟨rfl, hfind⟩ := runs_nameGroup_of_ne hne hname
    obtain ⟨rfl, rfl⟩ := runs_isTrivial hsilent
    have hb₃ := hdeclared.inLine (hnamed.inLine hb)
    generalize hs : (b.arena.find? (headerName function r.status)).getD
      (options.prepare header) = s
    have hstored : b₃.arena.find? (headerName function r.status) = some s := by
      rw [hdeclared.others _ not_false, hfind, hb.prepare, ← hs]
      rfl
    have hsame : (Shape.reference (headerName function r.status)).isTrivial b₃.arena =
        s.isTrivial (startArena api options) :=
      (Arena.Leads.isTrivial_eq (Or.inr ⟨_, rfl, hstored⟩)).trans
        (hb₃.isTrivial_eq (hb₃.closed _ _ hstored))
    have hor : (b.arena.find? (headerName function r.status)).or
        ((some header).map options.prepare) = some s := by
      rw [Option.map_some, Option.or_some, hs]
    rw [hor]
    split at hr₃
    · rename_i htrivial
      obtain ⟨rfl, rfl⟩ := runs_pure hr₃
      exact ⟨hstored, s, hstored, by rw [if_pos (hsame ▸ htrivial)]⟩
    · rename_i hspeaks
      obtain ⟨rfl, rfl⟩ := eq_named_of_runs_typeOf (by simpa using hspeaks) hr₃
      exact ⟨hstored, s, hstored, by rw [if_neg (hsame ▸ hspeaks)]⟩

/-- What the type of a response is, if it has one, and what is stored for its headers. -/
theorem wrapped_of_responseType? (hb : IsInLine api options b) (hclosed : IsClosedResponse api r)
    {result : Option TypeNode} (hr : (responseType? function r).Runs b result b') :
    Settles api options (· = headerName function r.status) b b' ∧
      if speaks options (startArena api options) r then
        (∃ t, result = some t ∧
          IsWrapped function (startArena api options) b'.arena r t) ∧
        b'.arena.find? (headerName function r.status) =
          (b.arena.find? (headerName function r.status)).or (r.header.map options.prepare)
      else result = none ∧ b' = b := by
  have hsettles := (allows_settles api options (· = headerName function r.status)).responseType?
    ⟨rfl, hclosed.header⟩ _ _ _ hr
  refine ⟨hsettles, ?_⟩
  obtain ⟨_, _, hget, hr₁⟩ := runs_bind hr
  obtain ⟨rfl, rfl⟩ := runs_get hget
  obtain ⟨silent, b₁, hsilent, hr₂⟩ := runs_bind hr₁
  obtain ⟨rfl, rfl⟩ := runs_isTrivial hsilent
  have hsame : (b₁.prepare r.shape).isTrivial b₁.arena =
      (options.prepare r.shape).isTrivial (startArena api options) := by
    rw [hb.prepare]
    exact hb.isTrivial_eq (refersWithin_prepare hclosed.shape)
  rw [hsame] at hr₂
  split at hr₂
  · rename_i htrivial
    obtain ⟨rfl, rfl⟩ := runs_pure hr₂
    rw [if_neg (by simp [speaks, htrivial])]
    exact ⟨rfl, rfl⟩
  · rename_i hspeaks
    obtain ⟨_, b₂, hdeclare, hr₃⟩ := runs_bind hr₂
    obtain ⟨data, b₃, hdata, hr₄⟩ := runs_bind hr₃
    obtain ⟨header, b₄, hheader, hr₅⟩ := runs_bind hr₄
    obtain ⟨rfl, rfl⟩ := runs_pure hr₅
    obtain ⟨-, rfl⟩ := runs_typeOf hdata
    have hdeclared := (allows_settles api options (fun _ => False)).declareFor _ _ _ _ hdeclare
    obtain ⟨hstored, htype⟩ := header_of_headerType (hdeclared.inLine hb) hclosed hheader
    rw [hdeclared.others _ not_false] at hstored
    rw [if_pos (by simpa [speaks] using hspeaks)]
    exact ⟨⟨_, rfl, data, header, rfl, htype⟩, hstored⟩

/-- What is stored for headers stays, and with it the type that wraps a response. -/
theorem IsWrapped.mono {base arena arena' : Arena} {t : TypeNode}
    (h : IsWrapped function base arena r t) (hwithin : arena.IsWithin arena') :
    IsWrapped function base arena' r t := by
  obtain ⟨data, header, ht, hheader⟩ := h
  refine ⟨data, header, ht, ?_⟩
  cases hr : r.header with
  | none =>
    rw [hr] at hheader
    exact hheader
  | some _ =>
    rw [hr] at hheader
    obtain ⟨s, hs, htype⟩ := hheader
    exact ⟨s, hwithin _ _ hs, htype⟩

/-- The headers of a response whose payload says something come before all later ones. -/
theorem firstHeader?_cons_of_pos {arena : Arena} (h : speaks options arena r = true) :
    firstHeader? options arena (r :: responses) r.status =
      r.header.or (firstHeader? options arena responses r.status) := by
  rw [firstHeader?, List.filter_cons_of_pos (by simp [h]), List.findSome?_cons, firstHeader?]
  cases r.header <;> rfl

/-- The responses whose payload says something have types, and under the name for a status the
headers are stored that come first. -/
theorem wrapped_of_responseTypes (hb : IsInLine api options b)
    (hclosed : ∀ r ∈ responses, IsClosedResponse api r) {types : List TypeNode}
    (hr : (responseTypes function responses).Runs b types b') :
    List.Forall₂ (IsWrapped function (startArena api options) b'.arena)
        (responses.filter (speaks options (startArena api options))) types ∧
      ∀ status, b'.arena.find? (headerName function status) =
        (b.arena.find? (headerName function status)).or
          ((firstHeader? options (startArena api options) responses status).map
            options.prepare) := by
  induction responses generalizing b types with
  | nil =>
    obtain ⟨rfl, rfl⟩ := runs_pure hr
    exact ⟨.nil, fun _ => (Option.or_none).symm⟩
  | cons r rest ih =>
    obtain ⟨hfirst, hrest⟩ := List.forall_mem_cons.1 hclosed
    obtain ⟨result, b₁, htype, hr₁⟩ := runs_bind hr
    obtain ⟨others, b₂, hothers, hr₂⟩ := runs_bind hr₁
    obtain ⟨rfl, rfl⟩ := runs_pure hr₂
    obtain ⟨hsettles, hstep⟩ := wrapped_of_responseType? hb hfirst htype
    have hlater := (allows_settles api options (fun _ => True)).responseTypes
      (fun r hr => ⟨trivial, (hrest r hr).header⟩) _ _ _ hothers
    obtain ⟨htypes, hstored⟩ := ih (hsettles.inLine hb) hrest hothers
    split at hstep
    · rename_i hspeaks
      obtain ⟨⟨t, rfl, hwrapped⟩, hheader⟩ := hstep
      rw [List.filter_cons_of_pos hspeaks]
      refine ⟨.cons (hwrapped.mono hlater.within) htypes, fun status => ?_⟩
      rw [hstored status]
      by_cases he : r.status = status
      · subst he
        rw [hheader, firstHeader?_cons_of_pos hspeaks, Option.map_or, Option.or_assoc]
      · have hne : headerName function status ≠ headerName function r.status :=
          fun hname => he (headerName_injective hname).symm
        rw [hsettles.others _ hne, firstHeader?, firstHeader?,
          List.filter_cons_of_neg (by simp [he])]
    · rename_i hsilent
      obtain ⟨rfl, rfl⟩ := hstep
      rw [List.filter_cons_of_neg hsilent]
      refine ⟨htypes, fun status => ?_⟩
      rw [hstored status, firstHeader?, firstHeader?, List.filter_cons_of_neg (by simp [hsilent])]

end Headers

end Module

end TypedClient
