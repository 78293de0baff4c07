import TypedClient.Proofs.Module.Building
import TypedClient.Proofs.TypeScript.Walk

/-!
# No dangling names

Every name that a declaration of a generated module mentions is declared in the
module as a type, apart from the two that come with the language and the template.
The declarations of a shape are closed whenever they are added, so the module is at
every moment, although the arena grows in between: the type of a parameter is a
reference to a group, and its name was declared when the group was. Keeping the
first declaration of a name keeps one of a type, unless a function has that name.
-/

namespace TypedClient

namespace TypeScript

/-- Whether a declaration is one of a type. -/
def Declaration.isType : Declaration → Bool
  | .function _ => false
  | _ => true

/-- A declaration of a name of the arena or of an enumeration is one of a type. -/
theorem Declaration.IsTypeOf.isType {arena : Arena} {known : Enumeration → Prop} {d : Declaration}
    (h : d.IsTypeOf arena known) : d.isType = true := by
  cases d with
  | function f => exact h.elim
  | _ => rfl

/-- More names may be declared in an arena with more names. -/
theorem Declaration.IsTypeOf.mono {arena arena' : Arena} {known : Enumeration → Prop}
    {d : Declaration} (h : d.IsTypeOf arena known)
    (hn : ∀ name ∈ arena.names, name ∈ arena'.names) : d.IsTypeOf arena' known :=
  match d, h with
  | .interface name _, h | .alias name _, h => hn name h
  | .enumeration _, h => h

end TypeScript

namespace Module

open TypeScript Building

/-- The shapes of parameters, payloads and headers of an endpoint. -/
def shapesOf (e : Endpoint) : List Shape :=
  (groupsOf e).filterMap (fun group => group.2.2) ++
    e.responses.flatMap fun r => r.shape :: r.header.toList

/-- An interface has an enumeration: listed, in a named shape, or at an endpoint. -/
def HasEnumeration (api : Api) (e : Enumeration) : Prop :=
  e ∈ api.enums ∨ (∃ entry ∈ api.types.entries, Shape.Occurs (.enumeration e) entry.2) ∨
    ∃ endpoint ∈ api.endpoints, ∃ s ∈ shapesOf endpoint, Shape.Occurs (.enumeration e) s

namespace Builder

/-- A name that may be mentioned: it comes with the language or the template, or a
type of that name is declared. -/
def Provides (b : Builder) (name : String) : Prop :=
  name = "Promise" ∨ name = wrapperName ∨ ∃ d ∈ b.declarations, d.isType = true ∧ d.name = name

/-- The second builder has declared and named all that the first has. -/
structure Grows (b b' : Builder) : Prop where
  /-- It has declared it. -/
  declarations : ∀ d ∈ b.declarations, d ∈ b'.declarations
  /-- It has named it. -/
  names : ∀ name ∈ b.arena.names, name ∈ b'.arena.names

/-- Only known enumerations are in the arena, only types and some functions are
declared, and only names that are provided are mentioned. -/
structure IsSound (known : Enumeration → Prop) (functions : List String) (b : Builder) : Prop where
  /-- Making a shape ready makes no enumeration. -/
  prepare : ∀ s e, Shape.Occurs (.enumeration e) (b.prepare s) → Shape.Occurs (.enumeration e) s
  /-- Enumerations in the arena are known. -/
  arena : ∀ entry ∈ b.arena.entries, entry.2.EnumeratesOnly known
  /-- What is declared is a type or one of the functions. -/
  types : ∀ d ∈ b.declarations, d.IsTypeOf b.arena known ∨ ∃ f, d = .function f ∧ f.name ∈ functions
  /-- Names that are mentioned are provided. -/
  mentioned : ∀ d ∈ b.declarations, ∀ name, d.Mentions name → b.Provides name

section Grows

variable {b b' b'' : Builder} {name : String}

theorem Grows.refl (b : Builder) : b.Grows b := ⟨fun _ h => h, fun _ h => h⟩

theorem Grows.trans (h : b.Grows b') (h' : b'.Grows b'') : b.Grows b'' :=
  ⟨fun d hd => h'.declarations d (h.declarations d hd), fun n hn => h'.names n (h.names n hn)⟩

/-- What is provided stays provided. -/
theorem Provides.mono (h : b.Provides name) (hg : b.Grows b') : b'.Provides name := by
  rcases h with h | h | ⟨d, hd, ht, hn⟩
  · exact Or.inl h
  · exact Or.inr (Or.inl h)
  · exact Or.inr (Or.inr ⟨d, hg.declarations d hd, ht, hn⟩)

end Grows

section IsSound

variable {known : Enumeration → Prop} {functions : List String} {b b' : Builder}

/-- The shape of a name holds known enumerations only. -/
theorem IsSound.enumeratesOnly_of_find? (h : IsSound known functions b) (name : String) (s : Shape)
    (hs : b.arena.find? name = some s) : s.EnumeratesOnly known :=
  h.arena (name, s) (Arena.mem_of_lookup_eq_some hs)

/-- A shape that is made ready holds known enumerations only when the shape does. -/
theorem IsSound.enumeratesOnly_prepare (h : IsSound known functions b) {s : Shape}
    (hs : s.EnumeratesOnly known) : (b.prepare s).EnumeratesOnly known :=
  fun e he => hs e (h.prepare s e he)

/-- Adding declarations of types or functions that mention provided names is sound. -/
theorem IsSound.declare (h : IsSound known functions b) {ds : List Declaration}
    (ht : ∀ d ∈ ds, d.IsTypeOf b.arena known ∨ ∃ f, d = .function f ∧ f.name ∈ functions)
    (hm : ∀ d ∈ ds, ∀ name, d.Mentions name →
      Provides { b with declarations := b.declarations ++ ds } name) :
    IsSound known functions { b with declarations := b.declarations ++ ds } ∧
      b.Grows { b with declarations := b.declarations ++ ds } := by
  have hgrows : b.Grows { b with declarations := b.declarations ++ ds } :=
    ⟨fun _ hd => List.mem_append_left _ hd, fun _ hn => hn⟩
  refine ⟨⟨h.prepare, h.arena, fun d hd => ?_, fun d hd name hn => ?_⟩, hgrows⟩
  · exact (List.mem_append.1 hd).elim (h.types d) (ht d)
  · rcases List.mem_append.1 hd with hd | hd
    · exact (h.mentioned d hd name hn).mono hgrows
    · exact hm d hd name hn

/-- Defining a name with a shape of known enumerations is sound. -/
theorem IsSound.define (h : IsSound known functions b) (name : String) {s : Shape}
    (hs : s.EnumeratesOnly known) (warnings : List Warning) :
    IsSound known functions { b with arena := (b.arena.define name s).1, warnings := warnings } ∧
      b.Grows { b with arena := (b.arena.define name s).1, warnings := warnings } := by
  have hnames : ∀ n ∈ b.arena.names, n ∈ (b.arena.define name s).1.names :=
    fun _ hn => Arena.mem_names_define hn
  have hgrows : b.Grows { b with arena := (b.arena.define name s).1, warnings := warnings } :=
    ⟨fun _ hd => hd, hnames⟩
  refine ⟨⟨h.prepare, fun entry hentry => ?_, fun d hd => ?_, fun d hd n hn => ?_⟩, hgrows⟩
  · rcases Arena.mem_entries_of_mem_define hentry with hentry | rfl
    · exact h.arena entry hentry
    · exact hs
  · exact (h.types d hd).imp_left fun ht => ht.mono hnames
  · exact (h.mentioned d hd n hn).mono hgrows

end IsSound

end Builder

open Builder

section Steps

variable {known : Enumeration → Prop} {functions : List String} {b b' : Builder}

/-- Declaring what a shape needs is sound and provides it. -/
theorem isSound_declareFor (h : IsSound known functions b) {s : Shape} {result : Unit}
    (hs : s.EnumeratesOnly known) (hr : (declareFor s).Runs b result b') :
    IsSound known functions b' ∧ b.Grows b' ∧ ∀ name, Needs b'.arena s name → b'.Provides name := by
  obtain ⟨ds, hds, rfl⟩ := runs_declareFor hr
  have hclosed := areClosed_declarations h.enumeratesOnly_of_find? hs hds
  have hprovides : ∀ name, (∃ d ∈ ds, d.name = name) →
      Provides { b with declarations := b.declarations ++ ds } name := by
    rintro name ⟨d, hd, hn⟩
    exact Or.inr (Or.inr ⟨d, List.mem_append_right _ hd, (hclosed.types d hd).isType, hn⟩)
  obtain ⟨hsound, hgrows⟩ := h.declare (fun d hd => Or.inl (hclosed.types d hd))
    fun d hd name hm => hprovides name (hclosed.mentioned d hd name hm)
  exact ⟨hsound, hgrows, fun name hn => hprovides name (hclosed.needed name hn)⟩

/-- Naming a group of known enumerations is sound and gives a reference. -/
theorem isSound_nameGroup (h : IsSound known functions b) {name : String} {group : Option Shape}
    {result : Shape} (hs : ∀ s ∈ group, s.EnumeratesOnly known)
    (hr : (nameGroup name group).Runs b result b') :
    IsSound known functions b' ∧ b.Grows b' ∧ ∃ target, result = .reference target := by
  rcases runs_nameGroup hr with ⟨target, -, rfl, rfl⟩ | ⟨rfl, s, hprepared, rfl⟩
  · exact ⟨h, .refl _, target, rfl⟩
  · have hknown : s.EnumeratesOnly known := by
      rcases hprepared with rfl | ⟨group, hgroup, rfl⟩
      · exact fun e he => nomatch he
      · exact h.enumeratesOnly_prepare (hs group hgroup)
    obtain ⟨hsound, hgrows⟩ := h.define name hknown (b.warnings ++ (b.arena.define name s).2)
    exact ⟨hsound, hgrows, name, rfl⟩

/-- Naming a group and declaring what the reference to it needs is sound, and provides it. -/
theorem isSound_declareNamed {α : Type} (h : IsSound known functions b) {name : String}
    {group : Option Shape} {rest : Shape → Building α} {result : α}
    (hs : ∀ s ∈ group, s.EnumeratesOnly known)
    (hr : (do let reference ← nameGroup name group
              declareFor reference
              rest reference : Building α).Runs b result b') :
    ∃ target b₁, IsSound known functions b₁ ∧ b.Grows b₁ ∧
      (∀ name, Needs b₁.arena (.reference target) name → b₁.Provides name) ∧
      (rest (.reference target)).Runs b₁ result b' := by
  obtain ⟨reference, b₁, hname, hr₁⟩ := runs_bind hr
  obtain ⟨hsound₁, hgrows₁, target, rfl⟩ := isSound_nameGroup h hs hname
  obtain ⟨_, b₂, hdeclare, hr₂⟩ := runs_bind hr₁
  obtain ⟨hsound₂, hgrows₂, hneeded⟩ :=
    isSound_declareFor hsound₁ Shape.enumeratesOnly_reference hdeclare
  exact ⟨target, b₂, hsound₂, hgrows₁.trans hgrows₂, hneeded, hr₂⟩

/-- A group that was declared: a reference whose name is provided. -/
def IsDeclared (b : Builder) (group : Group) : Prop :=
  ∃ target, group.shape = .reference target ∧ b.Provides target

/-- A declared group stays declared. -/
theorem IsDeclared.mono {group : Group} (h : IsDeclared b group) (hg : b.Grows b') :
    IsDeclared b' group := by
  obtain ⟨target, hs, hp⟩ := h
  exact ⟨target, hs, hp.mono hg⟩

/-- Declaring groups is sound, and the groups that are left are declared. -/
theorem isSound_declareGroups {name : String} {groups : List (String × String × Option Shape)}
    {result : List Group} (h : IsSound known functions b)
    (hs : ∀ group ∈ groups, ∀ s ∈ group.2.2, s.EnumeratesOnly known)
    (hr : (declareGroups name groups).Runs b result b') :
    IsSound known functions b' ∧ b.Grows b' ∧ ∀ group ∈ result, IsDeclared b' group := by
  induction groups generalizing b b' result with
  | nil =>
    obtain ⟨rfl, rfl⟩ := runs_pure hr
    exact ⟨h, .refl _, by simp⟩
  | cons group rest ih =>
    obtain ⟨key, ending, shape⟩ := group
    obtain ⟨target, b₁, hsound₁, hgrows₁, hneeded, hr₁⟩ :=
      isSound_declareNamed h (hs _ List.mem_cons_self) hr
    obtain ⟨silent, b₂, hsilent, hr₂⟩ := runs_bind hr₁
    obtain ⟨hsilent, rfl⟩ := runs_isTrivial hsilent
    obtain ⟨others, b₃, hothers, hr₃⟩ := runs_bind hr₂
    obtain ⟨hsound₃, hgrows₃, hrest⟩ :=
      ih hsound₁ (fun group hg => hs group (List.mem_cons_of_mem _ hg)) hothers
    obtain ⟨rfl, rfl⟩ := runs_pure hr₃
    refine ⟨hsound₃, hgrows₁.trans hgrows₃, ?_⟩
    split
    · exact hrest
    · rename_i hspeaks
      refine List.forall_mem_cons.2 ⟨⟨target, rfl, ?_⟩, hrest⟩
      have ht : (Shape.reference target).isTrivial b₂.arena = false := by
        rw [← hsilent]
        simpa using hspeaks
      exact (hneeded target (Or.inl ⟨.whole, ht⟩)).mono hgrows₃

/-- Only names that are provided are mentioned in a type. -/
def OnlyMentions (b : Builder) (t : TypeNode) : Prop := ∀ name, Mentions name t → b.Provides name

/-- What a type mentions stays provided. -/
theorem OnlyMentions.mono {t : TypeNode} (h : OnlyMentions b t) (hg : b.Grows b') :
    OnlyMentions b' t :=
  fun name hm => (h name hm).mono hg

theorem onlyMentions_any : OnlyMentions b .any := fun _ hm => nomatch hm

/-- The type of a shape mentions provided names, once what it needs was declared. -/
theorem onlyMentions_typeOf {s : Shape} {t : TypeNode}
    (hs : ∀ name, Needs b.arena s name → b.Provides name) (hr : (typeOf s).Runs b t b') :
    b' = b ∧ OnlyMentions b t := by
  obtain ⟨ht, rfl⟩ := runs_typeOf hr
  exact ⟨rfl, fun name hm => hs name (needs_of_mentions_ofShape ht hm)⟩

/-- The type of response headers is sound and mentions provided names. -/
theorem isSound_headerType {name : String} {r : Response} {t : TypeNode}
    (h : IsSound known functions b)
    (hs : ∀ s ∈ r.header, s.EnumeratesOnly known)
    (hr : (headerType name r).Runs b t b') :
    IsSound known functions b' ∧ b.Grows b' ∧ OnlyMentions b' t := by
  unfold headerType at hr
  split at hr
  · obtain ⟨rfl, rfl⟩ := runs_pure hr
    exact ⟨h, .refl _, onlyMentions_any⟩
  · rename_i header hheader
    obtain ⟨target, b₁, hsound₁, hgrows₁, hneeded, hr₁⟩ :=
      isSound_declareNamed h (hheader ▸ hs) hr
    obtain ⟨silent, b₂, hsilent, hr₂⟩ := runs_bind hr₁
    obtain ⟨-, rfl⟩ := runs_isTrivial hsilent
    split at hr₂
    · obtain ⟨rfl, rfl⟩ := runs_pure hr₂
      exact ⟨hsound₁, hgrows₁, onlyMentions_any⟩
    · obtain ⟨rfl, honly⟩ := onlyMentions_typeOf hneeded hr₂
      exact ⟨hsound₁, hgrows₁, honly⟩

/-- A wrapped response mentions the wrapper and what its payload and headers mention. -/
theorem onlyMentions_wrapper {status : Status} {data header : TypeNode}
    (hd : OnlyMentions b data) (hh : OnlyMentions b header) :
    OnlyMentions b
      (.reference wrapperName (wrapperArguments (statusType status) data header)) := by
  have hstatus : ∀ name, ¬ Mentions name (statusType status) := by
    intro name hm
    cases status <;> cases hm
  intro name hm
  cases hm with
  | here => exact Or.inr (Or.inl rfl)
  | @argument _ _ t ht hm =>
    have hargument : t = statusType status ∨ t = data ∨ t = header := by
      unfold wrapperArguments at ht
      split at ht
      · split at ht
        · exact Or.inl (List.mem_singleton.1 ht)
        · simp only [List.mem_cons, List.not_mem_nil, or_false] at ht
          exact ht.imp_right Or.inl
      · simpa using ht
    rcases hargument with rfl | rfl | rfl
    · exact absurd hm (hstatus name)
    · exact hd name hm
    · exact hh name hm

/-- The type of a response is sound and mentions provided names. -/
theorem isSound_responseType? {name : String} {r : Response} {result : Option TypeNode}
    (h : IsSound known functions b)
    (hs : ∀ s ∈ r.shape :: r.header.toList, s.EnumeratesOnly known)
    (hr : (responseType? name r).Runs b result b') :
    IsSound known functions b' ∧ b.Grows b' ∧ ∀ t ∈ result, OnlyMentions b' t := by
  obtain ⟨_, _, hget, hr₁⟩ := runs_bind hr
  obtain ⟨rfl, rfl⟩ := runs_get hget
  obtain ⟨silent, b₁, hsilent, hr₂⟩ := runs_bind hr₁
  obtain ⟨-, rfl⟩ := runs_isTrivial hsilent
  split at hr₂
  · obtain ⟨rfl, rfl⟩ := runs_pure hr₂
    exact ⟨h, .refl _, by simp⟩
  · obtain ⟨_, b₂, hdeclare, hr₃⟩ := runs_bind hr₂
    obtain ⟨hsound₂, hgrows₂, hneeded⟩ := isSound_declareFor h
      (h.enumeratesOnly_prepare (hs _ List.mem_cons_self)) hdeclare
    obtain ⟨data, b₃, hdata, hr₄⟩ := runs_bind hr₃
    obtain ⟨rfl, honly⟩ := onlyMentions_typeOf hneeded hdata
    obtain ⟨header, b₄, hheader, hr₅⟩ := runs_bind hr₄
    obtain ⟨hsound₄, hgrows₄, hheaderonly⟩ := isSound_headerType hsound₂
      (fun s hmem => hs s (List.mem_cons_of_mem _ (Option.mem_toList.2 hmem))) hheader
    obtain ⟨rfl, rfl⟩ := runs_pure hr₅
    refine ⟨hsound₄, hgrows₂.trans hgrows₄, fun t ht => ?_⟩
    cases ht
    exact onlyMentions_wrapper (honly.mono hgrows₄) hheaderonly

/-- The types of responses are sound and mention provided names. -/
theorem isSound_responseTypes {name : String} {responses : List Response} {result : List TypeNode}
    (h : IsSound known functions b)
    (hs : ∀ r ∈ responses, ∀ s ∈ r.shape :: r.header.toList, s.EnumeratesOnly known)
    (hr : (responseTypes name responses).Runs b result b') :
    IsSound known functions b' ∧ b.Grows b' ∧ ∀ t ∈ result, OnlyMentions b' t := by
  induction responses generalizing b b' result with
  | nil =>
    obtain ⟨rfl, rfl⟩ := runs_pure hr
    exact ⟨h, .refl _, by simp⟩
  | cons r rest ih =>
    obtain ⟨first, b₁, hfirst, hr₁⟩ := runs_bind hr
    obtain ⟨hsound₁, hgrows₁, honly⟩ := isSound_responseType? h (hs r List.mem_cons_self) hfirst
    obtain ⟨others, b₂, hothers, hr₂⟩ := runs_bind hr₁
    obtain ⟨hsound₂, hgrows₂, hrest⟩ :=
      ih hsound₁ (fun r hmem => hs r (List.mem_cons_of_mem _ hmem)) hothers
    obtain ⟨rfl, rfl⟩ := runs_pure hr₂
    refine ⟨hsound₂, hgrows₁.trans hgrows₂, fun t ht => ?_⟩
    rcases List.mem_append.1 ht with ht | ht
    · exact (honly t (Option.mem_toList.1 ht)).mono hgrows₂
    · exact hrest t ht

/-- The types of parameters are references to groups, and nothing else changes. -/
theorem onlyMentions_parametersFor {groups : List Group} {bodyOptional : Bool} {keys : List String}
    {result : List TypeScript.Parameter} (hg : ∀ group ∈ groups, IsDeclared b group)
    (hr : (parametersFor groups bodyOptional keys).Runs b result b') :
    b' = b ∧ ∀ p ∈ result, OnlyMentions b p.type := by
  induction keys generalizing b' result with
  | nil =>
    obtain ⟨rfl, rfl⟩ := runs_pure hr
    exact ⟨rfl, by simp⟩
  | cons key rest ih =>
    unfold parametersFor at hr
    split at hr
    · exact ih hr
    · rename_i group hfind
      obtain ⟨target, hshape, hprovides⟩ := hg group (List.mem_of_find?_eq_some hfind)
      have hneeded : ∀ name, Needs b.arena (.reference target) name → b.Provides name := by
        rintro name (⟨ho, -⟩ | ⟨e, he, -⟩)
        · cases ho
          exact hprovides
        · cases he
      obtain ⟨type, b₁, htype, hr₁⟩ := runs_bind hr
      rw [hshape] at htype
      obtain ⟨rfl, honly⟩ := onlyMentions_typeOf hneeded htype
      obtain ⟨others, b₂, hothers, hr₂⟩ := runs_bind hr₁
      obtain ⟨rfl, hrest⟩ := ih hothers
      obtain ⟨rfl, rfl⟩ := runs_pure hr₂
      exact ⟨rfl, List.forall_mem_cons.2 ⟨honly, hrest⟩⟩

/-- What a function returns mentions provided names when its responses do. -/
theorem onlyMentions_promise {types : List TypeNode} (h : ∀ t ∈ types, OnlyMentions b t) :
    OnlyMentions b (.reference "Promise" [returnedType types]) := by
  intro name hm
  cases hm with
  | here => exact Or.inl rfl
  | argument ht hm =>
    rw [List.mem_singleton.1 ht] at hm
    unfold returnedType at hm
    split at hm
    · cases hm
    · exact h _ (List.mem_singleton_self _) name hm
    · cases hm with
      | union ht hm => exact h _ ht name hm

/-- Adding a constant declares nothing. -/
theorem isSound_addConstant {name value : String} {result : Unit} (h : IsSound known functions b)
    (hr : (addConstant name value).Runs b result b') :
    IsSound known functions b' ∧ b.Grows b' := by
  obtain rfl := runs_addConstant hr
  exact ⟨⟨h.prepare, h.arena, h.types, h.mentioned⟩, ⟨fun _ hd => hd, fun _ hn => hn⟩⟩

/-- Adding an endpoint is sound. -/
theorem isSound_addEndpoint {e : Endpoint} {result : Unit} (h : IsSound known functions b)
    (hf : e.functionName ∈ functions)
    (hs : ∀ s ∈ shapesOf e, s.EnumeratesOnly known)
    (hr : (addEndpoint e).Runs b result b') : IsSound known functions b' := by
  have hgroups : ∀ group ∈ groupsOf e, ∀ s ∈ group.2.2, s.EnumeratesOnly known := by
    intro group hg s hmem
    exact hs s (List.mem_append_left _ (List.mem_filterMap.2 ⟨group, hg, hmem⟩))
  have hresponses : ∀ r ∈ e.responses, ∀ s ∈ r.shape :: r.header.toList,
      s.EnumeratesOnly known := by
    intro r hmem s hsr
    exact hs s (List.mem_append_right _ (List.mem_flatMap.2 ⟨r, hmem, hsr⟩))
  obtain ⟨groups, b₁, hdeclare, hr₁⟩ := runs_bind hr
  obtain ⟨hsound₁, -, hdeclared⟩ := isSound_declareGroups h hgroups hdeclare
  obtain ⟨_, b₂, hurl, hr₂⟩ := runs_bind hr₁
  obtain ⟨hsound₂, hgrows₂⟩ := isSound_addConstant hsound₁ hurl
  obtain ⟨_, b₃, hmethod, hr₃⟩ := runs_bind hr₂
  obtain ⟨hsound₃, hgrows₃⟩ := isSound_addConstant hsound₂ hmethod
  obtain ⟨types, b₄, htypes, hr₄⟩ := runs_bind hr₃
  obtain ⟨hsound₄, hgrows₄, honly⟩ := isSound_responseTypes hsound₃ hresponses htypes
  obtain ⟨parameters, b₅, hparameters, hr₅⟩ := runs_bind hr₄
  obtain ⟨rfl, hponly⟩ := onlyMentions_parametersFor
    (fun group hg => (hdeclared group hg).mono (hgrows₂.trans (hgrows₃.trans hgrows₄))) hparameters
  obtain rfl := runs_declare hr₅
  refine (hsound₄.declare (fun d hd => ?_) fun d hd name hm => ?_).1
  · rw [List.mem_singleton.1 hd]
    exact Or.inr ⟨_, rfl, hf⟩
  · rw [List.mem_singleton.1 hd] at hm
    refine Provides.mono ?_ ⟨fun _ hd => List.mem_append_left _ hd, fun _ hn => hn⟩
    cases hm with
    | parameter hp hm => exact hponly _ hp name hm
    | returns hm => exact onlyMentions_promise honly name hm

/-- Adding endpoints is sound. -/
theorem isSound_addEndpoints {endpoints : List Endpoint} {result : Unit}
    (h : IsSound known functions b) (hf : ∀ e ∈ endpoints, e.functionName ∈ functions)
    (hs : ∀ e ∈ endpoints, ∀ s ∈ shapesOf e, s.EnumeratesOnly known)
    (hr : (addEndpoints endpoints).Runs b result b') : IsSound known functions b' := by
  induction endpoints generalizing b with
  | nil =>
    obtain ⟨-, rfl⟩ := runs_pure hr
    exact h
  | cons e rest ih =>
    obtain ⟨_, b₁, hfirst, hr₁⟩ := runs_bind hr
    have hsound := isSound_addEndpoint h (hf e List.mem_cons_self) (hs e List.mem_cons_self) hfirst
    exact ih hsound (fun e he => hf e (List.mem_cons_of_mem _ he))
      (fun e he => hs e (List.mem_cons_of_mem _ he)) hr₁

/-- Adding names is sound. -/
theorem isSound_addNames {names : List String} {result : Unit} (h : IsSound known functions b)
    (hr : (addNames names).Runs b result b') : IsSound known functions b' := by
  induction names generalizing b with
  | nil =>
    obtain ⟨-, rfl⟩ := runs_pure hr
    exact h
  | cons name rest ih =>
    obtain ⟨_, b₁, hfirst, hr₁⟩ := runs_bind hr
    obtain ⟨hsound, -, -⟩ := isSound_declareFor h Shape.enumeratesOnly_reference hfirst
    exact ih hsound hr₁

end Steps

/-- The first builder is sound. -/
theorem isSound_start (api : Api) (options : Options) (functions : List String) :
    IsSound (HasEnumeration api) functions (Builder.start api.types options) := by
  have hprepare : ∀ s e, Shape.Occurs (.enumeration e) (options.prepare s) →
      Shape.Occurs (.enumeration e) s := by
    intro s e he
    unfold Options.prepare at he
    split at he
    · exact Shape.occurs_of_occurs_reduce trivial he
    · exact he
  refine ⟨hprepare, fun entry hentry e he => ?_, fun d hd => ?_, fun d hd => ?_⟩
  · obtain ⟨original, horiginal, rfl⟩ := List.mem_map.1 hentry
    exact Or.inr (Or.inl ⟨original, horiginal, hprepare _ e he⟩)
  · exact absurd hd List.not_mem_nil
  · exact absurd hd List.not_mem_nil

/-- The module that is built for an interface is sound. -/
theorem isSound_build {api : Api} {options : Options} {b : Builder} {warnings : List Warning}
    (h : build api options = (.ok b, warnings)) :
    IsSound (HasEnumeration api) (api.endpoints.map Endpoint.functionName) b := by
  obtain ⟨_, b₁, hendpoints, hr₁⟩ := runs_bind (runs_of_build h)
  have hsound₁ := isSound_addEndpoints (isSound_start api options _)
    (fun e he => List.mem_map_of_mem he)
    (fun e he s hs en hen => Or.inr (Or.inr ⟨e, he, s, hs, hen⟩)) hendpoints
  obtain ⟨_, b₂, henums, hr₂⟩ := runs_bind hr₁
  obtain rfl := runs_declare henums
  refine isSound_addNames (hsound₁.declare (fun d hd => ?_) fun d hd name hm => ?_).1 hr₂
  · obtain ⟨e, he, rfl⟩ := List.mem_map.1 hd
    exact Or.inl (Or.inl he)
  · obtain ⟨e, he, rfl⟩ := List.mem_map.1 hd
    cases hm

/-- No name dangles in a generated module: what a printed declaration mentions is
the name of a printed type, apart from promises and the wrapper of the template.
The functions must not have names of the arena, to which the groups and headers
belong that were named on the way, nor of enumerations. -/
theorem exists_declaration_of_mentions {api : Api} {options : Options} {b : Builder}
    {warnings : List Warning} (h : build api options = (.ok b, warnings))
    (names : ∀ e ∈ api.endpoints, e.functionName ∉ b.arena.names)
    (enumerations : ∀ e ∈ api.endpoints, ∀ enumeration, HasEnumeration api enumeration →
      enumeration.name ≠ e.functionName) :
    ∀ d ∈ b.printedDeclarations, ∀ name, d.Mentions name →
      name = "Promise" ∨ name = wrapperName ∨
        ∃ d' ∈ b.printedDeclarations, d'.isType = true ∧ d'.name = name := by
  have hsound := isSound_build h
  intro d hd name hm
  rcases hsound.mentioned d (mem_of_mem_firstByName hd) name hm with hn | hn | ⟨t, ht, htype, rfl⟩
  · exact Or.inl hn
  · exact Or.inr (Or.inl hn)
  · obtain ⟨kept, hkept, hname⟩ : ∃ kept ∈ b.printedDeclarations, kept.name = t.name :=
      exists_mem_firstByName ht
    refine Or.inr (Or.inr ⟨kept, hkept, ?_, hname⟩)
    rcases hsound.types kept (mem_of_mem_firstByName hkept) with hk | ⟨f, rfl, hf⟩
    · exact hk.isType
    · -- a function of that name would have the name of a type
      obtain ⟨e, he, hfunction⟩ := List.mem_map.1 hf
      have hclash : t.name = e.functionName := hname.symm.trans hfunction.symm
      rcases hsound.types t ht with hk | ⟨f', rfl, -⟩
      · match t, hk with
        | .interface declared _, hk | .alias declared _, hk =>
          exact absurd (hclash ▸ hk) (names e he)
        | .enumeration en, hk => exact absurd hclash (enumerations e he en hk)
      · cases htype

/-- An interface with a circle of names, one of them an alias, a dangling group, and
groups and headers that get names on the way: its module builds, and no name dangles
in it. -/
theorem exists_declaration_of_mentions_circle :
    let api : Api :=
      { baseUrl := "/"
        endpoints := [{ url := "/pet", method := .get, name := some "getPet",
                        path := some (.object [.named "id" .number]),
                        query := some (.reference "Lost"),
                        responses := [⟨.default, .reference "Pet",
                          some (.object [.named "tag" .string])⟩] }]
        enums := []
        interfaces := ["Alias"]
        types := ⟨[("Alias", .reference "Pet"),
          ("Pet", .object [.named "kind" (.enumeration ⟨"Kind", []⟩),
            .named "next" (.reference "Alias")])]⟩ }
    ∃ b warnings, build api {} = (.ok b, warnings) ∧
      (∀ e ∈ api.endpoints, e.functionName ∉ b.arena.names) ∧
      (∀ e ∈ api.endpoints, ∀ enumeration, HasEnumeration api enumeration →
        enumeration.name ≠ e.functionName) ∧
      ∀ d ∈ b.printedDeclarations, ∀ name, d.Mentions name →
        name = "Promise" ∨ name = wrapperName ∨
          ∃ d' ∈ b.printedDeclarations, d'.isType = true ∧ d'.name = name := by
  intro api
  have hnames : (build api {}).1.toOption.map (fun b => b.arena.names) =
      some ["Alias", "Pet", "getPet_parameter_path", "getPet_parameter_body",
        "getPet_parameter_header", "getPet_response_header_default"] := by
    decide +kernel
  have hkind : ∀ e, HasEnumeration api e → e.name = "Kind" := by
    have hall : ∀ s : Shape,
        s ∈ api.types.entries.map Prod.snd ∨ s ∈ api.endpoints.flatMap shapesOf →
          Shape.Everywhere (fun t => ∀ e, t = .enumeration e → e.name = "Kind") s := by
      intro s hs
      simp only [api, shapesOf, groupsOf, List.map_cons, List.map_nil, List.flatMap_cons,
        List.flatMap_nil, List.filterMap_cons, List.filterMap_nil, Option.toList_some,
        List.append_nil, List.cons_append, List.nil_append, List.mem_cons, List.not_mem_nil,
        or_false] at hs
      rcases hs with (rfl | rfl) | rfl | rfl | rfl | rfl <;>
        simp [Field.named, Shape.number, Shape.string]
    rintro e (he | ⟨entry, hentry, he⟩ | ⟨endpoint, hendpoint, s, hs, he⟩)
    · exact absurd he List.not_mem_nil
    · exact hall entry.2 (Or.inl (List.mem_map_of_mem hentry)) _ he e rfl
    · exact hall s (Or.inr (List.mem_flatMap.2 ⟨endpoint, hendpoint, hs⟩)) _ he e rfl
  cases h : build api {} with
  | mk result warnings =>
    cases result with
    | error e => simp [h, Except.toOption] at hnames
    | ok b =>
      simp only [h, Except.toOption, Option.map_some, Option.some.injEq] at hnames
      have names : ∀ e ∈ api.endpoints, e.functionName ∉ b.arena.names := by
        simp [api, hnames, Endpoint.functionName]
      have enumerations : ∀ e ∈ api.endpoints, ∀ enumeration, HasEnumeration api enumeration →
          enumeration.name ≠ e.functionName := by
        intro e he enumeration henumeration
        rw [hkind enumeration henumeration, List.mem_singleton.1 he]
        decide
      refine ⟨b, warnings, rfl, names, enumerations, ?_⟩
      exact exists_declaration_of_mentions h names enumerations

end Module

end TypedClient
