import TypedClient.Proofs.Remaining
import TypedClient.Proofs.Schema.Renders

/-!
# The walk over schemas

A walk over a schema keeps a catalog sound: what has a name renders what the name
stands for, no name comes twice, and every enumeration is that of a definition. It adds
to the catalog, leaves nothing in progress that was not, and results in a shape that
renders the schema. Every name in progress but the first is that of a reference of the
document and comes once, so the level never runs out: where it is zero, the name is in
progress already.
-/

namespace TypedClient.Catalog

/-- An enumeration of the values of a definition. -/
def IsCorrelated (document : Json) (e : Enumeration) : Prop :=
  ∃ values key, correlatedKey? values (definitions document) = some key ∧
    enumerationOf? (identifier key) values = some e

/-- A catalog that is filled as it should be, with names for what they may stand for. -/
structure IsSound (document : Json) (names : String → Json → Prop) (c : Catalog) : Prop where
  /-- A named shape renders something that the name may stand for. -/
  entries : ∀ entry ∈ c.arena.entries, ∃ target, names entry.1 target ∧
    Renders document c (Schema.ofJson target) entry.2
  /-- No name comes twice. -/
  namesDiffer : c.arena.names.Nodup
  /-- No two enumerations have one name. -/
  enumsDiffer : (c.enums.map Enumeration.name).Nodup
  /-- Every enumeration is that of a definition. -/
  correlated : ∀ e ∈ c.enums, IsCorrelated document e

/-- What names may stand for is closed under what a walk over it refers to. -/
structure IsScope (document : Json) (names : String → Json → Prop) (hides : List Json → Bool) :
    Prop where
  /-- A name stands for a value with references of the document. -/
  within : ∀ name target, names name target →
    Document.references target ⊆ Document.references document
  /-- What it refers to has a name. -/
  closed : ∀ name target r part, names name target →
    (Schema.ofJson target).RefersTo hides r → Document.resolve? document r = some part →
      names (Document.targetName r) part
  /-- Where listed values hide the schema that stands in for them, a shape is found. -/
  hidden : ∀ c values, IsSound document names c → hides values = true →
    (c.enumerate (definitions document) values).1 ≠ none

/-- A step of a walk leaves a sound catalog that is larger, with the same in progress. -/
structure Advances (document : Json) (names : String → Json → Prop) (c c' : Catalog) : Prop where
  /-- The catalog is sound. -/
  sound : IsSound document names c'
  /-- Nothing is lost. -/
  grows : c.Extends c'
  /-- What was in progress still is, and nothing else. -/
  inProgress : c'.inProgress = c.inProgress

/-- A walk that is begun on a sound catalog with the names in progress advances, and
ensures a property of the catalog that it leaves and of its result. -/
def Ensures {α : Type} (document : Json) (names : String → Json → Prop) (stack : List String)
    (step : Catalog → α × Catalog) (ensured : Catalog → α → Prop) : Prop :=
  ∀ c, IsSound document names c → c.inProgress = stack →
    Advances document names c (step c).2 ∧ ensured (step c).2 (step c).1

section Steps

variable {document : Json} {names : String → Json → Prop} {c c' c'' : Catalog}

/-- A name is known when it is one of the arena or in progress. -/
theorem knows_iff {name : String} :
    c.knows name = true ↔ name ∈ c.arena.names ∨ name ∈ c.inProgress := by
  rw [knows, Bool.or_eq_true, Arena.contains_iff, List.contains_iff_mem]

theorem IsSound.advances (h : IsSound document names c) : Advances document names c c :=
  ⟨h, .refl c, rfl⟩

theorem Advances.trans (h : Advances document names c c') (h' : Advances document names c' c'') :
    Advances document names c c'' :=
  ⟨h'.sound, h.grows.trans h'.grows, h'.inProgress.trans h.inProgress⟩

/-- A catalog with the same names and enumerations and more known is as sound. -/
theorem IsSound.of_extends (h : IsSound document names c) (he : c.Extends c')
    (harena : c'.arena = c.arena) (henums : c'.enums = c.enums) : IsSound document names c' := by
  refine ⟨?_, harena ▸ h.namesDiffer, henums ▸ h.enumsDiffer, henums ▸ h.correlated⟩
  rw [harena]
  intro entry hentry
  obtain ⟨target, hname, hrenders⟩ := h.entries entry hentry
  exact ⟨target, hname, hrenders.mono he⟩

/-- A warning changes nothing that counts. -/
theorem IsSound.advances_warn (h : IsSound document names c) (w : Warning) :
    Advances document names c (c.warn w) :=
  have hgrows : c.Extends (c.warn w) := ⟨fun _ hn => hn, List.Subset.refl _⟩
  ⟨h.of_extends hgrows rfl rfl, hgrows, rfl⟩

/-- A name that is begun is known, and others stay so. -/
theorem extends_begin (c : Catalog) (name : String) : c.Extends (c.begin name) := by
  refine ⟨fun other hother => ?_, List.Subset.refl _⟩
  rw [knows_iff] at hother ⊢
  exact hother.imp_right (List.mem_cons_of_mem name)

/-- A name that is finished is known, and others stay so. -/
theorem extends_finish (c : Catalog) (name : String) (s : Shape) :
    c.Extends (c.finish name s) := by
  refine ⟨fun other hother => ?_, List.Subset.refl _⟩
  rw [knows_iff] at hother ⊢
  rcases hother with hother | hother
  · exact Or.inl (Arena.mem_names_define hother)
  · by_cases he : other = name
    · exact Or.inl (he ▸ Arena.mem_names_define_self)
    · exact Or.inr (List.mem_filter.2 ⟨hother, by simpa using he⟩)

/-- A name that is finished with a shape of what it stands for leaves a sound catalog. -/
theorem IsSound.finish (h : IsSound document names c) {name : String} {target : Json} {s : Shape}
    (hname : names name target) (hs : Renders document c (Schema.ofJson target) s) :
    IsSound document names (c.finish name s) := by
  have hgrows := extends_finish c name s
  refine ⟨fun entry hentry => ?_, Arena.nodup_names_define h.namesDiffer, h.enumsDiffer,
    h.correlated⟩
  rcases Arena.mem_entries_of_mem_define hentry with hentry | rfl
  · obtain ⟨target', hname', hrenders⟩ := h.entries entry hentry
    exact ⟨target', hname', hrenders.mono hgrows⟩
  · exact ⟨target, hname, hs.mono hgrows⟩

/-! ### Enumerations -/

/-- An enumeration has the name that it is given. -/
theorem name_eq_of_enumerationOf? {name : String} {values : List Json} {e : Enumeration}
    (h : enumerationOf? name values = some e) : e.name = name := by
  obtain ⟨members, -, rfl⟩ := Option.map_eq_some_iff.1 h
  rfl

/-- The enumeration of a definition is added when none has its name. -/
theorem IsSound.advances_enums (h : IsSound document names c) {e : Enumeration}
    (he : IsCorrelated document e) (hnew : e.name ∉ c.enums.map Enumeration.name) :
    Advances document names c { c with enums := c.enums ++ [e] } := by
  have hgrows : c.Extends { c with enums := c.enums ++ [e] } :=
    ⟨fun _ hn => hn, List.subset_append_left _ _⟩
  refine ⟨⟨fun entry hentry => ?_, h.namesDiffer, ?_, fun e' he' => ?_⟩, hgrows, rfl⟩
  · obtain ⟨target, hname, hrenders⟩ := h.entries entry hentry
    exact ⟨target, hname, hrenders.mono hgrows⟩
  · rw [List.map_append, List.map_singleton, ← List.concat_eq_append]
    exact h.enumsDiffer.concat hnew
  · rcases List.mem_append.1 he' with he' | he'
    · exact h.correlated e' he'
    · exact List.mem_singleton.1 he' ▸ he

/-- Listed values get a shape that renders them, unless they cannot be told apart. -/
theorem IsSound.advances_enumerate (h : IsSound document names c) (values : List Json)
    (base : Schema) :
    Advances document names c (c.enumerate (definitions document) values).2 ∧
      match (c.enumerate (definitions document) values).1 with
      | some s =>
        Renders document (c.enumerate (definitions document) values).2 (.enumeration values base) s
      | none => canList document values = false := by
  unfold enumerate
  cases hkey : correlatedKey? values (definitions document) with
  | none =>
    by_cases hcomposite : values.any Json.isComposite = true
    · simp only [hcomposite, if_true]
      exact ⟨h.advances_warn _, by simp [canList, hkey, hcomposite]⟩
    · simp only [hcomposite]
      exact ⟨h.advances, .constants hkey (by simp [canList, hkey, hcomposite])⟩
  | some key =>
    cases hfind : c.enums.find? (·.name = identifier key) with
    | some known =>
      have hname : known.name = identifier key := by simpa using List.find?_some hfind
      simp only [hfind]
      exact ⟨h.advances, .named hkey (List.mem_of_find?_eq_some hfind) hname⟩
    | none =>
      simp only [hfind]
      cases he : enumerationOf? (identifier key) values with
      | none => exact ⟨h.advances_warn _, by simp [canList, hkey, he]⟩
      | some e =>
        have hname := name_eq_of_enumerationOf? he
        have hnew : e.name ∉ c.enums.map Enumeration.name := by
          rw [hname]
          simpa using hfind
        refine ⟨h.advances_enums ⟨values, key, hkey, he⟩ hnew, .named hkey ?_ hname⟩
        exact List.mem_append_right _ (List.mem_singleton_self e)

end Steps

/-! ### Schemas -/

section Schemas

variable {document : Json} {names : String → Json → Prop} {hides : List Json → Bool}
  {stack : List String} {follow : String → Catalog → Shape × Catalog}

/-- The walk over a list of schemas, from the walks over each. -/
theorem ensures_shapesWith {schemas : List Schema}
    (h : ∀ schema ∈ schemas, Ensures document names stack
      (shapeWith (definitions document) follow schema) (Renders document · schema)) :
    Ensures document names stack (shapesWith (definitions document) follow schemas)
      fun c shapes => List.Forall₂ (Renders document c) schemas shapes := by
  induction schemas with
  | nil =>
    intro c hc _
    exact ⟨hc.advances, .nil⟩
  | cons schema rest ih =>
    intro c hc hstack
    obtain ⟨hfirst, hshape⟩ := h schema List.mem_cons_self c hc hstack
    obtain ⟨hrest, hshapes⟩ := ih (fun s hs => h s (List.mem_cons_of_mem _ hs)) _ hfirst.sound
      (hfirst.inProgress.trans hstack)
    exact ⟨hfirst.trans hrest, .cons (hshape.mono hrest.grows) hshapes⟩

/-- The walk over properties is the walk over their values. -/
theorem fieldsWith_eq (properties : List (Field Schema)) (c : Catalog) :
    fieldsWith (definitions document) follow properties c =
      let (shapes, c) :=
        shapesWith (definitions document) follow (properties.map Field.value) c
      (Field.withValues properties shapes, c) := by
  induction properties generalizing c with
  | nil => rfl
  | cons f rest ih =>
    rw [fieldsWith, List.map_cons, shapesWith]
    simp only [ih]
    rfl

/-- The walk over a schema, from what it does at the references that it comes to. -/
theorem ensures_shapeWith (hscope : IsScope document names hides) {schema : Schema}
    (hfollow : ∀ r, schema.RefersTo hides r →
      Ensures document names stack (follow r) (Renders document · (.reference r))) :
    Ensures document names stack (shapeWith (definitions document) follow schema)
      (Renders document · schema) := by
  induction schema using Schema.tree_induction with
  | anything => exact fun c hc _ => ⟨hc.advances, .anything⟩
  | scalar s => exact fun c hc _ => ⟨hc.advances, .scalar s⟩
  | reference r => exact hfollow r .here
  | allOf parts ih =>
    intro c hc hstack
    have hparts := ensures_shapesWith fun p hp => ih p hp fun r hr => hfollow r (.part hp hr)
    obtain ⟨hadvances, hshapes⟩ := hparts c hc hstack
    exact ⟨hadvances, .allOf hshapes⟩
  | oneOf overlapping branches ih =>
    intro c hc hstack
    have hbranches := ensures_shapesWith fun b hb => ih b hb fun r hr => hfollow r (.branch hb hr)
    have hwarned : Advances document names c
        (if overlapping then c.warn .overlappingBranches else c) := by
      split
      · exact hc.advances_warn _
      · exact hc.advances
    obtain ⟨hadvances, hshapes⟩ :=
      hbranches _ hwarned.sound (hwarned.inProgress.trans hstack)
    exact ⟨hwarned.trans hadvances, .oneOf hshapes⟩
  | dictionary extra base ihextra ihbase =>
    intro c hc hstack
    obtain ⟨hextra, hvalue⟩ := ihextra (fun r hr => hfollow r (.extra hr)) c hc hstack
    obtain ⟨hbase, hknown⟩ := ihbase (fun r hr => hfollow r (.known hr)) _ hextra.sound
      (hextra.inProgress.trans hstack)
    exact ⟨hextra.trans hbase, .dictionary _ (hvalue.mono hbase.grows) hknown⟩
  | enumeration values base ih =>
    intro c hc hstack
    obtain ⟨hadvances, hshape⟩ := hc.advances_enumerate values base
    have hhidden := hscope.hidden c values hc
    rw [shapeWith]
    generalize c.enumerate (definitions document) values = result at hadvances hshape hhidden
    obtain ⟨_ | s, middle⟩ := result
    · have hv : hides values = false := by
        cases hv : hides values with
        | false => rfl
        | true => exact absurd rfl (hhidden hv)
      obtain ⟨hbase, hrenders⟩ := ih (fun r hr => hfollow r (.base hv hr)) middle hadvances.sound
        (hadvances.inProgress.trans hstack)
      exact ⟨hadvances.trans hbase, .base hshape hrenders⟩
    · exact ⟨hadvances, hshape⟩
  | kinds nullable kinds ih =>
    intro c hc hstack
    have hkinds := ensures_shapesWith fun k hk => ih k hk fun r hr => hfollow r (.kind hk hr)
    obtain ⟨hadvances, hshapes⟩ := hkinds c hc hstack
    exact ⟨hadvances, .kinds hshapes⟩
  | array element ih =>
    intro c hc hstack
    obtain ⟨hadvances, hshape⟩ := ih (fun r hr => hfollow r (.element hr)) c hc hstack
    exact ⟨hadvances, .array hshape⟩
  | tuple positions ih =>
    intro c hc hstack
    have hpositions := ensures_shapesWith fun p hp => ih p hp fun r hr =>
      hfollow r (.position hp hr)
    obtain ⟨hadvances, hshapes⟩ := hpositions c hc hstack
    exact ⟨hadvances, .tuple hshapes⟩
  | object properties ih =>
    intro c hc hstack
    have hvalues : Ensures document names stack
        (shapesWith (definitions document) follow (properties.map Field.value))
        fun c shapes => List.Forall₂ (Renders document c) (properties.map Field.value) shapes := by
      refine ensures_shapesWith fun schema hs => ?_
      obtain ⟨f, hf, rfl⟩ := List.mem_map.1 hs
      exact ih f hf fun r hr => hfollow r (.property hf hr)
    obtain ⟨hadvances, hshapes⟩ := hvalues c hc hstack
    rw [shapeWith, fieldsWith_eq]
    exact ⟨hadvances, .object hshapes⟩
  | malformedObject => exact fun c hc _ => ⟨hc.advances_warn _, .malformedObject⟩

end Schemas

/-! ### Names -/

section Names

variable {document : Json} {names : String → Json → Prop} {hides : List Json → Bool}
  {stack : List String}

/-- The names that the references of a document have. -/
def referenceNames (document : Json) : List String :=
  (Document.references document).map Document.targetName

/-- What following a reference does, from what giving a name does. -/
theorem ensures_followWith {name : String → Json → Catalog → Shape × Catalog} {r : String}
    (h : ∀ target, Document.resolve? document r = some target →
      Ensures document names stack (name (Document.targetName r) target) fun c s =>
        s = .reference (Document.targetName r) ∧ c.knows (Document.targetName r) = true) :
    Ensures document names stack (followWith document name r)
      (Renders document · (.reference r)) := by
  intro c hc hstack
  unfold followWith
  cases htarget : Document.resolve? document r with
  | none => exact ⟨hc.advances_warn _, .dangling htarget⟩
  | some target =>
    obtain ⟨hadvances, hshape, hknown⟩ := h target htarget c hc hstack
    simp only [hshape]
    exact ⟨hadvances, .reference htarget hknown⟩

/-- Giving a name results in a reference to it. -/
theorem nameWithin_fst (level : Nat) (name : String) (target : Json) (c : Catalog) :
    (nameWithin document level name target c).1 = .reference name := by
  cases level with
  | zero => rfl
  | succ level =>
    rw [nameWithin]
    split <;> rfl

/-- A name that is known is only referred to. -/
theorem nameWithin_of_knows {level : Nat} {name : String} {target : Json} {c : Catalog}
    (h : c.knows name = true) :
    nameWithin document level name target c = (.reference name, c) := by
  cases level with
  | zero => rfl
  | succ level => rw [nameWithin, if_pos h]

/-- A name that is begun and finished is not in progress afterwards. -/
theorem filter_ne_cons {name : String} (h : name ∉ stack) :
    (name :: stack).filter (· ≠ name) = stack := by
  rw [List.filter_cons_of_neg (by simp)]
  refine List.filter_eq_self.2 fun other hother => ?_
  have hne : other ≠ name := fun he => h (he ▸ hother)
  simpa using hne

/-- Giving a new name: it is begun, what it stands for is walked over, and it is
finished with the shape of that. -/
theorem ensures_nameWithin_succ (hscope : IsScope document names hides) {level : Nat}
    {name : String} {target : Json} (hname : names name target) {c : Catalog}
    (hc : IsSound document names c) (hnew : ¬ c.knows name = true)
    (hfollow : ∀ r, (Schema.ofJson target).RefersTo hides r →
      Ensures document names (name :: c.inProgress)
        (followWith document (nameWithin document level) r) (Renders document · (.reference r))) :
    Advances document names c (nameWithin document (level + 1) name target c).2 ∧
      (nameWithin document (level + 1) name target c).1 = .reference name ∧
      (nameWithin document (level + 1) name target c).2.knows name = true := by
  have hbegun := extends_begin c name
  have hsound : IsSound document names (c.begin name) := hc.of_extends hbegun rfl rfl
  obtain ⟨hadvances, hrenders⟩ := ensures_shapeWith hscope hfollow (c.begin name) hsound rfl
  rw [nameWithin, if_neg hnew]
  generalize shapeWith (definitions document) (followWith document (nameWithin document level))
    (Schema.ofJson target) (c.begin name) = result at hadvances hrenders
  have hgrows := extends_finish result.2 name result.1
  have hstack : (result.2.finish name result.1).inProgress = c.inProgress := by
    have hopen : name ∉ c.inProgress := fun h => hnew (knows_iff.2 (Or.inr h))
    have hbefore : result.2.inProgress = name :: c.inProgress := hadvances.inProgress
    change result.2.inProgress.filter (· ≠ name) = c.inProgress
    rw [hbefore]
    exact filter_ne_cons hopen
  exact ⟨⟨hadvances.sound.finish hname hrenders, (hbegun.trans hadvances.grows).trans hgrows,
    hstack⟩, rfl, knows_iff.2 (Or.inl Arena.mem_names_define_self)⟩

/-- Where a level of zero is enough for a name, the name is in progress. -/
theorem mem_of_remaining_le_zero {name : String}
    (hlevel : remaining (referenceNames document) stack < 0 ∨
      name ∈ referenceNames document ∧ remaining (referenceNames document) stack ≤ 0) :
    name ∈ stack := by
  rcases hlevel with hlevel | ⟨hmem, hlevel⟩
  · omega
  · exact mem_of_remaining_eq_zero (by omega) hmem

/-- Where a level is enough for a name that is not in progress, the one below is enough for
the names of the document once that name is. -/
theorem remaining_cons_le {level : Nat} {name : String}
    (hlevel : remaining (referenceNames document) stack < level + 1 ∨
      name ∈ referenceNames document ∧ remaining (referenceNames document) stack ≤ level + 1)
    (hnew : name ∉ stack) : remaining (referenceNames document) (name :: stack) ≤ level := by
  rcases hlevel with hlevel | ⟨hmem, hlevel⟩
  · have hle : remaining (referenceNames document) (name :: stack) ≤
        remaining (referenceNames document) stack :=
      remaining_anti (List.subset_cons_self name stack)
    omega
  · have hlt := remaining_cons_lt hmem hnew
    omega

/-- Giving a name results in a reference to it, and the name is known afterwards. The
level has to allow for the names of the document that are not in progress, and for one
more when the name is not among these. -/
theorem ensures_nameWithin (hscope : IsScope document names hides) {level : Nat} {name : String}
    {target : Json} (hname : names name target)
    (hlevel : remaining (referenceNames document) stack < level ∨
      name ∈ referenceNames document ∧
        remaining (referenceNames document) stack ≤ level) :
    Ensures document names stack (nameWithin document level name target) fun c s =>
      s = .reference name ∧ c.knows name = true := by
  induction level generalizing name target stack with
  | zero =>
    intro c hc hstack
    have hopen : name ∈ stack := mem_of_remaining_le_zero hlevel
    exact ⟨hc.advances, rfl, knows_iff.2 (Or.inr (hstack ▸ hopen))⟩
  | succ level ih =>
    intro c hc hstack
    by_cases hknown : c.knows name = true
    · rw [nameWithin_of_knows hknown]
      exact ⟨hc.advances, rfl, hknown⟩
    · have hnew : name ∉ stack := fun hopen => hknown (knows_iff.2 (Or.inr (hstack ▸ hopen)))
      have hless := remaining_cons_le hlevel hnew
      subst hstack
      refine ensures_nameWithin_succ hscope hname hc hknown fun r hr => ?_
      have hread := hr.isAllowed (Schema.isReadWith_ofJson target)
      have hmem : Document.targetName r ∈ referenceNames document :=
        List.mem_map_of_mem (hscope.within name target hname hread)
      exact ensures_followWith fun part hpart =>
        ih (hscope.closed name target r part hname hr hpart) (Or.inr ⟨hmem, hless⟩)

end Names

end TypedClient.Catalog
