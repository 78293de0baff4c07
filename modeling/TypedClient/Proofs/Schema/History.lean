import TypedClient.Proofs.Schema.Enumerations
import TypedClient.Proofs.Schema.Requests

/-!
# Independence of history

What a schema is rendered by depends on the names that its references have and on the
enumerations of definitions, and where names are apart both are settled by the
document. So two catalogs that were filled by any requests render a schema alike, have
alike shapes under a name that both have, and have the same names when they were asked
the same, in whatever order and however often.
-/

namespace TypedClient.Catalog

/-! ### Names that are apart -/

/-- A name stands for a definition by its key, and for what a reference in the document
or in one of the schemas points at. -/
inductive StandsFor (document : Json) (schemas : List Json) : String → Json → Prop where
  /-- A definition by its key. -/
  | definition {entry : String × Json} (h : entry ∈ definitions document) :
    StandsFor document schemas (identifier entry.1) entry.2
  /-- What a reference points at. -/
  | reference {r : String} {target value : Json} (hvalue : value ∈ document :: schemas)
    (hr : r ∈ Document.references value) (htarget : Document.resolve? document r = some target) :
    StandsFor document schemas (Document.targetName r) target

/-- No name stands for two different values. -/
def NamesApart (document : Json) (schemas : List Json) : Prop :=
  ∀ name target target', StandsFor document schemas name target →
    StandsFor document schemas name target' → target = target'

/-- The schemas that a request brings along. -/
def Request.schemas : Request → List Json
  | .shape schema => [schema]
  | .definitions => []

/-- What requests give a name to: definitions, what the schemas that are asked for refer
to, and what all of that refers to in its turn. -/
inductive Needs (document : Json) (requests : List Request) : String → Json → Prop where
  /-- All definitions are asked for. -/
  | definition {entry : String × Json} (h : .definitions ∈ requests)
    (hentry : entry ∈ definitions document) :
    Needs document requests (identifier entry.1) entry.2
  /-- A schema that is asked for refers to it. -/
  | asked {schema : Json} {r : String} {target : Json} (h : .shape schema ∈ requests)
    (hr : (Schema.ofJson schema).RefersTo (canList document) r)
    (htarget : Document.resolve? document r = some target) :
    Needs document requests (Document.targetName r) target
  /-- What has a name refers to it. -/
  | further {name r : String} {target part : Json} (h : Needs document requests name target)
    (hr : (Schema.ofJson target).RefersTo (canList document) r)
    (hpart : Document.resolve? document r = some part) :
    Needs document requests (Document.targetName r) part

section Names

variable {document : Json} {requests requests' : List Request} {schemas schemas' : List Json}
  {name : String} {target : Json}

theorem NamesApart.definitionsApart (h : NamesApart document schemas) :
    DefinitionsApart document := by
  intro entry hentry entry' hentry' hname
  have hleft : StandsFor document schemas (identifier entry.1) entry.2 := .definition hentry
  have hright : StandsFor document schemas (identifier entry'.1) entry'.2 := .definition hentry'
  exact h _ _ _ hleft (hname ▸ hright)

/-- More schemas make names stand for more. -/
theorem StandsFor.mono (h : StandsFor document schemas name target)
    (hschemas : schemas ⊆ schemas') : StandsFor document schemas' name target := by
  cases h with
  | definition hentry => exact .definition hentry
  | reference hvalue hr htarget =>
    exact .reference (List.cons_subset_cons document hschemas hvalue) hr htarget

/-- With fewer schemas names stand for less. -/
theorem NamesApart.anti (h : NamesApart document schemas') (hschemas : schemas ⊆ schemas') :
    NamesApart document schemas :=
  fun name target target' ht ht' => h name target target' (ht.mono hschemas) (ht'.mono hschemas)

/-- What is needed has references of the document only. -/
theorem Needs.references_subset (h : Needs document requests name target) :
    Document.references target ⊆ Document.references document := by
  cases h with
  | definition _ hentry => exact references_subset_of_mem_definitions hentry
  | asked _ _ htarget => exact Document.references_subset_of_resolve? htarget
  | further _ _ hpart => exact Document.references_subset_of_resolve? hpart

/-- What is needed under a name is what the name stands for. -/
theorem Needs.standsFor (h : Needs document requests name target) :
    StandsFor document (requests.flatMap Request.schemas) name target := by
  cases h with
  | definition _ hentry => exact .definition hentry
  | @asked schema r _ hrequest hr htarget =>
    have hschema : schema ∈ requests.flatMap Request.schemas :=
      List.mem_flatMap.2 ⟨_, hrequest, List.mem_singleton_self schema⟩
    have hread := hr.isAllowed (Schema.isReadWith_ofJson schema)
    exact .reference (List.mem_cons_of_mem _ hschema) hread htarget
  | @further _ r value _ hneeds hr hpart =>
    have hread := hr.isAllowed (Schema.isReadWith_ofJson value)
    exact .reference List.mem_cons_self (hneeds.references_subset hread) hpart

/-- More requests need more. -/
theorem Needs.mono (h : Needs document requests name target)
    (hrequests : ∀ request ∈ requests, request ∈ requests') :
    Needs document requests' name target := by
  induction h with
  | definition hrequest hentry => exact .definition (hrequests _ hrequest) hentry
  | asked hrequest hr htarget => exact .asked (hrequests _ hrequest) hr htarget
  | further _ hr hpart ih => exact .further ih hr hpart

/-- What requests need is closed under what a walk refers to. -/
theorem isScope_needs (document : Json) (requests : List Request) :
    IsScope document (Needs document requests) (canList document) := by
  refine ⟨fun _ _ h => h.references_subset, fun _ _ _ _ h hr hpart => .further h hr hpart, ?_⟩
  intro c values _ hlist hnone
  unfold canList at hlist
  unfold enumerate at hnone
  cases hkey : correlatedKey? values (definitions document) with
  | none =>
    have hscalar : values.any Json.isComposite = false := by simpa [hkey] using hlist
    simp only [hkey, hscalar, Bool.false_eq_true, if_false] at hnone
    cases hnone
  | some key =>
    cases hfind : c.enums.find? (·.name = identifier key) with
    | some known => simp_all
    | none => cases he : enumerationOf? (identifier key) values <;> simp_all

/-- Requests give names to what they need. -/
theorem admits_needs (document : Json) {request : Request} (h : request ∈ requests) :
    Admits document (Needs document requests) (canList document) request := by
  cases request with
  | shape schema => exact fun _ _ hr htarget => .asked h hr htarget
  | definitions => exact fun _ hentry => .definition h hentry

end Names

/-! ### Shapes of one schema -/

section Alike

variable {document : Json} {c c' : Catalog} {schema : Schema} {s s' : Shape}
  {allowed : String → Prop}

/-- Lists that render schemas are alike when each shape is. -/
theorem map_unsigned_eq_of_renders {schemas : List Schema} {shapes shapes' : List Shape}
    (h : List.Forall₂ (Renders document c) schemas shapes)
    (h' : List.Forall₂ (Renders document c') schemas shapes')
    (halike : ∀ schema ∈ schemas, ∀ s s', Renders document c schema s →
      Renders document c' schema s' → s.unsigned = s'.unsigned) :
    shapes.map Shape.unsigned = shapes'.map Shape.unsigned := by
  induction h generalizing shapes' with
  | nil => cases h'; rfl
  | cons hfirst _ ih =>
    cases h' with
    | cons hfirst' hrest' =>
      have hhead := halike _ List.mem_cons_self _ _ hfirst hfirst'
      have htail := ih hrest' fun schema hs => halike schema (List.mem_cons_of_mem _ hs)
      rw [List.map_cons, List.map_cons, hhead, htail]

/-- What is known of a dictionary besides is not left to a name. -/
theorem Renders.ne_reference (h : Renders document c schema s)
    (hread : schema.IsReadWith allowed) (hown : schema.IsOwn) (name : String) :
    s ≠ .reference name := by
  induction hread generalizing s with
  | reference => exact hown.elim
  | dictionary _ _ _ _ _ =>
    cases h with
    | dictionary arena _ _ =>
      unfold withDictionary
      split <;> exact fun hs => nomatch hs
  | enumeration _ _ ih =>
    cases h with
    | named => exact fun hs => nomatch hs
    | constants => exact fun hs => nomatch hs
    | base _ h => exact ih h hown
  | kinds _ _ =>
    cases h with
    | kinds _ =>
      unfold ofKinds
      split <;> exact fun hs => nomatch hs
  | _ => cases h; exact fun hs => nomatch hs

theorem unsigned_dictionaryOf (value : Shape) :
    (dictionaryOf value).unsigned = dictionaryOf value.unsigned := rfl

/-- Dictionaries over alike values are alike, when what is known besides is alike and is
not left to a name. -/
theorem unsigned_withDictionary {known known' value value' : Shape} (arena arena' : Arena)
    (hknown : known.unsigned = known'.unsigned) (hvalue : value.unsigned = value'.unsigned)
    (hne : ∀ name, known ≠ .reference name) (hne' : ∀ name, known' ≠ .reference name) :
    (withDictionary known value arena).unsigned =
      (withDictionary known' value' arena').unsigned := by
  have htrivial : known.isTrivial arena = known'.isTrivial arena' := by
    rw [← Shape.isTrivial_unsigned .empty arena hne, hknown,
      Shape.isTrivial_unsigned .empty arena' hne']
  rw [withDictionary, withDictionary, htrivial]
  split
  · rw [unsigned_dictionaryOf, unsigned_dictionaryOf, hvalue]
  · simp only [Shape.unsigned, Shape.unsignedAll, unsigned_dictionaryOf, hknown, hvalue]

/-- The kinds that are kept depend on alike members alike. -/
theorem unsigned_ofKinds (nullable : Bool) (members : List Shape) :
    (ofKinds nullable members).unsigned = ofKinds nullable (members.map Shape.unsigned) := by
  unfold ofKinds
  rw [Shape.distinct_map_unsigned]
  cases Shape.distinct members with
  | nil => rfl
  | cons m rest =>
    rw [List.map_cons]
    cases nullable <;> simp [Shape.unsigned, Shape.unsignedAll_eq_map, Shape.null]

/-- Fields with alike values are alike. -/
theorem map_unsigned_withValues (properties : List (Field Schema)) (values : List Shape) :
    (Field.withValues properties values).map (Field.mapValue Shape.unsigned) =
      Field.withValues properties (values.map Shape.unsigned) := by
  rw [Field.withValues, Field.withValues, List.zip_map_right, List.map_map, List.map_map]
  rfl

/-- Two catalogs render what was read alike, when definitions of one name are one. -/
theorem Renders.alike (hapart : DefinitionsApart document)
    (hc : ∀ e ∈ c.enums, IsCorrelated document e) (hc' : ∀ e ∈ c'.enums, IsCorrelated document e)
    (hread : schema.IsReadWith allowed) (h : Renders document c schema s)
    (h' : Renders document c' schema s') : Shape.Alike s s' := by
  unfold Shape.Alike
  induction hread generalizing s s' with
  | anything => cases h; cases h'; rfl
  | scalar l => cases h; cases h'; rfl
  | reference =>
    cases h with
    | reference htarget =>
      cases h' with
      | reference => rfl
      | dangling hnone => simp [htarget] at hnone
    | dangling hnone =>
      cases h' with
      | reference htarget => simp [hnone] at htarget
      | dangling => rfl
  | allOf _ ih =>
    cases h with
    | allOf h =>
      cases h' with
      | allOf h' =>
        rw [Shape.unsigned_intersection, Shape.unsigned_intersection,
          map_unsigned_eq_of_renders h h' fun p hp _ _ => ih p hp]
  | oneOf _ ih =>
    cases h with
    | oneOf h =>
      cases h' with
      | oneOf h' =>
        rw [Shape.unsigned_union, Shape.unsigned_union,
          map_unsigned_eq_of_renders h h' fun b hb _ _ => ih b hb]
  | dictionary _ hbase hown ihextra ihbase =>
    cases h with
    | dictionary arena hextra hknown =>
      cases h' with
      | dictionary arena' hextra' hknown' =>
        exact unsigned_withDictionary arena arena' (ihbase hknown hknown')
          (ihextra hextra hextra') (hknown.ne_reference hbase hown)
          (hknown'.ne_reference hbase hown)
  | enumeration values _ ih =>
    cases h with
    | named hkey he hname =>
      cases h' with
      | named hkey' he' hname' =>
        cases hkey.symm.trans hkey'
        have hleft := (hc _ he).enumerationOf? hapart hkey hname
        have hright := (hc' _ he').enumerationOf? hapart hkey hname'
        exact congrArg Shape.enumeration (Option.some.inj (hleft.symm.trans hright))
      | constants hkey' => simp [hkey] at hkey'
      | base hlist => simp [(hc _ he).canList hapart hkey hname] at hlist
    | constants hkey hlist =>
      cases h' with
      | named hkey' => simp [hkey] at hkey'
      | constants => rfl
      | base hlist' => simp [hlist] at hlist'
    | base hlist h =>
      cases h' with
      | named hkey' he' hname' => simp [(hc' _ he').canList hapart hkey' hname'] at hlist
      | constants _ hlist' => simp [hlist] at hlist'
      | base _ h' => exact ih h h'
  | kinds _ ih =>
    cases h with
    | kinds h =>
      cases h' with
      | kinds h' =>
        rw [unsigned_ofKinds, unsigned_ofKinds,
          map_unsigned_eq_of_renders h h' fun k hk _ _ => ih k hk]
  | array _ ih =>
    cases h with
    | array h =>
      cases h' with
      | array h' => exact congrArg Shape.array (ih h h')
  | tuple _ ih =>
    cases h with
    | tuple h =>
      cases h' with
      | tuple h' =>
        rw [Shape.unsigned, Shape.unsigned, Shape.unsignedAll_eq_map, Shape.unsignedAll_eq_map,
          map_unsigned_eq_of_renders h h' fun p hp _ _ => ih p hp]
  | object _ _ ih =>
    cases h with
    | object h =>
      cases h' with
      | object h' =>
        have hvalues := map_unsigned_eq_of_renders h h' fun schema hs _ _ => by
          obtain ⟨f, hf, rfl⟩ := List.mem_map.1 hs
          exact ih f hf
        rw [Shape.unsigned_ofFields, Shape.unsigned_ofFields, map_unsigned_withValues,
          map_unsigned_withValues, hvalues]
  | malformedObject => cases h; cases h'; rfl

end Alike

/-! ### Names of a catalog -/

section Names

variable {document : Json} {requests requests' : List Request} {c : Catalog} {schema : Schema}
  {s : Shape} {r name : String} {target : Json}

/-- A schema in a list that is rendered is rendered. -/
theorem exists_renders_of_mem {schemas : List Schema} {shapes : List Shape}
    (h : List.Forall₂ (Renders document c) schemas shapes) (hs : schema ∈ schemas) :
    ∃ s, Renders document c schema s := by
  obtain ⟨s, -, hrenders⟩ := exists_of_mem_forall₂ (List.Forall₂.flip h) hs
  exact ⟨s, hrenders⟩

/-- A catalog that renders a schema knows the names of all that the schema refers to. -/
theorem Renders.knows (hapart : DefinitionsApart document)
    (hc : ∀ e ∈ c.enums, IsCorrelated document e) (h : Renders document c schema s)
    (hr : schema.RefersTo (canList document) r)
    (htarget : Document.resolve? document r = some target) :
    c.knows (Document.targetName r) = true := by
  induction hr generalizing s with
  | here =>
    cases h with
    | reference _ hknown => exact hknown
    | dangling hnone => simp [htarget] at hnone
  | part hp _ ih =>
    cases h with
    | allOf h =>
      obtain ⟨m, hm⟩ := exists_renders_of_mem h hp
      exact ih hm
  | branch hb _ ih =>
    cases h with
    | oneOf h =>
      obtain ⟨m, hm⟩ := exists_renders_of_mem h hb
      exact ih hm
  | extra _ ih =>
    cases h with
    | dictionary _ hextra _ => exact ih hextra
  | known _ ih =>
    cases h with
    | dictionary _ _ hbase => exact ih hbase
  | base hv _ ih =>
    cases h with
    | named hkey he hname => simp [(hc _ he).canList hapart hkey hname] at hv
    | constants _ hlist => simp [hlist] at hv
    | base _ h => exact ih h
  | kind hk _ ih =>
    cases h with
    | kinds h =>
      obtain ⟨m, hm⟩ := exists_renders_of_mem h hk
      exact ih hm
  | element _ ih =>
    cases h with
    | array h => exact ih h
  | position hp _ ih =>
    cases h with
    | tuple h =>
      obtain ⟨m, hm⟩ := exists_renders_of_mem h hp
      exact ih hm
  | property hf _ ih =>
    cases h with
    | object h =>
      obtain ⟨m, hm⟩ := exists_renders_of_mem h (List.mem_map_of_mem hf)
      exact ih hm

/-- Requests leave a catalog that is sound for what they need, and for what more
requests need, with nothing in progress and an answer to each. -/
theorem answers_needs (document : Json) (hsub : requests ⊆ requests') :
    IsSound document (Needs document requests') (answers document requests empty).2 ∧
      (answers document requests empty).2.inProgress = [] ∧
      List.Forall₂ (IsAnswer document (answers document requests empty).2) requests
        (answers document requests empty).1 := by
  have hadmits : ∀ request ∈ requests,
      Admits document (Needs document requests') (canList document) request :=
    fun request hrequest => admits_needs document (hsub hrequest)
  obtain ⟨hadvances, hanswers⟩ := answers_empty (isScope_needs document requests') hadmits
  exact ⟨hadvances.sound, hadvances.inProgress, hanswers⟩

/-- The names after requests are those that the requests need. -/
theorem mem_names_answers_iff (hapart : NamesApart document (requests.flatMap Request.schemas)) :
    name ∈ (answers document requests empty).2.arena.names ↔
      ∃ target, Needs document requests name target := by
  obtain ⟨hsound, hstack, hanswers⟩ :=
    answers_needs document (List.Subset.refl requests)
  generalize answers document requests empty = result at hsound hstack hanswers
  obtain ⟨results, c⟩ := result
  have hdefinitions := hapart.definitionsApart
  have hdefined : ∀ {other}, c.knows other = true → other ∈ c.arena.names := by
    intro other hother
    have hnowhere : other ∉ c.inProgress := by
      rw [hstack]
      exact List.not_mem_nil
    exact (knows_iff.1 hother).resolve_right hnowhere
  have hanswer : ∀ request ∈ requests, ∃ shapes, IsAnswer document c request shapes := by
    intro request hrequest
    obtain ⟨shapes, -, hshapes⟩ := exists_of_mem_forall₂ (List.Forall₂.flip hanswers) hrequest
    exact ⟨shapes, hshapes⟩
  constructor
  · intro hname
    obtain ⟨entry, hentry, rfl⟩ := List.mem_map.1 hname
    obtain ⟨target, hneeds, -⟩ := hsound.entries entry hentry
    exact ⟨target, hneeds⟩
  · rintro ⟨target, hneeds⟩
    induction hneeds with
    | definition hrequest hentry =>
      obtain ⟨_, -, hknown⟩ := hanswer _ hrequest
      exact hdefined (hknown _ hentry)
    | asked hrequest hr htarget =>
      obtain ⟨_, s, -, hrenders⟩ := hanswer _ hrequest
      exact hdefined (hrenders.knows hdefinitions hsound.correlated hr htarget)
    | @further _ _ value _ hneeds hr hpart ih =>
      obtain ⟨entry, hentry, rfl⟩ := List.mem_map.1 ih
      obtain ⟨target', hneeds', hrenders⟩ := hsound.entries entry hentry
      have htarget : target' = value := hapart _ _ _ hneeds'.standsFor hneeds.standsFor
      rw [htarget] at hrenders
      exact hdefined (hrenders.knows hdefinitions hsound.correlated hr hpart)

end Names

/-! ### Two histories -/

section Histories

variable {document : Json} {requests : List Request} {c c' : Catalog}

/-- Shapes under one name are alike in catalogs that are sound for the same requests. -/
theorem alike_of_entries (hapart : NamesApart document (requests.flatMap Request.schemas))
    (hc : IsSound document (Needs document requests) c)
    (hc' : IsSound document (Needs document requests) c') {name : String} {s s' : Shape}
    (h : (name, s) ∈ c.arena.entries) (h' : (name, s') ∈ c'.arena.entries) :
    Shape.Alike s s' := by
  obtain ⟨target, hneeds, hrenders⟩ := hc.entries _ h
  obtain ⟨target', hneeds', hrenders'⟩ := hc'.entries _ h'
  have htarget : target' = target := hapart _ _ _ hneeds'.standsFor hneeds.standsFor
  rw [htarget] at hrenders'
  exact hrenders.alike hapart.definitionsApart hc.correlated hc'.correlated
    (Schema.isReadWith_ofJson target) hrenders'

/-- An arena with the names of another has its entries, when shapes under one name are
alike. -/
theorem entries_map_unsigned_subset (hnames : c.arena.names ⊆ c'.arena.names)
    (halike : ∀ name s s', (name, s) ∈ c.arena.entries → (name, s') ∈ c'.arena.entries →
      Shape.Alike s s') :
    (c.arena.map Shape.unsigned).entries ⊆ (c'.arena.map Shape.unsigned).entries := by
  intro entry hentry
  obtain ⟨⟨name, s⟩, hs, rfl⟩ := List.mem_map.1 hentry
  obtain ⟨⟨_, s'⟩, hs', rfl⟩ := List.mem_map.1 (hnames (List.mem_map_of_mem hs))
  exact List.mem_map.2 ⟨_, hs', congrArg (Prod.mk _) (halike _ _ _ hs hs').symm⟩

/-- No entry comes twice where no name does. -/
theorem nodup_entries_map_unsigned (h : c.arena.names.Nodup) :
    (c.arena.map Shape.unsigned).entries.Nodup := by
  refine List.Nodup.of_map Prod.fst ?_
  change ((c.arena.entries.map _).map Prod.fst).Nodup
  rw [List.map_map]
  exact h

/-- The schemas of some requests are among those of more. -/
theorem flatMap_schemas_subset {requests' : List Request} (h : requests ⊆ requests') :
    requests.flatMap Request.schemas ⊆ requests'.flatMap Request.schemas := by
  intro value hvalue
  obtain ⟨request, hrequest, hschema⟩ := List.mem_flatMap.1 hvalue
  exact List.mem_flatMap.2 ⟨request, h hrequest, hschema⟩

/-- Where names of a document are apart, a schema gets alike shapes after any two
histories of requests. Where they stay apart with the schemas of the requests, shapes
under a name that both histories give are alike, and when the same was asked, in
whatever order and however often, the named shapes differ in their order at most.
Alike shapes are equal (`Shape.Alike.same`): at most the sign of a zero in an
enumeration differs. -/
theorem answers_independent (document : Json) (hapart : NamesApart document []) :
    (∀ schema requests requests',
      Shape.Alike (shapeOf document schema (answers document requests empty).2).1
        (shapeOf document schema (answers document requests' empty).2).1) ∧
    ∀ requests requests',
      NamesApart document ((requests ++ requests').flatMap Request.schemas) →
        (∀ name s s', (answers document requests empty).2.arena.find? name = some s →
          (answers document requests' empty).2.arena.find? name = some s' → Shape.Alike s s') ∧
        ((∀ request, request ∈ requests ↔ request ∈ requests') →
          ((answers document requests empty).2.arena.map Shape.unsigned).entries.Perm
            ((answers document requests' empty).2.arena.map Shape.unsigned).entries) := by
  refine ⟨fun schema requests requests' => ?_, fun requests requests' hall => ?_⟩
  · have hfirst : ∀ more, Request.shape schema ∈ Request.shape schema :: more :=
      fun _ => List.mem_cons_self
    obtain ⟨hsound, hstack, -⟩ := answers_needs document
      (List.subset_cons_of_subset (.shape schema) (List.Subset.refl requests))
    obtain ⟨hsound', hstack', -⟩ := answers_needs document
      (List.subset_cons_of_subset (.shape schema) (List.Subset.refl requests'))
    obtain ⟨hadvances, hrenders⟩ := ensures_shapeOf (isScope_needs document _)
      (admits_needs document (hfirst requests)) _ hsound hstack
    obtain ⟨hadvances', hrenders'⟩ := ensures_shapeOf (isScope_needs document _)
      (admits_needs document (hfirst requests')) _ hsound' hstack'
    exact hrenders.alike hapart.definitionsApart hadvances.sound.correlated
      hadvances'.sound.correlated (Schema.isReadWith_ofJson schema) hrenders'
  · have hleft : requests ⊆ requests ++ requests' := List.subset_append_left _ _
    have hright : requests' ⊆ requests ++ requests' := List.subset_append_right _ _
    obtain ⟨hsound, -, -⟩ := answers_needs document hleft
    obtain ⟨hsound', -, -⟩ := answers_needs document hright
    have halike : ∀ name s s', (name, s) ∈ (answers document requests empty).2.arena.entries →
        (name, s') ∈ (answers document requests' empty).2.arena.entries → Shape.Alike s s' :=
      fun _ _ _ hs hs' => alike_of_entries hall hsound hsound' hs hs'
    refine ⟨fun name s s' hs hs' => ?_, fun hsame => ?_⟩
    · exact halike name s s' (Arena.mem_of_lookup_eq_some hs) (Arena.mem_of_lookup_eq_some hs')
    · have hnames : ∀ name, name ∈ (answers document requests empty).2.arena.names ↔
          name ∈ (answers document requests' empty).2.arena.names := by
        intro name
        rw [mem_names_answers_iff (hall.anti (flatMap_schemas_subset hleft)),
          mem_names_answers_iff (hall.anti (flatMap_schemas_subset hright))]
        exact exists_congr fun target => ⟨fun h => h.mono fun request hr => (hsame request).1 hr,
          fun h => h.mono fun request hr => (hsame request).2 hr⟩
      have hsub := entries_map_unsigned_subset (fun name hn => (hnames name).1 hn) halike
      have hsub' := entries_map_unsigned_subset (fun name hn => (hnames name).2 hn)
        fun name s s' hs hs' => (halike name s' s hs' hs).symm
      have hnodup := nodup_entries_map_unsigned hsound.namesDiffer
      have hnodup' := nodup_entries_map_unsigned hsound'.namesDiffer
      exact (List.perm_ext_iff_of_nodup hnodup hnodup').2 fun entry =>
        ⟨fun h => hsub h, fun h => hsub' h⟩

/-- A definition that refers to itself and lists the values of another one, and a schema
that refers to that one: the names are apart, and the order of requests only changes
which definition gets its name first. -/
theorem answers_independent_circle :
    let kind : Json := .object [("enum", .array [.number (.integer 1), .string "x"])]
    let node : Json := .object [("properties",
      .object [("next", .object [("$ref", .string "#/definitions/Node")]), ("kind", kind)])]
    let document : Json := .object [("definitions", .object [("Node", node), ("Kind", kind)])]
    let schema : Json := .object [("$ref", .string "#/definitions/Kind")]
    NamesApart document [] ∧ NamesApart document [schema, schema] ∧
      Shape.Alike (shapeOf document node (answers document [.shape schema] empty).2).1
        (shapeOf document node (answers document [.definitions] empty).2).1 ∧
      ((answers document [.definitions, .shape schema] empty).2.arena.map
          Shape.unsigned).entries.Perm
        ((answers document [.shape schema, .definitions] empty).2.arena.map
          Shape.unsigned).entries := by
  intro kind node document schema
  have hdefinitions : definitions document = [("Node", node), ("Kind", kind)] := rfl
  have hreferences : Document.references document = ["#/definitions/Node"] := rfl
  have hasked : Document.references schema = ["#/definitions/Kind"] := rfl
  have hnode : Document.resolve? document "#/definitions/Node" = some node := rfl
  have hkind : Document.resolve? document "#/definitions/Kind" = some kind := rfl
  have hnodeName : Document.targetName "#/definitions/Node" = "Node" := rfl
  have hkindName : Document.targetName "#/definitions/Kind" = "Kind" := rfl
  have hnodeKey : identifier "Node" = "Node" := rfl
  have hkindKey : identifier "Kind" = "Kind" := rfl
  have hstands : ∀ name target, StandsFor document [schema, schema] name target →
      name = "Node" ∧ target = node ∨ name = "Kind" ∧ target = kind := by
    intro name target h
    cases h with
    | definition hentry =>
      rw [hdefinitions, List.mem_cons, List.mem_singleton] at hentry
      rcases hentry with rfl | rfl
      · exact Or.inl ⟨hnodeKey, rfl⟩
      · exact Or.inr ⟨hkindKey, rfl⟩
    | @reference r _ value hvalue hr htarget =>
      have hspelling : r = "#/definitions/Node" ∨ r = "#/definitions/Kind" := by
        rw [List.mem_cons, List.mem_cons, List.mem_singleton, or_self] at hvalue
        rcases hvalue with rfl | rfl
        · rw [hreferences, List.mem_singleton] at hr
          exact Or.inl hr
        · rw [hasked, List.mem_singleton] at hr
          exact Or.inr hr
      rcases hspelling with rfl | rfl
      · rw [hnode] at htarget
        exact Or.inl ⟨hnodeName, (Option.some.inj htarget).symm⟩
      · rw [hkind] at htarget
        exact Or.inr ⟨hkindName, (Option.some.inj htarget).symm⟩
  clear_value kind node document schema
  have hall : NamesApart document [schema, schema] := by
    intro name target target' h h'
    rcases hstands name target h with ⟨hname, rfl⟩ | ⟨hname, rfl⟩ <;>
      rcases hstands name target' h' with ⟨hname', rfl⟩ | ⟨hname', rfl⟩ <;>
        first | rfl | simp [hname] at hname'
  have hapart : NamesApart document [] := hall.anti (List.nil_subset _)
  obtain ⟨halike, hhistories⟩ := answers_independent document hapart
  obtain ⟨-, horder⟩ :=
    hhistories [.definitions, .shape schema] [.shape schema, .definitions] hall
  refine ⟨hapart, hall, halike _ _ _, horder fun request => ?_⟩
  simp only [List.mem_cons, List.not_mem_nil, or_false]
  exact or_comm

end Histories

end TypedClient.Catalog
