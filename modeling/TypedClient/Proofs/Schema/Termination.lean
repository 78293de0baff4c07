import TypedClient.Proofs.Schema.Correlation
import TypedClient.Proofs.Schema.Targets

/-!
# The walk comes to an end

The level that names are given within is no limit of the walk. The steps of a walk that
follows every reference, however deep, are a relation between what there is to do, the
catalog before and the catalog after, and it has a result where the walk comes to an end.
It always does: a reference is followed while its name is not known, and then the name is
in progress, so the references of the document run out. Along the way the names that are
begun are written down, with what they are begun for, and none of them comes twice.
-/

namespace TypedClient.Catalog

/-- What there is to do in a walk. -/
inductive Task where
  /-- Find the shape of a schema. -/
  | schema (schema : Schema)
  /-- Give a name to a value. -/
  | name (name : String) (target : Json)
  /-- Do several things, in order. -/
  | each (tasks : List Task)

/-- A task comes to an end: begun with a catalog it results in shapes and in a catalog, and
on the way names are begun for values. A name that is known is referred to, and nothing
else bounds how deep references are followed. -/
inductive Ends (document : Json) :
    Task → Catalog → List Shape → Catalog → List (String × Json) → Prop where
  /-- Nothing is demanded. -/
  | anything {c : Catalog} : Ends document (.schema .anything) c [.any] c []
  /-- A kind is its own shape. -/
  | scalar {s : Shape} {c : Catalog} : Ends document (.schema (.scalar s)) c [s] c []
  /-- A reference to nothing is reported. -/
  | dangling {r : String} {c : Catalog} (hnone : Document.resolve? document r = none) :
    Ends document (.schema (.reference r)) c [.any] (c.warn (.danglingReference r)) []
  /-- What a reference points at gets its name. -/
  | reference {r : String} {target : Json} {c c' : Catalog} {shapes : List Shape}
    {begun : List (String × Json)} (htarget : Document.resolve? document r = some target)
    (h : Ends document (.name (Document.targetName r) target) c shapes c' begun) :
    Ends document (.schema (.reference r)) c shapes c' begun
  /-- Schemas that all hold. -/
  | allOf {parts : List Schema} {c c' : Catalog} {members : List Shape}
    {begun : List (String × Json)}
    (h : Ends document (.each (parts.map .schema)) c members c' begun) :
    Ends document (.schema (.allOf parts)) c [.intersection members] c' begun
  /-- Alternatives, which are reported when they may overlap. -/
  | oneOf {overlapping : Bool} {branches : List Schema} {c c' : Catalog} {members : List Shape}
    {begun : List (String × Json)}
    (h : Ends document (.each (branches.map .schema))
      (if overlapping then c.warn .overlappingBranches else c) members c' begun) :
    Ends document (.schema (.oneOf overlapping branches)) c [.union members] c' begun
  /-- The further members of an object, and then the object. -/
  | dictionary {extra base : Schema} {c c' : Catalog} {value known : Shape}
    {begun : List (String × Json)}
    (h : Ends document (.each [.schema extra, .schema base]) c [value, known] c' begun) :
    Ends document (.schema (.dictionary extra base)) c [withDictionary known value c'.arena] c'
      begun
  /-- Values that have a shape as they are listed. -/
  | listed {values : List Json} {base : Schema} {c c' : Catalog} {s : Shape}
    (hlisted : c.enumerate (definitions document) values = (some s, c')) :
    Ends document (.schema (.enumeration values base)) c [s] c' []
  /-- Values that have none, for which the base type stands in. -/
  | base {values : List Json} {base : Schema} {c c' c'' : Catalog} {shapes : List Shape}
    {begun : List (String × Json)}
    (hlisted : c.enumerate (definitions document) values = (none, c'))
    (h : Ends document (.schema base) c' shapes c'' begun) :
    Ends document (.schema (.enumeration values base)) c shapes c'' begun
  /-- Several kinds. -/
  | kinds {nullable : Bool} {kinds : List Schema} {c c' : Catalog} {members : List Shape}
    {begun : List (String × Json)}
    (h : Ends document (.each (kinds.map .schema)) c members c' begun) :
    Ends document (.schema (.kinds nullable kinds)) c [ofKinds nullable members] c' begun
  /-- A list. -/
  | array {element : Schema} {c c' : Catalog} {s : Shape} {begun : List (String × Json)}
    (h : Ends document (.schema element) c [s] c' begun) :
    Ends document (.schema (.array element)) c [.array s] c' begun
  /-- A list with positions. -/
  | tuple {positions : List Schema} {c c' : Catalog} {members : List Shape}
    {begun : List (String × Json)}
    (h : Ends document (.each (positions.map .schema)) c members c' begun) :
    Ends document (.schema (.tuple positions)) c [.tuple members] c' begun
  /-- An object, property by property. -/
  | object {properties : List (Field Schema)} {c c' : Catalog} {values : List Shape}
    {begun : List (String × Json)}
    (h : Ends document (.each ((properties.map Field.value).map .schema)) c values c' begun) :
    Ends document (.schema (.object properties)) c
      [.ofFields (Field.withValues properties values)] c' begun
  /-- An object whose properties cannot be read is reported. -/
  | malformedObject {c : Catalog} :
    Ends document (.schema .malformedObject) c [.any] (c.warn .malformedProperties) []
  /-- Nothing is left to do. -/
  | nil {c : Catalog} : Ends document (.each []) c [] c []
  /-- One thing is done, and then the others. -/
  | cons {task : Task} {rest : List Task} {c c' c'' : Catalog} {shapes shapes' : List Shape}
    {begun begun' : List (String × Json)} (h : Ends document task c shapes c' begun)
    (h' : Ends document (.each rest) c' shapes' c'' begun') :
    Ends document (.each (task :: rest)) c (shapes ++ shapes') c'' (begun ++ begun')
  /-- A name that is known is referred to. -/
  | known {name : String} {target : Json} {c : Catalog} (hknown : c.knows name = true) :
    Ends document (.name name target) c [.reference name] c []
  /-- Another one is begun, and it is finished with the shape of the value. -/
  | begun {name : String} {target : Json} {c c' : Catalog} {s : Shape}
    {begun : List (String × Json)} (hnew : ¬ c.knows name = true)
    (h : Ends document (.schema (Schema.ofJson target)) (c.begin name) [s] c' begun) :
    Ends document (.name name target) c [.reference name] (c'.finish name s)
      ((name, target) :: begun)

/-! ### One result, and no name twice -/

section Ends

variable {document : Json} {task : Task} {c c' c'' : Catalog} {shapes shapes' : List Shape}
  {begun begun' : List (String × Json)}

/-- A task has one result, and takes one way to it. -/
theorem Ends.unique (h : Ends document task c shapes c' begun)
    (h' : Ends document task c shapes' c'' begun') :
    shapes = shapes' ∧ c' = c'' ∧ begun = begun' := by
  induction h generalizing shapes' c'' begun' with
  | anything | scalar | malformedObject | nil => cases h'; exact ⟨rfl, rfl, rfl⟩
  | dangling hnone =>
    cases h' with
    | dangling => exact ⟨rfl, rfl, rfl⟩
    | reference htarget => cases hnone.symm.trans htarget
  | reference htarget _ ih =>
    cases h' with
    | dangling hnone => cases hnone.symm.trans htarget
    | reference htarget' h' =>
      cases htarget.symm.trans htarget'
      exact ih h'
  | allOf _ ih | oneOf _ ih | kinds _ ih | tuple _ ih | object _ ih =>
    cases h'
    rename_i h'
    obtain ⟨rfl, rfl, rfl⟩ := ih h'
    exact ⟨rfl, rfl, rfl⟩
  | dictionary _ ih | array _ ih =>
    cases h'
    rename_i h'
    obtain ⟨hs, rfl, rfl⟩ := ih h'
    cases hs
    exact ⟨rfl, rfl, rfl⟩
  | listed hlisted =>
    cases h' with
    | listed hlisted' =>
      cases hlisted.symm.trans hlisted'
      exact ⟨rfl, rfl, rfl⟩
    | base hlisted' => cases hlisted.symm.trans hlisted'
  | base hlisted _ ih =>
    cases h' with
    | listed hlisted' => cases hlisted.symm.trans hlisted'
    | base hlisted' h' =>
      cases hlisted.symm.trans hlisted'
      exact ih h'
  | cons _ _ ihfirst ihrest =>
    cases h' with
    | cons hfirst hrest =>
      obtain ⟨rfl, rfl, rfl⟩ := ihfirst hfirst
      obtain ⟨rfl, rfl, rfl⟩ := ihrest hrest
      exact ⟨rfl, rfl, rfl⟩
  | known hknown =>
    cases h' with
    | known => exact ⟨rfl, rfl, rfl⟩
    | begun hnew => exact absurd hknown hnew
  | begun hnew _ ih =>
    cases h' with
    | known hknown => exact absurd hknown hnew
    | begun _ h' =>
      obtain ⟨hs, rfl, rfl⟩ := ih h'
      cases hs
      exact ⟨rfl, rfl, rfl⟩

/-- What a task leaves behind: the same is in progress, and names have got shapes that had
none and were not in progress. -/
structure Adds (c c' : Catalog) (added : List String) : Prop where
  /-- The same is in progress. -/
  inProgress : c'.inProgress = c.inProgress
  /-- The names with shapes are those from before and the added ones. -/
  names : c'.arena.names.Perm (c.arena.names ++ added)
  /-- None of the added ones was in progress. -/
  closed : ∀ name ∈ added, name ∉ c.inProgress

/-- A step that gives no names adds none. -/
theorem Adds.of_eq (harena : c'.arena = c.arena) (hopen : c'.inProgress = c.inProgress) :
    Adds c c' [] := by
  refine ⟨hopen, ?_, by simp⟩
  rw [harena, List.append_nil]

theorem Adds.trans {added added' : List String} (h : Adds c c' added) (h' : Adds c' c'' added') :
    Adds c c'' (added ++ added') := by
  refine ⟨h'.inProgress.trans h.inProgress, ?_, fun name hname => ?_⟩
  · rw [← List.append_assoc]
    exact h'.names.trans (h.names.append_right added')
  · rcases List.mem_append.1 hname with hname | hname
    · exact h.closed name hname
    · exact h.inProgress ▸ h'.closed name hname

/-- Listed values get no names in the arena. -/
theorem adds_enumerate (document : Json) (values : List Json) (c : Catalog) :
    Adds c (c.enumerate (definitions document) values).2 [] := by
  rcases enumerate_cases document values c with
    ⟨_, _, _, _, _, h⟩ | ⟨_, _, _, _, h⟩ | ⟨_, _, h⟩ | h <;>
  · rw [h]
    exact .of_eq rfl rfl

/-- A new name is added when it is finished. -/
theorem Adds.finish {name : String} {added : List String} {s : Shape}
    (hnew : ¬ c.knows name = true) (h : Adds (c.begin name) c' added) :
    Adds c (c'.finish name s) (name :: added) := by
  obtain ⟨hnone, hclosed⟩ := find?_eq_none_of_not_knows hnew
  -- while it is in progress it is not begun again, so it has no shape yet
  have hopen : name ∉ added := fun hn => h.closed name hn List.mem_cons_self
  have hbefore : name ∉ c'.arena.names := by
    rw [h.names.mem_iff, List.mem_append, not_or]
    exact ⟨Arena.not_mem_names_of_find?_eq_none hnone, hopen⟩
  refine ⟨?_, ?_, List.forall_mem_cons.2 ⟨hclosed, fun other hother hin => ?_⟩⟩
  · have hstack : c'.inProgress = name :: c.inProgress := h.inProgress
    change c'.inProgress.filter (· ≠ name) = c.inProgress
    rw [hstack]
    exact filter_ne_cons hclosed
  · change (c'.arena.define name s).1.names.Perm (c.arena.names ++ name :: added)
    rw [Arena.names_define hbefore]
    calc c'.arena.names ++ [name]
        _ |>.Perm (name :: c'.arena.names) := List.perm_append_singleton _ _
        _ |>.Perm (name :: (c.arena.names ++ added)) := h.names.cons name
        _ |>.Perm (c.arena.names ++ name :: added) := List.perm_middle.symm
  · exact h.closed other hother (List.mem_cons_of_mem _ hin)

/-- A task adds the names that are begun on the way. -/
theorem Ends.adds (h : Ends document task c shapes c' begun) :
    Adds c c' (begun.map Prod.fst) := by
  induction h with
  | anything | scalar | dangling | malformedObject | nil | known => exact .of_eq rfl rfl
  | reference _ _ ih | allOf _ ih | dictionary _ ih | kinds _ ih | array _ ih | tuple _ ih
  | object _ ih => exact ih
  | @oneOf overlapping _ c _ _ _ _ ih =>
    have hwarned : Adds c (if overlapping then c.warn .overlappingBranches else c) [] := by
      split <;> exact .of_eq rfl rfl
    exact hwarned.trans ih
  | @listed values _ c _ _ hlisted =>
    have hadds := adds_enumerate document values c
    rw [hlisted] at hadds
    exact hadds
  | @base values _ c _ _ _ _ hlisted _ ih =>
    have hadds := adds_enumerate document values c
    rw [hlisted] at hadds
    exact hadds.trans ih
  | cons _ _ ihfirst ihrest =>
    rw [List.map_append]
    exact ihfirst.trans ihrest
  | begun hnew _ ih => exact ih.finish hnew

/-- Tasks are done one after the other. -/
theorem Ends.append {tasks more : List Task} (h : Ends document (.each tasks) c shapes c' begun)
    (h' : Ends document (.each more) c' shapes' c'' begun') :
    Ends document (.each (tasks ++ more)) c (shapes ++ shapes') c'' (begun ++ begun') := by
  induction tasks generalizing c shapes begun with
  | nil =>
    cases h
    exact h'
  | cons task rest ih =>
    cases h with
    | cons hfirst hrest =>
      rw [List.append_assoc, List.append_assoc]
      exact .cons hfirst (ih hrest)

end Ends

/-! ### Every task comes to an end -/

/-- A step does a task: from any catalog with the names in progress the task comes to an
end, with the result of the step. -/
def Does (document : Json) (stack : List String) (task : Task)
    (step : Catalog → List Shape × Catalog) : Prop :=
  ∀ c, c.inProgress = stack → ∃ begun, Ends document task c (step c).1 (step c).2 begun

/-- A step that results in one shape. -/
def alone (step : Catalog → Shape × Catalog) (c : Catalog) : List Shape × Catalog :=
  ([(step c).1], (step c).2)

section Schemas

variable {document : Json} {stack : List String} {follow : String → Catalog → Shape × Catalog}

/-- The walk over a list of schemas, from the walks over each. -/
theorem does_shapesWith (hkeeps : ∀ r (c : Catalog), c.Keeps (follow r c).2)
    {schemas : List Schema} (h : ∀ schema ∈ schemas, Does document stack (.schema schema)
      (alone (shapeWith (definitions document) follow schema))) :
    Does document stack (.each (schemas.map .schema))
      (shapesWith (definitions document) follow schemas) := by
  induction schemas with
  | nil => exact fun c _ => ⟨[], .nil⟩
  | cons schema rest ih =>
    intro c hc
    obtain ⟨begun, hfirst⟩ := h schema List.mem_cons_self c hc
    have hkept : c.Keeps (shapeWith (definitions document) follow schema c).2 :=
      keeps_shapeWith hkeeps schema c
    obtain ⟨begun', hrest⟩ :=
      ih (fun s hs => h s (List.mem_cons_of_mem _ hs)) _ (hkept.inProgress.trans hc)
    exact ⟨begun ++ begun', .cons hfirst hrest⟩

/-- The walk over a schema, from what it does at the references that it comes to. -/
theorem does_shapeWith (hkeeps : ∀ r (c : Catalog), c.Keeps (follow r c).2) {schema : Schema}
    (hfollow : ∀ r, schema.RefersTo (fun _ => false) r →
      Does document stack (.schema (.reference r)) (alone (follow r))) :
    Does document stack (.schema schema)
      (alone (shapeWith (definitions document) follow schema)) := by
  induction schema using Schema.tree_induction with
  | anything => exact fun c _ => ⟨[], .anything⟩
  | scalar s => exact fun c _ => ⟨[], .scalar⟩
  | reference r => exact hfollow r .here
  | allOf parts ih =>
    intro c hc
    have hparts := does_shapesWith hkeeps fun p hp => ih p hp fun r hr => hfollow r (.part hp hr)
    obtain ⟨begun, h⟩ := hparts c hc
    exact ⟨begun, .allOf h⟩
  | oneOf overlapping branches ih =>
    intro c hc
    have hbranches := does_shapesWith hkeeps fun b hb => ih b hb fun r hr =>
      hfollow r (.branch hb hr)
    have hwarned : (if overlapping then c.warn .overlappingBranches else c).inProgress = stack := by
      split <;> exact hc
    obtain ⟨begun, h⟩ := hbranches _ hwarned
    exact ⟨begun, .oneOf h⟩
  | dictionary extra base ihextra ihbase =>
    intro c hc
    obtain ⟨begun, hextra⟩ := ihextra (fun r hr => hfollow r (.extra hr)) c hc
    have hkept : c.Keeps (shapeWith (definitions document) follow extra c).2 :=
      keeps_shapeWith hkeeps extra c
    obtain ⟨begun', hbase⟩ :=
      ihbase (fun r hr => hfollow r (.known hr)) _ (hkept.inProgress.trans hc)
    exact ⟨_, .dictionary (.cons hextra (.cons hbase .nil))⟩
  | enumeration values base ih =>
    intro c hc
    have hopen : (c.enumerate (definitions document) values).2.inProgress = stack :=
      (keeps_enumerate values c).inProgress.trans hc
    rw [alone, shapeWith]
    cases hlisted : c.enumerate (definitions document) values with
    | mk found middle =>
      rw [hlisted] at hopen
      cases found with
      | none =>
        obtain ⟨begun, hbase⟩ := ih (fun r hr => hfollow r (.base rfl hr)) middle hopen
        exact ⟨begun, .base hlisted hbase⟩
      | some s => exact ⟨[], .listed hlisted⟩
  | kinds nullable kinds ih =>
    intro c hc
    have hkinds := does_shapesWith hkeeps fun k hk => ih k hk fun r hr => hfollow r (.kind hk hr)
    obtain ⟨begun, h⟩ := hkinds c hc
    exact ⟨begun, .kinds h⟩
  | array element ih =>
    intro c hc
    obtain ⟨begun, h⟩ := ih (fun r hr => hfollow r (.element hr)) c hc
    exact ⟨begun, .array h⟩
  | tuple positions ih =>
    intro c hc
    have hpositions := does_shapesWith hkeeps fun p hp => ih p hp fun r hr =>
      hfollow r (.position hp hr)
    obtain ⟨begun, h⟩ := hpositions c hc
    exact ⟨begun, .tuple h⟩
  | object properties ih =>
    intro c hc
    have hvalues : Does document stack (.each ((properties.map Field.value).map .schema))
        (shapesWith (definitions document) follow (properties.map Field.value)) := by
      refine does_shapesWith hkeeps fun schema hs => ?_
      obtain ⟨f, hf, rfl⟩ := List.mem_map.1 hs
      exact ih f hf fun r hr => hfollow r (.property hf hr)
    obtain ⟨begun, h⟩ := hvalues c hc
    rw [alone, shapeWith, fieldsWith_eq]
    exact ⟨begun, .object h⟩
  | malformedObject => exact fun c _ => ⟨[], .malformedObject⟩

end Schemas

section Names

variable {document : Json} {stack : List String}

/-- Following a reference, from giving a name to what it points at. -/
theorem does_followWith {give : String → Json → Catalog → Shape × Catalog} {r : String}
    (h : ∀ target, Document.resolve? document r = some target →
      Does document stack (.name (Document.targetName r) target)
        (alone (give (Document.targetName r) target))) :
    Does document stack (.schema (.reference r)) (alone (followWith document give r)) := by
  intro c hc
  rw [alone, followWith]
  cases htarget : Document.resolve? document r with
  | none => exact ⟨[], .dangling htarget⟩
  | some target =>
    obtain ⟨begun, hname⟩ := h target htarget c hc
    exact ⟨begun, .reference htarget hname⟩

/-- Giving a name to what refers to nothing outside of the document. The level is enough
when it allows for the names of the document that are not in progress, and for one more
when the name is not among these. -/
theorem does_nameWithin {level : Nat} {name : String} {target : Json}
    (htarget : Document.references target ⊆ Document.references document)
    (hlevel : remaining (referenceNames document) stack < level ∨
      name ∈ referenceNames document ∧ remaining (referenceNames document) stack ≤ level) :
    Does document stack (.name name target) (alone (nameWithin document level name target)) := by
  induction level generalizing name target stack with
  | zero =>
    intro c hc
    have hopen : name ∈ c.inProgress := hc ▸ mem_of_remaining_le_zero hlevel
    exact ⟨[], .known (knows_iff.2 (Or.inr hopen))⟩
  | succ level ih =>
    intro c hc
    by_cases hknown : c.knows name = true
    · rw [alone, nameWithin_of_knows hknown]
      exact ⟨[], .known hknown⟩
    · have hnew : name ∉ stack := hc ▸ (find?_eq_none_of_not_knows hknown).2
      have hless := remaining_cons_le hlevel hnew
      have hshape : Does document (name :: stack) (.schema (Schema.ofJson target))
          (alone (shapeWith (definitions document)
            (followWith document (nameWithin document level)) (Schema.ofJson target))) := by
        refine does_shapeWith (keeps_followWith (keeps_nameWithin level)) fun r hr => ?_
        have hread := hr.isAllowed (Schema.isReadWith_ofJson target)
        have hmem : Document.targetName r ∈ referenceNames document :=
          List.mem_map_of_mem (htarget hread)
        exact does_followWith fun part hpart =>
          ih (Document.references_subset_of_resolve? hpart) (Or.inr ⟨hmem, hless⟩)
      obtain ⟨begun, h⟩ := hshape (c.begin name) (congrArg (name :: ·) hc)
      rw [alone, nameWithin, if_neg hknown]
      exact ⟨(name, target) :: begun, .begun hknown h⟩

/-- Finding the shape of a schema. -/
theorem does_shapeOf (document schema : Json) :
    Does document [] (.schema (Schema.ofJson schema)) (alone (shapeOf document schema)) :=
  does_shapeWith (keeps_followWith (keeps_nameWithin _)) fun _ _ => does_followWith fun _ hpart =>
    does_nameWithin (Document.references_subset_of_resolve? hpart)
      (Or.inl (remaining_lt_levels document))

/-- Giving names to definitions. -/
theorem does_nameEach {entries : List (String × Json)} (h : entries ⊆ definitions document) :
    Does document [] (.each (entries.map fun entry => .name (identifier entry.1) entry.2)) fun c =>
      ((nameEach document entries c).1.map .reference, (nameEach document entries c).2) := by
  induction entries with
  | nil => exact fun c _ => ⟨[], .nil⟩
  | cons entry rest ih =>
    intro c hc
    have htarget := references_subset_of_mem_definitions (h List.mem_cons_self)
    have hname : Does document [] (.name (identifier entry.1) entry.2)
        (alone (nameWithin document (levels document) (identifier entry.1) entry.2)) :=
      does_nameWithin htarget (Or.inl (remaining_lt_levels document))
    obtain ⟨begun, hfirst⟩ := hname c hc
    have hkept : c.Keeps (nameWithin document (levels document) (identifier entry.1) entry.2 c).2 :=
      keeps_nameWithin _ _ _ c
    obtain ⟨begun', hrest⟩ :=
      ih (fun e he => h (List.mem_cons_of_mem _ he)) _ (hkept.inProgress.trans hc)
    rw [alone, nameWithin_fst] at hfirst
    exact ⟨begun ++ begun', .cons hfirst hrest⟩

/-- What a request is about. -/
def Request.tasks (document : Json) : Request → List Task
  | .shape schema => [.schema (Schema.ofJson schema)]
  | .definitions => (Catalog.definitions document).map fun entry =>
    .name (identifier entry.1) entry.2

/-- Answering requests one after the other. -/
theorem does_answers (document : Json) (requests : List Request) :
    Does document [] (.each (requests.flatMap (Request.tasks document)))
      fun c => ((answers document requests c).1.flatten, (answers document requests c).2) := by
  induction requests with
  | nil => exact fun c _ => ⟨[], .nil⟩
  | cons request rest ih =>
    intro c hc
    have hanswer : ∃ begun, Ends document (.each (request.tasks document)) c
        (answer document request c).1 (answer document request c).2 begun := by
      cases request with
      | shape schema =>
        obtain ⟨begun, h⟩ := does_shapeOf document schema c hc
        exact ⟨begun ++ [], .cons h .nil⟩
      | definitions => exact does_nameEach (List.Subset.refl _) c hc
    obtain ⟨begun, hfirst⟩ := hanswer
    obtain ⟨begun', hrest⟩ := ih _ ((keeps_answer request c).inProgress.trans hc)
    exact ⟨begun ++ begun', hfirst.append hrest⟩

/-- Whatever is asked of a catalog, and in whatever circles the references of the document
run, all comes to an end with what is answered. On the way every name that has a shape
afterwards is begun for one value, and so its target is walked over once. Nor is there an
end to the free names: what is chosen for a constant of an enumeration is not taken. -/
theorem answers_ends (document : Json) (requests : List Request) :
    (∃ begun : List (String × Json),
      (∀ shapes c begun',
        Ends document (.each (requests.flatMap (Request.tasks document))) empty shapes c begun' ↔
          shapes = (answers document requests empty).1.flatten ∧
            c = (answers document requests empty).2 ∧ begun' = begun) ∧
      (begun.map Prod.fst).Nodup ∧
      (begun.map Prod.fst).Perm (answers document requests empty).2.arena.names) ∧
    ∀ taken base, freeName taken base ∉ taken := by
  refine ⟨?_, fun taken base => (freeName_spec taken base).1⟩
  obtain ⟨begun, hends⟩ := does_answers document requests empty rfl
  have hnames : (answers document requests empty).2.arena.names.Perm (begun.map Prod.fst) :=
    hends.adds.names
  obtain ⟨hsound, -, -⟩ := answers_needs document (List.Subset.refl requests)
  refine ⟨begun, fun shapes c begun' => ⟨fun h => h.unique hends, ?_⟩,
    hnames.nodup_iff.1 hsound.namesDiffer, hnames.symm⟩
  rintro ⟨rfl, rfl, rfl⟩
  exact hends

end Names

end TypedClient.Catalog
