import TypedClient.Proofs.Schema.History

/-!
# What a name stands for

Names lose characters, so different keys may have one name. A name is given once: it gets
the shape of the first target that it is asked for, and keeps it. So what a reference in
an answer names is a shape of a target that was asked for under that name, and it is the
shape of a given target when no other one was asked for under it.
-/

namespace TypedClient.Catalog

/-! ### A name keeps its first shape -/

/-- A step of a walk keeps the names that have shapes, and leaves those in progress to the
step that began them. -/
structure Keeps (c c' : Catalog) : Prop where
  /-- A name with a shape keeps it. -/
  found : c.arena.IsWithin c'.arena
  /-- A name in progress gets no shape. -/
  awaited : ∀ name ∈ c.inProgress, c.arena.find? name = none → c'.arena.find? name = none
  /-- The same is in progress. -/
  inProgress : c'.inProgress = c.inProgress

section Keeps

variable {document : Json} {c c' c'' : Catalog} {follow : String → Catalog → Shape × Catalog}
  {name : String} {target : Json} {s : Shape}

/-- A step that gives no names keeps them. -/
theorem Keeps.of_eq (harena : c'.arena = c.arena) (hopen : c'.inProgress = c.inProgress) :
    c.Keeps c' :=
  ⟨fun _ _ h => harena ▸ h, fun _ _ h => harena ▸ h, hopen⟩

theorem Keeps.refl (c : Catalog) : c.Keeps c := .of_eq rfl rfl

theorem Keeps.trans (h : c.Keeps c') (h' : c'.Keeps c'') : c.Keeps c'' :=
  ⟨h.found.trans h'.found, fun name hn hs =>
    h'.awaited name (h.inProgress ▸ hn) (h.awaited name hn hs), h'.inProgress.trans h.inProgress⟩

/-- Listed values get no names in the arena. -/
theorem keeps_enumerate (values : List Json) (c : Catalog) :
    c.Keeps (c.enumerate (definitions document) values).2 := by
  unfold enumerate
  cases correlatedKey? values (definitions document) with
  | none => cases values.any Json.isComposite <;> exact .of_eq rfl rfl
  | some key =>
    cases hfind : c.enums.find? (·.name = identifier key) with
    | some known => simpa [hfind] using Keeps.refl c
    | none =>
      cases he : enumerationOf? (identifier key) values <;>
        · simp only [hfind, he]
          exact .of_eq rfl rfl

/-- The walk over a list of schemas keeps names when the walk over each does. -/
theorem keeps_shapesWith {schemas : List Schema}
    (h : ∀ schema ∈ schemas, ∀ c : Catalog,
      c.Keeps (shapeWith (definitions document) follow schema c).2)
    (c : Catalog) : c.Keeps (shapesWith (definitions document) follow schemas c).2 := by
  induction schemas generalizing c with
  | nil => exact .refl c
  | cons schema rest ih =>
    have hfirst := h schema List.mem_cons_self c
    have hrest := ih (fun s hs => h s (List.mem_cons_of_mem _ hs))
      (shapeWith (definitions document) follow schema c).2
    exact hfirst.trans hrest

/-- The walk over a schema keeps names when following references does. -/
theorem keeps_shapeWith (hfollow : ∀ r (c : Catalog), c.Keeps (follow r c).2)
    (schema : Schema) (c : Catalog) :
    c.Keeps (shapeWith (definitions document) follow schema c).2 := by
  induction schema using Schema.tree_induction generalizing c with
  | anything => exact .refl c
  | scalar => exact .refl c
  | reference r => exact hfollow r c
  | allOf parts ih => exact keeps_shapesWith ih c
  | oneOf overlapping branches ih =>
    have hwarned : c.Keeps (if overlapping then c.warn .overlappingBranches else c) := by
      split
      · exact .of_eq rfl rfl
      · exact .refl c
    exact hwarned.trans (keeps_shapesWith ih _)
  | dictionary extra base ihextra ihbase => exact (ihextra c).trans (ihbase _)
  | enumeration values base ih =>
    have hlisted : c.Keeps (c.enumerate (definitions document) values).2 :=
      keeps_enumerate values c
    rw [shapeWith]
    generalize c.enumerate (definitions document) values = result at hlisted
    obtain ⟨_ | s, middle⟩ := result
    · exact hlisted.trans (ih middle)
    · exact hlisted
  | kinds nullable kinds ih => exact keeps_shapesWith ih c
  | array element ih => exact ih c
  | tuple positions ih => exact keeps_shapesWith ih c
  | object properties ih =>
    rw [shapeWith, fieldsWith_eq]
    refine keeps_shapesWith (fun schema hs => ?_) c
    obtain ⟨f, hf, rfl⟩ := List.mem_map.1 hs
    exact ih f hf
  | malformedObject => exact .of_eq rfl rfl

/-- Following a reference keeps names when giving one does. -/
theorem keeps_followWith {give : String → Json → Catalog → Shape × Catalog}
    (h : ∀ name target (c : Catalog), c.Keeps (give name target c).2) (r : String) (c : Catalog) :
    c.Keeps (followWith document give r c).2 := by
  unfold followWith
  split
  · exact h _ _ c
  · exact .of_eq rfl rfl

/-- A name that is not known has no shape and is not in progress. -/
theorem find?_eq_none_of_not_knows (h : ¬ c.knows name = true) :
    c.arena.find? name = none ∧ name ∉ c.inProgress := by
  simpa [knows, Arena.contains] using h

/-- Between its beginning and its end a new name gets no shape from another step. -/
theorem find?_eq_none_of_keeps_begin (hnew : ¬ c.knows name = true)
    (h : (c.begin name).Keeps c') : c'.arena.find? name = none :=
  h.awaited name List.mem_cons_self (find?_eq_none_of_not_knows hnew).1

/-- What lies between the beginning and the end of a new name keeps names, and so does
the whole. -/
theorem keeps_finish (hnew : ¬ c.knows name = true) (h : (c.begin name).Keeps c') :
    c.Keeps (c'.finish name s) := by
  obtain ⟨hnone, hclosed⟩ := find?_eq_none_of_not_knows hnew
  refine ⟨h.found.trans (Arena.isWithin_define _ name s), fun other hopen hs => ?_, ?_⟩
  · have hne : other ≠ name := fun he => hclosed (he ▸ hopen)
    change (c'.arena.define name s).1.find? other = none
    rw [Arena.find?_define_of_ne hne]
    exact h.awaited other (List.mem_cons_of_mem _ hopen) hs
  · have hbefore : c'.inProgress = name :: c.inProgress := h.inProgress
    change c'.inProgress.filter (· ≠ name) = c.inProgress
    rw [hbefore]
    exact filter_ne_cons hclosed

/-- Giving a name keeps the names that are given. -/
theorem keeps_nameWithin (level : Nat) (name : String) (target : Json) (c : Catalog) :
    c.Keeps (nameWithin document level name target c).2 := by
  induction level generalizing name target c with
  | zero => exact .refl c
  | succ level ih =>
    by_cases hknown : c.knows name = true
    · rw [nameWithin_of_knows hknown]
      exact .refl c
    · rw [nameWithin, if_neg hknown]
      exact keeps_finish hknown (keeps_shapeWith (keeps_followWith ih) _ _)

/-- A new name gets the shape of the target that it is given for. -/
theorem find?_nameWithin (level : Nat) (hnew : ¬ c.knows name = true) :
    (nameWithin document (level + 1) name target c).2.arena.find? name =
      some (shapeWith (definitions document) (followWith document (nameWithin document level))
        (Schema.ofJson target) (c.begin name)).1 := by
  rw [nameWithin, if_neg hnew]
  refine Arena.find?_define_self (find?_eq_none_of_keeps_begin hnew ?_)
  exact keeps_shapeWith (keeps_followWith (keeps_nameWithin level)) _ _

/-- Giving names to definitions keeps the names that are given. -/
theorem keeps_nameEach (entries : List (String × Json)) (c : Catalog) :
    c.Keeps (nameEach document entries c).2 := by
  induction entries generalizing c with
  | nil => exact .refl c
  | cons entry rest ih =>
    obtain ⟨key, target⟩ := entry
    exact (keeps_nameWithin (levels document) (identifier key) target c).trans (ih _)

/-- A request keeps the names that are given. -/
theorem keeps_answer (request : Request) (c : Catalog) :
    c.Keeps (answer document request c).2 := by
  cases request with
  | shape schema => exact keeps_shapeWith (keeps_followWith (keeps_nameWithin _)) _ c
  | definitions => exact keeps_nameEach _ c

/-- Requests keep the names that are given. -/
theorem keeps_answers (requests : List Request) (c : Catalog) :
    c.Keeps (answers document requests c).2 := by
  induction requests generalizing c with
  | nil => exact .refl c
  | cons request rest ih => exact (keeps_answer request c).trans (ih _)

/-- More requests go on where the first ones ended. -/
theorem answers_append (requests more : List Request) (c : Catalog) :
    (answers document (requests ++ more) c).2 =
      (answers document more (answers document requests c).2).2 := by
  induction requests generalizing c with
  | nil => rfl
  | cons request rest ih => exact ih _

end Keeps

/-! ### One shape for a schema -/

section Unique

variable {document : Json} {names : String → Json → Prop} {c : Catalog} {schema : Schema}
  {s s' : Shape} {allowed : String → Prop}

/-- Lists that render schemas are one list when each schema is rendered by one shape. -/
theorem eq_of_forall₂_renders {schemas : List Schema} {shapes shapes' : List Shape}
    (h : List.Forall₂ (Renders document c) schemas shapes)
    (h' : List.Forall₂ (Renders document c) schemas shapes')
    (hunique : ∀ schema ∈ schemas, ∀ s s', Renders document c schema s →
      Renders document c schema s' → s = s') : shapes = shapes' := by
  induction h generalizing shapes' with
  | nil => cases h'; rfl
  | cons hfirst _ ih =>
    cases h' with
    | cons hfirst' hrest' =>
      have hhead := hunique _ List.mem_cons_self _ _ hfirst hfirst'
      have htail := ih hrest' fun schema hs => hunique schema (List.mem_cons_of_mem _ hs)
      rw [hhead, htail]

/-- What a shape says that is no reference does not depend on the arena. -/
theorem isTrivial_eq_of_ne_reference (arena arena' : Arena) (h : ∀ name, s ≠ .reference name) :
    s.isTrivial arena = s.isTrivial arena' := by
  cases s with
  | reference name => exact absurd rfl (h name)
  | _ => simp only [Shape.isTrivial]

/-- A catalog has one shape for what was read, when definitions of one name are one. -/
theorem Renders.unique (hapart : DefinitionsApart document) (hc : IsSound document names c)
    (hread : schema.IsReadWith allowed) (h : Renders document c schema s)
    (h' : Renders document c schema s') : s = s' := by
  induction hread generalizing s s' with
  | anything => cases h; cases h'; rfl
  | scalar l => cases h; cases h'; rfl
  | reference =>
    cases h with
    | reference htarget =>
      cases h' with
      | reference => rfl
      | dangling hnone => simp [htarget] at hnone
    | dangling hnone =>
      cases h' with
      | reference htarget => simp [hnone] at htarget
      | dangling => rfl
  | allOf _ ih =>
    cases h with
    | allOf h =>
      cases h' with
      | allOf h' => rw [eq_of_forall₂_renders h h' fun p hp _ _ => ih p hp]
  | oneOf _ ih =>
    cases h with
    | oneOf h =>
      cases h' with
      | oneOf h' => rw [eq_of_forall₂_renders h h' fun b hb _ _ => ih b hb]
  | dictionary _ hbase hown ihextra ihbase =>
    cases h with
    | dictionary arena hextra hknown =>
      cases h' with
      | dictionary arena' hextra' hknown' =>
        have hbare := isTrivial_eq_of_ne_reference arena arena' (hknown.ne_reference hbase hown)
        rw [← ihextra hextra hextra', ← ihbase hknown hknown', withDictionary, withDictionary,
          hbare]
  | enumeration values _ ih =>
    cases h with
    | named hkey he hname =>
      cases h' with
      | named hkey' he' hname' =>
        cases hkey.symm.trans hkey'
        have hfound := find?_name_of_mem hc.enumsDiffer he
        rw [hname, ← hname', find?_name_of_mem hc.enumsDiffer he'] at hfound
        rw [Option.some.inj hfound]
      | constants hkey' => simp [hkey] at hkey'
      | base hlist => simp [(hc.correlated _ he).canList hapart hkey hname] at hlist
    | constants hkey hlist =>
      cases h' with
      | named hkey' => simp [hkey] at hkey'
      | constants => rfl
      | base hlist' => simp [hlist] at hlist'
    | base hlist h =>
      cases h' with
      | named hkey' he' hname' => simp [(hc.correlated _ he').canList hapart hkey' hname'] at hlist
      | constants _ hlist' => simp [hlist] at hlist'
      | base _ h' => exact ih h h'
  | kinds _ ih =>
    cases h with
    | kinds h =>
      cases h' with
      | kinds h' => rw [eq_of_forall₂_renders h h' fun k hk _ _ => ih k hk]
  | array _ ih =>
    cases h with
    | array h =>
      cases h' with
      | array h' => rw [ih h h']
  | tuple _ ih =>
    cases h with
    | tuple h =>
      cases h' with
      | tuple h' => rw [eq_of_forall₂_renders h h' fun p hp _ _ => ih p hp]
  | object _ _ ih =>
    cases h with
    | object h =>
      cases h' with
      | object h' =>
        rw [eq_of_forall₂_renders h h' fun schema hs _ _ => by
          obtain ⟨f, hf, rfl⟩ := List.mem_map.1 hs
          exact ih f hf]
  | malformedObject => cases h; cases h'; rfl

end Unique

/-! ### What a reference names -/

/-- A shape is that of a target: it renders the target, and where definitions of one name
are one it is also what the catalog answers when it is asked for the target. -/
structure IsShapeOf (document : Json) (c : Catalog) (target : Json) (s : Shape) : Prop where
  /-- It is put together from shapes of the parts. -/
  renders : Renders document c (Schema.ofJson target) s
  /-- Asking for the target results in it. -/
  answered : DefinitionsApart document → (shapeOf document target c).1 = s

section Targets

variable {document : Json} {requests : List Request} {c : Catalog} {name : String} {target : Json}
  {s : Shape}

/-- What renders a target is its shape, in a catalog with nothing in progress that is
filled with what the target refers to. -/
theorem Renders.isShapeOf (hsound : IsSound document (Needs document requests) c)
    (hstack : c.inProgress = []) (hneeds : Needs document requests name target)
    (h : Renders document c (Schema.ofJson target) s) : IsShapeOf document c target s := by
  refine ⟨h, fun hapart => ?_⟩
  have hadmits : Admits document (Needs document requests) (canList document) (.shape target) :=
    fun _ _ hr hpart => .further hneeds hr hpart
  obtain ⟨hadvances, hrenders⟩ :=
    ensures_shapeOf (isScope_needs document requests) hadmits c hsound hstack
  exact hrenders.unique hapart hadvances.sound (Schema.isReadWith_ofJson target)
    (h.mono hadvances.grows)

/-- After any requests a reference in an answer or in a named shape names the shape of a
target that was asked for under that name, and of a given target when no other one was. A
name gets the shape of the first target that it is asked for, and keeps it. -/
theorem answers_targets (document : Json) (requests : List Request) :
    (∀ name s, ((∃ shapes ∈ (answers document requests empty).1, s ∈ shapes) ∨
          ∃ other, (other, s) ∈ (answers document requests empty).2.arena.entries) →
        Shape.Occurs (.reference name) s →
      ∃ named, (answers document requests empty).2.arena.find? name = some named ∧
        (∃ target, Needs document requests name target ∧
          IsShapeOf document (answers document requests empty).2 target named) ∧
        ∀ target, (∀ target', Needs document requests name target' → target' = target) →
          IsShapeOf document (answers document requests empty).2 target named) ∧
    (∀ level name target (c : Catalog), ¬ c.knows name = true →
      (nameWithin document (level + 1) name target c).2.arena.find? name =
        some (shapeWith (definitions document) (followWith document (nameWithin document level))
          (Schema.ofJson target) (c.begin name)).1) ∧
    ∀ earlier later, requests = earlier ++ later → ∀ name named,
      (answers document earlier empty).2.arena.find? name = some named →
        (answers document requests empty).2.arena.find? name = some named := by
  refine ⟨fun name s hs ho => ?_, fun level name target c hnew => find?_nameWithin level hnew,
    fun earlier later hrequests name named hnamed => ?_⟩
  · obtain ⟨-, -, haccounted⟩ := answers_accounted document requests
    have hdefined := (haccounted s hs).1 name ho
    obtain ⟨hsound, hstack, -⟩ := answers_needs document (List.Subset.refl requests)
    obtain ⟨named, hfind⟩ := Option.isSome_iff_exists.1 hdefined
    obtain ⟨target, hneeds, hrenders⟩ :=
      hsound.entries (name, named) (Arena.mem_of_lookup_eq_some hfind)
    have hshape := hrenders.isShapeOf hsound hstack hneeds
    refine ⟨named, hfind, ⟨target, hneeds, hshape⟩, fun other hother => ?_⟩
    exact hother target hneeds ▸ hshape
  · rw [hrequests, answers_append]
    exact (keeps_answers later _).found name named hnamed

/-- A node with a `type` and nothing else is of that kind. -/
theorem ofJson_type (kind : String) :
    Schema.ofJson (.object [("type", .string kind)]) =
      Schema.ofKind kind [("type", .string kind)] := by
  simp [Schema.ofJson, Schema.ofBranches, Schema.ofPlain, Schema.ofTyped, Schema.listed?,
    Json.find?]

/-- A key with a dash and the same key with an underscore make one name. It has the shape
of the definition that comes first, and that is not a shape of the other one. -/
theorem answers_confuse_keys :
    let text : Json := .object [("type", .string "string")]
    let number : Json := .object [("type", .string "number")]
    let document : Json := .object [("definitions", .object [("a-b", text), ("a_b", number)])]
    let result := answers document [.definitions] empty
    result.1 = [[.reference "a_b", .reference "a_b"]] ∧
      result.2.arena.entries = [("a_b", .string)] ∧
      Needs document [.definitions] "a_b" number ∧
      ¬ Renders document result.2 (Schema.ofJson number) .string := by
  intro text number document
  have hdefinitions : definitions document = [("a-b", text), ("a_b", number)] := rfl
  have hlevels : levels document = 1 := rfl
  have hdash : identifier "a-b" = "a_b" := rfl
  have hunderscore : identifier "a_b" = "a_b" := rfl
  have htext : Schema.ofJson text = .scalar .string := by
    rw [ofJson_type, Schema.ofKind]
  have hnumber : Schema.ofJson number = .scalar .number := by
    rw [ofJson_type, Schema.ofKind]
  clear_value document text number
  intro result
  have hresult : result = ([[.reference "a_b", .reference "a_b"]],
      { empty with arena := ⟨[("a_b", .string)]⟩ }) := by
    simp [result, answers, answer, nameDefinitions, nameEach, hdefinitions, hlevels, hdash,
      hunderscore, nameWithin, htext, shapeWith, knows, empty, begin, finish, Arena.contains,
      Arena.find?, Arena.empty, Arena.lookup, Arena.define]
  have hentry : ("a_b", number) ∈ definitions document := by simp [hdefinitions]
  have hneeds := @Needs.definition document [.definitions] _ List.mem_cons_self hentry
  rw [hunderscore] at hneeds
  clear_value result
  subst hresult
  refine ⟨rfl, rfl, hneeds, fun h => ?_⟩
  rw [hnumber] at h
  cases h

end Targets

end TypedClient.Catalog
