import TypedClient.Proofs.Document.Dereference

/-!
# Documents whose references were replaced

What is left of the references of a document are those to definitions. A walk over the
result meets no other, unless a text came to stand under `$ref` that stood elsewhere
before; and a reference that is left points at something in the result, unless it went
down below an object that was replaced. Where neither happens the result is as it is when
its references are replaced once more.
-/

namespace TypedClient

namespace Document

/-! ### Lists of steps -/

section Lists

variable {ε α β : Type} {f : α → Except ε β} {l : List α} {out : List β}

/-- An entry of a list that was made step by step is made of the entry at its place. -/
theorem getElem?_of_mapM_eq_ok (h : l.mapM f = .ok out) (i : Nat) :
    (l[i]? = none ∧ out[i]? = none) ∨ ∃ a b, l[i]? = some a ∧ out[i]? = some b ∧ f a = .ok b := by
  induction l generalizing out i with
  | nil =>
    cases h
    exact Or.inl ⟨rfl, rfl⟩
  | cons first rest ih =>
    rw [List.mapM_cons] at h
    obtain ⟨b, hb, h⟩ := ok_of_bind_eq_ok h
    obtain ⟨bs, hbs, h⟩ := ok_of_bind_eq_ok h
    cases h
    cases i with
    | zero => exact Or.inr ⟨first, b, rfl, rfl, hb⟩
    | succ i => exact ih hbs i

/-- What is in a list that was made step by step is made of something in the first. -/
theorem exists_of_mem_mapM (h : l.mapM f = .ok out) {b : β} (hb : b ∈ out) :
    ∃ a ∈ l, f a = .ok b := by
  obtain ⟨i, hi⟩ := List.getElem?_of_mem hb
  rcases getElem?_of_mapM_eq_ok h i with ⟨-, hnone⟩ | ⟨a, b', ha, hb', hf⟩
  · simp [hnone] at hi
  · cases hb'.symm.trans hi
    exact ⟨a, List.mem_of_getElem? ha, hf⟩

end Lists

/-- A member of an object that was gone through is made of the member of its key. -/
theorem find?_of_mapM_eq_ok {f : String → Json → Except Failure Json}
    {members out : List (String × Json)}
    (h : (members.mapM fun m => do return (m.1, ← inlined f m.2)) = .ok out) (key : String) :
    (Json.find? key members = none ∧ Json.find? key out = none) ∨
      ∃ v x, Json.find? key members = some v ∧ Json.find? key out = some x ∧
        inlined f v = .ok x := by
  induction members generalizing out with
  | nil =>
    cases h
    exact Or.inl ⟨rfl, rfl⟩
  | cons m rest ih =>
    rw [List.mapM_cons] at h
    obtain ⟨b, hb, h⟩ := ok_of_bind_eq_ok h
    obtain ⟨bs, hbs, h⟩ := ok_of_bind_eq_ok h
    obtain ⟨x, hx, hb⟩ := ok_of_bind_eq_ok hb
    cases h
    cases hb
    obtain ⟨name, v⟩ := m
    by_cases hname : name = key
    · exact Or.inr ⟨v, x, by simp [Json.find?, hname], by simp [Json.find?, hname], hx⟩
    · simpa [Json.find?, hname] using ih hbs

/-! ### Values that stay as they are -/

/-- A walk that leaves every reference that it meets in its place leaves the value. -/
theorem inlined_eq_self {f : String → Json → Except Failure Json} {value : Json}
    (h : ∀ r node, Meets r node value → f r node = .ok node) : inlined f value = .ok value := by
  induction value using Json.tree_induction with
  | array elements ih =>
    have hmap : elements.mapM (inlined f) = elements.mapM fun v => pure v :=
      mapM_congr fun v hv => ih v hv fun r node hm => h r node (.element hv hm)
    rw [inlined_array, hmap, List.mapM_pure, List.map_id']
    rfl
  | object members ih =>
    cases hr : reference? members with
    | some r => rw [inlined_of_reference? hr, h r _ (.here hr)]
    | none =>
      have hmap : (members.mapM fun m => do return (m.1, ← inlined f m.2)) =
          members.mapM fun m => pure m :=
        mapM_congr fun m hm => by
          rw [ih m hm fun r node hmeets => h r node (.member hr hm hmeets)]
          rfl
      rw [inlined_of_reference?_eq_none hr, hmap, List.mapM_pure, List.map_id']
      rfl
  | _ => rfl

/-- A document whose references are to definitions, and point at something, is as it is
when its references are replaced. -/
theorem dereference_eq_self {document : Json}
    (h : ∀ r node, Meets r node document →
      isDefinition r = true ∧ ∃ target, resolve? document r = some target) :
    dereference document = .ok document := by
  refine inlined_eq_self fun r node hm => ?_
  obtain ⟨hmark, target, htarget⟩ := h r node hm
  unfold followWithin
  simp [htarget, hmark]

/-! ### Places that a walk comes to -/

section ComesTo

variable {document value node : Json} {stack : List String} {r : String}

/-- A reference is met at the object that stands for it. -/
theorem Meets.exists_members (h : Meets r node value) :
    ∃ members, node = .object members ∧ reference? members = some r := by
  induction h with
  | here hr => exact ⟨_, rfl, hr⟩
  | element _ _ ih => exact ih
  | member _ _ _ ih => exact ih

/-- A walk comes to the object that it meets a reference at. -/
theorem ComesTo.meets (h : ComesTo document stack value) (hm : Meets r node value) :
    ComesTo document stack node := by
  induction hm with
  | here _ => exact h
  | element hv _ ih => exact ih (h.element hv)
  | member hnone hmem _ ih => exact ih (h.member hnone hmem)

/-- What is met where a walk comes to is reached. -/
theorem ComesTo.isReached (h : ComesTo document stack value) (hm : Meets r node value) :
    IsReached document r := by
  induction h generalizing r node with
  | root => exact .root hm
  | element _ hv ih => exact ih (.element hv hm)
  | member _ hnone hmem ih => exact ih (.member hnone hmem hm)
  | target _ hr htarget hmark _ ih => exact (ih (.here hr)).step ⟨hmark, _, _, htarget, hm⟩

/-- What is reached is a reference of the document. -/
theorem IsReached.mem_references (h : IsReached document r) : r ∈ references document := by
  induction h with
  | root hm => exact hm.mem_references
  | step _ hnext _ =>
    obtain ⟨-, target, node, htarget, hm⟩ := hnext
    exact references_subset_of_resolve? htarget hm.mem_references

/-- What is met where a walk comes to with nothing open is met in the document. -/
theorem ComesTo.meets_document (h : ComesTo document [] value) (hm : Meets r node value) :
    Meets r node document := by
  generalize hstack : ([] : List String) = stack at h
  induction h with
  | root => exact hm
  | element _ hv ih => exact ih (.element hv hm) hstack
  | member _ hnone hmem ih => exact ih (.member hnone hmem hm) hstack
  | target => cases hstack

end ComesTo

/-! ### Parts of a document -/

end Document

namespace Json

/-- Something holds for a value and for all that is in it. -/
def Everywhere (P : Json → Prop) (value : Json) : Prop :=
  ∀ part, Relation.ReflTransGen IsPartOf part value → P part

section Everywhere

variable {P : Json → Prop} {value part : Json}

/-- It holds for a value and everywhere in its parts. -/
theorem everywhere_iff :
    Everywhere P value ↔ P value ∧ ∀ part, IsPartOf part value → Everywhere P part := by
  refine ⟨fun h => ⟨h value .refl, fun part hp below hb => h below (hb.tail hp)⟩,
    fun ⟨hself, hparts⟩ below hb => ?_⟩
  rcases Relation.ReflTransGen.cases_tail hb with rfl | ⟨part, hbelow, hp⟩
  · exact hself
  · exact hparts part hp below hbelow

theorem everywhere_array {elements : List Json} :
    Everywhere P (.array elements) ↔ P (.array elements) ∧ ∀ v ∈ elements, Everywhere P v := by
  rw [everywhere_iff]
  refine and_congr_right fun _ => ⟨fun h v hv => h v (.element hv), fun h part hp => ?_⟩
  cases hp with
  | element hv => exact h part hv

theorem everywhere_object {members : List (String × Json)} :
    Everywhere P (.object members) ↔
      P (.object members) ∧ ∀ m ∈ members, Everywhere P m.2 := by
  rw [everywhere_iff]
  refine and_congr_right fun _ => ⟨fun h m hm => h m.2 (.member hm), fun h part hp => ?_⟩
  cases hp with
  | member hm => exact h _ hm

theorem everywhere_string {text : String} : Everywhere P (.string text) ↔ P (.string text) := by
  rw [everywhere_iff]
  exact and_iff_left fun part hp => nomatch hp

/-- It holds everywhere in what keys lead to. -/
theorem Everywhere.descend? {keys : List (List Char)} (h : Everywhere P value)
    (hpart : value.descend? keys = some part) : Everywhere P part := by
  induction keys generalizing value with
  | nil =>
    cases hpart
    exact h
  | cons key keys ih =>
    obtain ⟨child, hchild, hdescend⟩ := Option.bind_eq_some_iff.1 hpart
    refine ih ((everywhere_iff.1 h).2 child ?_) hdescend
    rcases mem_of_child?_eq_some hchild with ⟨members, rfl, m, hm, rfl⟩ | ⟨elements, rfl, hv⟩
    · exact .member hm
    · exact .element hv

end Everywhere

end Json

namespace Document

/-- What holds everywhere in a document holds everywhere in what a reference points at. -/
theorem everywhere_of_resolve? {P : Json → Prop} {document target : Json} {r : String}
    (h : Json.Everywhere P document) (htarget : resolve? document r = some target) :
    Json.Everywhere P target := by
  unfold resolve? at htarget
  split at htarget
  · unfold Json.pointer? at htarget
    split at htarget
    · cases htarget
      exact h
    · exact h.descend? htarget
    · cases htarget
  · cases htarget

/-- What holds everywhere in a document holds everywhere where a walk comes to. -/
theorem ComesTo.everywhere {P : Json → Prop} {document value : Json} {stack : List String}
    (h : ComesTo document stack value) (hP : Json.Everywhere P document) :
    Json.Everywhere P value := by
  induction h with
  | root => exact hP
  | element _ hv ih => exact (Json.everywhere_array.1 ih).2 _ hv
  | member _ _ hm ih => exact (Json.everywhere_object.1 ih).2 _ hm
  | target _ _ htarget _ _ _ => exact everywhere_of_resolve? hP htarget

/-! ### References that are left -/

/-- A value that is a text, or that a text takes the place of. -/
inductive StandsForText (document : Json) : Json → Prop where
  /-- It is a text. -/
  | text (s : String) : StandsForText document (.string s)
  /-- It stands for a reference that is replaced, by what stands for a text. -/
  | reference {members : List (String × Json)} {r : String} {target : Json}
    (hr : reference? members = some r) (hmark : isDefinition r = false)
    (htarget : resolve? document r = some target) (h : StandsForText document target) :
    StandsForText document (.object members)

/-- Where a walk comes to, no text takes the place of what is under `$ref`. -/
def KeepsMarks (document : Json) : Prop :=
  ∀ stack members v, ComesTo document stack (.object members) → reference? members = none →
    Json.find? "$ref" members = some v → ¬ StandsForText document v

/-- No text takes the place of what is under `$ref` where only texts are. -/
theorem keepsMarks_of_everywhere {document : Json}
    (h : Json.Everywhere (fun part => ∀ v, part.get? "$ref" = some v → ∃ s, v = .string s)
      document) : KeepsMarks document := by
  intro stack members v hcomes hnone hv
  obtain ⟨s, rfl⟩ := (Json.everywhere_object.1 (hcomes.everywhere h)).1 v hv
  simp [reference?, hv, Json.asString?] at hnone

section Left

variable {document value x : Json} {stack : List String} {r : String}
  {f : String → Json → Except Failure Json}

/-- Where a text is made of a value, the value stands for one, if what follows from its
references is right. -/
theorem standsForText_of_inlined {s : String} (h : inlined f value = .ok (.string s))
    (hf : ∀ members r, value = .object members → reference? members = some r →
      f r value = .ok (.string s) → isDefinition r = false ∧
        ∃ target, resolve? document r = some target ∧ StandsForText document target) :
    StandsForText document value := by
  cases value with
  | string text => exact .text text
  | array elements =>
    rw [inlined_array] at h
    obtain ⟨values, -, h⟩ := ok_of_bind_eq_ok h
    cases h
  | object members =>
    cases hr : reference? members with
    | some r =>
      rw [inlined_of_reference? hr] at h
      obtain ⟨hmark, target, htarget, htext⟩ := hf members r rfl hr h
      exact .reference hr hmark htarget htext
    | none =>
      rw [inlined_of_reference?_eq_none hr] at h
      obtain ⟨values, -, h⟩ := ok_of_bind_eq_ok h
      cases h
  | _ => cases h

/-- Where a text follows from a reference, what it points at stands for a text. -/
theorem Follows.standsForText {members : List (String × Json)} {s : String}
    (h : Follows document stack r (.object members) (.ok (.string s))) :
    isDefinition r = false ∧
      ∃ target, resolve? document r = some target ∧ StandsForText document target := by
  generalize hnode : Json.object members = node at h
  generalize ho : Except.ok (Json.string s) = o at h
  induction h generalizing members with
  | unresolved => cases ho
  | circular => cases ho
  | definition =>
    subst hnode
    cases ho
  | target follow htarget hmark _ hfollow houtcome ih =>
    refine ⟨hmark, _, htarget, standsForText_of_inlined (houtcome.trans ho.symm) ?_⟩
    rintro members next rfl hr hnext
    exact ih next _ (.here hr) rfl hnext.symm

/-- A text is made of nothing but what stands for a text. -/
theorem standsForText_of_follows {s : String}
    (hfollow : ∀ r node, Meets r node value → Follows document stack r node (f r node))
    (h : inlined f value = .ok (.string s)) : StandsForText document value := by
  refine standsForText_of_inlined h ?_
  rintro members r rfl hr htext
  exact (htext ▸ hfollow r _ (.here hr)).standsForText

/-- An object that stands for nothing is made one that stands for nothing. -/
theorem reference?_eq_none_of_mapM {members out : List (String × Json)}
    (hkeeps : KeepsMarks document) (hcomes : ComesTo document stack (.object members))
    (hfollow : ∀ r node, Meets r node (.object members) → Follows document stack r node (f r node))
    (hnone : reference? members = none)
    (h : (members.mapM fun m => do return (m.1, ← inlined f m.2)) = .ok out) :
    reference? out = none := by
  rcases find?_of_mapM_eq_ok h "$ref" with ⟨-, hout⟩ | ⟨v, x, hv, hx, hinlined⟩
  · simp [reference?, hout]
  · cases x with
    | string s =>
      have hmem : ("$ref", v) ∈ members := Json.mem_of_find?_eq_some hv
      have htext : StandsForText document v := standsForText_of_follows
        (fun r node hm => hfollow r node (.member hnone hmem hm)) hinlined
      exact absurd htext (hkeeps stack members v hcomes hnone hv)
    | _ => simp [reference?, hx, Json.asString?]

/-- What is met in what is made of a value is met in what follows from its references. -/
theorem exists_meets_of_meets_inlined (hkeeps : KeepsMarks document)
    (hcomes : ComesTo document stack value)
    (hfollow : ∀ r node, Meets r node value → Follows document stack r node (f r node))
    (h : inlined f value = .ok x) {left : String} {place : Json} (hleft : Meets left place x) :
    ∃ r node y, Meets r node value ∧ f r node = .ok y ∧ Meets left place y := by
  induction value using Json.tree_induction generalizing x with
  | array elements ih =>
    rw [inlined_array] at h
    obtain ⟨values, hvalues, h⟩ := ok_of_bind_eq_ok h
    cases h
    cases hleft with
    | element hv hleft =>
      obtain ⟨v, hmem, hinlined⟩ := exists_of_mem_mapM hvalues hv
      obtain ⟨r, node, y, hm, hy, hleft⟩ := ih v hmem (hcomes.element hmem)
        (fun r node hm => hfollow r node (.element hmem hm)) hinlined hleft
      exact ⟨r, node, y, .element hmem hm, hy, hleft⟩
  | object members ih =>
    cases hr : reference? members with
    | some r => exact ⟨r, _, x, .here hr, (inlined_of_reference? hr).symm.trans h, hleft⟩
    | none =>
      rw [inlined_of_reference?_eq_none hr] at h
      obtain ⟨values, hvalues, h⟩ := ok_of_bind_eq_ok h
      have hnone := reference?_eq_none_of_mapM hkeeps hcomes hfollow hr hvalues
      cases h
      cases hleft with
      | here hsome => simp [hnone] at hsome
      | member _ hm hleft =>
        obtain ⟨m, hmem, hmade⟩ := exists_of_mem_mapM hvalues hm
        obtain ⟨made, hinlined, hmade⟩ := ok_of_bind_eq_ok hmade
        cases hmade
        obtain ⟨r, node, y, hmeets, hy, hleft⟩ := ih m hmem (hcomes.member hr hmem)
          (fun r node hm => hfollow r node (.member hr hmem hm)) hinlined hleft
        exact ⟨r, node, y, .member hr hmem hmeets, hy, hleft⟩
  | null | bool _ | number _ | string _ =>
    cases h
    cases hleft

/-- What is met in what follows from a reference is a reference to a definition that the
walk reaches. -/
theorem Follows.left {members : List (String × Json)} (hkeeps : KeepsMarks document)
    (h : Follows document stack r (.object members) (.ok x))
    (hcomes : ComesTo document stack (.object members)) (hr : reference? members = some r)
    {left : String} {place : Json} (hleft : Meets left place x) :
    IsReached document left ∧ isDefinition left = true := by
  generalize hnode : Json.object members = node at h
  generalize ho : Except.ok x = o at h
  induction h generalizing members x left place with
  | unresolved => cases ho
  | circular => cases ho
  | definition htarget hmark =>
    subst hnode
    cases ho
    cases hleft with
    | here hleft =>
      cases hr.symm.trans hleft
      exact ⟨hcomes.isReached (.here hr), hmark⟩
    | member hnone => simp [hr] at hnone
  | target follow htarget hmark hopen hfollow houtcome ih =>
    have hbelow := hcomes.target hr htarget hmark hopen
    obtain ⟨next, node', y, hm, hy, hleft⟩ := exists_meets_of_meets_inlined hkeeps hbelow hfollow
      (houtcome.trans ho.symm) hleft
    obtain ⟨members', rfl, hr'⟩ := hm.exists_members
    exact ih next _ hm (hbelow.meets hm) hr' hleft rfl hy.symm

/-- What is met in the result of a walk is a reference to a definition that the walk
reaches. -/
theorem Yields.left (hkeeps : KeepsMarks document) (h : Yields document stack value (.ok x))
    (hcomes : ComesTo document stack value) {left : String} {place : Json}
    (hleft : Meets left place x) : IsReached document left ∧ isDefinition left = true := by
  obtain ⟨follow, hfollow, hx⟩ := h
  obtain ⟨r, node, y, hm, hy, hleft⟩ :=
    exists_meets_of_meets_inlined hkeeps hcomes hfollow hx hleft
  obtain ⟨members, rfl, hr⟩ := hm.exists_members
  exact (hy ▸ hfollow r _ hm).left hkeeps (hcomes.meets hm) hr hleft

end Left

/-! ### What the references that are left point at -/

/-- The keys that a reference goes down by. -/
def path (r : String) : List (List Char) :=
  match r.toList with
  | '#' :: '/' :: rest => (Text.splitAt '/' rest).map Json.unescapeKey
  | _ => []

/-- A reference to a definition points at what its keys lead to. -/
theorem resolve?_eq_descend? {r : String} (h : isDefinition r = true) (document : Json) :
    resolve? document r = document.descend? (path r) := by
  obtain ⟨rest, hrest⟩ := List.isPrefixOf_iff_prefix.1 h
  have hmark : definitionMark = '#' :: '/' :: "definitions/".toList := by decide
  have htext : r.toList = '#' :: '/' :: ("definitions/".toList ++ rest) := by
    rw [← hrest, hmark]
    rfl
  simp only [resolve?, path, htext, Json.pointer?]

/-- The reference that a value stands for, if it does. -/
def standsFor? : Json → Option String
  | .object members => reference? members
  | _ => none

/-- Whether keys go down below an object that stands for a reference of some kind, when
nothing above it stands for a reference. -/
def goesBelow (kind : String → Bool) (value : Json) : List (List Char) → Bool
  | [] => false
  | key :: keys =>
    match standsFor? value with
    | some r => kind r
    | none =>
      match value.child? key with
      | some child => goesBelow kind child keys
      | none => false

section Paths

variable {document value part x : Json} {stack : List String} {kind : String → Bool}
  {keys : List (List Char)} {f : String → Json → Except Failure Json}

/-- What is made of a value that stands for nothing has what is made of the value's children. -/
theorem exists_child?_inlined (hnone : standsFor? value = none) (h : inlined f value = .ok x)
    {key : List Char} {child : Json} (hchild : value.child? key = some child) :
    ∃ made, x.child? key = some made ∧ inlined f child = .ok made := by
  cases value with
  | array elements =>
    rw [inlined_array] at h
    obtain ⟨values, hvalues, h⟩ := ok_of_bind_eq_ok h
    cases h
    obtain ⟨i, hi, hget⟩ := Option.bind_eq_some_iff.1 hchild
    rcases getElem?_of_mapM_eq_ok hvalues i with ⟨hnothing, -⟩ | ⟨v, made, hv, hmade, hinlined⟩
    · simp [hget] at hnothing
    · cases hget.symm.trans hv
      exact ⟨made, Option.bind_eq_some_iff.2 ⟨i, hi, hmade⟩, hinlined⟩
  | object members =>
    have hr : reference? members = none := hnone
    rw [inlined_of_reference?_eq_none hr] at h
    obtain ⟨values, hvalues, h⟩ := ok_of_bind_eq_ok h
    cases h
    have hfound : Json.find? (String.ofList key) members = some child := hchild
    rcases find?_of_mapM_eq_ok hvalues (String.ofList key) with
      ⟨hnothing, -⟩ | ⟨v, made, hv, hmade, hinlined⟩
    · cases hnothing.symm.trans hfound
    · cases hfound.symm.trans hv
      exact ⟨made, hmade, hinlined⟩
  | _ => cases hchild

/-- A walk makes of a value that stands for nothing one that stands for nothing, and that has
what is made of the first one's children. -/
theorem child?_inlined (hkeeps : KeepsMarks document) (hcomes : ComesTo document stack value)
    (hfollow : ∀ r node, Meets r node value → Follows document stack r node (f r node))
    (hnone : standsFor? value = none) (h : inlined f value = .ok x) {key : List Char} {child : Json}
    (hchild : value.child? key = some child) :
    standsFor? x = none ∧ ComesTo document stack child ∧
      (∀ r node, Meets r node child → Meets r node value) ∧
        ∃ made, x.child? key = some made ∧ inlined f child = .ok made := by
  have hmade := exists_child?_inlined hnone h hchild
  cases value with
  | array elements =>
    rw [inlined_array] at h
    obtain ⟨values, hvalues, h⟩ := ok_of_bind_eq_ok h
    cases h
    obtain ⟨i, hi, hget⟩ := Option.bind_eq_some_iff.1 hchild
    have hmem : child ∈ elements := List.mem_of_getElem? hget
    exact ⟨rfl, hcomes.element hmem, fun r node hm => .element hmem hm, hmade⟩
  | object members =>
    have hr : reference? members = none := hnone
    rw [inlined_of_reference?_eq_none hr] at h
    obtain ⟨values, hvalues, h⟩ := ok_of_bind_eq_ok h
    have hout := reference?_eq_none_of_mapM hkeeps hcomes hfollow hr hvalues
    cases h
    have hmem : (String.ofList key, child) ∈ members := Json.mem_of_find?_eq_some hchild
    exact ⟨hout, hcomes.member hr hmem, fun r node hm => .member hr hmem hm, hmade⟩
  | _ => cases hchild

/-- What is made of a value has, where keys lead to below no reference, what is made of what
they lead to. -/
theorem exists_descend?_inlined (h : inlined f value = .ok x)
    (hbelow : goesBelow (fun _ => true) value keys = false)
    (hpart : value.descend? keys = some part) :
    ∃ made, x.descend? keys = some made ∧ inlined f part = .ok made := by
  induction keys generalizing value x with
  | nil =>
    cases hpart
    exact ⟨x, rfl, h⟩
  | cons key keys ih =>
    obtain ⟨child, hchild, hdescend⟩ := Option.bind_eq_some_iff.1 hpart
    cases hstands : standsFor? value with
    | some r => simp [goesBelow, hstands] at hbelow
    | none =>
      have hbelow' : goesBelow (fun _ => true) child keys = false := by
        simpa [goesBelow, hstands, hchild] using hbelow
      obtain ⟨made, hmade, hinlined⟩ := exists_child?_inlined hstands h hchild
      obtain ⟨made', hmade', hinlined'⟩ := ih hinlined hbelow' hdescend
      exact ⟨made', Option.bind_eq_some_iff.2 ⟨made, hmade, hmade'⟩, hinlined'⟩

/-- Keys that lead to something in a value, and below no object that is replaced, lead to
something in what is made of the value, and there too below none. -/
theorem descend?_inlined (hkeeps : KeepsMarks document)
    (hkind : ∀ r, kind r = false → isDefinition r = true) (hcomes : ComesTo document stack value)
    (hfollow : ∀ r node, Meets r node value → Follows document stack r node (f r node))
    (h : inlined f value = .ok x) (hbelow : goesBelow kind value keys = false)
    (hpart : value.descend? keys = some part) :
    goesBelow kind x keys = false ∧ ∃ part', x.descend? keys = some part' := by
  induction keys generalizing value x with
  | nil => exact ⟨rfl, x, rfl⟩
  | cons key keys ih =>
    obtain ⟨child, hchild, hdescend⟩ := Option.bind_eq_some_iff.1 hpart
    cases hstands : standsFor? value with
    | some r =>
      -- the object stands for a definition, and stays as it is
      cases value with
      | object members =>
        have hr : reference? members = some r := hstands
        have hmark : isDefinition r = true := hkind r (by simpa [goesBelow, hstands] using hbelow)
        rw [inlined_of_reference? hr] at h
        have hsame : x = .object members := by
          cases h ▸ hfollow r _ (.here hr) with
          | definition => rfl
          | target _ _ hmark' => simp [hmark] at hmark'
        rw [hsame]
        exact ⟨hbelow, part, hpart⟩
      | _ => cases hstands
    | none =>
      obtain ⟨hnone, hcomes', hmeets, made, hmade, hinlined⟩ :=
        child?_inlined hkeeps hcomes hfollow hstands h hchild
      have hbelow' : goesBelow kind child keys = false := by
        simpa [goesBelow, hstands, hchild] using hbelow
      obtain ⟨hbelow', part', hpart'⟩ := ih hcomes'
        (fun r node hm => hfollow r node (hmeets r node hm)) hinlined hbelow' hdescend
      exact ⟨by simpa [goesBelow, hnone, hmade] using hbelow',
        part', Option.bind_eq_some_iff.2 ⟨made, hmade, hpart'⟩⟩

/-- A walk comes to what keys lead to that go down below no reference. -/
theorem ComesTo.descend? (h : ComesTo document stack value)
    (hbelow : goesBelow (fun _ => true) value keys = false)
    (hpart : value.descend? keys = some part) : ComesTo document stack part := by
  induction keys generalizing value with
  | nil =>
    cases hpart
    exact h
  | cons key keys ih =>
    obtain ⟨child, hchild, hdescend⟩ := Option.bind_eq_some_iff.1 hpart
    cases hstands : standsFor? value with
    | some r => simp [goesBelow, hstands] at hbelow
    | none =>
      have hbelow' : goesBelow (fun _ => true) child keys = false := by
        simpa [goesBelow, hstands, hchild] using hbelow
      refine ih ?_ hbelow' hdescend
      cases value with
      | array elements =>
        obtain ⟨i, -, hget⟩ := Option.bind_eq_some_iff.1 hchild
        exact h.element (List.mem_of_getElem? hget)
      | object members => exact h.member hstands (Json.mem_of_find?_eq_some hchild)
      | _ => cases hchild

end Paths

/-! ### The result -/

/-- No reference that is left goes down below an object that stands for a reference of some
kind. -/
def KeepsPaths (document : Json) (kind : String → Bool) : Prop :=
  ∀ r, IsReached document r → isDefinition r = true → goesBelow kind document (path r) = false

/-- A reference that is left points at something in the result, and goes down below no
object there that it did not go down below before. -/
theorem resolve?_dereference {document out : Json} (h : dereference document = .ok out)
    (hmarks : KeepsMarks document) {kind : String → Bool}
    (hkind : ∀ r, kind r = false → isDefinition r = true) (hpaths : KeepsPaths document kind)
    {r : String} {node : Json} (hm : Meets r node out) :
    isDefinition r = true ∧ goesBelow kind out (path r) = false ∧
      ∃ target, resolve? out r = some target := by
  have hyields : Yields document [] document (.ok out) := h ▸ yields_dereference document
  obtain ⟨hreached, hmark⟩ := hyields.left hmarks .root hm
  obtain ⟨_, _, _, hfollows⟩ := hreached.exists_ok hyields
  obtain ⟨target, htarget⟩ := hfollows.exists_target
  rw [resolve?_eq_descend? hmark] at htarget ⊢
  obtain ⟨follow, hfollow, hinlined⟩ := hyields
  exact ⟨hmark, descend?_inlined hmarks hkind .root hfollow hinlined
    (hpaths r hreached hmark) htarget⟩

end Document

end TypedClient
