import TypedClient.Proofs.TypeScript.Spelling

/-!
# Printed types are read back

What is read from the text of a type is the type itself up to what the text does not tell:
comments, how alternatives are grouped among alternatives and factors among factors, and
whether an index signature is optional. The normal form of a type leaves all this out, from
the innermost types outwards.
-/

namespace TypedClient.TypeScript

namespace TypeNode

/-- The members of a union that has any, and otherwise the type alone. -/
def alternatives : TypeNode → List TypeNode
  | .union (m :: ms) => m :: ms
  | t => [t]

/-- The members of an intersection that has any, and otherwise the type alone. -/
def factors : TypeNode → List TypeNode
  | .intersection (m :: ms) => m :: ms
  | t => [t]

/-- The union of types, those that are unions spliced. -/
def unite (ts : List TypeNode) : TypeNode := ofAlternatives (ts.flatMap alternatives)

/-- The intersection of types, those that are intersections spliced. -/
def intersect (ts : List TypeNode) : TypeNode := ofFactors (ts.flatMap factors)

mutual

/-- The normal form of a type. A union without members stands for the keyword `never`, and
an intersection without members becomes the keyword `any`. -/
def normal : TypeNode → TypeNode
  | .keyword k => .keyword k
  | .literal value => .literal value
  | .array element => .array element.normal
  | .object members => .object (normalMembers members)
  | .union members => unite (normalAll members)
  | .intersection members => intersect (normalAll members)
  | .tuple members => .tuple (normalAll members)
  | .reference name arguments => .reference name (normalAll arguments)

/-- The normal forms of types. -/
def normalAll : List TypeNode → List TypeNode
  | [] => []
  | t :: rest => t.normal :: normalAll rest

/-- The normal forms of members: the types in normal form, no documentation, and no optional
index signature. -/
def normalMembers : List (Field TypeNode) → List (Field TypeNode)
  | [] => []
  | m :: rest =>
    { key := m.key, value := m.value.normal, optional := m.optional && m.key ≠ .wildcard,
      readonly := m.readonly } :: normalMembers rest

end

theorem normalAll_eq_map (ts : List TypeNode) : normalAll ts = ts.map normal := by
  induction ts with
  | nil => rfl
  | cons t rest ih => rw [normalAll, ih, List.map_cons]

/-- Induction over the tree of a type. -/
@[elab_as_elim]
theorem tree_induction {motive : TypeNode → Prop} (keyword : ∀ k, motive (.keyword k))
    (literal : ∀ value, motive (.literal value))
    (array : ∀ element, motive element → motive (.array element))
    (object : ∀ members, (∀ m ∈ members, motive m.value) → motive (.object members))
    (union : ∀ members, (∀ t ∈ members, motive t) → motive (.union members))
    (intersection : ∀ members, (∀ t ∈ members, motive t) → motive (.intersection members))
    (tuple : ∀ members, (∀ t ∈ members, motive t) → motive (.tuple members))
    (reference : ∀ name arguments, (∀ t ∈ arguments, motive t) →
      motive (.reference name arguments)) (t : TypeNode) : motive t :=
  @TypeNode.rec motive (fun members => ∀ m ∈ members, motive m.value)
    (fun members => ∀ t ∈ members, motive t) (fun m => motive m.value)
    keyword literal array object union intersection tuple reference
    (by simp) (fun _ _ head tail => List.forall_mem_cons.2 ⟨head, tail⟩)
    (by simp) (fun _ _ head tail => List.forall_mem_cons.2 ⟨head, tail⟩)
    (fun _ _ _ _ _ _ value => value) t

/-- A union has not one member and no member to splice, an intersection has two members at
least and none to splice. -/
def IsFlat : TypeNode → Prop
  | .union ts => ts.length ≠ 1 ∧ ∀ t ∈ ts, t.alternatives = [t]
  | .intersection ts => 2 ≤ ts.length ∧ ∀ t ∈ ts, t.factors = [t]
  | _ => True

section Flat

variable {t u : TypeNode} {ts : List TypeNode}

/-- A flat type is the union of its alternatives. -/
theorem ofAlternatives_alternatives (h : t.IsFlat) : ofAlternatives t.alternatives = t := by
  unfold alternatives
  split
  · rename_i m ms
    cases ms with
    | nil => exact absurd rfl h.1
    | cons => rfl
  · rfl

/-- A flat type is the intersection of its factors. -/
theorem ofFactors_factors (h : t.IsFlat) : ofFactors t.factors = t := by
  unfold factors
  split
  · rename_i m ms
    cases ms with
    | nil => exact absurd h.1 (by simp)
    | cons => rfl
  · rfl

/-- The alternatives of a flat type are no unions to splice. -/
theorem alternatives_of_mem (h : t.IsFlat) (hu : u ∈ t.alternatives) : u.alternatives = [u] := by
  unfold alternatives at hu
  split at hu
  · exact h.2 u hu
  · rename_i hno
    obtain rfl := List.mem_singleton.1 hu
    unfold alternatives
    split
    · exact absurd rfl (hno _ _)
    · rfl

/-- The factors of a flat type are no intersections to splice. -/
theorem factors_of_mem (h : t.IsFlat) (hu : u ∈ t.factors) : u.factors = [u] := by
  unfold factors at hu
  split at hu
  · exact h.2 u hu
  · rename_i hno
    obtain rfl := List.mem_singleton.1 hu
    unfold factors
    split
    · exact absurd rfl (hno _ _)
    · rfl

theorem alternatives_ne_nil (t : TypeNode) : t.alternatives ≠ [] := by
  unfold alternatives
  split <;> simp

theorem factors_ne_nil (t : TypeNode) : t.factors ≠ [] := by
  unfold factors
  split <;> simp

/-- Two lists that are not empty have two elements at least. -/
theorem exists_cons_cons {as bs : List TypeNode} (ha : as ≠ []) (hb : bs ≠ [])
    (rest : List TypeNode) : ∃ a b l, as ++ (bs ++ rest) = a :: b :: l := by
  obtain ⟨a, as, rfl⟩ := List.exists_cons_of_ne_nil ha
  obtain ⟨b, bs, rfl⟩ := List.exists_cons_of_ne_nil hb
  cases as with
  | nil => exact ⟨a, b, bs ++ rest, rfl⟩
  | cons a' as => exact ⟨a, a', as ++ (b :: bs ++ rest), rfl⟩

/-- Uniting flat types gives one whose alternatives are theirs. -/
theorem unite_spec (h : ∀ t ∈ ts, t.IsFlat) :
    (unite ts).IsFlat ∧ (ts ≠ [] → (unite ts).alternatives = ts.flatMap alternatives) := by
  match ts, h with
  | [], _ => exact ⟨⟨by simp, by simp⟩, fun hne => absurd rfl hne⟩
  | [t], h =>
    have ht : t.IsFlat := h t List.mem_cons_self
    have hunite : unite [t] = t := by
      rw [unite, List.flatMap_singleton, ofAlternatives_alternatives ht]
    rw [hunite, List.flatMap_singleton]
    exact ⟨ht, fun _ => rfl⟩
  | t :: u :: rest, h =>
    have hflat : ∀ v ∈ (t :: u :: rest).flatMap alternatives, v.alternatives = [v] := by
      intro v hv
      obtain ⟨w, hw, hv⟩ := List.mem_flatMap.1 hv
      exact alternatives_of_mem (h w hw) hv
    obtain ⟨a, b, l, hl⟩ := exists_cons_cons (alternatives_ne_nil t) (alternatives_ne_nil u)
      (rest.flatMap alternatives)
    rw [List.flatMap_cons, List.flatMap_cons, hl] at hflat
    rw [unite, List.flatMap_cons, List.flatMap_cons, hl]
    exact ⟨⟨by simp, hflat⟩, fun _ => rfl⟩

/-- Intersecting flat types gives one whose factors are theirs. -/
theorem intersect_spec (h : ∀ t ∈ ts, t.IsFlat) :
    (intersect ts).IsFlat ∧ (ts ≠ [] → (intersect ts).factors = ts.flatMap factors) := by
  match ts, h with
  | [], _ => exact ⟨trivial, fun hne => absurd rfl hne⟩
  | [t], h =>
    have ht : t.IsFlat := h t List.mem_cons_self
    have hintersect : intersect [t] = t := by
      rw [intersect, List.flatMap_singleton, ofFactors_factors ht]
    rw [hintersect, List.flatMap_singleton]
    exact ⟨ht, fun _ => rfl⟩
  | t :: u :: rest, h =>
    have hflat : ∀ v ∈ (t :: u :: rest).flatMap factors, v.factors = [v] := by
      intro v hv
      obtain ⟨w, hw, hv⟩ := List.mem_flatMap.1 hv
      exact factors_of_mem (h w hw) hv
    obtain ⟨a, b, l, hl⟩ := exists_cons_cons (factors_ne_nil t) (factors_ne_nil u)
      (rest.flatMap factors)
    rw [List.flatMap_cons, List.flatMap_cons, hl] at hflat
    rw [intersect, List.flatMap_cons, List.flatMap_cons, hl]
    exact ⟨⟨by simp, hflat⟩, fun _ => rfl⟩

/-- Normal forms are flat. -/
theorem isFlat_normal (t : TypeNode) : t.normal.IsFlat := by
  induction t using tree_induction with
  | union members ih =>
    rw [normal, normalAll_eq_map]
    refine (unite_spec fun t ht => ?_).1
    obtain ⟨m, hm, rfl⟩ := List.mem_map.1 ht
    exact ih m hm
  | intersection members ih =>
    rw [normal, normalAll_eq_map]
    refine (intersect_spec fun t ht => ?_).1
    obtain ⟨m, hm, rfl⟩ := List.mem_map.1 ht
    exact ih m hm
  | _ => trivial

/-- A type alone is in normal form when it is. -/
theorem normal_ofAlternatives (ts : List TypeNode) :
    (ofAlternatives ts).normal = unite (ts.map normal) := by
  have hunion : ∀ members : List TypeNode,
      (TypeNode.union members).normal = unite (members.map normal) := fun members => by
    rw [normal, normalAll_eq_map]
  match ts with
  | [] => exact hunion []
  | [t] =>
    rw [List.map_singleton, unite, List.flatMap_singleton,
      ofAlternatives_alternatives (isFlat_normal t), ofAlternatives]
  | t :: u :: rest => exact hunion (t :: u :: rest)

/-- The same of factors. -/
theorem normal_ofFactors (ts : List TypeNode) :
    (ofFactors ts).normal = intersect (ts.map normal) := by
  have hintersection : ∀ members : List TypeNode,
      (TypeNode.intersection members).normal = intersect (members.map normal) := fun members => by
    rw [normal, normalAll_eq_map]
  match ts with
  | [] => rfl
  | [t] =>
    rw [List.map_singleton, intersect, List.flatMap_singleton,
      ofFactors_factors (isFlat_normal t), ofFactors]
  | t :: u :: rest => exact hintersection (t :: u :: rest)

end Flat

end TypeNode

open TypeNode

/-- Tokens say what a type is: they spell alternatives with its normal form, factors unless it
is a union, and an operand unless it is a union or an intersection. -/
structure Says (tokens : List Token) (t : TypeNode) : Prop where
  /-- The alternatives. -/
  alternatives : ∃ ts, Spells tokens (.alternatives ts) ∧
    ts.flatMap (fun u => u.normal.alternatives) = t.normal.alternatives
  /-- The factors. -/
  factors : t.isUnion = false → ∃ ts, Spells tokens (.factors ts) ∧
    ts.flatMap (fun u => u.normal.factors) = t.normal.factors
  /-- The operand. -/
  operand : (t.isUnion || t.isIntersection) = false → ∃ u, Spells tokens (.operand u) ∧
    u.normal = t.normal

section Says

variable {tokens : List Token} {t u : TypeNode} {ts : List TypeNode}

/-- Alternatives of the same normal forms make the same normal form. -/
theorem normal_eq_of_alternatives
    (h : ts.flatMap (fun u => u.normal.alternatives) = t.normal.alternatives) :
    (ofAlternatives ts).normal = t.normal := by
  rw [normal_ofAlternatives, unite, List.flatMap_map, h,
    ofAlternatives_alternatives (isFlat_normal t)]

/-- Factors of the same normal forms make the same normal form. -/
theorem normal_eq_of_factors (h : ts.flatMap (fun u => u.normal.factors) = t.normal.factors) :
    (ofFactors ts).normal = t.normal := by
  rw [normal_ofFactors, intersect, List.flatMap_map, h, ofFactors_factors (isFlat_normal t)]

/-- Factors are one alternative. -/
theorem exists_alternatives (h : Spells tokens (.factors ts))
    (hts : ts.flatMap (fun u => u.normal.factors) = t.normal.factors) :
    ∃ us, Spells tokens (.alternatives us) ∧
      us.flatMap (fun u => u.normal.alternatives) = t.normal.alternatives :=
  ⟨_, .alternative h, by rw [List.flatMap_singleton, normal_eq_of_factors hts]⟩

/-- An operand is one factor and one alternative. -/
theorem says_of_operand (h : Spells tokens (.operand u)) (hu : u.normal = t.normal) :
    Says tokens t := by
  have hfactors : [u].flatMap (fun u => u.normal.factors) = t.normal.factors := by
    rw [List.flatMap_singleton, hu]
  exact ⟨exists_alternatives (.factor h) hfactors, fun _ => ⟨_, .factor h, hfactors⟩,
    fun _ => ⟨u, h, hu⟩⟩

/-- A type in parentheses is an operand. -/
theorem Says.group (h : Says tokens t) : ∃ u,
    Spells (.mark '(' :: (tokens ++ [.mark ')'])) (.operand u) ∧ u.normal = t.normal := by
  obtain ⟨ts, hts, hnormal⟩ := h.alternatives
  exact ⟨_, .group hts, normal_eq_of_alternatives hnormal⟩

/-- Phrases between marks are a phrase when two of them are. -/
theorem spells_separated {c : Char} {phrase : List TypeNode → Phrase}
    (hjoin : ∀ {ts us : List Token} {left right : List TypeNode}, Spells ts (phrase left) →
      Spells us (phrase right) → Spells (ts ++ .mark c :: us) (phrase (left ++ right)))
    (spelling : TypeNode → List Token) (part : TypeNode → List TypeNode) (hne : ts ≠ [])
    (h : ∀ t ∈ ts, ∃ us, Spells (spelling t) (phrase us) ∧ us.flatMap part = part t) :
    ∃ us, Spells (separated c (ts.map spelling)) (phrase us) ∧
      us.flatMap part = ts.flatMap part := by
  induction ts with
  | nil => exact absurd rfl hne
  | cons t rest ih =>
    obtain ⟨⟨us, hus, hpart⟩, hrest⟩ := List.forall_mem_cons.1 h
    cases rest with
    | nil => exact ⟨us, hus, by rw [hpart, List.flatMap_singleton]⟩
    | cons t' rest =>
      obtain ⟨vs, hvs, hparts⟩ := ih (by simp) hrest
      refine ⟨us ++ vs, hjoin hus hvs, ?_⟩
      rw [List.flatMap_append, hpart, hparts]
      rfl

/-- Types between commas have the normal forms of what they say. -/
theorem exists_elements (hne : ts ≠ []) (h : ∀ t ∈ ts, Says t.spelling t) :
    ∃ us, Spells (separated ',' (spellings false ts)) (.elements us) ∧
      us.map normal = ts.map normal := by
  have helement : ∀ t ∈ ts, ∃ us, Spells (wrapped (false && t.isUnion) t.spelling)
      (.elements us) ∧ us.flatMap (fun u => [u.normal]) = [t.normal] := by
    intro t ht
    obtain ⟨us, hus, hnormal⟩ := (h t ht).alternatives
    exact ⟨_, .element hus, by rw [List.flatMap_singleton, normal_eq_of_alternatives hnormal]⟩
  rw [spellings_eq_map]
  obtain ⟨us, hus, hnormal⟩ := spells_separated .comma _ (fun u => [u.normal]) hne helement
  exact ⟨us, hus, by rw [List.map_eq_flatMap, List.map_eq_flatMap, hnormal]⟩

/-- What comes before the type of a member says its key and what holds of it. -/
theorem exists_head (key : Key) (optional readonly : Bool) : ∃ f : Field Unit,
    SpellsHead (headSpelling key optional readonly) f ∧ f.key = key ∧ f.readonly = readonly ∧
      (f.optional && decide (f.key ≠ .wildcard)) = (optional && decide (key ≠ .wildcard)) := by
  cases key with
  | named name => exact ⟨_, .named name optional readonly, rfl, rfl, rfl⟩
  | wildcard => exact ⟨_, .wildcard "key" readonly, rfl, rfl, by simp⟩

/-- The members of an object have the normal forms of what they say. -/
theorem exists_members {members : List (Field TypeNode)}
    (h : ∀ m ∈ members, Says m.value.spelling m.value) :
    ∃ fields, Spells (memberSpellings members) (.members fields) ∧
      normalMembers fields = normalMembers members := by
  induction members with
  | nil => exact ⟨[], .empty, rfl⟩
  | cons m rest ih =>
    obtain ⟨hvalue, hrest⟩ := List.forall_mem_cons.1 h
    obtain ⟨us, hus, hnormal⟩ := hvalue.alternatives
    obtain ⟨fields, hfields, hmembers⟩ := ih hrest
    obtain ⟨f, hf, hkey, hreadonly, hoptional⟩ := exists_head m.key m.optional m.readonly
    refine ⟨_, .member hf hus hfields, ?_⟩
    rw [normalMembers, normalMembers, hmembers]
    simp only [Field.mapValue, normal_eq_of_alternatives hnormal, hreadonly, hoptional]
    rw [hkey]

end Says

/-- The tokens of a type say what the type is. -/
theorem says_spelling {t : TypeNode} (h : t.IsPlain) : Says t.spelling t := by
  induction h with
  | keyword k =>
    have hword : ∀ k : Keyword, (k.word, TypeNode.keyword k) ∈ wordTypes := by
      intro k
      cases k <;> simp [wordTypes, Keyword.word]
    exact says_of_operand (.word (hword k)) rfl
  | string value => exact says_of_operand (.text value) rfl
  | @number value _ => exact says_of_operand (.number value) rfl
  | bool value =>
    cases value with
    | true => exact says_of_operand (.word (by simp [wordTypes])) rfl
    | false => exact says_of_operand (.word (by simp [wordTypes])) rfl
  | @array element _ ih =>
    have hoperand : ∃ u, Spells
        (wrapped (element.isUnion || element.isIntersection) element.spelling) (.operand u) ∧
          u.normal = element.normal := by
      cases hwrap : element.isUnion || element.isIntersection with
      | true => exact ih.group
      | false => exact ih.operand hwrap
    obtain ⟨u, hu, hnormal⟩ := hoperand
    exact says_of_operand (.array hu) (by rw [normal, normal, hnormal])
  | @object members _ ih =>
    obtain ⟨fields, hfields, hmembers⟩ := exists_members ih
    refine says_of_operand (.object hfields) ?_
    rw [normal, normal, hmembers]
  | @union members _ ih =>
    cases members with
    | nil => exact says_of_operand (.word (by simp [wordTypes])) rfl
    | cons m rest =>
      set members := m :: rest
      have hnormal : (TypeNode.union members).normal.alternatives =
          members.flatMap fun t => t.normal.alternatives := by
        rw [normal, normalAll_eq_map, (unite_spec ?_).2 (by simp [members]), List.flatMap_map]
        exact List.forall_mem_map.2 fun t _ => isFlat_normal t
      refine ⟨?_, fun hunion => absurd hunion (by simp [isUnion]),
        fun hunion => absurd hunion (by simp [isUnion])⟩
      rw [hnormal, spelling, spellings_eq_map]
      exact spells_separated .either _ (fun u => u.normal.alternatives) (by simp)
        fun t ht => (ih t ht).alternatives
  | @intersection members _ ih =>
    cases members with
    | nil => exact says_of_operand (.word (t := .keyword .any) (by simp [wordTypes])) rfl
    | cons m rest =>
      set members := m :: rest
      have hnormal : (TypeNode.intersection members).normal.factors =
          members.flatMap fun t => t.normal.factors := by
        rw [normal, normalAll_eq_map, (intersect_spec ?_).2 (by simp [members]), List.flatMap_map]
        exact List.forall_mem_map.2 fun t _ => isFlat_normal t
      have hfactors : ∀ t ∈ members, ∃ us, Spells (wrapped (true && t.isUnion) t.spelling)
          (.factors us) ∧ us.flatMap (fun u => u.normal.factors) = t.normal.factors := by
        intro t ht
        cases hunion : t.isUnion with
        | true =>
          obtain ⟨u, hu, hnormal⟩ := (ih t ht).group
          exact ⟨[u], .factor hu, by rw [List.flatMap_singleton, hnormal]⟩
        | false => exact (ih t ht).factors hunion
      obtain ⟨us, hus, hparts⟩ :=
        spells_separated .both _ (fun u => u.normal.factors) (by simp [members]) hfactors
      rw [← hnormal] at hparts
      have hspelling : (TypeNode.intersection members).spelling = separated '&'
          (members.map fun t => wrapped (true && t.isUnion) t.spelling) := by
        rw [spelling, spellings_eq_map]
      rw [← hspelling] at hus
      exact ⟨exists_alternatives hus hparts, fun _ => ⟨us, hus, hparts⟩,
        fun hintersection => absurd hintersection (by simp [isIntersection])⟩
  | @tuple members _ ih =>
    cases members with
    | nil => exact says_of_operand .unit rfl
    | cons m rest =>
      obtain ⟨us, hus, hnormal⟩ := exists_elements (by simp) ih
      refine says_of_operand (.tuple hus) ?_
      rw [normal, normal, normalAll_eq_map, normalAll_eq_map, hnormal]
  | @reference name arguments hname _ ih =>
    cases arguments with
    | nil => exact says_of_operand (.name hname.unreserved) rfl
    | cons a rest =>
      obtain ⟨us, hus, hnormal⟩ := exists_elements (by simp) ih
      refine says_of_operand (.generic hname.unreserved hus) ?_
      rw [normal, normal, normalAll_eq_map, normalAll_eq_map, hnormal]

/-- The text of a type is read back as a type with the same normal form, and as no type with
another one. So types with different normal forms are never printed alike. -/
theorem text_read_back {t : TypeNode} (h : t.IsPlain) :
    (∃ u, IsReading t.text u ∧ u.normal = t.normal) ∧
      (∀ u, IsReading t.text u → u.normal = t.normal) ∧
      ∀ u : TypeNode, u.IsPlain → u.text = t.text → u.normal = t.normal := by
  have hreading : ∀ {u : TypeNode}, u.IsPlain →
      ∃ v, IsReading u.text v ∧ v.normal = u.normal := by
    intro u hu
    obtain ⟨ts, hts, hnormal⟩ := (says_spelling hu).alternatives
    have htokens : tokens? u.text.toList = some u.spelling := by
      have hread := isRead_textAt hu 0 [] (by simp [Stops])
      simpa [TypeNode.text, tokens?, tokensAfter] using hread
    exact ⟨_, ⟨_, ts, htokens, hts, rfl⟩, normal_eq_of_alternatives hnormal⟩
  obtain ⟨v, hv, hnormal⟩ := hreading h
  refine ⟨⟨v, hv, hnormal⟩, fun u hu => ?_, fun u hu htext => ?_⟩
  · rw [hu.unique hv, hnormal]
  · obtain ⟨w, hw, hwnormal⟩ := hreading hu
    rw [htext] at hw
    rw [← hwnormal, hw.unique hv, hnormal]

/-- Two types that differ in how unions are grouped and in whether an index signature is
optional, one of them with a comment end in its documentation. -/
theorem text_read_back_pets :
    let price : TypeNode := .literal (.number (.float ⟨false, 6755399441055744, -52⟩))
    let tags : TypeNode := .array (.union [.keyword .string, .union [.literal (.bool true), price]])
    let others : TypeNode :=
      .intersection [.union [.reference "Pet" [.union []]], .intersection [], .tuple []]
    let t : TypeNode := .object
      [{ key := .named "tags", value := .union [tags], optional := true, doc := some "see */" },
       { key := .wildcard, value := others, optional := true, readonly := true }]
    let u : TypeNode := .object
      [{ key := .named "tags", value := tags, optional := true, doc := some "see */" },
       { key := .wildcard, value := others, readonly := true }]
    t.IsPlain ∧ u.IsPlain ∧ u.text = t.text ∧ u.normal = t.normal ∧
      ∃ v, IsReading t.text v ∧ v.normal = .object
        [{ key := .named "tags", optional := true, value :=
            .array (.union [.keyword .string, .literal (.bool true), price]) },
         { key := .wildcard, readonly := true, value :=
            .intersection [.reference "Pet" [.union []], .keyword .any, .tuple []] }] := by
  intro price tags others t u
  have hcanonical : Binary64.IsCanonical ⟨false, 6755399441055744, -52⟩ := by decide
  have hprice : price.IsPlain := .number hcanonical
  have htags : tags.IsPlain := by
    have hinner : (TypeNode.union [.literal (.bool true), price]).IsPlain :=
      .union (by simpa using ⟨.bool true, hprice⟩)
    exact .array (.union (by simpa using ⟨.keyword .string, hinner⟩))
  have hothers : others.IsPlain := by
    have hname : IsTypeName "Pet" := ⟨isWord_of_all (by decide) (by decide), by decide⟩
    have hpet : (TypeNode.reference "Pet" [.union []]).IsPlain :=
      .reference hname (by simpa using .union (by simp))
    have hunion : (TypeNode.union [.reference "Pet" [.union []]]).IsPlain :=
      .union (by simpa using hpet)
    exact .intersection (by simpa using ⟨hunion, .intersection (by simp), .tuple (by simp)⟩)
  have ht : t.IsPlain := .object (by simpa using ⟨.union (by simpa using htags), hothers⟩)
  have hu : u.IsPlain := .object (by simpa using ⟨htags, hothers⟩)
  obtain ⟨⟨v, hv, hnormal⟩, -, halike⟩ := text_read_back ht
  exact ⟨ht, hu, rfl, halike u hu rfl, v, hv, hnormal⟩

end TypedClient.TypeScript
