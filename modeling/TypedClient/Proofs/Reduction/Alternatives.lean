import TypedClient.Proofs.Reduction.Acceptance
import TypedClient.Proofs.Reduction.Idempotence

/-!
# Alternatives of a shape

A union offers its members, those of nested unions among them, and a shape of another
kind offers itself. Uniting shapes loses none of their alternatives: one that is left out
says nothing, or is equal to one that is kept when general literals are the standard ones
of their kind. Only objects are changed, so without them nothing is added either.
-/

namespace TypedClient.Shape

/-- The alternatives that a shape offers. -/
def alternatives (s : Shape) : List Shape :=
  if s.isJoinedBy .or then s.spliced .or else [s]

/-- A shape offers another when this is equal to one of its alternatives. -/
def Offers (s a : Shape) : Prop := ∃ b ∈ s.alternatives, (b == a) = true

variable {s a b k m : Shape} {members vs : List Shape} {threshold : Nat}

section Alternatives

theorem alternatives_of_not_union (h : s.isJoinedBy .or = false) : s.alternatives = [s] := by
  simp [alternatives, h]

@[simp] theorem alternatives_union (members : List Shape) :
    (Shape.joined .or members).alternatives = flatten .or members := by
  simp [alternatives, isJoinedBy, spliced_joined]

/-- Splicing nested unions in leaves the alternatives of all members. -/
theorem mem_flatten_or : a ∈ flatten .or members ↔ ∃ m ∈ members, a ∈ m.alternatives := by
  rw [mem_flatten]
  constructor
  · rintro (⟨ha, hn⟩ | ⟨m, hm, ha⟩)
    · exact ⟨a, ha, by simp [alternatives_of_not_union hn]⟩
    · obtain ⟨inner, rfl, -⟩ := mem_spliced ha
      exact ⟨_, hm, by rwa [alternatives_union, ← spliced_joined]⟩
  · rintro ⟨m, hm, ha⟩
    cases hu : m.isJoinedBy .or with
    | false =>
      rw [alternatives_of_not_union hu, List.mem_singleton] at ha
      subst ha
      exact Or.inl ⟨hm, hu⟩
    | true => exact Or.inr ⟨m, hm, by simpa [alternatives, hu] using ha⟩

/-- What holds everywhere in a shape holds of its alternatives. -/
theorem Everywhere.of_mem_alternatives {P : Shape → Prop} (h : Everywhere P s)
    (ha : a ∈ s.alternatives) : P a := by
  have hflat : a ∈ flatten .or [s] := mem_flatten_or.2 ⟨s, List.mem_singleton_self s, ha⟩
  have hinner : ∀ ms, Everywhere P (.joined .or ms) → ∀ m ∈ ms, Everywhere P m :=
    fun _ hms => (everywhere_joined.1 hms).2
  exact (forall_mem_flatten hinner (by simpa using h) a hflat).here

/-- The shape made of members that are no unions offers them. -/
theorem alternatives_ofMembers (h : ∀ m ∈ members, m.isJoinedBy .or = false)
    (hne : members ≠ []) : (ofMembers .or members).alternatives = members := by
  rcases ofMembers_cases (c := .or) members with ⟨hnil, -⟩ | ⟨m, rfl, he⟩ | ⟨-, he⟩
  · exact absurd hnil hne
  · rw [he, alternatives_of_not_union (h m (List.mem_singleton_self m))]
  · rw [he, alternatives_union, flatten_eq_self h]

end Alternatives

section Equality

/-- Equal values are of one kind. -/
theorem keyword?_eq_of_same {v w : Json} (h : v.same w = true) : v.keyword? = w.keyword? := by
  cases v <;> cases w <;> first | rfl | (rw [Json.same] at h <;> simp_all)

/-- Equal literals have equal values and are both constants or neither is. -/
theorem same_literal {l l' : Literal} : (Shape.literal l == Shape.literal l') = true ↔
    Json.sameOption l.value l'.value = true ∧ l.constant = l'.constant := by
  change Literal.same l l' = true ↔ _
  rw [Literal.same, Bool.and_eq_true, beq_iff_eq]

/-- Equal shapes have the same keyword, if any. -/
theorem keyword?_of_same (h : (b == a) = true) : b.keyword? = a.keyword? := by
  cases b with
  | literal l =>
    cases a with
    | literal l' =>
      obtain ⟨value, constant⟩ := l
      obtain ⟨value', constant'⟩ := l'
      obtain ⟨hvalue, rfl⟩ : _ ∧ constant = constant' := same_literal.1 h
      match value, value', hvalue with
      | none, none, _ => rfl
      | some v, some w, hvw =>
        have hkind := keyword?_eq_of_same hvw
        cases v <;> cases w <;> first | rfl | cases hkind
    | _ => cases h
  | _ => cases a <;> first | rfl | cases h

/-- What is equal to a shape that says something says something. -/
theorem isVacuous_of_same (h : (b == a) = true) : b.isVacuous = a.isVacuous := by
  simp only [isVacuous, keyword?_of_same h]

/-- Of two equal shapes both are objects or neither is. -/
theorem isObject_of_same (h : (b == a) = true) : b.isObject = a.isObject := by
  cases b <;> cases a <;> first | rfl | cases h

/-- A shape stands in for another: it is the same, or both are equal scalar literals. -/
def StandsIn (k b : Shape) : Prop :=
  k = b ∨ ∃ l l' : Literal, k = .literal l ∧ b = .literal l' ∧ l'.isComposite = false ∧
    (k == b) = true

theorem StandsIn.refl (b : Shape) : StandsIn b b := Or.inl rfl

/-- Equality of literals passes on from a scalar one. -/
theorem same_literal_trans {l l' l'' : Literal} (hl : l'.isComposite = false)
    (h : (Shape.literal l == Shape.literal l') = true)
    (h' : (Shape.literal l' == Shape.literal l'') = true) :
    (Shape.literal l == Shape.literal l'') = true := by
  obtain ⟨first, _⟩ := l
  obtain ⟨second, _⟩ := l'
  obtain ⟨third, _⟩ := l''
  obtain ⟨hvalue, hconstant⟩ := same_literal.1 h
  obtain ⟨hvalue', hconstant'⟩ := same_literal.1 h'
  refine same_literal.2 ⟨?_, hconstant.trans hconstant'⟩
  match first, second, third, hvalue, hvalue' with
  | none, none, none, _, _ => rfl
  | some u, some v, some w, huv, hvw =>
    have hscalar : u.isComposite = false := (Json.isComposite_eq_of_same huv).trans hl
    exact Json.same_trans_of_scalar hscalar huv hvw

/-- What is equal to a shape, one that stands in for it is equal to. -/
theorem StandsIn.same (h : StandsIn k b) (ha : (b == a) = true) : (k == a) = true := by
  rcases h with rfl | ⟨l, l', rfl, rfl, hl, hkb⟩
  · exact ha
  · cases a with
    | literal l'' => exact same_literal_trans hl hkb ha
    | _ => cases ha

/-- What one that stands in for a shape is equal to, the shape is equal to. -/
theorem StandsIn.same_left (h : StandsIn k b) (ha : (a == k) = true) : (a == b) = true := by
  rcases h with rfl | ⟨l, l', rfl, rfl, hl, hkb⟩
  · exact ha
  · have hk : l.isComposite = false := by
      obtain ⟨value, _⟩ := l
      obtain ⟨value', _⟩ := l'
      obtain ⟨hvalue, -⟩ := same_literal.1 hkb
      match value, value', hvalue with
      | none, none, _ => rfl
      | some v, some w, hvw => exact (Json.isComposite_eq_of_same hvw).trans hl
    cases a with
    | literal l'' => exact same_literal_trans hk ha hkb
    | _ => cases ha

theorem StandsIn.trans (h : StandsIn m k) (h' : StandsIn k b) : StandsIn m b := by
  rcases h' with rfl | ⟨l, l', rfl, rfl, hl, hkb⟩
  · exact h
  · rcases h with rfl | ⟨l'', l, rfl, he, -, hmk⟩
    · exact Or.inr ⟨l, l', rfl, rfl, hl, hkb⟩
    · cases he
      have hm : StandsIn (.literal l) (.literal l') := Or.inr ⟨l, l', rfl, rfl, hl, hkb⟩
      exact Or.inr ⟨l'', l', rfl, rfl, hl, hm.same_left hmk⟩

/-- What stands in for a shape says something when the shape does. -/
theorem StandsIn.isVacuous_eq (h : StandsIn k b) : k.isVacuous = b.isVacuous := by
  rcases h with rfl | ⟨-, -, -, -, -, hkb⟩
  · rfl
  · exact isVacuous_of_same hkb

/-- What stands in for a shape is an object when the shape is one. -/
theorem StandsIn.isObject_eq (h : StandsIn k b) : k.isObject = b.isObject := by
  rcases h with rfl | ⟨-, -, -, -, -, hkb⟩
  · rfl
  · exact isObject_of_same hkb

/-- Scalars of one kind have one shape. -/
theorem ofSample_of_keyword? {v w : Json} {kind : Keyword} (hv : v.keyword? = some kind)
    (hw : w.keyword? = some kind) : ofSample v = ofSample w := by
  cases v <;> cases hv <;> cases w <;> first | rfl | cases hw

/-- Two standard literals of one kind are one. -/
theorem eq_of_keyword? {kind : Keyword} (hm : IsStandard m) (hk : IsStandard k)
    (hkm : m.keyword? = some kind) (hkk : k.keyword? = some kind)
    (hv : kind.isVacuous = false) : k = m := by
  obtain ⟨sample, rfl, hs⟩ := eq_literal_of_keyword? hkm hv
  obtain ⟨sample', rfl, hs'⟩ := eq_literal_of_keyword? hkk hv
  exact (hk.2 rfl).symm.trans ((ofSample_of_keyword? hs' hs).trans (hm.2 rfl))

/-- A literal stands in for the scalar literals that are equal to it. -/
theorem standsIn_literal {l : Literal} (hl : l.isComposite = false)
    (h : (k == Shape.literal l) = true) : StandsIn k (.literal l) := by
  cases k with
  | literal kept => exact Or.inr ⟨kept, l, rfl, rfl, hl, h⟩
  | _ => cases h

/-- What is left out for repeating a shape is said by that shape. -/
theorem standsIn_of_repeats (hm : IsStandard m) (hk : IsStandard k) (hv : m.isVacuous = false)
    (h : m.repeats k = true) :
    StandsIn k m ∧ k.isObject = false ∧ k.isVacuous = false ∧ k.isJoinedBy .or = false := by
  unfold repeats at h
  split at h
  · rename_i kind hkind
    have hkindv : kind.isVacuous = false := by simpa [isVacuous, hkind] using hv
    have hsame : k = m := eq_of_keyword? hm hk hkind (by simpa using h) hkindv
    subst hsame
    refine ⟨.refl k, ?_, hv, ?_⟩ <;> cases k <;> first | rfl | cases hkind
  · split at h
    · refine ⟨standsIn_literal hm.1 h, isObject_of_same h, (isVacuous_of_same h).trans hv, ?_⟩
      cases k <;> first | rfl | cases h
    · cases h

end Equality

section Joined

variable {unite : List Shape → Shape} {A : Shape → Prop}

/-- Joining carries what holds of all alternatives, when merging objects does. -/
theorem joinInvariant_alternatives
    (object : ∀ objects, (∀ fields ∈ objects, A (.object fields)) →
      mergedFields .or unite threshold objects ≠ [] →
      A (.object (mergedFields .or unite threshold objects))) :
    JoinInvariant .or unite threshold (fun m => ∀ a ∈ m.alternatives, A a) fun _ => True where
  inner _ h m hm a ha := h a (by rw [alternatives_union]; exact mem_flatten_or.2 ⟨m, hm, ha⟩)
  value _ _ _ _ := trivial
  preserves := ⟨fun _ _ => trivial, fun _ _ _ => trivial⟩
  merged objects h hne a ha := by
    obtain rfl := List.mem_singleton.1 ha
    exact object objects (fun fields hf => h fields hf _ (List.mem_singleton_self _)) hne

/-- What a member says, a consolidated one says. A union is kept. -/
theorem exists_standsIn_consolidate (standard : ∀ m ∈ members, IsStandard m) (hm : m ∈ members)
    (hv : m.isVacuous = false) (ho : m.isObject = false) :
    ∃ k ∈ consolidate .or unite threshold members, StandsIn k m ∧ k.isVacuous = false ∧
      k.isObject = false ∧ (k = m ∨ k.isJoinedBy .or = false) := by
  obtain ⟨k, hk, hkm⟩ := exists_of_mem_distinct hm hv
  have hkmem : k ∈ members := mem_of_mem_distinct hk
  rcases hkm with rfl | hr
  · exact ⟨k, mem_consolidate.2 (Or.inl ⟨hk, ho⟩), .refl k, hv, ho, Or.inl rfl⟩
  · obtain ⟨hstands, hko, hkv, hku⟩ := standsIn_of_repeats (standard m hm) (standard k hkmem) hv hr
    exact ⟨k, mem_consolidate.2 (Or.inl ⟨hk, hko⟩), hstands, hkv, hko, Or.inr hku⟩

/-- A union among members is kept until it is spliced in. -/
theorem mem_consolidate_of_union (hm : m ∈ members) (hu : m.isJoinedBy .or = true) :
    m ∈ consolidate .or unite threshold members := by
  cases m with
  | joined c inner =>
    obtain ⟨k, hk, rfl | hr⟩ := exists_of_mem_distinct hm rfl
    · exact mem_consolidate.2 (Or.inl ⟨hk, rfl⟩)
    · cases hr
  | _ => cases hu

/-- What an alternative of a member says, a joined member says. -/
theorem exists_standsIn_joinedMembers
    (standard : ∀ m ∈ members, ∀ a ∈ m.alternatives, IsStandard a) (hm : m ∈ members)
    (hb : b ∈ m.alternatives) (hv : b.isVacuous = false) (ho : b.isObject = false) :
    ∃ k ∈ joinedMembers .or unite threshold members, StandsIn k b := by
  have htop : ∀ m ∈ members, IsStandard m := by
    intro m hm
    cases hu : m.isJoinedBy .or with
    | false => exact standard m hm m (by simp [alternatives_of_not_union hu])
    | true => cases m <;> trivial
  have hflat : ∀ m ∈ flatten .or (consolidate .or unite threshold members), IsStandard m := by
    intro m hm
    obtain ⟨m', hm', ha⟩ := mem_flatten_or.1 hm
    have hI : JoinInvariant .or unite threshold (fun m => ∀ a ∈ m.alternatives, IsStandard a)
        fun _ => True := joinInvariant_alternatives fun _ _ _ => trivial
    exact hI.consolidate standard m' hm' m ha
  unfold joinedMembers
  dsimp only
  cases hu : m.isJoinedBy .or with
  | false =>
    rw [alternatives_of_not_union hu, List.mem_singleton] at hb
    subst hb
    obtain ⟨k, hk, hstands, hkv, hko, hku⟩ : ∃ k ∈ consolidate .or unite threshold members,
        StandsIn k b ∧ k.isVacuous = false ∧ k.isObject = false ∧
          (k = b ∨ k.isJoinedBy .or = false) :=
      exists_standsIn_consolidate htop hm hv ho
    split
    · have hkn : k.isJoinedBy .or = false := by
        rcases hku with rfl | hku
        · exact hu
        · exact hku
      obtain ⟨k', hk', hstands', -⟩ :=
        exists_standsIn_consolidate hflat (mem_flatten.2 (Or.inl ⟨hk, hkn⟩)) hkv hko
      exact ⟨k', hk', hstands'.trans hstands⟩
    · exact ⟨k, hk, hstands⟩
  | true =>
    have honce : m ∈ consolidate .or unite threshold members := mem_consolidate_of_union hm hu
    rw [if_pos (List.any_eq_true.2 ⟨m, honce, hu⟩)]
    obtain ⟨k, hk, hstands, -⟩ :=
      exists_standsIn_consolidate hflat (mem_flatten_or.2 ⟨m, honce, hb⟩) hv ho
    exact ⟨k, hk, hstands⟩

end Joined

section United

/-- Settling keeps general literals the standard ones of their kind. -/
theorem inherited_isStandard : Inherited threshold IsStandard :=
  ⟨trivial, fun _ => trivial, fun _ => trivial, fun _ _ _ => trivial, fun _ _ _ => trivial,
    fun _ _ _ _ _ => trivial⟩

/-- The alternatives of settled shapes with standard literals are standard. -/
theorem isStandard_of_mem_alternatives_settle (standard : ∀ v ∈ vs, Everywhere IsStandard v) :
    ∀ m ∈ vs.map (settle threshold), ∀ a ∈ m.alternatives, IsStandard a := by
  intro m hm a ha
  obtain ⟨v, hv, rfl⟩ := List.mem_map.1 hm
  exact ((standard v hv).settle inherited_isStandard).of_mem_alternatives ha

/-- A settled union offers what it is joined of, unless this is nothing. -/
theorem alternatives_united
    (hne : joinedMembers .or (united threshold) threshold (vs.map (settle threshold)) ≠ []) :
    (united threshold vs).alternatives =
      joinedMembers .or (united threshold) threshold (vs.map (settle threshold)) := by
  rw [united_eq, join_eq]
  exact alternatives_ofMembers (fun m hm => isJoinedBy_of_mem_joinedMembers hm) hne

/-- What one of some shapes offers, their settled union offers, be it no object and say
it something. -/
theorem exists_standsIn_united {v : Shape} (standard : ∀ v ∈ vs, Everywhere IsStandard v)
    (hv : v ∈ vs) (hb : b ∈ (v.settle threshold).alternatives) (hs : b.isVacuous = false)
    (ho : b.isObject = false) : ∃ k ∈ (united threshold vs).alternatives, StandsIn k b := by
  obtain ⟨k, hk, hstands⟩ : ∃ k ∈ joinedMembers .or (united threshold) threshold
      (vs.map (settle threshold)), StandsIn k b :=
    exists_standsIn_joinedMembers (isStandard_of_mem_alternatives_settle standard)
      (List.mem_map_of_mem hv) hb hs ho
  refine ⟨k, ?_, hstands⟩
  rwa [alternatives_united (List.ne_nil_of_mem hk)]

/-- The settled union of shapes has no other alternatives than these, objects apart, and apart
from anything when nothing is left of them. -/
theorem exists_mem_alternatives_of_united (ha : a ∈ (united threshold vs).alternatives)
    (hs : a.isVacuous = false) (ho : a.isObject = false) :
    ∃ v ∈ vs, a ∈ (v.settle threshold).alternatives := by
  have hI : JoinInvariant .or (united threshold) threshold (fun m => ∀ a ∈ m.alternatives,
      a.isObject = true ∨ ∃ v ∈ vs, a ∈ (v.settle threshold).alternatives) fun _ => True :=
    joinInvariant_alternatives fun _ _ _ => Or.inl rfl
  have hsettled : ∀ m ∈ vs.map (settle threshold), ∀ a ∈ m.alternatives,
      a.isObject = true ∨ ∃ v ∈ vs, a ∈ (v.settle threshold).alternatives := by
    intro m hm b hb
    obtain ⟨v, hv, rfl⟩ := List.mem_map.1 hm
    exact Or.inr ⟨v, hv, hb⟩
  have hall := hI.joinedMembers hsettled
  have hne : joinedMembers .or (united threshold) threshold (vs.map (settle threshold)) ≠ [] := by
    intro hnil
    rw [united_eq, join_eq, hnil] at ha
    obtain rfl := List.mem_singleton.1 ha
    cases hs
  rw [alternatives_united hne] at ha
  have hself : a ∈ a.alternatives := by
    simp [alternatives_of_not_union (isJoinedBy_of_mem_joinedMembers ha)]
  exact (hall a ha a hself).resolve_left (by simp [ho])

end United

end TypedClient.Shape
