import TypedClient.Proofs.Module.Inertness

/-!
# Inert declarations of shapes

The type of a shape whose texts name no variable is inert, and so are all declarations that the
shape needs: the walk that finds them meets named shapes and enumerations only.
-/

namespace TypedClient

/-- The shapes that have names are written with allowed texts, and the names have characters of
identifiers. -/
def Arena.IsWrittenWith (allowed : String → Prop) (arena : Arena) : Prop :=
  ∀ entry ∈ arena.entries, HasIdentifierChars entry.1 ∧ entry.2.IsWrittenWith allowed

section Arenas

variable {allowed : String → Prop} {arena : Arena} {name : String} {s : Shape}

theorem Arena.IsWrittenWith.find? (h : arena.IsWrittenWith allowed)
    (hfind : arena.find? name = some s) :
    HasIdentifierChars name ∧ s.IsWrittenWith allowed :=
  h _ (Arena.mem_of_lookup_eq_some hfind)

/-- The shape at which the chain of a name ends has a name. -/
theorem Arena.IsWrittenWith.resolve? (h : arena.IsWrittenWith allowed)
    (hresolve : arena.resolve? name = some s) : s.IsWrittenWith allowed := by
  obtain ⟨last, -, hfind, -⟩ := Arena.resolve?_eq_some_iff.1 hresolve
  exact (h.find? hfind).2

/-- Defining a name keeps the other names. -/
theorem Arena.IsWrittenWith.define (h : arena.IsWrittenWith allowed)
    (hname : HasIdentifierChars name) (hs : s.IsWrittenWith allowed) :
    (arena.define name s).1.IsWrittenWith allowed := by
  intro entry hentry
  rcases Arena.mem_entries_of_mem_define hentry with hentry | rfl
  · exact h entry hentry
  · exact ⟨hname, hs⟩

end Arenas

namespace TypeScript

open TypedClient.Module (Fixed isInert_plain)

/-- The documentation of a field names no variable when its texts name none. -/
theorem fixed_of_fieldDoc {f : Field Shape} (h : f.IsWrittenWith Fixed) {text : String}
    (hdoc : fieldDoc f = some text) : Fixed text := by
  have htext : Fixed (Text.trimmed (f.doc.getD "")) := by
    refine Module.fixed_trimmed ?_
    cases hdoc : f.doc with
    | none => exact Module.isFixed_nil
    | some doc => exact h.doc doc hdoc
  have hdefault : ∀ value, f.default = some value → ∀ front : String, '%' ∉ front.toList →
      Fixed (front ++ value.compact) := by
    intro value hvalue front hfront
    exact
      ((isInert_plain front hfront).concat (Module.isInert_compact (h.default value hvalue))).isFixed
  unfold fieldDoc at hdoc
  dsimp only at hdoc
  split at hdoc
  · cases hdoc
  · rename_i value _ hvalue
    cases hdoc
    exact hdefault value hvalue _ (by decide)
  · cases hdoc
    exact htext
  · rename_i value _ hvalue
    cases hdoc
    have hbelow := hdefault value hvalue "@default " (by decide)
    have hboth := Module.allowsLines_isFixed.below _ _ htext hbelow
    have hfeed : "\n@default " = "\n" ++ "@default " := rfl
    rw [hfeed]
    simpa only [String.append_assoc] using hboth

namespace TypeNode

variable {arena : Arena} {s : Shape} {t : TypeNode}

/-- The type of a literal is inert. -/
theorem isInert_ofLiteral {l : Literal} (h : (Shape.literal l).IsWrittenWith Fixed) :
    (ofLiteral l).IsInert := by
  unfold ofLiteral
  split
  · exact isInert_keyword _
  · rename_i value _ hvalue
    exact isInert_literal (Shape.isWrittenWith_literal.1 h value hvalue)
  · exact isInert_keyword _

/-- The type of a reference is inert. -/
theorem isInert_ofReference (harena : arena.IsWrittenWith Fixed) {name : String}
    (hname : HasIdentifierChars name) : (ofReference arena name).IsInert := by
  unfold ofReference
  split
  · split
    · exact isInert_keyword _
    · exact isInert_keyword _
    · rename_i l hresolve
      exact isInert_ofLiteral (harena.resolve? hresolve)
    · exact isInert_keyword _
  · exact isInert_reference hname.not_mem nofun

/-- What is joined of inert types is inert. -/
theorem isInert_ofJoined {c : Connective} {types : List TypeNode} (h : ∀ t ∈ types, t.IsInert) :
    (ofJoined c types).IsInert := by
  unfold ofJoined
  split
  · exact isInert_keyword _
  · exact h _ List.mem_cons_self
  · cases c with
    | or => exact isInert_union h
    | and => exact isInert_intersection h

/-- The members of an object type are inert when the types of the values are. -/
theorem isInertMember_ofWidenedFields {fields : List (Field Shape)}
    {members : List (Field TypeNode)}
    (hfields : ∀ f ∈ fields, f.IsWrittenWith Fixed)
    (hvalues : ∀ f ∈ fields, ∀ t, ofWidened arena f.value = .ok t → t.IsInert)
    (h : ofWidenedFields arena fields = .ok members) : ∀ m ∈ members, IsInertMember m := by
  intro m hm
  obtain ⟨f, hf, hkey, hdoc, hvalue⟩ := exists_of_mem_ofWidenedFields h m hm
  refine ⟨fun name hname => (hfields f hf).key name (hkey ▸ hname), fun text htext => ?_,
    hvalues f hf _ hvalue⟩
  exact fixed_of_fieldDoc (hfields f hf) (hdoc ▸ htext)

/-- The type of a widened shape is inert. -/
theorem isInert_ofWidened (harena : arena.IsWrittenWith Fixed) (hs : s.IsWrittenWith Fixed)
    (h : ofWidened arena s = .ok t) : t.IsInert := by
  induction s using Shape.tree_induction generalizing t with
  | any | void =>
    cases h
    exact isInert_keyword _
  | literal l =>
    cases h
    exact isInert_ofLiteral hs
  | array e ih =>
    obtain ⟨element, helement, h⟩ := ok_of_bind_eq_ok h
    cases h
    exact isInert_array (ih (Shape.isWrittenWith_array.1 hs) helement)
  | object fields ih =>
    obtain ⟨members, hmembers, h⟩ := ok_of_bind_eq_ok h
    cases h
    have hfields := Shape.isWrittenWith_object.1 hs
    exact isInert_object (isInertMember_ofWidenedFields (fun f hf => (hfields f hf).1)
      (fun f hf _ ht => ih f hf (hfields f hf).2 ht) hmembers)
  | joined c members ih =>
    obtain ⟨types, htypes, h⟩ := ok_of_bind_eq_ok h
    cases h
    refine isInert_ofJoined fun t ht => ?_
    obtain ⟨m, hm, ht⟩ := exists_of_mem_ofAllWidened htypes t ht
    exact ih m hm (Shape.isWrittenWith_joined.1 hs m hm) ht
  | tuple members ih =>
    obtain ⟨types, htypes, h⟩ := ok_of_bind_eq_ok h
    cases h
    refine isInert_tuple fun t ht => ?_
    obtain ⟨m, hm, ht⟩ := exists_of_mem_ofAllWidened htypes t ht
    exact ih m hm (Shape.isWrittenWith_tuple.1 hs m hm) ht
  | enumeration e =>
    cases h
    exact isInert_reference (Shape.isWrittenWith_enumeration.1 hs).name.not_mem nofun
  | reference name =>
    cases h
    exact isInert_ofReference harena (Shape.isWrittenWith_reference.1 hs)

/-- The type of a shape is inert. -/
theorem isInert_ofShape (harena : arena.IsWrittenWith Fixed) (hs : s.IsWrittenWith Fixed)
    (h : ofShape arena s = .ok t) : t.IsInert :=
  isInert_ofWidened harena (hs.widen Module.allowsLines_isFixed true) h

end TypeNode

/-- The declaration of a name is inert. -/
theorem isInert_declarationOf {arena : Arena} {name : String} {s : Shape} {d : Declaration}
    (harena : arena.IsWrittenWith Fixed) (hname : HasIdentifierChars name)
    (hs : s.IsWrittenWith Fixed) (h : declarationOf arena name s = .ok d) : d.IsInert := by
  unfold declarationOf at h
  split at h
  · rename_i fields
    obtain ⟨members, hmembers, rfl⟩ := ok_of_map_eq_ok h
    have hwidened : (Shape.object (Shape.widenFields true fields)).IsWrittenWith Fixed :=
      Shape.IsWrittenWith.widen Module.allowsLines_isFixed hs true
    have hfields := Shape.isWrittenWith_object.1 hwidened
    refine Declaration.isInert_interface hname.not_mem ?_
    exact TypeNode.isInertMember_ofWidenedFields (fun f hf => (hfields f hf).1)
      (fun f hf _ ht => TypeNode.isInert_ofWidened harena (hfields f hf).2 ht) hmembers
  · obtain ⟨t, ht, rfl⟩ := ok_of_map_eq_ok h
    exact Declaration.isInert_alias hname.not_mem (TypeNode.isInert_ofShape harena hs ht)

/-! ### The walk -/

/-- A step of the walk that adds inert declarations only. -/
def AddsInert (step : Walk → Except Failure Walk) : Prop :=
  ∀ w w', (∀ d ∈ w.declared, d.IsInert) → step w = .ok w' → ∀ d ∈ w'.declared, d.IsInert

section Walks

variable {follow : String → Walk → Except Failure Walk}

/-- A declaration behind inert ones. -/
theorem forall_mem_declare {w : Walk} {d : Declaration} (hw : ∀ d ∈ w.declared, d.IsInert)
    (hd : d.IsInert) : ∀ d' ∈ (w.declare d).declared, d'.IsInert :=
  List.forall_mem_append.2 ⟨hw, List.forall_mem_singleton.2 hd⟩

theorem addsInert_throughAll {members : List Shape}
    (h : ∀ m ∈ members, AddsInert (Walk.through follow m)) :
    AddsInert (Walk.throughAll follow members) := by
  induction members with
  | nil =>
    intro w w' hw hthrough
    cases hthrough
    exact hw
  | cons m rest ih =>
    obtain ⟨hm, hrest⟩ := List.forall_mem_cons.1 h
    intro w w' hw hthrough
    obtain ⟨middle, hmiddle, hthrough⟩ := ok_of_bind_eq_ok hthrough
    exact ih hrest middle w' (hm w middle hw hmiddle) hthrough

/-- Going through a shape adds inert declarations when following a name does. -/
theorem addsInert_through (hfollow : ∀ name, AddsInert (follow name)) {s : Shape}
    (hs : s.IsWrittenWith Fixed) : AddsInert (Walk.through follow s) := by
  induction s using Shape.tree_induction with
  | any | void | literal =>
    intro w w' hw hthrough
    cases hthrough
    exact hw
  | array e ih => exact ih (Shape.isWrittenWith_array.1 hs)
  | object fields ih =>
    have hthrough : Walk.through follow (.object fields) =
        Walk.throughAll follow (fields.map Field.value) := by
      funext w
      rw [Walk.through, Walk.throughFields_eq]
    rw [hthrough]
    refine addsInert_throughAll fun m hm => ?_
    obtain ⟨f, hf, rfl⟩ := List.mem_map.1 hm
    exact ih f hf (Shape.isWrittenWith_object.1 hs f hf).2
  | joined c members ih =>
    have hmembers := addsInert_throughAll fun m hm =>
      ih m hm (Shape.isWrittenWith_joined.1 hs m hm)
    intro w w' hw hthrough
    rw [Walk.through] at hthrough
    exact hmembers w w' hw hthrough
  | tuple members ih =>
    have hmembers := addsInert_throughAll fun m hm => ih m hm (Shape.isWrittenWith_tuple.1 hs m hm)
    intro w w' hw hthrough
    rw [Walk.through] at hthrough
    exact hmembers w w' hw hthrough
  | enumeration e =>
    intro w w' hw hthrough
    cases hthrough
    exact forall_mem_declare hw
      (Declaration.isInert_enumeration (Shape.isWrittenWith_enumeration.1 hs))
  | reference name => exact hfollow name

/-- Following a name adds inert declarations. -/
theorem addsInert_followWithin {arena : Arena} (harena : arena.IsWrittenWith Fixed) (level : ℕ)
    (name : String) : AddsInert (followWithin arena level name) := by
  induction level generalizing name with
  | zero =>
    intro w w' hw h
    cases h
    exact hw
  | succ level ih =>
    intro w w' hw h
    unfold followWithin at h
    split at h
    · cases h
      exact hw
    · split at h
      · cases h
        exact hw
      · rename_i target hfind
        obtain ⟨hname, htarget⟩ := harena.find? hfind
        obtain ⟨after, hafter, h⟩ := ok_of_bind_eq_ok h
        have hinert := addsInert_through ih htarget (w.meet name) after hw hafter
        split at h
        · cases h
          exact hinert
        · obtain ⟨d, hd, h⟩ := ok_of_bind_eq_ok h
          cases h
          exact forall_mem_declare hinert (isInert_declarationOf harena hname htarget hd)

/-- The declarations that a shape needs are inert. -/
theorem isInert_declarations {arena : Arena} (harena : arena.IsWrittenWith Fixed) {s : Shape}
    (hs : s.IsWrittenWith Fixed) {ds : List Declaration} (h : declarations arena s = .ok ds) :
    ∀ d ∈ ds, d.IsInert := by
  obtain ⟨w, hw, rfl⟩ := ok_of_map_eq_ok h
  exact addsInert_through (addsInert_followWithin harena arena.size) hs Walk.start w nofun hw

end Walks

end TypeScript

end TypedClient
