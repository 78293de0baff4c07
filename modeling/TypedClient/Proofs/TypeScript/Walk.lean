import TypedClient.Proofs.Remaining
import TypedClient.Proofs.Shape.Arena
import TypedClient.Proofs.TypeScript.Mentions

/-!
# What the walk declares

A walk goes through names depth first. Its invariant is that a name that was met is
declared already or still open, and that every declaration mentions names of these
two kinds only. The names of the arena that were not met yet are no more than the
level, so the level never runs out: at level zero every name that says something was
met before. When nothing is open any more, the declarations mention only names that
they declare.
-/

namespace TypedClient

/-- A name that says something has a shape. -/
theorem Shape.exists_find?_of_isTrivial_eq_false {arena : Arena} {name : String}
    (h : (Shape.reference name).isTrivial arena = false) : ∃ s, arena.find? name = some s := by
  rw [isTrivial] at h
  split at h
  · cases h
  · rename_i s hs
    exact ⟨s, hs⟩

/-- The enumerations in a shape are known. -/
def Shape.EnumeratesOnly (known : Enumeration → Prop) (s : Shape) : Prop :=
  ∀ e, Shape.Occurs (.enumeration e) s → known e

/-- There is no enumeration in a reference. -/
theorem Shape.enumeratesOnly_reference {known : Enumeration → Prop} {name : String} :
    (Shape.reference name).EnumeratesOnly known :=
  fun _ h => nomatch h

namespace TypeScript

/-- A declaration of a type: of a name of the arena, or of one of some enumerations. -/
def Declaration.IsTypeOf (arena : Arena) (known : Enumeration → Prop) : Declaration → Prop
  | .interface name _ | .alias name _ => name ∈ arena.names
  | .enumeration e => known e
  | .function _ => False

namespace Walk

/-- The walk has declared a name. -/
def Declares (w : Walk) (name : String) : Prop := ∃ d ∈ w.declared, d.name = name

/-- The second walk has met and declared all that the first has. -/
structure Extends (w w' : Walk) : Prop where
  /-- It has met it. -/
  visited : ∀ name ∈ w.visited, name ∈ w'.visited
  /-- It has declared it. -/
  declared : ∀ d ∈ w.declared, d ∈ w'.declared

/-- Names that were met are declared or open, and no other names are mentioned. -/
structure IsSound (arena : Arena) (known : Enumeration → Prop) (opened : List String) (w : Walk) :
    Prop where
  /-- A name that was met is open or declared. -/
  visited : ∀ name ∈ w.visited, name ∈ opened ∨ w.Declares name
  /-- A name that is mentioned is open or declared. -/
  mentioned : ∀ d ∈ w.declared, ∀ name, d.Mentions name → name ∈ opened ∨ w.Declares name
  /-- Only types are declared. -/
  types : ∀ d ∈ w.declared, d.IsTypeOf arena known

/-- The walk has met and declared what a shape needs. -/
structure Covers (arena : Arena) (s : Shape) (w : Walk) : Prop where
  /-- References that say something were met. -/
  references : ∀ name, Shape.Occurs (.reference name) s →
    (Shape.reference name).isTrivial arena = false → name ∈ w.visited
  /-- Enumerations are declared. -/
  enumerations : ∀ e, Shape.Occurs (.enumeration e) s → w.Declares e.name

/-- How many names of the arena were not met yet. -/
def unvisited (arena : Arena) (w : Walk) : Nat :=
  (arena.names.filter fun name => name ∉ w.visited).length

/-- A step of the walk that starts with no more than `level` names to meet keeps
what is sound, loses nothing and ensures a property. -/
def Advances (arena : Arena) (known : Enumeration → Prop) (level : Nat)
    (step : Walk → Except Failure Walk) (ensured : Walk → Prop) : Prop :=
  ∀ opened w w', unvisited arena w ≤ level → IsSound arena known opened w → step w = .ok w' →
    IsSound arena known opened w' ∧ w.Extends w' ∧ ensured w'

section Extends

variable {arena : Arena} {known : Enumeration → Prop} {opened : List String} {w w' w'' : Walk}
  {name : String} {s : Shape} {d : Declaration}

theorem Extends.refl (w : Walk) : w.Extends w := ⟨fun _ h => h, fun _ h => h⟩

theorem Extends.trans (h : w.Extends w') (h' : w'.Extends w'') : w.Extends w'' :=
  ⟨fun name hn => h'.visited name (h.visited name hn),
    fun d hd => h'.declared d (h.declared d hd)⟩

/-- What is declared stays declared. -/
theorem Declares.mono (h : w.Declares name) (he : w.Extends w') : w'.Declares name := by
  obtain ⟨d, hd, hname⟩ := h
  exact ⟨d, he.declared d hd, hname⟩

/-- What is covered stays covered. -/
theorem Covers.mono (h : Covers arena s w) (he : w.Extends w') : Covers arena s w' :=
  ⟨fun name hr ht => he.visited name (h.references name hr ht),
    fun e ho => (h.enumerations e ho).mono he⟩

/-- A shape is covered when the parts are that its references and enumerations are in. -/
theorem Covers.of_parts (h : ∀ t : Shape, t.IsNamed → Shape.Occurs t s →
    ∃ part, Shape.Occurs t part ∧ Covers arena part w) : Covers arena s w := by
  refine ⟨fun name ho ht => ?_, fun e ho => ?_⟩
  · obtain ⟨part, ho, hpart⟩ := h (.reference name) trivial ho
    exact hpart.references name ho ht
  · obtain ⟨part, ho, hpart⟩ := h (.enumeration e) trivial ho
    exact hpart.enumerations e ho

/-- The names that a covered shape needs are open or declared. -/
theorem Covers.of_needs (h : Covers arena s w) (hs : IsSound arena known opened w)
    (hn : Needs arena s name) : name ∈ opened ∨ w.Declares name := by
  rcases hn with ⟨hr, ht⟩ | ⟨e, he, rfl⟩
  · exact hs.visited name (h.references name hr ht)
  · exact Or.inr (h.enumerations e he)

/-- The names that were not met are what is left of the arena's. -/
theorem unvisited_eq_remaining (arena : Arena) (w : Walk) :
    unvisited arena w = remaining arena.names w.visited := rfl

/-- No more names are left to meet than before. -/
theorem Extends.unvisited_le (h : w.Extends w') : unvisited arena w' ≤ unvisited arena w := by
  rw [unvisited_eq_remaining, unvisited_eq_remaining]
  exact remaining_anti fun name hn => h.visited name hn

/-- Meeting a name of the arena for the first time leaves one name less to meet. -/
theorem unvisited_meet_lt (hn : name ∈ arena.names) (hw : name ∉ w.visited) :
    unvisited arena (w.meet name) < unvisited arena w := by
  rw [unvisited_eq_remaining, unvisited_eq_remaining]
  exact remaining_cons_lt hn hw

theorem extends_meet (w : Walk) (name : String) : w.Extends (w.meet name) :=
  ⟨fun _ h => List.mem_cons_of_mem _ h, fun _ h => h⟩

theorem extends_declare (w : Walk) (d : Declaration) : w.Extends (w.declare d) :=
  ⟨fun _ h => h, fun _ h => List.mem_append_left _ h⟩

theorem declares_declare (w : Walk) (d : Declaration) : (w.declare d).Declares d.name :=
  ⟨d, List.mem_append_right _ (List.mem_singleton_self d), rfl⟩

/-- A name that is met is open until it is declared. -/
theorem IsSound.meet (h : IsSound arena known opened w) (name : String) :
    IsSound arena known (name :: opened) (w.meet name) := by
  refine ⟨fun n hn => ?_, fun d hd n hm => ?_, h.types⟩
  · rcases List.mem_cons.1 hn with rfl | hn
    · exact Or.inl List.mem_cons_self
    · exact (h.visited n hn).imp_left (List.mem_cons_of_mem _)
  · exact (h.mentioned d hd n hm).imp_left (List.mem_cons_of_mem _)

/-- Declaring a type that mentions open and declared names is sound. -/
theorem IsSound.declare (h : IsSound arena known opened w) (ht : d.IsTypeOf arena known)
    (hm : ∀ name, d.Mentions name → name ∈ opened ∨ w.Declares name) :
    IsSound arena known opened (w.declare d) := by
  have hextends := extends_declare w d
  refine ⟨fun n hn => ?_, fun d' hd' n hn => ?_, fun d' hd' => ?_⟩
  · exact (h.visited n hn).imp_right fun hw => hw.mono hextends
  · rcases List.mem_append.1 hd' with hd' | hd'
    · exact (h.mentioned d' hd' n hn).imp_right fun hw => hw.mono hextends
    · rw [List.mem_singleton.1 hd'] at hn
      exact (hm n hn).imp_right fun hw => hw.mono hextends
  · rcases List.mem_append.1 hd' with hd' | hd'
    · exact h.types d' hd'
    · rw [List.mem_singleton.1 hd']
      exact ht

/-- A name that is declared need not be open. -/
theorem IsSound.close (h : IsSound arena known (name :: opened) w) (hd : w.Declares name) :
    IsSound arena known opened w := by
  have hclose : ∀ n, n ∈ name :: opened ∨ w.Declares n → n ∈ opened ∨ w.Declares n := by
    rintro n (hn | hn)
    · rcases List.mem_cons.1 hn with rfl | hn
      · exact Or.inr hd
      · exact Or.inl hn
    · exact Or.inr hn
  exact ⟨fun n hn => hclose n (h.visited n hn), fun d hd n hm => hclose n (h.mentioned d hd n hm),
    h.types⟩

end Extends

section Through

variable {arena : Arena} {known : Enumeration → Prop} {level : Nat}
  {follow : String → Walk → Except Failure Walk}

theorem throughFields_eq (fields : List (Field Shape)) :
    throughFields follow fields = throughAll follow (fields.map Field.value) := by
  induction fields with
  | nil => rfl
  | cons f rest ih =>
    funext w
    rw [throughFields, ih, List.map_cons, throughAll]

/-- Going through shapes in order advances when going through each of them does. -/
theorem advances_throughAll {members : List Shape}
    (h : ∀ m ∈ members, Advances arena known level (through follow m) (Covers arena m)) :
    Advances arena known level (throughAll follow members) fun w =>
      ∀ m ∈ members, Covers arena m w := by
  induction members with
  | nil =>
    intro opened w w' _ hs hw
    cases hw
    exact ⟨hs, .refl w, by simp⟩
  | cons m rest ih =>
    intro opened w w' hlevel hs hw
    obtain ⟨middle, hmiddle, hw⟩ := ok_of_bind_eq_ok hw
    obtain ⟨hs, hextends, hcovers⟩ := h m List.mem_cons_self opened w middle hlevel hs hmiddle
    obtain ⟨hs, hextends', hrest⟩ := ih (fun m hm => h m (List.mem_cons_of_mem _ hm)) opened middle
      w' (hextends.unvisited_le.trans hlevel) hs hw
    refine ⟨hs, hextends.trans hextends', List.forall_mem_cons.2 ⟨hcovers.mono hextends', hrest⟩⟩

/-- Going through a shape is going through its parts, when what is named in it is
named in one of these. -/
theorem advances_of_parts {s : Shape} {parts : List Shape}
    (hthrough : through follow s = throughAll follow parts)
    (hparts : ∀ t : Shape, t.IsNamed → Shape.Occurs t s → ∃ part ∈ parts, Shape.Occurs t part)
    (h : ∀ part ∈ parts, Advances arena known level (through follow part) (Covers arena part)) :
    Advances arena known level (through follow s) (Covers arena s) := by
  intro opened w w' hlevel hs hw
  rw [hthrough] at hw
  obtain ⟨hs, hextends, hcovers⟩ := advances_throughAll h opened w w' hlevel hs hw
  refine ⟨hs, hextends, .of_parts fun t hn ho => ?_⟩
  obtain ⟨part, hpart, ho⟩ := hparts t hn ho
  exact ⟨part, ho, hcovers part hpart⟩

/-- Going through a shape advances and covers it when following a name advances and
meets the name. -/
theorem advances_through
    (hfollow : ∀ name, Advances arena known level (follow name) fun w =>
      (Shape.reference name).isTrivial arena = false → name ∈ w.visited)
    (s : Shape) (hknown : s.EnumeratesOnly known) :
    Advances arena known level (through follow s) (Covers arena s) := by
  induction s using Shape.tree_induction with
  | any | void | literal l =>
    refine advances_of_parts (funext fun w => rfl) (fun t hn ho => ?_)
      fun part hpart => absurd hpart List.not_mem_nil
    cases ho
    exact hn.elim
  | array e ih =>
    intro opened w w' hlevel hs hw
    obtain ⟨hs, hextends, hcovers⟩ :=
      ih (fun e ho => hknown e (.element ho)) opened w w' hlevel hs hw
    refine ⟨hs, hextends, .of_parts fun t hn ho => ?_⟩
    cases ho with
    | whole => exact hn.elim
    | element ho => exact ⟨e, ho, hcovers⟩
  | object fields ih =>
    have hthrough : through follow (.object fields) =
        throughAll follow (fields.map Field.value) := by
      funext w
      rw [through, throughFields_eq]
    refine advances_of_parts hthrough (fun t hn ho => ?_) fun part hpart => ?_
    · cases ho with
      | whole => exact hn.elim
      | value hf ho => exact ⟨_, List.mem_map_of_mem hf, ho⟩
    · obtain ⟨f, hf, rfl⟩ := List.mem_map.1 hpart
      exact ih f hf fun e ho => hknown e (.value hf ho)
  | joined c members ih =>
    refine advances_of_parts (funext fun w => by rw [through]) (fun t hn ho => ?_)
      fun m hm => ih m hm fun e ho => hknown e (.member hm ho)
    cases ho with
    | whole => exact hn.elim
    | member hm ho => exact ⟨_, hm, ho⟩
  | tuple members ih =>
    refine advances_of_parts (funext fun w => by rw [through]) (fun t hn ho => ?_)
      fun m hm => ih m hm fun e ho => hknown e (.position hm ho)
    cases ho with
    | whole => exact hn.elim
    | position hm ho => exact ⟨_, hm, ho⟩
  | enumeration e =>
    intro opened w w' _ hs hw
    cases hw
    refine ⟨hs.declare (hknown e .whole) (fun name hm => by cases hm), extends_declare w _, ?_⟩
    refine ⟨fun name ho => (nomatch ho), fun e' ho => ?_⟩
    cases ho
    exact declares_declare w (.enumeration e)
  | reference target =>
    intro opened w w' hlevel hs hw
    obtain ⟨hs, hextends, hvisited⟩ := hfollow target opened w w' hlevel hs hw
    refine ⟨hs, hextends, fun name ho ht => ?_, fun e ho => nomatch ho⟩
    cases ho
    exact hvisited ht

end Through

end Walk

section Declarations

variable {arena : Arena} {known : Enumeration → Prop}

/-- The declaration of a name has that name, and is one of a type. -/
theorem declarationOf_name {name : String} {s : Shape} {d : Declaration}
    (h : declarationOf arena name s = .ok d) (hn : name ∈ arena.names) :
    d.name = name ∧ d.IsTypeOf arena known := by
  unfold declarationOf at h
  split at h
  · obtain ⟨members, -, rfl⟩ := ok_of_map_eq_ok h
    exact ⟨rfl, hn⟩
  · obtain ⟨t, -, rfl⟩ := ok_of_map_eq_ok h
    exact ⟨rfl, hn⟩

/-- Following a name advances and meets it, at every level. -/
theorem advances_followWithin
    (hknown : ∀ name s, arena.find? name = some s → s.EnumeratesOnly known)
    (level : Nat) (name : String) :
    Walk.Advances arena known level (followWithin arena level name) fun w =>
      (Shape.reference name).isTrivial arena = false → name ∈ w.visited := by
  induction level generalizing name with
  | zero =>
    intro opened w w' hlevel hs hw
    cases hw
    refine ⟨hs, .refl w, fun ht => ?_⟩
    -- nothing is left to meet, so the name was met
    obtain ⟨s, hfind⟩ := Shape.exists_find?_of_isTrivial_eq_false ht
    rw [Walk.unvisited_eq_remaining] at hlevel
    exact mem_of_remaining_eq_zero (Nat.le_zero.1 hlevel) (Arena.mem_names_of_find? hfind)
  | succ level ih =>
    intro opened w w' hlevel hs hw
    unfold followWithin at hw
    split at hw
    · rename_i hskip
      cases hw
      refine ⟨hs, .refl w, fun ht => ?_⟩
      simpa [ht] using hskip
    · rename_i hskip
      have hnew : (Shape.reference name).isTrivial arena = false ∧ name ∉ w.visited := by
        simpa using hskip
      obtain ⟨ht, hvisited⟩ := hnew
      obtain ⟨s, hfind⟩ := Shape.exists_find?_of_isTrivial_eq_false ht
      have hname : name ∈ arena.names := Arena.mem_names_of_find? hfind
      have hless := Walk.unvisited_meet_lt hname hvisited
      rw [hfind] at hw
      obtain ⟨after, hafter, hw⟩ := ok_of_bind_eq_ok hw
      obtain ⟨hsound, hextends, hcovers⟩ := Walk.advances_through ih s (hknown name s hfind)
        (name :: opened) (w.meet name) after (by omega) (hs.meet name) hafter
      have hmet : name ∈ after.visited := hextends.visited name List.mem_cons_self
      have hwafter : w.Extends after := (Walk.extends_meet w name).trans hextends
      split at hw
      · rename_i hself
        cases hw
        refine ⟨hsound.close ?_, hwafter, fun _ => hmet⟩
        cases s with
        | enumeration e =>
          obtain rfl : e.name = name := by simpa [declaresItself] using hself
          exact hcovers.enumerations e .whole
        | _ => cases hself
      · obtain ⟨d, hd, hw⟩ := ok_of_bind_eq_ok hw
        cases hw
        obtain ⟨hdname, htype⟩ : d.name = name ∧ d.IsTypeOf arena known :=
          declarationOf_name hd hname
        have hdeclared := hsound.declare htype fun n hm =>
          hcovers.of_needs hsound (needs_of_mentions_declarationOf hd hm)
        refine ⟨hdeclared.close ?_, hwafter.trans (Walk.extends_declare after d), fun _ => hmet⟩
        exact hdname ▸ Walk.declares_declare after d

/-- The declarations that a shape needs are of types, and declare what they mention
and what the shape needs. -/
structure AreClosed (arena : Arena) (known : Enumeration → Prop) (s : Shape)
    (ds : List Declaration) : Prop where
  /-- Only types are declared. -/
  types : ∀ d ∈ ds, d.IsTypeOf arena known
  /-- A name that is mentioned is declared. -/
  mentioned : ∀ d ∈ ds, ∀ name, d.Mentions name → ∃ d' ∈ ds, d'.name = name
  /-- A name that the shape needs is declared. -/
  needed : ∀ name, Needs arena s name → ∃ d ∈ ds, d.name = name

/-- The declarations of a shape are closed. -/
theorem areClosed_declarations {s : Shape} {ds : List Declaration}
    (hknown : ∀ name s, arena.find? name = some s → s.EnumeratesOnly known)
    (hs : s.EnumeratesOnly known)
    (h : declarations arena s = .ok ds) : AreClosed arena known s ds := by
  obtain ⟨w, hw, rfl⟩ := ok_of_map_eq_ok h
  have hlevel : Walk.unvisited arena Walk.start ≤ arena.size := by
    rw [Walk.unvisited_eq_remaining, Arena.size, ← List.length_map Prod.fst]
    exact remaining_le_length
  have hstart : Walk.IsSound arena known [] Walk.start :=
    ⟨fun _ hn => absurd hn List.not_mem_nil, fun _ hd => absurd hd List.not_mem_nil,
      fun _ hd => absurd hd List.not_mem_nil⟩
  have hadvances := Walk.advances_through (advances_followWithin hknown arena.size) s hs
  obtain ⟨hsound, -, hcovers⟩ := hadvances [] Walk.start w hlevel hstart hw
  refine ⟨hsound.types, fun d hd name hm => ?_, fun name hn => ?_⟩
  · exact (hsound.mentioned d hd name hm).resolve_left List.not_mem_nil
  · exact (hcovers.of_needs hsound hn).resolve_left List.not_mem_nil

end Declarations

end TypeScript

end TypedClient
