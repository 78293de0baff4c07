import TypedClient.Proofs.Reduction.EmptyNames
import TypedClient.Proofs.TypeScript.Ordering

/-!
# When types and declarations fail

A type fails at an empty name in its shape, wherever the name stands. The declarations of a
shape fail at an empty name in the shape of a name that they lead to, and not in the shape
itself, which is gone through but not declared. A walk that ends has gone through every name
that it met, so all the names that the shape leads to were met and have been declared.
-/

namespace TypedClient.TypeScript

/-- A result is a failure. -/
def Fails {α : Type} (result : Except Failure α) : Prop := ∃ e, result = .error e

section Fails

variable {α β : Type} {x : Except Failure α}

theorem not_fails_ok (a : α) : ¬ Fails (.ok a) := by
  rintro ⟨e, h⟩
  cases h

/-- What does not fail has a result. -/
theorem not_fails_iff : ¬ Fails x ↔ ∃ a, x = .ok a := by
  cases x with
  | error e => exact iff_of_false (not_not_intro ⟨e, rfl⟩) (by rintro ⟨a, ⟨⟩⟩)
  | ok a => exact iff_of_true (not_fails_ok a) ⟨a, rfl⟩

theorem fails_map_iff {f : α → β} : Fails (x.map f) ↔ Fails x := by
  cases x with
  | error e => exact iff_of_true ⟨e, rfl⟩ ⟨e, rfl⟩
  | ok a => exact iff_of_false (not_fails_ok (f a)) (not_fails_ok a)

/-- Of two steps in a row where the second one fails or not whatever the first one results in,
one fails. -/
theorem fails_bind_iff {f : α → Except Failure β} {p : Prop} (h : ∀ a, Fails (f a) ↔ p) :
    Fails (x >>= f) ↔ Fails x ∨ p := by
  cases x with
  | error e => exact iff_of_true ⟨e, rfl⟩ (.inl ⟨e, rfl⟩)
  | ok a => exact (h a).trans (or_iff_right (not_fails_ok a)).symm

/-- A step whose result is only changed. -/
theorem fails_bind_pure_iff {f : α → β} : Fails (x >>= fun a => pure (f a)) ↔ Fails x :=
  (fails_bind_iff fun a => iff_of_false (not_fails_ok (f a)) not_false).trans
    (or_iff_left not_false)

end Fails

section Types

variable {arena : Arena}

namespace TypeNode

/-- The types of shapes fail when one of them does. -/
theorem fails_ofAllWidened_iff {members : List Shape} :
    Fails (ofAllWidened arena members) ↔ ∃ m ∈ members, Fails (ofWidened arena m) := by
  induction members with
  | nil => exact iff_of_false (not_fails_ok []) (by simp)
  | cons m rest ih =>
    rw [ofAllWidened, fails_bind_iff fun _ => fails_bind_pure_iff, ih]
    simp

/-- The members for fields fail at an empty name and when the type of a value does. -/
theorem fails_ofWidenedFields_iff {fields : List (Field Shape)} :
    Fails (ofWidenedFields arena fields) ↔
      .named "" ∈ Field.keys fields ∨ ∃ f ∈ fields, Fails (ofWidened arena f.value) := by
  induction fields with
  | nil => exact iff_of_false (not_fails_ok []) (by simp [Field.keys])
  | cons f rest ih =>
    unfold ofWidenedFields
    split
    · rename_i hname
      exact iff_of_true ⟨_, rfl⟩ (.inl (by simp [Field.keys, hname]))
    · rename_i hname
      have hkeys : Key.named "" ∈ Field.keys (f :: rest) ↔ Key.named "" ∈ Field.keys rest := by
        simp [Field.keys, Ne.symm hname]
      rw [hkeys]
      change Fails (ofWidened arena f.value >>= fun first => ofWidenedFields arena rest >>=
        fun others => pure (_ :: others)) ↔ _
      rw [fails_bind_iff fun _ => fails_bind_pure_iff, ih]
      simp [or_left_comm]

/-- The type of a widened shape fails at the empty names of fields. -/
theorem fails_ofWidened_iff {s : Shape} : Fails (ofWidened arena s) ↔ s.HasEmptyField := by
  induction s using Shape.tree_induction with
  | array e ih =>
    rw [ofWidened, fails_bind_pure_iff, ih, Shape.hasEmptyField_iff (s := .array e)]
    simp [Shape.parts]
  | object fields ih =>
    have hvalues : (∃ f ∈ fields, Fails (ofWidened arena f.value)) ↔
        ∃ part ∈ (Shape.object fields).parts, part.HasEmptyField := by
      simp only [Shape.parts, List.mem_map, exists_exists_and_eq_and]
      exact exists_congr fun f => and_congr_right (ih f)
    rw [ofWidened, fails_bind_pure_iff, fails_ofWidenedFields_iff, Shape.hasEmptyField_iff, hvalues]
    simp
  | joined c members ih =>
    rw [ofWidened, fails_bind_pure_iff, fails_ofAllWidened_iff, Shape.hasEmptyField_iff,
      or_iff_right (by simp)]
    exact exists_congr fun m => and_congr_right (ih m)
  | tuple members ih =>
    rw [ofWidened, fails_bind_pure_iff, fails_ofAllWidened_iff, Shape.hasEmptyField_iff,
      or_iff_right (by simp)]
    exact exists_congr fun m => and_congr_right (ih m)
  | _ =>
    refine iff_of_false (not_fails_ok _) ?_
    rintro ⟨fields, ho, -⟩
    cases ho

/-- The type of a shape with an empty name fails, if values have every key once. -/
theorem fails_ofShape_iff {s : Shape} (hu : s.HasUniqueValues) :
    Fails (ofShape arena s) ↔ s.HasEmptyName :=
  fails_ofWidened_iff.trans ⟨Shape.HasEmptyField.of_widen, Shape.HasEmptyName.widen hu⟩

end TypeNode

/-- The declaration of a name fails as the type of its shape does. -/
theorem fails_declarationOf_iff {name : String} {s : Shape} :
    Fails (declarationOf arena name s) ↔ Fails (TypeNode.ofShape arena s) := by
  unfold declarationOf
  split
  · rw [fails_map_iff, TypeNode.ofShape, Shape.widen, TypeNode.ofWidened, fails_bind_pure_iff]
    rfl
  · exact fails_map_iff

end Types

/-- A name that a shape leads to, through references that say something. -/
def LeadsFrom (arena : Arena) (s : Shape) (name : String) : Prop :=
  ∃ first, Shape.Occurs (.reference first) s ∧ (Shape.reference first).isTrivial arena = false ∧
    Relation.ReflTransGen arena.LeadsTo first name

namespace Walk

section Failing

variable {follow : String → Walk → Except Failure Walk}

/-- Going through shapes fails in one of them. -/
theorem exists_fails_of_throughAll {members : List Shape} {w : Walk}
    (h : Fails (throughAll follow members w)) : ∃ m ∈ members, ∃ w, Fails (through follow m w) := by
  induction members generalizing w with
  | nil => exact absurd h (not_fails_ok w)
  | cons m rest ih =>
    obtain ⟨e, he⟩ := h
    rcases error_of_bind_eq_error he with he | ⟨middle, -, he⟩
    · exact ⟨m, List.mem_cons_self, w, e, he⟩
    · obtain ⟨m, hm, hfails⟩ := ih ⟨e, he⟩
      exact ⟨m, List.mem_cons_of_mem _ hm, hfails⟩

/-- Going through a shape fails where a reference in it is followed. -/
theorem exists_fails_of_through {s : Shape} {w : Walk} (h : Fails (through follow s w)) :
    ∃ name, Shape.Occurs (.reference name) s ∧ ∃ w, Fails (follow name w) := by
  induction s using Shape.tree_induction generalizing w with
  | any | void | literal | enumeration => exact absurd h (not_fails_ok _)
  | reference name => exact ⟨name, .whole, w, h⟩
  | array e ih =>
    obtain ⟨name, ho, hfails⟩ := ih h
    exact ⟨name, .element ho, hfails⟩
  | object fields ih =>
    rw [through, throughFields_eq] at h
    obtain ⟨m, hm, w, h⟩ := exists_fails_of_throughAll h
    obtain ⟨f, hf, rfl⟩ := List.mem_map.1 hm
    obtain ⟨name, ho, hfails⟩ := ih f hf h
    exact ⟨name, .value hf ho, hfails⟩
  | joined c members ih =>
    rw [through] at h
    obtain ⟨m, hm, w, h⟩ := exists_fails_of_throughAll h
    obtain ⟨name, ho, hfails⟩ := ih m hm h
    exact ⟨name, .member hm ho, hfails⟩
  | tuple members ih =>
    rw [through] at h
    obtain ⟨m, hm, w, h⟩ := exists_fails_of_throughAll h
    obtain ⟨name, ho, hfails⟩ := ih m hm h
    exact ⟨name, .position hm ho, hfails⟩

end Failing

/-- The shape of every name that was met and is not open is covered, and can be declared. -/
def IsSettled (arena : Arena) (opened : List String) (w : Walk) : Prop :=
  ∀ name ∈ w.visited, name ∉ opened → ∀ s, arena.find? name = some s →
    Covers arena s w ∧ ¬ Fails (declarationOf arena name s)

section IsSettled

variable {arena : Arena} {opened : List String} {w w' : Walk} {name : String} {s : Shape}

/-- A name may be opened. -/
theorem IsSettled.meet (h : IsSettled arena opened w) (name : String) :
    IsSettled arena (name :: opened) (w.meet name) := by
  intro n hn hclosed s hs
  rw [List.mem_cons, not_or] at hclosed
  obtain ⟨hcovers, hdeclared⟩ := h n ((List.mem_cons.1 hn).resolve_left hclosed.1) hclosed.2 s hs
  exact ⟨hcovers.mono (extends_meet w name), hdeclared⟩

/-- A declaration settles what was settled. -/
theorem IsSettled.declare (h : IsSettled arena opened w) (d : Declaration) :
    IsSettled arena opened (w.declare d) := by
  intro n hn hclosed s hs
  obtain ⟨hcovers, hdeclared⟩ := h n hn hclosed s hs
  exact ⟨hcovers.mono (extends_declare w d), hdeclared⟩

/-- A name is closed when its shape is covered and can be declared. -/
theorem IsSettled.close (h : IsSettled arena (name :: opened) w) (hfind : arena.find? name = some s)
    (hcovers : Covers arena s w) (hdeclared : ¬ Fails (declarationOf arena name s)) :
    IsSettled arena opened w := by
  intro n hn hclosed s' hs'
  by_cases heq : n = name
  · subst heq
    obtain rfl := Option.some.inj (hfind.symm.trans hs')
    exact ⟨hcovers, hdeclared⟩
  · exact h n hn (List.not_mem_cons_of_ne_of_not_mem heq hclosed) s' hs'

/-- When nothing is open, all that a name leads to was met if the name was. -/
theorem IsSettled.mem_visited (h : IsSettled arena [] w) {first : String}
    (hfirst : first ∈ w.visited) (hleads : Relation.ReflTransGen arena.LeadsTo first name) :
    name ∈ w.visited := by
  induction hleads with
  | refl => exact hfirst
  | @tail middle last _ hstep ih =>
    obtain ⟨s, hfind, ho, ht⟩ := hstep
    exact (h middle ih List.not_mem_nil s hfind).1.references last ho ht

/-- A step that starts with no more than `level` names to meet keeps sound and settled what is,
and loses nothing. -/
def KeepsSettled (arena : Arena) (opened : List String) (level : Nat) (w w' : Walk) : Prop :=
  unvisited arena w ≤ level → IsSound arena (fun _ => True) opened w → IsSettled arena opened w →
    IsSound arena (fun _ => True) opened w' ∧ IsSettled arena opened w' ∧ w.Extends w'

theorem KeepsSettled.refl {level : Nat} (w : Walk) : KeepsSettled arena opened level w w :=
  fun _ hs hsettled => ⟨hs, hsettled, .refl w⟩

theorem KeepsSettled.trans {level : Nat} (w w' w'' : Walk)
    (h : KeepsSettled arena opened level w w') (h' : KeepsSettled arena opened level w' w'') :
    KeepsSettled arena opened level w w'' := by
  intro hlevel hs hsettled
  obtain ⟨hs, hsettled, hextends⟩ := h hlevel hs hsettled
  obtain ⟨hs, hsettled, hextends'⟩ := h' (hextends.unvisited_le.trans hlevel) hs hsettled
  exact ⟨hs, hsettled, hextends.trans hextends'⟩

/-- Going through a shape keeps settled what is when following its references does. -/
theorem keepsSettled_through {follow : String → Walk → Except Failure Walk} {level : Nat}
    (hfollow : ∀ name w w', follow name w = .ok w' → KeepsSettled arena opened level w w')
    (hw : through follow s w = .ok w') : KeepsSettled arena opened level w w' := by
  refine rel_through KeepsSettled.refl KeepsSettled.trans (fun e w _ hs hsettled => ?_)
    (fun name _ => hfollow name) hw
  have hsound := hs.declare (d := .enumeration e) trivial fun _ => by rintro ⟨⟩
  exact ⟨hsound, hsettled.declare _, extends_declare w _⟩

end IsSettled

end Walk

section Declarations

variable {arena : Arena} {opened : List String} {w w' : Walk} {s : Shape}

/-- Following a name keeps settled what is, at every level. -/
theorem keepsSettled_followWithin (level : Nat) (name : String)
    (hw : followWithin arena level name w = .ok w') :
    Walk.KeepsSettled arena opened level w w' := by
  intro hlevel hs hsettled
  have hadvances : ∀ level name, Walk.Advances arena (fun _ => True) level
      (followWithin arena level name) fun w =>
        (Shape.reference name).isTrivial arena = false → name ∈ w.visited :=
    advances_followWithin fun _ s _ => enumeratesOnly_true s
  obtain ⟨hsound, hextends, -⟩ := hadvances level name opened w w' hlevel hs hw
  refine ⟨hsound, ?_, hextends⟩
  clear hsound hextends
  induction level generalizing name opened w w' with
  | zero =>
    cases hw
    exact hsettled
  | succ level ih =>
    unfold followWithin at hw
    split at hw
    · cases hw
      exact hsettled
    · rename_i hskip
      obtain ⟨ht, hnew⟩ : (Shape.reference name).isTrivial arena = false ∧ name ∉ w.visited := by
        simpa using hskip
      obtain ⟨s, hfind⟩ := Shape.exists_find?_of_isTrivial_eq_false ht
      have hless := Walk.unvisited_meet_lt (Arena.mem_names_of_find? hfind) hnew
      have hbelow : Walk.unvisited arena (w.meet name) ≤ level := by omega
      rw [hfind] at hw
      obtain ⟨after, hafter, hw⟩ := ok_of_bind_eq_ok hw
      obtain ⟨-, -, hcovers⟩ := Walk.advances_through (hadvances level) s
        (enumeratesOnly_true s) (name :: opened) (w.meet name) after hbelow (hs.meet name) hafter
      obtain ⟨-, hsettled, -⟩ := Walk.keepsSettled_through
        (fun next w w' hw hlevel hs hsettled => by
          obtain ⟨hsound, hextends, -⟩ := hadvances level next _ w w' hlevel hs hw
          exact ⟨hsound, ih next hw hlevel hs hsettled, hextends⟩)
        hafter hbelow (hs.meet name) (hsettled.meet name)
      split at hw
      · rename_i hself
        cases hw
        -- an enumeration that declares itself has no fields
        refine hsettled.close hfind hcovers ?_
        cases s with
        | enumeration e => exact not_fails_ok _
        | _ => cases hself
      · obtain ⟨d, hd, hw⟩ := ok_of_bind_eq_ok hw
        cases hw
        refine (hsettled.declare d).close hfind (hcovers.mono (Walk.extends_declare after d)) ?_
        rw [hd]
        exact not_fails_ok d

/-- Following a name fails where the shape of a name that it leads to cannot be declared. -/
theorem exists_fails_of_followWithin {level : Nat} {name : String}
    (h : Fails (followWithin arena level name w)) :
    (Shape.reference name).isTrivial arena = false ∧
      ∃ last s, Relation.ReflTransGen arena.LeadsTo name last ∧ arena.find? last = some s ∧
        Fails (declarationOf arena last s) := by
  induction level generalizing name w with
  | zero => exact absurd h (not_fails_ok w)
  | succ level ih =>
    unfold followWithin at h
    split at h
    · exact absurd h (not_fails_ok w)
    · rename_i hskip
      obtain ⟨ht, -⟩ : (Shape.reference name).isTrivial arena = false ∧ name ∉ w.visited := by
        simpa using hskip
      refine ⟨ht, ?_⟩
      split at h
      · exact absurd h (not_fails_ok _)
      · rename_i s hfind
        obtain ⟨e, he⟩ := h
        rcases error_of_bind_eq_error he with he | ⟨after, -, he⟩
        · obtain ⟨next, ho, w, hfails⟩ := Walk.exists_fails_of_through ⟨e, he⟩
          obtain ⟨hnext, last, s', hleads, hfind', hfails⟩ := ih hfails
          exact ⟨last, s', .head ⟨s, hfind, ho, hnext⟩ hleads, hfind', hfails⟩
        · split at he
          · exact absurd ⟨e, he⟩ (not_fails_ok after)
          · refine ⟨name, s, .refl, hfind, ?_⟩
            rcases error_of_bind_eq_error he with he | ⟨d, -, he⟩
            · exact ⟨e, he⟩
            · cases he

/-- The declarations of a shape fail exactly when the shape of a name that it leads to cannot be
declared. -/
theorem fails_declarations_iff : Fails (declarations arena s) ↔
    ∃ name target, LeadsFrom arena s name ∧ arena.find? name = some target ∧
      Fails (declarationOf arena name target) := by
  rw [declarations, fails_map_iff]
  constructor
  · intro h
    obtain ⟨first, ho, w, hfails⟩ := Walk.exists_fails_of_through h
    obtain ⟨ht, last, target, hleads, hfind, hfails⟩ := exists_fails_of_followWithin hfails
    exact ⟨last, target, ⟨first, ho, ht, hleads⟩, hfind, hfails⟩
  · rintro ⟨name, target, ⟨first, ho, ht, hleads⟩, hfind, hfails⟩
    by_contra hok
    obtain ⟨w, hw⟩ := not_fails_iff.1 hok
    have hlevel : Walk.unvisited arena Walk.start ≤ arena.size := by
      rw [Walk.unvisited_eq_remaining, Arena.size, ← List.length_map Prod.fst]
      exact remaining_le_length
    have hstart : Walk.IsSound arena (fun _ => True) [] Walk.start :=
      ⟨fun _ hn => absurd hn List.not_mem_nil, fun _ hd => absurd hd List.not_mem_nil,
        fun _ hd => absurd hd List.not_mem_nil⟩
    have hfollow : ∀ name, Walk.Advances arena (fun _ => True) arena.size
        (followWithin arena arena.size name) fun w =>
          (Shape.reference name).isTrivial arena = false → name ∈ w.visited :=
      advances_followWithin (fun _ s _ => enumeratesOnly_true s) arena.size
    obtain ⟨-, -, hcovers⟩ := Walk.advances_through hfollow s (enumeratesOnly_true s) []
      Walk.start w hlevel hstart hw
    have hkeeps : Walk.KeepsSettled arena [] arena.size Walk.start w :=
      Walk.keepsSettled_through (fun name w w' hw => keepsSettled_followWithin _ name hw) hw
    obtain ⟨-, hsettled, -⟩ := hkeeps hlevel hstart fun _ hn => absurd hn List.not_mem_nil
    have hmet : name ∈ w.visited := hsettled.mem_visited (hcovers.references first ho ht) hleads
    exact (hsettled name hmet List.not_mem_nil target hfind).2 hfails

end Declarations

end TypedClient.TypeScript
