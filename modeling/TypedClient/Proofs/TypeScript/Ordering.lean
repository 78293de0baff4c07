import Mathlib.Logic.Relation
import TypedClient.Proofs.TypeScript.Walk

/-!
# The order of declarations

A name is declared when the walk leaves it, after all that its shape leads to. What is
open at that moment is a chain: each open name leads to the name that is left. So a
declaration mentions names that are declared before it, and names that are open still,
which lead back to the declared one. Where no name leads back to itself nothing
that is mentioned is open, and all that a declaration mentions is declared before it.
-/

namespace TypedClient

/-- The shape of a name has a reference to the next name, and that says something. -/
def Arena.LeadsTo (arena : Arena) (name next : String) : Prop :=
  ∃ s, arena.find? name = some s ∧ Shape.Occurs (.reference next) s ∧
    (Shape.reference next).isTrivial arena = false

namespace TypeScript

/-- Whether a declaration gives a name to a shape of the arena. -/
def Declaration.isEntry : Declaration → Bool
  | .interface _ _ | .alias _ _ => true
  | .enumeration _ | .function _ => false

/-- The names that declarations give to shapes of the arena, in order. -/
def entryNames (ds : List Declaration) : List String :=
  (ds.filter Declaration.isEntry).map Declaration.name

/-- The declaration of a name is an entry of that name. -/
theorem isEntry_declarationOf {arena : Arena} {name : String} {s : Shape} {d : Declaration}
    (h : declarationOf arena name s = .ok d) : d.isEntry = true ∧ d.name = name := by
  unfold declarationOf at h
  split at h
  · obtain ⟨members, -, rfl⟩ := ok_of_map_eq_ok h
    exact ⟨rfl, rfl⟩
  · obtain ⟨t, -, rfl⟩ := ok_of_map_eq_ok h
    exact ⟨rfl, rfl⟩

namespace Walk

section Through

variable {follow : String → Walk → Except Failure Walk} {R : Walk → Walk → Prop}

/-- Going through shapes in order is in a transitive relation when going through each is. -/
theorem rel_throughAll (refl : ∀ w, R w w) (trans : ∀ w w' w'', R w w' → R w' w'' → R w w'')
    {members : List Shape}
    (h : ∀ m ∈ members, ∀ w w', through follow m w = .ok w' → R w w') {w w' : Walk}
    (hw : throughAll follow members w = .ok w') : R w w' := by
  induction members generalizing w with
  | nil =>
    cases hw
    exact refl _
  | cons m rest ih =>
    obtain ⟨middle, hmiddle, hw⟩ := ok_of_bind_eq_ok hw
    have hfirst : R w middle := h m List.mem_cons_self w middle hmiddle
    have hrest : R middle w' := ih (fun m hm => h m (List.mem_cons_of_mem _ hm)) hw
    exact trans w middle w' hfirst hrest

/-- Going through a shape is in a transitive relation when declaring its enumerations and
following its references is. -/
theorem rel_through (refl : ∀ w, R w w) (trans : ∀ w w' w'', R w w' → R w' w'' → R w w'')
    {s : Shape} (hdeclare : ∀ e w, R w (w.declare (.enumeration e)))
    (hfollow : ∀ name, Shape.Occurs (.reference name) s →
      ∀ w w', follow name w = .ok w' → R w w')
    {w w' : Walk} (hw : through follow s w = .ok w') : R w w' := by
  induction s using Shape.tree_induction generalizing w w' with
  | any | void | literal l =>
    cases hw
    exact refl _
  | array e ih => exact ih (fun name ho => hfollow name (.element ho)) hw
  | object fields ih =>
    rw [through, throughFields_eq] at hw
    refine rel_throughAll refl trans (fun m hm w w' hw => ?_) hw
    obtain ⟨f, hf, rfl⟩ := List.mem_map.1 hm
    exact ih f hf (fun name ho => hfollow name (.value hf ho)) hw
  | joined c members ih =>
    rw [through] at hw
    exact rel_throughAll refl trans
      (fun m hm w w' hw => ih m hm (fun name ho => hfollow name (.member hm ho)) hw) hw
  | tuple members ih =>
    rw [through] at hw
    exact rel_throughAll refl trans
      (fun m hm w w' hw => ih m hm (fun name ho => hfollow name (.position hm ho)) hw) hw
  | enumeration e =>
    cases hw
    exact hdeclare e w
  | reference name => exact hfollow name .whole w w' hw

end Through

/-- Names are declared once and when they are not open, and what a declaration mentions
is declared before it or leads back to it. -/
structure IsOrdered (arena : Arena) (opened : List String) (w : Walk) : Prop where
  /-- What is open was met. -/
  visited : ∀ name ∈ opened, name ∈ w.visited
  /-- A name that is declared was met and is not open. -/
  closed : ∀ d ∈ w.declared, d.isEntry = true → d.name ∈ w.visited ∧ d.name ∉ opened
  /-- No name is declared twice. -/
  once : (entryNames w.declared).Nodup
  /-- A name that is mentioned is declared before, or the two lead to each other. -/
  earlier : ∀ before d, before ++ [d] <+: w.declared → ∀ name, d.Mentions name →
    (∃ d' ∈ before, d'.name = name) ∨
      arena.LeadsTo d.name name ∧ Relation.TransGen arena.LeadsTo name d.name

section IsOrdered

variable {arena : Arena} {opened : List String} {w w' : Walk} {name : String} {d : Declaration}

theorem isOrdered_start : IsOrdered arena [] start :=
  ⟨fun _ h => absurd h List.not_mem_nil, fun _ h => absurd h List.not_mem_nil, List.nodup_nil,
    fun before d h => by simp [start] at h⟩

/-- A new name may be opened. -/
theorem IsOrdered.meet (h : IsOrdered arena opened w) (hnew : name ∉ w.visited) :
    IsOrdered arena (name :: opened) (w.meet name) := by
  refine ⟨fun n hn => ?_, fun d hd he => ?_, h.once, h.earlier⟩
  · rcases List.mem_cons.1 hn with rfl | hn
    · exact List.mem_cons_self
    · exact List.mem_cons_of_mem _ (h.visited n hn)
  · obtain ⟨hmet, hclosed⟩ := h.closed d hd he
    have hne : d.name ≠ name := fun hname => hnew (hname ▸ hmet)
    exact ⟨List.mem_cons_of_mem _ hmet, by simp [hne, hclosed]⟩

/-- Fewer names are open. -/
theorem IsOrdered.close (h : IsOrdered arena (name :: opened) w) : IsOrdered arena opened w :=
  ⟨fun n hn => h.visited n (List.mem_cons_of_mem _ hn),
    fun d hd he => ⟨(h.closed d hd he).1,
      fun hn => (h.closed d hd he).2 (List.mem_cons_of_mem _ hn)⟩,
    h.once, h.earlier⟩

/-- What a last declaration mentions, when all declarations before are in order. -/
theorem earlier_declare (h : IsOrdered arena opened w)
    (hd : ∀ n, d.Mentions n → w.Declares n ∨
      arena.LeadsTo d.name n ∧ Relation.TransGen arena.LeadsTo n d.name) :
    ∀ before d', before ++ [d'] <+: (w.declare d).declared → ∀ n, d'.Mentions n →
      (∃ d'' ∈ before, d''.name = n) ∨
        arena.LeadsTo d'.name n ∧ Relation.TransGen arena.LeadsTo n d'.name := by
  intro before d' hbefore n hn
  rcases List.prefix_concat_iff.1 hbefore with hlast | hbefore
  · obtain ⟨rfl, hsame⟩ := List.append_inj' hlast rfl
    rw [List.singleton_inj.1 hsame] at hn ⊢
    exact hd n hn
  · exact h.earlier before d' hbefore n hn

/-- An enumeration may be declared at any time. -/
theorem IsOrdered.declare_enumeration (h : IsOrdered arena opened w) (e : Enumeration) :
    IsOrdered arena opened (w.declare (.enumeration e)) := by
  have hentries : entryNames (w.declare (.enumeration e)).declared = entryNames w.declared := by
    simp [entryNames, declare, Declaration.isEntry]
  refine ⟨h.visited, fun d hd he => ?_, hentries ▸ h.once,
    earlier_declare h fun n hn => nomatch hn⟩
  rcases List.mem_append.1 hd with hd | hd
  · exact h.closed d hd he
  · rw [List.mem_singleton.1 hd] at he
    cases he

/-- The name that was opened last may be declared, when what its declaration mentions is
declared or leads back to it. -/
theorem IsOrdered.declare_entry (h : IsOrdered arena (d.name :: opened) w)
    (hentry : d.isEntry = true) (hnew : d.name ∉ opened)
    (hd : ∀ n, d.Mentions n → w.Declares n ∨
      arena.LeadsTo d.name n ∧ Relation.TransGen arena.LeadsTo n d.name) :
    IsOrdered arena opened (w.declare d) := by
  have hentries : entryNames (w.declare d).declared = entryNames w.declared ++ [d.name] := by
    simp [entryNames, declare, hentry]
  refine ⟨h.close.visited, fun d' hd' he => ?_, ?_, earlier_declare h hd⟩
  · rcases List.mem_append.1 hd' with hd' | hd'
    · exact h.close.closed d' hd' he
    · rw [List.mem_singleton.1 hd']
      exact ⟨h.visited _ List.mem_cons_self, hnew⟩
  · rw [hentries, ← List.concat_eq_append]
    refine h.once.concat fun hmem => ?_
    obtain ⟨d', hd', hname⟩ := List.mem_map.1 hmem
    obtain ⟨hd', he⟩ := List.mem_filter.1 hd'
    exact (h.closed d' hd' he).2 (hname ▸ List.mem_cons_self)

/-- A step that starts with no more than `level` names to meet keeps sound and ordered what
is, and loses nothing. -/
def KeepsOrder (arena : Arena) (opened : List String) (level : Nat) (w w' : Walk) : Prop :=
  unvisited arena w ≤ level → IsSound arena (fun _ => True) opened w → IsOrdered arena opened w →
    IsSound arena (fun _ => True) opened w' ∧ IsOrdered arena opened w' ∧ w.Extends w'

theorem KeepsOrder.refl {level : Nat} (w : Walk) : KeepsOrder arena opened level w w :=
  fun _ hs ho => ⟨hs, ho, .refl w⟩

theorem KeepsOrder.trans {level : Nat} (w w' w'' : Walk) (h : KeepsOrder arena opened level w w')
    (h' : KeepsOrder arena opened level w' w'') : KeepsOrder arena opened level w w'' := by
  intro hlevel hs ho
  obtain ⟨hs, ho, hextends⟩ := h hlevel hs ho
  obtain ⟨hs, ho, hextends'⟩ := h' (hextends.unvisited_le.trans hlevel) hs ho
  exact ⟨hs, ho, hextends.trans hextends'⟩

/-- Going through a shape keeps the order when following its references does. -/
theorem keepsOrder_through {follow : String → Walk → Except Failure Walk} {level : Nat} {s : Shape}
    (hfollow : ∀ name, Shape.Occurs (.reference name) s →
      ∀ w w', follow name w = .ok w' → KeepsOrder arena opened level w w')
    (hw : through follow s w = .ok w') : KeepsOrder arena opened level w w' := by
  refine rel_through KeepsOrder.refl KeepsOrder.trans (fun e w _ hs ho => ?_) hfollow hw
  have hsound := hs.declare (d := .enumeration e) trivial fun n hn => nomatch hn
  exact ⟨hsound, ho.declare_enumeration e, extends_declare w _⟩

end IsOrdered

end Walk

section Declarations

variable {arena : Arena} {opened : List String} {w w' : Walk} {s : Shape}

/-- Everything is known when nothing is asked of enumerations. -/
theorem enumeratesOnly_true (s : Shape) : s.EnumeratesOnly fun _ => True := fun _ _ => trivial

/-- What leads to a name, and the name itself, lead to all that its shape refers to. -/
theorem leadsTo_of_occurs {name next : String} (hfind : arena.find? name = some s)
    (hopened : ∀ q ∈ opened, Relation.TransGen arena.LeadsTo q name)
    (hoccurs : Shape.Occurs (.reference next) s)
    (ht : (Shape.reference next).isTrivial arena = false) :
    ∀ q ∈ name :: opened, Relation.TransGen arena.LeadsTo q next := by
  intro q hq
  have hstep : arena.LeadsTo name next := ⟨s, hfind, hoccurs, ht⟩
  rcases List.mem_cons.1 hq with rfl | hq
  · exact .single hstep
  · exact (hopened q hq).tail hstep

/-- What the declaration of a name mentions is declared when the name's shape is covered,
or it is open and leads back to the name. -/
theorem declares_or_leadsTo {known : Enumeration → Prop} {name n : String} {d : Declaration}
    (hd : declarationOf arena name s = .ok d) (hn : d.Mentions n)
    (hfind : arena.find? name = some s)
    (hopened : ∀ q ∈ opened, Relation.TransGen arena.LeadsTo q name)
    (hsound : Walk.IsSound arena known (name :: opened) w) (hcovers : Walk.Covers arena s w) :
    w.Declares n ∨ arena.LeadsTo name n ∧ Relation.TransGen arena.LeadsTo n name := by
  rcases needs_of_mentions_declarationOf hd hn with ⟨hoccurs, ht⟩ | ⟨e, he, rfl⟩
  · have hstep : arena.LeadsTo name n := ⟨s, hfind, hoccurs, ht⟩
    rcases hsound.visited n (hcovers.references n hoccurs ht) with hopen | hdeclared
    · refine Or.inr ⟨hstep, ?_⟩
      rcases List.mem_cons.1 hopen with rfl | hopen
      · exact .single hstep
      · exact hopened n hopen
    · exact Or.inl hdeclared
  · exact Or.inl (hcovers.enumerations e he)

/-- Following a name keeps the order at every level, when each open name leads to it. -/
theorem keepsOrder_followWithin (level : Nat) (name : String)
    (hchain : (Shape.reference name).isTrivial arena = false →
      ∀ q ∈ opened, Relation.TransGen arena.LeadsTo q name)
    (hw : followWithin arena level name w = .ok w') :
    Walk.KeepsOrder arena opened level w w' := by
  intro hlevel hs ho
  have hadvances : ∀ level name, Walk.Advances arena (fun _ => True) level
      (followWithin arena level name) fun w =>
        (Shape.reference name).isTrivial arena = false → name ∈ w.visited :=
    advances_followWithin fun _ s _ => enumeratesOnly_true s
  obtain ⟨hsound, hextends, -⟩ := hadvances level name opened w w' hlevel hs hw
  refine ⟨hsound, ?_, hextends⟩
  clear hsound hextends
  induction level generalizing name opened w w' with
  | zero =>
    cases hw
    exact ho
  | succ level ih =>
    unfold followWithin at hw
    split at hw
    · cases hw
      exact ho
    · rename_i hskip
      obtain ⟨ht, hnew⟩ : (Shape.reference name).isTrivial arena = false ∧ name ∉ w.visited := by
        simpa using hskip
      obtain ⟨s, hfind⟩ := Shape.exists_find?_of_isTrivial_eq_false ht
      have hless := Walk.unvisited_meet_lt (Arena.mem_names_of_find? hfind) hnew
      have hbelow : Walk.unvisited arena (w.meet name) ≤ level := by omega
      have hopened : name ∉ opened := fun hn => hnew (ho.visited name hn)
      rw [hfind] at hw
      obtain ⟨after, hafter, hw⟩ := ok_of_bind_eq_ok hw
      obtain ⟨hsound, -, hcovers⟩ := Walk.advances_through (hadvances level) s
        (enumeratesOnly_true s) (name :: opened) (w.meet name) after hbelow (hs.meet name) hafter
      obtain ⟨-, hordered, -⟩ := Walk.keepsOrder_through
        (fun next hoccurs w w' hw hlevel hs ho => by
          obtain ⟨hsound, hextends, -⟩ := hadvances level next _ w w' hlevel hs hw
          have hnext := leadsTo_of_occurs hfind (hchain ht) hoccurs
          exact ⟨hsound, ih next hnext hw hlevel hs ho, hextends⟩)
        hafter hbelow (hs.meet name) (ho.meet hnew)
      split at hw
      · cases hw
        exact hordered.close
      · obtain ⟨d, hd, hw⟩ := ok_of_bind_eq_ok hw
        cases hw
        obtain ⟨hentry, rfl⟩ := isEntry_declarationOf hd
        exact hordered.declare_entry hentry hopened fun n hn =>
          declares_or_leadsTo hd hn hfind (hchain ht) hsound hcovers

/-- The walk that makes the declarations of a shape ends in order. -/
theorem exists_isOrdered_of_declarations {ds : List Declaration}
    (h : declarations arena s = .ok ds) : ∃ w, w.declared = ds ∧ Walk.IsOrdered arena [] w := by
  obtain ⟨w, hw, rfl⟩ := ok_of_map_eq_ok h
  have hlevel : Walk.unvisited arena Walk.start ≤ arena.size := by
    rw [Walk.unvisited_eq_remaining, Arena.size, ← List.length_map Prod.fst]
    exact remaining_le_length
  have hstart : Walk.IsSound arena (fun _ => True) [] Walk.start :=
    ⟨fun _ hn => absurd hn List.not_mem_nil, fun _ hd => absurd hd List.not_mem_nil,
      fun _ hd => absurd hd List.not_mem_nil⟩
  have hkeeps : Walk.KeepsOrder arena [] arena.size Walk.start w :=
    Walk.keepsOrder_through (fun name _ w w' hw => keepsOrder_followWithin arena.size name
      (fun _ q hq => absurd hq List.not_mem_nil) hw) hw
  exact ⟨w, rfl, (hkeeps hlevel hstart Walk.isOrdered_start).2.1⟩

/-- The declarations of a shape give no name twice to a shape of the arena. A name that one
of them mentions is declared before it, or leads back to the name that it declares; and
where no name leads back to itself it is declared before. -/
theorem declarations_ordered {ds : List Declaration} (h : declarations arena s = .ok ds) :
    (entryNames ds).Nodup ∧
    (∀ before d after, ds = before ++ d :: after → ∀ name, d.Mentions name →
      (∀ d' ∈ before, d'.name ≠ name) → Relation.TransGen arena.LeadsTo name d.name) ∧
    ((∀ name, ¬ Relation.TransGen arena.LeadsTo name name) →
      ∀ before d after, ds = before ++ d :: after → ∀ name, d.Mentions name →
        ∃ d' ∈ before, d'.name = name) := by
  obtain ⟨w, rfl, hordered⟩ := exists_isOrdered_of_declarations h
  have hearlier : ∀ before d after, w.declared = before ++ d :: after → ∀ name,
      d.Mentions name → (∃ d' ∈ before, d'.name = name) ∨
        arena.LeadsTo d.name name ∧ Relation.TransGen arena.LeadsTo name d.name := by
    intro before d after hsplit
    refine hordered.earlier before d ⟨after, ?_⟩
    rw [hsplit, List.append_assoc, List.singleton_append]
  refine ⟨hordered.once, fun before d after hsplit name hn hnone => ?_,
    fun hacyclic before d after hsplit name hn => ?_⟩
  · rcases hearlier before d after hsplit name hn with ⟨d', hd', hname⟩ | ⟨-, hback⟩
    · exact absurd hname (hnone d' hd')
    · exact hback
  · rcases hearlier before d after hsplit name hn with hbefore | ⟨hstep, hback⟩
    · exact hbefore
    · exact absurd (hback.tail hstep) (hacyclic name)

/-- A circle of two names, a shared alias, an enumeration and a name without a shape: the
alias and the owner are declared before the pet, whose name the owner mentions. -/
theorem declarations_ordered_circle :
    let arena : Arena :=
      ⟨[("Pet", .object [.named "kind" (.enumeration ⟨"Kind", []⟩),
          .named "owner" (.reference "Owner"), .named "tag" (.reference "Tag")]),
        ("Owner", .object [.named "pet" (.reference "Pet"), .named "tag" (.reference "Tag"),
          .named "lost" (.reference "Lost")]),
        ("Tag", .string)]⟩
    ∃ ds, declarations arena (.reference "Pet") = .ok ds ∧
      ds.map Declaration.name = ["Kind", "Tag", "Owner", "Pet"] ∧
      (entryNames ds).Nodup ∧
      (∀ before d after, ds = before ++ d :: after → ∀ name, d.Mentions name →
        (∀ d' ∈ before, d'.name ≠ name) → Relation.TransGen arena.LeadsTo name d.name) ∧
      ((∀ name, ¬ Relation.TransGen arena.LeadsTo name name) →
        ∀ before d after, ds = before ++ d :: after → ∀ name, d.Mentions name →
          ∃ d' ∈ before, d'.name = name) := by
  intro arena
  have hnames : (declarations arena (.reference "Pet")).toOption.map
      (fun ds => ds.map Declaration.name) = some ["Kind", "Tag", "Owner", "Pet"] := by
    decide +kernel
  cases h : declarations arena (.reference "Pet") with
  | error e => simp [h, Except.toOption] at hnames
  | ok ds =>
    simp only [h, Except.toOption, Option.map_some, Option.some.injEq] at hnames
    exact ⟨ds, rfl, hnames, declarations_ordered h⟩

end Declarations

end TypeScript

end TypedClient
