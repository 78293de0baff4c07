import Mathlib.Logic.Relation
import TypedClient.Proofs.Reduction.Termination

/-!
# What is reduced on the way

Reducing a shape reduces its parts, the shapes of its samples, and the unions that merging
objects makes of values. What is joined on the way is therefore a matter of the whole run, and
not of the shape that it starts from. An inherited property that holds everywhere in the shape
holds everywhere in each shape that is reduced on the way, and in what is joined there.

Three things may get lost where objects are merged. A union may bring an object that leaves a
name to its index signature together with one that has a field for the name. A name that an
object has two fields for is counted twice, and may be required then although another object
of the union lacks it. And objects without fields are left out when no object with a field
stands beside them.
-/

namespace TypedClient.Shape

variable {reduction : Reduction} {P : Shape → Prop} {s t u : Shape}

/-- Reducing the first shape reduces the second on the way. -/
def Reaches (reduction : Reduction) : Shape → Shape → Prop :=
  Relation.ReflTransGen (Starts reduction (reduce reduction))

/-- The lists of members that are consolidated when a joined shape is reduced. -/
def Joins (reduction : Reduction) (c : Connective) (members : List Shape) :
    List Shape → Prop :=
  Consolidates c (unionBy (reduce reduction)) reduction.dictionaryThreshold
    (members.map (reduce reduction))

/-- Objects that are merged on the way: those in a list that is consolidated when something
joined is reduced. -/
def Merges (reduction : Reduction) (s : Shape) (c : Connective)
    (objects : List (List (Field Shape))) : Prop :=
  ∃ members list, Reaches reduction s (.joined c members) ∧ Joins reduction c members list ∧
    objects = (distinct list).filterMap fields?

/-- A union that is reduced on the way leaves a name open: it merges an object that leaves the
name to its index signature with one that has a field for it. -/
def LeavesOpen (reduction : Reduction) (s : Shape) (name : String) : Prop :=
  ∃ objects, Merges reduction s .or objects ∧
    (∃ fields ∈ objects, .wildcard ∈ Field.keys fields ∧ .named name ∉ Field.keys fields) ∧
    ∃ fields ∈ objects, .named name ∈ Field.keys fields

/-- A union that is reduced on the way miscounts a name: it merges an object that has more than
one field for the name with one that has none. -/
def Miscounts (reduction : Reduction) (s : Shape) (name : String) : Prop :=
  ∃ objects, Merges reduction s .or objects ∧
    (∃ fields ∈ objects, .named name ∉ Field.keys fields) ∧
    ∃ fields ∈ objects, 1 < (Field.keys fields).count (.named name)

/-- An object without fields is left out on the way: no other object stands beside it. -/
def LeavesOut (reduction : Reduction) (s : Shape) : Prop :=
  ∃ c objects, Merges reduction s c objects ∧ [] ∈ objects ∧ ∀ fields ∈ objects, fields = []

section Runs

variable {c : Connective} {objects : List (List (Field Shape))} {name : String}

/-- Objects that are merged further along the way are merged on the way. -/
theorem Merges.of_reaches (h : Reaches reduction s t) (ht : t.Merges reduction c objects) :
    s.Merges reduction c objects := by
  obtain ⟨members, list, hreaches, hrest⟩ := ht
  exact ⟨members, list, h.trans hreaches, hrest⟩

/-- A name that is left open further along the way is left open on the way. -/
theorem LeavesOpen.of_reaches (h : Reaches reduction s t) (ht : t.LeavesOpen reduction name) :
    s.LeavesOpen reduction name :=
  ht.imp fun _ => And.imp_left (Merges.of_reaches h)

/-- A name that is miscounted further along the way is miscounted on the way. -/
theorem Miscounts.of_reaches (h : Reaches reduction s t) (ht : t.Miscounts reduction name) :
    s.Miscounts reduction name :=
  ht.imp fun _ => And.imp_left (Merges.of_reaches h)

/-- An object that is left out further along the way is left out on the way. -/
theorem LeavesOut.of_reaches (h : Reaches reduction s t) (ht : t.LeavesOut reduction) :
    s.LeavesOut reduction :=
  ht.imp fun _ => Exists.imp fun _ => And.imp_left (Merges.of_reaches h)

end Runs

section Inherited

variable {c : Connective} {members list : List Shape}
  (hP : Inherited reduction.dictionaryThreshold P)
  (sample : ∀ l, P (.literal l) → Everywhere P (ofSample? l.value))

include hP sample

/-- Joining reduced members carries an inherited property. -/
theorem Inherited.joinInvariant_reduce :
    JoinInvariant c (unionBy (reduce reduction)) reduction.dictionaryThreshold (Everywhere P)
      (Everywhere P) := by
  have hpreserves : Preserves (unionBy (reduce reduction)) (Everywhere P) :=
    ⟨fun _ _ => everywhere_any.2 hP.any, fun vs hne hvs =>
      (everywhere_joined.2 ⟨hP.joined .or vs hne, hvs⟩).reduce hP sample⟩
  refine ⟨fun ms h => (everywhere_joined.1 h).2, fun fields h => (everywhere_object.1 h).2,
    hpreserves, fun objects h hne => everywhere_object.2 ⟨?_, ?_⟩⟩
  · exact hP.merged c _ objects (fun fields hf => (h fields hf).here) hne
  · exact value_mergedFields hpreserves fun fields hf => (everywhere_object.1 (h fields hf)).2

/-- An inherited property passes to the lists that are consolidated. -/
theorem Joins.everywhere (h : ∀ m ∈ members, Everywhere P m)
    (hlist : Joins reduction c members list) : ∀ m ∈ list, Everywhere P m := by
  refine (hP.joinInvariant_reduce sample).consolidates (fun m hm => ?_) hlist
  obtain ⟨a, ha, rfl⟩ := List.mem_map.1 hm
  exact (h a ha).reduce hP sample

/-- An inherited property passes to each shape whose reduction is started. -/
theorem Starts.everywhere (h : Everywhere P s) (hs : Starts reduction (reduce reduction) s t) :
    Everywhere P t := by
  cases hs with
  | sample => exact sample _ h.here
  | element => exact (everywhere_array.1 h).2
  | value hf => exact (everywhere_object.1 h).2 _ hf
  | member hm => exact (everywhere_joined.1 h).2 _ hm
  | position hm => exact (everywhere_tuple.1 h).2 _ hm
  | union hlist hunites =>
    have hmembers := Joins.everywhere hP sample (everywhere_joined.1 h).2 hlist
    have hI : JoinInvariant .or (unionBy (reduce reduction)) reduction.dictionaryThreshold
        (Everywhere P) (Everywhere P) := hP.joinInvariant_reduce sample
    obtain ⟨hne, hvalues⟩ := hunites.forall_value hI.preserves fun fields hf =>
      hI.value fields (hmembers _ (mem_of_mem_distinct (mem_filterMap_fields?.1 hf)))
    exact everywhere_joined.2 ⟨hP.joined .or _ hne, hvalues⟩

/-- An inherited property passes to each shape that is reduced on the way. -/
theorem Reaches.everywhere (h : Everywhere P s) (hs : Reaches reduction s t) : Everywhere P t := by
  induction hs with
  | refl => exact h
  | tail _ hstarts ih => exact hstarts.everywhere hP sample ih

/-- An inherited property passes to the objects that are merged on the way. -/
theorem Merges.everywhere {objects : List (List (Field Shape))} (h : Everywhere P s)
    (hmerges : Merges reduction s c objects) :
    ∀ fields ∈ objects, Everywhere P (.object fields) := by
  obtain ⟨members, list, hreaches, hlist, rfl⟩ := hmerges
  have hjoined := hreaches.everywhere hP sample h
  exact fun fields hf => hlist.everywhere hP sample (everywhere_joined.1 hjoined).2 _
    (mem_of_mem_distinct (mem_filterMap_fields?.1 hf))

end Inherited

/-- A property of the outermost layer holds everywhere in the reduced shape when it holds
everywhere in the shape and of all objects that are made by merging on the way. -/
theorem Everywhere.reduce_of_merges (any : P .any) (array : ∀ e, P (.array e))
    (tuple : ∀ members, P (.tuple members)) (joined : ∀ c members, P (.joined c members))
    (sample : ∀ l, P (.literal l) → Everywhere P (ofSample? l.value))
    (values : ∀ fields, P (.object fields) →
      P (.object (fields.map (Field.mapValue (Shape.reduce reduction)))))
    (merged : ∀ c objects, Merges reduction s c objects →
      P (.object (mergedFields c (unionBy (Shape.reduce reduction)) reduction.dictionaryThreshold
        objects)))
    (h : Everywhere P s) : Everywhere P (s.reduce reduction) := by
  -- The induction is along the run, since the unions that merging makes are parts of nothing.
  suffices hrun : ∀ t, Reaches reduction s t → Everywhere P t → Everywhere P (t.reduce reduction)
    from hrun s .refl h
  intro t
  induction t using (wellFounded_starts reduction).induction with
  | _ t ih =>
    intro hreaches ht
    have hstarts : ∀ u, Starts reduction (Shape.reduce reduction) t u → Everywhere P u →
        Everywhere P (u.reduce reduction) := fun u hu => ih u hu (hreaches.tail hu)
    rw [reduce_eq_layer]
    cases t with
    | literal l =>
      rw [layer]
      split
      · rename_i hwide
        exact hstarts _ (.sample hwide) (sample l ht.here)
      · exact ht
    | array e => exact everywhere_array.2 ⟨array _, hstarts e .element (everywhere_array.1 ht).2⟩
    | object fields =>
      refine everywhere_object.2 ⟨values fields ht.here, fun g hg => ?_⟩
      obtain ⟨f, hf, rfl⟩ := List.mem_map.1 hg
      exact hstarts _ (.value hf) ((everywhere_object.1 ht).2 f hf)
    | joined c members =>
      have hmembers : ∀ m ∈ members.map (Shape.reduce reduction), Everywhere P m := by
        intro m hm
        obtain ⟨a, ha, rfl⟩ := List.mem_map.1 hm
        exact hstarts a (.member ha) ((everywhere_joined.1 ht).2 a ha)
      have hmerged : ∀ list, Joins reduction c members list → (∀ m ∈ list, Everywhere P m) →
          mergedFields c (unionBy (Shape.reduce reduction)) reduction.dictionaryThreshold
            ((distinct list).filterMap fields?) ≠ [] →
          Everywhere P (.object (mergedFields c (unionBy (Shape.reduce reduction))
            reduction.dictionaryThreshold ((distinct list).filterMap fields?))) := by
        intro list hlist hall _
        have hmerges : Merges reduction s c ((distinct list).filterMap fields?) :=
          ⟨members, list, hreaches, hlist, rfl⟩
        refine everywhere_object.2 ⟨merged c _ hmerges, ?_⟩
        refine value_mergedFields_of_unites (everywhere_any.2 any) (fun keys vs hunites hvs => ?_)
          fun fields hf => ?_
        · exact hstarts _ (.union hlist hunites) (everywhere_joined.2 ⟨joined .or vs, hvs⟩)
        · have hobject := hall _ (mem_of_mem_distinct (mem_filterMap_fields?.1 hf))
          exact (everywhere_object.1 hobject).2
      have hall := forall_mem_joinedMembers (fun ms hms => (everywhere_joined.1 hms).2) hmerged
        hmembers
      rw [layer, join_eq]
      exact everywhere_ofMembers any hall fun _ => joined c _
    | tuple members =>
      refine everywhere_tuple.2 ⟨tuple _, fun m hm => ?_⟩
      obtain ⟨a, ha, rfl⟩ := List.mem_map.1 hm
      exact hstarts a (.position ha) ((everywhere_tuple.1 ht).2 a ha)
    | _ => exact ht

end TypedClient.Shape
