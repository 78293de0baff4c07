import Mathlib.Logic.Relation
import TypedClient.Proofs.Schema.Requests

/-!
# What holds along a walk

A walk changes a catalog in a few ways: it lists values, it reports something, and it
begins and finishes names. A relation between catalogs that holds for each of these
changes, and along several of them, holds between a catalog and the one that requests
leave. Of the references only those count that the walk follows, from the values that
are asked for on.
-/

namespace TypedClient.Catalog

/-- What listing values does. The values of a definition are an enumeration of its name,
one that was there or one that is made of them; others are a union of constants, or are
reported. -/
theorem enumerate_cases (document : Json) (values : List Json) (c : Catalog) :
    (∃ key e, correlatedKey? values (definitions document) = some key ∧ e ∈ c.enums ∧
        e.name = identifier key ∧
        c.enumerate (definitions document) values = (some (.enumeration e), c)) ∨
      (∃ key e, correlatedKey? values (definitions document) = some key ∧
        enumerationOf? (identifier key) values = some e ∧
        c.enumerate (definitions document) values =
          (some (.enumeration e), { c with enums := c.enums ++ [e] })) ∨
      (∃ w, (∀ r, w ≠ .danglingReference r) ∧
        c.enumerate (definitions document) values = (none, c.warn w)) ∨
      c.enumerate (definitions document) values = (some (.union (values.map .constant)), c) := by
  unfold enumerate
  cases hkey : correlatedKey? values (definitions document) with
  | none =>
    by_cases hcomposite : values.any Json.isComposite = true
    · simp only [hcomposite, if_true]
      exact Or.inr (Or.inr (Or.inl ⟨_, fun r => Warning.noConfusion, rfl⟩))
    · simp only [hcomposite]
      exact Or.inr (Or.inr (Or.inr rfl))
  | some key =>
    cases hfind : c.enums.find? (·.name = identifier key) with
    | some known =>
      have hname : known.name = identifier key := by simpa using List.find?_some hfind
      exact Or.inl ⟨key, known, rfl, List.mem_of_find?_eq_some hfind, hname, by simp only [hfind]⟩
    | none =>
      cases he : enumerationOf? (identifier key) values with
      | none =>
        exact Or.inr (Or.inr (Or.inl
          ⟨.unnameableValues key, fun r => Warning.noConfusion, by simp only [hfind, he]⟩))
      | some e => exact Or.inr (Or.inl ⟨key, e, rfl, he, by simp only [hfind, he]⟩)

/-- The values that a request asks for. -/
def Request.parts (document : Json) : Request → List Json
  | .shape schema => [schema]
  | .definitions => (Catalog.definitions document).map Prod.snd

/-- A relation that holds along each change that a walk over visited values makes. -/
structure HoldsAlong (document : Json) (visited : Json → Prop)
    (R : Catalog → Catalog → Prop) : Prop where
  /-- It holds where nothing changes. -/
  refl : ∀ c, R c c
  /-- It holds along two changes. -/
  trans : ∀ c c' c'', R c c' → R c' c'' → R c c''
  /-- It holds when values are listed. -/
  enumerate : ∀ values c, R c (c.enumerate (definitions document) values).2
  /-- It holds when something is reported, unless it is a reference. -/
  warn : ∀ w, (∀ r, w ≠ .danglingReference r) → ∀ c, R c (c.warn w)
  /-- It holds when a reference of a visited value is reported that points at nothing. -/
  dangling : ∀ value r, visited value →
    (Schema.ofJson value).RefersTo (fun _ => false) r → Document.resolve? document r = none →
      ∀ c, R c (c.warn (.danglingReference r))
  /-- It holds when a name is begun. -/
  begin : ∀ name c, R c (c.begin name)
  /-- It holds when a name is finished. -/
  finish : ∀ name s c, R c (c.finish name s)
  /-- What a reference of a visited value points at is visited. -/
  closed : ∀ value r part, visited value →
    (Schema.ofJson value).RefersTo (fun _ => false) r →
      Document.resolve? document r = some part → visited part

section HoldsAlong

variable {document : Json} {visited : Json → Prop} {R : Catalog → Catalog → Prop}
  {follow : String → Catalog → Shape × Catalog}

/-- It holds along the walk over a list of schemas when it does along each walk. -/
theorem HoldsAlong.shapesWith (h : HoldsAlong document visited R) {schemas : List Schema}
    (hwalk : ∀ schema ∈ schemas, ∀ c, R c (shapeWith (definitions document) follow schema c).2)
    (c : Catalog) : R c (shapesWith (definitions document) follow schemas c).2 := by
  induction schemas generalizing c with
  | nil => exact h.refl c
  | cons schema rest ih =>
    have hfirst := hwalk schema List.mem_cons_self c
    exact h.trans _ _ _ hfirst (ih (fun s hs => hwalk s (List.mem_cons_of_mem _ hs)) _)

/-- It holds along the walk over a schema when it does where the references of the schema
are followed. -/
theorem HoldsAlong.shapeWith (h : HoldsAlong document visited R) {schema : Schema}
    (hfollow : ∀ r, schema.RefersTo (fun _ => false) r → ∀ c, R c (follow r c).2) (c : Catalog) :
    R c (shapeWith (definitions document) follow schema c).2 := by
  induction schema using Schema.tree_induction generalizing c with
  | anything => exact h.refl c
  | scalar s => exact h.refl c
  | reference r => exact hfollow r .here c
  | allOf parts ih =>
    exact h.shapesWith (fun p hp => ih p hp fun r hr => hfollow r (.part hp hr)) c
  | oneOf overlapping branches ih =>
    have hbranches := h.shapesWith fun b hb => ih b hb fun r hr => hfollow r (.branch hb hr)
    have hwarned : R c (if overlapping then c.warn .overlappingBranches else c) := by
      split
      · exact h.warn _ (fun r => Warning.noConfusion) c
      · exact h.refl c
    exact h.trans _ _ _ hwarned (hbranches _)
  | dictionary extra base ihextra ihbase =>
    have hextra := ihextra (fun r hr => hfollow r (.extra hr)) c
    exact h.trans _ _ _ hextra (ihbase (fun r hr => hfollow r (.known hr)) _)
  | enumeration values base ih =>
    have hlisted := h.enumerate values c
    rw [Catalog.shapeWith]
    generalize c.enumerate (definitions document) values = result at hlisted
    obtain ⟨_ | s, middle⟩ := result
    · exact h.trans _ _ _ hlisted (ih (fun r hr => hfollow r (.base rfl hr)) middle)
    · exact hlisted
  | kinds nullable kinds ih =>
    exact h.shapesWith (fun k hk => ih k hk fun r hr => hfollow r (.kind hk hr)) c
  | array element ih => exact ih (fun r hr => hfollow r (.element hr)) c
  | tuple positions ih =>
    exact h.shapesWith (fun p hp => ih p hp fun r hr => hfollow r (.position hp hr)) c
  | object properties ih =>
    rw [Catalog.shapeWith, fieldsWith_eq]
    refine h.shapesWith (fun schema hs => ?_) c
    obtain ⟨f, hf, rfl⟩ := List.mem_map.1 hs
    exact ih f hf fun r hr => hfollow r (.property hf hr)
  | malformedObject => exact h.warn _ (fun r => Warning.noConfusion) c

/-- It holds where a reference of a visited value is followed, when it does along giving
names to visited values. -/
theorem HoldsAlong.followWith (h : HoldsAlong document visited R)
    {give : String → Json → Catalog → Shape × Catalog}
    (hgive : ∀ name target c, visited target → R c (give name target c).2) {value : Json}
    (hvalue : visited value) {r : String}
    (hr : (Schema.ofJson value).RefersTo (fun _ => false) r) (c : Catalog) :
    R c (followWith document give r c).2 := by
  unfold Catalog.followWith
  cases htarget : Document.resolve? document r with
  | none => exact h.dangling value r hvalue hr htarget c
  | some target => exact hgive _ target c (h.closed value r target hvalue hr htarget)

/-- It holds along giving a name to a visited value. -/
theorem HoldsAlong.nameWithin (h : HoldsAlong document visited R) (level : Nat) (name : String)
    {target : Json} (htarget : visited target) (c : Catalog) :
    R c (nameWithin document level name target c).2 := by
  induction level generalizing name target c with
  | zero => exact h.refl c
  | succ level ih =>
    rw [Catalog.nameWithin]
    split
    · exact h.refl c
    · have hfollow : ∀ r, (Schema.ofJson target).RefersTo (fun _ => false) r → ∀ c,
          R c (Catalog.followWith document (Catalog.nameWithin document level) r c).2 :=
        fun r hr => h.followWith (fun name target c ht => ih name ht c) htarget hr
      have hshape := h.shapeWith hfollow (c.begin name)
      have hbegun := h.trans _ _ _ (h.begin name c) hshape
      exact h.trans _ _ _ hbegun (h.finish name _ _)

/-- It holds along the walk over a visited schema. -/
theorem HoldsAlong.walk (h : HoldsAlong document visited R) (level : Nat) {schema : Json}
    (hschema : visited schema) (c : Catalog) :
    R c (Catalog.shapeWith (definitions document)
      (Catalog.followWith document (Catalog.nameWithin document level))
      (Schema.ofJson schema) c).2 :=
  h.shapeWith
    (fun _ hr => h.followWith (fun name _ c ht => h.nameWithin level name ht c) hschema hr) c

/-- It holds along giving names to definitions that are visited. -/
theorem HoldsAlong.nameEach (h : HoldsAlong document visited R) {entries : List (String × Json)}
    (hentries : ∀ entry ∈ entries, visited entry.2) (c : Catalog) :
    R c (nameEach document entries c).2 := by
  induction entries generalizing c with
  | nil => exact h.refl c
  | cons entry rest ih =>
    obtain ⟨hentry, hrest⟩ := List.forall_mem_cons.1 hentries
    exact h.trans _ _ _ (h.nameWithin (levels document) (identifier entry.1) hentry c)
      (ih hrest _)

/-- It holds along requests for visited values. -/
theorem HoldsAlong.answers (h : HoldsAlong document visited R) {requests : List Request}
    (hrequests : ∀ request ∈ requests, ∀ part ∈ request.parts document, visited part)
    (c : Catalog) : R c (answers document requests c).2 := by
  induction requests generalizing c with
  | nil => exact h.refl c
  | cons request rest ih =>
    obtain ⟨hrequest, hrest⟩ := List.forall_mem_cons.1 hrequests
    have hanswer : R c (answer document request c).2 := by
      cases request with
      | shape schema => exact h.walk (levels document) (hrequest schema List.mem_cons_self) c
      | definitions =>
        exact h.nameEach (fun entry he => hrequest _ (List.mem_map_of_mem he)) c
    exact h.trans _ _ _ hanswer (ih hrest _)

end HoldsAlong

end TypedClient.Catalog
