import TypedClient.Proofs.Document.References
import TypedClient.Proofs.Json.Values
import TypedClient.Proofs.Outcomes
import TypedClient.Proofs.Remaining

/-!
# Replacing the references of a document

A walk over a value meets a reference at an object that stands for one, and does not
go on below that object. It goes on in what the reference points at, unless this is a
definition. What the walk yields is said here without any level: an outcome is built
from the outcomes of the references that are met. Such an outcome always exists, since
no reference is open twice, and it is the one that is computed. It is a value when all
that is reached resolves and nothing that is reached leads back to itself.
-/

namespace TypedClient.Document

/-! ### One value -/

/-- A walk over a value meets a reference, at the object that stands for it. -/
inductive Meets : String → Json → Json → Prop where
  /-- The value stands for the reference. -/
  | here {r : String} {members : List (String × Json)} (h : reference? members = some r) :
    Meets r (.object members) (.object members)
  /-- The reference is met in an element of a list. -/
  | element {r : String} {node value : Json} {elements : List Json} (hv : value ∈ elements)
    (h : Meets r node value) : Meets r node (.array elements)
  /-- The reference is met in a member of an object that stands for nothing. -/
  | member {r : String} {node : Json} {members : List (String × Json)} {m : String × Json}
    (hnone : reference? members = none) (hm : m ∈ members) (h : Meets r node m.2) :
    Meets r node (.object members)

/-- What a walk meets is a reference of the value. -/
theorem Meets.mem_references {r : String} {node value : Json} (h : Meets r node value) :
    r ∈ references value := by
  induction h with
  | here h => exact mem_references_of_reference? h
  | element hv _ ih => exact mem_references_array hv ih
  | member _ hm _ ih => exact mem_references_member hm ih

section Inlined

variable {f g : String → Json → Except Failure Json}

/-- Going through the elements is going through each of them. -/
theorem inlinedElements_eq (elements : List Json) :
    inlinedElements f elements = elements.mapM (inlined f) := by
  induction elements with
  | nil => rfl
  | cons value rest ih => rw [inlinedElements, ih, List.mapM_cons]

/-- Going through the members is going through the value of each of them. -/
theorem inlinedMembers_eq (members : List (String × Json)) :
    inlinedMembers f members =
      members.mapM fun m => do return (m.1, ← inlined f m.2) := by
  induction members with
  | nil => rfl
  | cons m rest ih =>
    rw [inlinedMembers, ih, List.mapM_cons, bind_assoc]
    simp only [pure_bind]

theorem inlined_array (elements : List Json) :
    inlined f (.array elements) = do return .array (← elements.mapM (inlined f)) := by
  rw [inlined, inlinedElements_eq]

/-- An object that stands for a reference is replaced by what follows from it. -/
theorem inlined_of_reference? {members : List (String × Json)} {r : String}
    (h : reference? members = some r) : inlined f (.object members) = f r (.object members) := by
  rw [inlined, h]

/-- An object that stands for nothing keeps its keys. -/
theorem inlined_of_reference?_eq_none {members : List (String × Json)}
    (h : reference? members = none) :
    inlined f (.object members) =
      do return .object (← members.mapM fun m => do return (m.1, ← inlined f m.2)) := by
  rw [inlined, h, inlinedMembers_eq]

/-- A walk depends on nothing but what follows from the references that it meets. -/
theorem inlined_congr {value : Json} (h : ∀ r node, Meets r node value → f r node = g r node) :
    inlined f value = inlined g value := by
  induction value using Json.tree_induction with
  | array elements ih =>
    have hmap : elements.mapM (inlined f) = elements.mapM (inlined g) :=
      mapM_congr fun v hv => ih v hv fun r node hm => h r node (.element hv hm)
    rw [inlined_array, inlined_array, hmap]
  | object members ih =>
    cases hr : reference? members with
    | some r => rw [inlined_of_reference? hr, inlined_of_reference? hr, h r _ (.here hr)]
    | none =>
      have hmap : (members.mapM fun m => do return (m.1, ← inlined f m.2)) =
          members.mapM fun m => do return (m.1, ← inlined g m.2) :=
        mapM_congr fun m hm => by
          rw [ih m hm fun r node hmeets => h r node (.member hr hm hmeets)]
      rw [inlined_of_reference?_eq_none hr, inlined_of_reference?_eq_none hr, hmap]
  | _ => rfl

/-- When a walk succeeds, so does whatever follows from a reference that it meets. -/
theorem Meets.exists_ok {r : String} {node value out : Json} (hm : Meets r node value)
    (h : inlined f value = .ok out) : ∃ x, f r node = .ok x := by
  induction hm generalizing out with
  | here hr => exact ⟨out, (inlined_of_reference? hr).symm.trans h⟩
  | element hv _ ih =>
    rw [inlined_array] at h
    obtain ⟨values, hvalues, -⟩ := ok_of_bind_eq_ok h
    obtain ⟨x, hx⟩ := ok_of_mapM_eq_ok hvalues hv
    exact ih hx
  | member hnone hm _ ih =>
    rw [inlined_of_reference?_eq_none hnone] at h
    obtain ⟨values, hvalues, -⟩ := ok_of_bind_eq_ok h
    obtain ⟨x, hx⟩ := ok_of_mapM_eq_ok hvalues hm
    obtain ⟨y, hy, -⟩ := ok_of_bind_eq_ok hx
    exact ih hy

/-- When a walk fails, it is because of a reference that it meets. -/
theorem exists_meets_of_inlined_eq_error {value : Json} {e : Failure}
    (h : inlined f value = .error e) : ∃ r node, Meets r node value ∧ f r node = .error e := by
  induction value using Json.tree_induction with
  | array elements ih =>
    rw [inlined_array] at h
    rcases error_of_bind_eq_error h with h | ⟨values, -, h⟩
    · obtain ⟨v, hv, hfails⟩ := exists_error_of_mapM_eq_error h
      obtain ⟨r, node, hm, hf⟩ := ih v hv hfails
      exact ⟨r, node, .element hv hm, hf⟩
    · cases h
  | object members ih =>
    cases hr : reference? members with
    | some r => exact ⟨r, _, .here hr, (inlined_of_reference? hr).symm.trans h⟩
    | none =>
      rw [inlined_of_reference?_eq_none hr] at h
      rcases error_of_bind_eq_error h with h | ⟨values, -, h⟩
      · obtain ⟨m, hm, hfails⟩ := exists_error_of_mapM_eq_error h
        rcases error_of_bind_eq_error hfails with hfails | ⟨x, -, hfails⟩
        · obtain ⟨r, node, hmeets, hf⟩ := ih m hm hfails
          exact ⟨r, node, .member hr hm hmeets, hf⟩
        · cases hfails
      · cases h
  | _ => cases h

end Inlined

/-! ### What references lead to -/

/-- A reference that is replaced leads to what is met in its place. -/
def LeadsTo (document : Json) (r next : String) : Prop :=
  isDefinition r = false ∧ ∃ target node, resolve? document r = some target ∧ Meets next node target

/-- A reference is reached when it is met in the document, or in the place of a
reference that is reached. -/
inductive IsReached (document : Json) : String → Prop where
  /-- The reference is met in the document. -/
  | root {r : String} {node : Json} (h : Meets r node document) : IsReached document r
  /-- The reference is met in the place of one that is reached. -/
  | step {r next : String} (hr : IsReached document r) (h : LeadsTo document r next) :
    IsReached document next

/-- A reference that leads back to itself. -/
def IsCircular (document : Json) (r : String) : Prop := Relation.TransGen (LeadsTo document) r r

/-- What is reached leads to nothing but what is reached. -/
theorem IsReached.of_leadsTo {document : Json} {r next : String} (hr : IsReached document r)
    (h : Relation.ReflTransGen (LeadsTo document) r next) : IsReached document next := by
  induction h with
  | refl => exact hr
  | tail _ hnext ih => exact ih.step hnext

/-- Where no chain goes on for ever, nothing leads back to itself. -/
theorem not_isCircular_of_acc {document : Json} {r : String}
    (h : Acc (flip (LeadsTo document)) r) : ¬ IsCircular document r := by
  induction h with
  | intro r _ ih =>
    intro hself
    obtain ⟨next, hnext, hback⟩ := Relation.TransGen.head'_iff.1 hself
    exact ih next hnext (.tail' hback hnext)

/-- A walk over the document comes to a value while the references in the list are
open, the last of them first. -/
inductive ComesTo (document : Json) : List String → Json → Prop where
  /-- It starts at the document. -/
  | root : ComesTo document [] document
  /-- It goes on in an element of a list. -/
  | element {stack : List String} {elements : List Json} {value : Json}
    (h : ComesTo document stack (.array elements)) (hv : value ∈ elements) :
    ComesTo document stack value
  /-- It goes on in a member of an object that stands for nothing. -/
  | member {stack : List String} {members : List (String × Json)} {m : String × Json}
    (h : ComesTo document stack (.object members)) (hnone : reference? members = none)
    (hm : m ∈ members) : ComesTo document stack m.2
  /-- It goes on in what a reference points at, which is open from there on. -/
  | target {stack : List String} {members : List (String × Json)} {r : String} {target : Json}
    (h : ComesTo document stack (.object members)) (hr : reference? members = some r)
    (htarget : resolve? document r = some target) (hmark : isDefinition r = false)
    (hopen : r ∉ stack) : ComesTo document (r :: stack) target

/-- What is open leads to what is met. -/
theorem ComesTo.leadsTo {document value node : Json} {stack : List String} {r next : String}
    (h : ComesTo document stack value) (hr : r ∈ stack) (hm : Meets next node value) :
    Relation.TransGen (LeadsTo document) r next := by
  induction h generalizing next node with
  | root => cases hr
  | element _ hv ih => exact ih hr (.element hv hm)
  | member _ hnone hmem ih => exact ih hr (.member hnone hmem hm)
  | target _ hself htarget hmark _ ih =>
    have hnext := show LeadsTo document _ next from ⟨hmark, _, _, htarget, hm⟩
    rcases List.mem_cons.1 hr with rfl | hr
    · exact .single hnext
    · exact (ih hr (.here hself)).tail hnext

/-! ### Outcomes without a level -/

/-- What follows from a reference, at the object that stands for it, while the
references in the list are open. -/
inductive Follows (document : Json) : List String → String → Json → Except Failure Json → Prop where
  /-- It points at nothing. -/
  | unresolved {stack : List String} {r : String} {node : Json}
    (h : resolve? document r = none) :
    Follows document stack r node (.error (.unresolvableReference r))
  /-- It points at a definition, and stays. -/
  | definition {stack : List String} {r : String} {node target : Json}
    (htarget : resolve? document r = some target) (hmark : isDefinition r = true) :
    Follows document stack r node (.ok node)
  /-- It is open. -/
  | circular {stack : List String} {r : String} {node target : Json}
    (htarget : resolve? document r = some target) (hmark : isDefinition r = false)
    (hopen : r ∈ stack) : Follows document stack r node (.error (.circularReference r))
  /-- It is replaced by what it points at, with the references in there followed. -/
  | target {stack : List String} {r : String} {node target : Json} {outcome : Except Failure Json}
    (follow : String → Json → Except Failure Json)
    (htarget : resolve? document r = some target) (hmark : isDefinition r = false)
    (hopen : r ∉ stack)
    (hfollow : ∀ next node', Meets next node' target →
      Follows document (r :: stack) next node' (follow next node'))
    (houtcome : inlined follow target = outcome) : Follows document stack r node outcome

/-- What a walk over a value yields while the references in the list are open. -/
def Yields (document : Json) (stack : List String) (value : Json)
    (outcome : Except Failure Json) : Prop :=
  ∃ follow, (∀ r node, Meets r node value → Follows document stack r node (follow r node)) ∧
    inlined follow value = outcome

section Follows

variable {document : Json} {stack : List String} {r : String} {node : Json}

/-- A reference has one outcome. -/
theorem Follows.unique {o o' : Except Failure Json} (h : Follows document stack r node o)
    (h' : Follows document stack r node o') : o = o' := by
  induction h generalizing o' with
  | unresolved h => cases h' <;> simp_all
  | definition htarget hmark => cases h' <;> simp_all
  | circular htarget hmark hopen => cases h' <;> simp_all
  | target follow htarget hmark hopen hfollow houtcome ih =>
    cases h' with
    | unresolved h => simp [htarget] at h
    | definition _ hmark' => simp [hmark] at hmark'
    | circular _ _ hopen' => exact absurd hopen' hopen
    | target follow' htarget' _ _ hfollow' houtcome' =>
      cases htarget.symm.trans htarget'
      rw [← houtcome, ← houtcome']
      exact inlined_congr fun next node' hm => ih next node' hm (hfollow' next node' hm)

/-- Two values that follow from one reference are equal, whatever was open. -/
theorem Follows.ok_unique {stack' : List String} {x y : Json}
    (h : Follows document stack r node (.ok x)) (h' : Follows document stack' r node (.ok y)) :
    x = y := by
  generalize ho : Except.ok x = o at h
  induction h generalizing stack' x y with
  | unresolved => cases ho
  | circular => cases ho
  | definition htarget hmark =>
    cases ho
    cases h' with
    | definition => rfl
    | target _ _ hmark' => simp [hmark] at hmark'
  | target follow htarget hmark hopen hfollow houtcome ih =>
    cases h' with
    | definition _ hmark' => simp [hmark] at hmark'
    | target follow' htarget' _ _ hfollow' houtcome' =>
      cases htarget.symm.trans htarget'
      have hagree : inlined follow _ = inlined follow' _ := inlined_congr fun next node' hm => by
        obtain ⟨u, hu⟩ := hm.exists_ok (houtcome.trans ho.symm)
        obtain ⟨v, hv⟩ := hm.exists_ok houtcome'
        rw [hu, hv, ih next node' hm (hv ▸ hfollow' next node' hm) hu.symm]
      rw [houtcome, houtcome', ← ho] at hagree
      exact Except.ok.inj hagree

/-- Where a value follows from a reference, the reference points at something. -/
theorem Follows.exists_target {x : Json} (h : Follows document stack r node (.ok x)) :
    ∃ target, resolve? document r = some target := by
  cases h with
  | definition htarget => exact ⟨_, htarget⟩
  | target _ htarget => exact ⟨_, htarget⟩

/-- Where a value follows from a reference, one follows from what it leads to. -/
theorem Follows.exists_next {x : Json} {next : String}
    (h : Follows document stack r node (.ok x)) (hnext : LeadsTo document r next) :
    ∃ node' y, Follows document (r :: stack) next node' (.ok y) := by
  obtain ⟨hmark, target, node', htarget, hm⟩ := hnext
  cases h with
  | definition _ hmark' => simp [hmark] at hmark'
  | target follow htarget' _ _ hfollow houtcome =>
    cases htarget.symm.trans htarget'
    obtain ⟨y, hy⟩ := hm.exists_ok houtcome
    exact ⟨node', y, hy ▸ hfollow next node' hm⟩

/-- Where a value follows from a reference, no chain from it goes on for ever. -/
theorem Follows.acc {x : Json} (h : Follows document stack r node (.ok x)) :
    Acc (flip (LeadsTo document)) r := by
  generalize ho : Except.ok x = o at h
  induction h generalizing x with
  | unresolved => cases ho
  | circular => cases ho
  | definition _ hmark =>
    refine Acc.intro _ fun next hnext => ?_
    simp [hnext.1] at hmark
  | target follow htarget hmark hopen hfollow houtcome ih =>
    refine Acc.intro _ fun next hnext => ?_
    obtain ⟨-, target, node', htarget', hm⟩ := hnext
    cases htarget.symm.trans htarget'
    obtain ⟨y, hy⟩ := hm.exists_ok (houtcome.trans ho.symm)
    exact ih next node' hm hy.symm

/-- A value that follows from a reference still does when other references are open,
as long as it leads to none of these. -/
theorem Follows.of_not_open {stack' : List String} {x : Json}
    (h : Follows document stack r node (.ok x))
    (hopen : ∀ q, Relation.ReflTransGen (LeadsTo document) r q → q ∉ stack') :
    Follows document stack' r node (.ok x) := by
  have hacc := h.acc
  generalize ho : Except.ok x = o at h
  induction h generalizing stack' x with
  | unresolved => cases ho
  | circular => cases ho
  | definition htarget hmark => exact .definition htarget hmark
  | target follow htarget hmark _ hfollow houtcome ih =>
    refine .target follow htarget hmark (hopen _ .refl) (fun next node' hm => ?_) houtcome
    have hnext : LeadsTo document _ next := ⟨hmark, _, node', htarget, hm⟩
    obtain ⟨y, hy⟩ := hm.exists_ok (houtcome.trans ho.symm)
    refine ih next node' hm (fun q hq => ?_) (hacc.inv hnext) hy.symm
    intro hmem
    rcases List.mem_cons.1 hmem with rfl | hmem
    · exact not_isCircular_of_acc hacc (.head' hnext hq)
    · exact hopen q (.head hnext hq) hmem

/-- A failure that follows from a reference is that of a reference it leads to, when
all that is open leads to it. -/
theorem Follows.cause {e : Failure} (h : Follows document stack r node (.error e))
    (hstack : ∀ q ∈ stack, Relation.TransGen (LeadsTo document) q r) :
    ∃ bad, Relation.ReflTransGen (LeadsTo document) r bad ∧
      ((e = .unresolvableReference bad ∧ resolve? document bad = none) ∨
        (e = .circularReference bad ∧ IsCircular document bad)) := by
  generalize ho : Except.error e = o at h
  induction h generalizing e with
  | unresolved h =>
    cases ho
    exact ⟨_, .refl, Or.inl ⟨rfl, h⟩⟩
  | definition => cases ho
  | circular _ _ hopen =>
    cases ho
    exact ⟨_, .refl, Or.inr ⟨rfl, hstack _ hopen⟩⟩
  | target follow htarget hmark _ hfollow houtcome ih =>
    obtain ⟨next, node', hm, hfails⟩ := exists_meets_of_inlined_eq_error (houtcome.trans ho.symm)
    have hnext : LeadsTo document _ next := ⟨hmark, _, node', htarget, hm⟩
    have hstack' : ∀ q ∈ _ :: _, Relation.TransGen (LeadsTo document) q next :=
      List.forall_mem_cons.2 ⟨.single hnext, fun q hq => (hstack q hq).tail hnext⟩
    obtain ⟨bad, hbad, hcause⟩ := ih next node' hm hstack' hfails.symm
    exact ⟨bad, .head hnext hbad, hcause⟩

/-- What is computed for a reference is what follows from it, when the level allows
for every reference that is not open. -/
theorem follows_followWithin {level : Nat} (hr : r ∈ references document)
    (hlevel : remaining (references document) stack ≤ level) :
    Follows document stack r node (followWithin document level stack r node) := by
  induction level generalizing stack r node with
  | zero =>
    have hopen : r ∈ stack := mem_of_remaining_eq_zero (by omega) hr
    unfold followWithin
    cases htarget : resolve? document r with
    | none => exact .unresolved htarget
    | some target =>
      cases hmark : isDefinition r with
      | true => simpa using .definition htarget hmark
      | false => simpa [hopen] using .circular htarget hmark hopen
  | succ level ih =>
    unfold followWithin
    cases htarget : resolve? document r with
    | none => exact .unresolved htarget
    | some target =>
      cases hmark : isDefinition r with
      | true => simpa using .definition htarget hmark
      | false =>
        by_cases hopen : r ∈ stack
        · simpa [hopen] using .circular htarget hmark hopen
        · have hless := remaining_cons_lt hr hopen
          have hwithin : ∀ next node', Meets next node' target →
              Follows document (r :: stack) next node'
                (followWithin document level (r :: stack) next node') := fun next node' hm =>
            ih (references_subset_of_resolve? htarget hm.mem_references) (by omega)
          simpa [hopen] using .target _ htarget hmark hopen hwithin rfl

end Follows

/-! ### The walk over a document -/

section Yields

variable {document : Json}

/-- What is computed for a document is what the walk over it yields. -/
theorem yields_dereference (document : Json) :
    Yields document [] document (dereference document) :=
  ⟨_, fun _ _ hm => follows_followWithin hm.mem_references remaining_le_length, rfl⟩

/-- A walk yields one outcome. -/
theorem Yields.unique {stack : List String} {value : Json} {o o' : Except Failure Json}
    (h : Yields document stack value o) (h' : Yields document stack value o') : o = o' := by
  obtain ⟨follow, hfollow, rfl⟩ := h
  obtain ⟨follow', hfollow', rfl⟩ := h'
  exact inlined_congr fun r node hm => (hfollow r node hm).unique (hfollow' r node hm)

/-- Walks over one value that succeed yield equal values, whatever was open. -/
theorem Yields.ok_unique {stack stack' : List String} {value x y : Json}
    (h : Yields document stack value (.ok x)) (h' : Yields document stack' value (.ok y)) :
    x = y := by
  obtain ⟨follow, hfollow, hx⟩ := h
  obtain ⟨follow', hfollow', hy⟩ := h'
  have hagree : inlined follow value = inlined follow' value := inlined_congr fun r node hm => by
    obtain ⟨u, hu⟩ := hm.exists_ok hx
    obtain ⟨v, hv⟩ := hm.exists_ok hy
    have hleft := hu ▸ hfollow r node hm
    have hright := hv ▸ hfollow' r node hm
    rw [hu, hv, hleft.ok_unique hright]
  exact Except.ok.inj (hx.symm.trans (hagree.trans hy))

/-- A walk that succeeds also does where a walk over the document comes to the value
with other references open. -/
theorem Yields.of_comesTo {stack stack' : List String} {value x : Json}
    (h : Yields document stack value (.ok x)) (hcomes : ComesTo document stack' value) :
    Yields document stack' value (.ok x) := by
  obtain ⟨follow, hfollow, hx⟩ := h
  refine ⟨follow, fun r node hm => ?_, hx⟩
  obtain ⟨y, hy⟩ := hm.exists_ok hx
  have hok := hy ▸ hfollow r node hm
  rw [hy]
  refine hok.of_not_open fun q hq hopen => ?_
  -- What is open would lead to `r` and back to itself.
  have hback := hcomes.leadsTo hopen hm
  exact not_isCircular_of_acc hok.acc (.trans_right hq hback)

/-- In a walk that succeeds, a value follows from all that is reached. -/
theorem IsReached.exists_ok {r : String} {x : Json} (hr : IsReached document r)
    (h : Yields document [] document (.ok x)) :
    ∃ stack node y, Follows document stack r node (.ok y) := by
  induction hr with
  | root hm =>
    obtain ⟨follow, hfollow, hx⟩ := h
    obtain ⟨y, hy⟩ := hm.exists_ok hx
    exact ⟨[], _, y, hy ▸ hfollow _ _ hm⟩
  | step _ hnext ih =>
    obtain ⟨stack, node, y, hfollows⟩ := ih
    obtain ⟨node', z, hz⟩ := hfollows.exists_next hnext
    exact ⟨_, node', z, hz⟩

/-- A walk that fails does so because of a reference that is reached. -/
theorem Yields.cause {e : Failure} (h : Yields document [] document (.error e)) :
    ∃ r, IsReached document r ∧
      ((e = .unresolvableReference r ∧ resolve? document r = none) ∨
        (e = .circularReference r ∧ IsCircular document r)) := by
  obtain ⟨follow, hfollow, herror⟩ := h
  obtain ⟨r, node, hm, hfails⟩ := exists_meets_of_inlined_eq_error herror
  have hcause := hfails ▸ hfollow r node hm
  obtain ⟨bad, hbad, hcause⟩ := hcause.cause (fun q hq => absurd hq List.not_mem_nil)
  exact ⟨bad, (IsReached.root hm).of_leadsTo hbad, hcause⟩

/-- Replacing the references of a document comes to an end with the one outcome of
the walk. It yields a value exactly when every reference that is reached points at
something and none leads back to itself. It fails for the reason that it names, and a
value that a walk yields does not depend on what was open. -/
theorem dereference_exact (document : Json) :
    (∀ outcome, Yields document [] document outcome ↔ dereference document = outcome) ∧
    ((∃ x, dereference document = .ok x) ↔
      (∀ r, IsReached document r → ∃ target, resolve? document r = some target) ∧
        ∀ r, IsReached document r → ¬ IsCircular document r) ∧
    (∀ e, dereference document = .error e → ∃ r, IsReached document r ∧
      ((e = .unresolvableReference r ∧ resolve? document r = none) ∨
        (e = .circularReference r ∧ IsCircular document r))) ∧
    ∀ stack value x, Yields document stack value (.ok x) → ∀ stack',
      (∀ y, Yields document stack' value (.ok y) → y = x) ∧
        (ComesTo document stack' value → Yields document stack' value (.ok x)) := by
  have hyields := yields_dereference document
  have hcause : ∀ e, dereference document = .error e → ∃ r, IsReached document r ∧
      ((e = .unresolvableReference r ∧ resolve? document r = none) ∨
        (e = .circularReference r ∧ IsCircular document r)) :=
    fun e he => (he ▸ hyields).cause
  refine ⟨fun outcome => ⟨fun h => hyields.unique h, fun h => h ▸ hyields⟩, ⟨?_, ?_⟩, hcause, ?_⟩
  · rintro ⟨x, hx⟩
    have hok := hx ▸ hyields
    refine ⟨fun r hr => ?_, fun r hr => ?_⟩
    · obtain ⟨_, _, _, hfollows⟩ := hr.exists_ok hok
      exact hfollows.exists_target
    · obtain ⟨_, _, _, hfollows⟩ := hr.exists_ok hok
      exact not_isCircular_of_acc hfollows.acc
  · rintro ⟨hresolve, hcircular⟩
    cases houtcome : dereference document with
    | ok x => exact ⟨x, rfl⟩
    | error e =>
      obtain ⟨r, hr, ⟨-, hnone⟩ | ⟨-, hself⟩⟩ := hcause e houtcome
      · obtain ⟨target, htarget⟩ := hresolve r hr
        simp [htarget] at hnone
      · exact absurd hself (hcircular r hr)
  · exact fun stack value x hx stack' =>
      ⟨fun y hy => hy.ok_unique hx, fun hcomes => hx.of_comesTo hcomes⟩

end Yields

end TypedClient.Document
