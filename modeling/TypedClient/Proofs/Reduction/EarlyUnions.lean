import TypedClient.Proofs.Reduction.Optionality
import TypedClient.Proofs.Reduction.Splicing

/-!
# Unions that are made distinct early

A union may be made of members that were made distinct before any of them is reduced. What
is left out then says nothing, or says the same as a member before it, and that is still so
when both are reduced: of two constants that are equal both stay or both widen to their
kind. So reduction, which makes the reduced members distinct again, leaves the same. Equal
composite literals are left out early, too, although they reduce to objects and lists, which
are all kept, so members must not be composite literals.
-/

namespace TypedClient.Shape

/-! ### Reducing what says the same -/

section SaysSame

variable {a b : Shape} {reduction : Reduction}

/-- A scalar literal stays or widens to its kind. -/
theorem reduce_literal {l : Literal} (h : l.isComposite = false) :
    (Shape.literal l).reduce reduction =
      if l.constant && !reduction.precise then ofSample? l.value else .literal l := by
  rw [reduce_eq, widen, h, Bool.false_or]
  split
  · rcases l with ⟨_ | _ | _ | _ | _ | _ | _, _⟩ <;> first | rfl | cases h
  · rfl

/-- A shape with a keyword keeps it. -/
theorem keyword?_reduce {k : Keyword} (h : a.keyword? = some k) :
    (a.reduce reduction).keyword? = some k := by
  cases a with
  | any | void => exact h
  | literal l =>
    rcases l with ⟨_ | _ | _ | _ | _ | _ | _, _ | _⟩ <;>
      first
      | (rw [reduce_literal rfl]; split <;> exact h)
      | cases h
  | _ => cases h

/-- Shapes that say the same say the same when they are reduced. -/
theorem SaysSame.reduce (h : SaysSame a b) :
    SaysSame (a.reduce reduction) (b.reduce reduction) := by
  cases h with
  | refl => exact .refl _
  | kind ha hb => exact .kind (keyword?_reduce ha) (keyword?_reduce hb)
  | @constant v w hv h =>
    have hw : w.isComposite = false := (Json.isComposite_eq_of_same h).symm.trans hv
    rw [reduce_literal (l := ⟨some v, true⟩) hv, reduce_literal (l := ⟨some w, true⟩) hw]
    split
    · obtain ⟨k, hk⟩ : ∃ k, v.keyword? = some k := by
        cases v <;> first | exact ⟨_, rfl⟩ | cases hv
      have hsame : ofSample? (some v) = ofSample? (some w) :=
        ofSample_of_keyword? hk ((keyword?_eq_of_same h).symm.trans hk)
      exact hsame ▸ .refl (ofSample? (some v))
    · exact .constant hv h

/-- What says nothing says nothing when it is reduced. -/
theorem isVacuous_reduce (h : a.isVacuous = true) : (a.reduce reduction).isVacuous = true := by
  unfold isVacuous at h ⊢
  split at h
  · rename_i k hk
    rw [keyword?_reduce hk]
    exact h
  · cases h

/-- What is kept once is kept once when it is reduced. -/
theorem isKeptOnce_reduce (hplain : IsPlain true a) (h : a.isKeptOnce = true) :
    (a.reduce reduction).isKeptOnce = true := by
  cases a with
  | any | void => exact h
  | literal l =>
    rw [reduce_literal hplain.1]
    split
    · rcases l with ⟨_ | _ | _ | _ | _ | _ | _, _⟩ <;> first | rfl | cases hplain.1
    · exact h
  | _ => cases h

end SaysSame

/-! ### Making members distinct before they are reduced -/

section Distinct

variable {seen seen' members : List Shape} {precise : Bool} {a b : Shape} {reduction : Reduction}

/-- Of two plain members that say the same both are dropped or neither is. -/
theorem SaysSame.isDropped_eq (h : SaysSame a b) (ha : IsPlain precise a) (hb : IsPlain precise b) :
    isDropped seen a = isDropped seen b := by
  have hrepeats : ∀ s : Shape, a.repeats s = b.repeats s := fun s => by
    rw [Bool.eq_iff_iff, repeats_iff ha, repeats_iff hb, h.isKeptOnce_eq]
    exact and_congr_right fun _ => ⟨fun hs => hs.trans h, fun hs => hs.trans h.symm⟩
  simp only [isDropped, isVacuous, h.keyword?_eq, hrepeats]

/-- A plain member that repeats another repeats it when both are reduced. -/
theorem repeats_reduce (ha : IsPlain true a) (h : a.repeats b = true) :
    (a.reduce reduction).repeats (b.reduce reduction) = true := by
  obtain ⟨honce, hsame⟩ := (repeats_iff ha).1 h
  have hplain : IsPlain reduction.precise (a.reduce reduction) :=
    (everywhere_isPlain_reduce reduction a).here
  exact (repeats_iff hplain).2 ⟨isKeptOnce_reduce ha honce, hsame.reduce⟩

/-- A plain member that repeats another is dropped when both are reduced and the other is
dropped. -/
theorem isDropped_reduce_of_repeats (ha : IsPlain true a) (h : a.repeats b = true)
    (hb : isDropped seen (b.reduce reduction) = true) :
    isDropped seen (a.reduce reduction) = true := by
  have hsame : SaysSame (b.reduce reduction) (a.reduce reduction) :=
    ((repeats_iff ha).1 h).2.reduce
  rw [← hsame.isDropped_eq (everywhere_isPlain_reduce reduction b).here
    (everywhere_isPlain_reduce reduction a).here, hb]

/-- Reduced members that are made distinct: it changes nothing to make the members distinct
beforehand, when the reduced members seen since make up for those seen before. -/
theorem distinctFrom_map_reduce_distinctFrom (hplain : ∀ m ∈ members, IsPlain true m)
    (hseen : ∀ m ∈ members, seen.any (m.repeats ·) = true →
      isDropped seen' (m.reduce reduction) = true) :
    distinctFrom seen' ((distinctFrom seen members).map (reduce reduction)) =
      distinctFrom seen' (members.map (reduce reduction)) := by
  induction members generalizing seen seen' with
  | nil => rfl
  | cons m rest ih =>
    obtain ⟨hm, hrest⟩ := List.forall_mem_cons.1 hplain
    obtain ⟨hfirst, hlater⟩ := List.forall_mem_cons.1 hseen
    rw [List.map_cons]
    cases hearly : isDropped seen m with
    | true =>
      have hlate : isDropped seen' (m.reduce reduction) = true := by
        rcases Bool.or_eq_true _ _ ▸ hearly with hv | hr
        · rw [isDropped, isVacuous_reduce hv, Bool.true_or]
        · exact hfirst hr
      rw [distinctFrom_cons_of_isDropped hearly, distinctFrom_cons_of_isDropped hlate,
        ih hrest hlater]
    | false =>
      -- from here on what repeats the member is left out early
      rw [distinctFrom_cons_of_not_isDropped hearly, List.map_cons]
      cases hlate : isDropped seen' (m.reduce reduction) with
      | true =>
        rw [distinctFrom_cons_of_isDropped hlate, distinctFrom_cons_of_isDropped hlate]
        refine ih hrest fun n hn hr => ?_
        rw [List.any_cons, Bool.or_eq_true] at hr
        exact hr.elim (fun hr => isDropped_reduce_of_repeats (hrest n hn) hr hlate) (hlater n hn)
      | false =>
        rw [distinctFrom_cons_of_not_isDropped hlate, distinctFrom_cons_of_not_isDropped hlate]
        refine congrArg (m.reduce reduction :: ·) (ih hrest fun n hn hr => ?_)
        rw [List.any_cons, Bool.or_eq_true] at hr
        rw [isDropped_cons, Bool.or_eq_true]
        exact hr.imp (repeats_reduce (hrest n hn)) (hlater n hn)

/-- Reduced members that are made distinct: it changes nothing to make the members distinct
before they are reduced. -/
theorem distinct_map_reduce_distinct (h : ∀ m ∈ members, IsPlain true m) :
    distinct ((distinct members).map (reduce reduction)) =
      distinct (members.map (reduce reduction)) :=
  distinctFrom_map_reduce_distinctFrom h fun _ _ hr => absurd hr (by simp)

end Distinct

/-- A joined shape reduces to the same when its members were made distinct beforehand. -/
theorem reduce_joined_distinct (reduction : Reduction) (c : Connective) {members : List Shape}
    (h : ∀ m ∈ members, IsPlain true m) :
    (Shape.joined c (distinct members)).reduce reduction =
      (Shape.joined c members).reduce reduction := by
  have hconsolidate : ∀ unite threshold,
      consolidate c unite threshold ((distinct members).map (reduce reduction)) =
        consolidate c unite threshold (members.map (reduce reduction)) := fun unite threshold => by
    rw [consolidate, consolidate, distinct_map_reduce_distinct h]
  rw [reduce_joined, reduce_joined, joinedMembers, joinedMembers, hconsolidate]

/-- A union or an intersection that was made distinct when it was built reduces to the same
as one that was not, when no member is a composite literal. -/
theorem reduce_union_and_intersection (reduction : Reduction) {members : List Shape}
    (h : ∀ l, Shape.literal l ∈ members → l.isComposite = false) :
    (union members).reduce reduction = (Shape.joined .or members).reduce reduction ∧
      (intersection members).reduce reduction = (Shape.joined .and members).reduce reduction := by
  have hplain : ∀ m ∈ members, IsPlain true m := by
    intro m hm
    cases m with
    | literal l => exact ⟨h l hm, fun _ => rfl⟩
    | _ => trivial
  exact ⟨reduce_joined_distinct reduction .or hplain, reduce_joined_distinct reduction .and hplain⟩

/-- Numbers and texts of which some are constants and some are repeated, two objects, which
are merged, and a union inside of which a text is said again. -/
theorem reduce_union_and_intersection_pets :
    let text := fun s => Shape.literal ⟨some (.string s), false⟩
    let one := constant (.number (.integer 1))
    let tag := Shape.object [.named "tag" .null]
    let members := [one, text "a", .any, .number, one, text "b", tag, constant (.string "c"), tag,
      .joined .or [text "d", .reference "Pet"]]
    (∀ l, Shape.literal l ∈ members → l.isComposite = false) ∧
      (distinct members).length + 3 = members.length ∧
      (Shape.joined .or members).reduce {} =
        .joined .or [.number, text "a", .reference "Pet", .object [.named "tag" .any]] ∧
      (union members).reduce {} = (Shape.joined .or members).reduce {} ∧
      (intersection members).reduce {} = (Shape.joined .and members).reduce {} := by
  intro text one tag members
  have hscalar : ∀ l, Shape.literal l ∈ members → l.isComposite = false := by
    simp [members, text, one, tag, constant, Shape.number, Literal.isComposite, Json.isComposite]
  exact ⟨hscalar, by decide, by cbv, reduce_union_and_intersection {} hscalar⟩

/-- Of two equal composite literals one is left out early, but the lists that they reduce to
are both kept. -/
example :
    let sample := constant (.array [])
    (union [sample, sample]).reduce {} = .array .any ∧
      (Shape.joined .or [sample, sample]).reduce {} =
        .joined .or [.array .any, .array .any] := by
  cbv

end TypedClient.Shape
