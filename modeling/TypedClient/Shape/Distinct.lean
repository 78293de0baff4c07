import TypedClient.Shape.Equality

/-!
# Distinct members

What a list of alternatives or requirements keeps: no member that says nothing
(anything, no value, null, undefined), no second general text, number or truth
value, and no constant twice. Members of other kinds are all kept.
-/

namespace TypedClient

/-- The shapes that have a word of their own. -/
inductive Keyword where
  /-- Anything. -/
  | any
  /-- No value. -/
  | void
  /-- The null value. -/
  | null
  /-- The undefined value. -/
  | undefined
  /-- The truth values. -/
  | boolean
  /-- The numbers. -/
  | number
  /-- The texts. -/
  | string
  deriving DecidableEq, Repr

/-- Whether the keyword says nothing about a value. -/
def Keyword.isVacuous : Keyword → Bool
  | .any | .void | .null | .undefined => true
  | _ => false

/-- The keyword for the kind of a scalar value. -/
def Json.keyword? : Json → Option Keyword
  | .null => some .null
  | .bool _ => some .boolean
  | .number _ => some .number
  | .string _ => some .string
  | .array _ | .object _ => none

/-- The keyword that stands for a literal, unless it is one exact value or composite. -/
def Literal.keyword? (l : Literal) : Option Keyword :=
  match l.value with
  | none => some .undefined
  | some .null => some .null
  | some value => if l.constant then none else value.keyword?

namespace Shape

/-- The keyword that stands for a shape, if there is one. -/
def keyword? : Shape → Option Keyword
  | .any => some .any
  | .void => some .void
  | .literal l => l.keyword?
  | _ => none

/-- Whether the shape says nothing, so that it is left out of a list of members. -/
def isVacuous (s : Shape) : Bool :=
  match s.keyword? with
  | some k => k.isVacuous
  | none => false

/-- Whether `member` repeats `earlier`: two keyword shapes by their keyword, and
literals by equality. -/
def repeats (member earlier : Shape) : Bool :=
  match member.keyword? with
  | some k => earlier.keyword? == some k
  | none =>
    match member with
    | .literal _ => earlier == member
    | _ => false

/-- The members that say something and repeat neither a kept member nor one of `seen`. -/
def distinctFrom (seen : List Shape) : List Shape → List Shape
  | [] => []
  | member :: rest =>
    if member.isVacuous || seen.any (member.repeats ·) then distinctFrom seen rest
    else member :: distinctFrom (member :: seen) rest

/-- The distinct members of a list, each at its first place. -/
def distinct (members : List Shape) : List Shape := distinctFrom [] members

/-- The union of shapes, without members that say nothing or repeat another. -/
def union (members : List Shape) : Shape := .joined .or (distinct members)

/-- The intersection of shapes, without members that say nothing or repeat another. -/
def intersection (members : List Shape) : Shape := .joined .and (distinct members)

@[simp] theorem distinct_nil : distinct [] = [] := rfl

/-- Every member that is kept was there. -/
theorem mem_of_mem_distinctFrom {seen members : List Shape} {s : Shape}
    (h : s ∈ distinctFrom seen members) : s ∈ members := by
  induction members generalizing seen with
  | nil => simp [distinctFrom] at h
  | cons m rest ih =>
    unfold distinctFrom at h
    split at h
    · exact List.mem_cons_of_mem _ (ih h)
    · rcases List.mem_cons.1 h with rfl | h
      · exact List.mem_cons_self
      · exact List.mem_cons_of_mem _ (ih h)

/-- Every member that is kept says something. -/
theorem isVacuous_of_mem_distinctFrom {seen members : List Shape} {s : Shape}
    (h : s ∈ distinctFrom seen members) : s.isVacuous = false := by
  induction members generalizing seen with
  | nil => simp [distinctFrom] at h
  | cons m rest ih =>
    unfold distinctFrom at h
    split at h
    · exact ih h
    · rename_i hm
      rcases List.mem_cons.1 h with rfl | h
      · simp only [Bool.or_eq_true, not_or, Bool.not_eq_true] at hm
        exact hm.1
      · exact ih h

end Shape

end TypedClient
