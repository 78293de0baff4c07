import TypedClient.Proofs.Outcomes
import TypedClient.Proofs.Shape.Parts
import TypedClient.TypeScript.Declarations

/-!
# How declarations fail

Writing a shape as a type fails at a field with an empty name and nowhere else. Going
through shapes and names fails only where a declaration does, so the declarations of a
shape fail in that way only.
-/

namespace TypedClient.TypeScript

/-- The only failure is the one of an empty name. -/
def FailsByName {α : Type} (result : Except Failure α) : Prop :=
  ∀ e, result = .error e → e = .emptyPropertyKey

section FailsByName

variable {α β : Type}

theorem failsByName_ok (a : α) : FailsByName (.ok a) := fun _ h => nomatch h

/-- Two steps in a row fail by a name when each of them does. -/
theorem FailsByName.bind {x : Except Failure α} {f : α → Except Failure β} (h : FailsByName x)
    (h' : ∀ a, FailsByName (f a)) : FailsByName (x >>= f) := by
  intro e he
  rcases error_of_bind_eq_error he with he | ⟨a, -, he⟩
  · exact h e he
  · exact h' a e he

/-- A step whose result is mapped fails by a name when the step does. -/
theorem FailsByName.map {x : Except Failure α} {f : α → β} (h : FailsByName x) :
    FailsByName (x.map f) := by
  cases x with
  | ok a => exact failsByName_ok (f a)
  | error e => exact fun e' he => h e' (congrArg Except.error (Except.error.inj he))

end FailsByName

variable {arena : Arena}

namespace TypeNode

/-- The types of shapes fail by a name when each of them does. -/
theorem failsByName_ofAllWidened {members : List Shape}
    (h : ∀ m ∈ members, FailsByName (ofWidened arena m)) :
    FailsByName (ofAllWidened arena members) := by
  induction members with
  | nil => exact failsByName_ok []
  | cons m rest ih =>
    refine (h m List.mem_cons_self).bind fun first => ?_
    exact (ih fun m hm => h m (List.mem_cons_of_mem _ hm)).bind fun _ => failsByName_ok _

/-- The members for fields fail by a name when the types of the values do. -/
theorem failsByName_ofWidenedFields {fields : List (Field Shape)}
    (h : ∀ f ∈ fields, FailsByName (ofWidened arena f.value)) :
    FailsByName (ofWidenedFields arena fields) := by
  induction fields with
  | nil => exact failsByName_ok []
  | cons f rest ih =>
    unfold ofWidenedFields
    split
    · exact fun e he => (Except.error.inj he).symm
    · refine (h f List.mem_cons_self).bind fun first => ?_
      exact (ih fun f hf => h f (List.mem_cons_of_mem _ hf)).bind fun _ => failsByName_ok _

/-- The type of a widened shape fails by a name. -/
theorem failsByName_ofWidened (s : Shape) : FailsByName (ofWidened arena s) := by
  induction s using Shape.tree_induction with
  | any => exact failsByName_ok _
  | void => exact failsByName_ok _
  | literal l => exact failsByName_ok _
  | enumeration e => exact failsByName_ok _
  | reference name => exact failsByName_ok _
  | array e ih => exact ih.bind fun _ => failsByName_ok _
  | object fields ih => exact (failsByName_ofWidenedFields ih).bind fun _ => failsByName_ok _
  | joined c members ih => exact (failsByName_ofAllWidened ih).bind fun _ => failsByName_ok _
  | tuple members ih => exact (failsByName_ofAllWidened ih).bind fun _ => failsByName_ok _

/-- The type of a shape fails by a name. -/
theorem failsByName_ofShape (s : Shape) : FailsByName (ofShape arena s) :=
  failsByName_ofWidened _

end TypeNode

/-- The declaration of a name fails by a name. -/
theorem failsByName_declarationOf (name : String) (s : Shape) :
    FailsByName (declarationOf arena name s) := by
  unfold declarationOf
  split
  · exact (TypeNode.failsByName_ofWidenedFields fun f _ => TypeNode.failsByName_ofWidened _).map
  · exact (TypeNode.failsByName_ofShape _).map

namespace Walk

variable {follow : String → Walk → Except Failure Walk}

/-- Going through shapes in order fails by a name when going through each does. -/
theorem failsByName_throughAll {members : List Shape}
    (h : ∀ m ∈ members, ∀ w, FailsByName (through follow m w)) (w : Walk) :
    FailsByName (throughAll follow members w) := by
  induction members generalizing w with
  | nil => exact failsByName_ok w
  | cons m rest ih =>
    exact (h m List.mem_cons_self w).bind (ih fun m hm => h m (List.mem_cons_of_mem _ hm))

/-- Going through fields in order fails by a name when going through the values does. -/
theorem failsByName_throughFields {fields : List (Field Shape)}
    (h : ∀ f ∈ fields, ∀ w, FailsByName (through follow f.value w)) (w : Walk) :
    FailsByName (throughFields follow fields w) := by
  induction fields generalizing w with
  | nil => exact failsByName_ok w
  | cons f rest ih =>
    exact (h f List.mem_cons_self w).bind (ih fun f hf => h f (List.mem_cons_of_mem _ hf))

/-- Going through a shape fails by a name when following names does. -/
theorem failsByName_through (hfollow : ∀ name w, FailsByName (follow name w)) (s : Shape)
    (w : Walk) : FailsByName (through follow s w) := by
  induction s using Shape.tree_induction generalizing w with
  | any => exact failsByName_ok w
  | void => exact failsByName_ok w
  | literal l => exact failsByName_ok w
  | enumeration e => exact failsByName_ok _
  | reference name => exact hfollow name w
  | array e ih => exact ih w
  | object fields ih => exact failsByName_throughFields ih w
  | joined c members ih => exact failsByName_throughAll ih w
  | tuple members ih => exact failsByName_throughAll ih w

end Walk

/-- Following a name fails by a name, at every level. -/
theorem failsByName_followWithin (level : Nat) (name : String) (w : Walk) :
    FailsByName (followWithin arena level name w) := by
  induction level generalizing name w with
  | zero => exact failsByName_ok w
  | succ level ih =>
    unfold followWithin
    split
    · exact failsByName_ok w
    · split
      · exact failsByName_ok _
      · refine (Walk.failsByName_through ih _ _).bind fun after => ?_
        split
        · exact failsByName_ok after
        · exact (failsByName_declarationOf _ _).bind fun d => failsByName_ok _

/-- The declarations that a shape needs fail by a name. -/
theorem failsByName_declarations (s : Shape) : FailsByName (declarations arena s) :=
  (Walk.failsByName_through (failsByName_followWithin _) s _).map

end TypedClient.TypeScript
