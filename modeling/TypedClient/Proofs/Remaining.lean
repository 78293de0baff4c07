/-!
# What is left to meet

Walks along references, along the names of definitions and along the names of an arena
go down by levels, and each step meets something that was not met before. Names and
spellings are finitely many, so what is left of them bounds the levels: a step leaves
less, and where nothing is left everything was met.
-/

namespace TypedClient

/-- How many of some names were not met. -/
def remaining (names met : List String) : Nat :=
  (names.filter fun name => name ∉ met).length

section Remaining

variable {names met met' : List String} {name : String}

/-- No more are left than there are. -/
theorem remaining_le_length : remaining names met ≤ names.length :=
  List.length_filter_le _ _

/-- Meeting more leaves no more. -/
theorem remaining_anti (h : met ⊆ met') : remaining names met' ≤ remaining names met := by
  rw [remaining, remaining, ← List.countP_eq_length_filter, ← List.countP_eq_length_filter]
  refine List.countP_mono_left fun name _ hnew => ?_
  rw [decide_eq_true_eq] at hnew ⊢
  exact fun hmet => hnew (h hmet)

/-- Meeting one for the first time leaves one less. -/
theorem remaining_cons_lt (h : name ∈ names) (hnew : name ∉ met) :
    remaining names (name :: met) < remaining names met := by
  have hleft : remaining names (name :: met) =
      ((names.filter fun n => n ∉ met).filter fun n => n ≠ name).length := by
    rw [remaining, List.filter_filter]
    refine congrArg List.length (List.filter_congr fun n _ => ?_)
    simp
  have hmem : name ∈ names.filter fun n => n ∉ met := List.mem_filter.2 ⟨h, by simpa using hnew⟩
  rw [hleft]
  exact List.length_filter_lt_length_iff_exists.2 ⟨name, hmem, by simp⟩

/-- When none is left, all were met. -/
theorem mem_of_remaining_eq_zero (h : remaining names met = 0) (hname : name ∈ names) :
    name ∈ met := by
  have hnil := List.eq_nil_of_length_eq_zero h
  simpa using List.filter_eq_nil_iff.1 hnil name hname

end Remaining

end TypedClient
