import Mathlib.Data.List.Perm.Subperm
import TypedClient.Proofs.Api.Identifiers
import TypedClient.Proofs.Json.Values
import TypedClient.Proofs.Schema.Enumerations
import TypedClient.Proofs.Schema.Steps

/-!
# Enumerations of definitions

Listed values that a definition lists too become an enumeration with the name of the
definition. Its constants have these values, in order, and names that differ: a name that
is taken gets a count, and among so many counts as names are taken one is free.

An enumeration is looked up by its name once it is there. So the values that are asked for
are those of the enumeration when the definitions of one name list the same values, and
need not be otherwise.
-/

namespace TypedClient

namespace Catalog

/-! ### Names that are free -/

section FreeNames

variable {taken : List String} {base : String}

/-- A base with a count. -/
def counted (base : String) (count : Nat) : String := base ++ "_" ++ toString count

/-- Counts can be told apart. -/
theorem counted_injective (base : String) : Function.Injective (counted base) := by
  intro n m h
  have htext : toString n = toString m := (String.append_right_inj _).1 h
  have hdigits : Nat.toDigits 10 n = Nat.toDigits 10 m := by
    rwa [Nat.toString_eq_ofList_toDigits, Nat.toString_eq_ofList_toDigits,
      String.ofList_inj] at htext
  rw [← Nat.ofDigitChars_ten_toDigits (n := n), hdigits, Nat.ofDigitChars_ten_toDigits]

/-- A base with a count is not the base. -/
theorem counted_ne (base : String) (count : Nat) : counted base count ≠ base := by
  intro h
  have hlength : (counted base count).length = base.length := congrArg String.length h
  have hunderscore : "_".length = 1 := by decide
  simp only [counted, String.length_append, hunderscore] at hlength
  omega

/-- The search finds the first count from `suffix` on whose name is not taken, unless
`fuel` names from there on are taken. -/
theorem freeSuffix_spec (taken : List String) (base : String) (fuel suffix : Nat) :
    ∃ steps ≤ fuel, freeSuffix taken base fuel suffix = counted base (suffix + steps) ∧
      (∀ n < steps, counted base (suffix + n) ∈ taken) ∧
      (steps < fuel → counted base (suffix + steps) ∉ taken) := by
  induction fuel generalizing suffix with
  | zero => exact ⟨0, Nat.le_refl 0, rfl, by simp, by simp⟩
  | succ fuel ih =>
    have hname : base ++ "_" ++ toString suffix = counted base suffix := rfl
    by_cases hmem : counted base suffix ∈ taken
    · obtain ⟨steps, hsteps, hfound, hbefore, hfree⟩ := ih (suffix + 1)
      have hshift : ∀ n, suffix + 1 + n = suffix + (n + 1) := fun n => by omega
      simp only [hshift] at hfound hbefore hfree
      refine ⟨steps + 1, by omega, ?_, fun n hn => ?_, fun h => hfree (by omega)⟩
      · rw [freeSuffix, hname, if_pos (List.contains_iff_mem.2 hmem), hfound]
      · cases n with
        | zero => exact hmem
        | succ n => exact hbefore n (by omega)
    · refine ⟨0, Nat.zero_le _, ?_, by simp, fun _ => hmem⟩
      rw [freeSuffix, hname, if_neg (mt List.contains_iff_mem.1 hmem), Nat.add_zero]

/-- When a base is taken, not all of as many counts as names are taken can be taken too. -/
theorem exists_counted_not_mem (hbase : base ∈ taken) :
    ∃ n < taken.length, counted base (1 + n) ∉ taken := by
  by_contra hall
  push Not at hall
  let names := base :: (List.range taken.length).map fun n => counted base (1 + n)
  have hinjective : Function.Injective fun n => counted base (1 + n) := fun n m h =>
    Nat.add_left_cancel (counted_injective base h)
  have hdistinct : names.Nodup := by
    refine List.nodup_cons.2 ⟨fun hmem => ?_, List.nodup_range.map hinjective⟩
    obtain ⟨n, -, hn⟩ := List.mem_map.1 hmem
    exact counted_ne base (1 + n) hn
  have hsubset : names ⊆ taken := by
    refine List.cons_subset.2 ⟨hbase, fun name hname => ?_⟩
    obtain ⟨n, hn, rfl⟩ := List.mem_map.1 hname
    exact hall n (List.mem_range.1 hn)
  have hlength : names.length ≤ taken.length := (hdistinct.subperm hsubset).length_le
  simp only [names, List.length_cons, List.length_map, List.length_range] at hlength
  omega

/-- A free name is not taken, and it is the base, perhaps with a count. -/
theorem freeName_spec (taken : List String) (base : String) :
    freeName taken base ∉ taken ∧
      (freeName taken base = base ∨ ∃ count, freeName taken base = counted base count) := by
  unfold freeName
  split
  · rename_i hbase
    obtain ⟨steps, hsteps, hfound, hbefore, hfree⟩ :=
      freeSuffix_spec taken base taken.length 1
    obtain ⟨n, hn, hnot⟩ := exists_counted_not_mem (List.contains_iff_mem.1 hbase)
    have hless : steps < taken.length := by
      by_contra hall
      exact hnot (hbefore n (by omega))
    exact ⟨hfound ▸ hfree hless, Or.inr ⟨_, hfound⟩⟩
  · rename_i hbase
    exact ⟨mt List.contains_iff_mem.2 hbase, Or.inl rfl⟩

end FreeNames

/-! ### Constants -/

/-- Constants have the values that they are made for, names that differ, and no name that
is taken. -/
theorem constantsOf?_spec {taken : List String} {values : List Json} {members : List EnumMember}
    (h : constantsOf? taken values = some members) :
    members.map EnumMember.value = values ∧ (members.map EnumMember.name).Nodup ∧
      (∀ m ∈ members, m.name ∉ taken ∧ IsIdentifier m.name) ∧
      ∀ v ∈ values, v.isComposite = false := by
  induction values generalizing taken members with
  | nil =>
    cases h
    simp
  | cons v rest ih =>
    obtain ⟨label, hlabel, h⟩ := Option.bind_eq_some_iff.1 h
    obtain ⟨others, hothers, rfl⟩ := Option.map_eq_some_iff.1 h
    obtain ⟨hvalues, hdistinct, hnames, hscalars⟩ := ih hothers
    obtain ⟨hfree, hform⟩ := freeName_spec taken (identifier label)
    have hidentifier : IsIdentifier (freeName taken (identifier label)) := by
      rcases hform with hform | ⟨count, hform⟩
      · rw [hform]
        exact isIdentifier_identifier label
      · rw [hform]
        exact (isIdentifier_identifier label).counted count
    have hscalar : v.isComposite = false := by
      cases v with
      | array _ | object _ => cases hlabel
      | _ => rfl
    refine ⟨by simp [hvalues], List.nodup_cons.2 ⟨fun hmem => ?_, hdistinct⟩, fun m hm => ?_,
      List.forall_mem_cons.2 ⟨hscalar, hscalars⟩⟩
    · obtain ⟨m, hm, hname⟩ := List.mem_map.1 hmem
      exact (hnames m hm).1 (hname ▸ List.mem_cons_self)
    · rcases List.mem_cons.1 hm with rfl | hm
      · exact ⟨hfree, hidentifier⟩
      · obtain ⟨hnew, hm⟩ := hnames m hm
        exact ⟨fun htaken => hnew (List.mem_cons_of_mem _ htaken), hm⟩

/-- Lists that equal one list equal each other, when one of them has scalars only. -/
theorem sameElements_of_left {listed values values' : List Json}
    (h : Json.sameElements listed values = true) (h' : Json.sameElements listed values' = true)
    (hscalars : ∀ v ∈ values, v.isComposite = false) :
    Json.sameElements values values' = true := by
  induction listed generalizing values values' with
  | nil =>
    cases values with
    | nil => exact h'
    | cons v others => cases h
  | cons l rest ih =>
    cases values with
    | nil => cases h
    | cons v others =>
      cases values' with
      | nil => cases h'
      | cons v' others' =>
        obtain ⟨hv, hothers⟩ := Bool.and_eq_true_iff.1 h
        obtain ⟨hv', hothers'⟩ := Bool.and_eq_true_iff.1 h'
        obtain ⟨hscalar, hscalars⟩ := List.forall_mem_cons.1 hscalars
        have hback : v.same l = true := Json.same_comm_of_scalar hscalar l ▸ hv
        have hfirst : v.same v' = true := Json.same_trans_of_scalar hscalar hback hv'
        exact Bool.and_eq_true_iff.2 ⟨hfirst, ih hothers hothers' hscalars⟩

/-- The enumeration of a definition has the values that another definition of its name
lists, or this one, and names that are identifiers and differ. -/
theorem IsCorrelated.spec {document : Json} {e : Enumeration} (he : IsCorrelated document e) :
    (∃ entry ∈ definitions document, identifier entry.1 = e.name ∧
        listsExactly (e.members.map EnumMember.value) entry.2 = true) ∧
      (e.members.map EnumMember.name).Nodup ∧ (∀ m ∈ e.members, IsIdentifier m.name) ∧
      ∀ m ∈ e.members, m.value.isComposite = false := by
  obtain ⟨values, key, hkey, he⟩ := he
  obtain ⟨definition, listed, hmem, hlisted, hsame⟩ := exists_definition_of_correlatedKey? hkey
  obtain ⟨members, hmembers, rfl⟩ := Option.map_eq_some_iff.1 he
  obtain ⟨rfl, hdistinct, hnames, hscalars⟩ := constantsOf?_spec hmembers
  refine ⟨⟨(key, definition), hmem, rfl, ?_⟩, hdistinct, fun m hm => (hnames m hm).2,
    fun m hm => hscalars _ (List.mem_map_of_mem hm)⟩
  simp only [listsExactly, hlisted]
  exact hsame

/-! ### Catalogs that a walk comes to -/

/-- What a walk does to a catalog at once. -/
inductive Moves (document : Json) (c : Catalog) : Catalog → Prop where
  /-- It reports something. -/
  | warn (w : Warning) : Moves document c (c.warn w)
  /-- It begins a name. -/
  | begin (name : String) : Moves document c (c.begin name)
  /-- It finishes a name. -/
  | finish (name : String) (s : Shape) : Moves document c (c.finish name s)
  /-- It lists values. -/
  | enumerate (values : List Json) :
    Moves document c (c.enumerate (definitions document) values).2

/-- A catalog that walks come to, from the one without names on. -/
def IsReached (document : Json) (c : Catalog) : Prop :=
  Relation.ReflTransGen (Moves document) empty c

section Reached

variable {document : Json} {c : Catalog}

/-- Every change that a walk makes is a move. -/
theorem holdsAlong_moves (document : Json) :
    HoldsAlong document (fun _ => True) (Relation.ReflTransGen (Moves document)) where
  refl _ := .refl
  trans _ _ _ h h' := h.trans h'
  enumerate values _ := .single (.enumerate values)
  warn w _ _ := .single (.warn w)
  dangling _ r _ _ _ _ := .single (.warn (.danglingReference r))
  begin name _ := .single (.begin name)
  finish name s _ := .single (.finish name s)
  closed _ _ _ _ _ _ := trivial

/-- Requests lead to catalogs that walks come to. -/
theorem isReached_answers (document : Json) (requests : List Request) :
    IsReached document (answers document requests empty).2 :=
  (holdsAlong_moves document).answers (fun _ _ _ _ => trivial) empty

/-- A walk from a catalog that walks come to leads to one. -/
theorem IsReached.walk (h : IsReached document c) (level : Nat) (schema : Json) :
    IsReached document (shapeWith (definitions document)
      (followWith document (nameWithin document level)) (Schema.ofJson schema) c).2 :=
  h.trans ((holdsAlong_moves document).walk level trivial c)

/-- Every enumeration of a catalog that walks come to is that of a definition. -/
theorem IsReached.correlated (h : IsReached document c) :
    ∀ e ∈ c.enums, IsCorrelated document e := by
  induction h with
  | refl => exact fun e he => absurd he List.not_mem_nil
  | tail _ hmove ih =>
    cases hmove with
    | warn w => exact ih
    | begin name => exact ih
    | finish name s => exact ih
    | enumerate values =>
      rename_i before _
      rcases enumerate_cases document values before with
        ⟨_, _, _, _, _, hresult⟩ | ⟨key, made, hkey, hmade, hresult⟩ | ⟨_, -, hresult⟩ | hresult
      · exact hresult ▸ ih
      · rw [hresult]
        intro e he
        rcases List.mem_append.1 he with he | he
        · exact ih e he
        · exact List.mem_singleton.1 he ▸ ⟨values, key, hkey, hmade⟩
      · exact hresult ▸ ih
      · exact hresult ▸ ih

/-- An enumeration that values are listed as is that of a definition that lists them. -/
theorem IsReached.listed (h : IsReached document c) {values : List Json} {e : Enumeration}
    (he : (c.enumerate (definitions document) values).1 = some (.enumeration e)) :
    IsCorrelated document e ∧
      ∃ entry ∈ definitions document, identifier entry.1 = e.name ∧
        listsExactly values entry.2 = true := by
  have hnamed : IsCorrelated document e ∧
      ∃ key, correlatedKey? values (definitions document) = some key ∧ e.name = identifier key := by
    rcases enumerate_cases document values c with
      ⟨key, known, hkey, hmem, hname, hresult⟩ | ⟨key, made, hkey, hmade, hresult⟩ |
        ⟨_, -, hresult⟩ | hresult
    · rw [hresult] at he
      cases he
      exact ⟨h.correlated _ hmem, key, hkey, hname⟩
    · rw [hresult] at he
      cases he
      exact ⟨⟨values, key, hkey, hmade⟩, key, hkey, name_eq_of_enumerationOf? hmade⟩
    · rw [hresult] at he
      cases he
    · rw [hresult] at he
      cases he
  obtain ⟨hcorrelated, key, hkey, hname⟩ := hnamed
  obtain ⟨definition, listed, hmem, hlisted, hsame⟩ := exists_definition_of_correlatedKey? hkey
  refine ⟨hcorrelated, (key, definition), hmem, hname.symm, ?_⟩
  simp only [listsExactly, hlisted]
  exact hsame

end Reached

/-! ### Schemas that list values -/

end Catalog

namespace Schema

/-- Whether a schema is no reference and lists no values. -/
def IsOfKind : Schema → Prop
  | .reference _ | .enumeration _ _ => False
  | _ => True

section Node

variable {node : List (String × Json)}

theorem isOfKind_ofProperties : (ofProperties node).IsOfKind := by
  rw [ofProperties]
  split <;> trivial

theorem isOfKind_ofItems : (ofItems node).IsOfKind := by
  rw [ofItems]
  split <;> trivial

theorem isOfKind_ofUntyped : (ofUntyped node).IsOfKind := by
  rw [ofUntyped]
  split
  · exact isOfKind_ofProperties
  · trivial

theorem isOfKind_ofKind (name : String) : (ofKind name node).IsOfKind := by
  unfold ofKind
  split
  all_goals first | trivial | exact isOfKind_ofItems | exact isOfKind_ofProperties |
    exact isOfKind_ofUntyped

/-- A node that is read by its `type` is no reference and lists no values. -/
theorem isOfKind_ofTyped : (ofTyped node).IsOfKind := by
  rw [ofTyped]
  split
  · exact isOfKind_ofKind _
  · trivial
  · exact isOfKind_ofUntyped

/-- A node that is read as listed values lists them, with its kind standing in. -/
theorem lists_of_ofBranches {values : List Json} {base : Schema}
    (h : ofBranches node = .enumeration values base) :
    listed? node "enum" = some values ∧ base.IsOfKind := by
  rw [ofBranches] at h
  have hplain : ofPlain node = .enumeration values base := by
    split at h
    · cases h
    · split at h
      · cases h
      · split at h
        · exact h
        · exact h
        · cases h
        · cases h
  rw [ofPlain] at hplain
  split at hplain
  · rename_i listed hlisted
    cases hplain
    exact ⟨hlisted, isOfKind_ofTyped⟩
  · have hkind : (ofTyped node).IsOfKind := isOfKind_ofTyped
    rw [hplain] at hkind
    exact hkind.elim

/-- A value that is read as listed values lists them, with its kind standing in. -/
theorem lists_of_ofJson {value : Json} {values : List Json} {base : Schema}
    (h : ofJson value = .enumeration values base) :
    (value.get? "enum").bind Json.asArray? = some values ∧ base.IsOfKind := by
  cases value with
  | object node =>
    rw [ofJson] at h
    split at h
    · cases h
    · split at h
      · cases h
      · exact lists_of_ofBranches h
  | _ =>
    rw [ofJson] at h
    · cases h
    · exact fun _ => Json.noConfusion

end Node

end Schema

namespace Catalog

section Lists

variable {document : Json} {c : Catalog} {follow : String → Catalog → Shape × Catalog}
  {allowed : String → Prop} {e : Enumeration}

theorem withDictionary_ne_enumeration (base value : Shape) (arena : Arena) :
    withDictionary base value arena ≠ .enumeration e := by
  unfold withDictionary
  split <;> exact Shape.noConfusion

theorem ofKinds_ne_enumeration (nullable : Bool) (kinds : List Shape) :
    ofKinds nullable kinds ≠ .enumeration e := by
  unfold ofKinds
  split <;> exact Shape.noConfusion

/-- A schema that is read by its kind is no enumeration. -/
theorem shapeWith_ne_enumeration {schema : Schema} (hread : schema.IsReadWith allowed)
    (hkind : schema.IsOfKind) :
    (shapeWith (definitions document) follow schema c).1 ≠ .enumeration e := by
  cases hread with
  | reference => exact hkind.elim
  | enumeration => exact hkind.elim
  | dictionary _ _ _ => exact withDictionary_ne_enumeration _ _ _
  | kinds _ => exact ofKinds_ne_enumeration _ _
  | _ => exact Shape.noConfusion

/-- A schema that is an enumeration lists values, which are listed as this enumeration. -/
theorem exists_listed_of_shapeWith {schema : Json}
    (hfollow : ∀ r c e, (follow r c).1 ≠ .enumeration e)
    (h : (shapeWith (definitions document) follow (Schema.ofJson schema) c).1 = .enumeration e) :
    ∃ values, (schema.get? "enum").bind Json.asArray? = some values ∧
      (c.enumerate (definitions document) values).1 = some (.enumeration e) := by
  have hread := Schema.isReadWith_ofJson schema
  cases hschema : Schema.ofJson schema with
  | reference r =>
    rw [hschema] at h
    exact absurd h (hfollow r c e)
  | enumeration values base =>
    rw [hschema] at h hread
    obtain ⟨hlisted, hbase⟩ := Schema.lists_of_ofJson hschema
    refine ⟨values, hlisted, ?_⟩
    rw [shapeWith] at h
    generalize c.enumerate (definitions document) values = result at h
    obtain ⟨_ | s, middle⟩ := result
    · cases hread with
      | enumeration _ hreadBase => exact absurd h (shapeWith_ne_enumeration hreadBase hbase)
    · exact congrArg some h
  | _ =>
    rw [hschema] at h hread
    exact absurd h (shapeWith_ne_enumeration hread trivial)

theorem nameWithin_ne_enumeration (level : Nat) (name : String) (target : Json) (c : Catalog) :
    (nameWithin document level name target c).1 ≠ .enumeration e := by
  cases level with
  | zero => exact Shape.noConfusion
  | succ level =>
    rw [nameWithin]
    split <;> exact Shape.noConfusion

theorem followWith_ne_enumeration (level : Nat) (r : String) (c : Catalog) :
    (followWith document (nameWithin document level) r c).1 ≠ .enumeration e := by
  unfold followWith
  split
  · exact nameWithin_ne_enumeration level _ _ c
  · exact Shape.noConfusion

end Lists

/-- A schema that is made an enumeration, after any requests or amid one, lists values, and
a definition that gives the enumeration its name lists exactly these. The constants have
names that are identifiers and differ, and the values that some definition of this name
lists. These are in order the values that were asked for, when no definition of the name
lists others. -/
theorem enumerations_correlated (document : Json) :
    (∀ requests, IsReached document (answers document requests empty).2) ∧
    (∀ c, IsReached document c → ∀ level schema,
      IsReached document (shapeWith (definitions document)
        (followWith document (nameWithin document level)) (Schema.ofJson schema) c).2) ∧
    ∀ c, IsReached document c → ∀ level schema e,
      (shapeWith (definitions document) (followWith document (nameWithin document level))
        (Schema.ofJson schema) c).1 = .enumeration e →
      ∃ values, (schema.get? "enum").bind Json.asArray? = some values ∧
        (∃ entry ∈ definitions document, identifier entry.1 = e.name ∧
          listsExactly values entry.2 = true) ∧
        (e.members.map EnumMember.name).Nodup ∧
        (∀ m ∈ e.members, IsIdentifier m.name) ∧
        (∃ entry ∈ definitions document, identifier entry.1 = e.name ∧
          listsExactly (e.members.map EnumMember.value) entry.2 = true) ∧
        ((∀ entry ∈ definitions document, identifier entry.1 = e.name → ∀ listed,
            (entry.2.get? "enum").bind Json.asArray? = some listed →
              Json.sameElements listed values = true) →
          Json.sameElements (e.members.map EnumMember.value) values = true) := by
  refine ⟨isReached_answers document, fun c hc => hc.walk, fun c hc level schema e h => ?_⟩
  obtain ⟨values, hlisted, hlists⟩ :=
    exists_listed_of_shapeWith (fun r c e => followWith_ne_enumeration level r c) h
  obtain ⟨hcorrelated, hnamed⟩ := hc.listed hlists
  obtain ⟨hmade, hdistinct, hidentifiers, hscalars⟩ := hcorrelated.spec
  refine ⟨values, hlisted, hnamed, hdistinct, hidentifiers, hmade, fun hone => ?_⟩
  obtain ⟨entry, hentry, hname, hexactly⟩ := hmade
  unfold listsExactly at hexactly
  split at hexactly
  · rename_i listed hlisted
    have hasked : Json.sameElements listed values = true := hone entry hentry hname listed hlisted
    refine sameElements_of_left hexactly hasked fun v hv => ?_
    obtain ⟨m, hm, rfl⟩ := List.mem_map.1 hv
    exact hscalars m hm
  · cases hexactly

/-- The shape of a node with an `enum` and nothing else. -/
theorem shapeOf_enum (document : Json) (values : List Json) (c : Catalog) :
    shapeOf document (.object [("enum", .array values)]) c =
      match c.enumerate (definitions document) values with
      | (some s, c) => (s, c)
      | (none, c) => (.any, c) := by
  have hread : Schema.ofJson (.object [("enum", .array values)]) =
      .enumeration values .anything := by
    simp [Schema.ofJson, Schema.ofBranches, Schema.ofPlain, Schema.ofTyped, Schema.ofUntyped,
      Schema.listed?, Json.find?, Json.asArray?]
  rw [shapeOf, hread]
  rfl

/-- Two texts that make one identifier and a number, asked for twice: the second constant
gets a count, and the enumeration is the one that was asked for. -/
theorem enumerations_correlated_status :
    let values : List Json := [.string "a-b", .string "a_b", .number (.integer 1)]
    let status : Json := .object [("enum", .array values)]
    let document : Json := .object [("definitions", .object [("Status", status)])]
    let c := (answers document [.shape status] empty).2
    let e : Enumeration := ⟨"Status", [⟨"a_b", .string "a-b"⟩, ⟨"a_b_1", .string "a_b"⟩,
      ⟨"_1", .number (.integer 1)⟩]⟩
    IsReached document c ∧ (shapeOf document status c).1 = .enumeration e ∧
      (∀ entry ∈ definitions document, identifier entry.1 = e.name → ∀ listed,
        (entry.2.get? "enum").bind Json.asArray? = some listed →
          Json.sameElements listed values = true) ∧
      (e.members.map EnumMember.name).Nodup ∧ (∀ m ∈ e.members, IsIdentifier m.name) ∧
      Json.sameElements (e.members.map EnumMember.value) values = true := by
  intro values status document c e
  have hkey : correlatedKey? values (definitions document) = some "Status" := rfl
  have hname : identifier "Status" = "Status" := rfl
  have hmade : enumerationOf? "Status" values = some e := rfl
  have hc : c = { empty with enums := [e] } := by
    change (shapeOf document status empty).2 = _
    simp [status, shapeOf_enum, enumerate, hkey, hname, hmade, empty]
  have hshape : (shapeOf document status c).1 = .enumeration e := by
    simp [hc, status, shapeOf_enum, enumerate, hkey, hname, e]
  have hone : ∀ entry ∈ definitions document, identifier entry.1 = e.name → ∀ listed,
      (entry.2.get? "enum").bind Json.asArray? = some listed →
        Json.sameElements listed values = true := by
    intro entry hentry _ listed hlisted
    obtain rfl : entry = ("Status", status) := List.mem_singleton.1 hentry
    cases hlisted
    rfl
  obtain ⟨hrequests, -, hlists⟩ := enumerations_correlated document
  have hreached : IsReached document c := hrequests _
  obtain ⟨asked, hasked, -, hdistinct, hidentifiers, -, hvalues⟩ :=
    hlists c hreached (levels document) status e hshape
  cases hasked
  exact ⟨hreached, hshape, hone, hdistinct, hidentifiers, hvalues hone⟩

/-- Two definitions of one name that list different values: the second schema lists `y`, and
is the enumeration of the definition that lists `x`. -/
theorem enumeration_of_other_values :
    let listing : String → Json := fun text => .object [("enum", .array [.string text])]
    let document : Json :=
      .object [("definitions", .object [("a-b", listing "x"), ("a_b", listing "y")])]
    let c := (answers document [.shape (listing "x")] empty).2
    let e : Enumeration := ⟨"a_b", [⟨"x", .string "x"⟩]⟩
    IsReached document c ∧ (shapeOf document (listing "y") c).1 = .enumeration e ∧
      ((listing "y").get? "enum").bind Json.asArray? = some [.string "y"] ∧
      Json.sameElements (e.members.map EnumMember.value) [.string "y"] = false := by
  intro listing document c e
  have hx : correlatedKey? [.string "x"] (definitions document) = some "a-b" := rfl
  have hy : correlatedKey? [.string "y"] (definitions document) = some "a_b" := rfl
  have hdash : identifier "a-b" = "a_b" := rfl
  have hunderscore : identifier "a_b" = "a_b" := rfl
  have hmade : enumerationOf? "a_b" [.string "x"] = some e := rfl
  have hc : c = { empty with enums := [e] } := by
    change (shapeOf document (listing "x") empty).2 = _
    simp [listing, shapeOf_enum, enumerate, hx, hdash, hmade, empty]
  refine ⟨isReached_answers _ _, ?_, rfl, by decide⟩
  simp [hc, listing, shapeOf_enum, enumerate, hy, hunderscore, e]

end Catalog

end TypedClient
