import TypedClient.Proofs.TypeScript.Spelling

/-!
# Names that are read as keywords

The identifier for a name is a word, and its text is read as the type of that name unless it
is a word of the grammar. Of these words only the reserved ones get an underscore, so the
names of the others keep the text of a keyword.
-/

namespace TypedClient.TypeScript

/-- The identifier for a name is a word of the grammar exactly when the name is that word
and the word is not reserved. -/
theorem identifier_eq_typeWord {name w : String} (h : w ∈ typeWords) :
    identifier name = w ↔ name = w ∧ w ∉ reservedWords := by
  constructor
  · rintro rfl
    have hplain : ∀ v ∈ typeWords, '_' ∉ v.toList := by decide
    exact ⟨(identifier_of_not_underscore (hplain _ h)).symm,
      (isIdentifier_identifier name).unreserved⟩
  · rintro ⟨rfl, hfree⟩
    have hword := isWord_of_mem_typeWords h
    exact IsIdentifier.identifier_eq ⟨hword.characters, hword.start, hfree⟩

/-- The identifier for a name is a word. -/
theorem isWord_identifier (name : String) : IsWord (identifier name) :=
  ⟨(isIdentifier_identifier name).characters, (isIdentifier_identifier name).start⟩

/-- A word is the text of the type of that name, and is read as that type exactly when it is
no word of the grammar. -/
theorem isReading_named {name : String} (h : IsWord name) :
    IsReading (TypeNode.named name).text (.named name) ↔ name ∉ typeWords := by
  have htokens : tokens? (TypeNode.named name).text.toList = some [.word name] := by
    have hread := isRead_word h [] (by simp [Stops])
    rw [List.append_nil] at hread
    exact hread
  constructor
  · rintro ⟨tokens, ts, hts, hspells, hnamed⟩ hmem
    obtain rfl := Option.some.inj (hts.symm.trans htokens)
    rcases List.mem_cons.1 hmem with rfl | hmem
    · have hnone : Reader.type? [.word "readonly"] = none := rfl
      exact Option.some_ne_none _ (hspells.reads.symm.trans hnone)
    · obtain ⟨⟨w, t⟩, hw, rfl⟩ := List.mem_map.1 hmem
      have hunnamed : ∀ p ∈ wordTypes, p.2 ≠ .named w := by simp [wordTypes, TypeNode.named]
      have hword := hspells.unique (.alternative (.factor (.word hw)))
      exact hunnamed (w, t) hw (hnamed.trans hword).symm
  · intro hname
    exact ⟨_, _, htokens, .alternative (.factor (.name hname)), rfl⟩

/-- The identifier for a name is one, and the identifier for itself. The type of that name is
written like a keyword exactly when the name is the word of that keyword and is not reserved.
It is read as the type of that name whenever the name is no word of the grammar, or reserved. -/
theorem identifier_names_type (name : String) :
    IsIdentifier (identifier name) ∧
      identifier (identifier name) = identifier name ∧
      (∀ k : Keyword, (TypeNode.named (identifier name)).text = (TypeNode.keyword k).text ↔
        name = k.word ∧ k.word ∉ reservedWords) ∧
      (IsReading (TypeNode.named (identifier name)).text (.named (identifier name)) ↔
        (name ∈ typeWords → name ∈ reservedWords)) := by
  have hidentifier := isIdentifier_identifier name
  refine ⟨hidentifier, hidentifier.identifier_eq,
    fun k => identifier_eq_typeWord (word_mem_typeWords k), ?_⟩
  rw [isReading_named (isWord_identifier name)]
  constructor
  · intro hname hmem
    by_contra hfree
    exact hname (((identifier_eq_typeWord hmem).2 ⟨rfl, hfree⟩).symm ▸ hmem)
  · intro hreserved hmem
    obtain ⟨hname, hfree⟩ := (identifier_eq_typeWord hmem).1 rfl
    rw [← hname] at hmem hfree
    exact hfree (hreserved hmem)

/-- A type that is called `string` is written and read as the keyword, and so are those that
are called like the other keywords which are not reserved. -/
theorem identifier_is_keyword :
    (TypeNode.named (identifier "string")).text = (TypeNode.keyword .string).text ∧
      IsReading (TypeNode.named (identifier "string")).text (.keyword .string) ∧
      ∀ k : Keyword, k ≠ .void → k ≠ .null →
        (TypeNode.named (identifier k.word)).text = (TypeNode.keyword k).text := by
  have hall : ∀ k : Keyword, k ≠ .void → k ≠ .null → identifier k.word = k.word := by
    intro k hvoid hnull
    refine (identifier_eq_typeWord (word_mem_typeWords k)).2 ⟨rfl, ?_⟩
    cases k <;> first | decide | contradiction
  have hstring : identifier "string" = "string" := hall .string (by decide) (by decide)
  have hword : (("string", TypeNode.keyword .string) : String × TypeNode) ∈ wordTypes := by
    simp [wordTypes]
  rw [hstring]
  exact ⟨rfl, ⟨_, _, rfl, .alternative (.factor (.word hword)), rfl⟩, hall⟩

end TypedClient.TypeScript
