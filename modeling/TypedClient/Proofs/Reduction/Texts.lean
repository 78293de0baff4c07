import TypedClient.Proofs.Reduction.Inheritance
import TypedClient.Proofs.Shape.Texts

/-!
# Texts of a reduced shape

Widening takes texts from the keys of a sample, and settling puts documentation together line
by line. Nothing else becomes of the texts in a shape, so what is reduced is written with the
texts that the shape is written with.
-/

namespace TypedClient.Shape

variable {allowed : String → Prop} {s : Shape}

/-- A general scalar is written as a value without texts, or as the empty text. -/
theorem isWrittenWith_kind (hlines : AllowsLines allowed) {value : Json}
    (h : ∀ text, value = .string text → text = "") (hscalar : value.isComposite = false)
    (constant : Bool) : (Shape.literal ⟨some value, constant⟩).IsWrittenWith allowed := by
  refine isWrittenWith_literal.2 fun v hv => ?_
  cases hv
  cases value with
  | string text => exact Json.isWrittenWith_string.2 (h text rfl ▸ hlines.empty)
  | array | object => cases hscalar
  | _ => exact Json.everywhere_iff.2 ⟨trivial, nofun⟩

/-- The shape of a sample has no other texts than the keys of the sample. -/
theorem isWrittenWith_ofSample (hlines : AllowsLines allowed) {value : Json}
    (h : value.IsWrittenWith allowed) : (ofSample value).IsWrittenWith allowed := by
  induction value using Json.tree_induction with
  | array elements ih =>
    rw [ofSample, ofSamples_eq_map]
    refine isWrittenWith_array.2 (isWrittenWith_union fun m hm => ?_)
    obtain ⟨v, hv, rfl⟩ := List.mem_map.1 hm
    exact ih v hv (Json.isWrittenWith_array.1 h v hv)
  | object members ih =>
    rw [ofSample, fieldsOfSample_eq_map]
    refine isWrittenWith_ofFields fun f hf => ?_
    obtain ⟨m, hm, rfl⟩ := List.mem_map.1 hf
    obtain ⟨hkey, hvalue⟩ := Json.isWrittenWith_object.1 h m hm
    exact ⟨⟨fun name hname => Key.named.inj hname ▸ hkey, by simp [Field.named],
      by simp [Field.named]⟩, ih m hm hvalue⟩
  | _ => exact isWrittenWith_kind hlines (by simp) rfl false

/-- Documentation of a field that two objects have. -/
theorem allowed_joinDocs (hlines : AllowsLines allowed) {doc doc' : Option String}
    (h : ∀ text, doc = some text → allowed text) (h' : ∀ text, doc' = some text → allowed text)
    (text : String) (htext : joinDocs doc doc' = some text) : allowed text := by
  match doc, doc' with
  | none, _ => exact h' text htext
  | some _, none => exact h text htext
  | some a, some b =>
    rw [joinDocs] at htext
    split at htext
    · exact h text htext
    · cases htext
      exact hlines.below a b (h a rfl) (h' b rfl)

/-- A field that two objects have is written with the texts of theirs. -/
theorem isWrittenWith_uniteFields (hlines : AllowsLines allowed) (unite : List Shape → Shape)
    {f g : Field Shape} (hf : f.IsWrittenWith allowed) (hg : g.IsWrittenWith allowed) :
    (uniteFields unite f g).IsWrittenWith allowed := by
  refine ⟨hf.key, allowed_joinDocs hlines hf.doc hg.doc, fun value hvalue => ?_⟩
  change f.default.or g.default = some value at hvalue
  rcases Option.or_eq_some_iff.1 hvalue with hvalue | ⟨-, hvalue⟩
  · exact hf.default value hvalue
  · exact hg.default value hvalue

/-- A merged field is written with the texts of the field so far. -/
theorem isWrittenWith_toField {m : Merged} (h : m.field.IsWrittenWith allowed) (c : Connective)
    (sources : Nat) : (m.toField c sources).IsWrittenWith allowed := by
  have hopen : ∀ f : Field Shape, f.IsWrittenWith allowed →
      (openNullish f).IsWrittenWith allowed := by
    intro f hf
    unfold openNullish
    split
    · split
      · exact ⟨hf.key, hf.doc, hf.default⟩
      · exact hf
    · exact hf
  unfold Merged.toField
  split
  · exact hopen _ ⟨h.key, h.doc, h.default⟩
  · exact hopen _ h

/-- Settling puts documentation together and makes no other texts. -/
theorem inherited_usesOnly (hlines : AllowsLines allowed) (threshold : Nat) :
    Inherited threshold (UsesOnly allowed) where
  any := trivial
  array _ := trivial
  tuple _ := trivial
  joined _ _ _ := trivial
  values fields g h := by
    intro g' hg'
    obtain ⟨f, hf, rfl⟩ := List.mem_map.1 hg'
    exact (h f hf).mapValue g
  merged c _ objects h _ := by
    rw [mergedFields_eq]
    split
    · intro f hf
      rw [List.mem_singleton.1 hf]
      exact ⟨nofun, nofun, nofun⟩
    · exact forall_mem_wideFields (fun _ _ _ => isWrittenWith_uniteFields hlines _)
        (fun _ _ hm => isWrittenWith_toField hm c _) h

/-- Widening makes no texts but those of samples. -/
theorem IsWrittenWith.widen (hlines : AllowsLines allowed) (h : s.IsWrittenWith allowed)
    (precise : Bool) : (s.widen precise).IsWrittenWith allowed := by
  refine Everywhere.widen (fun _ => trivial) (fun _ => trivial) (fun _ _ _ _ _ => trivial)
    (inherited_usesOnly hlines 0).values (fun l hl => ?_) h
  cases hvalue : l.value with
  | none => exact isWrittenWith_literal.2 nofun
  | some value => exact isWrittenWith_ofSample hlines (h _ hl value hvalue)

/-- Reducing makes no texts but those of samples, and puts documentation together. -/
theorem IsWrittenWith.reduce (hlines : AllowsLines allowed) (h : s.IsWrittenWith allowed)
    (reduction : Reduction) : (s.reduce reduction).IsWrittenWith allowed := by
  rw [reduce_eq]
  exact (h.widen hlines reduction.precise).settle (inherited_usesOnly hlines _)

/-- A shape that is guessed is written with the texts of the sample. -/
theorem isWrittenWith_infer (hlines : AllowsLines allowed) {value : Json}
    (h : value.IsWrittenWith allowed) : (infer value).IsWrittenWith allowed :=
  (isWrittenWith_ofSample hlines h).reduce hlines {}

end TypedClient.Shape
