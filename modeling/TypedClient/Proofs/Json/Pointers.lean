import TypedClient.Json.Pointer
import TypedClient.Proofs.Text.Splitting

/-!
# Pointers that are written and read

A key is written with its tildes as `~0` and its slashes as `~1`. Reading turns `~1` back
first: in what was written a tilde is followed by `0` where the key has a tilde, so no other
slash comes about, whatever the key looks like. As no slash is left in a key, a pointer is cut
into the keys that it was written of.
-/

namespace TypedClient.Json

/-- The pointer that leads down by keys. -/
def pointerOf (keys : List (List Char)) : List Char := keys.flatMap fun key => '/' :: escapeKey key

/-- One character is replaced wherever it stands. -/
theorem replaceAll_singleton (c : Char) (by_ text : List Char) :
    Text.replaceAll [c] by_ text = text.flatMap fun d => if d = c then by_ else [d] := by
  have hafter : Text.replaceAfter [c] by_ 0 text =
      text.flatMap fun d => if d = c then by_ else [d] := by
    induction text with
    | nil => rfl
    | cons d rest ih =>
      rw [List.flatMap_cons, ← ih, Text.replaceAfter]
      by_cases hd : d = c
      · simp [hd]
      · have hne : c ≠ d := Ne.symm hd
        simp [hd, hne]
  exact hafter

/-- A key is written character by character. -/
theorem escapeKey_cons (c : Char) (key : List Char) :
    escapeKey (c :: key) =
      (if c = '~' then ['~', '0'] else if c = '/' then ['~', '1'] else [c]) ++ escapeKey key := by
  simp only [escapeKey, replaceAll_singleton]
  by_cases htilde : c = '~'
  · simp [htilde]
  · by_cases hslash : c = '/' <;> simp [htilde, hslash]

/-- No slash is left in a key that is written. -/
theorem slash_not_mem_escapeKey (key : List Char) : '/' ∉ escapeKey key := by
  induction key with
  | nil => exact List.not_mem_nil
  | cons c rest ih =>
    rw [escapeKey_cons, List.mem_append, not_or]
    refine ⟨?_, ih⟩
    split
    · decide
    · split
      · decide
      · rename_i hslash
        simpa using Ne.symm hslash

/-- Reading the slashes of a key that is written leaves its tildes written. -/
theorem unescape_slashes (key : List Char) :
    Text.replaceAll ['~', '1'] ['/'] (escapeKey key) = Text.replaceAll ['~'] ['~', '0'] key := by
  have hafter : Text.replaceAfter ['~', '1'] ['/'] 0 (escapeKey key) =
      key.flatMap fun d => if d = '~' then ['~', '0'] else [d] := by
    induction key with
    | nil => rfl
    | cons c rest ih =>
      rw [escapeKey_cons, List.flatMap_cons, ← ih]
      by_cases htilde : c = '~'
      · simp [htilde, Text.replaceAfter]
      · by_cases hslash : c = '/'
        · simp [hslash, Text.replaceAfter]
        · have hne : '~' ≠ c := Ne.symm htilde
          simp [htilde, hslash, Text.replaceAfter, hne]
  rw [replaceAll_singleton]
  exact hafter

/-- Reading the tildes of a key leaves it as it was. -/
theorem unescape_tildes (key : List Char) :
    Text.replaceAll ['~', '0'] ['~'] (Text.replaceAll ['~'] ['~', '0'] key) = key := by
  have hafter : Text.replaceAfter ['~', '0'] ['~'] 0
      (key.flatMap fun d => if d = '~' then ['~', '0'] else [d]) = key := by
    induction key with
    | nil => rfl
    | cons c rest ih =>
      rw [List.flatMap_cons]
      by_cases htilde : c = '~'
      · simp [htilde, Text.replaceAfter, ih]
      · have hne : '~' ≠ c := Ne.symm htilde
        simp [htilde, Text.replaceAfter, hne, ih]
  rw [replaceAll_singleton]
  exact hafter

/-- A key is read as it was before it was written. -/
theorem unescapeKey_escapeKey (key : List Char) : unescapeKey (escapeKey key) = key := by
  rw [unescapeKey, unescape_slashes, unescape_tildes]

/-- A text that begins with a slash is cut behind the slash into the keys that it was written
of. -/
theorem splitAt_pointerOf (key : List Char) (keys : List (List Char)) :
    Text.splitAt '/' (escapeKey key ++ pointerOf keys) = (key :: keys).map escapeKey := by
  induction keys generalizing key with
  | nil =>
    have hnone : pointerOf [] = [] := rfl
    rw [hnone, List.append_nil, Text.splitAt_of_not_mem (slash_not_mem_escapeKey key)]
    rfl
  | cons next keys ih =>
    have hnext : pointerOf (next :: keys) = '/' :: (escapeKey next ++ pointerOf keys) := rfl
    rw [hnext, Text.splitAt_append_cons (slash_not_mem_escapeKey key), ih]
    rfl

/-- A pointer leads down by the keys that it was written of. -/
theorem pointer?_pointerOf (value : Json) (keys : List (List Char)) :
    value.pointer? (pointerOf keys) = value.descend? keys := by
  cases keys with
  | nil => rfl
  | cons key keys =>
    have hkeys : (key :: keys).map (unescapeKey ∘ escapeKey) = key :: keys :=
      List.map_id'' unescapeKey_escapeKey _
    have hpointer : pointerOf (key :: keys) = '/' :: (escapeKey key ++ pointerOf keys) := rfl
    rw [hpointer, pointer?, splitAt_pointerOf, List.map_map, hkeys]

end TypedClient.Json
