/-!
# Folders and files

A folder holds named entries, each a folder or a file, so a list of names leads
from a folder to what is in it. The laws say what putting something at a place and
erasing a place do to what is found: it is found at its place, and places that are
neither inside nor above it are left alone.
-/

namespace TypedClient.Files

/-- Names from a folder downwards. -/
abbrev Place := List String

/-- A folder or a file. -/
inductive Node where
  /-- A folder with what is in it, by name. -/
  | folder (entries : List (String × Node))
  /-- A file with its text. -/
  | file (text : String)

namespace Node

/-- A folder with nothing in it. -/
def emptyFolder : Node := .folder []

/-- Whether a node is a folder. -/
def isFolder : Node → Bool
  | .folder _ => true
  | .file _ => false

/-- What is in a node; there is nothing in a file. -/
def entries : Node → List (String × Node)
  | .folder entries => entries
  | .file _ => []

/-- What has a name in a node. -/
def child? (node : Node) (name : String) : Option Node := node.entries.lookup name

/-- Give a name to a node among entries. Another node loses the name. -/
def setEntry (name : String) (node : Node) : List (String × Node) → List (String × Node)
  | [] => [(name, node)]
  | (other, inner) :: rest =>
    if other = name then (name, node) :: rest else (other, inner) :: setEntry name node rest

/-- What is at a place. -/
def find? (node : Node) : Place → Option Node
  | [] => some node
  | name :: rest => (node.child? name).bind fun child => child.find? rest

/-- Put something at a place, in folders that are made as far as they are missing. -/
def put (node : Node) (place : Place) (new : Node) : Node :=
  match place with
  | [] => new
  | name :: rest =>
    .folder (setEntry name (((node.child? name).getD emptyFolder).put rest new) node.entries)

/-- Take away what is at a place. -/
def erase (node : Node) : Place → Node
  | [] => node
  | [name] => .folder (node.entries.filter (·.1 != name))
  | name :: rest =>
    match node.child? name with
    | some child => .folder (setEntry name (child.erase rest) node.entries)
    | none => node

mutual

/-- The files at or below a node, by place. -/
def files : Node → List (Place × String)
  | .file text => [([], text)]
  | .folder entries => filesOfAll entries

/-- The files at or below entries, by place. -/
def filesOfAll : List (String × Node) → List (Place × String)
  | [] => []
  | (name, node) :: rest =>
    (files node).map (fun (place, text) => (name :: place, text)) ++ filesOfAll rest

end

/-! ### What is found -/

theorem lookup_setEntry_self (name : String) (node : Node) (entries : List (String × Node)) :
    (setEntry name node entries).lookup name = some node := by
  induction entries with
  | nil => simp [setEntry]
  | cons entry rest ih =>
    obtain ⟨other, inner⟩ := entry
    by_cases h : other = name
    · simp [setEntry, h]
    · have hb : (name == other) = false := by simpa using Ne.symm h
      simp [setEntry, h, List.lookup_cons, hb, ih]

theorem lookup_setEntry_of_ne {name other : String} (h : other ≠ name) (node : Node)
    (entries : List (String × Node)) :
    (setEntry name node entries).lookup other = entries.lookup other := by
  have hb : (other == name) = false := by simpa using h
  induction entries with
  | nil => simp [setEntry, List.lookup_cons, hb]
  | cons entry rest ih =>
    obtain ⟨key, inner⟩ := entry
    by_cases hk : key = name
    · subst hk
      simp [setEntry, List.lookup_cons, hb]
    · simp only [setEntry, hk, if_false, List.lookup_cons, ih]

theorem lookup_filter_of_ne {name other : String} (h : other ≠ name)
    (entries : List (String × Node)) :
    (entries.filter (·.1 != name)).lookup other = entries.lookup other := by
  induction entries with
  | nil => rfl
  | cons entry rest ih =>
    obtain ⟨key, inner⟩ := entry
    by_cases hk : key = name
    · subst hk
      have hb : (other == key) = false := by simpa using h
      simp [List.lookup_cons, hb, ih]
    · simp only [List.filter_cons, bne_iff_ne, ne_eq, hk, not_false_eq_true, if_true,
        List.lookup_cons, ih]

theorem child?_setEntry_self (node new : Node) (name : String) :
    (folder (setEntry name new node.entries)).child? name = some new :=
  lookup_setEntry_self name new node.entries

theorem child?_setEntry_of_ne (node new : Node) {name other : String} (h : other ≠ name) :
    (folder (setEntry name new node.entries)).child? other = node.child? other :=
  lookup_setEntry_of_ne h new node.entries

theorem child?_filter_of_ne (node : Node) {name other : String} (h : other ≠ name) :
    (folder (node.entries.filter (·.1 != name))).child? other = node.child? other :=
  lookup_filter_of_ne h node.entries

@[simp] theorem find?_nil (node : Node) : node.find? [] = some node := rfl

theorem find?_cons (node : Node) (name : String) (rest : Place) :
    node.find? (name :: rest) = (node.child? name).bind fun child => child.find? rest := rfl

/-- There is nothing in an empty folder. -/
theorem find?_emptyFolder_cons (name : String) (rest : Place) :
    emptyFolder.find? (name :: rest) = none := rfl

/-- What was put at a place is found there. -/
theorem find?_put_self (node : Node) (place : Place) (new : Node) :
    (node.put place new).find? place = some new := by
  induction place generalizing node with
  | nil => rfl
  | cons name rest ih => rw [put, find?_cons, child?_setEntry_self, Option.bind_some, ih]

/-- Putting something at a place leaves alone what is neither inside nor above it. -/
theorem find?_put_of_apart (node : Node) {place other : Place} (new : Node)
    (hin : ¬place <+: other) (hup : ¬other <+: place) :
    (node.put place new).find? other = node.find? other := by
  induction place generalizing node other with
  | nil => exact absurd List.nil_prefix hin
  | cons name rest ih =>
    cases other with
    | nil => exact absurd List.nil_prefix hup
    | cons first below =>
      by_cases h : first = name
      · subst h
        have hin' : ¬rest <+: below := fun hp => hin (List.cons_prefix_cons.2 ⟨rfl, hp⟩)
        have hup' : ¬below <+: rest := fun hp => hup (List.cons_prefix_cons.2 ⟨rfl, hp⟩)
        rw [put, find?_cons, child?_setEntry_self, Option.bind_some, ih _ hin' hup', find?_cons]
        cases node.child? first with
        | some child => rfl
        | none =>
          cases below with
          | nil => exact absurd List.nil_prefix hup'
          | cons second deeper => rfl
      · rw [put, find?_cons, child?_setEntry_of_ne node _ h, find?_cons]

/-- Erasing a place leaves alone what is neither inside nor above it. -/
theorem find?_erase_of_apart (node : Node) {place other : Place}
    (hin : ¬place <+: other) (hup : ¬other <+: place) :
    (node.erase place).find? other = node.find? other := by
  induction place generalizing node other with
  | nil => exact absurd List.nil_prefix hin
  | cons name rest ih =>
    cases other with
    | nil => exact absurd List.nil_prefix hup
    | cons first below =>
      by_cases h : first = name
      · subst h
        have hin' : ¬rest <+: below := fun hp => hin (List.cons_prefix_cons.2 ⟨rfl, hp⟩)
        have hup' : ¬below <+: rest := fun hp => hup (List.cons_prefix_cons.2 ⟨rfl, hp⟩)
        cases rest with
        | nil => exact absurd List.nil_prefix hin'
        | cons second deeper =>
          cases hc : node.child? first with
          | none => simp [erase, hc]
          | some child =>
            simp only [erase, hc]
            rw [find?_cons, child?_setEntry_self, Option.bind_some, ih child hin' hup', find?_cons,
              hc, Option.bind_some]
      · cases rest with
        | nil => rw [erase, find?_cons, child?_filter_of_ne node h, find?_cons]
        | cons second deeper =>
          cases hc : node.child? name with
          | none => simp [erase, hc]
          | some child =>
            simp only [erase, hc]
            rw [find?_cons, child?_setEntry_of_ne node _ h, find?_cons]

end Node

end TypedClient.Files
