import TypedClient.Files.Disk

/-!
# What putting and erasing change

Of what is at a place it is enough to know whether it is a folder or a file with some
text. Putting a file or an empty folder where no folder is, in a folder that exists,
changes this at the place and nowhere else, and so does erasing a file.
-/

namespace TypedClient.Files

/-- What is known of a node without what is in it. -/
inductive Kind where
  /-- A folder. -/
  | folder
  /-- A file with its text. -/
  | file (text : String)
  deriving DecidableEq, Repr

namespace Node

variable {node child new folder : Node} {name : String} {front place : Place}

/-- The kind of a node. -/
def kind : Node → Kind
  | .folder _ => .folder
  | .file text => .file text

/-- The kind of what is at a place. -/
def kind? (node : Node) (place : Place) : Option Kind := (node.find? place).map kind

theorem kind_eq_folder : node.kind = .folder ↔ node.isFolder := by
  cases node <;> simp [kind, isFolder]

theorem kind_eq_file {text : String} : node.kind = .file text ↔ node = .file text := by
  cases node <;> simp [kind]

@[simp] theorem kind?_nil (node : Node) : node.kind? [] = some node.kind := rfl

theorem kind?_cons (node : Node) (name : String) (rest : Place) :
    node.kind? (name :: rest) = (node.child? name).bind fun child => child.kind? rest := by
  rw [kind?, find?_cons]
  cases node.child? name <;> rfl

/-- A place further down is found from the place above it. -/
theorem find?_append (node : Node) (front rest : Place) :
    node.find? (front ++ rest) = (node.find? front).bind fun inner => inner.find? rest := by
  induction front generalizing node with
  | nil => rfl
  | cons name front ih =>
    rw [List.cons_append, find?_cons, find?_cons]
    cases node.child? name with
    | none => rfl
    | some child => exact ih child

/-- What has a name in the folder at a place. -/
theorem find?_append_singleton (h : node.find? front = some folder) :
    node.find? (front ++ [name]) = folder.child? name := by
  rw [find?_append, h, Option.bind_some, find?_cons]
  cases folder.child? name <;> rfl

/-- A node that has something in it is a folder. -/
theorem kind_of_child? (h : node.child? name = some child) : node.kind = .folder := by
  cases node with
  | folder entries => rfl
  | file text => cases h

/-- Setting an entry of a folder changes what is found there and nowhere else. -/
theorem kind?_setEntry (node new : Node) (name : String) (q : Place) :
    (Node.folder (setEntry name new node.entries)).kind? (name :: q) = new.kind? q := by
  rw [kind?_cons, child?_setEntry_self, Option.bind_some]

theorem kind?_setEntry_of_ne (node new : Node) {other : String} (h : other ≠ name) (q : Place) :
    (Node.folder (setEntry name new node.entries)).kind? (other :: q) =
      node.kind? (other :: q) := by
  rw [kind?_cons, child?_setEntry_of_ne node new h, kind?_cons]

/-- Below a name that is no folder's there is nothing. -/
theorem kind?_cons_cons_of_ne_folder (h : node.kind? [name] ≠ some .folder) (first : String)
    (rest : Place) : node.kind? (name :: first :: rest) = none := by
  rw [kind?_cons] at h ⊢
  cases hc : node.child? name with
  | none => rfl
  | some child =>
    rw [hc, Option.bind_some, kind?_nil] at h
    rw [Option.bind_some]
    cases child with
    | folder entries => exact absurd rfl h
    | file text => rfl

/-- Putting something without contents where no folder is, in a folder that exists,
changes what is at the place and nothing else. -/
theorem kind?_put (hfolder : node.kind? front = some .folder)
    (hold : node.kind? (front ++ [name]) ≠ some .folder) (hnew : new.entries = []) (q : Place) :
    (node.put (front ++ [name]) new).kind? q =
      if q = front ++ [name] then some new.kind else node.kind? q := by
  induction front generalizing node q with
  | nil =>
    rw [List.nil_append, put, put]
    rw [List.nil_append] at hold
    cases q with
    | nil => rw [if_neg (by simp), hfolder]; rfl
    | cons first rest =>
      by_cases h : first = name
      · subst h
        rw [kind?_setEntry]
        cases rest with
        | nil => rw [if_pos rfl, kind?_nil]
        | cons second rest =>
          rw [if_neg (by simp), kind?_cons_cons_of_ne_folder hold, kind?_cons, child?, hnew]
          rfl
      · rw [kind?_setEntry_of_ne _ _ h, if_neg (by simp [h])]
  | cons above front ih =>
    rw [kind?_cons] at hfolder
    obtain ⟨child, hchild, hbelow⟩ := Option.bind_eq_some_iff.1 hfolder
    rw [List.cons_append, kind?_cons, hchild] at hold
    rw [List.cons_append, put, hchild, Option.getD_some]
    cases q with
    | nil => rw [if_neg (by simp), kind?_nil, kind?_nil, kind_of_child? hchild]; rfl
    | cons first rest =>
      by_cases h : first = above
      · subst h
        rw [kind?_setEntry, ih hbelow hold, kind?_cons, hchild, Option.bind_some]
        simp
      · rw [kind?_setEntry_of_ne _ _ h, if_neg (by simp [h])]

/-- Entries that are left after a name was taken away have no such name. -/
theorem lookup_filter_self (name : String) (entries : List (String × Node)) :
    (entries.filter (·.1 != name)).lookup name = none := by
  refine List.lookup_eq_none_iff.2 fun entry h => ?_
  have hne := (List.mem_filter.1 h).2
  rw [bne_iff_ne] at hne
  exact bne_iff_ne.2 hne.symm

/-- Erasing what is no folder, in a folder that exists, changes what is at the place and
nothing else. -/
theorem kind?_erase (hfolder : node.kind? front = some .folder)
    (hold : node.kind? (front ++ [name]) ≠ some .folder) (q : Place) :
    (node.erase (front ++ [name])).kind? q =
      if q = front ++ [name] then none else node.kind? q := by
  induction front generalizing node q with
  | nil =>
    rw [List.nil_append, erase]
    rw [List.nil_append] at hold
    cases q with
    | nil => rw [if_neg (by simp), hfolder]; rfl
    | cons first rest =>
      by_cases h : first = name
      · subst h
        have hgone : (Node.folder (List.filter (·.1 != first) node.entries)).kind?
            (first :: rest) = none := by
          rw [kind?_cons, child?, Node.entries, lookup_filter_self]
          rfl
        rw [hgone]
        cases rest with
        | nil => rw [if_pos rfl]
        | cons second rest => rw [if_neg (by simp), kind?_cons_cons_of_ne_folder hold]
      · rw [kind?_cons, child?_filter_of_ne _ h, ← kind?_cons, if_neg (by simp [h])]
  | cons above front ih =>
    rw [kind?_cons] at hfolder
    obtain ⟨child, hchild, hbelow⟩ := Option.bind_eq_some_iff.1 hfolder
    rw [List.cons_append, kind?_cons, hchild] at hold
    have herase : node.erase (above :: front ++ [name]) =
        .folder (setEntry above (child.erase (front ++ [name])) node.entries) := by
      cases front <;> simp [erase, hchild]
    rw [herase]
    cases q with
    | nil => rw [if_neg (by simp), kind?_nil, kind?_nil, kind_of_child? hchild]; rfl
    | cons first rest =>
      by_cases h : first = above
      · subst h
        rw [kind?_setEntry, ih hbelow hold, kind?_cons, hchild, Option.bind_some]
        simp
      · rw [kind?_setEntry_of_ne _ _ h, if_neg (by simp [h])]

end Node

namespace Disk

variable {disk : Disk} {place : Place}

/-- The kind of what is at a place. -/
def kind? (disk : Disk) (place : Place) : Option Kind := disk.root.kind? place

theorem text?_eq_some_iff {text : String} :
    disk.text? place = some text ↔ disk.kind? place = some (.file text) := by
  rw [text?, kind?, Node.kind?, node?]
  cases disk.root.find? place with
  | none => simp
  | some node => cases node <;> simp [Node.kind]

/-- A file is no folder. -/
theorem kind?_ne_folder_of_file {text : String} (h : disk.kind? place = some (.file text)) :
    disk.kind? place ≠ some .folder := by
  rw [h]
  intro hfolder
  cases hfolder

/-- There is no folder where nothing is. -/
theorem kind?_ne_folder_of_none (h : disk.kind? place = none) :
    disk.kind? place ≠ some .folder := by
  rw [h]
  decide

/-- Places with the same kind of thing have the same text. -/
theorem text?_congr {other : Disk} {q : Place} (h : other.kind? q = disk.kind? place) :
    other.text? q = disk.text? place := by
  refine Option.ext fun text => ?_
  rw [text?_eq_some_iff, text?_eq_some_iff, h]

theorem text?_eq_none_of_kind? (h : disk.kind? place = none) : disk.text? place = none := by
  refine Option.eq_none_iff_forall_ne_some.2 fun text htext => ?_
  rw [text?_eq_some_iff, h] at htext
  cases htext

/-- There is no text in a folder. -/
theorem text?_eq_none_of_folder (h : disk.kind? place = some .folder) :
    disk.text? place = none := by
  refine Option.eq_none_iff_forall_ne_some.2 fun text htext => ?_
  rw [text?_eq_some_iff, h] at htext
  cases htext

end Disk

end TypedClient.Files
