import TypedClient.Proofs.Files.Places

/-!
# What operations on files change

An operation that succeeds changes what is at the place that its path names, a renaming
at two such places, and nothing else. No operation takes a folder away, and none puts
something where a folder is.
-/

namespace TypedClient.Files.Disk

variable {disk before after middle : Disk} {path old new text : String} {place front : Place}
  {folder : Position} {name : String} {slash : Bool} {kind : Option Kind}

/-- Between two disks only one place changes, to what has a kind. -/
structure Sets (before after : Disk) (place : Place) (kind : Option Kind) : Prop where
  here : after.here = before.here
  kinds : ∀ q, after.kind? q = if q = place then kind else before.kind? q

namespace Sets

variable (h : Sets before after place kind)

include h

theorem self : after.kind? place = kind := by
  rw [h.kinds, if_pos rfl]

theorem of_ne {q : Place} (hq : q ≠ place) : after.kind? q = before.kind? q := by
  rw [h.kinds, if_neg hq]

theorem text?_of_ne {q : Place} (hq : q ≠ place) : after.text? q = before.text? q :=
  text?_congr (h.of_ne hq)

/-- What was no folder's place takes no folder away when it is set. -/
theorem keepsFolders (hold : before.kind? place ≠ some .folder) : KeepsFolders before after := by
  refine ⟨h.here, fun q hq => ?_⟩
  rw [h.of_ne fun he => hold (he ▸ hq), hq]

end Sets

/-- The folder that the last part of a path is in, and whether it is what the path
names. -/
theorem lastStep_eq_ok (h : disk.lastStep path = .ok (folder, some name, slash)) :
    Position.Within disk.root folder ∧ folder.node.isFolder ∧
      (slash = false → disk.folderOf path = .ok folder ∧ Path.IsName (Path.last path) ∧
        name = String.ofList (Path.last path)) := by
  rw [lastStep] at h
  obtain ⟨start, hstart, h⟩ := ok_of_bind_eq_ok h
  rw [Path.reverse_segments] at h
  dsimp only at h
  split at h
  · cases h
  · rename_i last front hdrop
    obtain ⟨found, hwalk, h⟩ := ok_of_bind_eq_ok h
    split at h
    · cases h
    · rename_i hdots
      split at h
      · cases h
      · rename_i hshort
        cases h
        refine ⟨(start_eq_ok hstart).2.2.walk hwalk, ?_, fun hslash => ?_⟩
        · rw [Position.walk_append] at hwalk
          obtain ⟨above, -, hlast⟩ := ok_of_bind_eq_ok hwalk
          obtain ⟨habove, -⟩ := Position.walk_singleton hlast
          rw [Position.walk_void habove rfl] at hlast
          exact Except.ok.inj hlast ▸ habove
        · have hlast : Path.last path ≠ [] := by
            intro hnil
            rw [hnil] at hslash
            cases hslash
          have hbeq : (Path.last path == []) = false := beq_eq_false_iff_ne.2 hlast
          rw [List.dropWhile_cons, hbeq, if_neg Bool.false_ne_true] at hdrop
          obtain ⟨rfl, rfl⟩ := List.cons_eq_cons.1 hdrop
          rw [Bool.or_eq_true, beq_iff_eq, beq_iff_eq, not_or] at hdots
          rw [List.reverse_reverse] at hwalk
          refine ⟨?_, ⟨hlast, hdots.1, hdots.2, Nat.le_of_not_lt hshort⟩, rfl⟩
          rw [folderOf, hstart]
          exact hwalk

/-- A path that names a place ends in the name that it has in its folder. -/
theorem Names.lastStep (h : disk.Names path place) :
    ∃ folder name, disk.lastStep path = .ok (folder, some name, false) ∧
      Position.Within disk.root folder ∧ folder.node.isFolder ∧
      place = folder.place ++ [name] := by
  obtain ⟨folder, hfolder, hname, rfl⟩ := h
  obtain ⟨start, hstart, -, hisFolder, hwithin⟩ := folderOf_eq_ok hfolder
  refine ⟨folder, _, ?_, hwithin, hisFolder, rfl⟩
  rw [folderOf, hstart] at hfolder
  have hnil : (Path.last path == []) = false := beq_eq_false_iff_ne.2 hname.nonempty
  have hdot : (Path.last path == ['.']) = false := beq_eq_false_iff_ne.2 hname.ne_dot
  have hdots : (Path.last path == ['.', '.']) = false := beq_eq_false_iff_ne.2 hname.ne_dots
  rw [Disk.lastStep, hstart, Path.reverse_segments]
  simp only [bind, Except.bind, List.takeWhile_cons, List.dropWhile_cons, hnil,
    Bool.false_eq_true, if_false, List.reverse_reverse]
  change start.walk _ = _ at hfolder
  rw [hfolder]
  simp only [hdot, hdots, Bool.or_self, Bool.false_eq_true, if_false,
    if_neg (Nat.not_lt.2 hname.short)]
  rfl

/-- What a folder says about a name is what is at the place of the name. -/
theorem kind?_folder (hwithin : Position.Within disk.root folder) (hfolder : folder.node.isFolder) :
    disk.kind? folder.place = some .folder := by
  rw [kind?, hwithin.kind?_place, Node.kind_eq_folder.2 hfolder]

theorem kind?_ne_folder (hwithin : Position.Within disk.root folder)
    (h : ¬ (folder.node.child? name).any Node.isFolder) :
    disk.kind? (folder.place ++ [name]) ≠ some .folder := by
  intro hkind
  have hchild := kind?_append_singleton hwithin name
  rw [hkind] at hchild
  obtain ⟨child, hchild, hkind⟩ := Option.map_eq_some_iff.1 hchild.symm
  rw [hchild] at h
  exact h (Node.kind_eq_folder.1 hkind)

/-- Putting a file or an empty folder where no folder is changes one place. -/
theorem sets_put {new : Node} (hfolder : disk.kind? front = some .folder)
    (hold : disk.kind? (front ++ [name]) ≠ some .folder) (hnew : new.entries = []) :
    Sets disk (disk.put (front ++ [name]) new) (front ++ [name]) (some new.kind) :=
  ⟨rfl, Node.kind?_put hfolder hold hnew⟩

/-- Erasing a file changes one place. -/
theorem sets_erase (hfolder : disk.kind? front = some .folder)
    (hold : disk.kind? (front ++ [name]) ≠ some .folder) :
    Sets disk (disk.erase (front ++ [name])) (front ++ [name]) none :=
  ⟨rfl, Node.kind?_erase hfolder hold⟩

/-- A folder that is made is where nothing was. -/
theorem sets_of_makeFolder (h : disk.makeFolder path = .ok after) :
    ∃ place, disk.kind? place = none ∧ Sets disk after place (some .folder) := by
  rw [makeFolder] at h
  obtain ⟨⟨folder, name, slash⟩, hstep, h⟩ := ok_of_bind_eq_ok h
  cases name with
  | none => cases h
  | some name =>
    dsimp only at h
    obtain ⟨hwithin, hfolder, -⟩ := lastStep_eq_ok hstep
    split at h
    · cases h
    · rename_i hfree
      cases h
      have hnone : disk.kind? (folder.place ++ [name]) = none := by
        rw [kind?_append_singleton hwithin, Option.map_eq_none_iff]
        simpa using hfree
      exact ⟨_, hnone,
        sets_put (kind?_folder hwithin hfolder) (kind?_ne_folder_of_none hnone) rfl⟩

/-- Between two disks folders may have been made, and the files are the same. -/
structure Builds (before after : Disk) : Prop where
  folders : KeepsFolders before after
  texts : ∀ place, after.text? place = before.text? place

theorem Builds.refl (disk : Disk) : Builds disk disk := ⟨.refl disk, fun _ => rfl⟩

theorem Builds.trans (h : Builds before middle) (h' : Builds middle after) :
    Builds before after :=
  ⟨h.folders.trans h'.folders, fun place => (h'.texts place).trans (h.texts place)⟩

/-- Making a folder leaves the files as they are. -/
theorem builds_of_makeFolder (h : disk.makeFolder path = .ok after) : Builds disk after := by
  obtain ⟨place, hnone, hsets⟩ := sets_of_makeFolder h
  refine ⟨hsets.keepsFolders (kind?_ne_folder_of_none hnone), fun q => ?_⟩
  by_cases hq : q = place
  · rw [hq, text?_eq_none_of_folder hsets.self, text?_eq_none_of_kind? hnone]
  · exact hsets.text?_of_ne hq

/-- A file that is written has its text, and was no folder. -/
theorem sets_of_write (h : disk.write path text = .ok after) :
    ∃ place, disk.Names path place ∧ disk.kind? place ≠ some .folder ∧
      Sets disk after place (some (.file text)) := by
  rw [write] at h
  obtain ⟨⟨folder, name, slash⟩, hstep, h⟩ := ok_of_bind_eq_ok h
  cases name with
  | none => cases h
  | some name =>
    cases slash with
    | true => cases h
    | false =>
      dsimp only at h
      obtain ⟨hwithin, hfolder, hnames⟩ := lastStep_eq_ok hstep
      obtain ⟨hfolderOf, hname, rfl⟩ := hnames rfl
      split at h
      · cases h
      · rename_i hfree
        cases h
        exact ⟨_, ⟨folder, hfolderOf, hname, rfl⟩, kind?_ne_folder hwithin hfree,
          sets_put (kind?_folder hwithin hfolder) (kind?_ne_folder hwithin hfree) rfl⟩

/-- What a position has by a name when a file is at the place of the name. -/
theorem child?_of_kind? (hwithin : Position.Within disk.root folder)
    (h : disk.kind? (folder.place ++ [name]) = some (.file text)) :
    folder.node.child? name = some (.file text) := by
  rw [kind?_append_singleton hwithin] at h
  obtain ⟨child, hchild, hkind⟩ := Option.map_eq_some_iff.1 h
  rw [hchild, Node.kind_eq_file.1 hkind]

/-- A file that is removed was there and is gone. -/
theorem sets_of_remove (h : disk.remove path = .ok after) :
    ∃ place text, disk.Names path place ∧ disk.kind? place = some (.file text) ∧
      Sets disk after place none := by
  rw [remove] at h
  obtain ⟨⟨folder, name, slash⟩, hstep, h⟩ := ok_of_bind_eq_ok h
  cases name with
  | none => cases h
  | some name =>
    dsimp only at h
    obtain ⟨hwithin, hfolder, hnames⟩ := lastStep_eq_ok hstep
    split at h
    · cases h
    · cases h
    · rename_i text hchild
      split at h
      · cases h
      · rename_i hslash
        cases h
        obtain ⟨hfolderOf, hname, rfl⟩ := hnames (Bool.eq_false_iff.2 hslash)
        have hkind := kind?_append_singleton hwithin (String.ofList (Path.last path))
        rw [hchild] at hkind
        exact ⟨_, text, ⟨folder, hfolderOf, hname, rfl⟩, hkind,
          sets_erase (kind?_folder hwithin hfolder) (kind?_ne_folder_of_file hkind)⟩

/-- A file that a path names can be removed by it. -/
theorem exists_remove (h : disk.Names path place) (hkind : disk.kind? place = some (.file text)) :
    ∃ after, disk.remove path = .ok after := by
  obtain ⟨folder, name, hstep, hwithin, -, rfl⟩ := h.lastStep
  refine ⟨disk.erase (folder.place ++ [name]), ?_⟩
  rw [remove, hstep]
  simp only [bind, Except.bind]
  rw [child?_of_kind? hwithin hkind]
  rfl

/-- What a renaming changes: the file is at its new place, which was no folder, and no
longer at its old one. -/
structure Moves (before after : Disk) (text : String) (source target : Place) : Prop where
  here : after.here = before.here
  found : before.kind? source = some (.file text)
  free : before.kind? target ≠ some .folder
  kinds : ∀ q, after.kind? q =
    if q = target then some (.file text) else if q = source then none else before.kind? q

/-- Erasing a file and putting it where no folder is moves it. -/
theorem moves_put_erase {front' : Place} {name' : String}
    (hfolder : disk.kind? front = some .folder)
    (hfound : disk.kind? (front ++ [name]) = some (.file text))
    (hfolder' : disk.kind? front' = some .folder)
    (hfree : disk.kind? (front' ++ [name']) ≠ some .folder) :
    Moves disk ((disk.erase (front ++ [name])).put (front' ++ [name']) (.file text)) text
      (front ++ [name]) (front' ++ [name']) := by
  have hne := kind?_ne_folder_of_file hfound
  have herase := sets_erase hfolder hne
  -- the folder of the new place is still there once the file is erased
  have hkept := (herase.keepsFolders hne).folders front' hfolder'
  have hstill : (disk.erase (front ++ [name])).kind? (front' ++ [name']) ≠ some .folder := by
    intro hkind
    rw [herase.kinds] at hkind
    split at hkind
    · cases hkind
    · exact hfree hkind
  have hput : Sets _ _ _ (some (Node.file text).kind) := sets_put hkept hstill rfl
  refine ⟨rfl, hfound, hfree, fun q => ?_⟩
  rw [hput.kinds, herase.kinds]
  rfl

/-- Renaming moves a file. -/
theorem moves_of_rename (h : disk.rename old new = .ok after) :
    ∃ source target text, disk.Names old source ∧ disk.Names new target ∧
      Moves disk after text source target := by
  rw [rename] at h
  obtain ⟨⟨folder, name, slash⟩, hstep, h⟩ := ok_of_bind_eq_ok h
  obtain ⟨⟨folder', name', slash'⟩, hstep', h⟩ := ok_of_bind_eq_ok h
  cases name with
  | none => cases h
  | some name =>
    cases name' with
    | none => cases h
    | some name' =>
      dsimp only at h
      obtain ⟨hwithin, hfolder, hnames⟩ := lastStep_eq_ok hstep
      obtain ⟨hwithin', hfolder', hnames'⟩ := lastStep_eq_ok hstep'
      split at h
      · cases h
      · cases h
      · rename_i text hchild
        split at h
        · cases h
        · rename_i hslash
          split at h
          · cases h
          · rename_i hfree
            cases h
            rw [Bool.or_eq_true, not_or] at hslash
            obtain ⟨hfolderOf, hname, rfl⟩ := hnames (Bool.eq_false_iff.2 hslash.1)
            obtain ⟨hfolderOf', hname', rfl⟩ := hnames' (Bool.eq_false_iff.2 hslash.2)
            have hsource := kind?_append_singleton hwithin (String.ofList (Path.last old))
            rw [hchild, Option.map_some] at hsource
            exact ⟨_, _, text, ⟨folder, hfolderOf, hname, rfl⟩,
              ⟨folder', hfolderOf', hname', rfl⟩,
              moves_put_erase (kind?_folder hwithin hfolder) hsource
                (kind?_folder hwithin' hfolder') (kind?_ne_folder hwithin' hfree)⟩

/-- A file cannot be renamed only when its new path names no place, or the place of a
folder. -/
theorem kind?_of_rename_error {fault : Fault} {source target : Place}
    (h : disk.rename old new = .error fault) (hold : disk.Names old source)
    (hkind : disk.kind? source = some (.file text)) (hnew : disk.Names new target) :
    disk.kind? target = some .folder := by
  obtain ⟨folder, name, hstep, hwithin, -, rfl⟩ := hold.lastStep
  obtain ⟨folder', name', hstep', hwithin', -, rfl⟩ := hnew.lastStep
  rw [rename, hstep, hstep'] at h
  simp only [bind, Except.bind] at h
  rw [child?_of_kind? hwithin hkind] at h
  dsimp only at h
  rw [Bool.or_self, if_neg Bool.false_ne_true] at h
  split at h
  · rename_i hchild
    rw [kind?_append_singleton hwithin']
    cases hfound : folder'.node.child? name' with
    | none =>
      rw [hfound] at hchild
      cases hchild
    | some child =>
      rw [hfound] at hchild
      rw [Option.map_some, Node.kind_eq_folder.2 hchild]
  · cases h

end TypedClient.Files.Disk
