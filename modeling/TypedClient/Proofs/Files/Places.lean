import TypedClient.Proofs.Files.Nodes
import TypedClient.Proofs.Outcomes
import TypedClient.Proofs.Text.Splitting

/-!
# The places that paths name

A path names a place when its last part is a name and the parts before it lead to a
folder. Which folder that is depends on the folders of a disk and not on its files, so
a path keeps naming its place as long as the folders stay. Paths that differ in their
last part only name places in one folder.
-/

namespace TypedClient

namespace Files

namespace Path

variable {path : String} {suffix : String}

/-- The parts of a path before its last one. -/
def front (path : String) : List Segment := (segments path).dropLast

/-- The last part of a path. -/
def last (path : String) : Segment := (segments path).getLast (Text.splitAt_ne_nil _ _)

/-- A part that can name something in a folder. -/
structure IsName (s : Segment) : Prop where
  nonempty : s ≠ []
  ne_dot : s ≠ ['.']
  ne_dots : s ≠ ['.', '.']
  short : (String.ofList s).utf8ByteSize ≤ longestName

/-- Whether two paths differ in their last part only. -/
def Beside (path other : String) : Prop := front path = front other ∧ last path ≠ last other

theorem segments_eq (path : String) : segments path = front path ++ [last path] :=
  (List.dropLast_concat_getLast _).symm

theorem reverse_segments (path : String) :
    (segments path).reverse = last path :: (front path).reverse := by
  rw [segments_eq, List.reverse_concat]

/-- Text without a slash extends the last part of a path. -/
theorem segments_append (h : '/' ∉ suffix.toList) :
    segments (path ++ suffix) = front path ++ [last path ++ suffix.toList] := by
  rw [segments, String.toList_append]
  exact Text.splitAt_append h (segments_eq path)

theorem front_append (h : '/' ∉ suffix.toList) : front (path ++ suffix) = front path := by
  rw [front, segments_append h, List.dropLast_concat]

theorem last_append (h : '/' ∉ suffix.toList) :
    last (path ++ suffix) = last path ++ suffix.toList := by
  have hsegments := segments_eq (path ++ suffix)
  rw [segments_append h, front_append h] at hsegments
  exact (List.singleton_inj.1 (List.append_cancel_left hsegments)).symm

theorem Beside.symm {other : String} (h : Beside path other) : Beside other path :=
  ⟨h.1.symm, h.2.symm⟩

/-- What is appended to both of two paths leaves them beside each other. -/
theorem Beside.append {other : String} (h : Beside path other) (hsuffix : '/' ∉ suffix.toList) :
    Beside (path ++ suffix) (other ++ suffix) := by
  refine ⟨by rw [front_append hsuffix, front_append hsuffix, h.1], fun he => h.2 ?_⟩
  rw [last_append hsuffix, last_append hsuffix] at he
  exact List.append_cancel_right he

/-- Different names in one folder are beside each other. -/
theorem beside_append {name other : String} (hname : '/' ∉ name.toList)
    (hother : '/' ∉ other.toList) (hne : name ≠ other) : Beside (path ++ name) (path ++ other) := by
  refine ⟨by rw [front_append hname, front_append hother], fun he => hne ?_⟩
  rw [last_append hname, last_append hother] at he
  exact String.toList_injective (List.append_cancel_left he)

/-- A path starts at the root when there are parts before its last one, and the first of
them is empty. -/
theorem isRooted_iff : isRooted path ↔ ∃ rest, front path = [] :: rest := by
  rw [isRooted, parts]
  match h : front path, segments_eq path with
  | [], hs =>
    rw [hs]
    split <;> simp_all
  | part :: rest, hs =>
    obtain ⟨next, others, hnext⟩ : ∃ next others, rest ++ [last path] = next :: others :=
      List.exists_cons_of_ne_nil (by simp)
    rw [hs, List.cons_append, hnext]
    split <;> simp_all

end Path

namespace Position

variable {root root' : Node} {p p' q next : Position} {name : String}

/-- A position that steps down lead to from the root. -/
inductive Within (root : Node) : Position → Prop
  | root : Within root ⟨root, []⟩
  | down {p next : Position} {name : String} (hp : Within root p) (h : p.down? name = some next) :
    Within root next

/-- A position is found at its place. -/
theorem Within.find?_place (h : Within root p) : root.find? p.place = some p.node := by
  induction h with
  | root => rfl
  | @down p next name _ hdown ih =>
    obtain ⟨child, hchild, rfl⟩ := Option.map_eq_some_iff.1 hdown
    rw [place_down? hdown, Node.find?_append_singleton ih, hchild]

theorem Within.kind?_place (h : Within root p) : root.kind? p.place = some p.node.kind := by
  rw [Node.kind?, h.find?_place, Option.map_some]

theorem Within.up (h : Within root p) : Within root p.up := by
  cases h with
  | root => exact .root
  | down hp hdown => rwa [up_down? hdown]

/-- A step up leads to a folder from a folder. -/
theorem Within.isFolder_up (h : Within root p) (hp : p.node.isFolder) : p.up.node.isFolder := by
  cases h with
  | root => exact hp
  | down _ hdown =>
    obtain ⟨child, hchild, -⟩ := Option.map_eq_some_iff.1 hdown
    rw [up_down? hdown]
    exact Node.kind_eq_folder.1 (Node.kind_of_child? hchild)

/-- A step up takes the last name off the place. -/
theorem Within.place_up (h : Within root p) : p.up.place = p.place.dropLast := by
  cases h with
  | root => rfl
  | down _ hdown => rw [up_down? hdown, place_down? hdown, List.dropLast_concat]

/-- One part of a path, and the parts after it. -/
theorem walk_cons_of_isFolder (hp : p.node.isFolder) (part : Path.Segment)
    (rest : List Path.Segment) : walk p (part :: rest) = (walk p [part]).bind (walk · rest) := by
  rw [walk, walk, if_pos hp, if_pos hp]
  split
  · rfl
  · split
    · rfl
    · dsimp only
      split
      · rfl
      · cases p.down? (String.ofList part) <;> rfl

theorem walk_cons_of_not_isFolder (hp : ¬ p.node.isFolder) (part : Path.Segment)
    (rest : List Path.Segment) : walk p (part :: rest) = .error .notFolder := by
  rw [walk, if_neg hp]

/-- Parts of a path, and the parts after them. -/
theorem walk_append (p : Position) (front rest : List Path.Segment) :
    walk p (front ++ rest) = (walk p front).bind (walk · rest) := by
  induction front generalizing p with
  | nil => rfl
  | cons part front ih =>
    rw [List.cons_append]
    by_cases hp : p.node.isFolder
    · rw [walk_cons_of_isFolder hp, walk_cons_of_isFolder hp part front]
      cases walk p [part] with
      | error fault => rfl
      | ok next => exact ih next
    · rw [walk_cons_of_not_isFolder hp, walk_cons_of_not_isFolder hp]
      rfl

/-- The cases of a step along one part of a path. -/
theorem walk_singleton {part : Path.Segment} (h : walk p [part] = .ok q) :
    p.node.isFolder ∧ (Path.isVoid part ∧ q = p ∨ part = ['.', '.'] ∧ q = p.up ∨
      Path.IsName part ∧ p.down? (String.ofList part) = some q) := by
  by_cases hp : p.node.isFolder
  · refine ⟨hp, ?_⟩
    rw [walk, if_pos hp] at h
    split at h
    · rename_i hvoid
      exact Or.inl ⟨hvoid, (Except.ok.inj h).symm⟩
    · rename_i hvoid
      have hvoid : ¬ (part = [] ∨ part = ['.']) := by simpa [Path.isVoid] using hvoid
      split at h
      · rename_i hdots
        exact Or.inr (Or.inl ⟨hdots, (Except.ok.inj h).symm⟩)
      · rename_i hdots
        dsimp only at h
        split at h
        · cases h
        · rename_i hshort
          refine Or.inr (Or.inr ⟨⟨fun he => hvoid (Or.inl he), fun he => hvoid (Or.inr he),
            hdots, Nat.le_of_not_lt hshort⟩, ?_⟩)
          cases hdown : p.down? (String.ofList part) with
          | none =>
            rw [hdown] at h
            cases h
          | some next =>
            rw [hdown] at h
            exact congrArg some (Except.ok.inj h)
  · rw [walk_cons_of_not_isFolder hp] at h
    cases h

theorem walk_void {part : Path.Segment} (hp : p.node.isFolder) (h : Path.isVoid part) :
    walk p [part] = .ok p := by
  rw [walk, if_pos hp, if_pos h]
  rfl

theorem walk_dots (hp : p.node.isFolder) : walk p [['.', '.']] = .ok p.up := by
  rw [walk, if_pos hp, if_neg (by decide), if_pos rfl]
  rfl

/-- A step along a name leads down, if there is something. -/
theorem walk_name {part : Path.Segment} (hp : p.node.isFolder) (h : Path.IsName part) :
    walk p [part] =
      match p.down? (String.ofList part) with
      | some next => .ok next
      | none => .error .notFound := by
  rw [walk, if_pos hp, if_neg (by simp [Path.isVoid, h.nonempty, h.ne_dot]), if_neg h.ne_dots]
  dsimp only
  rw [if_neg (Nat.not_lt.2 h.short)]
  cases p.down? (String.ofList part) <;> rfl

/-- Paths lead to positions below the root. -/
theorem Within.walk {parts : List Path.Segment} (hp : Within root p)
    (h : p.walk parts = .ok q) : Within root q := by
  induction parts generalizing p with
  | nil => exact Except.ok.inj h ▸ hp
  | cons part rest ih =>
    by_cases hfolder : p.node.isFolder
    · rw [walk_cons_of_isFolder hfolder] at h
      cases hstep : p.walk [part] with
      | error fault =>
        rw [hstep] at h
        cases h
      | ok next =>
        rw [hstep] at h
        refine ih ?_ h
        obtain ⟨-, ⟨-, rfl⟩ | ⟨-, rfl⟩ | ⟨-, hdown⟩⟩ := walk_singleton hstep
        · exact hp
        · exact hp.up
        · exact .down hp hdown
    · rw [walk_cons_of_not_isFolder hfolder] at h
      cases h

/-- Only from a folder does a path lead to a folder. -/
theorem isFolder_of_walk {parts : List Path.Segment} (h : p.walk parts = .ok q)
    (hq : q.node.isFolder) : p.node.isFolder := by
  cases parts with
  | nil => exact Except.ok.inj h ▸ hq
  | cons part rest =>
    by_cases hp : p.node.isFolder
    · exact hp
    · rw [walk_cons_of_not_isFolder hp] at h
      cases h

/-- A path that leads to a folder leads to the same place where there are the same
folders and possibly more. -/
theorem walk_of_folders {parts : List Path.Segment}
    (hroots : ∀ place, root.kind? place = some .folder → root'.kind? place = some .folder)
    (hp : Within root p) (hp' : Within root' p') (hplace : p'.place = p.place)
    (h : p.walk parts = .ok q) (hq : q.node.isFolder) :
    ∃ q', p'.walk parts = .ok q' ∧ q'.place = q.place ∧ q'.node.isFolder := by
  -- at a place that is a folder's in the first root, a position of the second is a folder
  have hkept : ∀ {a a' : Position}, Within root a → Within root' a' → a'.place = a.place →
      a.node.isFolder → a'.node.isFolder := by
    intro a a' ha ha' hsame hfolder
    have hkind := hroots a.place (by rw [ha.kind?_place, Node.kind_eq_folder.2 hfolder])
    rw [← hsame, ha'.kind?_place] at hkind
    exact Node.kind_eq_folder.1 (Option.some.inj hkind)
  induction parts generalizing p p' with
  | nil =>
    cases h
    exact ⟨p', rfl, hplace, hkept hp hp' hplace hq⟩
  | cons part rest ih =>
    have hfolder := isFolder_of_walk h hq
    have hfolder' := hkept hp hp' hplace hfolder
    rw [walk_cons_of_isFolder hfolder] at h
    rw [walk_cons_of_isFolder hfolder']
    cases hstep : p.walk [part] with
    | error fault =>
      rw [hstep] at h
      cases h
    | ok next =>
      rw [hstep] at h
      have hnext := isFolder_of_walk h hq
      obtain ⟨-, ⟨hvoid, rfl⟩ | ⟨rfl, rfl⟩ | ⟨hname, hdown⟩⟩ := walk_singleton hstep
      · rw [walk_void hfolder' hvoid]
        exact ih hp hp' hplace h
      · rw [walk_dots hfolder']
        exact ih hp.up hp'.up (by rw [hp.place_up, hp'.place_up, hplace]) h
      · have hkind := hroots next.place
          (by rw [(Within.down hp hdown).kind?_place, Node.kind_eq_folder.2 hnext])
        rw [place_down? hdown, ← hplace, Node.kind?,
          Node.find?_append_singleton hp'.find?_place] at hkind
        obtain ⟨child, hchild, -⟩ := Option.map_eq_some_iff.1 hkind
        have hdown' : p'.down? (String.ofList part) =
            some ⟨child, (String.ofList part, p'.node) :: p'.trail⟩ := by
          rw [down?, hchild, Option.map_some]
        rw [walk_name hfolder' hname, hdown']
        refine ih (.down hp hdown) (.down hp' hdown') ?_ h
        rw [place_down? hdown, place_down? hdown', hplace]

end Position

namespace Disk

variable {disk before after : Disk} {path other : String} {place front : Place}
  {p folder : Position}

/-- Whether the second disk has the folders of the first, and possibly more. -/
structure KeepsFolders (before after : Disk) : Prop where
  here : after.here = before.here
  folders : ∀ place, before.kind? place = some .folder → after.kind? place = some .folder

theorem KeepsFolders.refl (disk : Disk) : KeepsFolders disk disk := ⟨rfl, fun _ h => h⟩

theorem KeepsFolders.trans {middle : Disk} (h : KeepsFolders before middle)
    (h' : KeepsFolders middle after) : KeepsFolders before after :=
  ⟨h'.here.trans h.here, fun place hplace => h'.folders place (h.folders place hplace)⟩

/-- The folder that the parts of a path before its last one lead to. -/
def folderOf (disk : Disk) (path : String) : Except Fault Position :=
  (disk.start path).bind fun p => p.walk (Path.front path ++ [[]])

/-- A path names a place when its last part is a name in the folder that the parts before
lead to. -/
def Names (disk : Disk) (path : String) (place : Place) : Prop :=
  ∃ folder, disk.folderOf path = .ok folder ∧ Path.IsName (Path.last path) ∧
    place = folder.place ++ [String.ofList (Path.last path)]

/-- Where a path starts: at the root, or in the working folder. -/
theorem start_eq_ok (h : disk.start path = .ok p) :
    Path.isTooLong path = false ∧ path ≠ "" ∧ Position.Within disk.root p := by
  rw [start] at h
  split at h
  · cases h
  · rename_i hlong
    split at h
    · cases h
    · rename_i hempty
      refine ⟨Bool.eq_false_iff.2 hlong, fun he => hempty (by rw [he]; rfl), ?_⟩
      split at h
      · exact Except.ok.inj h ▸ .root
      · exact Position.Within.walk .root h

/-- Paths with the same parts before their last ones start at the same position. -/
theorem start_congr (hlong : Path.isTooLong other = false) (hempty : other ≠ "")
    (hfront : Path.front other = Path.front path) (h : disk.start path = .ok p) :
    disk.start other = .ok p := by
  obtain ⟨hlong', hempty', -⟩ := start_eq_ok h
  have hrooted : Path.isRooted other = Path.isRooted path :=
    Bool.eq_iff_iff.2 (by rw [Path.isRooted_iff, Path.isRooted_iff, hfront])
  rw [← h, start, start, hlong, hlong', String.isEmpty_eq_false_iff.2 hempty,
    String.isEmpty_eq_false_iff.2 hempty', hrooted]

/-- The folder that a path leads to is a position that a path leads to first. -/
theorem folderOf_eq_ok (h : disk.folderOf path = .ok folder) :
    ∃ p, disk.start path = .ok p ∧ p.walk (Path.front path) = .ok folder ∧
      folder.node.isFolder ∧ Position.Within disk.root folder := by
  rw [folderOf] at h
  cases hstart : disk.start path with
  | error fault =>
    rw [hstart] at h
    cases h
  | ok p =>
    rw [hstart] at h
    change p.walk (Path.front path ++ [[]]) = .ok folder at h
    have hwithin := (start_eq_ok hstart).2.2.walk h
    rw [Position.walk_append] at h
    cases hwalk : p.walk (Path.front path) with
    | error fault =>
      rw [hwalk] at h
      cases h
    | ok q =>
      rw [hwalk] at h
      change q.walk [[]] = .ok folder at h
      have hq := (Position.walk_singleton h).1
      rw [Position.walk_void hq rfl] at h
      cases h
      exact ⟨p, rfl, hwalk, hq, hwithin⟩

/-- What is where a name in the folder of a path is. -/
theorem kind?_append_singleton (h : Position.Within disk.root p) (name : String) :
    disk.kind? (p.place ++ [name]) = (p.node.child? name).map Node.kind := by
  rw [kind?, Node.kind?, Node.find?_append_singleton h.find?_place]

/-- A path leads on from its folder by its last part. -/
theorem locate_eq (h : disk.folderOf path = .ok folder) :
    disk.locate path = folder.walk [Path.last path] := by
  obtain ⟨p, hstart, hwalk, -, -⟩ := folderOf_eq_ok h
  rw [locate, hstart, Path.segments_eq]
  change p.walk (Path.front path ++ [Path.last path]) = _
  rw [Position.walk_append, hwalk]
  rfl

/-- A path names one place. -/
theorem Names.unique {place' : Place} (h : disk.Names path place) (h' : disk.Names path place') :
    place = place' := by
  obtain ⟨folder, hfolder, -, rfl⟩ := h
  obtain ⟨folder', hfolder', -, rfl⟩ := h'
  cases hfolder.symm.trans hfolder'
  rfl

/-- Paths that differ in their last part only name different places in one folder. -/
theorem Names.ne {place' : Place} (h : disk.Names path place) (h' : disk.Names other place')
    (hbeside : Path.Beside path other) : place ≠ place' := by
  obtain ⟨hfront, hlast⟩ := hbeside
  obtain ⟨folder, hfolder, -, rfl⟩ := h
  obtain ⟨folder', hfolder', -, rfl⟩ := h'
  obtain ⟨p, hstart, hwalk, -, -⟩ := folderOf_eq_ok hfolder
  obtain ⟨p', hstart', hwalk', -, -⟩ := folderOf_eq_ok hfolder'
  obtain ⟨hlong, hempty, -⟩ := start_eq_ok hstart'
  cases (start_congr hlong hempty hfront.symm hstart).symm.trans hstart'
  rw [hfront] at hwalk
  cases hwalk.symm.trans hwalk'
  intro hplaces
  exact hlast (String.ofList_injective (List.singleton_inj.1 (List.append_cancel_left hplaces)))

/-- A path that goes on from a folder starts at the same place as long as the folders
stay. -/
theorem KeepsFolders.start (hkept : KeepsFolders disk after) (h : disk.start path = .ok p)
    (hp : p.node.isFolder) : ∃ p', after.start path = .ok p' ∧ p'.place = p.place := by
  rw [Disk.start] at h ⊢
  split at h
  · cases h
  · rename_i hlong
    rw [if_neg hlong]
    split at h
    · cases h
    · rename_i hempty
      rw [if_neg hempty]
      split at h
      · rename_i hrooted
        cases h
        exact ⟨_, if_pos hrooted, rfl⟩
      · rename_i hrooted
        rw [if_neg hrooted, hkept.here]
        obtain ⟨p', hwalk', hplace', -⟩ :=
          Position.walk_of_folders hkept.folders .root .root rfl h hp
        exact ⟨p', hwalk', hplace'⟩

/-- A path keeps naming its place as long as the folders stay. -/
theorem Names.mono (h : disk.Names path place) (hkept : KeepsFolders disk after) :
    after.Names path place := by
  obtain ⟨folder, hfolder, hname, rfl⟩ := h
  have hwalk := hfolder
  rw [folderOf] at hwalk
  obtain ⟨p, hstart, -, hisFolder, -⟩ := folderOf_eq_ok hfolder
  rw [hstart] at hwalk
  change p.walk _ = .ok folder at hwalk
  obtain ⟨p', hstart', hplace'⟩ :=
    hkept.start hstart (Position.isFolder_of_walk hwalk hisFolder)
  obtain ⟨folder', hwalk', hplace'', -⟩ := Position.walk_of_folders hkept.folders
    (start_eq_ok hstart).2.2 (start_eq_ok hstart').2.2 hplace' hwalk hisFolder
  refine ⟨folder', ?_, hname, by rw [hplace'']⟩
  rw [folderOf, hstart']
  exact hwalk'

/-- What a path leads to is at the place that it names. -/
theorem Names.locate (h : disk.Names path place) :
    (disk.locate path).toOption.map (fun p => p.node.kind) = disk.kind? place := by
  obtain ⟨folder, hfolder, hname, rfl⟩ := h
  obtain ⟨p, -, -, hisFolder, hwithin⟩ := folderOf_eq_ok hfolder
  rw [locate_eq hfolder, Position.walk_name hisFolder hname, kind?_append_singleton hwithin,
    Position.down?]
  cases folder.node.child? (String.ofList (Path.last path)) <;> rfl

/-- A path that names the place of a file reads it. -/
theorem Names.read {text : String} (h : disk.Names path place)
    (hkind : disk.kind? place = some (.file text)) : disk.read path = .ok text := by
  have hlocate := h.locate
  rw [hkind] at hlocate
  obtain ⟨p, hp, hfile⟩ := Option.map_eq_some_iff.1 hlocate
  rw [Disk.read, eq_ok_of_toOption hp]
  simp only [bind, Except.bind]
  rw [Node.kind_eq_file.1 hfile]
  rfl

/-- A path that names a place where nothing is reaches nothing. -/
theorem Names.reaches (h : disk.Names path place) (hkind : disk.kind? place = none) :
    disk.reaches path = false := by
  have hlocate := h.locate
  rw [hkind, Option.map_eq_none_iff] at hlocate
  rw [Disk.reaches]
  cases hp : disk.locate path with
  | error fault => rfl
  | ok p =>
    rw [hp] at hlocate
    cases hlocate

/-- A path that names the place of a folder leads to a folder. -/
theorem Names.isFolder (h : disk.Names path place) (hkind : disk.kind? place = some .folder) :
    disk.isFolder path := by
  have hlocate := h.locate
  rw [hkind] at hlocate
  obtain ⟨p, hp, hfolder⟩ := Option.map_eq_some_iff.1 hlocate
  rw [Disk.isFolder, eq_ok_of_toOption hp]
  exact Node.kind_eq_folder.1 hfolder

/-- When a path with something appended names a place, the path itself names one or leads
to a folder. -/
theorem names_or_isFolder {suffix : String} (hsuffix : '/' ∉ suffix.toList) (hpath : path ≠ "")
    (h : disk.Names (path ++ suffix) place) :
    (∃ place', disk.Names path place') ∨ disk.isFolder path := by
  obtain ⟨folder, hfolder, hname, -⟩ := h
  obtain ⟨p, hstart, hwalk, hisFolder, hwithin⟩ := folderOf_eq_ok hfolder
  have hfront : Path.front (path ++ suffix) = Path.front path := Path.front_append hsuffix
  have hlong : Path.isTooLong path = false := by
    have hlong := (start_eq_ok hstart).1
    simp only [Path.isTooLong, decide_eq_false_iff_not, String.utf8ByteSize_append] at hlong ⊢
    omega
  have hshort : (String.ofList (Path.last path)).utf8ByteSize ≤ Path.longestName := by
    have hshort := hname.short
    rw [Path.last_append hsuffix, String.ofList_append, String.utf8ByteSize_append] at hshort
    omega
  have hown : disk.folderOf path = .ok folder := by
    rw [folderOf, start_congr hlong hpath hfront.symm hstart, ← hfront]
    rw [folderOf, hstart] at hfolder
    exact hfolder
  have hlocate := locate_eq hown
  rw [Disk.isFolder]
  by_cases hvoid : Path.isVoid (Path.last path)
  · rw [Position.walk_void hisFolder hvoid] at hlocate
    rw [hlocate]
    exact Or.inr hisFolder
  · by_cases hdots : Path.last path = ['.', '.']
    · rw [hdots, Position.walk_dots hisFolder] at hlocate
      rw [hlocate]
      exact Or.inr (hwithin.isFolder_up hisFolder)
    · refine Or.inl ⟨_, folder, hown, ⟨fun h => hvoid ?_, fun h => hvoid ?_, hdots, hshort⟩, rfl⟩
        <;> rw [h] <;> rfl

end Disk

end Files

end TypedClient
