import TypedClient.Proofs.Command.Effects
import TypedClient.Proofs.Files.Changes

/-!
# What publishing leaves behind

Modules are staged one by one, and then renamed one by one. When staging fails, what was
staged is removed again, and all files are as they were. Renaming fails only at a target
that is a folder; the modules before it are at their targets then, and the others stay
staged.
-/

namespace TypedClient.Command

open Files

variable {before after middle : Disk} {s t : Session} {p : Publication}
  {moved kept publications : List Publication} {path text : String}

/-- Whether the file that a path names has a text. -/
def Holds (disk : Disk) (path text : String) : Prop :=
  ∃ place, disk.Names path place ∧ disk.kind? place = some (.file text)

/-- Whether nothing is at the place that a path names. -/
def Lacks (disk : Disk) (path : String) : Prop :=
  ∃ place, disk.Names path place ∧ disk.kind? place = none

/-- Publications whose targets are next to each other and to what is staged for them. -/
structure Separate (publications : List Publication) : Prop where
  targets : publications.Pairwise fun p q => Path.Beside p.target q.target
  staged : ∀ p ∈ publications, ∀ q ∈ publications, Path.Beside p.target (stagedPath q.target)

/-- How far publishing has come: some modules are at their targets, others are staged, and
all other files are as they were. -/
structure Halfway (before after : Disk) (moved kept : List Publication) : Prop where
  inPlace : ∀ p ∈ moved, Holds after p.target p.code ∧ Lacks after (stagedPath p.target)
  staged : ∀ p ∈ kept, Holds after (stagedPath p.target) p.code
  others : ∀ place, (∀ p ∈ moved, ¬ after.Names p.target place) →
    (∀ p ∈ moved ++ kept, ¬ after.Names (stagedPath p.target) place) →
    after.text? place = before.text? place

/-- Publishing that failed without harm: no file is new or has another text, and what is
gone was in the way of what is staged for a target. -/
structure Unharmed (targets : String → Prop) (before after : Disk) : Prop where
  texts : ∀ place text, after.text? place = some text → before.text? place = some text
  gone : ∀ place, after.text? place = before.text? place ∨
    ∃ target, targets target ∧ after.Names (stagedPath target) place
  targets : ∀ target place, targets target → after.Names target place →
    after.text? place = before.text? place

section Staging

theorem slash_not_mem_partial : '/' ∉ ".partial".toList := by decide

theorem beside_stagedPath {target other : String} (h : Path.Beside target other) :
    Path.Beside (stagedPath target) (stagedPath other) :=
  h.append slash_not_mem_partial

/-- Whether one session's disk is another's with more folders perhaps. -/
def Builds (s t : Session) : Prop := s.disk.Builds t.disk

instance : Std.Refl Builds := ⟨fun s => .refl s.disk⟩

instance : IsTrans Session Builds := ⟨fun _ _ _ h h' => h.trans h'⟩

/-- Making one folder leaves the files as they are. -/
theorem follows_makeFolder (path : String) :
    Follows Builds (Session.files.makeFolder path) := by
  intro s
  change s.disk.Builds (Session.change (·.makeFolder path) s).2.disk
  rw [Session.change]
  cases h : s.disk.makeFolder path with
  | error fault => exact .refl _
  | ok disk => exact Disk.builds_of_makeFolder h

/-- Making folders leaves the files as they are. -/
theorem follows_makeFoldersWithin (level : Nat) (path : String) :
    Follows Builds (makeFoldersWithin Session.files level path).run := by
  induction level generalizing path with
  | zero => exact .pure _
  | succ level ih =>
    rw [makeFoldersWithin]
    have hfolder (fault : Fault) : Follows Builds (ExceptT.run (do
        if ← Session.files.isFolder path then return else throw fault :
          ExceptT Fault (StateM Session) Unit)) := by
      refine (follows_isFolder path).lift.bind_run fun found => ?_
      cases found
      · exact .pure _
      · exact .pure _
    split
    · exact .pure _
    · refine (follows_makeFolder path).attempt.bind_run fun made => ?_
      cases made with
      | ok _ => exact .pure _
      | error fault =>
        dsimp only
        split
        · split
          · refine (ih _).bind_run fun _ => ?_
            refine (follows_makeFolder path).attempt.bind_run fun made => ?_
            cases made with
            | ok _ => exact .pure _
            | error fault => exact hfolder fault
          · exact .pure _
        · exact hfolder fault

theorem follows_makeFolders (path : String) :
    Follows Builds (makeFolders Session.files path).run :=
  follows_makeFoldersWithin _ _

/-- How staging a module may end: nothing but folders was made, or the module was written
where no folder is. -/
inductive Stages (p : Publication) (before : Disk) : Except RunFailure Unit × Session → Prop
  | failed {failure : RunFailure} {t : Session} (h : before.Builds t.disk) :
    Stages p before (.error failure, t)
  | written {t : Session} {middle : Disk} {place : Place} (h : before.Builds middle)
    (names : middle.Names (stagedPath p.target) place) (free : middle.kind? place ≠ some .folder)
    (sets : middle.Sets t.disk place (some (.file p.code))) : Stages p before (.ok (), t)

theorem Stages.of_builds {outcome : Except RunFailure Unit × Session} (h : before.Builds middle)
    (hstages : Stages p middle outcome) : Stages p before outcome := by
  cases hstages with
  | failed h' => exact .failed (h.trans h')
  | written h' names free sets => exact .written (h.trans h') names free sets

/-- Writing a module beside its target. -/
theorem stages_write (p : Publication) (s : Session) :
    Stages p s.disk ((during (RunFailure.file (stagedPath p.target))
      (Session.files.write (stagedPath p.target) p.code)).run.run s) := by
  have hrun : (Session.files.write (stagedPath p.target) p.code).run s =
      (Session.change (·.write (stagedPath p.target) p.code)).run s := rfl
  rw [run_during, hrun, run_change]
  cases h : s.disk.write (stagedPath p.target) p.code with
  | error fault => exact .failed (.refl _)
  | ok disk =>
    obtain ⟨place, hnames, hfree, hsets⟩ := Disk.sets_of_write h
    exact .written (.refl _) hnames hfree hsets

/-- Staging a module. -/
theorem stages_stage (p : Publication) (s : Session) :
    Stages p s.disk ((stage Session.files p).run.run s) := by
  rw [stage]
  split
  · rename_i folder hfolder
    have hfolders := (follows_makeFolders folder).during (RunFailure.folder folder) s
    rw [run_bind]
    rcases hmade : (during (RunFailure.folder folder)
      (makeFolders Session.files folder).run).run.run s with ⟨made, m⟩
    rw [hmade] at hfolders
    cases made with
    | ok _ => exact (stages_write p m).of_builds hfolders
    | error failure => exact .failed hfolders
  · exact stages_write p s

end Staging

section Removing

variable {paths : List String}

/-- What removing files by their paths does: no path names a file any more, and only what
is named by a path is gone. -/
structure Clears (paths : List String) (before after : Disk) : Prop where
  folders : before.KeepsFolders after
  removed : ∀ path ∈ paths, ∀ place, before.Names path place → after.text? place = none
  texts : ∀ place text, after.text? place = some text → before.text? place = some text
  gone : ∀ place, after.text? place = before.text? place ∨ ∃ path ∈ paths, after.Names path place

/-- One file is removed before others. -/
theorem Clears.cons (h : Clears [path] before middle) (hrest : Clears paths middle after) :
    Clears (path :: paths) before after where
  folders := h.folders.trans hrest.folders
  removed other hother place hnames := by
    rcases List.mem_cons.1 hother with rfl | hother
    · have hnone := h.removed other List.mem_cons_self place hnames
      refine Option.eq_none_iff_forall_ne_some.2 fun text htext => ?_
      rw [hrest.texts place text htext] at hnone
      cases hnone
    · exact hrest.removed other hother place (hnames.mono h.folders)
  texts place text htext := h.texts place text (hrest.texts place text htext)
  gone place := by
    rcases hrest.gone place with hsame | ⟨other, hother, hnames⟩
    · rcases h.gone place with hsame' | ⟨first, hfirst, hnames⟩
      · exact Or.inl (hsame.trans hsame')
      · rw [List.mem_singleton.1 hfirst] at hnames
        exact Or.inr ⟨path, List.mem_cons_self, hnames.mono hrest.folders⟩
    · exact Or.inr ⟨other, List.mem_cons_of_mem _ hother, hnames⟩

/-- One file is removed, if there is one. -/
theorem clears_remove (path : String) (s : Session) :
    Clears [path] s.disk ((Session.files.remove path).run s).2.disk := by
  change Clears [path] s.disk ((Session.change (·.remove path)).run s).2.disk
  rw [run_change]
  cases h : s.disk.remove path with
  | error fault =>
    refine ⟨.refl _, fun other hother place hnames => ?_, fun _ _ h => h, fun _ => Or.inl rfl⟩
    rw [List.mem_singleton.1 hother] at hnames
    refine Option.eq_none_iff_forall_ne_some.2 fun text htext => ?_
    obtain ⟨disk, hdisk⟩ := Disk.exists_remove hnames (Disk.text?_eq_some_iff.1 htext)
    rw [h] at hdisk
    cases hdisk
  | ok disk =>
    obtain ⟨place, text, hnames, hfile, hsets⟩ := Disk.sets_of_remove h
    have hfolders : s.disk.KeepsFolders disk :=
      hsets.keepsFolders (Disk.kind?_ne_folder_of_file hfile)
    refine ⟨hfolders, fun other hother q hq => ?_, fun q text hq => ?_, fun q => ?_⟩
    · rw [List.mem_singleton.1 hother] at hq
      rw [hq.unique hnames]
      exact Disk.text?_eq_none_of_kind? hsets.self
    · by_cases hqp : q = place
      · rw [hqp, Disk.text?_eq_none_of_kind? hsets.self] at hq
        cases hq
      · rwa [hsets.text?_of_ne hqp] at hq
    · by_cases hqp : q = place
      · exact Or.inr ⟨path, List.mem_cons_self, hqp ▸ hnames.mono hfolders⟩
      · exact Or.inl (hsets.text?_of_ne hqp)

/-- Files are removed one after another. -/
theorem clears_removeAll (paths : List String) (s : Session) :
    Clears paths s.disk ((removeAll Session.files paths).run s).2.disk := by
  induction paths generalizing s with
  | nil =>
    exact ⟨.refl _, (fun _ h => nomatch h), fun _ _ h => h, fun _ => Or.inl rfl⟩
  | cons path rest ih => exact (clears_remove path s).cons (ih _)

end Removing

section Halfway

/-- Before anything is staged. -/
theorem Halfway.refl (disk : Disk) : Halfway disk disk [] [] :=
  ⟨(fun _ h => nomatch h), (fun _ h => nomatch h), fun _ _ _ => rfl⟩

/-- What is staged stays when folders are made. -/
theorem Halfway.builds (h : Halfway before middle [] kept) (hbuilds : middle.Builds after) :
    Halfway before after [] kept where
  inPlace _ hp := nomatch hp
  staged p hp := by
    obtain ⟨place, hnames, hkind⟩ := h.staged p hp
    refine ⟨place, hnames.mono hbuilds.folders, ?_⟩
    rwa [← Disk.text?_eq_some_iff, hbuilds.texts, Disk.text?_eq_some_iff]
  others place _ hplace := by
    rw [hbuilds.texts]
    exact h.others place (fun _ hp => nomatch hp)
      fun p hp hnames => hplace p hp (hnames.mono hbuilds.folders)

/-- One more module is staged. -/
theorem Halfway.stage {place : Place} (h : Halfway before middle [] kept)
    (hbeside : ∀ q ∈ kept, Path.Beside q.target p.target)
    (names : middle.Names (stagedPath p.target) place) (free : middle.kind? place ≠ some .folder)
    (sets : middle.Sets after place (some (.file p.code))) :
    Halfway before after [] (kept ++ [p]) where
  inPlace _ hp := nomatch hp
  staged q hq := by
    have hfolders := sets.keepsFolders free
    rcases List.mem_append.1 hq with hq | hq
    · obtain ⟨place', hnames, hkind⟩ := h.staged q hq
      have hne := hnames.ne names (beside_stagedPath (hbeside q hq))
      exact ⟨place', hnames.mono hfolders, by rw [sets.of_ne hne, hkind]⟩
    · rw [List.mem_singleton.1 hq]
      exact ⟨place, names.mono hfolders, sets.self⟩
  others q _ hq := by
    have hfolders := sets.keepsFolders free
    have hne : q ≠ place := by
      rintro rfl
      exact hq p (List.mem_append_right kept List.mem_cons_self) (names.mono hfolders)
    rw [sets.text?_of_ne hne]
    exact h.others q (fun _ hp => nomatch hp)
      fun r hr hnames => hq r (List.mem_append_left [p] hr) (hnames.mono hfolders)

/-- Once what was staged is removed, all files are as they were. -/
theorem Halfway.clear (h : Halfway before middle [] kept)
    (hclears : Clears (kept.map fun p => stagedPath p.target) middle after)
    (hsep : Separate publications) (hkept : ∀ p ∈ kept, p ∈ publications) :
    Unharmed (fun target => ∃ p ∈ publications, p.target = target) before after := by
  have hgone : ∀ place, after.text? place = before.text? place ∨
      ∃ p ∈ kept, after.Names (stagedPath p.target) place := by
    intro place
    rcases hclears.gone place with hsame | ⟨path, hpath, hnames⟩
    · by_cases hplace : ∃ p ∈ kept, after.Names (stagedPath p.target) place
      · exact Or.inr hplace
      · refine Or.inl (hsame.trans (h.others place (fun _ hp => nomatch hp) ?_))
        exact fun p hp hnames => hplace ⟨p, hp, hnames.mono hclears.folders⟩
    · obtain ⟨p, hp, rfl⟩ := List.mem_map.1 hpath
      exact Or.inr ⟨p, hp, hnames⟩
  refine ⟨fun place text htext => ?_, fun place => ?_, ?_⟩
  · have hmiddle := hclears.texts place text htext
    rwa [h.others place (fun _ hp => nomatch hp)] at hmiddle
    intro p hp hnames
    rw [hclears.removed _ (List.mem_map_of_mem hp) place hnames] at htext
    cases htext
  · refine (hgone place).imp_right ?_
    rintro ⟨p, hp, hnames⟩
    exact ⟨p.target, ⟨p, hkept p hp, rfl⟩, hnames⟩
  · rintro target place ⟨p, hp, rfl⟩ hnames
    refine (hgone place).resolve_right ?_
    rintro ⟨q, hq, hstaged⟩
    exact hnames.ne hstaged (hsep.staged p hp q (hkept q hq)) rfl

/-- One more module is moved to its target. -/
theorem Halfway.move {source target : Place} {rest : List Publication}
    (h : Halfway before middle moved (p :: rest)) (hsep : Separate (moved ++ p :: rest))
    (hsource : middle.Names (stagedPath p.target) source) (htarget : middle.Names p.target target)
    (hmoves : middle.Moves after text source target) :
    Halfway before after (moved ++ [p]) rest := by
  have hfolders : middle.KeepsFolders after := by
    refine ⟨hmoves.here, fun q hq => ?_⟩
    have hne : q ≠ target := fun he => hmoves.free (he ▸ hq)
    have hne' : q ≠ source := by
      rintro rfl
      rw [hmoves.found] at hq
      cases hq
    rw [hmoves.kinds, if_neg hne, if_neg hne', hq]
  have htext : text = p.code := by
    obtain ⟨place, hnames, hkind⟩ := h.staged p List.mem_cons_self
    rw [hnames.unique hsource, hmoves.found] at hkind
    cases hkind
    rfl
  have hp : p ∈ moved ++ p :: rest := List.mem_append_right _ List.mem_cons_self
  obtain ⟨-, hpairs, hmoved⟩ := List.pairwise_append.1 hsep.targets
  -- a path that is beside both changed places names what it named
  have hkeeps : ∀ {path place}, middle.Names path place → Path.Beside path p.target →
      Path.Beside path (stagedPath p.target) → after.kind? place = middle.kind? place := by
    intro path place hnames hbeside hstaged
    rw [hmoves.kinds, if_neg (hnames.ne htarget hbeside), if_neg (hnames.ne hsource hstaged)]
  refine ⟨fun q hq => ?_, fun q hq => ?_, fun place hmovedTo hstaged => ?_⟩
  · rcases List.mem_append.1 hq with hq | hq
    · obtain ⟨⟨place, hnames, hkind⟩, place', hnames', hkind'⟩ := h.inPlace q hq
      have hbeside := hmoved q hq p List.mem_cons_self
      have hall : q ∈ moved ++ p :: rest := List.mem_append_left _ hq
      refine ⟨⟨place, hnames.mono hfolders, ?_⟩, place', hnames'.mono hfolders, ?_⟩
      · rw [hkeeps hnames hbeside (hsep.staged q hall p hp), hkind]
      · rw [hkeeps hnames' (hsep.staged p hp q hall).symm (beside_stagedPath hbeside), hkind']
    · rw [List.mem_singleton.1 hq]
      refine ⟨⟨target, htarget.mono hfolders, ?_⟩, source, hsource.mono hfolders, ?_⟩
      · rw [hmoves.kinds, if_pos rfl, htext]
      · rw [hmoves.kinds, if_neg, if_pos rfl]
        exact hsource.ne htarget (hsep.staged p hp p hp).symm
  · obtain ⟨place, hnames, hkind⟩ := h.staged q (List.mem_cons_of_mem _ hq)
    have hbeside := (List.pairwise_cons.1 hpairs).1 q hq
    have hall : q ∈ moved ++ p :: rest := List.mem_append_right _ (List.mem_cons_of_mem _ hq)
    refine ⟨place, hnames.mono hfolders, ?_⟩
    rw [hkeeps hnames (hsep.staged p hp q hall).symm (beside_stagedPath hbeside.symm), hkind]
  · have hne : place ≠ target := by
      rintro rfl
      exact hmovedTo p (List.mem_append_right _ List.mem_cons_self) (htarget.mono hfolders)
    have hne' : place ≠ source := by
      rintro rfl
      exact hstaged p (List.mem_append_left _ (List.mem_append_right _ List.mem_cons_self))
        (hsource.mono hfolders)
    have hkind : after.kind? place = middle.kind? place := by
      rw [hmoves.kinds, if_neg hne, if_neg hne']
    rw [Disk.text?_congr hkind]
    refine h.others place (fun q hq hnames => ?_) fun q hq hnames => ?_
    · exact hmovedTo q (List.mem_append_left _ hq) (hnames.mono hfolders)
    · refine hstaged q ?_ (hnames.mono hfolders)
      rwa [List.append_assoc]

end Halfway

/-- What can be seen of modules that are at their targets, and of others that are staged:
the targets read the modules, nothing else is left beside them, the staged modules can be
read beside their targets, and all other files are as they were. -/
structure Published (before after : Disk) (moved kept : List Publication) : Prop where
  inPlace : ∀ p ∈ moved, after.read p.target = .ok p.code ∧
    after.reaches (stagedPath p.target) = false
  staged : ∀ p ∈ kept, after.read (stagedPath p.target) = .ok p.code
  others : ∀ place, (∀ p ∈ moved, ¬ after.Names p.target place) →
    (∀ p ∈ moved ++ kept, ¬ after.Names (stagedPath p.target) place) →
    after.text? place = before.text? place

theorem Halfway.published (h : Halfway before after moved kept) :
    Published before after moved kept where
  inPlace p hp := by
    obtain ⟨⟨place, hnames, hkind⟩, place', hnames', hkind'⟩ := h.inPlace p hp
    exact ⟨hnames.read hkind, hnames'.reaches hkind'⟩
  staged p hp := by
    obtain ⟨place, hnames, hkind⟩ := h.staged p hp
    exact hnames.read hkind
  others := h.others

section Publishing

/-- How publishing may end: without harm while staging, at a target that is a folder while
renaming, or with every module at its target. -/
inductive Publishes (publications : List Publication) (before : Disk) :
    Except RunFailure Unit × Session → Prop
  | unharmed {failure : RunFailure} {t : Session}
    (h : Unharmed (fun target => ∃ p ∈ publications, p.target = target) before t.disk) :
    Publishes publications before (.error failure, t)
  | stuck {failure : RunFailure} {t : Session} {moved rest : List Publication} {p : Publication}
    (all : publications = moved ++ p :: rest) (h : Halfway before t.disk moved (p :: rest))
    (folder : t.disk.isFolder p.target) : Publishes publications before (.error failure, t)
  | done {t : Session} (h : Halfway before t.disk publications []) :
    Publishes publications before (.ok (), t)

/-- Renaming goes on until all modules are at their targets, or a target is a folder. -/
theorem publishes_renameAll (moved : List Publication) {rest : List Publication}
    (hsep : Separate (moved ++ rest))
    (hnonempty : ∀ p ∈ rest, p.target ≠ "") (h : Halfway before s.disk moved rest) :
    Publishes (moved ++ rest) before ((renameAll Session.files rest).run.run s) := by
  induction rest generalizing moved s with
  | nil =>
    rw [List.append_nil]
    exact .done h
  | cons p rest ih =>
    obtain ⟨source, hsource, hfound⟩ := h.staged p List.mem_cons_self
    have hrun : (Session.files.rename (stagedPath p.target) p.target).run s =
        (Session.change (·.rename (stagedPath p.target) p.target)).run s := rfl
    rw [renameAll, run_bind, run_during, hrun, run_change]
    cases hrename : s.disk.rename (stagedPath p.target) p.target with
    | error fault =>
      refine .stuck rfl h ?_
      rcases Disk.names_or_isFolder slash_not_mem_partial (hnonempty p List.mem_cons_self) hsource
        with ⟨target, htarget⟩ | hfolder
      · exact htarget.isFolder (Disk.kind?_of_rename_error hrename hsource hfound htarget)
      · exact hfolder
    | ok disk =>
      obtain ⟨source', target, text, hsource', htarget, hmoves⟩ := Disk.moves_of_rename hrename
      have hmoved := h.move hsep hsource' htarget hmoves
      have hrest := ih (moved ++ [p]) (s := { s with disk }) (by rwa [List.append_assoc])
        (fun q hq => hnonempty q (List.mem_cons_of_mem _ hq)) hmoved
      rwa [List.append_assoc] at hrest

/-- Staging goes on until all modules are staged, and renaming follows; or what was staged
is removed. -/
theorem publishes_stageAll (kept : List Publication) {rest : List Publication}
    (hsep : Separate (kept ++ rest))
    (hnonempty : ∀ p ∈ kept ++ rest, p.target ≠ "") (h : Halfway before s.disk [] kept) :
    Publishes (kept ++ rest) before ((do
      stageAll Session.files (kept.map fun p => stagedPath p.target) rest
      renameAll Session.files (kept ++ rest) :
        ExceptT RunFailure (StateM Session) Unit).run.run s) := by
  induction rest generalizing kept s with
  | nil =>
    rw [List.append_nil] at hsep hnonempty ⊢
    exact publishes_renameAll [] hsep hnonempty h
  | cons p rest ih =>
    rw [stageAll, run_bind, run_bind, run_attempt]
    dsimp only
    have hstages := stages_stage p s
    match hresult : (stage Session.files p).run.run s with
    | (.ok _, m) =>
      rw [hresult] at hstages
      cases hstages with
      | written hbuilds names free sets =>
        have hpairs := (List.pairwise_append.1 hsep.targets).2.2
        have hmore := (h.builds hbuilds).stage (fun q hq => hpairs q hq p List.mem_cons_self)
          names free sets
        have hrest := ih (kept ++ [p]) (s := m) (by rwa [List.append_assoc])
          (by rwa [List.append_assoc]) hmore
        rw [run_bind, List.map_append, List.append_assoc] at hrest
        exact hrest
    | (.error failure, m) =>
      rw [hresult] at hstages
      cases hstages with
      | failed hbuilds =>
        have hclears := clears_removeAll (kept.map fun p => stagedPath p.target) m
        exact .unharmed ((h.builds hbuilds).clear hclears hsep
          fun q hq => List.mem_append_left _ hq)

/-- Publishing modules whose targets are next to each other. -/
theorem publishes_publish (hsep : Separate publications)
    (hnonempty : ∀ p ∈ publications, p.target ≠ "") (s : Session) :
    Publishes publications s.disk ((publish Session.files publications).run.run s) :=
  publishes_stageAll [] hsep hnonempty (.refl s.disk)

end Publishing

end TypedClient.Command
