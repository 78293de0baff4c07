import Mathlib.Order.Defs.Unbundled
import TypedClient.Command.Run
import TypedClient.Command.Session
import TypedClient.Proofs.Outcomes

/-!
# What runs in a session may change

Steps of a run take a session to another one. A relation between sessions that every
step follows is followed by the run: searching for schemas leaves the session as it is,
and making modules leaves the disk as it is.
-/

namespace TypedClient.Command

/-- A session as a host that reaches a network. -/
def Session.online (network : String → Except String String) : Host (StateM Session) :=
  { Session.host with fetch := fun location s => (network location, s) }

section Outcomes

variable {ε δ α β : Type} {s : Session}

/-- Two steps in a row, by how the first one went. -/
theorem run_bind (step : ExceptT ε (StateM Session) α)
    (next : α → ExceptT ε (StateM Session) β) (s : Session) :
    (step >>= next).run.run s =
      match step.run.run s with
      | (.ok a, middle) => (next a).run.run middle
      | (.error e, middle) => (.error e, middle) := by
  rw [ExceptT.run_bind, StateT.run_bind]
  cases step.run.run s with
  | mk result middle => cases result <;> rfl

/-- How an attempt went is its result. -/
theorem run_attempt (action : StateM Session (Except ε α)) (s : Session) :
    (attempt action : ExceptT δ (StateM Session) _).run.run s =
      (.ok (action.run s).1, (action.run s).2) :=
  rfl

/-- What went wrong is put in context. -/
theorem run_during (context : ε → δ) (action : StateM Session (Except ε α)) (s : Session) :
    (during context action).run.run s = ((action.run s).1.mapError context, (action.run s).2) := by
  rw [during, run_bind, run_attempt]
  dsimp only
  cases (action.run s).1 <;> rfl

/-- A change of the disk that fails leaves everything as it is. -/
theorem run_change (step : Files.Disk → Except Files.Fault Files.Disk) (s : Session) :
    (Session.change step).run s =
      match step s.disk with
      | .ok disk => (.ok (), { s with disk })
      | .error fault => (.error fault, s) :=
  rfl

end Outcomes

/-- Every run of an action takes a session to one that is related to it. -/
def Follows {α : Type} (R : Session → Session → Prop) (action : StateM Session α) : Prop :=
  ∀ s, R s (action.run s).2

section Steps

variable {ε δ α β : Type} {R : Session → Session → Prop}

theorem Follows.pure [Std.Refl R] (a : α) : Follows R (Pure.pure a : StateM Session α) :=
  fun s => refl s

/-- Two steps in a row, the first of which may fail. -/
theorem Follows.bind_run [IsTrans Session R] {step : ExceptT ε (StateM Session) α}
    {next : α → ExceptT ε (StateM Session) β} (hstep : Follows R step.run)
    (hnext : ∀ a, Follows R (next a).run) : Follows R (step >>= next).run := by
  intro s
  have hs := hstep s
  rw [run_bind]
  match hresult : step.run.run s with
  | (.ok a, middle) =>
    rw [hresult] at hs
    exact IsTrans.trans _ _ _ hs (hnext a middle)
  | (.error e, middle) =>
    rw [hresult] at hs
    exact hs

theorem Follows.during (context : ε → δ) {action : StateM Session (Except ε α)}
    (h : Follows R action) : Follows R (Command.during context action).run := by
  intro s
  rw [run_during]
  exact h s

theorem Follows.attempt {action : StateM Session (Except ε α)} (h : Follows R action) :
    Follows R (Command.attempt action : ExceptT δ (StateM Session) _).run :=
  fun s => h s

/-- A step that cannot fail. -/
theorem Follows.lift {step : StateM Session α} (h : Follows R step) :
    Follows R (liftM step : ExceptT ε (StateM Session) α).run :=
  fun s => h s

theorem Follows.map {step : StateM Session α} (h : Follows R step) (f : α → β) :
    Follows R (f <$> step) :=
  fun s => h s

end Steps

section Searching

open Files

variable {ε : Type} {find : String → ExceptT Unlisted (StateM Session) (List String)}

/-- Asking for a folder leaves a session as it is. -/
theorem follows_isFolder {R : Session → Session → Prop} [Std.Refl R] (path : String) :
    Follows R (Session.files.isFolder path) :=
  fun s => refl s

/-- Asking whether there is anything leaves a session as it is. -/
theorem follows_reaches (path : String) : Follows Eq (Session.files.reaches path) :=
  fun _ => rfl

/-- Listing a folder leaves a session as it is. -/
theorem follows_list (path : String) : Follows Eq (Session.files.list path) :=
  fun _ => rfl

/-- What one place after another is looked at for leaves a session as it is. -/
theorem follows_collect (h : ∀ a, Follows Eq (find a).run) (l : List String) :
    Follows Eq (Pattern.collect find l).run := by
  induction l with
  | nil => exact .pure _
  | cons a rest ih => exact (h a).bind_run fun _ => ih.bind_run fun _ => .pure _

/-- Looking at a path with a name leaves a session as it is when searching from there on
does. -/
theorem follows_visit
    {search : List PatternPart → String → ExceptT Unlisted (StateM Session) (List String)}
    (h : ∀ parts path, Follows Eq (search parts path).run) (part : PatternPart)
    (rest : List PatternPart) (path name : String) :
    Follows Eq (Pattern.searchWithin.visit Session.files search part rest path name).run := by
  rw [Pattern.searchWithin.visit]
  split
  · refine Follows.bind_run (follows_isFolder path).lift fun isFolder => ?_
    have hinside (own : List String) : Follows Eq (ExceptT.run (do
        let inside ← if isFolder then
          search (.folders :: List.dropWhile PatternPart.isFolders rest) path else Pure.pure []
        return own ++ inside)) := by
      split
      · exact (h _ _).bind_run fun inside => .pure _
      · exact .pure _
    dsimp only
    split
    · exact hinside _
    · split
      · exact (h _ _).bind_run hinside
      · exact hinside _
  · split
    · exact h _ _
    · exact .pure _

/-- Searching for the parts of a pattern leaves a session as it is. -/
theorem follows_searchWithin (onlyFolders : Bool) (level : Nat) (parts : List PatternPart)
    (path : String) :
    Follows Eq (Pattern.searchWithin Session.files onlyFolders level parts path).run := by
  induction level generalizing parts path with
  | zero => exact .pure _
  | succ level ih =>
    rw [Pattern.searchWithin]
    refine Follows.bind_run (follows_isFolder path).lift fun isFolder => ?_
    split
    · exact .pure _
    · rename_i text rest
      have hnext (found : Bool) : Follows Eq (ExceptT.run (if found then
          Pattern.searchWithin Session.files onlyFolders level rest (Pattern.step path text)
        else Pure.pure [])) := by
        split
        · exact ih _ _
        · exact .pure _
      dsimp only
      split
      · exact hnext _
      · exact (follows_reaches _).lift.bind_run hnext
    · split
      · refine Follows.bind_run ((follows_list path).map _) fun names => ?_
        refine Follows.bind_run (follows_collect (fun dot => ih _ _) _) fun dots => ?_
        refine Follows.bind_run (follows_collect (fun name => ?_) _) fun others => .pure _
        exact follows_visit ih _ _ _ _
      · exact .pure _

/-- Searching for a pattern leaves a session as it is. -/
theorem follows_search (pattern : Pattern) :
    Follows Eq (pattern.search Session.files).run :=
  follows_searchWithin _ _ _ _

end Searching

variable (network : String → Except String String)

/-- Finding the schemas that a location stands for leaves a session as it is. -/
theorem follows_expand (location : String) :
    Follows Eq (expand (Session.online network) location).run := by
  rw [expand]
  split
  · split
    · exact .pure _
    · refine (Follows.during _ (follows_search _)).bind_run fun paths => ?_
      split
      · exact .pure _
      · exact .pure _
  · exact .pure _

/-- Finding all schemas leaves a session as it is. -/
theorem follows_expandAll (locations : List String) :
    Follows Eq (expandAll (Session.online network) locations).run := by
  induction locations with
  | nil => exact .pure _
  | cons location rest ih =>
    exact (follows_expand network location).bind_run fun _ => ih.bind_run fun _ => .pure _

section Generating

variable {s t : Session} {location : String} {r : Recipe} {a : Arguments}

/-- Whether two sessions have the same disk. -/
def SameDisk (s t : Session) : Prop := t.disk = s.disk

instance : Std.Refl SameDisk := ⟨fun _ => rfl⟩

instance : IsTrans Session SameDisk := ⟨fun _ _ _ h h' => h'.trans h⟩

/-- Reading a location takes at most the input away. -/
theorem textAt_cases (location : String) (s : Session) :
    ∃ input, ((textAt (Session.online network) location).run.run s).2 = { s with input } ∧
      (location ≠ Location.standardInput → input = s.input) := by
  rw [textAt]
  split
  · rw [run_during]
    exact ⟨s.input, rfl, fun _ => rfl⟩
  · rw [run_during]
    split
    · rename_i hinput
      exact ⟨"", rfl, fun h => absurd hinput h⟩
    · exact ⟨s.input, rfl, fun _ => rfl⟩

/-- What is read at a location depends on the disk, and on the input where it is read. -/
theorem textAt_congr (hdisk : t.disk = s.disk)
    (hinput : location = Location.standardInput → t.input = s.input) :
    ((textAt (Session.online network) location).run.run t).1 =
      ((textAt (Session.online network) location).run.run s).1 := by
  rw [textAt]
  split
  · rw [run_during, run_during]
    rfl
  · rw [run_during, run_during]
    split
    · rename_i h
      have hread : ((Session.online network).input.run t).1 =
          ((Session.online network).input.run s).1 := congrArg Except.ok (hinput h)
      rw [hread]
    · have hread : (((Session.online network).files.read location).run t).1 =
          (((Session.online network).files.read location).run s).1 :=
        congrArg (fun disk => disk.read location) hdisk
      rw [hread]

/-- Warnings are noted one after another. -/
theorem run_warn (warnings : List Warning) (s : Session) :
    (warnings.forM fun w => ((Session.online network).warn w.message :
      ExceptT Failure (StateM Session) PUnit)).run.run s =
      (.ok (), { s with warnings := s.warnings ++ warnings.map Warning.message }) := by
  induction warnings generalizing s with
  | nil =>
    rw [List.map_nil, List.append_nil]
    rfl
  | cons w rest ih =>
    have hrest := ih { s with warnings := s.warnings ++ [w.message] }
    rw [List.append_assoc] at hrest
    exact hrest

/-- A module is made of the text at its location. -/
theorem run_moduleAt (s : Session) :
    (moduleAt (Session.online network) r location).run.run s =
      match (textAt (Session.online network) location).run.run s with
      | (.ok text, middle) =>
        let made := Module.ofText text r.template r.options r.values
        (made.1, { middle with warnings := middle.warnings ++ made.2.map Warning.message })
      | (.error e, middle) => (.error e, middle) := by
  rw [moduleAt, run_bind]
  match (textAt (Session.online network) location).run.run s with
  | (.ok text, middle) =>
    dsimp only
    rw [run_bind, run_warn network]
    rfl
  | (.error e, middle) => rfl

/-- Making a module leaves the disk as it is, and the input where it is not read. -/
theorem moduleAt_cases (r : Recipe) (location : String)
    (s : Session) :
    ∃ input warnings, ((moduleAt (Session.online network) r location).run.run s).2 =
        { s with input, warnings } ∧
      (location ≠ Location.standardInput → input = s.input) := by
  obtain ⟨input, hafter, hinput⟩ := textAt_cases network location s
  rw [run_moduleAt network]
  match htext : (textAt (Session.online network) location).run.run s with
  | (.ok text, middle) =>
    rw [htext] at hafter
    cases hafter
    exact ⟨input, _, rfl, hinput⟩
  | (.error e, middle) =>
    rw [htext] at hafter
    cases hafter
    exact ⟨input, s.warnings, rfl, hinput⟩

/-- Which module is made depends on the disk, and on the input where it is read. -/
theorem moduleAt_congr (hdisk : t.disk = s.disk)
    (hinput : location = Location.standardInput → t.input = s.input) :
    ((moduleAt (Session.online network) r location).run.run t).1 =
      ((moduleAt (Session.online network) r location).run.run s).1 := by
  have htext := textAt_congr network hdisk hinput
  rw [run_moduleAt network, run_moduleAt network]
  generalize (textAt (Session.online network) location).run.run t = after at htext
  generalize (textAt (Session.online network) location).run.run s = after' at htext
  obtain ⟨result, middle⟩ := after
  obtain ⟨result', middle'⟩ := after'
  cases htext
  cases result <;> rfl

theorem follows_textAt (location : String) :
    Follows SameDisk (textAt (Session.online network) location).run := by
  intro s
  obtain ⟨input, hafter, -⟩ := textAt_cases network location s
  rw [SameDisk, hafter]

theorem follows_moduleAt (r : Recipe) (location : String) :
    Follows SameDisk (moduleAt (Session.online network) r location).run := by
  intro s
  obtain ⟨input, warnings, hafter, -⟩ := moduleAt_cases network r location s
  rw [SameDisk, hafter]

/-- Making modules leaves the disk as it is. -/
theorem follows_modulesAt (r : Recipe) (schemas : List String) :
    Follows SameDisk (modulesAt (Session.online network) r schemas).run := by
  induction schemas with
  | nil => exact .pure _
  | cons schema rest ih =>
    exact ((follows_moduleAt network r schema).during _).bind_run fun _ =>
      ih.bind_run fun _ => .pure _

/-- Finding out how modules are made leaves the disk as it is. -/
theorem follows_recipe (a : Arguments) :
    Follows SameDisk (recipe (Session.online network) a).run := by
  rw [recipe]
  have htime (template : String) : Follows SameDisk (ExceptT.run (do
      let time ← (Session.online network).time
      return {
        template
        options := {
          declarationsOnly := a.declaration
          leadingComment := some (a.leadingComment.getD Module.bundledComment)
          dictionaryThreshold := a.dictionaryThreshold.getD defaultThreshold }
        values := ⟨programVersion, time, Module.languageVersion⟩ } :
          ExceptT RunFailure (StateM Session) Recipe)) :=
    fun _ => rfl
  split
  · exact ((follows_textAt network _).during _).bind_run htime
  · exact htime _

end Generating

end TypedClient.Command
