import Mathlib.Data.List.Nodup
import TypedClient.Proofs.Command.Targets

/-!
# All or nothing

A run that writes files and succeeds leaves the module of every schema at its target and
nothing beside it. A run that fails leaves every file as it was, but for one thing: when
a target turns out to be a folder once all modules are staged, those before it are at
their targets already, and it and those behind it stay staged.
-/

namespace TypedClient.Command

open Files

variable {network : String → Except String String} {a : Arguments} {s t : Session}
  {r : Recipe} {schemas : List String}

/-- Whether a text is the module of a schema, when it is made before any other. -/
def IsModuleOf (host : Host (StateM Session)) (a : Arguments) (s : Session)
    (schema code : String) : Prop :=
  ∃ r middle after, (recipe host a).run.run s = (.ok r, middle) ∧
    (moduleAt host r schema).run.run middle = (.ok code, after)

/-- Whether a path is the target of a schema that is asked for. -/
def IsTarget (host : Host (StateM Session)) (a : Arguments) (s : Session) (target : String) :
    Prop :=
  ∃ schemas after, (expandAll host a.schemas).run.run s = (.ok schemas, after) ∧
    ∃ schema ∈ schemas, targetOf a schema = target

/-- Whether publications are those of the modules of all schemas that are asked for, in
order. -/
def Plans (host : Host (StateM Session)) (a : Arguments) (s : Session)
    (publications : List Publication) : Prop :=
  ∃ schemas after, (expandAll host a.schemas).run.run s = (.ok schemas, after) ∧
    List.Forall₂ (fun schema p => p.target = targetOf a schema ∧ IsModuleOf host a s schema p.code)
      schemas publications

/-- How a run that writes files may end. -/
inductive Ends (host : Host (StateM Session)) (a : Arguments) (s : Session) :
    Except RunFailure Unit × Session → Prop
  | unharmed {failure : RunFailure} {t : Session}
    (h : Unharmed (IsTarget host a s) s.disk t.disk) : Ends host a s (.error failure, t)
  | stuck {failure : RunFailure} {t : Session} {moved rest : List Publication} {p : Publication}
    (plans : Plans host a s (moved ++ p :: rest)) (h : Published s.disk t.disk moved (p :: rest))
    (folder : t.disk.isFolder p.target) : Ends host a s (.error failure, t)
  | done {t : Session} {publications : List Publication} (nonempty : publications ≠ [])
    (plans : Plans host a s publications) (h : Published s.disk t.disk publications []) :
    Ends host a s (.ok (), t)

/-- Nothing is harmed when the disk is as it was. -/
theorem unharmed_of_sameDisk {targets : String → Prop} (h : SameDisk s t) :
    Unharmed targets s.disk t.disk := by
  rw [h]
  exact ⟨fun _ _ h => h, fun _ => Or.inl rfl, fun _ _ _ _ => rfl⟩

/-- Modules that are made one after another are those that are made alone. -/
theorem modules_of_modulesAt {middle after : Session} {modules : List String}
    (hmodules : (modulesAt (Session.online network) r schemas).run.run t = (.ok modules, after))
    (hdisk : t.disk = middle.disk)
    (hinput : Location.standardInput ∈ schemas → t.input = middle.input)
    (hnodup : schemas.Nodup) :
    List.Forall₂ (fun schema code =>
      ((moduleAt (Session.online network) r schema).run.run middle).1 = .ok code)
      schemas modules := by
  induction schemas generalizing t modules with
  | nil =>
    cases hmodules
    exact .nil
  | cons schema rest ih =>
    rw [modulesAt] at hmodules
    obtain ⟨first, later, hfirst, hmodules⟩ := ok_of_run_bind_eq_ok hmodules
    obtain ⟨others, last, hothers, hmodules⟩ := ok_of_run_bind_eq_ok hmodules
    cases hmodules
    rw [run_during] at hfirst
    obtain ⟨hcode, rfl⟩ := Prod.mk.inj hfirst
    obtain ⟨input, warnings, hlater, hkept⟩ := moduleAt_cases network r schema t
    obtain ⟨hfresh, hnodup⟩ := List.nodup_cons.1 hnodup
    refine .cons ?_ (ih hothers ?_ (fun hrest => ?_) hnodup)
    · rw [← moduleAt_congr network hdisk fun he => hinput (he ▸ List.mem_cons_self)]
      exact ok_of_mapError_eq_ok hcode
    · rw [hlater]
      exact hdisk
    · rw [hlater]
      refine (hkept fun he => hfresh (he ▸ hrest)).trans ?_
      exact hinput (List.mem_cons_of_mem _ hrest)

/-- Making modules of schemas whose targets are different gives the publications of all of
them. -/
theorem plans_of_modulesAt {middle after expanded : Session} {modules : List String}
    (hschemas : (expandAll (Session.online network) a.schemas).run.run s = (.ok schemas, expanded))
    (hrecipe : (recipe (Session.online network) a).run.run s = (.ok r, middle))
    (hmodules : (modulesAt (Session.online network) r schemas).run.run middle =
      (.ok modules, after)) (hnodup : (schemas.map (targetOf a)).Nodup) :
    Plans (Session.online network) a s
      (List.zipWith Publication.mk (schemas.map (targetOf a)) modules) := by
  refine ⟨schemas, expanded, hschemas, ?_⟩
  have hmade := modules_of_modulesAt hmodules rfl (fun _ => rfl) (List.Nodup.of_map _ hnodup)
  clear hschemas hmodules hnodup
  induction hmade with
  | nil => exact .nil
  | @cons schema code rest codes hcode _ ih =>
    exact .cons ⟨rfl, r, middle, _, hrecipe, Prod.ext hcode rfl⟩ ih

/-- The targets of the publications of a run are those of its schemas, and are beside each
other. -/
theorem separate_of_targets {publications : List Publication}
    (h : publications.map Publication.target = schemas.map (targetOf a))
    (hnodup : (schemas.map (targetOf a)).Nodup) : Separate publications := by
  have htarget : ∀ p ∈ publications, ∃ schema ∈ schemas, p.target = targetOf a schema := by
    intro p hp
    have hmem : p.target ∈ schemas.map (targetOf a) := h ▸ List.mem_map_of_mem hp
    obtain ⟨schema, hschema, he⟩ := List.mem_map.1 hmem
    exact ⟨schema, hschema, he.symm⟩
  refine ⟨?_, fun p hp q hq => ?_⟩
  · rw [← h, List.Nodup, List.pairwise_map] at hnodup
    refine hnodup.imp_of_mem fun hp hq hne => ?_
    obtain ⟨first, -, hfirst⟩ := htarget _ hp
    obtain ⟨second, -, hsecond⟩ := htarget _ hq
    rw [hfirst, hsecond] at hne ⊢
    exact beside_targetOf hne
  · obtain ⟨first, -, hfirst⟩ := htarget p hp
    obtain ⟨second, -, hsecond⟩ := htarget q hq
    rw [hfirst, hsecond]
    exact beside_stagedPath_targetOf a first second

/-- The publications of a run have the targets of its schemas, in order. -/
theorem targets_of_plans {publications : List Publication} {expanded : Session}
    (hplans : Plans (Session.online network) a s publications)
    (hschemas : (expandAll (Session.online network) a.schemas).run.run s =
      (.ok schemas, expanded)) :
    publications.map Publication.target = schemas.map (targetOf a) := by
  obtain ⟨schemas', after, hschemas', hpairs⟩ := hplans
  obtain ⟨hsame, -⟩ := Prod.mk.inj (hschemas.symm.trans hschemas')
  obtain rfl := Except.ok.inj hsame
  clear hschemas hschemas' hsame
  induction hpairs with
  | nil => rfl
  | cons hpair _ ih => rw [List.map_cons, List.map_cons, hpair.1, ih]

/-- The targets of the publications of a run are the targets of the run. -/
theorem exists_target_iff {publications : List Publication} {expanded : Session}
    (htargets : publications.map Publication.target = schemas.map (targetOf a))
    (hschemas : (expandAll (Session.online network) a.schemas).run.run s =
      (.ok schemas, expanded)) (target : String) :
    (∃ p ∈ publications, p.target = target) ↔ IsTarget (Session.online network) a s target := by
  rw [← List.mem_map, htargets, List.mem_map]
  refine ⟨fun h => ⟨schemas, expanded, hschemas, h⟩, ?_⟩
  rintro ⟨schemas', after, hschemas', h⟩
  obtain ⟨hsame, -⟩ := Prod.mk.inj (hschemas.symm.trans hschemas')
  obtain rfl := Except.ok.inj hsame
  exact h

/-- Reports change nothing but what is shown. -/
theorem run_reports (network : String → Except String String) {α : Type} (text : α → String)
    (l : List α) (s : Session) :
    ∃ reports, (l.forM fun x => ((Session.online network).report (text x) :
      ExceptT RunFailure (StateM Session) PUnit)).run.run s = (.ok (), { s with reports }) := by
  induction l generalizing s with
  | nil => exact ⟨s.reports, rfl⟩
  | cons x rest ih => exact ih { s with reports := s.reports ++ text x }

/-- Making the modules of schemas and publishing them. -/
theorem ends_writing {middle expanded : Session} (hout : a.out ≠ some "")
    (hschemas : (expandAll (Session.online network) a.schemas).run.run s = (.ok schemas, expanded))
    (hsome : schemas ≠ [])
    (hrecipe : (recipe (Session.online network) a).run.run s = (.ok r, middle))
    (hsame : SameDisk s middle) (hnodup : (schemas.map (targetOf a)).Nodup) :
    Ends (Session.online network) a s ((do
      let modules ← modulesAt (Session.online network) r schemas
      publish (Session.online network).files
        (List.zipWith Publication.mk (schemas.map (targetOf a)) modules)
      (schemas.zip (schemas.map (targetOf a))).forM fun x =>
        ((Session.online network).report ("generated " ++ x.1 ++ " → " ++ x.2 ++ "\n") :
          ExceptT RunFailure (StateM Session) PUnit)).run.run middle) := by
  rw [run_bind]
  have hmade := follows_modulesAt network r schemas middle
  match hmodules : (modulesAt (Session.online network) r schemas).run.run middle with
  | (.error failure, later) =>
    rw [hmodules] at hmade
    exact .unharmed (unharmed_of_sameDisk (IsTrans.trans _ _ _ hsame hmade))
  | (.ok modules, later) =>
    rw [hmodules] at hmade
    have hdisk : later.disk = s.disk := IsTrans.trans (r := SameDisk) _ _ _ hsame hmade
    have hplans := plans_of_modulesAt hschemas hrecipe hmodules hnodup
    generalize hall : List.zipWith Publication.mk (schemas.map (targetOf a)) modules =
      publications at hplans
    have htargets := targets_of_plans hplans hschemas
    have hempty : ∀ p ∈ publications, p.target ≠ "" := by
      intro p hp
      have hmem : p.target ∈ schemas.map (targetOf a) := htargets ▸ List.mem_map_of_mem hp
      obtain ⟨schema, -, he⟩ := List.mem_map.1 hmem
      exact he ▸ targetOf_ne_empty hout schema
    have hpublishes := publishes_publish (separate_of_targets htargets hnodup) hempty later
    rw [hdisk] at hpublishes
    dsimp only
    rw [hall, run_bind]
    change Publishes _ _ ((publish (Session.online network).files publications).run.run later)
      at hpublishes
    match hresult : (publish (Session.online network).files publications).run.run later with
    | (.error failure, last) =>
      rw [hresult] at hpublishes
      cases hpublishes with
      | unharmed h =>
        rw [funext fun target => propext (exists_target_iff htargets hschemas target)] at h
        exact .unharmed h
      | stuck all h folder =>
        subst all
        exact .stuck hplans h.published folder
    | (.ok _, last) =>
      rw [hresult] at hpublishes
      cases hpublishes with
      | done h =>
        obtain ⟨reports, hreports⟩ := run_reports network
          (fun x : String × String => "generated " ++ x.1 ++ " → " ++ x.2 ++ "\n")
          (schemas.zip (schemas.map (targetOf a))) last
        dsimp only
        rw [hreports]
        refine .done (fun hnil => hsome ?_) hplans h.published
        rw [hnil, List.map_nil] at htargets
        exact List.map_eq_nil_iff.1 htargets.symm

/-- A run that writes files ends without harm, at a target that is a folder, or well. -/
theorem ends_runUpdated (hemit : a.noEmit = false) (hout : a.out ≠ some "") (s : Session) :
    Ends (Session.online network) a s
      ((runUpdated (Session.online network) a).run.run s) := by
  rw [runUpdated, run_bind]
  have hexpand := follows_expandAll network a.schemas s
  match hschemas : (expandAll (Session.online network) a.schemas).run.run s with
  | (.error failure, _) =>
    rw [hschemas] at hexpand
    exact .unharmed (unharmed_of_sameDisk (congrArg Session.disk hexpand).symm)
  | (.ok schemas, expanded) =>
    obtain rfl : s = expanded := by rwa [hschemas] at hexpand
    dsimp only
    split
    · exact .unharmed (unharmed_of_sameDisk rfl)
    · rename_i hsome
      split
      · exact .unharmed (unharmed_of_sameDisk rfl)
      · rw [run_bind]
        have hsame := follows_recipe network a s
        match hrecipe : (recipe (Session.online network) a).run.run s with
        | (.error failure, middle) =>
          rw [hrecipe] at hsame
          exact .unharmed (unharmed_of_sameDisk hsame)
        | (.ok r, middle) =>
          rw [hrecipe] at hsame
          dsimp only
          rw [hemit, if_neg Bool.false_ne_true, run_bind]
          cases htargets : targets a schemas with
          | error failure => exact .unharmed (unharmed_of_sameDisk hsame)
          | ok paths =>
            obtain ⟨rfl, hnodup⟩ := targets_eq_ok htargets
            exact ends_writing hout hschemas (fun he => hsome (by rw [he]; rfl)) hrecipe hsame
              hnodup

/-- A run names the older words first, which only changes what was reported. -/
theorem ends_run (network : String → Except String String)
    (hwrites : a.updated.noEmit = false) (hout : a.out ≠ some "") (s : Session) :
    ∃ reports, Ends (Session.online network) a.updated { s with reports }
      ((run (Session.online network) a).run.run s) := by
  obtain ⟨reports, hreports⟩ := run_reports network
    (fun words : Flag × Flag => "warning: " ++ words.1.text ++ " is deprecated, use " ++
      words.2.text ++ " instead\n") a.outdated s
  refine ⟨reports, ?_⟩
  rw [run, run_bind, hreports]
  exact ends_runUpdated hwrites hout _

/-- The status tells whether a run succeeded, and the disk is as the run left it. -/
theorem execute_generate {arguments : List String}
    (h : Request.ofArguments arguments = .ok (.generate a)) (s : Session) :
    (execute (Session.online network) arguments).run s =
      match (run (Session.online network) a).run.run s with
      | (.ok _, t) => (0, t)
      | (.error failure, t) =>
        (1, { t with reports := t.reports ++ ("error: " ++ failure.message ++ "\n") }) := by
  rw [execute, h, StateT.run_bind]
  match (run (Session.online network) a).run.run s with
  | (.ok _, t) => rfl
  | (.error failure, t) => rfl

/-- The network that a session reaches may be any. A run of the command line that writes
files leaves the module of every schema at its target, and nothing beside it, if it ends
with status 0. If not, no file is new or has another text, what is gone was in the way of
a module that is staged, and the targets are as they were; or one target is a folder, in
which case the modules of the schemas before are at their targets, the module of its
schema and those of the schemas behind are beside theirs, and nothing else was changed. -/
theorem execute_publishes (network : String → Except String String) {arguments : List String}
    (h : Request.ofArguments arguments = .ok (.generate a)) (hwrites : a.updated.noEmit = false)
    (s : Session) :
    let host := Session.online network
    let after := (execute host arguments).run s
    ∃ reports,
      (after.1 = 0 → ∃ publications ≠ [], Plans host a.updated { s with reports } publications ∧
        Published s.disk after.2.disk publications []) ∧
      (after.1 ≠ 0 →
        Unharmed (IsTarget host a.updated { s with reports }) s.disk after.2.disk ∨
        ∃ moved p rest, Plans host a.updated { s with reports } (moved ++ p :: rest) ∧
          Published s.disk after.2.disk moved (p :: rest) ∧ after.2.disk.isFolder p.target) := by
  intro host after
  obtain ⟨reports, hends⟩ := ends_run network hwrites (out_ofArguments h) s
  refine ⟨reports, ?_⟩
  have hafter : after = _ := execute_generate h s
  have hne : (1 : UInt32) ≠ 0 := by decide
  rw [hafter]
  rcases hresult : (run host a).run.run s with ⟨result, t⟩
  rw [hresult] at hends
  cases hends with
  | done nonempty plans h => exact ⟨fun _ => ⟨_, nonempty, plans, h⟩, fun hne => absurd rfl hne⟩
  | unharmed h => exact ⟨fun hzero => absurd hzero hne, fun _ => Or.inl h⟩
  | stuck plans h folder =>
    exact ⟨fun hzero => absurd hzero hne, fun _ => Or.inr ⟨_, _, _, plans, h, folder⟩⟩

/-- Arguments that ask for the modules of two schemas in a folder. -/
def pairArguments : List String :=
  ["--schema", "a.json", "b.json", "--outPath", "out", "--template", "t"]

/-- Two schemas and a template, and what else there is. -/
def pairSession (others : List (String × Node)) : Session where
  disk := ⟨[], .folder ([("t", .file "T"), ("a.json", .file "\x7b\"swagger\":\"2.0\"\x7d"),
    ("b.json", .file "\x7b\"swagger\":\"2.0\"\x7d")] ++ others)⟩

/-- How a run for the two schemas ends. -/
def runPair (others : List (String × Node)) : UInt32 × Session :=
  (execute (Session.online fun _ => .error "there is no network") pairArguments).run
    (pairSession others)

/-- Two schemas are written to a folder that is not there yet. -/
theorem runPair_publishes :
    let a : Arguments :=
      { schemas := ["a.json", "b.json"], outPath := some "out", template := some "t" }
    Request.ofArguments pairArguments = .ok (.generate a) ∧ a.updated.noEmit = false ∧
      (runPair []).1 = 0 ∧ ∃ publications ≠ [],
        Published (pairSession []).disk (runPair []).2.disk publications [] := by
  intro a
  have harguments : Request.ofArguments pairArguments = .ok (.generate a) := by decide +kernel
  have hstatus : (runPair []).1 = 0 := by decide +kernel
  have hends :=
    execute_publishes (fun _ => .error "there is no network") harguments rfl (pairSession [])
  dsimp only at hends
  rw [← runPair] at hends
  obtain ⟨reports, hdone, -⟩ := hends
  obtain ⟨publications, hsome, -, hpublished⟩ := hdone hstatus
  exact ⟨harguments, rfl, hstatus, publications, hsome, hpublished⟩

/-- A folder at the target of the second schema. -/
def folderInTheWay : List (String × Node) :=
  [("out", .folder [("b.ts", .folder [("x", .file "x")])])]

/-- When the target of the second schema is a folder, the run fails and leaves the module of
the first one, and that of the second one beside its target. -/
theorem runPair_leaves_modules :
    (pairSession folderInTheWay).disk.reaches "out/a.ts" = false ∧
      (pairSession folderInTheWay).disk.reaches "out/b.ts.partial" = false ∧
      (runPair folderInTheWay).1 = 1 ∧
      (runPair folderInTheWay).2.disk.reaches "out/a.ts" = true ∧
      (runPair folderInTheWay).2.disk.reaches "out/b.ts.partial" = true := by
  decide +kernel

end TypedClient.Command
