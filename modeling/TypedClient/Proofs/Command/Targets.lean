import Mathlib.Data.List.TakeDrop
import TypedClient.Proofs.Command.Publishing

/-!
# The targets of a run

The targets of different schemas differ in the name of a file only, and no such name is
that of a staged file. A target is never the empty path.
-/

namespace TypedClient

namespace Files.Path

variable {path : String} {part : Segment}

theorem trimVoid_subset (parts : List Segment) : trimVoid parts ⊆ parts := by
  intro part h
  rw [trimVoid, List.mem_reverse] at h
  exact List.mem_reverse.1 ((List.dropWhile_sublist _).mem h)

/-- The parts after the start of a path are parts between slashes. -/
theorem body_subset_segments (path : String) : (parts path).body ⊆ segments path := by
  rw [parts]
  split
  · rename_i body _ hbody
    rw [hbody]
    exact fun part h => List.mem_cons_of_mem _ (trimVoid_subset _ h)
  · rename_i body hbody
    rw [hbody]
    exact fun part h => List.mem_cons_of_mem _ (trimVoid_subset _ h)
  · exact trimVoid_subset _

/-- There is no slash in the last name of a path. -/
theorem slash_not_mem_of_name? (h : name? path = some part) : '/' ∉ part := by
  rw [name?] at h
  split at h
  · rename_i last hlast
    split at h
    · cases h
    · cases h
      exact Text.not_mem_of_mem_splitAt (body_subset_segments path (List.mem_of_getLast? hlast))
  · cases h

/-- A name without its extension is a part of the name. -/
theorem stemOf_subset (part : Segment) : stemOf part ⊆ part := by
  rw [stemOf]
  split
  · rename_i before _ hspan
    intro c hc
    rw [List.span_eq_takeWhile_dropWhile] at hspan
    obtain ⟨-, hdrop⟩ := Prod.mk.inj hspan
    have hmem : c ∈ part.reverse.dropWhile (· != '.') := by
      rw [hdrop]
      exact List.mem_cons_of_mem _ (List.mem_reverse.1 hc)
    exact List.mem_reverse.1 ((List.dropWhile_sublist _).mem hmem)
  · exact List.Subset.refl _

end Files.Path

namespace Command

open Files

variable {a : Arguments} {schemas : List String}

/-- There is no slash in the name of the file for a module. -/
theorem slash_not_mem_fileName (location : String) (declaration tsx : Bool) :
    '/' ∉ (Location.fileName (Location.stem location) declaration tsx).toList := by
  have hstem : '/' ∉ (Location.stem location).toList := by
    rw [Location.stem]
    split
    · decide
    · dsimp only
      split
      · rename_i name hname
        rw [String.toList_ofList]
        exact fun h => Path.slash_not_mem_of_name? hname (Path.stemOf_subset name h)
      · decide
  rw [Location.fileName]
  simp only [String.toList_append, List.mem_append, not_or]
  refine ⟨⟨⟨hstem, ?_⟩, by decide⟩, ?_⟩
  · cases declaration <;> decide
  · cases tsx <;> decide

/-- The name of the file for a module ends in its extension, and not as what is staged. -/
theorem fileName_ne_append (stem name : String) (declaration tsx : Bool) :
    Location.fileName stem declaration tsx ≠ name ++ ".partial" := by
  intro h
  have hlast := congrArg (fun text : String => text.toList.getLast?) h
  rw [Location.fileName] at hlast
  cases tsx <;> simp [String.toList_append] at hlast

/-- Targets are names in one folder, or all the same path. -/
theorem targetOf_cases (a : Arguments) :
    (∃ folder : String, ∀ schema, targetOf a schema =
        folder ++ Location.fileName (Location.stem schema) a.declaration a.tsx) ∨
      ∃ file, a.out = some file ∧ ∀ schema, targetOf a schema = file := by
  have hjoin (folder : String) :
      ∃ start : String, ∀ name, Path.join folder name = start ++ name := by
    by_cases h : folder.isEmpty || folder.toList.getLast? == some '/'
    · exact ⟨folder, fun name => by rw [Path.join, if_pos h]⟩
    · exact ⟨folder ++ "/", fun name => by rw [Path.join, if_neg h]⟩
  match hpath : a.outPath, hout : a.out with
  | some folder, _ =>
    obtain ⟨start, hstart⟩ := hjoin folder
    exact Or.inl ⟨start, fun schema => by rw [targetOf, hpath]; exact hstart _⟩
  | none, some file => exact Or.inr ⟨file, rfl, fun schema => by rw [targetOf, hpath, hout]⟩
  | none, none =>
    obtain ⟨start, hstart⟩ := hjoin "."
    exact Or.inl ⟨start, fun schema => by rw [targetOf, hpath, hout]; exact hstart _⟩

/-- The target of a schema is not the empty path. -/
theorem targetOf_ne_empty (h : a.out ≠ some "") (schema : String) : targetOf a schema ≠ "" := by
  rcases targetOf_cases a with ⟨folder, hfolder⟩ | ⟨file, hfile, hall⟩
  · rw [hfolder]
    intro he
    have hlist := congrArg String.toList he
    simp [Location.fileName, String.toList_append] at hlist
  · rw [hall]
    rintro rfl
    exact h hfile

/-- Targets that are different are beside each other. -/
theorem beside_targetOf {first second : String} (h : targetOf a first ≠ targetOf a second) :
    Path.Beside (targetOf a first) (targetOf a second) := by
  rcases targetOf_cases a with ⟨folder, hfolder⟩ | ⟨file, -, hall⟩
  · rw [hfolder, hfolder] at h ⊢
    exact Path.beside_append (slash_not_mem_fileName _ _ _) (slash_not_mem_fileName _ _ _)
      fun he => h (by rw [he])
  · exact absurd ((hall first).trans (hall second).symm) h

/-- A target is beside what is staged for any target. -/
theorem beside_stagedPath_targetOf (a : Arguments) (first second : String) :
    Path.Beside (targetOf a first) (stagedPath (targetOf a second)) := by
  rw [stagedPath]
  rcases targetOf_cases a with ⟨folder, hfolder⟩ | ⟨file, -, hall⟩
  · rw [hfolder, hfolder, String.append_assoc]
    refine Path.beside_append (slash_not_mem_fileName _ _ _) ?_ (fileName_ne_append _ _ _ _)
    rw [String.toList_append, List.mem_append, not_or]
    exact ⟨slash_not_mem_fileName _ _ _, slash_not_mem_partial⟩
  · rw [hall, hall]
    refine ⟨(Path.front_append slash_not_mem_partial).symm, fun he => ?_⟩
    rw [Path.last_append slash_not_mem_partial] at he
    have hlength := congrArg List.length he
    simp at hlength

/-- The targets of schemas are different, and so are they from those before. -/
theorem targetsFrom_eq_ok {seen : List (String × String)} {out : List String}
    (h : targetsFrom a seen schemas = .ok out) :
    out = schemas.map (targetOf a) ∧ out.Nodup ∧ ∀ target ∈ out, seen.lookup target = none := by
  induction schemas generalizing seen out with
  | nil =>
    cases h
    exact ⟨rfl, List.nodup_nil, fun _ h => nomatch h⟩
  | cons schema rest ih =>
    rw [targetsFrom] at h
    split at h
    · cases h
    · rename_i hfree
      obtain ⟨others, hothers, h⟩ := ok_of_bind_eq_ok h
      cases h
      obtain ⟨rfl, hnodup, hunseen⟩ := ih hothers
      refine ⟨rfl, List.nodup_cons.2 ⟨fun hmem => ?_, hnodup⟩, fun target htarget => ?_⟩
      · have hnone := hunseen _ hmem
        rw [List.lookup_cons_self] at hnone
        cases hnone
      · rcases List.mem_cons.1 htarget with rfl | htarget
        · exact hfree
        · have hnone := hunseen target htarget
          rw [List.lookup_cons] at hnone
          split at hnone
          · cases hnone
          · exact hnone

/-- No two schemas of a run have one target. -/
theorem targets_eq_ok {out : List String} (h : targets a schemas = .ok out) :
    out = schemas.map (targetOf a) ∧ out.Nodup :=
  let ⟨hmap, hnodup, _⟩ := targetsFrom_eq_ok h
  ⟨hmap, hnodup⟩

section Options

/-- An option that is given once has the value that was given. -/
theorem once_eq_ok {α : Type} {flag : Flag} {before value result : Option α} {text : String}
    (h : Arguments.once flag before value text = .ok result) : result = value := by
  unfold Arguments.once at h
  split at h
  · cases h
  · cases h
  · cases h
    rfl

/-- Giving an option a value leaves the file to be written named, if there is one. -/
theorem out_giveOne {after : Arguments} {flag : Flag} {value : String} (h : a.out ≠ some "")
    (hgive : a.giveOne flag value = .ok after) : after.out ≠ some "" := by
  cases flag with
  | out =>
    obtain ⟨out, honce, hgive⟩ := ok_of_bind_eq_ok hgive
    cases hgive
    rw [once_eq_ok honce, Arguments.path?]
    split
    · exact fun h => nomatch h
    · rename_i hempty
      rintro ⟨rfl⟩
      exact hempty rfl
  | template | outPath | leadingComment | dictionaryThreshold | oldTemplate =>
    obtain ⟨value, -, hgive⟩ := ok_of_bind_eq_ok hgive
    cases hgive
    exact h
  | _ => cases hgive

/-- Turning a switch on leaves the file to be written as it is. -/
theorem out_giveSwitch {after : Arguments} {flag : Flag}
    (hgive : a.giveSwitch flag = .ok after) : after.out = a.out := by
  cases flag with
  | declaration | tsx | noEmit | oldNoEmit =>
    simp only [Arguments.giveSwitch] at hgive
    split at hgive
    · cases hgive
    · cases hgive
      rfl
  | _ => cases hgive

theorem out_give {after : Arguments} {flag : Flag} {values : List String} (h : a.out ≠ some "")
    (hgive : a.give flag values = .ok after) : after.out ≠ some "" := by
  unfold Arguments.give at hgive
  split at hgive
  · cases hgive
  · exact out_giveOne h hgive
  · cases hgive
  · cases hgive
  · cases hgive
    split <;> exact h

theorem out_settle {after : Arguments} {pending : Request.Pending} (h : a.out ≠ some "")
    (hsettle : Request.settle a pending = .ok after) : after.out ≠ some "" := by
  cases pending with
  | none =>
    cases hsettle
    exact h
  | some waiting => exact out_give h hsettle

theorem out_ofSwitch {after : Arguments} {flag : Flag} (h : a.out ≠ some "")
    (hswitch : Request.ofSwitch a flag = .ok (.generate after)) : after.out ≠ some "" := by
  unfold Request.ofSwitch at hswitch
  split at hswitch
  · cases hswitch
  · cases hswitch
  · obtain ⟨given, hgiven, hafter⟩ := ok_of_map_eq_ok hswitch
    cases hafter
    rwa [out_giveSwitch hgiven]

theorem out_ofLetters {after : Arguments} {letters : List Char} (h : a.out ≠ some "")
    (hletters : Request.ofLetters a letters = .ok (.generate after)) : after.out ≠ some "" := by
  induction letters generalizing a with
  | nil =>
    cases hletters
    exact h
  | cons c rest ih =>
    rw [Request.ofLetters] at hletters
    split at hletters
    · cases hletters
    · obtain ⟨request, hswitch, hletters⟩ := ok_of_bind_eq_ok hletters
      cases request with
      | generate given => exact ih (out_ofSwitch h hswitch) hletters
      | help => cases hletters
      | version => cases hletters

/-- The file to be written has a path that is not empty. -/
theorem out_readFrom {after : Arguments} {pending : Request.Pending} {arguments : List String}
    (h : a.out ≠ some "")
    (hread : Request.readFrom a pending arguments = .ok (.generate after)) :
    after.out ≠ some "" := by
  induction arguments generalizing a pending with
  | nil =>
    obtain ⟨settled, hsettled, hafter⟩ := ok_of_map_eq_ok hread
    cases hafter
    exact out_settle h hsettled
  | cons argument rest ih =>
    unfold Request.readFrom at hread
    split at hread
    · split at hread
      · obtain ⟨settled, hsettled, hafter⟩ := ok_of_map_eq_ok hread
        cases hafter
        exact out_settle h hsettled
      · cases hread
    · obtain ⟨settled, hsettled, hread⟩ := ok_of_bind_eq_ok hread
      have hout := out_settle h hsettled
      split at hread
      · cases hread
      · split at hread
        · cases hread
        · obtain ⟨request, hswitch, hread⟩ := ok_of_bind_eq_ok hread
          cases request with
          | generate given => exact ih (out_ofSwitch hout hswitch) hread
          | help => cases hread
          | version => cases hread
        · obtain ⟨given, hgiven, hread⟩ := ok_of_bind_eq_ok hread
          exact ih (out_give hout hgiven) hread
        · exact ih hout hread
    · obtain ⟨settled, hsettled, hread⟩ := ok_of_bind_eq_ok hread
      obtain ⟨request, hletters, hread⟩ := ok_of_bind_eq_ok hread
      cases request with
      | generate given => exact ih (out_ofLetters (out_settle h hsettled) hletters) hread
      | help => cases hread
      | version => cases hread
    · split at hread
      · split at hread
        · cases hread
        · exact ih h hread
      · cases hread

/-- The file to be written has a path that is not empty. -/
theorem out_ofArguments {arguments : List String}
    (h : Request.ofArguments arguments = .ok (.generate a)) : a.out ≠ some "" :=
  out_readFrom (by decide) h

end Options

end Command

end TypedClient
