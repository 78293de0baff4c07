import TypedClient.Error
import TypedClient.Files.Fault
import TypedClient.Files.Search

/-!
# Failures of a run

What ends a run of the command line. A failure is worded from what was being done
to what went wrong in it, with colons between; the reason why a location could
not be read is part of the wording of that failure, and its cause as well.
-/

namespace TypedClient.Command

/-- What ends a run. -/
inductive RunFailure where
  /-- No schema was given. -/
  | noSchema
  /-- One file was named for some number of schemas. -/
  | manyForOneFile (count : Nat)
  /-- The template could not be read. -/
  | template (cause : Failure)
  /-- No module could be made of a schema. -/
  | generation (schema : String) (cause : Failure)
  /-- A pattern is not well formed. -/
  | invalidPattern (pattern : String) (cause : Files.PatternError)
  /-- A pattern stands for no files. -/
  | unmatchedPattern (pattern : String)
  /-- A folder could not be searched for the files of a pattern. -/
  | search (cause : Files.Unlisted)
  /-- Two schemas have one target. -/
  | sharedTarget (first second target : String)
  /-- A folder could not be made. -/
  | folder (path : String) (cause : Files.Fault)
  /-- A file could not be written. -/
  | file (path : String) (cause : Files.Fault)
  deriving DecidableEq, Repr

/-- The wording of a failure and of its cause. -/
def causeMessage (failure : Failure) : String :=
  match failure with
  | .unreadable _ reason => failure.message ++ ": " ++ reason
  | _ => failure.message

/-- The wording of what ends a run. -/
def RunFailure.message : RunFailure → String
  | .noSchema => Failure.noSchema.message
  | .manyForOneFile count =>
    "--out names a single file but " ++ toString count ++
      " schemas were given, use --outPath instead"
  | .template cause => "failed to load the template: " ++ causeMessage cause
  | .generation schema cause =>
    "failed to generate code for `" ++ schema ++ "`: " ++ causeMessage cause
  | .invalidPattern pattern cause => "invalid glob pattern: " ++ pattern ++ ": " ++ cause.message
  | .unmatchedPattern pattern => "glob pattern matched no files: " ++ pattern
  | .search cause => cause.message
  | .sharedTarget first second target =>
    "`" ++ first ++ "` and `" ++ second ++ "` would both be written to " ++ target
  | .folder path cause => "failed to create " ++ path ++ ": " ++ cause.message
  | .file path cause => "failed to write " ++ path ++ ": " ++ cause.message

end TypedClient.Command
