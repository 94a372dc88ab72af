import JobScheduler.Common.Paths
import JobScheduler.Common.Schemas
import JobScheduler.Worker.Executor

/-!
# The command of a shell task (backend/worker/executors/shell.py)

`_build_argv` and `_materialize_uploaded_script`: what `execute` does before it starts the
process.
-/

namespace JobScheduler.Shell
open Schemas

/- What the preparation raises; execute catches ValueError only. -/
inductive Failure where
  | valueError (msg : String)
  | other (exc : String)

/- The directory tempfile makes, and what opening a new file of a given name in it raises. -/
structure TempDir where
  path : String
  openError : String → Option Failure

/- The temporary directory with its files, and the argument vector. -/
structure Prepared where
  tempDir : Option (String × List (String × ByteArray))
  argv : List String

section Prepare
variable (str : Json → String)

-- spec.get("args") or []
def argsOf (spec : List (String × Json)) : Except Failure (List String) :=
  match (specGet spec "args").filter Json.truthy with
  | none => .ok []
  | some (.array xs) => .ok (xs.map (Json.strOf str))
  | some (.object fields) => .ok (fields.map Prod.fst)
  | some (.string s) => .ok (s.toList.map String.singleton)
  | some _ => .error (.other "object is not iterable")

def buildArgv (spec : List (String × Json)) : Except Failure (List String) := do
  let command ←
    match specGet spec "command" with
    | some v => .ok (v.strOf str)
    | none => .error (.other "'command'")
  let args ← argsOf str spec
  let words ← (Paths.shlexSplit command).mapError .valueError
  let argv := words ++ args
  if argv.isEmpty then .error (.valueError "command is empty") else .ok argv

/- spec.get(key) where it is not None -/
def given (spec : List (String × Json)) (key : String) : Option Json :=
  match specGet spec key with
  | some .null => none
  | v => v

def materializeUploadedScript (tmp : TempDir) (spec : List (String × Json))
    (argv : List String) : Except Failure Prepared :=
  match given spec "file_content", given spec "source_filename" with
  | some content, some source =>
    let filename := Paths.name (source.strOf str)
    if filename = "" ∨ filename = "." ∨ filename = ".." then
      .error (.valueError "source_filename is invalid")
    else
      match tmp.openError filename with
      | some e => .error e
      | none =>
        let scriptPath := Paths.join tmp.path filename
        let rewritten := argv.map fun arg =>
          if Paths.name arg = filename then scriptPath else arg
        let replaced := argv.any fun arg => decide (Paths.name arg = filename)
        .ok ⟨some (tmp.path, [(filename, (content.strOf str).toUTF8)]),
          if replaced then rewritten else rewritten ++ [scriptPath]⟩
  | _, _ => .ok ⟨none, argv⟩

def prepare (tmp : TempDir) (spec : List (String × Json)) : Except Failure Prepared := do
  let argv ← buildArgv str spec
  materializeUploadedScript str tmp spec argv

end Prepare

end JobScheduler.Shell
