import JobScheduler.Common.Columns
import JobScheduler.Worker.Shell

/-!
# Drafts from uploaded files (backend/api/routers/jobs.py)

`createJobDraftFromFile` turns an uploaded script into the draft of a shell job. Between the
draft and the run stands the column `task_spec`, a JSONB value, which holds no character NUL.
-/

namespace JobScheduler.Drafts
open Columns Schemas Paths Shell

/-! ### The draft -/

-- filename or default
def orElse (filename : Option String) (default : String) : String :=
  match filename with
  | some f => if f = "" then default else f
  | none => default

def jobNameFromFilename (filename : Option String) : String :=
  let stem := (Text.strip (stem (orElse filename "uploaded-task")).toList).take 255
  if stem = [] then "uploaded-task" else String.ofList stem

def command (filename : Option String) : String :=
  if Text.asciiLower (suffix (orElse filename "")) = ".py" then "python" else "sh"

def sourceFilename (filename : Option String) : String := name (orElse filename "uploaded-task")

def taskSpec (filename : Option String) (content : String) : List (String × Json) :=
  [("command", .string (command filename)),
    ("args", .array [.string (sourceFilename filename)]),
    ("source_filename", .string (sourceFilename filename)),
    ("file_content", .string content)]

def draftRecord (filename : Option String) (content : String) : JobRecord where
  name := some (jobNameFromFilename filename)
  description := some
    (match filename with
      | some f => if f = "" then "Draft imported from text file" else "Draft imported from " ++ f
      | none => "Draft imported from text file")
  category := none
  taskType := some "shell"
  taskSpec := some (taskSpec filename content)

structure JobDraftOut where
  base : JobBase
  sourceFilename : Option String
  fileContent : String

def draftFromText (isValid : String → Bool) (filename : Option String) (content : String) :
    Checked JobDraftOut := do
  let base ← (draftRecord filename content).validate isValid
  return ⟨base, filename, content⟩

inductive Refused where
  | httpException (statusCode : ℕ) (detail : String)
  | validationError (errors : List FieldError)

def maxDraftFileBytes : ℕ := 128 * 1024

def createJobDraftFromFile (isValid : String → Bool) (filename : Option String)
    (upload : ByteArray) : Except Refused JobDraftOut :=
  let data := upload.extract 0 (maxDraftFileBytes + 1)
  if maxDraftFileBytes < data.size then
    .error (.httpException 413 s!"uploaded file must be <= {maxDraftFileBytes} bytes")
  else
    match String.fromUTF8? data with
    | none => .error (.httpException 400 "uploaded file must be UTF-8 text")
    | some content => (draftFromText isValid filename content).mapError .validationError

theorem jobName_bounds (filename : Option String) :
    1 ≤ (jobNameFromFilename filename).length ∧ (jobNameFromFilename filename).length ≤ 255 := by
  unfold jobNameFromFilename
  dsimp only
  split
  · decide
  · rename_i h
    rw [String.length_ofList]
    have hpos := List.length_pos_iff.mpr h
    have hle := List.length_take_le 255
      (Text.strip (stem (orElse filename "uploaded-task")).toList)
    omega

theorem command_cases (filename : Option String) :
    command filename = "python" ∨ command filename = "sh" := by
  unfold command
  split
  · exact Or.inl rfl
  · exact Or.inr rfl

theorem command_elim {P : String → Prop} (filename : Option String) (hpython : P "python")
    (hsh : P "sh") : P (command filename) := by
  cases command_cases filename with
  | inl h => rwa [h]
  | inr h => rwa [h]

/-- JobBase accepts the fields of every draft. -/
theorem draftFromText_isOk (isValid : String → Bool) (filename : Option String)
    (content : String) : (draftFromText isValid filename content).isOk = true := by
  have hb := jobName_bounds filename
  have hname : validateName (some (jobNameFromFilename filename)) =
      .ok (jobNameFromFilename filename) := by
    simp only [validateName, Schemas.str, required, atLeast, atMost, bind, Except.bind]
    rw [if_neg (by omega)]
    simp only
    rw [if_neg (by omega)]
  have hget : specGet (taskSpec filename content) "command" =
      some (.string (command filename)) := rfl
  have hcommand : (specGet (taskSpec filename content) "command").any Json.truthy = true := by
    rw [hget, Option.any_some]
    exact command_elim (P := fun c => (Json.string c).truthy = true) filename (by decide)
      (by decide)
  have hfields : ∃ b, (draftRecord filename content).fields = .ok b ∧ b.taskType = .shell ∧
      b.scheduleType = .manual ∧ b.taskSpec = taskSpec filename content := by
    simp only [JobRecord.fields, draftRecord, hname]
    exact ⟨_, rfl, rfl, rfl, rfl⟩
  obtain ⟨b, hfields, htype, hschedule, hspec⟩ := hfields
  have hexpr : b.validateScheduleExpr isValid = .ok () := by
    simp only [JobBase.validateScheduleExpr, hschedule]
  have htask : b.validateTaskSpec = .ok () := by
    simp only [JobBase.validateTaskSpec, htype, hspec, hcommand, if_true]
  unfold draftFromText JobRecord.validate
  simp only [hfields, bind, Except.bind, hexpr, htask]
  rfl

theorem taskSpec_of_draftFromText {isValid : String → Bool} {filename : Option String}
    {content : String} {draft : JobDraftOut}
    (h : draftFromText isValid filename content = .ok draft) :
    draft.base.taskSpec = taskSpec filename content ∧ draft.fileContent = content := by
  unfold draftFromText at h
  cases hv : (draftRecord filename content).validate isValid with
  | error es =>
    rw [hv] at h
    cases h
  | ok base =>
    rw [hv] at h
    cases h
    have hspec := (JobRecord.validate_eq_ok hv).1.taskSpec
    exact ⟨(Option.some.inj hspec).symm, rfl⟩

/- A draft holds the text whose bytes were uploaded. -/
theorem content_of_createJobDraftFromFile {isValid : String → Bool} {filename : Option String}
    {upload : ByteArray} {draft : JobDraftOut}
    (h : createJobDraftFromFile isValid filename upload = .ok draft) :
    draft.fileContent.toUTF8 = upload ∧
      draft.base.taskSpec = taskSpec filename draft.fileContent := by
  unfold createJobDraftFromFile at h
  dsimp only at h
  split at h
  · cases h
  · rename_i hsize
    have hread : upload.extract 0 (maxDraftFileBytes + 1) = upload := by
      rw [ByteArray.size_extract] at hsize
      rw [show maxDraftFileBytes + 1 = max (maxDraftFileBytes + 1) upload.size by omega]
      exact ByteArray.extract_zero_max_size
    rw [hread] at h
    cases hdecode : String.fromUTF8? upload with
    | none =>
      rw [hdecode] at h
      cases h
    | some content =>
      rw [hdecode] at h
      have hbytes : content.toUTF8 = upload := by
        unfold String.fromUTF8? at hdecode
        split at hdecode
        · cases hdecode
          rfl
        · cases hdecode
      dsimp only at h
      cases hdraft : draftFromText isValid filename content with
      | error es =>
        rw [hdraft] at h
        cases h
      | ok out =>
        rw [hdraft] at h
        cases h
        obtain ⟨hspec, hcontent⟩ := taskSpec_of_draftFromText hdraft
        rw [hcontent]
        exact ⟨hbytes, hspec⟩

/-! ### The stored value -/

/- A JSONB column takes an object without NUL; none is the DataError. -/
def jsonb (spec : List (String × Json)) : Option (List (String × Json)) :=
  if hasNulFields spec then none else some spec

theorem nul_notMem_command (filename : Option String) :
    (command filename).toList.contains nul = false :=
  command_elim (P := fun c => c.toList.contains nul = false) filename (by decide) (by decide)

theorem jsonb_taskSpec (filename : Option String) (content : String) :
    jsonb (taskSpec filename content) =
      if nul ∈ (sourceFilename filename).toList ∨ nul ∈ content.toList then none
      else some (taskSpec filename content) := by
  have hkeys : ∀ key ∈ ["command", "args", "source_filename", "file_content"],
      key.toList.contains nul = false := by decide
  have hnul : hasNulFields (taskSpec filename content) = true ↔
      nul ∈ (sourceFilename filename).toList ∨ nul ∈ content.toList := by
    simp only [List.forall_mem_cons] at hkeys
    simp only [taskSpec, hasNulFields, hasNul, hasNulArray, nul_notMem_command, hkeys]
    simp
  unfold jsonb
  by_cases h : nul ∈ (sourceFilename filename).toList ∨ nul ∈ content.toList
  · rw [if_pos h, if_pos (hnul.mpr h)]
  · rw [if_neg h, if_neg (fun hn => h (hnul.mp hn))]

/-! ### The run -/

theorem name_command (filename : Option String) : name (command filename) = command filename :=
  command_elim (P := fun c => name c = c) filename (by decide) (by decide)

theorem name_sourceFilename (filename : Option String) :
    name (sourceFilename filename) = sourceFilename filename := name_name _

theorem buildArgv_taskSpec (str : Json → String) (filename : Option String) (content : String) :
    buildArgv str (taskSpec filename content) =
      .ok [command filename, sourceFilename filename] := by
  have hwords : shlexSplit (command filename) = .ok [command filename] := by
    apply command_elim (P := fun c => shlexSplit c = .ok [c])
    · exact shlexSplit_plain (by decide) (by simp [isPlain, isShellSpace, isQuote])
    · exact shlexSplit_plain (by decide) (by simp [isPlain, isShellSpace, isQuote])
  have hcommand : specGet (taskSpec filename content) "command" =
      some (.string (command filename)) := rfl
  have hargs : argsOf str (taskSpec filename content) = .ok [sourceFilename filename] := rfl
  unfold buildArgv
  rw [hcommand, hargs]
  simp only [Json.strOf, bind, Except.bind, hwords]
  rfl

/- The prepared run of a draft; a file that is called like the interpreter replaces it. -/
theorem prepare_taskSpec (str : Json → String) (tmp : TempDir) (filename : Option String)
    (content : String) :
    prepare str tmp (taskSpec filename content) =
      if sourceFilename filename = "" ∨ sourceFilename filename = "." ∨
          sourceFilename filename = ".." then
        .error (.valueError "source_filename is invalid")
      else
        match tmp.openError (sourceFilename filename) with
        | some e => .error e
        | none => .ok
            ⟨some (tmp.path, [(sourceFilename filename, content.toUTF8)]),
              [if command filename = sourceFilename filename
                then join tmp.path (sourceFilename filename) else command filename,
                join tmp.path (sourceFilename filename)]⟩ := by
  have hcontent : given (taskSpec filename content) "file_content" = some (.string content) := rfl
  have hsource : given (taskSpec filename content) "source_filename" =
      some (.string (sourceFilename filename)) := rfl
  unfold prepare
  rw [buildArgv_taskSpec]
  cases hopen : tmp.openError (sourceFilename filename) with
  | none =>
    simp only [bind, Except.bind, materializeUploadedScript, hcontent, hsource, Json.strOf,
      name_sourceFilename, name_command, hopen, List.map_cons, List.map_nil, List.any_cons,
      List.any_nil, if_true, decide_true, Bool.true_or, Bool.or_true]
  | some e =>
    simp only [bind, Except.bind, materializeUploadedScript, hcontent, hsource, Json.strOf,
      name_sourceFilename, hopen]

/- Only a shell script can be called like its interpreter. -/
theorem command_eq_sourceFilename (filename : Option String) :
    command filename = sourceFilename filename ↔ sourceFilename filename = "sh" := by
  have hsuffix : ∀ s, sourceFilename filename = s → suffixAt s.toList = none →
      sourceFilename filename ≠ "uploaded-task" → command filename = "sh" := by
    intro s hs hat hne
    have hfile : orElse filename "uploaded-task" = orElse filename "" := by
      unfold orElse
      cases filename with
      | none => exact absurd (by decide) hne
      | some f =>
        by_cases hf : f = ""
        · subst hf
          exact absurd (by decide) hne
        · simp [hf]
    rw [sourceFilename, hfile] at hs
    rw [command, suffix, hs, suffixOf, hat]
    show (if Text.asciiLower (String.ofList []) = ".py" then "python" else "sh") = "sh"
    decide
  constructor
  · intro h
    cases command_cases filename with
    | inr hc => rw [← h, hc]
    | inl hc =>
      have hsource : sourceFilename filename = "python" := by rw [← h, hc]
      have hsh := hsuffix "python" hsource (by decide) (by rw [hsource]; decide)
      rw [hc] at hsh
      exact absurd hsh (by decide)
  · intro h
    rw [h]
    exact hsuffix "sh" h (by decide) (by rw [h]; decide)

/- A name of a file in a directory. -/
def IsChild (name : String) : Prop :=
  '/' ∉ name.toList ∧ name ≠ "" ∧ name ≠ "." ∧ name ≠ ".."

/- The interpreter gets one argument: the file of that name in the fresh directory, which
holds the uploaded bytes. -/
structure RunsAsDrafted (str : Json → String) (tmp : TempDir) (filename : Option String)
    (upload : ByteArray) (draft : JobDraftOut) : Prop where
  child : IsChild (sourceFilename filename)
  run : ∃ spec, jsonb draft.base.taskSpec = some spec ∧
    specGet spec "command" = some (.string (command filename)) ∧
    prepare str tmp spec = .ok
      ⟨some (tmp.path, [(sourceFilename filename, upload)]),
        [command filename, join tmp.path (sourceFilename filename)]⟩

theorem join_ne (directory : String) (filename : Option String) :
    join directory (sourceFilename filename) ≠ command filename := by
  intro h
  have hslash : '/' ∈ (command filename).toList := by
    rw [← h, join, String.toList_append, String.toList_append]
    simp
  exact command_elim (P := fun c => '/' ∉ c.toList) filename (by decide) (by decide) hslash

section Runs
variable {isValid : String → Bool} {str : Json → String} {tmp : TempDir}
  {filename : Option String} {upload : ByteArray} {draft : JobDraftOut}

theorem RunsAsDrafted.conditions (hruns : RunsAsDrafted str tmp filename upload draft)
    (h : createJobDraftFromFile isValid filename upload = .ok draft) :
    nul ∉ (sourceFilename filename).toList ∧ nul ∉ draft.fileContent.toList ∧
      tmp.openError (sourceFilename filename) = none ∧
      command filename ≠ sourceFilename filename := by
  have hspec := (content_of_createJobDraftFromFile h).2
  obtain ⟨spec, hstored, -, hrun⟩ := hruns.run
  rw [hspec, jsonb_taskSpec] at hstored
  split at hstored
  · cases hstored
  · rename_i hnul
    rw [not_or] at hnul
    rw [← Option.some.inj hstored, prepare_taskSpec] at hrun
    split at hrun
    · cases hrun
    · split at hrun
      · cases hrun
      · rename_i hopen
        refine ⟨hnul.1, hnul.2, hopen, ?_⟩
        intro heq
        rw [if_pos heq] at hrun
        simp only [Except.ok.injEq, Prepared.mk.injEq, List.cons.injEq] at hrun
        exact join_ne tmp.path filename hrun.2.1

/-- A draft runs as drafted exactly when its base name is a name of a file that the file
system accepts, other than that of the interpreter sh, and name and content have no NUL. -/
theorem runsAsDrafted_iff (h : createJobDraftFromFile isValid filename upload = .ok draft) :
    RunsAsDrafted str tmp filename upload draft ↔
      sourceFilename filename ∉ ["", "..", "sh"] ∧
      tmp.openError (sourceFilename filename) = none ∧
      nul ∉ (sourceFilename filename).toList ∧ nul ∉ draft.fileContent.toList := by
  simp only [List.mem_cons, List.not_mem_nil, or_false, not_or]
  constructor
  · intro hruns
    obtain ⟨hname, hcontent, hopen, hne⟩ := hruns.conditions h
    obtain ⟨-, hempty, -, hdots⟩ := hruns.child
    rw [Ne, command_eq_sourceFilename] at hne
    exact ⟨⟨hempty, hdots, hne⟩, hopen, hname, hcontent⟩
  · intro hcond
    obtain ⟨⟨hempty, hdots, hsh⟩, hopen, hnul⟩ := hcond
    obtain ⟨hbytes, hspec⟩ := content_of_createJobDraftFromFile h
    have hchild : IsChild (sourceFilename filename) := by
      cases name_cases (orElse filename "uploaded-task") with
      | inl hnone => exact absurd hnone hempty
      | inr hname => exact ⟨hname.1, hname.2.1, hname.2.2, hdots⟩
    refine ⟨hchild, taskSpec filename draft.fileContent, ?_, rfl, ?_⟩
    · rw [hspec, jsonb_taskSpec, if_neg (not_or.mpr hnul)]
    · rw [prepare_taskSpec, if_neg (by rw [not_or, not_or]; exact hchild.2), hopen, hbytes,
        if_neg (fun heq => hsh ((command_eq_sourceFilename filename).mp heq))]

end Runs

/- Every UTF-8 file within the limit gets a draft. -/
theorem createJobDraftFromFile_text (isValid : String → Bool) (filename : Option String)
    {content : String} (hsize : content.toUTF8.size ≤ maxDraftFileBytes) :
    ∃ draft, createJobDraftFromFile isValid filename content.toUTF8 = .ok draft ∧
      draft.fileContent = content := by
  have hread : content.toUTF8.extract 0 (maxDraftFileBytes + 1) = content.toUTF8 := by
    rw [show maxDraftFileBytes + 1 = max (maxDraftFileBytes + 1) content.toUTF8.size by omega]
    exact ByteArray.extract_zero_max_size
  have hdecode : String.fromUTF8? content.toUTF8 = some content := by
    have hvalid : content.toUTF8.IsValidUTF8 := content.isValidUTF8
    unfold String.fromUTF8?
    rw [dif_pos hvalid]
    rfl
  have hok := draftFromText_isOk isValid filename content
  cases hdraft : draftFromText isValid filename content with
  | error es =>
    rw [hdraft] at hok
    cases hok
  | ok draft =>
    refine ⟨draft, ?_, (taskSpec_of_draftFromText hdraft).2⟩
    unfold createJobDraftFromFile
    rw [hread]
    dsimp only
    rw [if_neg (by omega), hdecode]
    simp only [hdraft]
    rfl

def emptyTempDir : TempDir where
  path := "/tmp/job-scheduler-script-1"
  openError := fun _ => none

theorem runsAsDrafted_nightly :
    ∃ draft, createJobDraftFromFile (fun _ => false) (some "nightly.sh") "ls\n".toUTF8 = .ok draft ∧
      RunsAsDrafted (fun _ => "") emptyTempDir (some "nightly.sh") "ls\n".toUTF8 draft := by
  obtain ⟨draft, hdraft, hcontent⟩ := createJobDraftFromFile_text (fun _ => false)
    (some "nightly.sh") (show "ls\n".toUTF8.size ≤ maxDraftFileBytes by decide)
  refine ⟨draft, hdraft, (runsAsDrafted_iff hdraft).mpr ?_⟩
  rw [hcontent]
  exact ⟨by decide, rfl, by decide, by decide⟩

/-- A script called sh takes the place of its interpreter. -/
theorem not_runsAsDrafted_sh :
    ∃ draft, createJobDraftFromFile (fun _ => false) (some "sh") "ls\n".toUTF8 = .ok draft ∧
      ¬ RunsAsDrafted (fun _ => "") emptyTempDir (some "sh") "ls\n".toUTF8 draft := by
  obtain ⟨draft, hdraft, -⟩ := createJobDraftFromFile_text (fun _ => false) (some "sh")
    (show "ls\n".toUTF8.size ≤ maxDraftFileBytes by decide)
  refine ⟨draft, hdraft, ?_⟩
  intro hruns
  exact (hruns.conditions hdraft).2.2.2 (by decide)

end JobScheduler.Drafts
