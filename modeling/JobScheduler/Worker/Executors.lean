import JobScheduler.Library.Machine
import JobScheduler.Worker.HttpAsync
import JobScheduler.Worker.Shell
import JobScheduler.Worker.Store
import JobScheduler.Worker.Streams

/-!
# The executors (backend/worker/executors/)

`execute` of http.py, shell.py and http_async.py on any task_spec, each with the answers of
what it talks to, and the registry that process_run takes the executor from.
-/

namespace JobScheduler
open Library Schemas

/-! ### The contract of a result -/

/- A success has exit code 0, a dictionary and no error; any other result has a reason. -/
structure ExecResult.Tells (r : ExecResult) : Prop where
  succeeded : r.status = .succeeded →
    r.exitCode = some 0 ∧ (∃ fields, r.result = some (.object fields)) ∧ r.error = none
  reason : r.status ≠ .succeeded → ∃ error, r.error = some error ∧ error ≠ ""

theorem ExecResult.tells_of_reason {r : ExecResult} {error : String} (hs : r.status ≠ .succeeded)
    (he : r.error = some error) (hne : error ≠ "") : r.Tells where
  succeeded := fun h => absurd h hs
  reason := fun _ => ⟨error, he, hne⟩

theorem Outcome.tells_raised (exc : String) : (Outcome.raised exc).result.Tells :=
  ExecResult.tells_of_reason (fun h => by cases h) rfl (by simp)

/-! ### http.py -/

namespace Http

/- How the request ends. -/
inductive Answer where
  | timeout
  | httpError (exc : String)
  | response (statusCode : ℕ) (text : String)

section
variable (py : HttpAsync.Python)

/- expect is spec.get("expect"); `in` raises on a value that has no members. -/
def isSuccess (statusCode : ℕ) (expect : Option Json) : Except String Bool :=
  match expect.filter Json.truthy with
  | none => .ok (decide (200 ≤ statusCode ∧ statusCode < 300))
  | some (.array xs) => .ok (xs.any fun x => Json.same (.number statusCode 0) x)
  | some (.object _) => .ok false
  | some (.string _) => .error "'in <string>' requires string as left operand, not int"
  | some v => .error ("argument of type '" ++ py.typeName v ++ "' is not iterable")

-- resp.text[:2000]
def snippet (text : String) : String := String.ofList (text.toList.take 2000)

def responseFields (statusCode : ℕ) (text : String) : Json :=
  .object [("status_code", .number statusCode 0), ("body", .string (snippet text))]

def execute (spec : List (String × Json)) (timeoutSec : ℤ) (answer : Answer) : Outcome :=
  match specGet spec "url" with
  | none => .raised "'url'"
  | some url =>
    match answer with
    | .timeout =>
      .returned
        { status := .timedOut
          error := some ("request to " ++ url.strOf py.str ++ " timed out after " ++
            toString timeoutSec ++ "s") }
    | .httpError exc =>
      .returned { status := .failed, error := some ("request error: " ++ exc) }
    | .response statusCode text =>
      match isSuccess py statusCode (specGet spec "expect") with
      | .error exc => .raised exc
      | .ok true =>
        .returned
          { status := .succeeded
            exitCode := some 0
            result := some (responseFields statusCode text) }
      | .ok false =>
        .returned
          { status := .failed
            exitCode := some statusCode
            result := some (responseFields statusCode text)
            error := some ("unexpected status " ++ toString statusCode) }

/-- Whatever the server answers, the result keeps the contract. -/
theorem execute_tells (spec : List (String × Json)) (timeoutSec : ℤ) (answer : Answer) :
    (execute py spec timeoutSec answer).result.Tells := by
  unfold execute
  split
  · exact Outcome.tells_raised _
  · split
    · exact ExecResult.tells_of_reason (fun h => by cases h) rfl (by simp)
    · exact ExecResult.tells_of_reason (fun h => by cases h) rfl (by simp)
    · split
      · exact Outcome.tells_raised _
      · exact ⟨fun _ => ⟨rfl, ⟨_, rfl⟩, rfl⟩, fun h => absurd rfl h⟩
      · exact ExecResult.tells_of_reason (fun h => by cases h) rfl (by simp)

end
end Http

/-! ### shell.py -/

theorem Streams.resultOf_tells (proc : Streams.Process) (timeoutSec : ℤ) (e : Streams.Ending) :
    (Streams.resultOf proc timeoutSec e).Tells := by
  cases e with
  | exited =>
    unfold Streams.resultOf
    simp only
    split
    · exact ⟨fun _ => ⟨rfl, ⟨_, rfl⟩, rfl⟩, fun h => absurd rfl h⟩
    · exact ExecResult.tells_of_reason (fun h => by cases h) rfl (by simp)
  | timedOut returncode => exact ExecResult.tells_of_reason (fun h => by cases h) rfl (by simp)

namespace Shell

/- create_subprocess_exec raises an OSError, or the process runs and ends in one of two ways. -/
inductive Started where
  | osError (exc : String)
  | ran (proc : Streams.Process) (ending : Streams.Ending)

section
variable (py : HttpAsync.Python)

-- (spec.get("env") or {}).items()
def envError (spec : List (String × Json)) : Option String :=
  match (specGet spec "env").filter Json.truthy with
  | none | some (.object _) => none
  | some v => some ("'" ++ py.typeName v ++ "' object has no attribute 'items'")

def execute (spec : List (String × Json)) (timeoutSec : ℤ) (tmp : TempDir) (started : Started) :
    Outcome :=
  match prepare py.str tmp spec with
  | .error (.valueError msg) =>
    .returned { status := .failed, error := some ("failed to parse command: " ++ msg) }
  | .error (.other exc) => .raised exc
  | .ok _ =>
    match envError py spec with
    | some exc => .raised exc
    | none =>
      match started with
      | .osError exc =>
        .returned { status := .failed, error := some ("failed to start process: " ++ exc) }
      | .ran proc e => .returned (Streams.resultOf proc timeoutSec e)

theorem execute_tells (spec : List (String × Json)) (timeoutSec : ℤ) (tmp : TempDir)
    (started : Started) : (execute py spec timeoutSec tmp started).result.Tells := by
  unfold execute
  split
  · exact ExecResult.tells_of_reason (fun h => by cases h) rfl (by simp)
  · exact Outcome.tells_raised _
  · split
    · exact Outcome.tells_raised _
    · split
      · exact ExecResult.tells_of_reason (fun h => by cases h) rfl (by simp)
      · exact Streams.resultOf_tells _ timeoutSec _

end
end Shell

namespace Streams

/- What the main task returns, when it does, is the result of an ending. -/
def Main.Reports (proc : Process) (timeoutSec : ℤ) (m : Main) : Prop :=
  ∀ res, m = .returned res → ∃ e, res = resultOf proc timeoutSec e

variable {proc : Process} {timeoutSec : ℤ} {runId : RunId}

theorem State.reports_finish (s : State) (e : Ending) :
    (s.finish proc timeoutSec e).main.Reports proc timeoutSec := by
  intro res hres
  unfold State.finish at hres
  split at hres
  · cases hres
    exact ⟨e, rfl⟩
  · cases hres

theorem State.Trans.reports {s t : State} {l : Label} (h : Trans proc timeoutSec runId s l t)
    (hs : s.main.Reports proc timeoutSec) : t.main.Reports proc timeoutSec := by
  cases h with
  | exits hmain hdone => exact s.reports_finish .exited
  | gathered e hmain hdone => exact s.reports_finish e
  | exitsFirst hmain | timesOut _ hmain | raised e call hmain hcall =>
    intro res hres
    cases hres
  | flushed e call hmain hcall =>
    intro res hres
    cases hres
    exact ⟨e, rfl⟩
  | line | eof | tooLong | resumed | died | thread => exact hs

theorem run_reports {s t : State} {ls : List Label} (hs : s.main.Reports proc timeoutSec)
    (h : Machine.run (State.step proc timeoutSec runId) s ls = some t) :
    t.main.Reports proc timeoutSec :=
  Machine.run_invariant (fun _ _ _ hu _ hv => (State.trans_of_step hv).reports hu) hs
    (Machine.along_true s ls) h

/-- What execute returns after its process has run, whatever the interleaving was. -/
theorem returned_of_run {py : HttpAsync.Python} {spec : List (String × Json)} {tmp : Shell.TempDir}
    {prepared : Shell.Prepared} (hprepare : Shell.prepare py.str tmp spec = .ok prepared)
    (henv : Shell.envError py spec = none) {commandLine : String} {ls : List Label} {t : State}
    (h : Machine.run (State.step proc timeoutSec runId) (start proc commandLine) ls = some t)
    {res : ExecResult} (hres : t.main = .returned res) :
    ∃ e, Shell.execute py spec timeoutSec tmp (.ran proc e) = .returned res := by
  have hstart : (start proc commandLine).main.Reports proc timeoutSec := by
    intro res hmain
    cases hmain
  obtain ⟨e, rfl⟩ := run_reports hstart h res hres
  refine ⟨e, ?_⟩
  rw [Shell.execute, hprepare]
  dsimp only
  rw [henv]

end Streams

/-! ### http_async.py -/

namespace HttpAsync

/- task_spec as execute reads it: only success_values and failure_values must have a certain
type. -/
structure Fields where
  statusUrl : Json
  statusUrlField : Json
  statusField : Json
  successValues : List String
  failureValues : List String
  resultField : Json

/- fields.get(key): the keys of a decoded dictionary are texts. -/
def lookup (py : Python) (fields : List (String × Json)) : Json → Except String (Option Json)
  | .string key => .ok (specGet fields key)
  | .array xs => .error ("unhashable type: '" ++ py.typeName (.array xs) ++ "'")
  | .object fs => .error ("unhashable type: '" ++ py.typeName (.object fs) ++ "'")
  | _ => .ok none

section
variable (py : Python)

def lowered : Json → Except String String
  | .string s => .ok (py.lower s)
  | v => .error ("'" ++ py.typeName v ++ "' object has no attribute 'lower'")

-- {s.lower() for s in spec.get(key, default)}
def valuesOf (default : List String) : Option Json → Except String (List String)
  | none => .ok (default.map py.lower)
  | some (.array xs) => xs.mapM (lowered py)
  | some (.object fields) => .ok (fields.map fun p => py.lower p.1)
  | some (.string s) => .ok (s.toList.map fun c => py.lower (String.singleton c))
  | some v => .error ("'" ++ py.typeName v ++ "' object is not iterable")

/- floatError is what float(v) raises. -/
def readSpec (floatError : Json → Option String) (spec : List (String × Json)) :
    Except String Fields := do
  let successValues ←
    match specGet spec "url" with
    | none => .error "'url'"
    | some _ => valuesOf py ({} : TaskSpec).successValues (specGet spec "success_values")
  let failureValues ← valuesOf py ({} : TaskSpec).failureValues (specGet spec "failure_values")
  match (specGet spec "poll_interval_sec").bind floatError with
  | some exc => .error exc
  | none =>
    .ok
      { statusUrl := (specGet spec "status_url").getD .null
        statusUrlField := (specGet spec "status_url_field").getD (.string "status_url")
        statusField := (specGet spec "status_field").getD (.string "status")
        successValues := successValues
        failureValues := failureValues
        resultField := (specGet spec "result_field").getD .null }

variable (f : Fields)

def Fields.missing : Outcome :=
  .returned
    { status := .failed
      error := some ("no status_url provided and response had no '" ++
        f.statusUrlField.strOf py.str ++ "'") }

/- The status URL, or how the call ends without one. -/
def Fields.discover : Submitted → Except Outcome Json
  | .httpError exc =>
    .error (.returned { status := .failed, error := some ("submission failed: " ++ exc) })
  | .accepted body =>
    if f.statusUrl.truthy then .ok f.statusUrl
    else
      match body with
      | none => .error (f.missing py)
      | some (.object fields) =>
        match lookup py fields f.statusUrlField with
        | .error exc => .error (.raised exc)
        | .ok v =>
          match v.filter Json.truthy with
          | some url => .ok url
          | none => .error (f.missing py)
      | some v => .error (.raised (py.noGet v))

-- if result_field and result_field in payload
def Fields.conclude (payload : List (String × Json)) (state : String) : Outcome :=
  match f.resultField with
  | .string key => .returned (succeeded (some key) payload state)
  | v =>
    if v.truthy then
      match lookup py payload v with
      | .error exc => .raised exc
      | .ok _ => .returned (succeeded none payload state)
    else .returned (succeeded none payload state)

def Fields.poll (reply : Reply) : Option Outcome :=
  match payloadOf reply with
  | .object payload =>
    match lookup py payload f.statusField with
    | .error exc => some (.raised exc)
    | .ok v =>
      let state := py.lower ((v.getD (.string "")).strOf py.str)
      if state ∈ f.successValues then some (f.conclude py payload state)
      else if state ∈ f.failureValues then some (.returned (remoteFailed state))
      else none
  | v => some (.raised (py.noGet v))

variable (timeoutSec : ℕ) (clock : Clock) (replies : ℕ → Reply)

def Fields.pollLoop (statusUrl : String) : ℕ → ℕ → Option Outcome
  | 0, _ => none
  | fuel + 1, n =>
    if deadline timeoutSec clock ≤ clock.head n then
      some (.returned (timedOut (.string statusUrl) timeoutSec))
    else
      match f.poll py (replies n) with
      | some outcome => some outcome
      | none => pollLoop statusUrl fuel (n + 1)

def Fields.execute (submitted : Submitted) (fuel : ℕ) : Option Outcome :=
  match f.discover py submitted with
  | .error outcome => some outcome
  | .ok (.string statusUrl) => f.pollLoop py timeoutSec clock replies statusUrl fuel 0
  | .ok v =>
    if deadline timeoutSec clock ≤ clock.head 0 then some (.returned (timedOut v timeoutSec))
    else some (.raised (py.urlError v))

def executeSpec (floatError : Json → Option String) (spec : List (String × Json))
    (submitted : Submitted) (fuel : ℕ) : Option Outcome :=
  match readSpec py floatError spec with
  | .error exc => some (.raised exc)
  | .ok f => f.execute py timeoutSec clock replies submitted fuel

end

/-! ### Documented types -/

/- The same fields as JSON values; a missing one is None. -/
def TaskSpec.fields (py : Python) (t : TaskSpec) : Fields where
  statusUrl := t.statusUrl.elim .null .string
  statusUrlField := .string t.statusUrlField
  statusField := .string t.statusField
  successValues := HttpAsync.successValues py t
  failureValues := HttpAsync.failureValues py t
  resultField := t.resultField.elim .null .string

section
variable {py : Python} (t : TaskSpec)

theorem lookup_text (fields : List (String × Json)) (key : String) :
    lookup py fields (.string key) = .ok (specGet fields key) := rfl

theorem truthy_statusUrl :
    (t.fields py).statusUrl.truthy = (t.statusUrl.filter (· ≠ "")).isSome := by
  unfold TaskSpec.fields
  cases t.statusUrl with
  | none => rfl
  | some url =>
    by_cases hurl : url = "" <;> simp [Json.truthy, Option.filter, hurl]

theorem fields_discover (submitted : Submitted) :
    (t.fields py).discover py submitted = discover py t submitted := by
  cases submitted with
  | httpError exc => rfl
  | accepted body =>
    unfold Fields.discover discover
    dsimp only
    rw [truthy_statusUrl]
    cases hurl : t.statusUrl.filter (· ≠ "") with
    | some url =>
      obtain ⟨hsome, -⟩ := Option.filter_eq_some_iff.mp hurl
      simp [TaskSpec.fields, hsome]
    | none =>
      rw [if_neg (fun h => by cases h)]
      cases body with
      | none => rfl
      | some v =>
        cases v with
        | object fields =>
          dsimp only [TaskSpec.fields]
          rw [lookup_text]
          dsimp only
          cases (specGet fields t.statusUrlField).filter Json.truthy <;> rfl
        | _ => rfl

theorem fields_conclude (payload : List (String × Json)) (state : String) :
    (t.fields py).conclude py payload state =
      .returned (succeeded t.resultField payload state) := by
  unfold Fields.conclude TaskSpec.fields
  cases t.resultField <;> rfl

theorem fields_poll (reply : Reply) : (t.fields py).poll py reply = poll py t reply := by
  unfold Fields.poll poll
  cases payloadOf reply with
  | object payload =>
    have hfield : lookup py payload (t.fields py).statusField = .ok (specGet payload t.statusField) :=
      rfl
    dsimp only
    rw [hfield]
    dsimp only
    rw [fields_conclude]
    rfl
  | _ => rfl

theorem fields_pollLoop (timeoutSec : ℕ) (clock : Clock) (replies : ℕ → Reply) (statusUrl : String)
    (fuel n : ℕ) : (t.fields py).pollLoop py timeoutSec clock replies statusUrl fuel n =
      (pollLoop py t timeoutSec clock replies statusUrl fuel n).map Prod.fst := by
  induction fuel generalizing n with
  | zero => rfl
  | succ fuel ih =>
    rw [Fields.pollLoop, pollLoop]
    split
    · rfl
    · rw [fields_poll]
      cases poll py t (replies n) with
      | some outcome => rfl
      | none => exact ih (n + 1)

theorem fields_execute (timeoutSec : ℕ) (clock : Clock) (replies : ℕ → Reply)
    (submitted : Submitted) (fuel : ℕ) :
    (t.fields py).execute py timeoutSec clock replies submitted fuel =
      (execute py t timeoutSec clock replies submitted fuel).map Prod.fst := by
  unfold Fields.execute execute
  rw [fields_discover]
  cases discover py t submitted with
  | error outcome => rfl
  | ok v =>
    cases v with
    | string statusUrl => exact fields_pollLoop t timeoutSec clock replies statusUrl fuel 0
    | _ =>
      simp only
      split <;> rfl

/- The fields of the dictionary have the documented types, and t is what they say. -/
structure TaskSpec.Documents (py : Python) (t : TaskSpec) (spec : List (String × Json)) :
    Prop where
  url : (specGet spec "url").isSome = true
  statusUrl : (specGet spec "status_url").getD .null = (t.fields py).statusUrl
  statusUrlField : (specGet spec "status_url_field").getD (.string "status_url") =
    .string t.statusUrlField
  statusField : (specGet spec "status_field").getD (.string "status") = .string t.statusField
  successValues : (specGet spec "success_values").getD
    (.array (({} : TaskSpec).successValues.map .string)) = .array (t.successValues.map .string)
  failureValues : (specGet spec "failure_values").getD
    (.array (({} : TaskSpec).failureValues.map .string)) = .array (t.failureValues.map .string)
  resultField : (specGet spec "result_field").getD .null = (t.fields py).resultField

theorem mapM_lowered (values : List String) :
    (values.map Json.string).mapM (lowered py) = .ok (values.map py.lower) := by
  induction values with
  | nil => rfl
  | cons s values ih =>
    rw [List.map_cons, List.mapM_cons, ih]
    rfl

theorem valuesOf_documented {default values : List String} {v : Option Json}
    (h : v.getD (.array (default.map .string)) = .array (values.map .string)) :
    valuesOf py default v = .ok (values.map py.lower) := by
  cases v with
  | none =>
    have hmap : default.map Json.string = values.map Json.string := Json.array.inj h
    have hinj : Function.Injective Json.string := fun _ _ => Json.string.inj
    rw [List.map_injective_iff.mpr hinj hmap]
    rfl
  | some v =>
    rw [Option.getD_some] at h
    subst h
    exact mapM_lowered values

/-- On documented types this is the executor with the typed task_spec. -/
theorem executeSpec_documented {floatError : Json → Option String} {spec : List (String × Json)}
    (h : t.Documents py spec)
    (hfloat : (specGet spec "poll_interval_sec").bind floatError = none)
    (timeoutSec : ℕ) (clock : Clock) (replies : ℕ → Reply) (submitted : Submitted) (fuel : ℕ) :
    executeSpec py timeoutSec clock replies floatError spec submitted fuel =
      (execute py t timeoutSec clock replies submitted fuel).map Prod.fst := by
  obtain ⟨url, hurl⟩ := Option.isSome_iff_exists.mp h.url
  have hread : readSpec py floatError spec = .ok (t.fields py) := by
    unfold readSpec
    rw [hurl, valuesOf_documented h.successValues, valuesOf_documented h.failureValues, hfloat,
      h.statusUrl, h.statusUrlField, h.statusField, h.resultField]
    rfl
  rw [executeSpec, hread]
  exact fields_execute t timeoutSec clock replies submitted fuel

end

/-! ### What the executor returns -/

section
variable (py : Python) (f : Fields)

theorem succeeded_tells (resultField : Option String) (payload : List (String × Json))
    (state : String) : (Outcome.returned (succeeded resultField payload state)).result.Tells :=
  ⟨fun _ => ⟨rfl, ⟨_, rfl⟩, rfl⟩, fun h => absurd rfl h⟩

theorem Fields.conclude_tells (payload : List (String × Json)) (state : String) :
    (f.conclude py payload state).result.Tells := by
  unfold Fields.conclude
  split
  · exact succeeded_tells _ payload state
  · split
    · split
      · exact Outcome.tells_raised _
      · exact succeeded_tells none payload state
    · exact succeeded_tells none payload state

theorem Fields.poll_tells {reply : Reply} {o : Outcome} (h : f.poll py reply = some o) :
    o.result.Tells := by
  unfold Fields.poll at h
  split at h
  · split at h
    · cases h
      exact Outcome.tells_raised _
    · dsimp only at h
      split at h
      · cases h
        exact f.conclude_tells py _ _
      · split at h
        · cases h
          exact ExecResult.tells_of_reason (fun h => by cases h) rfl (by simp)
        · cases h
  · cases h
    exact Outcome.tells_raised _

theorem timedOut_tells (statusUrl : Json) (timeoutSec : ℕ) :
    (Outcome.returned (timedOut statusUrl timeoutSec)).result.Tells :=
  ExecResult.tells_of_reason (fun h => by cases h) rfl (by simp)

theorem Fields.discover_tells {submitted : Submitted} {o : Outcome}
    (h : f.discover py submitted = .error o) : o.result.Tells := by
  have hmissing : (f.missing py).result.Tells :=
    ExecResult.tells_of_reason (fun h => by cases h) rfl (by simp)
  unfold Fields.discover at h
  split at h
  · cases h
    exact ExecResult.tells_of_reason (fun h => by cases h) rfl (by simp)
  · split at h
    · cases h
    · split at h
      · cases h
        exact hmissing
      · split at h
        · cases h
          exact Outcome.tells_raised _
        · split at h
          · cases h
          · cases h
            exact hmissing
      · cases h
        exact Outcome.tells_raised _

variable (timeoutSec : ℕ) (clock : Clock) (replies : ℕ → Reply)

theorem Fields.pollLoop_succ (statusUrl : String) (fuel m : ℕ)
    (hbefore : ¬ deadline timeoutSec clock ≤ clock.head m) :
    f.pollLoop py timeoutSec clock replies statusUrl (fuel + 1) m =
      (f.poll py (replies m)).or
        (f.pollLoop py timeoutSec clock replies statusUrl fuel (m + 1)) := by
  rw [Fields.pollLoop, if_neg hbefore]
  cases f.poll py (replies m) <;> rfl

theorem Fields.pollLoop_tells {statusUrl : String} {fuel m : ℕ} {o : Outcome}
    (h : f.pollLoop py timeoutSec clock replies statusUrl fuel m = some o) : o.result.Tells := by
  induction fuel generalizing m with
  | zero => cases h
  | succ fuel ih =>
    by_cases hnow : deadline timeoutSec clock ≤ clock.head m
    · rw [Fields.pollLoop, if_pos hnow] at h
      cases h
      exact timedOut_tells (.string statusUrl) timeoutSec
    · rw [f.pollLoop_succ py timeoutSec clock replies statusUrl fuel m hnow] at h
      rcases Option.or_eq_some_iff.mp h with hpoll | ⟨-, hrest⟩
      · exact f.poll_tells py hpoll
      · exact ih hrest

theorem Fields.execute_tells {submitted : Submitted} {fuel : ℕ} {o : Outcome}
    (h : f.execute py timeoutSec clock replies submitted fuel = some o) : o.result.Tells := by
  unfold Fields.execute at h
  split at h
  · rename_i hurl
    cases h
    exact f.discover_tells py hurl
  · exact f.pollLoop_tells py timeoutSec clock replies h
  · split at h
    · cases h
      exact timedOut_tells _ timeoutSec
    · cases h
      exact Outcome.tells_raised _

theorem executeSpec_tells {floatError : Json → Option String} {spec : List (String × Json)}
    {submitted : Submitted} {fuel : ℕ} {o : Outcome}
    (h : executeSpec py timeoutSec clock replies floatError spec submitted fuel = some o) :
    o.result.Tells := by
  unfold executeSpec at h
  split at h
  · cases h
    exact Outcome.tells_raised _
  · exact Fields.execute_tells py _ timeoutSec clock replies h

end
end HttpAsync

/-! ### The registry -/

namespace Executors

/- What an execution gets from outside. -/
structure World where
  answer : Http.Answer
  tempDir : Shell.TempDir
  started : Shell.Started
  submitted : HttpAsync.Submitted
  clock : HttpAsync.Clock
  replies : ℕ → HttpAsync.Reply

section
variable (py : HttpAsync.Python) (floatError : Json → Option String)

/- get_executor(task_type), called with the record of the claim. timeout_sec is at least 1. -/
def run (w : World) (c : Store.Claimed) (fuel : ℕ) : Option Outcome :=
  match c.taskType with
  | .http => some (Http.execute py c.taskSpec c.timeoutSec w.answer)
  | .shell => some (Shell.execute py c.taskSpec c.timeoutSec w.tempDir w.started)
  | .httpAsync =>
    HttpAsync.executeSpec py c.timeoutSec.toNat w.clock w.replies floatError c.taskSpec w.submitted
      fuel

/- The ways in which the call of the executor ends. Any of its awaits may raise something else:
a flush of the log, a request that is no HTTP error, a process that cannot be waited for. -/
inductive Ends (c : Store.Claimed) : Outcome → Prop where
  | returns (w : World) (fuel : ℕ) (o : Outcome) : run py floatError w c fuel = some o → Ends c o
  | interrupted (exc : String) : Ends c (.raised exc)

variable {py floatError}

theorem run_tells {w : World} {c : Store.Claimed} {fuel : ℕ} {o : Outcome}
    (h : run py floatError w c fuel = some o) : o.result.Tells := by
  unfold run at h
  split at h
  · cases h
    exact Http.execute_tells py _ _ _
  · cases h
    exact Shell.execute_tells py _ _ _ _
  · exact HttpAsync.executeSpec_tells py _ _ _ h

theorem Ends.tells {c : Store.Claimed} {o : Outcome} (h : Ends py floatError c o) :
    o.result.Tells := by
  cases h with
  | returns w fuel _ hrun => exact run_tells hrun
  | interrupted exc => exact Outcome.tells_raised exc

end

end Executors
end JobScheduler
