import JobScheduler.Common.Schemas
import JobScheduler.Worker.Executor

/-!
# The http_async executor (backend/worker/executors/http_async.py)

`execute` submits a request, finds the URL to poll and polls it until a reply settles the
run or the deadline has passed. The replies of the remote side and the readings of
`time.monotonic` are sequences; `fuel` bounds the turns of the loop, and no result within
the fuel means that polling goes on. Log lines are left out, as is what only the remote side
sees of a request.
-/

namespace JobScheduler.HttpAsync
open Schemas

/- What the executor uses of Python: `str.lower`, `str` of a value that is no text, the
name of a type, and the exception of httpx for a URL that is no text. -/
structure Python where
  lower : String → String
  str : Json → String
  typeName : Json → String
  urlError : Json → String

def Python.noGet (py : Python) (v : Json) : String :=
  "'" ++ py.typeName v ++ "' object has no attribute 'get'"

/- task_spec with its documented types; a field left out has the default of `spec.get`. -/
structure TaskSpec where
  statusUrl : Option String := none
  statusUrlField : String := "status_url"
  statusField : String := "status"
  successValues : List String := ["succeeded", "success", "completed", "done"]
  failureValues : List String := ["failed", "error", "canceled", "cancelled"]
  resultField : Option String := none

/- The response to the submission: an httpx.HTTPError, or a body (none: not JSON). -/
inductive Submitted where
  | httpError (exc : String)
  | accepted (body : Option Json)

inductive Reply where
  | transportError
  | httpStatus (code : ℕ)
  | notJson
  | json (v : Json)

/- The readings of the clock: before the submission and at the head of each turn. The one
after a poll only decides how long the loop sleeps. -/
structure Clock where
  start : Time
  head : ℕ → Time

def timedOut (statusUrl : Json) (timeoutSec : ℕ) : ExecResult where
  status := .timedOut
  result := some (.object [("status_url", statusUrl)])
  error := some ("polling exceeded timeout of " ++ toString timeoutSec ++ "s")

def remoteFailed (state : String) : ExecResult where
  status := .failed
  result := some (.object [("status", .string state)])
  error := some ("remote task reported '" ++ state ++ "'")

-- result[key] = v on the dictionary {"status": state}
def withResult (state key : String) (v : Json) : List (String × Json) :=
  if key = "status" then [("status", v)] else [("status", .string state), (key, v)]

def succeeded (resultField : Option String) (payload : List (String × Json)) (state : String) :
    ExecResult where
  status := .succeeded
  exitCode := some 0
  result := some (.object
    (match resultField with
      | none => [("status", .string state)]
      | some key =>
        match specGet payload key with
        | none => [("status", .string state)]
        | some v => if key = "" then [("status", .string state)] else withResult state key v))

section Execute
variable (py : Python) (spec : TaskSpec)

def successValues : List String := spec.successValues.map py.lower
def failureValues : List String := spec.failureValues.map py.lower

/- The status URL, or how the call ends without one. -/
def discover : Submitted → Except Outcome Json
  | .httpError exc =>
    .error (.returned { status := .failed, error := some ("submission failed: " ++ exc) })
  | .accepted body =>
    let missing : Outcome := .returned
      { status := .failed
        error := some ("no status_url provided and response had no '" ++ spec.statusUrlField ++ "'") }
    match spec.statusUrl.filter (· ≠ "") with
    | some url => .ok (.string url)
    | none =>
      match body with
      | none => .error missing
      | some (.object fields) =>
        match (specGet fields spec.statusUrlField).filter Json.truthy with
        | some url => .ok url
        | none => .error missing
      | some v => .error (.raised (py.noGet v))

-- payload = poll.json(), or {} after an error
def payloadOf : Reply → Json
  | .json v => v
  | _ => .object []

def stateOf (payload : List (String × Json)) : String :=
  py.lower (((specGet payload spec.statusField).getD (.string "")).strOf py.str)

/- One poll; none goes on with the loop. -/
def poll (reply : Reply) : Option Outcome :=
  match payloadOf reply with
  | .object payload =>
    let state := stateOf py spec payload
    if state ∈ successValues py spec then
      some (.returned (succeeded spec.resultField payload state))
    else if state ∈ failureValues py spec then some (.returned (remoteFailed state))
    else none
  | v => some (.raised (py.noGet v))

variable (timeoutSec : ℕ) (clock : Clock) (replies : ℕ → Reply)

def deadline : Time := clock.start + timeoutSec * 1000000

/- The loop from turn n on, with the number of polls made when it ends. -/
def pollLoop (statusUrl : String) : ℕ → ℕ → Option (Outcome × ℕ)
  | 0, _ => none
  | fuel + 1, n =>
    if deadline timeoutSec clock ≤ clock.head n then
      some (.returned (timedOut (.string statusUrl) timeoutSec), n)
    else
      match poll py spec (replies n) with
      | some outcome => some (outcome, n + 1)
      | none => pollLoop statusUrl fuel (n + 1)

def execute (submitted : Submitted) (fuel : ℕ) : Option (Outcome × ℕ) :=
  match discover py spec submitted with
  | .error outcome => some (outcome, 0)
  | .ok (.string statusUrl) => pollLoop py spec timeoutSec clock replies statusUrl fuel 0
  | .ok v =>
    -- the first client.get raises
    if deadline timeoutSec clock ≤ clock.head 0 then
      some (.returned (timedOut v timeoutSec), 0)
    else some (.raised (py.urlError v), 0)

/-! ### The verdict -/

/- The result a reply stands for when it is conclusive. -/
def verdictOf : Reply → Option ExecResult
  | .json (.object payload) =>
    match specGet payload spec.statusField with
    | none => none
    | some v =>
      let state := py.lower (v.strOf py.str)
      if state ∈ successValues py spec then some (succeeded spec.resultField payload state)
      else if state ∈ failureValues py spec then some (remoteFailed state)
      else none
  | _ => none

/- Turn k polls before the deadline, and its reply is not conclusive. -/
def Skipped (k : ℕ) : Prop :=
  clock.head k < deadline timeoutSec clock ∧ verdictOf py spec (replies k) = none

/- The first conclusive reply polled before the deadline decides. -/
structure FirstConclusive (submitted : Submitted) (statusUrl : String) : Prop where
  verdict : ∀ n res, (∀ k < n, Skipped py spec timeoutSec clock replies k) →
    clock.head n < deadline timeoutSec clock → verdictOf py spec (replies n) = some res →
    ∀ fuel > n, execute py spec timeoutSec clock replies submitted fuel =
      some (.returned res, n + 1)
  timeout : ∀ n, (∀ k < n, Skipped py spec timeoutSec clock replies k) →
    deadline timeoutSec clock ≤ clock.head n →
    ∀ fuel > n, execute py spec timeoutSec clock replies submitted fuel =
      some (.returned (timedOut (.string statusUrl) timeoutSec), n)
  goesOn : ∀ n, (∀ k < n, Skipped py spec timeoutSec clock replies k) →
    execute py spec timeoutSec clock replies submitted n = none

/- The state that stands for a missing status is none of the values. -/
def EmptyUndecided : Prop :=
  py.lower "" ∉ successValues py spec ∧ py.lower "" ∉ failureValues py spec

def Ordinary : Reply → Prop
  | .json (.object payload) =>
    specGet payload spec.statusField = none → EmptyUndecided py spec
  | .json _ => False
  | _ => EmptyUndecided py spec

end Execute

section Poll
variable {py : Python} {spec : TaskSpec}

theorem poll_empty {payload : List (String × Json)} {reply : Reply}
    (hreply : payloadOf reply = .object payload)
    (hfield : specGet payload spec.statusField = none) :
    poll py spec reply = none ↔ EmptyUndecided py spec := by
  have hstate : stateOf py spec payload = py.lower "" := by
    rw [stateOf, hfield]
    rfl
  unfold poll EmptyUndecided
  rw [hreply]
  simp only [hstate]
  by_cases hs : py.lower "" ∈ successValues py spec
  · simp [hs]
  · by_cases hf : py.lower "" ∈ failureValues py spec
    · simp [hs, hf]
    · simp [hs, hf]

/-- On ordinary replies a poll is conclusive exactly when the reply is. -/
theorem poll_of_ordinary {reply : Reply} (h : Ordinary py spec reply) :
    poll py spec reply = (verdictOf py spec reply).map .returned := by
  cases reply with
  | json v =>
    cases v with
    | object payload =>
      cases hfield : specGet payload spec.statusField with
      | none =>
        rw [(poll_empty rfl hfield).mpr (h hfield), verdictOf, hfield]
        rfl
      | some v =>
        have hstate : stateOf py spec payload = py.lower (v.strOf py.str) := by
          rw [stateOf, hfield]
          rfl
        simp only [poll, payloadOf, verdictOf, hfield, hstate]
        split
        · rfl
        · split
          · rfl
          · rfl
    | _ => exact absurd h id
  | _ => exact (poll_empty rfl rfl).mpr h

/-- Any other reply ends the loop without being conclusive. -/
theorem poll_of_not_ordinary {reply : Reply} (h : ¬ Ordinary py spec reply) :
    verdictOf py spec reply = none ∧ poll py spec reply ≠ none := by
  cases reply with
  | json v =>
    cases v with
    | object payload =>
      rw [Ordinary, Classical.not_imp] at h
      rw [verdictOf, h.1, Ne, poll_empty rfl h.1]
      exact ⟨rfl, h.2⟩
    | _ => simp [verdictOf, poll, payloadOf]
  | _ =>
    rw [Ne, poll_empty rfl rfl]
    exact ⟨rfl, h⟩

end Poll

section Loop
variable {py : Python} {spec : TaskSpec} {timeoutSec : ℕ} {clock : Clock} {replies : ℕ → Reply}
  {statusUrl : String}

/- Turn k goes on to turn k + 1. -/
def Continues (py : Python) (spec : TaskSpec) (timeoutSec : ℕ) (clock : Clock)
    (replies : ℕ → Reply) (k : ℕ) : Prop :=
  clock.head k < deadline timeoutSec clock ∧ poll py spec (replies k) = none

theorem pollLoop_continues {fuel n : ℕ} (h : Continues py spec timeoutSec clock replies n) :
    pollLoop py spec timeoutSec clock replies statusUrl (fuel + 1) n =
      pollLoop py spec timeoutSec clock replies statusUrl fuel (n + 1) := by
  rw [pollLoop, if_neg (Int.not_le.mpr h.1), h.2]

theorem pollLoop_add {n : ℕ} (h : ∀ k < n, Continues py spec timeoutSec clock replies k)
    (fuel : ℕ) :
    pollLoop py spec timeoutSec clock replies statusUrl (n + fuel) 0 =
      pollLoop py spec timeoutSec clock replies statusUrl fuel n := by
  induction n generalizing fuel with
  | zero => rw [Nat.zero_add]
  | succ n ih =>
    have hbelow : ∀ k < n, Continues py spec timeoutSec clock replies k :=
      fun k hk => h k (by omega)
    rw [Nat.add_right_comm, Nat.add_assoc, ih hbelow (fuel + 1)]
    exact pollLoop_continues (h n (by omega))

theorem continues_of_pollLoop_none {fuel n : ℕ}
    (h : pollLoop py spec timeoutSec clock replies statusUrl fuel n = none) :
    ∀ k < fuel, Continues py spec timeoutSec clock replies (n + k) := by
  induction fuel generalizing n with
  | zero =>
    intro k hk
    omega
  | succ fuel ih =>
    rw [pollLoop] at h
    split at h
    · cases h
    · rename_i hbefore
      cases hpoll : poll py spec (replies n) with
      | some outcome =>
        rw [hpoll] at h
        cases h
      | none =>
        rw [hpoll] at h
        intro k hk
        cases k with
        | zero => exact ⟨Int.not_le.mp hbefore, hpoll⟩
        | succ k =>
          have hlater := ih h k (by omega)
          rw [Nat.add_right_comm] at hlater
          exact hlater

end Loop

/-- The executor follows the first conclusive reply exactly when every reply polled up to
it is a JSON object with the status field, or, where the empty text is none of the values,
an error or an object without the field. -/
theorem firstConclusive_iff {py : Python} {spec : TaskSpec} {timeoutSec : ℕ} {clock : Clock}
    {replies : ℕ → Reply} {submitted : Submitted} {statusUrl : String}
    (hurl : discover py spec submitted = .ok (.string statusUrl)) :
    FirstConclusive py spec timeoutSec clock replies submitted statusUrl ↔
      ∀ n, (∀ k < n, Skipped py spec timeoutSec clock replies k) →
        clock.head n < deadline timeoutSec clock → Ordinary py spec (replies n) := by
  have hrun : ∀ fuel, execute py spec timeoutSec clock replies submitted fuel =
      pollLoop py spec timeoutSec clock replies statusUrl fuel 0 := by
    intro fuel
    rw [execute, hurl]
  constructor
  · intro law n hskipped hbefore
    by_contra hreply
    have hn := poll_of_not_ordinary hreply
    have hnone : pollLoop py spec timeoutSec clock replies statusUrl (n + 1) 0 = none := by
      rw [← hrun]
      apply law.goesOn
      intro k hk
      by_cases heq : k = n
      · exact heq ▸ ⟨hbefore, hn.1⟩
      · exact hskipped k (by omega)
    have hcontinues := continues_of_pollLoop_none hnone n (by omega)
    rw [Nat.zero_add] at hcontinues
    exact hn.2 hcontinues.2
  · intro hordinary
    have hcontinues : ∀ n, (∀ k < n, Skipped py spec timeoutSec clock replies k) →
        ∀ k < n, Continues py spec timeoutSec clock replies k := by
      intro n hskipped k hk
      have hk' := hordinary k (fun j hj => hskipped j (by omega)) (hskipped k hk).1
      refine ⟨(hskipped k hk).1, ?_⟩
      rw [poll_of_ordinary hk', (hskipped k hk).2]
      rfl
    -- after n skipped replies the loop stands at turn n
    have hturn : ∀ n, (∀ k < n, Skipped py spec timeoutSec clock replies k) → ∀ fuel > n,
        execute py spec timeoutSec clock replies submitted fuel =
          pollLoop py spec timeoutSec clock replies statusUrl ((fuel - n - 1) + 1) n := by
      intro n hskipped fuel hfuel
      rw [hrun, ← pollLoop_add (hcontinues n hskipped)]
      congr 1
      omega
    constructor
    · intro n res hskipped hbefore hres fuel hfuel
      rw [hturn n hskipped fuel hfuel, pollLoop, if_neg (Int.not_le.mpr hbefore),
        poll_of_ordinary (hordinary n hskipped hbefore), hres]
      rfl
    · intro n hskipped hafter fuel hfuel
      rw [hturn n hskipped fuel hfuel, pollLoop, if_pos hafter]
    · intro n hskipped
      rw [hrun]
      exact pollLoop_add (hcontinues n hskipped) 0

def plainPython : Python where
  lower := Text.asciiLower
  str := fun _ => "None"
  typeName := fun _ => "list"
  urlError := fun _ => "Invalid type for url"

def remoteSpec : TaskSpec where
  statusUrl := some "http://remote/status"

theorem firstConclusive_done :
    FirstConclusive plainPython remoteSpec 60 ⟨0, fun n => n⟩
      (fun _ => .json (.object [("status", .string "Done")])) (.accepted none)
      "http://remote/status" := by
  apply (firstConclusive_iff rfl).mpr
  intro n _ _ hmissing
  cases hmissing

/-- A poll answered with a JSON array ends the run, whatever the next reply is. -/
theorem not_firstConclusive :
    ¬ FirstConclusive plainPython remoteSpec 60 ⟨0, fun n => n⟩
        (fun n => if n = 0 then .json (.array [])
          else .json (.object [("status", .string "done")]))
        (.accepted none) "http://remote/status" := by
  intro law
  have hnone := law.goesOn 1 (by
    intro k hk
    have hzero : k = 0 := by omega
    subst hzero
    exact ⟨by decide, rfl⟩)
  cases hnone

end JobScheduler.HttpAsync
