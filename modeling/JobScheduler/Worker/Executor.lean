import Mathlib.Algebra.Ring.Int.Defs
import JobScheduler.Common.Models

/-!
# Executor results and the retry policy (backend/worker/executors/base.py, retry.py)
-/

namespace JobScheduler

/- The terminal statuses an executor can report. -/
inductive ExecStatus where
  | succeeded
  | failed
  | timedOut
  deriving DecidableEq, Repr

def ExecStatus.runStatus : ExecStatus → RunStatus
  | .succeeded => .succeeded
  | .failed => .failed
  | .timedOut => .timedOut

theorem ExecStatus.runStatus_terminal (s : ExecStatus) : s.runStatus.terminal = true := by
  cases s <;> rfl

structure ExecResult where
  status : ExecStatus
  exitCode : Option ℤ := none
  result : Option Json := none
  error : Option String := none

namespace ExecResult

def succeeded (r : ExecResult) : Bool := decide (r.status = .succeeded)

end ExecResult

/- How the call of an executor ends: with a result, or with an exception. -/
inductive Outcome where
  | returned (res : ExecResult)
  | raised (exc : String)

/- The result process_run goes on with; it catches the exception. -/
def Outcome.result : Outcome → ExecResult
  | .returned res => res
  | .raised exc => { status := .failed, error := some ("executor crashed: " ++ exc) }

/- str(v), given what it is for a value that is no text. -/
def Json.strOf (str : Json → String) : Json → String
  | .string s => s
  | v => str v

def shouldRetry (attempt maxRetries : ℤ) : Bool := decide (attempt ≤ maxRetries)

def backoffSeconds (cfg : Settings) (attempt baseSec : ℤ) : ℤ :=
  if baseSec ≤ 0 then 0
  else min (baseSec * 2 ^ (attempt - 1).toNat) cfg.retryBackoffMaxSec

end JobScheduler
