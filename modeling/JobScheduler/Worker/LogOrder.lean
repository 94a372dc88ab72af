import JobScheduler.Library.Machine
import JobScheduler.Worker.Streams

/-!
# The order of the logs (`get_run_logs` of backend/api/routers/runs.py)

The lines of a stream are returned in the order of their timestamps and ids, and these are
given out by the threads of the flushes. A pump waits for the flush that its own line has
started. It does not wait for the flush that the other pump has started, which has taken
lines of its stream along.
-/

namespace JobScheduler.Streams
open Library

namespace State

variable {proc : Process} {timeoutSec : ℤ} {runId : RunId} {s t : State} {l : Label}

/- rows: the committed rows of a stream are returned in the order in which they were written.
lines: the lines of a pipe come in every page in the order in which the process wrote them. -/
structure InProcessOrder (proc : Process) (s : State) : Prop where
  rows : ∀ stream, (LogBuffer.ordered s.log.table).filter (fun r => decide (r.stream = stream)) =
    s.log.persisted.filter fun r => decide (r.stream = stream)
  lines : ∀ p limit offset,
    (((Routes.page limit offset (LogBuffer.ordered s.log.table)).filter
      fun r => decide (r.stream = p.name)).map Routes.JobRunLog.line).Sublist
        (linesOf (proc.output p))

/- No line overtakes one of its stream in the threads of the flushes. -/
def InTurn (s : State) : Label → Prop
  | .thread l => s.log.inTurn l = true
  | _ => True

instance (s : State) : ∀ l, Decidable (InTurn s l)
  | .thread l => inferInstanceAs (Decidable (s.log.inTurn l = true))
  | .pump _ | .resume _ | .exits | .timesOut _ | .gathered | .flushed => isTrue trivial

structure Sorted (proc : Process) (s : State) : Prop where
  pumped : Pumped proc s
  stored : s.log.Stored
  inOrder : s.log.InOrder

theorem Sorted.trans (hs : Sorted proc s) (hturn : InTurn s l)
    (h : Trans proc timeoutSec runId s l t) : Sorted proc t := by
  refine ⟨hs.pumped.trans h, stored_trans hs.stored h, ?_⟩
  cases h with
  | line p raw rest line hstate hline => exact hs.inOrder.write _
  | exits _ _ | gathered _ _ _ => exact hs.inOrder.flush
  | thread l log hlog => exact hs.inOrder.thread hturn hlog
  | _ => exact hs.inOrder

theorem Sorted.inProcessOrder (hs : Sorted proc s) : InProcessOrder proc s where
  rows := hs.inOrder.filter_ordered hs.stored.table
  lines := by
    intro p limit offset
    have hpage : (Routes.page limit offset (LogBuffer.ordered s.log.table)).Sublist
        (LogBuffer.ordered s.log.table) :=
      (List.take_sublist _ _).trans (List.drop_sublist _ _)
    have hrows := (hpage.filter fun r => decide (r.stream = p.name)).map Routes.JobRunLog.line
    rw [hs.inOrder.filter_ordered hs.stored.table] at hrows
    apply hrows.trans ((logged_persisted s.log p).trans _)
    rw [← hs.pumped p]
    exact List.sublist_append_left _ _

theorem sorted_start (proc : Process) (commandLine : String) :
    Sorted proc (start proc commandLine) where
  pumped := pumped_start proc commandLine
  stored := stored_start proc commandLine
  inOrder := LogBuffer.inOrder_empty.write ("system", "$ " ++ commandLine)

/-- The logs of each stream are returned in the order in which the process wrote them, as long
as no line gets its timestamp or its id before the earlier lines of its stream. -/
theorem inProcessOrder_of_inTurn (proc : Process) (timeoutSec : ℤ) (runId : RunId)
    (commandLine : String) (ls : List Label)
    (h : Machine.Along (step proc timeoutSec runId) InTurn (start proc commandLine) ls) :
    Machine.Visits (step proc timeoutSec runId) (InProcessOrder proc) (start proc commandLine) ls :=
  Machine.visits_of_invariant (fun _ _ _ hs hturn hstep => hs.trans hturn (trans_of_step hstep))
    (fun _ hs => hs.inProcessOrder) (sorted_start proc commandLine) h

/- Twenty-six lines on stdout, and as many on stderr as fill the buffer after the first one. -/
def twoFlushes : Process where
  output
    | .stdout => [49, 10] ++ (List.replicate 25 [50, 10]).flatten
    | .stderr => List.replicate 23 10
  exitCode := 0

/- Two batches are under way; the thread of the first one gives out its timestamps and ids first. -/
def inTurnFlushes : List Label :=
  .pump .stdout :: List.replicate 23 (.pump .stderr) ++ List.replicate 25 (.pump .stdout) ++
    List.replicate 25 (.thread (.stamp 0 1)) ++ List.replicate 25 (.thread (.stamp 1 2)) ++
    List.replicate 25 (.thread (.insert 0 0)) ++ List.replicate 25 (.thread (.insert 1 0)) ++
    [.thread (.commit 0), .thread (.commit 1)]

theorem inProcessOrder_twoFlushes :
    (Machine.run (step twoFlushes 60 1) (start twoFlushes "sh") inTurnFlushes).any
        (fun s => decide (s.log.table.length = 50)) = true ∧
      Machine.Visits (step twoFlushes 60 1) (InProcessOrder twoFlushes) (start twoFlushes "sh")
        inTurnFlushes :=
  ⟨by decide +kernel, inProcessOrder_of_inTurn twoFlushes 60 1 "sh" _ (by decide +kernel)⟩

/- The flush that stderr starts has the first line of stdout; stdout fills the buffer again
while it is under way, and the thread of the second flush is faster. -/
def overtaking : List Label :=
  .pump .stdout :: List.replicate 23 (.pump .stderr) ++ List.replicate 25 (.pump .stdout) ++
    List.replicate 25 (.thread (.stamp 1 1)) ++ List.replicate 25 (.thread (.stamp 0 2)) ++
    List.replicate 25 (.thread (.insert 0 0)) ++ List.replicate 25 (.thread (.insert 1 0)) ++
    [.thread (.commit 0), .thread (.commit 1)]

theorem second_flush_overtakes : ∃ s,
    Machine.run (step twoFlushes 60 1) (start twoFlushes "sh") overtaking = some s ∧
      ¬ InProcessOrder twoFlushes s := by
  have hall : (Machine.run (step twoFlushes 60 1) (start twoFlushes "sh") overtaking).any
      (fun s => !decide ((s.log.persisted.filter fun r => decide (r.stream = "stdout")).Pairwise
        fun a b => a.ts ≤ b.ts)) = true := by
    decide +kernel
  obtain ⟨s, hs, hall⟩ := (Option.any_eq_true _ _).mp hall
  refine ⟨s, hs, ?_⟩
  intro horder
  have hsorted := (LogBuffer.ordered_pairwise s.log.table).filter
    fun r => decide (r.stream = "stdout")
  rw [horder.rows "stdout"] at hsorted
  have hts := hsorted.imp fun {a b} h => (h.elim le_of_lt fun h => h.1.le : a.ts ≤ b.ts)
  rw [decide_eq_true hts] at hall
  cases hall

end State
end JobScheduler.Streams
