import JobScheduler.Worker.Streams
import JobScheduler.Worker.Writers

/-!
# The log of a shell task as a shared log

`execute`, its two pumps and the final flush are writers of one buffer. What they do to it is a
run of concurrent writers, so no line of a pipe is lost or stored twice on the way to the table.
-/

namespace JobScheduler.Streams
open Library

/- No call of append_logs raises; the process may be killed after the timeout. -/
def Label.succeeds : Label → Bool
  | .thread (.raise _) => false
  | _ => true

namespace State

variable {proc : Process} {timeoutSec : ℤ} {runId : RunId} {s t : State} {l : Label}

def Shares (s : State) (w : Writers.State) : Prop := w.log = s.log

/- A step that leaves the buffer alone is no step of the writers, every other is one. -/
theorem shares_trans {w : Writers.State} (hw : Shares s w) (hl : l.succeeds = true)
    (h : Trans proc timeoutSec runId s l t) :
    ∃ ms v, Machine.Along (Writers.State.step runId) (fun _ m => m.succeeds = true) w ms ∧
      Machine.run (Writers.State.step runId) w ms = some v ∧ Shares t v := by
  have hone : ∀ m v, m.succeeds = true → Writers.State.step runId w m = some v → Shares t v →
      ∃ ms v, Machine.Along (Writers.State.step runId) (fun _ m => m.succeeds = true) w ms ∧
        Machine.run (Writers.State.step runId) w ms = some v ∧ Shares t v := by
    intro m v hm hv ht
    exact ⟨[m], v, ⟨hm, fun _ _ => trivial⟩, Machine.run_cons.mpr ⟨v, hv, rfl⟩, ht⟩
  unfold Shares at hw
  cases h with
  | line p raw rest line hstate hline =>
    apply hone (.write (p.name, textOf raw)) _ rfl rfl
    unfold Shares
    rw [hw]
    rfl
  | exits _ _ | gathered _ _ _ =>
    apply hone .flush _ rfl rfl
    unfold Shares
    rw [hw]
    rfl
  | thread l log hlog =>
    rw [← hw] at hlog
    apply hone (.thread l) { w with log := log }
    · cases l <;> first | rfl | exact hl
    · simp only [Writers.State.step, hlog, Option.map_some]
    · rfl
  | _ => exact ⟨[], w, trivial, rfl, hw⟩

theorem exists_writers {commandLine : String} {ls : List Label}
    (hl : Machine.Along (step proc timeoutSec runId) (fun _ l => l.succeeds = true)
      (start proc commandLine) ls)
    (hr : Machine.run (step proc timeoutSec runId) (start proc commandLine) ls = some s) :
    ∃ ms w, Machine.Along (Writers.State.step runId) (fun _ m => m.succeeds = true) {} ms ∧
      Machine.run (Writers.State.step runId) {} ms = some w ∧ Shares s w := by
  have hcommand : ∃ w, Writers.State.step runId {} (.write ("system", "$ " ++ commandLine)) =
      some w ∧ Shares (start proc commandLine) w := ⟨_, rfl, rfl⟩
  obtain ⟨w, hw, hstart⟩ := hcommand
  obtain ⟨ms, v, hms, hv, hshares⟩ := Machine.run_simulation
    (fun _ _ _ _ hR hC h => shares_trans hR hC (trans_of_step h)) hstart hl hr
  refine ⟨.write ("system", "$ " ++ commandLine) :: ms, v, ⟨rfl, ?_⟩, ?_, hshares⟩
  · intro u hu
    cases hw.symm.trans hu
    exact hms
  · exact Machine.run_cons.mpr ⟨w, hw, hv⟩

def linesFrom (p : Pipe) (es : List Entry) : List String :=
  (es.filter fun e => decide (e.1 = p.name)).map Prod.snd

/-- Every line that the process writes to a pipe is in one place: in the table, in flight, in
the buffer or not yet read. -/
theorem pipe_conserved {commandLine : String} {ls : List Label}
    (hl : Machine.Along (step proc timeoutSec runId) (fun _ l => l.succeeds = true)
      (start proc commandLine) ls)
    (hr : Machine.run (step proc timeoutSec runId) (start proc commandLine) ls = some s)
    (p : Pipe) :
    (linesFrom p (s.log.table.map logEntry ++ s.log.inFlight ++ s.log.buf) ++
      linesOf (s.pumps p).rest).Perm (linesOf (proc.output p)) := by
  obtain ⟨ms, w, hms, hw, hshares⟩ := exists_writers hl hr
  have hlines := (Writers.State.sound_run hms hw).lines
  rw [hshares] at hlines
  have hpumped : Pumped proc s := Machine.run_invariant
    (fun _ _ _ hi _ h => Pumped.trans hi (trans_of_step h)) (pumped_start proc commandLine) hl hr
  rw [← hpumped p]
  exact ((hlines.filter _).map _).append_right _

end State
end JobScheduler.Streams
