import JobScheduler.Library.Machine
import JobScheduler.Worker.Streams

/-!
# The completeness of the logs of a shell task

A pump that meets a line above the limit of its reader ends with a ValueError. The future of
asyncio.gather is done with it, so `execute` does not wait for the pumps any more, and it
returns a result that says nothing of the lines that nobody reads.
-/

namespace JobScheduler.Streams
open Library

/- Every line is within the limit of the reader. -/
def Fits (bs : List UInt8) : Prop := ∀ line ∈ splitLines bs, line.length ≤ readerLimit

instance (bs : List UInt8) : Decidable (Fits bs) :=
  inferInstanceAs (Decidable (∀ line ∈ splitLines bs, _))

theorem Reads.fits_iff {bs raw rest line : List UInt8} (h : Reads bs raw rest line) :
    Fits bs ↔ Fits rest := by
  unfold Fits
  rw [h.lines, List.forall_mem_cons, and_iff_right h.fits]

/- The process ends by itself within the timeout, and no call of append_logs raises. -/
def Label.undisturbed : Label → Bool
  | .timesOut _ | .thread (.raise _) => false
  | _ => true

/- execute has returned. -/
def Main.ended : Main → Bool
  | .waiting | .gathering _ => false
  | .flushing _ _ | .returned _ | .raised => true

namespace State

variable {proc : Process} {timeoutSec : ℤ} {runId : RunId} {s t : State} {l : Label}

theorem pumps_setPump (s : State) (p q : Pipe) (pump : Pump) :
    (s.setPump p pump).pumps q = if q = p then pump else s.pumps q := by
  unfold setPump
  exact Function.update_apply ..

theorem pumps_logLine (s : State) (p q : Pipe) (raw rest : List UInt8) :
    (s.logLine p raw rest).pumps q =
      if q = p then (s.logLine p raw rest).pumps p else s.pumps q := by
  unfold logLine
  by_cases hqp : q = p
  · rw [if_pos hqp, hqp]
  · rw [if_neg hqp]
    exact Function.update_of_ne hqp ..

theorem pump_logLine (s : State) (p : Pipe) (raw rest : List UInt8) :
    (s.logLine p raw rest).pumps p =
      { rest := rest
        state :=
          match (s.log.write (p.name, textOf raw)).2 with
          | none => .reading
          | some call => .writing call } := by
  unfold logLine
  exact Function.update_self ..

/-! ### The pumps -/

/- A pump has read lines within the limit only; it has read everything when it is done, and it
has failed at a line above the limit. -/
structure PumpOk (proc : Process) (p : Pipe) (pump : Pump) : Prop where
  fits : Fits (proc.output p) ↔ Fits pump.rest
  done : pump.state = .done → pump.rest = []
  failed : pump.state = .failed → ¬ Fits pump.rest

theorem PumpOk.moved {p : Pipe} {pump : Pump} (h : PumpOk proc p pump) {state : PumpState}
    (hdone : state = .done → pump.rest = []) (hfailed : state = .failed → ¬ Fits pump.rest) :
    PumpOk proc p ⟨pump.rest, state⟩ := ⟨h.fits, hdone, hfailed⟩

theorem pumpOk_setPump {p : Pipe} {pump : Pump} (hs : ∀ q, PumpOk proc q (s.pumps q))
    (h : PumpOk proc p pump) (q : Pipe) : PumpOk proc q ((s.setPump p pump).pumps q) := by
  rw [pumps_setPump]
  by_cases hqp : q = p
  · subst hqp
    rwa [if_pos rfl]
  · rw [if_neg hqp]
    exact hs q

/- No call has raised; a call that runs is waited for. -/
structure CallsOk (s : State) : Prop where
  notRaised : ∀ c ∈ s.log.calls, c.state ≠ .raised
  waited : ∀ k c, s.log.calls[k]? = some c → c.state = .running →
    (∃ p, (s.pumps p).state = .writing k) ∨ ∃ e, s.main = .flushing e k

/- A pump or the final flush waits for call k. -/
def Waits (s : State) (k : ℕ) : Prop :=
  (∃ p, (s.pumps p).state = .writing k) ∨ ∃ e, s.main = .flushing e k

theorem callsOk_iff : CallsOk s ↔ s.log.Awaited s.Waits := by
  constructor
  · intro h
    exact ⟨h.notRaised, h.waited⟩
  · intro h
    exact ⟨h.notRaised, h.waited⟩

theorem CallsOk.not_raised (hs : CallsOk s) (k : ℕ) : s.log.stateOf k ≠ some .raised :=
  (callsOk_iff.mp hs).stateOf_ne_raised k

theorem pumpOk_trans (hs : ∀ p, PumpOk proc p (s.pumps p)) (hcalls : CallsOk s)
    (h : Trans proc timeoutSec runId s l t) : ∀ p, PumpOk proc p (t.pumps p) := by
  cases h with
  | line p raw rest line hstate hline =>
    intro q
    rw [pumps_logLine]
    by_cases hqp : q = p
    · subst hqp
      rw [if_pos rfl, pump_logLine]
      refine ⟨(hs q).fits.trans hline.fits_iff, ?_, ?_⟩
      · intro hdone
        simp only at hdone
        split at hdone <;> cases hdone
      · intro hfailed
        simp only at hfailed
        split at hfailed <;> cases hfailed
    · rw [if_neg hqp]
      exact hs q
  | eof p hstate hrest =>
    exact pumpOk_setPump hs ((hs p).moved (fun _ => hrest) fun h => by cases h)
  | tooLong p line lines hstate hlines hlong =>
    refine pumpOk_setPump hs ((hs p).moved (fun h => by cases h) fun _ hfits => ?_)
    have hle := hfits line (by rw [hlines]; exact List.mem_cons_self)
    omega
  | resumed p call hstate hcall =>
    exact pumpOk_setPump hs ((hs p).moved (fun h => by cases h) fun h => by cases h)
  | died p call hstate hcall => exact absurd hcall (hcalls.not_raised call)
  | _ => exact hs

/-! ### The calls -/

/- Nobody who has not been woken stops waiting for a call. -/
theorem CallsOk.of_eq (hs : CallsOk s) (hlog : t.log = s.log)
    (hpumps : ∀ p k, (s.pumps p).state = .writing k → (t.pumps p).state = .writing k ∨
      s.log.stateOf k = some .committed)
    (hmain : ∀ e k, s.main = .flushing e k → t.main = .flushing e k ∨
      s.log.stateOf k = some .committed) : CallsOk t := by
  rw [callsOk_iff, hlog]
  apply (callsOk_iff.mp hs).wake
  intro k hk
  rcases hk with ⟨p, hp⟩ | ⟨e, he⟩
  · exact (hpumps p k hp).imp_left fun h => Or.inl ⟨p, h⟩
  · exact (hmain e k he).imp_left fun h => Or.inr ⟨e, h⟩

theorem CallsOk.setPump (hs : CallsOk s) {p : Pipe} {pump : Pump}
    (h : ∀ k, (s.pumps p).state = .writing k → s.log.stateOf k = some .committed) :
    CallsOk (s.setPump p pump) := by
  refine hs.of_eq rfl ?_ fun e k he => Or.inl he
  intro q k hq
  rw [pumps_setPump]
  by_cases hqp : q = p
  · subst hqp
    exact Or.inr (h k hq)
  · rw [if_neg hqp]
    exact Or.inl hq

/- A new call is waited for by the one who has started it. -/
theorem CallsOk.hands (hs : CallsOk s) {call : Option ℕ} (hlog : s.log.Hands t.log call)
    (hpumps : ∀ p k, (s.pumps p).state = .writing k → (t.pumps p).state = .writing k)
    (hmain : ∀ e k, s.main = .flushing e k → t.main = .flushing e k)
    (hnew : ∀ k, call = some k → t.Waits k) : CallsOk t := by
  have hold : s.log.Awaited t.Waits := by
    apply (callsOk_iff.mp hs).wake
    intro k hk
    left
    rcases hk with ⟨p, hp⟩ | ⟨e, he⟩
    · exact Or.inl ⟨p, hpumps p k hp⟩
    · exact Or.inr ⟨e, hmain e k he⟩
  exact callsOk_iff.mpr (hold.hands hlog hnew)

theorem CallsOk.finish (hs : CallsOk s) (e : Ending) (hmain : s.main.ended = false) :
    CallsOk (s.finish proc timeoutSec e) := by
  refine hs.hands (LogBuffer.hands_flush s.log) (fun _ _ h => h) ?_ ?_
  · intro e' k he
    rw [he] at hmain
    cases hmain
  · intro k hk
    right
    exact ⟨e, by simp [State.finish, hk]⟩

theorem CallsOk.trans (hs : CallsOk s) (hl : l.undisturbed = true)
    (h : Trans proc timeoutSec runId s l t) : CallsOk t := by
  have hreading : ∀ p, (s.pumps p).state = .reading →
      ∀ k, (s.pumps p).state = .writing k → s.log.stateOf k = some .committed := by
    intro p hp k hk
    rw [hp] at hk
    cases hk
  cases h with
  | line p raw rest line hstate hline =>
    refine hs.hands (LogBuffer.hands_write s.log _) ?_ (fun _ _ h => h) ?_
    · intro q k hq
      rw [pumps_logLine]
      by_cases hqp : q = p
      · rw [hqp, hstate] at hq
        cases hq
      · rw [if_neg hqp]
        exact hq
    · intro k hk
      left
      exact ⟨p, by rw [pump_logLine, hk]⟩
  | eof p hstate _ | tooLong p _ _ hstate _ _ => exact hs.setPump (hreading p hstate)
  | resumed p call hstate hcall =>
    apply hs.setPump
    intro k hk
    rw [hstate] at hk
    cases hk
    exact hcall
  | died p call hstate hcall => exact absurd hcall (hs.not_raised call)
  | exits hmain hdone => exact hs.finish .exited (by rw [hmain]; rfl)
  | gathered e hmain hdone => exact hs.finish e (by rw [hmain]; rfl)
  | exitsFirst hmain | timesOut _ hmain =>
    exact hs.of_eq rfl (fun _ _ h => Or.inl h) fun e k he => by
      rw [hmain] at he
      cases he
  | flushed e call hmain hcall =>
    refine hs.of_eq rfl (fun _ _ h => Or.inl h) ?_
    intro e' k he
    rw [hmain] at he
    cases he
    exact Or.inr hcall
  | raised e call hmain hcall => exact absurd hcall (hs.not_raised call)
  | thread l log hlog =>
    apply callsOk_iff.mpr
    apply (callsOk_iff.mp hs).thread _ hlog
    intro k hk
    rw [hk] at hl
    cases hl

/-! ### The main task -/

/- The process has exited by itself. -/
def Exited (proc : Process) (timeoutSec : ℤ) : Main → Prop
  | .waiting => True
  | .gathering e | .flushing e _ => e = .exited
  | .returned res => res = resultOf proc timeoutSec .exited
  | .raised => False

/- When execute has returned, a pump has failed, or all have returned and the buffer has been
flushed. -/
structure MainOk (proc : Process) (timeoutSec : ℤ) (s : State) : Prop where
  exited : Exited proc timeoutSec s.main
  ended : s.main.ended = true → (∃ p, (s.pumps p).state = .failed) ∨
    (∀ p, (s.pumps p).state = .done) ∧ s.log.buf = []

theorem gatherDone_cases (h : s.gatherDone = true) :
    (∃ p, (s.pumps p).state = .failed) ∨ ∀ p, (s.pumps p).state = .done := by
  simp only [gatherDone, Bool.or_eq_true, Bool.and_eq_true, decide_eq_true_eq] at h
  rcases h with ⟨hout, herr⟩ | hout | herr
  · right
    intro p
    cases p with
    | stdout => exact hout
    | stderr => exact herr
  · exact Or.inl ⟨.stdout, hout⟩
  · exact Or.inl ⟨.stderr, herr⟩

/- A pump that still runs moves; the ones that have failed stay so. -/
theorem MainOk.moved (hs : MainOk proc timeoutSec s) {p : Pipe} (hmain : t.main = s.main)
    (hfailed : (s.pumps p).state ≠ .failed) (hdone : (s.pumps p).state ≠ .done)
    (hpumps : ∀ q, q ≠ p → t.pumps q = s.pumps q) : MainOk proc timeoutSec t where
  exited := by
    rw [hmain]
    exact hs.exited
  ended := by
    rw [hmain]
    intro hended
    rcases hs.ended hended with ⟨q, hq⟩ | ⟨hall, -⟩
    · have hqp : q ≠ p := by
        intro heq
        rw [heq] at hq
        exact hfailed hq
      exact Or.inl ⟨q, by rw [hpumps q hqp]; exact hq⟩
    · exact absurd (hall p) hdone

theorem MainOk.setPump (hs : MainOk proc timeoutSec s) {p : Pipe} {pump : Pump}
    (hfailed : (s.pumps p).state ≠ .failed) (hdone : (s.pumps p).state ≠ .done) :
    MainOk proc timeoutSec (s.setPump p pump) := by
  refine hs.moved rfl hfailed hdone ?_
  intro q hqp
  rw [pumps_setPump, if_neg hqp]

theorem MainOk.finish (hdone : s.gatherDone = true) :
    MainOk proc timeoutSec (s.finish proc timeoutSec .exited) where
  exited := by
    unfold State.finish
    cases s.log.flush.2 <;> rfl
  ended := by
    intro _
    rcases gatherDone_cases hdone with hfailed | hall
    · exact Or.inl hfailed
    · exact Or.inr ⟨hall, LogBuffer.buf_flush s.log⟩

theorem MainOk.trans (hs : MainOk proc timeoutSec s) (hcalls : CallsOk s)
    (hl : l.undisturbed = true) (h : Trans proc timeoutSec runId s l t) :
    MainOk proc timeoutSec t := by
  cases h with
  | line p raw rest line hstate hline =>
    refine hs.moved (p := p) rfl (by simp [hstate]) (by simp [hstate]) ?_
    intro q hqp
    rw [pumps_logLine, if_neg hqp]
  | eof p hstate _ | tooLong p _ _ hstate _ _ =>
    exact hs.setPump (by simp [hstate]) (by simp [hstate])
  | resumed p call hstate _ | died p call hstate _ =>
    exact hs.setPump (by simp [hstate]) (by simp [hstate])
  | exits hmain hdone => exact MainOk.finish hdone
  | gathered e hmain hdone =>
    have hexited := hs.exited
    rw [hmain] at hexited
    cases hexited
    exact MainOk.finish hdone
  | exitsFirst hmain => exact ⟨rfl, fun h => by cases h⟩
  | timesOut _ hmain => cases hl
  | flushed e call hmain hcall =>
    have hexited := hs.exited
    have hended := hs.ended
    rw [hmain] at hexited hended
    cases hexited
    exact ⟨rfl, fun _ => hended rfl⟩
  | raised e call hmain hcall => exact absurd hcall (hcalls.not_raised call)
  | thread l log hlog =>
    refine ⟨hs.exited, ?_⟩
    rw [LogBuffer.buf_thread hlog]
    exact hs.ended

/-! ### All lines -/

structure Sound (proc : Process) (timeoutSec : ℤ) (s : State) : Prop where
  pumped : Pumped proc s
  stored : s.log.Stored
  pumps : ∀ p, PumpOk proc p (s.pumps p)
  calls : CallsOk s
  main : MainOk proc timeoutSec s

theorem Sound.trans (hs : Sound proc timeoutSec s) (hl : l.undisturbed = true)
    (h : Trans proc timeoutSec runId s l t) : Sound proc timeoutSec t where
  pumped := hs.pumped.trans h
  stored := stored_trans hs.stored h
  pumps := pumpOk_trans hs.pumps hs.calls h
  calls := hs.calls.trans hl h
  main := hs.main.trans hs.calls hl h

theorem sound_start (proc : Process) (timeoutSec : ℤ) (commandLine : String) :
    Sound proc timeoutSec (start proc commandLine) where
  pumped := pumped_start proc commandLine
  stored := stored_start proc commandLine
  pumps := by
    intro p
    exact ⟨Iff.rfl, (fun h => by cases h), (fun h => by cases h)⟩
  calls := by
    apply callsOk_iff.mpr
    apply LogBuffer.awaited_empty.hands (LogBuffer.hands_write {} ("system", "$ " ++ commandLine))
    intro k hk
    cases hk
  main := ⟨trivial, (fun h => by cases h)⟩

/- The committed lines of a pipe, in the order of their commits. -/
def committed (log : LogBuffer) (p : Pipe) : List String :=
  (log.table.filter fun r => decide (r.stream = p.name)).map Routes.JobRunLog.line

theorem committed_perm (hs : s.log.Stored) (p : Pipe) :
    (committed s.log p).Perm ((s.log.persisted.filter fun r => decide (r.stream = p.name)).map
      Routes.JobRunLog.line) :=
  (hs.table.filter _).map _

/- A line that has been committed has been logged, and what has been logged was read. -/
theorem Sound.fits_of_length (hs : Sound proc timeoutSec s) (p : Pipe)
    (h : (committed s.log p).length = (linesOf (proc.output p)).length) :
    Fits (proc.output p) := by
  have hlogged := (logged_persisted s.log p).length_le
  rw [← (committed_perm hs.stored p).length_eq, h, ← hs.pumped p, List.length_append] at hlogged
  have hrest : splitLines (s.pumps p).rest = [] := by
    have hzero : (linesOf (s.pumps p).rest).length = 0 := by omega
    rw [linesOf, List.length_map] at hzero
    exact List.length_eq_zero_iff.mp hzero
  rw [(hs.pumps p).fits]
  intro line hline
  rw [hrest] at hline
  cases hline

/- When all lines fit, nothing is left when execute and the last flush have returned. -/
theorem Sound.committed_of_fits (hs : Sound proc timeoutSec s) {res : ExecResult}
    (hret : s.main = .returned res) (hfits : ∀ p, Fits (proc.output p)) (p : Pipe) :
    (committed s.log p).Perm (linesOf (proc.output p)) := by
  have hended := hs.main.ended
  rw [hret] at hended
  obtain ⟨hall, hbuf⟩ := (hended rfl).resolve_left fun ⟨q, hq⟩ =>
    (hs.pumps q).failed hq ((hs.pumps q).fits.mp (hfits q))
  have hnobody : ∀ k, ¬ s.Waits k := by
    intro k hwaits
    rcases hwaits with ⟨q, hq⟩ | ⟨e, he⟩
    · rw [hall q] at hq
      cases hq
    · rw [hret] at he
      cases he
  have hcommitted := (callsOk_iff.mp hs.calls).committed hnobody
  have hwritten := hs.stored.persisted_eq hcommitted hbuf
  have hlogged : logged s.log p = linesOf (proc.output p) := by
    have hpumped := hs.pumped p
    rw [(hs.pumps p).done (hall p)] at hpumped
    simpa [linesOf, splitLines_nil] using hpumped
  have hperm := committed_perm hs.stored p
  have heq : (s.log.persisted.filter fun r => decide (r.stream = p.name)).map
      Routes.JobRunLog.line = logged s.log p := by
    rw [logged, ← hwritten, List.filter_map, List.map_map]
    rfl
  rw [heq, hlogged] at hperm
  exact hperm

/- The lines of both pipes are committed, and the result tells the exit code. -/
def AllLogged (proc : Process) (s : State) (res : ExecResult) : Prop :=
  (∀ p, (committed s.log p).Perm (linesOf (proc.output p))) ∧
    (res.succeeded = true ↔ proc.exitCode = 0)

/-- When the process has exited by itself and execute and the final flush have returned, every
line of its output is logged exactly when no line is above the limit of the reader. -/
theorem allLogged_iff_fits (proc : Process) (timeoutSec : ℤ) (runId : RunId)
    (commandLine : String) (ls : List Label) (s : State) (res : ExecResult)
    (hl : Machine.Along (step proc timeoutSec runId) (fun _ l => l.undisturbed = true)
      (start proc commandLine) ls)
    (hr : Machine.run (step proc timeoutSec runId) (start proc commandLine) ls = some s)
    (hret : s.main = .returned res) :
    AllLogged proc s res ↔ ∀ p, Fits (proc.output p) := by
  have hs : Sound proc timeoutSec s :=
    Machine.run_invariant (fun _ _ _ hi hl hstep => hi.trans hl (trans_of_step hstep))
      (sound_start proc timeoutSec commandLine) hl hr
  constructor
  · intro h p
    exact hs.fits_of_length p (h.1 p).length_eq
  · intro hfits
    refine ⟨hs.committed_of_fits hret hfits, ?_⟩
    have hres : res = resultOf proc timeoutSec .exited := by
      have hexited := hs.main.exited
      rw [hret] at hexited
      exact hexited
    rw [hres]
    unfold resultOf
    by_cases hcode : proc.exitCode = 0 <;> simp [hcode, ExecResult.succeeded]

/- A process that fails with a message on stderr. -/
def failing : Process where
  output
    | .stdout => [97, 10, 10, 98]
    | .stderr => [110, 111, 10]
  exitCode := 2

/- It exits before its pumps are done, and all its lines are in the last flush. -/
def failingRun : List Label :=
  [.pump .stdout, .pump .stderr, .exits] ++ List.replicate 3 (.pump .stdout) ++
    [.pump .stderr, .gathered] ++ List.replicate 5 (.thread (.stamp 0 1)) ++
    List.replicate 5 (.thread (.insert 0 0)) ++ [.thread (.commit 0), .flushed]

theorem allLogged_failing : ∃ s res,
    Machine.run (step failing 60 1) (start failing "ls") failingRun = some s ∧
      s.main = .returned res ∧ AllLogged failing s res := by
  have hall : (Machine.run (step failing 60 1) (start failing "ls") failingRun).any (fun s =>
      match s.main with
      | .returned _ => true
      | _ => false) = true := by
    decide
  obtain ⟨s, hs, hret⟩ := (Option.any_eq_true _ _).mp hall
  split at hret
  · rename_i res hmain
    refine ⟨s, res, hs, hmain, ?_⟩
    apply (allLogged_iff_fits failing 60 1 "ls" failingRun s res (by decide) hs hmain).mpr
    intro p
    cases p <;> decide
  · cases hret

/- A process that prints one line of bs and succeeds. -/
def printing (bs : List UInt8) : Process where
  output
    | .stdout => bs
    | .stderr => []
  exitCode := 0

/- Everything returns as usual. -/
def printingRun : List Label :=
  [.pump .stdout, .pump .stderr, .exits, .thread (.stamp 0 1), .thread (.insert 0 0),
    .thread (.commit 0), .flushed]

theorem lost_of_long {bs : List UInt8} (hno : newline ∉ bs) (hlong : readerLimit < bs.length) :
    ∃ s res, Machine.run (step (printing bs) 60 1) (start (printing bs) "cat") printingRun = some s ∧
      s.main = .returned res ∧ res.succeeded = true ∧ ¬ AllLogged (printing bs) s res := by
  have hne : bs ≠ [] := List.ne_nil_of_length_pos (Nat.zero_lt_of_lt hlong)
  have hlines : splitLines bs = [bs] := splitLines_single hno hne
  have hread : readline bs = none := by
    rcases readline_cases bs with ⟨h, -⟩ | ⟨-, h⟩ | ⟨raw, rest, line, -, -, h⟩
    · exact h
    · exact absurd h hne
    · have hline := h.lines
      rw [hlines] at hline
      have hfits := h.fits
      rw [← (List.cons.inj hline).1] at hfits
      omega
  have hfirst : step (printing bs) 60 1 (start (printing bs) "cat") (.pump .stdout) =
      some ((start (printing bs) "cat").setPump .stdout ⟨bs, .failed⟩) := by
    have hstate : ((start (printing bs) "cat").pumps .stdout).state = .reading := rfl
    have hrest : ((start (printing bs) "cat").pumps .stdout).rest = bs := rfl
    simp only [step, hstate, hrest, hread]
  refine ⟨_, _, Machine.run_cons.mpr ⟨_, hfirst, rfl⟩, rfl, rfl, ?_⟩
  intro h
  have hperm : ([] : List String).Perm (linesOf bs) := h.1 .stdout
  rw [List.nil_perm, linesOf, hlines] at hperm
  cases hperm

/- The output is one line that is longer than the limit by one byte. -/
theorem long_line_lost : ∃ s res,
    Machine.run (step (printing (List.replicate 65537 97)) 60 1)
      (start (printing (List.replicate 65537 97)) "cat") printingRun = some s ∧
    s.main = .returned res ∧ res.succeeded = true ∧
    ¬ AllLogged (printing (List.replicate 65537 97)) s res := by
  apply lost_of_long
  · intro h
    exact absurd (List.eq_of_mem_replicate h) (by decide)
  · rw [List.length_replicate]
    decide

end State
end JobScheduler.Streams
