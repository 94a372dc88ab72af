import JobScheduler.Library.Utf8
import JobScheduler.Worker.LogBuffer
import JobScheduler.Worker.Executor
import Mathlib.Data.List.DropRight
import Mathlib.Logic.Function.Basic

/-!
# Output of a shell task (`_pump` and `execute` of backend/worker/executors/shell.py)

Two pumps read the pipes of the process line by line and share one `LogBuffer`. `execute`
waits for the process and then for the pumps; `process_run` flushes what is left. All of
them are cut at their awaits, and the threads of the flushes run in between.
-/

namespace JobScheduler.Streams
open Library

/-! ### Lines -/

def newline : UInt8 := 10

/- The default limit of asyncio's StreamReader. -/
def readerLimit : ℕ := 65536

/- StreamReader.readline on the bytes that are still to come: the line with its newline, if it
has one, and the bytes after it; none is the ValueError for a line above the limit. -/
def readline (bs : List UInt8) : Option (List UInt8 × List UInt8) :=
  let line := bs.takeWhile fun b => decide (b ≠ newline)
  if readerLimit < line.length then none
  else
    match bs.dropWhile fun b => decide (b ≠ newline) with
    | [] => some (line, [])
    | b :: rest => some (line ++ [b], rest)

-- raw.decode(errors="replace").rstrip("\n")
def textOf (raw : List UInt8) : String :=
  String.ofList ((Utf8.decode raw).rdropWhile fun c => decide (c = '\n'))

/- Nothing follows the last newline. -/
def dropEmptyEnd (parts : List (List UInt8)) : List (List UInt8) :=
  if parts.getLast? = some [] then parts.dropLast else parts

/- The lines of an output: it is split at its newlines. -/
def splitLines (bs : List UInt8) : List (List UInt8) := dropEmptyEnd (bs.splitOn newline)

/- The lines decoded with replacement. -/
def linesOf (bs : List UInt8) : List String :=
  (splitLines bs).map fun line => String.ofList (Utf8.decode line)

theorem splitLines_nil : splitLines [] = [] := rfl

theorem splitLines_single {line : List UInt8} (h : newline ∉ line) (hne : line ≠ []) :
    splitLines line = [line] := by
  unfold splitLines
  rw [List.splitOn_eq_singleton h]
  simp [dropEmptyEnd, hne]

theorem splitLines_cons {line : List UInt8} (rest : List UInt8) (h : newline ∉ line) :
    splitLines (line ++ newline :: rest) = line :: splitLines rest := by
  unfold splitLines
  rw [List.splitOn_append_cons_self_of_not_mem h]
  cases hparts : rest.splitOn newline with
  | nil => exact absurd hparts (List.splitOn_ne_nil newline rest)
  | cons part parts =>
    unfold dropEmptyEnd
    rw [List.getLast?_cons_cons]
    split <;> rfl

theorem newline_notMem_decode {line : List UInt8} (h : newline ∉ line) :
    '\n' ∉ Utf8.decode line := by
  intro hmem
  obtain ⟨b, hb, hchar⟩ := Utf8.mem_of_mem_decodeFrom (by decide) (by decide) hmem
  have hnewline : newline = b := UInt8.toNat_inj.mp hchar
  exact h (hnewline ▸ hb)

theorem rdropWhile_decode {line : List UInt8} (h : newline ∉ line) :
    (Utf8.decode line).rdropWhile (fun c => decide (c = '\n')) = Utf8.decode line := by
  rw [List.rdropWhile_eq_self_iff]
  intro hne hlast
  apply newline_notMem_decode h
  rw [← of_decide_eq_true hlast]
  exact List.getLast_mem hne

/- The newline at the end of a line is stripped and nothing else is. -/
theorem textOf_line {line : List UInt8} (h : newline ∉ line) :
    textOf line = String.ofList (Utf8.decode line) := by
  rw [textOf, rdropWhile_decode h]

theorem textOf_newline {line : List UInt8} (h : newline ∉ line) :
    textOf (line ++ [newline]) = String.ofList (Utf8.decode line) := by
  have hend : Utf8.decode (line ++ [newline]) = Utf8.decode line ++ ['\n'] :=
    Utf8.decodeFrom_append_ascii none line [] (by decide)
  rw [textOf, hend, List.rdropWhile_concat_pos _ _ _ (by decide), rdropWhile_decode h]

/- A line of the output has been read. -/
structure Reads (bs raw rest line : List UInt8) : Prop where
  lines : splitLines bs = line :: splitLines rest
  text : textOf raw = String.ofList (Utf8.decode line)
  fits : line.length ≤ readerLimit

theorem readline_cases (bs : List UInt8) :
    (readline bs = none ∧ ∃ line rest, splitLines bs = line :: rest ∧ readerLimit < line.length) ∨
      (readline bs = some ([], []) ∧ bs = []) ∨
      ∃ raw rest line, readline bs = some (raw, rest) ∧ raw ≠ [] ∧ Reads bs raw rest line := by
  have hsplit := List.takeWhile_append_dropWhile (p := fun b => decide (b ≠ newline)) (l := bs)
  have hhead := List.head?_dropWhile_not (fun b => decide (b ≠ newline)) bs
  have hno : newline ∉ bs.takeWhile fun b => decide (b ≠ newline) := by
    intro h
    have hne := List.mem_takeWhile_imp h
    simp at hne
  unfold readline
  generalize bs.takeWhile (fun b => decide (b ≠ newline)) = line at hsplit hno
  cases hdrop : bs.dropWhile fun b => decide (b ≠ newline) with
  | nil =>
    rw [hdrop, List.append_nil] at hsplit
    subst hsplit
    by_cases hlong : readerLimit < line.length
    · left
      have hne : line ≠ [] := List.ne_nil_of_length_pos (Nat.zero_lt_of_lt hlong)
      exact ⟨if_pos hlong, line, [], splitLines_single hno hne, hlong⟩
    · right
      by_cases hne : line = []
      · left
        subst hne
        exact ⟨rfl, rfl⟩
      · right
        refine ⟨line, [], line, if_neg hlong, hne, ?_, textOf_line hno, Nat.le_of_not_lt hlong⟩
        rw [splitLines_single hno hne, splitLines_nil]
  | cons b rest =>
    rw [hdrop] at hsplit hhead
    have hb : b = newline := by simpa using hhead
    subst hb
    by_cases hlong : readerLimit < line.length
    · left
      refine ⟨if_pos hlong, line, splitLines rest, ?_, hlong⟩
      rw [← hsplit, splitLines_cons rest hno]
    · right
      right
      refine ⟨line ++ [newline], rest, line, if_neg hlong, by simp, ?_, textOf_newline hno,
        Nat.le_of_not_lt hlong⟩
      rw [← hsplit, splitLines_cons rest hno]

/-! ### The tasks -/

inductive Pipe where
  | stdout
  | stderr
  deriving DecidableEq, Repr

def Pipe.name : Pipe → String
  | .stdout => "stdout"
  | .stderr => "stderr"

/- writing: the pump waits for the call of append_logs that its line has started.
failed: readline or append_logs has raised. -/
inductive PumpState where
  | reading
  | writing (call : ℕ)
  | done
  | failed
  deriving DecidableEq, Repr

/- A pump and the bytes that its reader has still to return. -/
structure Pump where
  rest : List UInt8
  state : PumpState := .reading
  deriving DecidableEq, Repr

/- What the process writes to its pipes, and its exit code. -/
structure Process where
  output : Pipe → List UInt8
  exitCode : ℤ

inductive Ending where
  | exited
  | timedOut (returncode : Option ℤ)

/- Where execute, and process_run after it, stand. -/
inductive Main where
  | waiting
  | gathering (ending : Ending)
  | flushing (ending : Ending) (call : ℕ)
  | returned (res : ExecResult)
  | raised

structure State where
  log : LogBuffer
  pumps : Pipe → Pump
  main : Main := .waiting

inductive Label where
  | pump (pipe : Pipe)
  | resume (pipe : Pipe)
  | exits
  | timesOut (returncode : Option ℤ)
  | gathered
  | flushed
  | thread (step : ThreadStep)

namespace State

/- The future of asyncio.gather: all pumps have returned, or one has raised. -/
def gatherDone (s : State) : Bool :=
  (decide ((s.pumps .stdout).state = .done) && decide ((s.pumps .stderr).state = .done)) ||
    (decide ((s.pumps .stdout).state = .failed) || decide ((s.pumps .stderr).state = .failed))

def setPump (s : State) (p : Pipe) (pump : Pump) : State :=
  { s with pumps := Function.update s.pumps p pump }

end State

section
variable (proc : Process) (timeoutSec : ℤ) (runId : RunId)

def exitFields (code : ℤ) : Json := .object [("exit_code", .number code 0)]

def resultOf : Ending → ExecResult
  | .exited =>
    if proc.exitCode = 0 then
      { status := .succeeded, exitCode := some 0, result := some (exitFields 0) }
    else
      { status := .failed
        exitCode := some proc.exitCode
        result := some (exitFields proc.exitCode)
        error := some ("command exited with code " ++ toString proc.exitCode) }
  | .timedOut returncode =>
    { status := .timedOut
      exitCode := returncode
      error := some ("command exceeded timeout of " ++ toString timeoutSec ++ "s") }

/- execute has written the command line and started the process. -/
def start (commandLine : String) : State where
  log := (({} : LogBuffer).write ("system", "$ " ++ commandLine)).1
  pumps := fun p => { rest := proc.output p }

namespace State

/- execute returns, and process_run flushes the log. -/
def finish (s : State) (e : Ending) : State :=
  { s with
    log := s.log.flush.1
    main :=
      match s.log.flush.2 with
      | none => .returned (resultOf proc timeoutSec e)
      | some call => .flushing e call }

/- The pump logs a line and goes on when there is no flush to wait for. -/
def logLine (s : State) (p : Pipe) (raw rest : List UInt8) : State :=
  { s with
    log := (s.log.write (p.name, textOf raw)).1
    pumps := Function.update s.pumps p
      { rest := rest
        state :=
          match (s.log.write (p.name, textOf raw)).2 with
          | none => .reading
          | some call => .writing call } }

def step (s : State) : Label → Option State
  | .pump p =>
    match (s.pumps p).state with
    | .reading =>
      match readline (s.pumps p).rest with
      | none => some (s.setPump p ⟨(s.pumps p).rest, .failed⟩)
      | some ([], rest) => some (s.setPump p ⟨rest, .done⟩)
      | some (b :: raw, rest) => some (s.logLine p (b :: raw) rest)
    | _ => none
  | .resume p =>
    match (s.pumps p).state with
    | .writing call =>
      match s.log.stateOf call with
      | some .committed => some (s.setPump p ⟨(s.pumps p).rest, .reading⟩)
      | some .raised => some (s.setPump p ⟨(s.pumps p).rest, .failed⟩)
      | _ => none
    | _ => none
  | .exits =>
    match s.main with
    | .waiting =>
      if s.gatherDone then some (s.finish proc timeoutSec .exited)
      else some { s with main := .gathering .exited }
    | _ => none
  | .timesOut returncode =>
    match s.main with
    | .waiting => some { s with main := .gathering (.timedOut returncode) }
    | _ => none
  | .gathered =>
    match s.main with
    | .gathering e => if s.gatherDone then some (s.finish proc timeoutSec e) else none
    | _ => none
  | .flushed =>
    match s.main with
    | .flushing e call =>
      match s.log.stateOf call with
      | some .committed => some { s with main := .returned (resultOf proc timeoutSec e) }
      | some .raised => some { s with main := .raised }
      | _ => none
    | _ => none
  | .thread l => (s.log.thread runId l).map fun log => { s with log := log }

end State
end

/-! ### What a step does -/

namespace State

variable {proc : Process} {timeoutSec : ℤ} {runId : RunId}

inductive Trans (proc : Process) (timeoutSec : ℤ) (runId : RunId) (s : State) :
    Label → State → Prop where
  | line (p : Pipe) (raw rest line : List UInt8) : (s.pumps p).state = .reading →
      Reads (s.pumps p).rest raw rest line →
      Trans proc timeoutSec runId s (.pump p) (s.logLine p raw rest)
  | eof (p : Pipe) : (s.pumps p).state = .reading → (s.pumps p).rest = [] →
      Trans proc timeoutSec runId s (.pump p) (s.setPump p ⟨(s.pumps p).rest, .done⟩)
  | tooLong (p : Pipe) (line : List UInt8) (lines : List (List UInt8)) :
      (s.pumps p).state = .reading → splitLines (s.pumps p).rest = line :: lines →
      readerLimit < line.length →
      Trans proc timeoutSec runId s (.pump p) (s.setPump p ⟨(s.pumps p).rest, .failed⟩)
  | resumed (p : Pipe) (call : ℕ) : (s.pumps p).state = .writing call →
      s.log.stateOf call = some .committed →
      Trans proc timeoutSec runId s (.resume p) (s.setPump p ⟨(s.pumps p).rest, .reading⟩)
  | died (p : Pipe) (call : ℕ) : (s.pumps p).state = .writing call →
      s.log.stateOf call = some .raised →
      Trans proc timeoutSec runId s (.resume p) (s.setPump p ⟨(s.pumps p).rest, .failed⟩)
  | exits : s.main = .waiting → s.gatherDone = true →
      Trans proc timeoutSec runId s .exits (s.finish proc timeoutSec .exited)
  | exitsFirst : s.main = .waiting →
      Trans proc timeoutSec runId s .exits { s with main := .gathering .exited }
  | timesOut (returncode : Option ℤ) : s.main = .waiting →
      Trans proc timeoutSec runId s (.timesOut returncode)
        { s with main := .gathering (.timedOut returncode) }
  | gathered (e : Ending) : s.main = .gathering e → s.gatherDone = true →
      Trans proc timeoutSec runId s .gathered (s.finish proc timeoutSec e)
  | flushed (e : Ending) (call : ℕ) : s.main = .flushing e call →
      s.log.stateOf call = some .committed →
      Trans proc timeoutSec runId s .flushed
        { s with main := .returned (resultOf proc timeoutSec e) }
  | raised (e : Ending) (call : ℕ) : s.main = .flushing e call →
      s.log.stateOf call = some .raised →
      Trans proc timeoutSec runId s .flushed { s with main := .raised }
  | thread (l : ThreadStep) (log : LogBuffer) : s.log.thread runId l = some log →
      Trans proc timeoutSec runId s (.thread l) { s with log := log }

theorem trans_of_step {s t : State} {l : Label} (h : s.step proc timeoutSec runId l = some t) :
    Trans proc timeoutSec runId s l t := by
  cases l with
  | pump p =>
    simp only [step] at h
    split at h
    · rename_i hstate
      rcases readline_cases (s.pumps p).rest with
        ⟨hread, line, lines, hlines, hlong⟩ | ⟨hread, hrest⟩ | ⟨raw, rest, line, hread, hraw, hline⟩
      · rw [hread] at h
        cases h
        exact .tooLong p line lines hstate hlines hlong
      · rw [hread] at h
        cases h
        have hpump : (⟨[], .done⟩ : Pump) = ⟨(s.pumps p).rest, .done⟩ := by rw [hrest]
        rw [hpump]
        exact .eof p hstate hrest
      · rw [hread] at h
        cases raw with
        | nil => exact absurd rfl hraw
        | cons b raw =>
          cases h
          exact .line p (b :: raw) rest line hstate hline
    · cases h
  | resume p =>
    simp only [step] at h
    split at h
    · rename_i call hstate
      split at h
      · rename_i hcall
        cases h
        exact .resumed p call hstate hcall
      · rename_i hcall
        cases h
        exact .died p call hstate hcall
      · cases h
    · cases h
  | exits =>
    simp only [step] at h
    split at h
    · rename_i hmain
      split at h
      · rename_i hdone
        cases h
        exact .exits hmain hdone
      · cases h
        exact .exitsFirst hmain
    · cases h
  | timesOut returncode =>
    simp only [step] at h
    split at h
    · rename_i hmain
      cases h
      exact .timesOut returncode hmain
    · cases h
  | gathered =>
    simp only [step] at h
    split at h
    · rename_i e hmain
      split at h
      · rename_i hdone
        cases h
        exact .gathered e hmain hdone
      · cases h
    · cases h
  | flushed =>
    simp only [step] at h
    split at h
    · rename_i e call hmain
      split at h
      · rename_i hcall
        cases h
        exact .flushed e call hmain hcall
      · rename_i hcall
        cases h
        exact .raised e call hmain hcall
      · cases h
    · cases h
  | thread l =>
    obtain ⟨log, hlog, rfl⟩ := Option.map_eq_some_iff.mp h
    exact .thread l log hlog

/- The lines that the buffer has got from a pump. -/
def logged (log : LogBuffer) (p : Pipe) : List String :=
  (log.written.filter fun e => decide (e.1 = p.name)).map Prod.snd

/- The lines that a pump has logged and those that it has still to read are the lines of its
pipe. -/
def Pumped (proc : Process) (s : State) : Prop :=
  ∀ p, logged s.log p ++ linesOf (s.pumps p).rest = linesOf (proc.output p)

theorem name_injective {p q : Pipe} (h : p.name = q.name) : p = q := by
  cases p <;> cases q <;> first | rfl | simp [Pipe.name] at h

theorem logged_write (log : LogBuffer) (p q : Pipe) (line : String) :
    logged (log.write (p.name, line)).1 q =
      logged log q ++ if p = q then [line] else [] := by
  unfold logged
  rw [LogBuffer.written_write, List.filter_append, List.map_append]
  congr 1
  by_cases hpq : p = q
  · simp [hpq]
  · have hname : p.name ≠ q.name := fun h => hpq (name_injective h)
    simp [hpq, hname]

theorem Pumped.of_eq {s t : State} (hs : Pumped proc s) (hlog : t.log.written = s.log.written)
    (hpumps : ∀ p, (t.pumps p).rest = (s.pumps p).rest) : Pumped proc t := by
  intro p
  have hp := hs p
  unfold logged at hp ⊢
  rw [hlog, hpumps]
  exact hp

theorem rest_setPump (s : State) (p q : Pipe) (state : PumpState) :
    ((s.setPump p ⟨(s.pumps p).rest, state⟩).pumps q).rest = (s.pumps q).rest := by
  unfold setPump
  by_cases hqp : q = p
  · subst hqp
    simp
  · simp [hqp]

theorem Pumped.trans {s t : State} {l : Label} (hs : Pumped proc s)
    (h : Trans proc timeoutSec runId s l t) : Pumped proc t := by
  cases h with
  | line p raw rest line hstate hline =>
    intro q
    have hq := hs q
    simp only [logLine, logged_write]
    by_cases hpq : p = q
    · subst hpq
      have hlines : linesOf (s.pumps p).rest = textOf raw :: linesOf rest := by
        simp [linesOf, hline.lines, hline.text]
      rw [hlines] at hq
      simpa using hq
    · have hqp : q ≠ p := Ne.symm hpq
      simpa [hpq, hqp] using hq
  | eof p _ _ | tooLong p _ _ _ _ _ | resumed p _ _ _ | died p _ _ _ =>
    exact hs.of_eq rfl fun q => rest_setPump s p q _
  | exits _ _ | gathered _ _ _ => exact hs.of_eq (LogBuffer.written_flush _) fun _ => rfl
  | thread l log hlog => exact hs.of_eq (LogBuffer.written_thread hlog) fun _ => rfl
  | _ => exact hs.of_eq rfl fun _ => rfl

theorem pumped_start (proc : Process) (commandLine : String) :
    Pumped proc (start proc commandLine) := by
  intro p
  have hsystem : logged (start proc commandLine).log p = [] := by
    have hname : "system" ≠ p.name := by cases p <;> decide
    unfold logged start
    rw [LogBuffer.written_write]
    simp [LogBuffer.written, hname]
  rw [hsystem]
  rfl

/- The rows of a pipe that are committed are among the lines it has logged. -/
theorem logged_persisted (log : LogBuffer) (p : Pipe) :
    ((log.persisted.filter fun r => decide (r.stream = p.name)).map
      Routes.JobRunLog.line).Sublist (logged log p) := by
  have hsub := (log.persisted_sublist.filter fun e => decide (e.1 = p.name)).map Prod.snd
  rw [List.filter_map, List.map_map] at hsub
  exact hsub

theorem stored_start (proc : Process) (commandLine : String) :
    (start proc commandLine).log.Stored :=
  LogBuffer.stored_empty.write ("system", "$ " ++ commandLine)

/- Every step keeps what the table and the calls have to do with each other. -/
theorem stored_trans {s t : State} {l : Label} (hs : s.log.Stored)
    (h : Trans proc timeoutSec runId s l t) : t.log.Stored := by
  cases h with
  | line p raw rest line hstate hline => exact hs.write _
  | exits _ _ | gathered _ _ _ => exact hs.flush
  | thread l log hlog => exact hs.thread hlog
  | _ => exact hs

end State
end JobScheduler.Streams
