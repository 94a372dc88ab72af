import JobScheduler.Api.Routes
import JobScheduler.Library.Positions
import Mathlib.Data.List.Flatten
import Mathlib.Data.List.Perm.Basic

/-!
# Logs of a run (`LogBuffer` of backend/worker/runner.py, `append_logs` of backend/worker/store.py)

A flush takes all buffered lines and hands them to a thread. The thread stamps the rows one
by one, inserts them one by one (which gives each the next id) and commits. Nothing orders
the threads of two flushes.
-/

namespace JobScheduler
open Library

abbrev Entry := String × String

/- running: the call has not returned. -/
inductive CallState where
  | running
  | committed
  | raised
  deriving DecidableEq, Repr

/- A call of append_logs: the entries without a timestamp, the rows that are not inserted, and
the rows inserted in its transaction. -/
structure AppendCall where
  entries : List Entry
  rows : List (Time × Entry) := []
  inserted : List Routes.JobRunLog := []
  state : CallState := .running
  deriving Repr

structure LogBuffer where
  buf : List Entry := []
  calls : List AppendCall := []
  nextId : ℕ := 0
  table : List Routes.JobRunLog := []
  deriving Repr

/- What happens in a thread. The ids that inserts for other runs take are skipped. -/
inductive ThreadStep where
  | stamp (call : ℕ) (now : Time)
  | insert (call : ℕ) (skipped : ℕ)
  | commit (call : ℕ)
  | raise (call : ℕ)
  deriving DecidableEq, Repr

namespace LogBuffer

def flushEvery : ℕ := 25

/- flush: the number of the call that the flush waits for, none when there is nothing to do. -/
def flush (s : LogBuffer) : LogBuffer × Option ℕ :=
  if s.buf = [] then (s, none)
  else ({ s with buf := [], calls := s.calls ++ [{ entries := s.buf }] }, some s.calls.length)

def append (s : LogBuffer) (e : Entry) : LogBuffer := { s with buf := s.buf ++ [e] }

def write (s : LogBuffer) (e : Entry) : LogBuffer × Option ℕ :=
  if flushEvery ≤ (s.append e).buf.length then (s.append e).flush else (s.append e, none)

def setCall (s : LogBuffer) (k : ℕ) (c : AppendCall) : LogBuffer :=
  { s with calls := s.calls.set k c }

def stateOf (s : LogBuffer) (k : ℕ) : Option CallState := s.calls[k]?.map AppendCall.state

def thread (runId : RunId) (s : LogBuffer) : ThreadStep → Option LogBuffer
  | .stamp k now =>
    match s.calls[k]? with
    | some ⟨e :: es, rows, inserted, .running⟩ =>
      some (s.setCall k ⟨es, rows ++ [(now, e)], inserted, .running⟩)
    | _ => none
  | .insert k skipped =>
    match s.calls[k]? with
    | some ⟨[], row :: rows, inserted, .running⟩ =>
      let log := ⟨s.nextId + skipped, runId, row.1, row.2.1, row.2.2⟩
      some { s.setCall k ⟨[], rows, inserted ++ [log], .running⟩ with
        nextId := s.nextId + skipped + 1 }
    | _ => none
  | .commit k =>
    match s.calls[k]? with
    | some ⟨[], [], inserted, .running⟩ =>
      some { s.setCall k ⟨[], [], inserted, .committed⟩ with table := s.table ++ inserted }
    | _ => none
  | .raise k =>
    match s.calls[k]? with
    | some ⟨entries, rows, inserted, .running⟩ =>
      some (s.setCall k ⟨entries, rows, inserted, .raised⟩)
    | _ => none

end LogBuffer

/-! ### The lines of the calls -/

def logEntry (r : Routes.JobRunLog) : Entry := (r.stream, r.line)

/- The lines that a flush handed over. -/
def AppendCall.contents (c : AppendCall) : List Entry :=
  c.inserted.map logEntry ++ c.rows.map Prod.snd ++ c.entries

def AppendCall.persisted (c : AppendCall) : List Routes.JobRunLog :=
  if c.state = .committed then c.inserted else []

def AppendCall.inFlight (c : AppendCall) : List Entry :=
  if c.state = .running then c.contents else []

namespace LogBuffer

/- All lines passed to write, in this order. -/
def written (s : LogBuffer) : List Entry := s.calls.flatMap AppendCall.contents ++ s.buf

/- The committed rows in the order in which their lines were written. -/
def persisted (s : LogBuffer) : List Routes.JobRunLog := s.calls.flatMap AppendCall.persisted

/- The lines that were handed to append_logs and are not committed. -/
def inFlight (s : LogBuffer) : List Entry := s.calls.flatMap AppendCall.inFlight

def batches (s : LogBuffer) : List (List Entry) := s.calls.map AppendCall.contents

variable {s t : LogBuffer} {runId : RunId}

theorem written_flush (s : LogBuffer) : s.flush.1.written = s.written := by
  unfold flush
  split
  · rfl
  · simp [written, AppendCall.contents]

theorem written_write (s : LogBuffer) (e : Entry) :
    (s.write e).1.written = s.written ++ [e] := by
  have happend : (s.append e).written = s.written ++ [e] := by simp [append, written]
  unfold write
  split
  · rw [written_flush, happend]
  · exact happend

/- What write and flush do to the calls. -/
def Hands (s t : LogBuffer) : Option ℕ → Prop
  | none => t.calls = s.calls
  | some k => k = s.calls.length ∧ ∃ c, c.state = .running ∧ t.calls = s.calls ++ [c]

theorem hands_flush (s : LogBuffer) : Hands s s.flush.1 s.flush.2 := by
  unfold flush
  split
  · rfl
  · exact ⟨rfl, _, rfl, rfl⟩

theorem hands_write (s : LogBuffer) (e : Entry) : Hands s (s.write e).1 (s.write e).2 := by
  unfold write
  split
  · exact hands_flush (s.append e)
  · rfl

theorem buf_flush (s : LogBuffer) : s.flush.1.buf = [] := by
  unfold flush
  split
  · assumption
  · rfl

/-! ### What a thread does -/

inductive Move (runId : RunId) (s : LogBuffer) (before after : List AppendCall) :
    ThreadStep → AppendCall → LogBuffer → Prop where
  | stamp (now : Time) (e : Entry) (es : List Entry) (rows : List (Time × Entry))
      (inserted : List Routes.JobRunLog) :
      Move runId s before after (.stamp before.length now) ⟨e :: es, rows, inserted, .running⟩
        { s with calls := before ++ ⟨es, rows ++ [(now, e)], inserted, .running⟩ :: after }
  | insert (skipped : ℕ) (row : Time × Entry) (rows : List (Time × Entry))
      (inserted : List Routes.JobRunLog) :
      Move runId s before after (.insert before.length skipped) ⟨[], row :: rows, inserted, .running⟩
        { s with
          calls := before ++ ⟨[], rows,
            inserted ++ [⟨s.nextId + skipped, runId, row.1, row.2.1, row.2.2⟩], .running⟩ :: after
          nextId := s.nextId + skipped + 1 }
  | commit (inserted : List Routes.JobRunLog) :
      Move runId s before after (.commit before.length) ⟨[], [], inserted, .running⟩
        { s with
          calls := before ++ ⟨[], [], inserted, .committed⟩ :: after
          table := s.table ++ inserted }
  | raise (entries : List Entry) (rows : List (Time × Entry)) (inserted : List Routes.JobRunLog) :
      Move runId s before after (.raise before.length) ⟨entries, rows, inserted, .running⟩
        { s with calls := before ++ ⟨entries, rows, inserted, .raised⟩ :: after }

variable {s t : LogBuffer} {runId : RunId} {l : ThreadStep}

/- A thread moves its own call only. -/
theorem move_of_thread (h : s.thread runId l = some t) :
    ∃ before c after, s.calls = before ++ c :: after ∧ Move runId s before after l c t := by
  cases l with
  | stamp k now =>
    simp only [thread] at h
    split at h
    · rename_i e es rows inserted hk
      obtain ⟨before, after, hcalls, rfl, hset⟩ := Positions.exists_around hk
      cases h
      rw [setCall, hset]
      exact ⟨before, _, after, hcalls, .stamp now e es rows inserted⟩
    · cases h
  | insert k skipped =>
    simp only [thread] at h
    split at h
    · rename_i row rows inserted hk
      obtain ⟨before, after, hcalls, rfl, hset⟩ := Positions.exists_around hk
      cases h
      rw [setCall, hset]
      exact ⟨before, _, after, hcalls, .insert skipped row rows inserted⟩
    · cases h
  | commit k =>
    simp only [thread] at h
    split at h
    · rename_i inserted hk
      obtain ⟨before, after, hcalls, rfl, hset⟩ := Positions.exists_around hk
      cases h
      rw [setCall, hset]
      exact ⟨before, _, after, hcalls, .commit inserted⟩
    · cases h
  | raise k =>
    simp only [thread] at h
    split at h
    · rename_i entries rows inserted hk
      obtain ⟨before, after, hcalls, rfl, hset⟩ := Positions.exists_around hk
      cases h
      rw [setCall, hset]
      exact ⟨before, _, after, hcalls, .raise entries rows inserted⟩
    · cases h

/- A call that runs after the step ran before. -/
theorem running_thread (h : s.thread runId l = some t) {k : ℕ} {c : AppendCall}
    (hk : t.calls[k]? = some c) (hc : c.state = .running) :
    ∃ c', s.calls[k]? = some c' ∧ c'.state = .running := by
  obtain ⟨before, d, after, hcalls, hmove⟩ := move_of_thread h
  have hother : ∀ d', t.calls = before ++ d' :: after → d.state = .running →
      ∃ c', s.calls[k]? = some c' ∧ c'.state = .running := by
    intro d' ht hd
    rw [ht] at hk
    by_cases hkd : k = before.length
    · exact ⟨d, by simp [hcalls, hkd], hd⟩
    · refine ⟨c, ?_, hc⟩
      rw [← hk, hcalls]
      exact Positions.getElem?_around_of_ne before after hkd
  cases hmove with
  | stamp _ _ _ _ _ | insert _ _ _ _ | commit _ | raise _ _ _ => exact hother _ rfl rfl

theorem raised_thread (h : s.thread runId l = some t) {c : AppendCall} (hc : c ∈ t.calls)
    (hraised : c.state = .raised) : c ∈ s.calls ∨ ∃ k, l = .raise k := by
  obtain ⟨before, d, after, hcalls, hmove⟩ := move_of_thread h
  have hother : ∀ d', t.calls = before ++ d' :: after → d'.state ≠ .raised → c ∈ s.calls := by
    intro d' ht hd
    rw [ht] at hc
    rw [hcalls]
    rcases Positions.mem_rewrite d hc with rfl | hc
    · exact absurd hraised hd
    · exact hc
  cases hmove with
  | stamp _ _ _ _ _ | insert _ _ _ _ | commit _ =>
    exact Or.inl (hother _ rfl fun h => by cases h)
  | raise _ _ _ => exact Or.inr ⟨_, rfl⟩

theorem buf_thread (h : s.thread runId l = some t) : t.buf = s.buf := by
  obtain ⟨before, c, after, -, hmove⟩ := move_of_thread h
  cases hmove <;> rfl

/- A thread writes nothing. -/
theorem written_thread (h : s.thread runId l = some t) : t.written = s.written := by
  obtain ⟨before, c, after, hcalls, hmove⟩ := move_of_thread h
  cases hmove <;> simp [written, hcalls, AppendCall.contents, logEntry]

/- The table has the rows of the committed calls, and such a call has nothing left to do. -/
structure Stored (s : LogBuffer) : Prop where
  table : s.table.Perm s.persisted
  settled : ∀ c ∈ s.calls, c.state = .committed → c.entries = [] ∧ c.rows = []

theorem stored_empty : Stored {} where
  table := List.Perm.nil
  settled := fun _ hc => absurd hc List.not_mem_nil

theorem Stored.flush (hs : Stored s) : Stored s.flush.1 := by
  unfold LogBuffer.flush
  split
  · exact hs
  · constructor
    · simpa [persisted, AppendCall.persisted] using hs.table
    · intro c hc hcommitted
      rcases List.mem_append.mp hc with hc | hc
      · exact hs.settled c hc hcommitted
      · rw [List.mem_singleton.mp hc] at hcommitted
        cases hcommitted

theorem Stored.write (hs : Stored s) (e : Entry) : Stored (s.write e).1 := by
  have happend : Stored (s.append e) := ⟨hs.table, hs.settled⟩
  unfold LogBuffer.write
  split
  · exact happend.flush
  · exact happend

theorem Stored.thread (hs : Stored s) (h : s.thread runId l = some t) : Stored t := by
  obtain ⟨before, c, after, hcalls, hmove⟩ := move_of_thread h
  have htable := hs.table
  have hsettled := hs.settled
  rw [hcalls] at hsettled
  have hother : ∀ c' : AppendCall, (c'.state = .committed → c'.entries = [] ∧ c'.rows = []) →
      ∀ d ∈ before ++ c' :: after, d.state = .committed → d.entries = [] ∧ d.rows = [] := by
    intro c' hc' d hd
    rcases Positions.mem_rewrite c hd with rfl | hd
    · exact hc'
    · exact hsettled d hd
  cases hmove with
  | stamp _ _ _ _ _ | insert _ _ _ _ | raise _ _ _ =>
    exact ⟨by simpa [persisted, hcalls, AppendCall.persisted] using htable,
      hother _ fun h => by cases h⟩
  | commit inserted =>
    refine ⟨?_, hother _ fun _ => ⟨rfl, rfl⟩⟩
    have hold : s.table.Perm
        (before.flatMap AppendCall.persisted ++ after.flatMap AppendCall.persisted) := by
      simpa [persisted, hcalls, AppendCall.persisted] using htable
    have hnew : LogBuffer.persisted { s with
        calls := before ++ ⟨[], [], inserted, .committed⟩ :: after
        table := s.table ++ inserted } = before.flatMap AppendCall.persisted ++
          (inserted ++ after.flatMap AppendCall.persisted) := by
      simp [persisted, AppendCall.persisted]
    rw [hnew]
    have happend := hold.append_right inserted
    rw [List.append_assoc] at happend
    exact happend.trans (List.perm_append_comm.append_left _)

theorem persisted_sublist (s : LogBuffer) : (s.persisted.map logEntry).Sublist s.written := by
  unfold persisted written
  rw [List.map_flatMap]
  apply List.Sublist.trans _ (List.sublist_append_left _ _)
  apply List.Sublist.flatMap_right
  intro c _
  unfold AppendCall.persisted AppendCall.contents
  split
  · rw [List.append_assoc]
    exact List.sublist_append_left _ _
  · exact List.nil_sublist _

/- Everything is stored when all calls have committed and nothing is buffered. -/
theorem Stored.persisted_eq (hs : Stored s) (hcommitted : ∀ c ∈ s.calls, c.state = .committed)
    (hbuf : s.buf = []) : s.persisted.map logEntry = s.written := by
  unfold persisted written
  rw [List.map_flatMap, hbuf, List.append_nil]
  apply List.flatMap_congr
  intro c hc
  have hc' := hcommitted c hc
  obtain ⟨hentries, hrows⟩ := hs.settled c hc hc'
  simp [AppendCall.persisted, AppendCall.contents, hc', hentries, hrows]

/- The batch of a call that has not raised is stored or in flight. -/
theorem Stored.conserves (hs : Stored s) (hraised : ∀ c ∈ s.calls, c.state ≠ .raised) :
    (s.table.map logEntry ++ s.inFlight ++ s.buf).Perm s.written := by
  have hcall : ∀ c ∈ s.calls, c.persisted.map logEntry ++ c.inFlight = c.contents := by
    intro c hc
    unfold AppendCall.persisted AppendCall.inFlight
    cases hstate : c.state with
    | running => simp
    | committed =>
      obtain ⟨hentries, hrows⟩ := hs.settled c hc hstate
      simp [AppendCall.contents, hentries, hrows]
    | raised => exact absurd hstate (hraised c hc)
  have htable : (s.table.map logEntry).Perm
      (s.calls.flatMap fun c => c.persisted.map logEntry) := by
    rw [← List.map_flatMap]
    exact hs.table.map logEntry
  have hcalls := List.flatMap_append_perm s.calls (fun c => c.persisted.map logEntry)
    AppendCall.inFlight
  rw [List.flatMap_congr hcall] at hcalls
  exact ((htable.append_right _).trans hcalls).append_right _

/-! ### Who waits for a call -/

/- No call has raised, and a call that runs is waited for. -/
structure Awaited (s : LogBuffer) (waits : ℕ → Prop) : Prop where
  notRaised : ∀ c ∈ s.calls, c.state ≠ .raised
  waited : ∀ k c, s.calls[k]? = some c → c.state = .running → waits k

variable {waits waits' : ℕ → Prop}

theorem awaited_empty : Awaited {} waits where
  notRaised := fun _ hc => absurd hc List.not_mem_nil
  waited := fun _ _ hk => by cases hk

theorem Awaited.stateOf_ne_raised (hs : Awaited s waits) (k : ℕ) : s.stateOf k ≠ some .raised := by
  intro h
  obtain ⟨c, hk, hc⟩ := Option.map_eq_some_iff.mp h
  exact hs.notRaised c (List.mem_of_getElem? hk) hc

/- Who is woken by a call that has committed need not wait for it. -/
theorem Awaited.wake (hs : Awaited s waits)
    (h : ∀ k, waits k → waits' k ∨ s.stateOf k = some .committed) : Awaited s waits' where
  notRaised := hs.notRaised
  waited := by
    intro k c hk hc
    apply (h k (hs.waited k c hk hc)).resolve_right
    simp [stateOf, hk, hc]

/- A new call is waited for by the one who has started it. -/
theorem Awaited.hands (hs : Awaited s waits) {call : Option ℕ} (h : Hands s t call)
    (hnew : ∀ k, call = some k → waits k) : Awaited t waits := by
  cases call with
  | none =>
    have hcalls : t.calls = s.calls := h
    constructor
    · rw [hcalls]
      exact hs.notRaised
    · rw [hcalls]
      exact hs.waited
  | some n =>
    obtain ⟨rfl, d, hd, hcalls⟩ := h
    constructor
    · rw [hcalls]
      intro c hc
      rcases List.mem_append.mp hc with hc | hc
      · exact hs.notRaised c hc
      · rw [List.mem_singleton.mp hc, hd]
        simp
    · rw [hcalls]
      intro k c hk hc
      rcases Positions.concat_cases hk with hk | ⟨rfl, -⟩
      · exact hs.waited k c hk hc
      · exact hnew _ rfl

theorem Awaited.thread (hs : Awaited s waits) (hl : ∀ k, l ≠ .raise k)
    (h : s.thread runId l = some t) : Awaited t waits where
  notRaised := by
    intro c hc hraised
    rcases raised_thread h hc hraised with hc | ⟨k, hk⟩
    · exact hs.notRaised c hc hraised
    · exact hl k hk
  waited := by
    intro k c hk hc
    obtain ⟨c', hk', hc'⟩ := running_thread h hk hc
    exact hs.waited k c' hk' hc'

/- When nobody waits, every call has committed. -/
theorem Awaited.committed (hs : Awaited s waits) (h : ∀ k, ¬ waits k) :
    ∀ c ∈ s.calls, c.state = .committed := by
  intro c hc
  obtain ⟨k, hk⟩ := List.mem_iff_getElem?.mp hc
  cases hstate : c.state with
  | committed => rfl
  | raised => exact absurd hstate (hs.notRaised c hc)
  | running => exact absurd (hs.waited k c hk hstate) (h k)

/-! ### The order of the rows -/

/- A line that was handed over: its stream, and the timestamp and the id once it has them. -/
structure Slot where
  stream : String
  key : Option (Time × Option ℕ)
  deriving DecidableEq, Repr

def slotOfLog (r : Routes.JobRunLog) : Slot := ⟨r.stream, some (r.ts, some r.id)⟩

def slotOfRow (row : Time × Entry) : Slot := ⟨row.2.1, some (row.1, none)⟩

def slotOfEntry (e : Entry) : Slot := ⟨e.1, none⟩

end LogBuffer

open LogBuffer in
/- The rows of a call that has raised are never seen. -/
def AppendCall.slots (c : AppendCall) : List Slot :=
  if c.state = .raised then []
  else c.inserted.map slotOfLog ++ c.rows.map slotOfRow ++ c.entries.map slotOfEntry

namespace LogBuffer

def slots (s : LogBuffer) : List Slot := s.calls.flatMap AppendCall.slots

/- Line a was written before line b and has not been overtaken by it: b has its timestamp after
a and not an earlier one, and its id after a when the timestamps are equal. -/
def Precedes (a b : Slot) : Prop :=
  a.stream = b.stream → ∀ tb ib, b.key = some (tb, ib) →
    ∃ ta ia, a.key = some (ta, ia) ∧ ta ≤ tb ∧
      (ta = tb → ∀ j, ib = some j → ∃ i, ia = some i ∧ i < j)

structure InOrder (s : LogBuffer) : Prop where
  slots : s.slots.Pairwise Precedes
  ids : ∀ a ∈ s.slots, ∀ t i, a.key = some (t, some i) → i < s.nextId

/- The step does not let a line overtake one of its stream that was written before: a line gets
its timestamp when those have theirs, none of them later, and its id when those with the same
timestamp have theirs. -/
def inTurn (s : LogBuffer) : ThreadStep → Bool
  | .stamp k now =>
    match s.calls[k]? with
    | some ⟨e :: _, rows, inserted, .running⟩ =>
      ((s.calls.take k).flatMap AppendCall.slots ++ inserted.map slotOfLog ++
        rows.map slotOfRow).all fun a =>
          decide (a.stream ≠ e.1) || a.key.any fun key => decide (key.1 ≤ now)
    | _ => true
  | .insert k _ =>
    match s.calls[k]? with
    | some ⟨[], row :: _, inserted, .running⟩ =>
      ((s.calls.take k).flatMap AppendCall.slots ++ inserted.map slotOfLog).all fun a =>
        decide (a.stream ≠ row.2.1) ||
          a.key.all fun key => decide (key.1 ≠ row.1) || key.2.isSome
    | _ => true
  | _ => true

theorem inOrder_empty : InOrder {} where
  slots := List.Pairwise.nil
  ids := fun _ ha => absurd ha List.not_mem_nil

theorem InOrder.flush (hs : InOrder s) : InOrder s.flush.1 := by
  unfold LogBuffer.flush
  split
  · exact hs
  · have hslots : LogBuffer.slots { s with buf := [], calls := s.calls ++ [{ entries := s.buf }] } =
        s.slots ++ s.buf.map slotOfEntry := by
      simp [LogBuffer.slots, AppendCall.slots]
    have hkey : ∀ a ∈ s.buf.map slotOfEntry, a.key = none := by
      intro a ha
      obtain ⟨e, -, rfl⟩ := List.mem_map.mp ha
      rfl
    constructor
    · rw [hslots, List.pairwise_append]
      refine ⟨hs.slots, ?_, ?_⟩
      · apply List.pairwise_of_forall_mem_list
        intro a _ b hb _ tb ib hkb
        rw [hkey b hb] at hkb
        cases hkb
      · intro a _ b hb _ tb ib hkb
        rw [hkey b hb] at hkb
        cases hkb
    · rw [hslots]
      intro a ha t i hka
      rcases List.mem_append.mp ha with ha | ha
      · exact hs.ids a ha t i hka
      · rw [hkey a ha] at hka
        cases hka

theorem InOrder.write (hs : InOrder s) (e : Entry) : InOrder (s.write e).1 := by
  have happend : InOrder (s.append e) := ⟨hs.slots, hs.ids⟩
  unfold LogBuffer.write
  split
  · exact happend.flush
  · exact happend

/- A line gets its timestamp. -/
theorem precedes_stamped {a : Slot} {e : Entry} {now : Time}
    (h : (decide (a.stream ≠ e.1) || a.key.any fun key => decide (key.1 ≤ now)) = true) :
    Precedes a (slotOfRow (now, e)) := by
  intro hstream tb ib hkb
  cases hkb
  have hne : decide (a.stream ≠ e.1) = false := by simpa [slotOfRow] using hstream
  rw [hne, Bool.false_or, Option.any_eq_true] at h
  obtain ⟨key, hkey, hle⟩ := h
  refine ⟨key.1, key.2, hkey, of_decide_eq_true hle, ?_⟩
  intro _ j hj
  cases hj

/- What precedes an unstamped line is never stamped after it. -/
theorem precedes_of_unstamped {a b : Slot} (e : Entry) (h : Precedes (slotOfEntry e) b)
    (hstream : a.stream = e.1) : Precedes a b := by
  intro hab tb ib hkb
  obtain ⟨ta, ia, hnone, -⟩ := h (hstream.symm.trans hab) tb ib hkb
  cases hnone

/- A line gets its id. -/
theorem precedes_inserted {a : Slot} {row : Time × Entry} {r : Routes.JobRunLog}
    (hr : r.ts = row.1 ∧ r.stream = row.2.1) (hids : ∀ t i, a.key = some (t, some i) → i < r.id)
    (hbefore : Precedes a (slotOfRow row))
    (h : (decide (a.stream ≠ row.2.1) ||
      a.key.all fun key => decide (key.1 ≠ row.1) || key.2.isSome) = true) :
    Precedes a (slotOfLog r) := by
  intro hstream tb ib hkb
  cases hkb
  have hrow : a.stream = row.2.1 := hstream.trans hr.2
  obtain ⟨ta, ia, hkey, hle, -⟩ := hbefore hrow row.1 none rfl
  refine ⟨ta, ia, hkey, hr.1 ▸ hle, ?_⟩
  intro heq j hj
  cases hj
  rw [hkey] at h
  simp only [hrow, heq, hr.1, Option.all_some, ne_eq, not_true, decide_false, Bool.false_or] at h
  obtain ⟨i, rfl⟩ := Option.isSome_iff_exists.mp h
  exact ⟨i, rfl, hids ta i hkey⟩

theorem precedes_of_stamped {b : Slot} {row : Time × Entry} {r : Routes.JobRunLog}
    (hr : r.ts = row.1 ∧ r.stream = row.2.1) (h : Precedes (slotOfRow row) b) :
    Precedes (slotOfLog r) b := by
  intro hstream tb ib hkb
  obtain ⟨ta, ia, hkey, hle, hid⟩ := h (hr.2.symm.trans hstream) tb ib hkb
  cases hkey
  refine ⟨r.ts, some r.id, rfl, hr.1 ▸ hle, ?_⟩
  intro heq j hj
  obtain ⟨i, hnone, -⟩ := hid (hr.1.symm.trans heq) j hj
  cases hnone

/- One line gets a timestamp or an id. -/
theorem InOrder.rewrite (hs : InOrder s) {as bs : List Slot} {a b : Slot}
    (hold : s.slots = as ++ a :: bs) (hnew : t.slots = as ++ b :: bs)
    (hbefore : ∀ x ∈ as, Precedes x a → Precedes x b) (hafter : ∀ x, Precedes a x → Precedes b x)
    (hnext : s.nextId ≤ t.nextId) (hid : ∀ ts i, b.key = some (ts, some i) → i < t.nextId) :
    InOrder t where
  slots := by
    have hpairs := hs.slots
    rw [hold] at hpairs
    rw [hnew]
    exact Positions.pairwise_rewrite hpairs hbefore fun x _ => hafter x
  ids := by
    intro x hx ts i hkey
    rw [hnew] at hx
    rcases Positions.mem_rewrite a hx with rfl | hx
    · exact hid ts i hkey
    · exact (hs.ids x (hold ▸ hx) ts i hkey).trans_le hnext

theorem InOrder.thread (hs : InOrder s) (hturn : s.inTurn l = true)
    (h : s.thread runId l = some t) : InOrder t := by
  obtain ⟨before, c, after, hcalls, hmove⟩ := move_of_thread h
  have hat : s.calls[before.length]? = some c := by simp [hcalls]
  have htake : s.calls.take before.length = before := by simp [hcalls]
  cases hmove with
  | stamp now e es rows inserted =>
    simp only [inTurn, hat, htake, List.all_eq_true] at hturn
    have hold : s.slots = (before.flatMap AppendCall.slots ++ inserted.map slotOfLog ++
        rows.map slotOfRow) ++ slotOfEntry e ::
          (es.map slotOfEntry ++ after.flatMap AppendCall.slots) := by
      simp [LogBuffer.slots, hcalls, AppendCall.slots]
    have hnew : LogBuffer.slots { s with
        calls := before ++ ⟨es, rows ++ [(now, e)], inserted, .running⟩ :: after } =
          (before.flatMap AppendCall.slots ++ inserted.map slotOfLog ++ rows.map slotOfRow) ++
            slotOfRow (now, e) :: (es.map slotOfEntry ++ after.flatMap AppendCall.slots) := by
      simp [LogBuffer.slots, AppendCall.slots]
    exact hs.rewrite hold hnew (fun a ha _ => precedes_stamped (hturn a ha))
      (fun _ hb => precedes_of_unstamped e hb rfl) le_rfl fun _ _ hkey => by cases hkey
  | insert skipped row rows inserted =>
    simp only [inTurn, hat, htake, List.all_eq_true] at hturn
    have hold : s.slots = (before.flatMap AppendCall.slots ++ inserted.map slotOfLog) ++
        slotOfRow row :: (rows.map slotOfRow ++ after.flatMap AppendCall.slots) := by
      simp [LogBuffer.slots, hcalls, AppendCall.slots]
    have hnew : ∀ (r : Routes.JobRunLog) (n : ℕ), LogBuffer.slots { s with
        calls := before ++ ⟨[], rows, inserted ++ [r], .running⟩ :: after
        nextId := n } =
          (before.flatMap AppendCall.slots ++ inserted.map slotOfLog) ++
            slotOfLog r :: (rows.map slotOfRow ++ after.flatMap AppendCall.slots) := by
      intro r n
      simp [LogBuffer.slots, AppendCall.slots]
    apply hs.rewrite hold (hnew _ _)
    · intro a ha hax
      apply precedes_inserted ⟨rfl, rfl⟩ _ hax (hturn a ha)
      intro ts i hkey
      have hlt := hs.ids a (hold ▸ List.mem_append_left _ ha) ts i hkey
      show i < s.nextId + skipped
      omega
    · exact fun b hb => precedes_of_stamped ⟨rfl, rfl⟩ hb
    · show s.nextId ≤ s.nextId + skipped + 1
      omega
    · intro ts i hkey
      cases hkey
      exact Nat.lt_succ_self _
  | commit inserted =>
    have hslots : LogBuffer.slots { s with
        calls := before ++ ⟨[], [], inserted, .committed⟩ :: after
        table := s.table ++ inserted } = s.slots := by
      simp [LogBuffer.slots, hcalls, AppendCall.slots]
    constructor
    · rw [hslots]
      exact hs.slots
    · rw [hslots]
      exact hs.ids
  | raise entries rows inserted =>
    have hsub : (LogBuffer.slots { s with
        calls := before ++ ⟨entries, rows, inserted, .raised⟩ :: after }).Sublist s.slots := by
      simp only [LogBuffer.slots, hcalls, List.flatMap_append, List.flatMap_cons]
      apply List.Sublist.append_left
      exact (List.nil_sublist _).append_right _
    exact ⟨hs.slots.sublist hsub, fun a ha => hs.ids a (hsub.subset ha)⟩

def rowLE (a b : Routes.JobRunLog) : Bool :=
  decide (a.ts < b.ts) || (decide (a.ts = b.ts) && decide (a.id ≤ b.id))

theorem rowLE_iff {a b : Routes.JobRunLog} :
    rowLE a b = true ↔ a.ts < b.ts ∨ a.ts = b.ts ∧ a.id ≤ b.id := by
  simp [rowLE]

/- The rows of a run in the order of get_run_logs. -/
def ordered (rows : List Routes.JobRunLog) : List Routes.JobRunLog := rows.mergeSort rowLE

theorem ordered_pairwise (rows : List Routes.JobRunLog) :
    (ordered rows).Pairwise fun a b => a.ts < b.ts ∨ a.ts = b.ts ∧ a.id ≤ b.id := by
  have hsorted : (ordered rows).Pairwise fun a b => rowLE a b = true := by
    apply List.pairwise_mergeSort
    · intro a b c hab hbc
      rw [rowLE_iff] at hab hbc ⊢
      rcases hab with hab | ⟨hab, hid⟩
      · left
        rcases hbc with hbc | ⟨hbc, -⟩
        · exact hab.trans hbc
        · exact hbc ▸ hab
      · rw [hab]
        exact hbc.imp_right fun h => ⟨h.1, hid.trans h.2⟩
    · intro a b
      rw [Bool.or_eq_true, rowLE_iff, rowLE_iff]
      rcases lt_trichotomy a.ts b.ts with hlt | heq | hgt
      · exact Or.inl (Or.inl hlt)
      · rcases Nat.le_total a.id b.id with hid | hid
        · exact Or.inl (Or.inr ⟨heq, hid⟩)
        · exact Or.inr (Or.inr ⟨heq.symm, hid⟩)
      · exact Or.inr (Or.inl hgt)
  exact hsorted.imp fun h => rowLE_iff.mp h

theorem InOrder.persisted (hs : InOrder s) :
    s.persisted.Pairwise fun a b =>
      a.stream = b.stream → a.ts < b.ts ∨ a.ts = b.ts ∧ a.id < b.id := by
  have hsub : (s.persisted.map slotOfLog).Sublist s.slots := by
    unfold LogBuffer.persisted LogBuffer.slots
    rw [List.map_flatMap]
    apply List.Sublist.flatMap_right
    intro c _
    unfold AppendCall.persisted AppendCall.slots
    split
    · rename_i hc
      simp [hc]
    · exact List.nil_sublist _
  have hpairs := hs.slots.sublist hsub
  rw [List.pairwise_map] at hpairs
  apply hpairs.imp
  intro a b hab hstream
  obtain ⟨ta, ia, hkey, hle, hid⟩ := hab hstream b.ts (some b.id) rfl
  cases hkey
  rcases lt_or_eq_of_le hle with hlt | heq
  · exact Or.inl hlt
  · obtain ⟨i, hi, hlt⟩ := hid heq b.id rfl
    cases hi
    exact Or.inr ⟨heq, hlt⟩

/-- The rows of a stream are returned in the order in which its lines were written. -/
theorem InOrder.filter_ordered (hs : InOrder s) (htable : s.table.Perm s.persisted)
    (stream : String) : (ordered s.table).filter (fun r => decide (r.stream = stream)) =
      s.persisted.filter fun r => decide (r.stream = stream) := by
  have hlogs : (s.persisted.filter fun r => decide (r.stream = stream)).Pairwise
      fun a b => a.ts < b.ts ∨ a.ts = b.ts ∧ a.id < b.id := by
    rw [List.pairwise_filter]
    apply hs.persisted.imp
    intro a b hab ha hb
    exact hab ((of_decide_eq_true ha).trans (of_decide_eq_true hb).symm)
  have hperm := ((List.mergeSort_perm s.table rowLE).trans htable).filter
    fun r => decide (r.stream = stream)
  -- Two rows that are as early as each other are one row.
  have hkeys : ((s.persisted.filter fun r => decide (r.stream = stream)).map
      fun r => (r.ts, r.id)).Nodup := by
    apply List.pairwise_map.mpr
    apply hlogs.imp
    intro a b hab heq
    obtain ⟨hts, hid⟩ := Prod.mk.inj heq
    rcases hab with hlt | ⟨-, hlt⟩
    · exact hlt.ne hts
    · exact hlt.ne hid
  have honce := List.inj_on_of_nodup_map hkeys
  refine hperm.eq_of_pairwise ?_ ((ordered_pairwise s.table).filter _) (hlogs.imp ?_)
  · intro a b ha hb hab hba
    apply honce (hperm.subset ha) hb
    apply Prod.ext_iff.mpr
    rcases hab with hab | ⟨hts, hid⟩
    · rcases hba with hba | ⟨hts, -⟩
      · exact absurd hba hab.not_gt
      · exact absurd hts.symm hab.ne
    · rcases hba with hba | ⟨-, hid'⟩
      · exact absurd hts.symm hba.ne
      · exact ⟨hts, Nat.le_antisymm hid hid'⟩
  · intro a b hab
    exact hab.imp_right fun h => ⟨h.1, h.2.le⟩

end LogBuffer
end JobScheduler
