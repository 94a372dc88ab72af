import JobScheduler.Common.Models
import JobScheduler.Common.Text
import JobScheduler.Library.Machine
import JobScheduler.Library.Positions

/-!
# The main loop of a worker (`run` of backend/worker/main.py)

One iteration computes how many handlers the worker can take, asks XAUTOCLAIM for that many
messages and then XREADGROUP for as many again. The loop and the handlers are cut at their
awaits; what Redis answers is part of the label.
-/

namespace JobScheduler.WorkerMain
open Library

/- A message as redis-py returns it; one that is gone from the stream has no fields. -/
structure StreamMessage where
  id : String
  fields : Option (List (String × String))
  deriving DecidableEq, Repr

/- _parse_run_id -/
def parseRunId (fields : Option (List (String × String))) : Option ℤ :=
  fields.bind fun fs => (fs.lookup "run_id").bind Text.parseInt

/- Where a task of `handle` stands: before the semaphore, inside of it, done but still in
the set until its callback has run. -/
inductive Stage where
  | waiting
  | holding
  | finished
  deriving DecidableEq, Repr

structure Task where
  messageId : String
  runId : ℤ
  allowRunning : Bool
  stage : Stage
  deriving DecidableEq, Repr

/- The reply whose messages the loop goes through, and the count that a later XREADGROUP of
the iteration still uses. -/
inductive Source where
  | xautoclaim (count : ℤ)
  | xreadgroup
  deriving DecidableEq, Repr

inductive Position where
  | checking
  | sleeping
  | reclaiming (count : ℤ)
  | reading (count : ℤ)
  | dropping (source : Source) (acked : Bool) (rest : List StreamMessage)
  | draining
  | stopped
  | raised
  deriving DecidableEq, Repr

structure Worker where
  position : Position := .checking
  inflight : List Task := []
  stop : Bool := false
  deriving DecidableEq, Repr

/- A reply of none is an exception. -/
inductive Label where
  | signal
  | check
  | wake
  | xautoclaim (reply : Option (List StreamMessage))
  | xreadgroup (reply : Option (List StreamMessage))
  | acked
  | deleted
  | dropRaises
  | acquire (task : ℕ)
  | finish (task : ℕ)
  | discard (task : ℕ)
  | drained

def Source.allowRunning : Source → Bool
  | .xautoclaim _ => true
  | .xreadgroup => false

/- Where the loop stands after the last message of a reply. -/
def Source.after : Source → Position
  | .xautoclaim count => .reading count
  | .xreadgroup => .checking

def newTask (allowRunning : Bool) (m : StreamMessage) (runId : ℤ) : Task where
  messageId := m.id
  runId := runId
  allowRunning := allowRunning
  stage := .waiting

/- The tasks that are spawned before the first message without a run id, and the messages
from there on. -/
def spawnAll (allowRunning : Bool) : List StreamMessage → List Task × List StreamMessage
  | [] => ([], [])
  | m :: ms =>
    match parseRunId m.fields with
    | none => ([], m :: ms)
    | some runId =>
      (newTask allowRunning m runId :: (spawnAll allowRunning ms).1, (spawnAll allowRunning ms).2)

namespace Worker

/- The permits of the semaphore that are taken. -/
def holding (s : Worker) : ℕ := s.inflight.countP fun t => decide (t.stage = .holding)

/- The loop over the messages of a reply, up to the XACK of one without a run id. -/
def enter (s : Worker) (source : Source) (messages : List StreamMessage) : Worker :=
  { s with
    inflight := s.inflight ++ (spawnAll source.allowRunning messages).1
    position :=
      match (spawnAll source.allowRunning messages).2 with
      | [] => source.after
      | _ :: rest => .dropping source false rest }

section
variable (cfg : Settings)

def step (s : Worker) : Label → Option Worker
  | .signal => some { s with stop := true }
  | .check =>
    match s.position with
    | .checking =>
      if s.stop then some { s with position := .draining }
      else
        let capacity := cfg.workerConcurrency - s.inflight.length
        if capacity ≤ 0 then some { s with position := .sleeping }
        else some { s with position := .reclaiming (min capacity cfg.workerReadBatch) }
    | _ => none
  | .wake =>
    match s.position with
    | .sleeping => some { s with position := .checking }
    | _ => none
  | .xautoclaim reply =>
    match s.position, reply with
    | .reclaiming count, none => some { s with position := .reading count }
    | .reclaiming count, some messages =>
      if (messages.length : ℤ) ≤ count then some (s.enter (.xautoclaim count) messages) else none
    | _, _ => none
  | .xreadgroup reply =>
    match s.position, reply with
    | .reading _, none => some { s with position := .sleeping }
    | .reading count, some messages =>
      if (messages.length : ℤ) ≤ count then some (s.enter .xreadgroup messages) else none
    | _, _ => none
  | .acked =>
    match s.position with
    | .dropping source false rest => some { s with position := .dropping source true rest }
    | _ => none
  | .deleted =>
    match s.position with
    | .dropping source true rest => some (s.enter source rest)
    | _ => none
  | .dropRaises =>
    match s.position with
    | .dropping _ _ _ => some { s with position := .raised }
    | _ => none
  | .acquire k =>
    match s.inflight[k]? with
    | some t =>
      if t.stage = .waiting ∧ (s.holding : ℤ) < cfg.workerConcurrency then
        some { s with inflight := s.inflight.set k { t with stage := .holding } }
      else none
    | none => none
  | .finish k =>
    -- A run() that has raised cancels the tasks that wait for the semaphore too.
    match s.inflight[k]? with
    | some t =>
      if t.stage = .holding ∨ t.stage = .waiting ∧ s.position = .raised then
        some { s with inflight := s.inflight.set k { t with stage := .finished } }
      else none
    | none => none
  | .discard k =>
    match s.inflight[k]? with
    | some t =>
      if t.stage = .finished then some { s with inflight := s.inflight.eraseIdx k } else none
    | none => none
  | .drained =>
    match s.position with
    | .draining =>
      if s.inflight.all fun t => decide (t.stage = .finished) then
        some { s with position := .stopped }
      else none
    | _ => none

/- bounded: len(inflight) is at most worker_concurrency.
free: a handler before the semaphore finds a permit. -/
structure WithinCapacity (s : Worker) : Prop where
  bounded : (s.inflight.length : ℤ) ≤ cfg.workerConcurrency
  free : ∀ t ∈ s.inflight, t.stage = .waiting → (s.holding : ℤ) < cfg.workerConcurrency

/-! ### What a step does -/

inductive Trans (s : Worker) : Label → Worker → Prop where
  | signal : Trans s .signal { s with stop := true }
  | leaves : s.position = .checking → s.stop = true →
      Trans s .check { s with position := .draining }
  | full : s.position = .checking → s.stop = false →
      cfg.workerConcurrency - s.inflight.length ≤ 0 →
      Trans s .check { s with position := .sleeping }
  | polls : s.position = .checking → s.stop = false →
      0 < cfg.workerConcurrency - s.inflight.length → Trans s .check
      { s with position :=
          .reclaiming (min (cfg.workerConcurrency - s.inflight.length) cfg.workerReadBatch) }
  | wake : s.position = .sleeping → Trans s .wake { s with position := .checking }
  | reclaimFails (count : ℤ) : s.position = .reclaiming count →
      Trans s (.xautoclaim none) { s with position := .reading count }
  | reclaims (count : ℤ) (messages : List StreamMessage) : s.position = .reclaiming count →
      (messages.length : ℤ) ≤ count →
      Trans s (.xautoclaim (some messages)) (s.enter (.xautoclaim count) messages)
  | readFails (count : ℤ) : s.position = .reading count →
      Trans s (.xreadgroup none) { s with position := .sleeping }
  | reads (count : ℤ) (messages : List StreamMessage) : s.position = .reading count →
      (messages.length : ℤ) ≤ count →
      Trans s (.xreadgroup (some messages)) (s.enter .xreadgroup messages)
  | acked (source : Source) (rest : List StreamMessage) : s.position = .dropping source false rest →
      Trans s .acked { s with position := .dropping source true rest }
  | deleted (source : Source) (rest : List StreamMessage) :
      s.position = .dropping source true rest → Trans s .deleted (s.enter source rest)
  | dropRaises (source : Source) (acked : Bool) (rest : List StreamMessage) :
      s.position = .dropping source acked rest →
      Trans s .dropRaises { s with position := .raised }
  | acquire (k : ℕ) (task : Task) : s.inflight[k]? = some task → task.stage = .waiting →
      (s.holding : ℤ) < cfg.workerConcurrency →
      Trans s (.acquire k) { s with inflight := s.inflight.set k { task with stage := .holding } }
  | finish (k : ℕ) (task : Task) : s.inflight[k]? = some task →
      task.stage = .holding ∨ task.stage = .waiting ∧ s.position = .raised →
      Trans s (.finish k) { s with inflight := s.inflight.set k { task with stage := .finished } }
  | discard (k : ℕ) (task : Task) : s.inflight[k]? = some task → task.stage = .finished →
      Trans s (.discard k) { s with inflight := s.inflight.eraseIdx k }
  | drained : s.position = .draining → (∀ task ∈ s.inflight, task.stage = .finished) →
      Trans s .drained { s with position := .stopped }

end

variable {cfg : Settings} {s t : Worker} {l : Label}

theorem trans_of_check (h : s.step cfg .check = some t) : Trans cfg s .check t := by
  unfold step at h
  dsimp only at h
  split at h
  · rename_i hpos
    split at h
    · rename_i hstop
      cases h
      exact .leaves hpos hstop
    · rename_i hstop
      have hstop : s.stop = false := by simpa using hstop
      split at h
      · rename_i hfull
        cases h
        exact .full hpos hstop hfull
      · rename_i hroom
        cases h
        exact .polls hpos hstop (Int.not_le.mp hroom)
  · cases h

/- A reply of Redis reaches the loop. -/
theorem trans_of_reply {reply : Option (List StreamMessage)}
    (hl : l = .xautoclaim reply ∨ l = .xreadgroup reply) (h : s.step cfg l = some t) :
    Trans cfg s l t := by
  rcases hl with rfl | rfl
  · simp only [step] at h
    split at h
    · rename_i count hpos
      cases h
      exact .reclaimFails count hpos
    · rename_i count messages hpos
      split at h
      · rename_i hlen
        cases h
        exact .reclaims count messages hpos hlen
      · cases h
    · cases h
  · simp only [step] at h
    split at h
    · rename_i count hpos
      cases h
      exact .readFails count hpos
    · rename_i count messages hpos
      split at h
      · rename_i hlen
        cases h
        exact .reads count messages hpos hlen
      · cases h
    · cases h

/- A handler moves. -/
theorem trans_of_task {k : ℕ} (hl : l = .acquire k ∨ l = .finish k ∨ l = .discard k)
    (h : s.step cfg l = some t) : Trans cfg s l t := by
  cases hk : s.inflight[k]? with
  | none => rcases hl with rfl | rfl | rfl <;> simp [step, hk] at h
  | some task =>
    rcases hl with rfl | rfl | rfl <;>
      simp only [step, hk, Option.ite_none_right_eq_some, Option.some.injEq] at h
    · obtain ⟨⟨hwait, hfree⟩, rfl⟩ := h
      exact .acquire k task hk hwait hfree
    · obtain ⟨hstage, rfl⟩ := h
      exact .finish k task hk hstage
    · obtain ⟨hdone, rfl⟩ := h
      exact .discard k task hk hdone

theorem trans_of_step (h : s.step cfg l = some t) : Trans cfg s l t := by
  cases l with
  | signal =>
    cases h
    exact .signal
  | check => exact trans_of_check h
  | wake =>
    unfold step at h
    dsimp only at h
    split at h
    · rename_i hpos
      cases h
      exact .wake hpos
    · cases h
  | xautoclaim reply => exact trans_of_reply (Or.inl rfl) h
  | xreadgroup reply => exact trans_of_reply (Or.inr rfl) h
  | acked =>
    unfold step at h
    dsimp only at h
    split at h
    · rename_i source rest hpos
      cases h
      exact .acked source rest hpos
    · cases h
  | deleted =>
    unfold step at h
    dsimp only at h
    split at h
    · rename_i source rest hpos
      cases h
      exact .deleted source rest hpos
    · cases h
  | dropRaises =>
    unfold step at h
    dsimp only at h
    split at h
    · rename_i source acked rest hpos
      cases h
      exact .dropRaises source acked rest hpos
    · cases h
  | acquire k => exact trans_of_task (Or.inl rfl) h
  | finish k => exact trans_of_task (Or.inr (Or.inl rfl)) h
  | discard k => exact trans_of_task (Or.inr (Or.inr rfl)) h
  | drained =>
    unfold step at h
    dsimp only at h
    split at h
    · rename_i hpos
      split at h
      · rename_i hall
        cases h
        exact .drained hpos fun task htask => of_decide_eq_true (List.all_eq_true.mp hall task htask)
      · cases h
    · cases h

/-! ### What XAUTOCLAIM adds -/

/- The messages of an XREADGROUP reply that the loop goes through in a step. -/
def read (s : Worker) : Label → Option (List StreamMessage)
  | .xreadgroup (some messages) =>
    match s.position with
    | .reading count => if (messages.length : ℤ) ≤ count then some messages else none
    | _ => none
  | .deleted =>
    match s.position with
    | .dropping .xreadgroup true rest => some rest
    | _ => none
  | _ => none

theorem length_spawnAll (allowRunning : Bool) (messages : List StreamMessage) :
    (spawnAll allowRunning messages).1.length + (spawnAll allowRunning messages).2.length =
      messages.length := by
  induction messages with
  | nil => rfl
  | cons m ms ih =>
    simp only [spawnAll]
    split
    · simp
    · simp only [List.length_cons]
      omega

/- The messages that XAUTOCLAIM may still add before the loop waits for XREADGROUP. -/
def claims (p : Position) : ℤ :=
  match p with
  | .reclaiming count => max count 0
  | .dropping (.xautoclaim _) _ rest => rest.length
  | _ => 0

theorem length_enter (source : Source) (messages : List StreamMessage) :
    (s.enter source messages).inflight.length =
      s.inflight.length + (spawnAll source.allowRunning messages).1.length := by
  simp [enter]

/- The messages that follow one without a run id are fewer. -/
theorem claims_enter (source : Source) (messages : List StreamMessage) :
    ((s.enter source messages).inflight.length : ℤ) + claims (s.enter source messages).position ≤
      s.inflight.length + messages.length := by
  have hsplit := length_spawnAll source.allowRunning messages
  rw [length_enter]
  unfold enter
  cases hrest : (spawnAll source.allowRunning messages).2 with
  | nil =>
    have hafter : claims source.after = 0 := by cases source <;> rfl
    simp only [hrest, List.length_nil] at hsplit ⊢
    omega
  | cons m rest =>
    have hdrop : claims (.dropping source false rest) ≤ rest.length := by
      cases source <;> simp [claims]
    simp only [hrest, List.length_cons] at hsplit ⊢
    omega

theorem claims_xreadgroup (messages : List StreamMessage) :
    claims (s.enter .xreadgroup messages).position = 0 := by
  unfold enter
  cases (spawnAll Source.xreadgroup.allowRunning messages).2 <;> rfl

theorem claims_nonneg (p : Position) : 0 ≤ claims p := by
  unfold claims
  split <;> omega

/- The handlers and what XAUTOCLAIM may still add to them stay within what they were or within the
capacity, except when the loop goes through messages of XREADGROUP. -/
theorem claims_le (h : Trans cfg s l t) (hread : s.read l = none) :
    (t.inflight.length : ℤ) + claims t.position ≤
      max (s.inflight.length + claims s.position) cfg.workerConcurrency := by
  have hnonneg := claims_nonneg s.position
  -- The loop moves to a place from where XAUTOCLAIM adds nothing.
  have hmove : ∀ p, claims p = 0 → (s.inflight.length : ℤ) + claims p ≤
      max (s.inflight.length + claims s.position) cfg.workerConcurrency := by
    intro p hp
    omega
  cases h with
  | signal => exact le_max_left _ _
  | leaves _ _ | full _ _ _ | wake _ | reclaimFails _ _ | readFails _ _ | dropRaises _ _ _ _
  | drained _ _ => exact hmove _ rfl
  | polls _ _ hroom =>
    simp only [claims]
    omega
  | reclaims count messages hpos hlen =>
    have henter := claims_enter (s := s) (.xautoclaim count) messages
    rw [hpos]
    simp only [claims] at henter ⊢
    omega
  | reads count messages hpos hlen => simp [read, hpos, hlen] at hread
  | acked source rest hpos =>
    rw [hpos]
    cases source <;> simp [claims]
  | deleted source rest hpos =>
    cases source with
    | xreadgroup => simp [read, hpos] at hread
    | xautoclaim count =>
      have henter := claims_enter (s := s) (.xautoclaim count) rest
      rw [hpos]
      simp only [claims] at henter ⊢
      omega
  | acquire _ _ _ _ _ | finish _ _ _ _ => simp
  | discard k _ _ _ =>
    have hle := List.length_eraseIdx_le s.inflight k
    dsimp only
    omega

/- The invariant: what XAUTOCLAIM may still add fits into the capacity. -/
def Room (cfg : Settings) (s : Worker) : Prop :=
  (s.inflight.length : ℤ) + claims s.position ≤ cfg.workerConcurrency

theorem Room.within (hs : Room cfg s) : WithinCapacity cfg s := by
  have hnonneg := claims_nonneg s.position
  unfold Room at hs
  constructor
  · omega
  · intro t ht hwait
    have hne : s.holding ≠ s.inflight.length := by
      intro hall
      have hhold := List.countP_eq_length.mp hall t ht
      simp [hwait] at hhold
    have hle : s.holding ≤ s.inflight.length := List.countP_le_length
    omega

theorem room_start (h : 0 ≤ cfg.workerConcurrency) : Room cfg {} := by
  simpa [Room, claims] using h

/-! ### Iterations -/

/- The messages of a reply before the first one without a run id: each of them becomes a handler. -/
def runs (messages : List StreamMessage) : ℕ :=
  (messages.takeWhile fun m => (parseRunId m.fields).isSome).length

/- What the iteration of the loop has got so far: the capacity at its check, the messages of its
XAUTOCLAIM and of its XREADGROUP that became handlers, and the handlers that have been done since. -/
structure Iteration where
  capacity : ℤ
  reclaimed : ℕ := 0
  read : ℕ := 0
  completed : ℕ := 0

def Iteration.next (cfg : Settings) (it : Iteration) (s : Worker) : Label → Iteration
  | .check => { capacity := cfg.workerConcurrency - s.inflight.length }
  | .xautoclaim (some messages) => { it with reclaimed := it.reclaimed + runs messages }
  | .xreadgroup (some messages) => { it with read := it.read + runs messages }
  | .deleted =>
    match s.position with
    | .dropping (.xautoclaim _) _ rest => { it with reclaimed := it.reclaimed + runs rest }
    | .dropping .xreadgroup _ rest => { it with read := it.read + runs rest }
    | _ => it
  | .discard _ => { it with completed := it.completed + 1 }
  | _ => it

structure Counted where
  worker : Worker
  iteration : Iteration

namespace Counted

def start (cfg : Settings) : Counted := ⟨{}, { capacity := cfg.workerConcurrency }⟩

def step (cfg : Settings) (s : Counted) (l : Label) : Option Counted :=
  (s.worker.step cfg l).map fun t => ⟨t, s.iteration.next cfg s.worker l⟩

/- The XREADGROUP reply, as far as the loop has come, and the XAUTOCLAIM reply of the iteration bring
no more runs than the capacity at the check and the handlers done since. -/
def RepliesFit (s : Counted) (l : Label) : Prop :=
  ∀ messages ∈ s.worker.read l,
    (s.iteration.reclaimed + s.iteration.read + runs messages : ℤ) ≤
      s.iteration.capacity + s.iteration.completed

instance (s : Counted) (l : Label) : Decidable (s.RepliesFit l) :=
  inferInstanceAs (Decidable (∀ messages ∈ s.worker.read l, _))

theorem step_eq_some {s t : Counted} (h : s.step cfg l = some t) :
    Trans cfg s.worker l t.worker ∧ t.iteration = s.iteration.next cfg s.worker l := by
  obtain ⟨u, hu, rfl⟩ := Option.map_eq_some_iff.mp h
  exact ⟨trans_of_step hu, rfl⟩

end Counted

theorem length_runs (allowRunning : Bool) (messages : List StreamMessage) :
    (spawnAll allowRunning messages).1.length = runs messages := by
  induction messages with
  | nil => rfl
  | cons m ms ih =>
    simp only [spawnAll, runs, List.takeWhile_cons] at ih ⊢
    cases hid : parseRunId m.fields with
    | none => rfl
    | some runId => simp [ih]

/- What happened since the check accounts for the handlers that there are. -/
def Counted.Balanced (cfg : Settings) (s : Counted) : Prop :=
  (s.worker.inflight.length : ℤ) + s.iteration.capacity + s.iteration.completed =
    cfg.workerConcurrency + s.iteration.reclaimed + s.iteration.read

theorem Counted.Balanced.step {s t : Counted} (hs : s.Balanced cfg) (h : s.step cfg l = some t) :
    t.Balanced cfg := by
  obtain ⟨htrans, hnext⟩ := step_eq_some h
  unfold Balanced at hs ⊢
  rw [hnext]
  generalize t.worker = u at htrans
  cases htrans with
  | leaves _ _ | full _ _ _ | polls _ _ _ =>
    simp only [Iteration.next]
    omega
  | reclaims count messages hpos hlen | reads count messages hpos hlen =>
    rw [length_enter, length_runs]
    simp only [Iteration.next]
    omega
  | deleted source rest hpos =>
    rw [length_enter, length_runs]
    simp only [Iteration.next, hpos]
    cases source <;> dsimp only <;> omega
  | acquire _ _ _ _ _ | finish _ _ _ _ =>
    rw [List.length_set]
    exact hs
  | discard k task hk hdone =>
    have hlt := (List.getElem?_eq_some_iff.mp hk).1
    rw [List.length_eraseIdx_of_lt hlt]
    simp only [Iteration.next]
    omega
  | _ => exact hs

theorem Counted.balanced_start (cfg : Settings) : (Counted.start cfg).Balanced cfg := by
  simp [Balanced, start]

/- The step that goes through messages of XREADGROUP spawns their handlers. -/
theorem step_read {messages : List StreamMessage} (h : s.read l = some messages) :
    s.step cfg l = some (s.enter .xreadgroup messages) := by
  unfold read at h
  split at h
  · rename_i reply
    split at h
    · rename_i count hpos
      split at h
      · rename_i hcount
        cases h
        simp [step, hpos, hcount]
      · cases h
    · cases h
  · split at h
    · rename_i rest hpos
      cases h
      simp [step, hpos]
    · cases h
  · cases h

theorem Room.step {s t : Counted} (hs : Room cfg s.worker) (hbal : s.Balanced cfg)
    (hfit : s.RepliesFit l) (h : s.step cfg l = some t) : Room cfg t.worker := by
  obtain ⟨u, hu, rfl⟩ := Option.map_eq_some_iff.mp h
  cases hread : s.worker.read l with
  | none =>
    have hle := claims_le (trans_of_step hu) hread
    unfold Room at hs ⊢
    dsimp only
    omega
  | some messages =>
    have hfits := hfit messages hread
    cases hu.symm.trans (step_read hread)
    unfold Room
    unfold Counted.Balanced at hbal
    dsimp only
    rw [claims_xreadgroup, length_enter, length_runs]
    omega

/-- A worker never takes more than its capacity exactly when in every iteration the replies of
XAUTOCLAIM and XREADGROUP together bring no more runs than it had capacity for at its check and
handlers done since. -/
theorem withinCapacity_iff_repliesFit (cfg : Settings) (ls : List Label)
    (hc : 1 ≤ cfg.workerConcurrency) :
    Machine.Visits (step cfg) (WithinCapacity cfg) {} ls ↔
      Machine.Along (Counted.step cfg) Counted.RepliesFit (Counted.start cfg) ls := by
  have hmap : ∀ (s : Counted) l, step cfg s.worker l = (s.step cfg l).map Counted.worker := by
    intro s l
    cases hstep : step cfg s.worker l <;> simp [Counted.step, hstep]
  have hcounted : Machine.Visits (Counted.step cfg) (fun s => WithinCapacity cfg s.worker)
      (Counted.start cfg) ls ↔ Machine.Visits (step cfg) (WithinCapacity cfg) {} ls :=
    Machine.visits_map_iff hmap
  refine hcounted.symm.trans ⟨fun hvis => ?_, fun hfits => ?_⟩
  · refine Machine.along_of_invariant (I := Counted.Balanced cfg) (fun _ _ _ hs _ h => hs.step h) ?_
      (Counted.balanced_start cfg) hvis.along
    intro s l hbal hnext messages hread
    have hstep : s.step cfg l =
        some ⟨s.worker.enter .xreadgroup messages, s.iteration.next cfg s.worker l⟩ := by
      rw [Counted.step, step_read hread, Option.map_some]
    have hbound := (hnext _ hstep).bounded
    rw [length_enter, length_runs] at hbound
    unfold Counted.Balanced at hbal
    push_cast at hbound
    omega
  · refine Machine.visits_of_invariant (I := fun s => Room cfg s.worker ∧ s.Balanced cfg)
      (fun s l t hs hfit h => ⟨hs.1.step hs.2 hfit h, hs.2.step h⟩) (fun _ hs => hs.1.within)
      ⟨room_start (by omega), Counted.balanced_start cfg⟩ hfits

/- The message of run n with stream id m. -/
def runMessage (m : String) (n : ℕ) : StreamMessage := ⟨m, some [("run_id", toString n)]⟩

/- A worker with room for one handler: a message without a run id is dropped, and then the
loop goes on with the message that XREADGROUP returns. -/
theorem withinCapacity_one :
    Machine.Visits (step { workerConcurrency := 1 }) (WithinCapacity { workerConcurrency := 1 }) {}
      [.check, .xautoclaim (some [⟨"1-0", none⟩]), .acked, .deleted,
        .xreadgroup (some [runMessage "2-0" 7]), .acquire 0, .check] :=
  (withinCapacity_iff_repliesFit { workerConcurrency := 1 } _ (by decide)).mpr (by decide)

/- Both replies bring a message; the second handler waits for the first one to finish. -/
theorem reads_past_capacity :
    ∃ s, Machine.run (step { workerConcurrency := 1 }) {}
        [.check, .xautoclaim (some [runMessage "1-0" 7]), .acquire 0,
          .xreadgroup (some [runMessage "2-0" 8])] = some s ∧
      ¬ WithinCapacity { workerConcurrency := 1 } s := by
  have hall : (Machine.run (step { workerConcurrency := 1 }) {}
      [.check, .xautoclaim (some [runMessage "1-0" 7]), .acquire 0,
        .xreadgroup (some [runMessage "2-0" 8])]).any (fun s =>
          decide (s.inflight.length = 2)) = true := by
    decide
  obtain ⟨s, hs, hall⟩ := (Option.any_eq_true _ _).mp hall
  refine ⟨s, hs, ?_⟩
  intro hwithin
  have hbound := hwithin.bounded
  rw [of_decide_eq_true hall] at hbound
  exact absurd hbound (by decide)

end Worker
end JobScheduler.WorkerMain
