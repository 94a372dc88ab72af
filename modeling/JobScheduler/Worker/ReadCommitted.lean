import JobScheduler.Library.Machine
import JobScheduler.Worker.Executor
import JobScheduler.Worker.Store

/-!
# create_dependency_run statement by statement

The engine sets no isolation level, so PostgreSQL runs every transaction at READ
COMMITTED: a statement sees what is committed when it begins, and an UPDATE waits for a
transaction that has written the row and then goes on with the row as that one left it.
create_dependency_run is cut at its statements here; claim_run, cancel_run and finish_run
are one UPDATE each, and their transactions are taken at the commit of it.
-/

namespace JobScheduler.ReadCommitted
open Library Positions Database Store

/- Where a create_dependency_run transaction stands. A session in `flushed` has written the
row and holds its lock until it commits. -/
inductive Session where
  | begun (jobId : JobId)
  | checked (jobId : JobId)
  | read (pending : RunId)
  | absent (jobId : JobId)
  | flushed (pending : RunId)
  | done (result : Option RunId)
  | raised
  deriving DecidableEq, Repr

structure State where
  db : Database
  sessions : List Session := []

def start (db : Database) : State := { db := db }

inductive Label where
  | createDependencyRun (jobId : JobId)
  | statement (session : ℕ) (now : Time)
  | claimRun (runId : RunId) (workerId : WorkerId) (allowRunning : Bool) (now : Time)
  | cancelRun (runId : RunId) (now : Time)
  | finishRun (runId : RunId) (res : ExecResult) (error : Option String) (now : Time)

namespace State

def locked (s : State) (p : RunId) : Bool := s.sessions.contains (.flushed p)

/- Some transaction has read p and not written it yet. -/
def reading (s : State) (p : RunId) : Bool := s.sessions.contains (.read p)

def set (s : State) (i : ℕ) (x : Session) : State := { s with sessions := s.sessions.set i x }

end State

/- The next statement of a session. A row that was only inserted is invisible to the
others, so the INSERT is taken together with its commit. -/
def next (s : State) (now : Time) : Session → Option (Database × Session)
  | .begun j => some (s.db, if s.db.hasDispatchedRun j then .done none else .checked j)
  | .checked j =>
    match s.db.pendingRun j with
    | some pending => some (s.db, .read pending.id)
    | none => some (s.db, .absent j)
  | .read p => if s.locked p then none else some (s.db, .flushed p)
  | .absent j =>
    match s.db.insertRun (dependencyRow j now) with
    | none => some (s.db, .raised)
    | some (db', i) => some (db', .done (some i))
  | .flushed p => some (promoteRun s.db p, .done (some p))
  | .done _ | .raised => none

/- A conditional UPDATE of run p: it waits for the lock if it selects the row. -/
def write (s : State) (p : RunId) (g : RunStatus → Bool) (db' : Database) : Option State :=
  if matchesRun s.db p g && s.locked p then none else some { s with db := db' }

def step (s : State) : Label → Option State
  | .createDependencyRun j => some { s with sessions := s.sessions ++ [.begun j] }
  | .statement i now =>
    (s.sessions[i]?).bind fun x => (next s now x).map fun (db', y) => { s with db := db' }.set i y
  | .claimRun p w allow now =>
    write s p (claimable allow) (claimRun s.db p w allow now).1
  | .cancelRun p now => write s p RunStatus.active (cancelRun s.db p now).1
  | .finishRun p res error now =>
    write s p finishable
      (finishRun s.db p res.status.runStatus res.exitCode res.result error now)

/-! ### The statements one by one -/

/- The run, the WHERE clause and the new status of an UPDATE. -/
def Label.write? : Label → Option (RunId × (RunStatus → Bool) × RunStatus)
  | .claimRun p _ allow _ => some (p, claimable allow, .running)
  | .cancelRun p _ => some (p, RunStatus.active, .canceled)
  | .finishRun p res _ _ => some (p, finishable, res.status.runStatus)
  | _ => none

theorem write?_ne_pending {l : Label} {p : RunId} {g : RunStatus → Bool} {st : RunStatus}
    (h : l.write? = some (p, g, st)) : st ≠ .pending := by
  cases l with
  | claimRun _ _ _ _ | cancelRun _ _ =>
    cases h
    exact fun hp => by cases hp
  | finishRun p res error now =>
    cases h
    intro hp
    have hterm := res.status.runStatus_terminal
    rw [hp] at hterm
    cases hterm
  | _ => cases h

/- How the statuses of the runs change when run p gets status st. -/
def Sets (db db' : Database) (p : RunId) (g : RunStatus → Bool) (st : RunStatus) : Prop :=
  ∀ q, db'.statusOf q = if q = p ∧ matchesRun db p g = true then some st else db.statusOf q

theorem sets_updateRun (db : Database) (p : RunId) (g : RunStatus → Bool) (f : JobRun → JobRun)
    (hf : KeepsRun f) {st : RunStatus} (hst : ∀ r, (f r).status = st) :
    Sets db (updateRun db p g f hf) p g st := by
  intro q
  rw [statusOf, get_updateRun]
  by_cases hq : q = p
  · subst hq
    rw [if_pos rfl]
    cases hr : db.runs.get q with
    | none =>
      have hno : matchesRun db q g ≠ true := by
        rw [Ne, matchesRun_iff, hr]
        exact fun h => by obtain ⟨_, h, -⟩ := h; cases h
      rw [if_neg fun h => hno h.2, statusOf, hr]
      rfl
    | some r =>
      have hm : matchesRun db q g = true ↔ g r.status = true := by
        rw [matchesRun_iff, hr]
        simp
      by_cases hg : g r.status = true
      · rw [if_pos ⟨rfl, hm.mpr hg⟩]
        simp [hg, hst]
      · rw [if_neg fun h => hg (hm.mp h.2), statusOf, hr]
        simp [hg]
  · rw [if_neg hq, if_neg fun h => hq h.1, statusOf]

inductive Trans (s : State) : Label → State → Prop where
  | createDependencyRun (j : JobId) :
      Trans s (.createDependencyRun j) { s with sessions := s.sessions ++ [.begun j] }
  | dispatched (i : ℕ) (now : Time) (j : JobId) : s.sessions[i]? = some (.begun j) →
      Trans s (.statement i now) (s.set i (.done none))
  | checked (i : ℕ) (now : Time) (j : JobId) : s.sessions[i]? = some (.begun j) →
      Trans s (.statement i now) (s.set i (.checked j))
  | found (i : ℕ) (now : Time) (j : JobId) (pending : JobRun) :
      s.sessions[i]? = some (.checked j) → s.db.pendingRun j = some pending →
      Trans s (.statement i now) (s.set i (.read pending.id))
  | absent (i : ℕ) (now : Time) (j : JobId) : s.sessions[i]? = some (.checked j) →
      Trans s (.statement i now) (s.set i (.absent j))
  | flushed (i : ℕ) (now : Time) (p : RunId) : s.sessions[i]? = some (.read p) →
      Trans s (.statement i now) (s.set i (.flushed p))
  | raised (i : ℕ) (now : Time) (j : JobId) : s.sessions[i]? = some (.absent j) →
      Trans s (.statement i now) (s.set i .raised)
  | inserted (i : ℕ) (now : Time) (j : JobId) (db' : Database) (k : RunId) :
      s.sessions[i]? = some (.absent j) →
      s.db.insertRun (dependencyRow j now) = some (db', k) →
      Trans s (.statement i now) ({ s with db := db' }.set i (.done (some k)))
  | committed (i : ℕ) (now : Time) (p : RunId) : s.sessions[i]? = some (.flushed p) →
      Trans s (.statement i now)
        ({ s with db := promoteRun s.db p }.set i (.done (some p)))
  | write (l : Label) (p : RunId) (g : RunStatus → Bool) (st : RunStatus) (db' : Database) :
      l.write? = some (p, g, st) → Sets s.db db' p g st → Trans s l { s with db := db' }

theorem trans_of_write {s t : State} {l : Label} {p : RunId} {g : RunStatus → Bool}
    {st : RunStatus} {db' : Database} (hl : l.write? = some (p, g, st))
    (hsets : Sets s.db db' p g st) (h : write s p g db' = some t) : Trans s l t := by
  unfold write at h
  split at h
  · cases h
  · cases h
    exact .write l p g st db' hl hsets

theorem sets_claimRun (db : Database) (p : RunId) (w : WorkerId) (allow : Bool) (now : Time) :
    Sets db (claimRun db p w allow now).1 p (claimable allow) .running := by
  rcases claimRun_cases db p w allow now with ⟨heq, hno⟩ | ⟨r, job, hr, hg, -, heq⟩
  · rw [heq]
    intro q
    rw [if_neg]
    intro h
    obtain ⟨r, hr, hg⟩ := matchesRun_iff.mp h.2
    rw [hno r hr] at hg
    cases hg
  · rw [heq]
    exact sets_updateRun db p _ _ (claimedRow_keeps w now) fun _ => rfl

theorem trans_of_step {s t : State} {l : Label} (h : step s l = some t) : Trans s l t := by
  cases l with
  | createDependencyRun j =>
    cases h
    exact .createDependencyRun j
  | claimRun p w allow now => exact trans_of_write rfl (sets_claimRun s.db p w allow now) h
  | cancelRun p now =>
    exact trans_of_write rfl (sets_updateRun s.db p _ _ (canceledRow_keeps now) fun _ => rfl) h
  | finishRun p res error now =>
    exact trans_of_write rfl
      (sets_updateRun s.db p _ _ (finishedRow_keeps _ _ _ error now) fun _ => rfl) h
  | statement i now =>
    obtain ⟨x, hx, h⟩ := Option.bind_eq_some_iff.mp h
    obtain ⟨⟨db', y⟩, hn, rfl⟩ := Option.map_eq_some_iff.mp h
    cases x with
    | begun j =>
      cases hd : s.db.hasDispatchedRun j <;> rw [next, hd] at hn <;> cases hn
      · exact .checked i now j hx
      · exact .dispatched i now j hx
    | checked j =>
      simp only [next] at hn
      split at hn
      · rename_i pending hp
        cases hn
        exact .found i now j pending hx hp
      · cases hn
        exact .absent i now j hx
    | read p =>
      simp only [next] at hn
      split at hn
      · cases hn
      · cases hn
        exact .flushed i now p hx
    | absent j =>
      simp only [next] at hn
      split at hn
      · cases hn
        exact .raised i now j hx
      · rename_i db' k hins
        cases hn
        exact .inserted i now j db' k hx hins
    | flushed p =>
      cases hn
      exact .committed i now p hx
    | done result => cases hn
    | raised => cases hn

/-! ### The flush and what happens before it -/

/- The flush of a session writes a row whose committed status is PENDING. -/
def promotesUnclaimed (s : State) : Label → Bool
  | .statement i _ =>
    match s.sessions[i]? with
    | some (.read p) => decide (s.db.statusOf p = some .pending)
    | _ => true
  | _ => true

/- The step commits no change to a run that a session has read and not written yet. -/
def undisturbed (s : State) (l : Label) : Bool :=
  match l.write? with
  | some (p, g, _) => !(matchesRun s.db p g && s.reading p)
  | none =>
    match l with
    | .statement i _ =>
      match s.sessions[i]? with
      | some (.flushed p) => !s.reading p
      | _ => true
    | _ => true

def Reads (s : State) : Prop :=
  ∀ (i : ℕ) (p : RunId), s.sessions[i]? = some (.read p) → s.db.statusOf p = some .pending

/- A session will write a run that is no longer pending. -/
def Doomed (s : State) : Prop :=
  ∃ (i : ℕ) (p : RunId), s.sessions[i]? = some (.read p) ∧ s.db.statusOf p ≠ some .pending

section
variable {s t : State} {l : Label} {i k : ℕ} {x y : Session} {p : RunId}

theorem reading_iff : s.reading p = true ↔ ∃ i : ℕ, s.sessions[i]? = some (.read p) := by
  unfold State.reading
  rw [List.contains_iff_mem, List.mem_iff_getElem?]

theorem sets_promoteRun (db : Database) (p : RunId) :
    Sets db (promoteRun db p) p (fun _ => true) .queued :=
  sets_updateRun db p _ _ promotedRow_keeps fun _ => rfl

theorem Sets.of_ne {db db' : Database} {g : RunStatus → Bool} {st : RunStatus} {q : RunId}
    (h : Sets db db' p g st) (hne : q ≠ p ∨ matchesRun db p g ≠ true) :
    db'.statusOf q = db.statusOf q := by
  rw [h q, if_neg]
  intro hc
  rcases hne with hq | hm
  · exact hq hc.1
  · exact hm hc.2

/- No statement makes a run pending that was not. -/
theorem Sets.pending {db db' : Database} {g : RunStatus → Bool} {st : RunStatus} {q : RunId}
    (h : Sets db db' p g st) (hst : st ≠ .pending) (hq : db'.statusOf q = some .pending) :
    db.statusOf q = some .pending := by
  rw [h q] at hq
  split at hq
  · exact absurd (Option.some.inj hq) hst
  · exact hq

theorem statusOf_insertRun {db db' : Database} {j : JobId} {now : Time} {i q : RunId}
    (h : db.insertRun (dependencyRow j now) = some (db', i)) :
    db'.statusOf q = some .pending ↔ db.statusOf q = some .pending := by
  obtain ⟨-, ha, rfl⟩ := insertRun_eq_some h
  rw [statusOf, statusOf, get_addRun]
  by_cases hq : q = db.runs.next
  · rw [if_pos hq, hq, Table.get_next]
    refine ⟨fun hp => ?_, fun hp => ?_⟩
    · cases hp
    · cases hp
  · rw [if_neg hq]

/- A session that has read p is where it was, or the step was its read. -/
theorem Trans.read_inv (h : Trans s l t) (hx : t.sessions[i]? = some (.read p)) :
    s.sessions[i]? = some (.read p) ∨ t.db = s.db ∧ s.db.statusOf p = some .pending := by
  have hset : ∀ {k : ℕ} {x y : Session} {db' : Database}, s.sessions[k]? = some x →
      (({ s with db := db' }.set k y).sessions[i]? = some (.read p)) → y ≠ .read p →
      s.sessions[i]? = some (.read p) := by
    intro k x y db' hk hi hy
    rcases set_cases hi with ⟨-, heq⟩ | ⟨-, hi⟩
    · exact absurd heq.symm hy
    · exact hi
  cases h with
  | createDependencyRun j =>
    rcases concat_cases hx with hx | ⟨-, heq⟩
    · exact Or.inl hx
    · cases heq
  | found k now j pending hk hp =>
    obtain ⟨hm, -, hst⟩ := oldestRun_eq_some hp
    rcases set_cases hx with ⟨-, heq⟩ | ⟨-, hx⟩
    · cases heq
      have hget : s.db.runs.get pending.id = some pending := Table.get_of_mem hm
      refine Or.inr ⟨rfl, ?_⟩
      rw [statusOf, hget, Option.map_some, of_decide_eq_true hst]
    · exact Or.inl hx
  | write l q g st db' hl hsets => exact Or.inl hx
  | dispatched k now j hk | checked k now j hk | absent k now j hk | raised k now j hk
  | flushed k now q hk | committed k now q hk | inserted k now j db' m hk _ =>
    exact Or.inl (hset hk hx fun h => by cases h)

/- What an undisturbed step leaves pending. -/
theorem Trans.stays_pending (h : Trans s l t) (hu : undisturbed s l = true)
    (hr : s.reading p = true) (hp : s.db.statusOf p = some .pending) :
    t.db.statusOf p = some .pending := by
  cases h with
  | write l q g st db' hl hsets =>
    show db'.statusOf p = _
    rw [hsets.of_ne, hp]
    by_cases hq : p = q
    · subst hq
      refine Or.inr fun hm => ?_
      simp only [undisturbed, hl, hm, hr] at hu
      cases hu
    · exact Or.inl hq
  | committed i now q hi =>
    show (promoteRun s.db q).statusOf p = _
    rw [(sets_promoteRun s.db q).of_ne, hp]
    refine Or.inl fun hq => ?_
    subst hq
    simp only [undisturbed, Label.write?, hi, hr] at hu
    cases hu
  | inserted i now j db' k hi hins => exact (statusOf_insertRun hins).mpr hp
  | _ => exact hp

theorem Trans.reads (h : Trans s l t) (hu : undisturbed s l = true) (hs : Reads s) : Reads t := by
  intro i p hi
  rcases h.read_inv hi with hi' | ⟨hdb, hp⟩
  · exact h.stays_pending hu (reading_iff.mpr ⟨i, hi'⟩) (hs i p hi')
  · rw [hdb]
    exact hp

theorem Reads.flushes (hs : Reads s) (l : Label) : promotesUnclaimed s l = true := by
  cases l with
  | statement i now =>
    simp only [promotesUnclaimed]
    split
    · rename_i p hi
      exact decide_eq_true (hs i p hi)
    · rfl
  | _ => rfl

/-! ### A disturbed session never recovers -/

theorem Trans.pending_inv (h : Trans s l t) (hp : t.db.statusOf p = some .pending) :
    s.db.statusOf p = some .pending := by
  cases h with
  | write l q g st db' hl hsets => exact hsets.pending (write?_ne_pending hl) hp
  | committed i now q hi => exact (sets_promoteRun s.db q).pending (fun h => by cases h) hp
  | inserted i now j db' k hi hins => exact (statusOf_insertRun hins).mp hp
  | _ => exact hp

theorem Trans.read_stays (h : Trans s l t) (hx : s.sessions[i]? = some (.read p)) :
    t.sessions[i]? = some (.read p) ∨ ∃ now, l = .statement i now := by
  have hset : ∀ {k : ℕ} {x y : Session} {db' : Database} {now : Time}, s.sessions[k]? = some x →
      l = .statement k now → t = { s with db := db' }.set k y →
      t.sessions[i]? = some (.read p) ∨ ∃ now, l = .statement i now := by
    intro k x y db' now hk hl ht
    by_cases hik : i = k
    · exact Or.inr ⟨now, by rw [hik]; exact hl⟩
    · left
      rw [ht]
      exact (List.getElem?_set_ne (Ne.symm hik)).trans hx
  cases h with
  | createDependencyRun j => exact Or.inl (getElem?_concat hx)
  | write l q g st db' hl hsets => exact Or.inl hx
  | dispatched k now j hk | checked k now j hk | absent k now j hk | raised k now j hk
  | flushed k now q hk | committed k now q hk | inserted k now j db' m hk _
  | found k now j q hk _ => exact hset hk rfl rfl

theorem Trans.doomed (h : Trans s l t) (hpp : promotesUnclaimed s l = true) (hs : Doomed s) :
    Doomed t := by
  obtain ⟨i, p, hi, hne⟩ := hs
  rcases h.read_stays hi with hi' | ⟨now, rfl⟩
  · exact ⟨i, p, hi', fun hp => hne (h.pending_inv hp)⟩
  · simp only [promotesUnclaimed, hi, decide_eq_true_eq] at hpp
    exact absurd hpp hne

theorem Trans.doomed_of_disturbed (h : Trans s l t) (hu : undisturbed s l = false) : Doomed t := by
  cases h with
  | write l p g st db' hl hsets =>
    simp only [undisturbed, hl, Bool.not_eq_false', Bool.and_eq_true] at hu
    obtain ⟨i, hi⟩ := reading_iff.mp hu.2
    refine ⟨i, p, hi, ?_⟩
    show db'.statusOf p ≠ _
    rw [hsets p, if_pos ⟨rfl, hu.1⟩]
    exact fun hp => write?_ne_pending hl (Option.some.inj hp)
  | committed k now p hk =>
    simp only [undisturbed, Label.write?, hk, Bool.not_eq_false'] at hu
    obtain ⟨i, hi⟩ := reading_iff.mp hu
    refine ⟨i, p, getElem?_set_of_ne hk hi fun heq => (by cases heq), ?_⟩
    show (promoteRun s.db p).statusOf p ≠ _
    rw [sets_promoteRun s.db p p]
    split
    · exact fun hp => by cases hp
    · rename_i hno
      intro hp
      obtain ⟨r, hr, -⟩ := Option.map_eq_some_iff.mp hp
      exact hno ⟨rfl, matchesRun_iff.mpr ⟨r, hr, rfl⟩⟩
  | createDependencyRun j => cases hu
  | dispatched k now j hk | checked k now j hk | absent k now j hk | raised k now j hk
  | flushed k now q hk | inserted k now j db' m hk _ | found k now j q hk _ =>
    simp [undisturbed, Label.write?, hk] at hu

end

/-! ### Every interleaving -/

/- Every transaction has ended. -/
def AllEnded (s : State) : Prop :=
  ∀ x ∈ s.sessions, x = .raised ∨ ∃ result, x = .done result

theorem not_doomed_of_allEnded {s : State} (h : AllEnded s) : ¬ Doomed s := by
  intro hd
  obtain ⟨i, p, hi, -⟩ := hd
  rcases h _ (List.mem_of_getElem? hi) with heq | ⟨result, heq⟩
  · cases heq
  · cases heq

/- If no run is changed between its read and its flush, every flush moves a pending run; and
if every flush of transactions that have all ended did so, no run was changed in between. -/
theorem promotion_iff_undisturbed (db : Database) (ls : List Label) :
    (Machine.Along step (fun s l => undisturbed s l = true) (start db) ls →
      Machine.Along step (fun s l => promotesUnclaimed s l = true) (start db) ls) ∧
    ∀ t, Machine.run step (start db) ls = some t → AllEnded t →
      Machine.Along step (fun s l => promotesUnclaimed s l = true) (start db) ls →
      Machine.Along step (fun s l => undisturbed s l = true) (start db) ls := by
  constructor
  · intro hu
    refine Machine.along_of_invariant (I := Reads) ?_ (fun s l hs _ => hs.flushes l) ?_ hu
    · exact fun s l t hs hc ht => (trans_of_step ht).reads hc hs
    · intro i p hi
      cases hi
  · intro t hrun hend hpp
    refine Machine.along_iff.mpr ?_
    intro ms l ns u hls hu
    subst hls
    cases hc : undisturbed u l with
    | true => rfl
    | false =>
      exfalso
      obtain ⟨u', hu', hrest⟩ := Machine.run_append.mp hrun
      cases hu.symm.trans hu'
      obtain ⟨v, hv, hrest⟩ := Machine.run_cons.mp hrest
      have hppv := ((Machine.along_append.mp hpp).2 u hu).2 v hv
      refine not_doomed_of_allEnded hend ?_
      exact Machine.run_invariant (I := Doomed)
        (fun s l t hs hc ht => (trans_of_step ht).doomed hc hs)
        ((trans_of_step hv).doomed_of_disturbed hc) hppv hrest

/-! ### The transaction of the store -/

/- Where the store's cut of create_dependency_run has a session for job j. It takes the flush
together with the commit. -/
inductive Stands (j : JobId) : Session → Promotion → Prop where
  | checked : Stands j (.checked j) (.checked j)
  | read (p : RunId) : Stands j (.read p) (.read j p)
  | absent : Stands j (.absent j) (.absent j)
  | flushed (p : RunId) : Stands j (.flushed p) (.read j p)

inductive Answers (j : JobId) : Session → Reply → Prop where
  | goesOn {y : Session} {x : Promotion} : Stands j y x → Answers j y (.goesOn x)
  | returned (res : Option RunId) : Answers j (.done res) (.returned res)
  | raised : Answers j .raised .raised

theorem answers_firstStatement {s : State} {now : Time} {j : JobId} {db' : Database} {y : Session}
    (h : next s now (.begun j) = some (db', y)) :
    db' = s.db ∧ Answers j y (firstStatement s.db j) := by
  unfold next at h
  unfold firstStatement
  cases h
  refine ⟨rfl, ?_⟩
  split
  · exact .returned none
  · exact .goesOn .checked

/- A statement of a session is the one of the store, or the flush that keeps the row locked. -/
theorem answers_nextStatement {s : State} {now : Time} {j : JobId} {x y : Session}
    {x' : Promotion} {db' : Database} (hx : Stands j x x')
    (hrow : ∀ p, x = .flushed p → (s.db.runs.get p).isSome = true)
    (h : next s now x = some (db', y)) :
    (db' = s.db ∧ Stands j y x' ∧ ∃ p, y = .flushed p) ∨
      db' = (nextStatement s.db now x').1 ∧ Answers j y (nextStatement s.db now x').2 := by
  cases hx with
  | checked =>
    cases hp : s.db.pendingRun j with
    | none =>
      simp only [next, nextStatement, hp] at h ⊢
      cases h
      exact Or.inr ⟨rfl, .goesOn .absent⟩
    | some p =>
      simp only [next, nextStatement, hp] at h ⊢
      cases h
      exact Or.inr ⟨rfl, .goesOn (.read p.id)⟩
  | read p =>
    simp only [next] at h
    split at h <;> cases h
    exact Or.inl ⟨rfl, .flushed p, p, rfl⟩
  | absent =>
    cases hins : s.db.insertRun (dependencyRow j now) with
    | none =>
      simp only [next, nextStatement, hins] at h ⊢
      cases h
      exact Or.inr ⟨rfl, .raised⟩
    | some out =>
      simp only [next, nextStatement, hins] at h ⊢
      cases h
      exact Or.inr ⟨rfl, .returned (some out.2)⟩
  | flushed p =>
    cases h
    rw [nextStatement, if_pos (hrow p rfl)]
    exact Or.inr ⟨rfl, .returned (some p)⟩

theorem step_statement {s : State} {i : ℕ} {x y : Session} {now : Time} {db' : Database}
    (hx : s.sessions[i]? = some x) (hn : next s now x = some (db', y)) :
    step s (.statement i now) = some ({ s with db := db' }.set i y) := by
  show ((s.sessions[i]?).bind fun x => (next s now x).map _) = _
  rw [hx, Option.bind_some, hn, Option.map_some]

theorem locked_set {s : State} {i : ℕ} {x : Session} {p : RunId} (h : s.locked p = false)
    (hx : x ≠ .flushed p) : (s.set i x).locked p = false := by
  unfold State.locked at h ⊢
  rw [← Bool.not_eq_true, List.contains_iff_mem] at h ⊢
  intro hm
  rcases List.mem_or_eq_of_mem_set hm with hm | heq
  · exact h hm
  · exact hx heq.symm

/- Executed without interruption, the statements are the transaction of the store. -/
theorem statements_createDependencyRun {s : State} {i : ℕ} {j : JobId} {now : Time}
    {db' : Database} {res : Option RunId} (hi : s.sessions[i]? = some (.begun j))
    (hfree : ∀ p, s.locked p = false)
    (h : createDependencyRun s.db j now = some (db', res)) :
    ∃ n t, Machine.run step s (List.replicate n (.statement i now)) = some t ∧ t.db = db' ∧
      t.sessions[i]? = some (.done res) := by
  have hself : ∀ {u : State} {x y : Session}, u.sessions[i]? = some x →
      (u.set i y).sessions[i]? = some y := fun hx => getElem?_set_of_some hx
  unfold createDependencyRun at h
  split at h
  · rename_i hd
    cases h
    have h1 := step_statement hi (y := .done none)
      (show next s now (.begun j) = some (s.db, .done none) by rw [next, hd]; rfl)
    exact ⟨1, _, Machine.run_cons.mpr ⟨_, h1, rfl⟩, rfl, hself hi⟩
  · rename_i hd
    have h1 := step_statement hi (y := .checked j)
      (show next s now (.begun j) = some (s.db, .checked j) by rw [next, if_neg hd])
    have hx1 : (s.set i (.checked j)).sessions[i]? = some (.checked j) := hself hi
    split at h
    · rename_i p hp
      cases h
      have h2 := step_statement hx1 (y := .read p.id)
        (show next (s.set i (.checked j)) now (.checked j) = some (s.db, .read p.id) by
          simp only [next, State.set, hp])
      have hx2 := hself (y := .read p.id) hx1
      have hl : ((s.set i (.checked j)).set i (.read p.id)).locked p.id = false :=
        locked_set (locked_set (hfree p.id) fun h => by cases h) fun h => by cases h
      have h3 := step_statement hx2 (y := .flushed p.id)
        (show next _ now (.read p.id) = some (s.db, .flushed p.id) by
          rw [next, hl]
          rfl)
      have hx3 := hself (y := .flushed p.id) hx2
      have h4 := step_statement hx3 (y := .done (some p.id))
        (show next _ now (.flushed p.id) = some (promoteRun s.db p.id, .done (some p.id)) from rfl)
      exact ⟨4, _, Machine.run_cons.mpr ⟨_, h1, Machine.run_cons.mpr ⟨_, h2,
        Machine.run_cons.mpr ⟨_, h3, Machine.run_cons.mpr ⟨_, h4, rfl⟩⟩⟩⟩, rfl, hself hx3⟩
    · rename_i hp
      obtain ⟨⟨db1, k⟩, hins, heq⟩ := Option.map_eq_some_iff.mp h
      cases heq
      have h2 := step_statement hx1 (y := .absent j)
        (show next (s.set i (.checked j)) now (.checked j) = some (s.db, .absent j) by
          simp only [next, State.set, hp])
      have hx2 := hself (y := .absent j) hx1
      have h3 := step_statement hx2 (y := .done (some k))
        (show next _ now (.absent j) = some (db', .done (some k)) by
          simp only [next, State.set, hins])
      exact ⟨3, _, Machine.run_cons.mpr ⟨_, h1, Machine.run_cons.mpr ⟨_, h2,
        Machine.run_cons.mpr ⟨_, h3, rfl⟩⟩⟩, rfl, hself hx2⟩

/-! ### One pending run -/

/- A job with the pending run 0. -/
def waitingRun : Database :=
  let db := Database.ofNames 1 ["load"] []
  ((db.createRun 0 .manual none 1 .pending 0).map Prod.fst).getD db

/- Session 1 begins while session 0 holds the lock, and reads after its commit. -/
def readsAfterCommit : List Label :=
  [.createDependencyRun 0, .createDependencyRun 0, .statement 0 1, .statement 0 1, .statement 0 1,
    .statement 1 1, .statement 0 1, .statement 1 1, .statement 1 1, .claimRun 0 1 false 2]

theorem promotion_readsAfterCommit :
    Machine.Along step (fun s l => promotesUnclaimed s l = true) (start waitingRun)
      readsAfterCommit ∧
    ((Machine.run step (start waitingRun) readsAfterCommit).bind fun t => t.db.statusOf 0) =
      some .running :=
  ⟨(promotion_iff_undisturbed waitingRun readsAfterCommit).1 (by decide), by decide⟩

/- Run 0 is canceled between the read and the flush, and is queued again. -/
theorem promotion_resurrects_canceled :
    ∃ s t u, Machine.run step (start waitingRun)
        [.createDependencyRun 0, .statement 0 1, .statement 0 1, .cancelRun 0 2] = some s ∧
      s.db.statusOf 0 = some .canceled ∧ promotesUnclaimed s (.statement 0 3) = false ∧
      step s (.statement 0 3) = some t ∧ step t (.statement 0 4) = some u ∧
      u.db.statusOf 0 = some .queued := by
  have hall : (Machine.run step (start waitingRun)
      [.createDependencyRun 0, .statement 0 1, .statement 0 1, .cancelRun 0 2]).any (fun s =>
      decide (s.db.statusOf 0 = some .canceled) && !promotesUnclaimed s (.statement 0 3) &&
      (step s (.statement 0 3)).any fun t => (step t (.statement 0 4)).any fun u =>
        decide (u.db.statusOf 0 = some .queued)) = true := by
    decide
  obtain ⟨s, hs, hall⟩ := (Option.any_eq_true _ _).mp hall
  simp only [Bool.and_eq_true, decide_eq_true_eq, Bool.not_eq_true'] at hall
  obtain ⟨⟨hcan, hno⟩, hall⟩ := hall
  obtain ⟨t, ht, hall⟩ := (Option.any_eq_true _ _).mp hall
  obtain ⟨u, hu, hq⟩ := (Option.any_eq_true _ _).mp hall
  exact ⟨s, t, u, hs, hcan, hno, ht, hu, of_decide_eq_true hq⟩

end JobScheduler.ReadCommitted
