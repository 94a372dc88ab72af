import JobScheduler.Api.Trigger
import JobScheduler.Library.Except
import JobScheduler.Worker.ReadCommitted

/-!
# Concurrent transactions that create dependency runs

create_dependency_run on the workers and trigger_job on the API, statement by statement at
READ COMMITTED. Both look for a run of the job and insert one when there is none; no lock
and no constraint stands between the two. A row that a transaction has inserted is seen by
its own SELECTs, and by the others from its commit on.
-/

namespace JobScheduler.DependencyRuns
open Library Positions Database Store

/-! ### trigger_job as a session -/

/- Where a call of _prepare_trigger_run stands: before the SELECT of its dependency ids, at
create_run of a job without dependencies, in the loop over them, at the last create_run. -/
inductive Phase where
  | entered
  | leaf
  | visiting (dependencyIds : List JobId)
  | creating
  deriving DecidableEq, Repr

structure Frame where
  jobId : JobId
  triggerType : TriggerType
  phase : Phase
  deriving DecidableEq, Repr

/- The calls on the stack, the innermost first, and the rows inserted so far. -/
structure Trigger where
  frames : List Frame
  inserted : List NewRun := []

/- A session of a worker, a session of the API, or one that has ended. -/
inductive Session where
  | create (x : ReadCommitted.Session)
  | trigger (t : Trigger)
  | ended

/- _active_run(session, job_id) is not None: committed rows and rows of the session itself. -/
def Trigger.active (t : Trigger) (db : Database) (j : JobId) : Bool :=
  (db.activeRun j).isSome || t.inserted.any fun n => decide (n.jobId = j) && n.status.active

/- create_run(session, job_id, trigger_type, status=status) -/
def Frame.row (f : Frame) (status : RunStatus) (now : Time) : NewRun where
  jobId := f.jobId
  triggerType := f.triggerType
  status := status
  createdAt := now

def insertAll (db : Database) (ns : List NewRun) : Option Database :=
  ns.foldlM (fun db n => (db.insertRun n).map Prod.fst) db

/- The next statement of trigger_job; the commit when the recursion has returned. -/
def Trigger.next (t : Trigger) (db : Database) (now : Time) : Database × Session :=
  match t.frames with
  | [] => ((insertAll db t.inserted).getD db, .ended)
  | f :: rest =>
    match f.phase with
    | .entered =>
      if f.jobId ∈ rest.map Frame.jobId then (db, .ended)
      else if (db.dependencyIds f.jobId).isEmpty then
        (db, .trigger { t with frames := { f with phase := .leaf } :: rest })
      else
        (db, .trigger { t with
          frames := { f with phase := .visiting (db.dependencyIds f.jobId) } :: rest })
    | .leaf => (db, .trigger { frames := rest, inserted := t.inserted ++ [f.row .queued now] })
    | .visiting (d :: ds) =>
      if t.active db d then
        (db, .trigger { t with frames := { f with phase := .visiting ds } :: rest })
      else
        (db, .trigger { t with frames :=
          ⟨d, .dependency, .entered⟩ :: { f with phase := .visiting ds } :: rest })
    | .visiting [] =>
      if t.active db f.jobId then (db, .trigger { t with frames := rest })
      else (db, .trigger { t with frames := { f with phase := .creating } :: rest })
    | .creating => (db, .trigger { frames := rest, inserted := t.inserted ++ [f.row .pending now] })

/-! ### All sessions together -/

structure State where
  db : Database
  sessions : List Session := []

def start (db : Database) : State := { db := db }

inductive Label where
  | createDependencyRun (jobId : JobId)
  | triggerJob (ownerUserId : UserId) (jobId : JobId)
  | statement (session : ℕ) (now : Time)
  | other (db' : Database)

def Session.create? : Session → Option ReadCommitted.Session
  | .create x => some x
  | _ => none

/- What the statements of create_dependency_run look at, the row locks included. -/
def State.view (s : State) : ReadCommitted.State where
  db := s.db
  sessions := s.sessions.filterMap Session.create?

def Session.next (s : State) (now : Time) : Session → Option (Database × Session)
  | .create x => (ReadCommitted.next s.view now x).map fun (db', y) => (db', .create y)
  | .trigger t => some (t.next s.db now)
  | .ended => none

def isDependency (r : JobRun) : Bool := decide (r.triggerType = .dependency)

/- The run r' of the new tables was an active dependency run before, and not only now
dispatched. -/
def wasThere (db : Database) (r' : JobRun) : Bool :=
  (db.runs.get r'.id).any fun r => decide (r.jobId = r'.jobId) && isDependency r &&
    r.status.active && (!r'.status.dispatched || r.status.dispatched)

/- The other transactions of the system: they claim, cancel, finish and create runs, but no
dependency run becomes active or dispatched by them, and a locked row makes them wait. -/
def leaves (s : State) (db' : Database) : Bool :=
  decide (db'.dependencies.rows = s.db.dependencies.rows) &&
    (db'.runs.rows.all fun r => !isDependency r || !r.status.active || wasThere s.db r) &&
    s.view.sessions.all fun x =>
      match x with
      | .flushed p => decide (db'.statusOf p = s.db.statusOf p)
      | _ => true

def State.set (s : State) (k : ℕ) (y : Session) : State :=
  { s with sessions := s.sessions.set k y }

def step (s : State) : Label → Option State
  | .createDependencyRun j => some { s with sessions := s.sessions ++ [.create (.begun j)] }
  | .triggerJob owner j =>
    (Api.getJob s.db j owner).map fun _ =>
      { s with sessions := s.sessions ++ [.trigger { frames := [⟨j, .manual, .entered⟩] }] }
  | .statement k now =>
    s.sessions[k]?.bind fun x =>
      (x.next s now).map fun (db', y) => { s with db := db' }.set k y
  | .other db' => if leaves s db' then some { s with db := db' } else none

/- No job has two active dependency runs. -/
def AtMostOne (db : Database) : Prop :=
  ∀ r ∈ db.runs.rows, ∀ q ∈ db.runs.rows, isDependency r = true → isDependency q = true →
    r.status.active = true → q.status.active = true → r.jobId = q.jobId → r = q

/-! ### The condition -/

/- The frame is past its last look for a run of its job. -/
def Frame.decided (f : Frame) (db : Database) : Bool :=
  match f.phase with
  | .entered => (db.dependencyIds f.jobId).isEmpty
  | .leaf | .creating => true
  | .visiting _ => false

/- The session has found no run of job j in status st and is going to insert one, or has
inserted one that is not committed. -/
def Session.relies (db : Database) (j : JobId) (st : RunStatus) : Session → Bool
  | .create (.checked j') => decide (j' = j) && st.dispatched
  | .create (.absent j') => decide (j' = j) && st.active
  | .trigger t => st.active &&
      ((t.inserted.any fun n => decide (n.triggerType = .dependency) && decide (n.jobId = j)) ||
        t.frames.head?.any fun f =>
          decide (f.triggerType = .dependency) && f.decided db && decide (f.jobId = j))
  | _ => false

/- The dependency runs that the next statement of a session makes visible. -/
def Session.publishes (db : Database) : Session → List (JobId × RunStatus)
  | .create (.absent j) => [(j, .queued)]
  | .create (.flushed p) =>
    ((db.runs.get p).filter isDependency).toList.map fun r => (r.jobId, .queued)
  | .trigger ⟨[], inserted⟩ =>
    (inserted.filter fun n => decide (n.triggerType = .dependency)).map fun n =>
      (n.jobId, n.status)
  | _ => []

/- The step makes no dependency run visible that another open session relies on not being
there, and flushes no promotion of a run that is over. -/
def Clean (s : State) : Label → Prop
  | .statement k _ => ∀ x, s.sessions[k]? = some x →
      (∀ e ∈ x.publishes s.db, ∀ k' y, s.sessions[k']? = some y → k' ≠ k →
        y.relies s.db e.1 e.2 = false) ∧
      ∀ p, x = .create (.read p) → (s.db.statusOf p).any RunStatus.active = true
  | _ => True

/-! ### The invariant -/

variable {s t : State} {db db' : Database} {j : JobId} {k : ℕ} {x y : Session} {now : Time}

/- No active dependency run of j is committed. -/
def Free (db : Database) (j : JobId) : Prop :=
  ∀ r ∈ db.runs.rows, isDependency r = true → r.status.active = true → r.jobId ≠ j

structure Trigger.Ok (db : Database) (t : Trigger) : Prop where
  active : ∀ n ∈ t.inserted, n.status.active = true
  free : ∀ n ∈ t.inserted, n.triggerType = .dependency → Free db n.jobId
  distinct : t.inserted.Pairwise fun a b =>
    a.triggerType = .dependency → b.triggerType = .dependency → a.jobId ≠ b.jobId
  below : ∀ f ∈ t.frames.tail, ∃ ds, f.phase = .visiting ds
  head : ∀ f, t.frames.head? = some f → f.triggerType = .dependency → f.decided db = true →
    Free db f.jobId ∧ ∀ n ∈ t.inserted, n.triggerType = .dependency → n.jobId ≠ f.jobId

/- What an open session has read is still so. -/
def Session.Ok (db : Database) : Session → Prop
  | .create (.checked j) => ∀ r ∈ db.runs.rows, isDependency r = true →
      r.status.dispatched = true → r.jobId ≠ j
  | .create (.absent j) => Free db j
  | .create (.flushed p) => (db.statusOf p).any RunStatus.active = true
  | .trigger t => t.Ok db
  | _ => True

structure Holds (s : State) : Prop where
  one : AtMostOne s.db
  ok : ∀ (k : ℕ) (y : Session), s.sessions[k]? = some y → y.Ok s.db

/-! ### Commits and the sessions beside them -/

/- r' was an active dependency run before, and not only now dispatched. -/
def Was (db : Database) (r' : JobRun) : Prop :=
  ∃ r ∈ db.runs.rows, r.id = r'.id ∧ r.jobId = r'.jobId ∧ isDependency r = true ∧
    r.status.active = true ∧ (r'.status.dispatched = true → r.status.dispatched = true)

theorem was_of_mem {r : JobRun} (hr : r ∈ db.runs.rows) (hd : isDependency r = true)
    (ha : r.status.active = true) : Was db r :=
  ⟨r, hr, rfl, rfl, hd, ha, id⟩

theorem active_of_dispatched {st : RunStatus} (h : st.dispatched = true) : st.active = true := by
  cases st <;> first | rfl | cases h

theorem dependencyIds_congr (hdeps : db'.dependencies.rows = db.dependencies.rows) (j : JobId) :
    db'.dependencyIds j = db.dependencyIds j := by
  rw [dependencyIds, dependencyIds, hdeps]

theorem decided_congr (hdeps : db'.dependencies.rows = db.dependencies.rows) (f : Frame) :
    f.decided db' = f.decided db := by
  unfold Frame.decided
  rw [dependencyIds_congr hdeps]

/- A session that does not rely on the absence of what a commit brings is not disturbed. -/
theorem Session.Ok.mono (h : y.Ok db) (hdeps : db'.dependencies.rows = db.dependencies.rows)
    (hactive : ∀ p, (db.statusOf p).any RunStatus.active = true →
      y = .create (.flushed p) → (db'.statusOf p).any RunStatus.active = true)
    (hrows : ∀ r' ∈ db'.runs.rows, isDependency r' = true → r'.status.active = true →
      y.relies db r'.jobId r'.status = false ∨ Was db r') : y.Ok db' := by
  cases y with
  | ended => trivial
  | create x =>
    cases x with
    | checked j =>
      intro r' hr' hd hdis hj
      rcases hrows r' hr' hd (active_of_dispatched hdis) with hno | ⟨r, hr, -, hjob, hdep, -, himp⟩
      · simp [Session.relies, hj, hdis] at hno
      · exact h r hr hdep (himp hdis) (hjob.trans hj)
    | absent j =>
      intro r' hr' hd ha hj
      rcases hrows r' hr' hd ha with hno | ⟨r, hr, -, hjob, hdep, hact, -⟩
      · rw [Session.relies, hj, ha] at hno
        simp at hno
      · exact h r hr hdep hact (hjob.trans hj)
    | flushed p => exact hactive p h rfl
    | begun _ | read _ | done _ | raised => trivial
  | trigger t =>
    have hfree : ∀ j, Free db j → (∀ st, st.active = true →
        (Session.trigger t).relies db j st = true) → Free db' j := by
      intro j hf hrel r' hr' hd ha hj
      rcases hrows r' hr' hd ha with hno | ⟨r, hr, -, hjob, hdep, hact, -⟩
      · rw [hj, hrel _ ha] at hno
        cases hno
      · exact hf r hr hdep hact (hjob.trans hj)
    refine { h with free := ?_, head := ?_ }
    · intro n hn hdep
      refine hfree n.jobId (h.free n hn hdep) fun st hst => ?_
      rw [Session.relies, hst, Bool.true_and, Bool.or_eq_true, List.any_eq_true]
      exact .inl ⟨n, hn, by simp [hdep]⟩
    · intro f hf hdep hdec
      rw [decided_congr hdeps] at hdec
      refine ⟨hfree f.jobId (h.head f hf hdep hdec).1 fun st hst => ?_, (h.head f hf hdep hdec).2⟩
      rw [Session.relies, hst, Bool.true_and, Bool.or_eq_true, hf]
      exact .inr (by simp [hdep, hdec])

/- Session k goes on without a commit. -/
theorem Holds.set (hs : Holds s) (hy : y.Ok s.db) : Holds (s.set k y) where
  one := hs.one
  ok := by
    intro k' z hz
    rcases set_cases hz with ⟨-, rfl⟩ | ⟨-, hz⟩
    · exact hy
    · exact hs.ok k' z hz

/- Session k commits. -/
theorem Holds.commit (hs : Holds s) (hy : y.Ok db') (hone : AtMostOne db')
    (hdeps : db'.dependencies.rows = s.db.dependencies.rows)
    (hactive : ∀ p, (s.db.statusOf p).any RunStatus.active = true →
      (db'.statusOf p).any RunStatus.active = true)
    (hrows : ∀ r' ∈ db'.runs.rows, isDependency r' = true → r'.status.active = true →
      (∀ k' z, s.sessions[k']? = some z → k' ≠ k → z.relies s.db r'.jobId r'.status = false) ∨
        Was s.db r') : Holds ({ s with db := db' }.set k y) where
  one := hone
  ok := by
    intro k' z hz
    rcases set_cases hz with ⟨-, rfl⟩ | ⟨hne, hz⟩
    · exact hy
    · refine (hs.ok k' z hz).mono hdeps (fun p hp _ => hactive p hp) fun r' hr' hd ha => ?_
      exact (hrows r' hr' hd ha).imp_left fun hno => hno k' z hz hne

/-! ### Inserted rows -/

variable {n : NewRun} {ns : List NewRun}

theorem mem_addRun (ha : db.Admits n) {r : JobRun} :
    r ∈ (db.addRun n ha).runs.rows ↔ r ∈ db.runs.rows ∨ r = n.row db.runs.next := by
  simp [addRun, Table.insert]

theorem Free.addRun (h : Free db j) (ha : db.Admits n)
    (hn : n.triggerType = .dependency → n.jobId ≠ j) : Free (db.addRun n ha) j := by
  intro r hr hd hact
  rcases (mem_addRun ha).mp hr with hr | rfl
  · exact h r hr hd hact
  · exact hn (of_decide_eq_true hd)

theorem AtMostOne.addRun (h : AtMostOne db) (ha : db.Admits n)
    (hn : n.triggerType = .dependency → Free db n.jobId) : AtMostOne (db.addRun n ha) := by
  intro r hr q hq hdr hdq har haq hjob
  rcases (mem_addRun ha).mp hr with hr | rfl <;> rcases (mem_addRun ha).mp hq with hq | rfl
  · exact h r hr q hq hdr hdq har haq hjob
  · exact absurd hjob (hn (of_decide_eq_true hdq) r hr hdr har)
  · exact absurd hjob.symm (hn (of_decide_eq_true hdr) q hq hdq haq)
  · rfl

theorem statusOf_addRun (ha : db.Admits n) {p : RunId}
    (hp : (db.statusOf p).any RunStatus.active = true) :
    ((db.addRun n ha).statusOf p).any RunStatus.active = true := by
  have hne : p ≠ db.runs.next := by
    rintro rfl
    rw [statusOf, Table.get_next] at hp
    cases hp
  rw [statusOf, get_addRun, if_neg hne]
  exact hp

/- What insertAll does to the tables: at most one active dependency run stays at most one, when
the new ones are of different jobs that have none. -/
theorem insertAll_spec (h : insertAll db ns = some db') (hone : AtMostOne db)
    (hfree : ∀ n ∈ ns, n.triggerType = .dependency → Free db n.jobId)
    (hdistinct : ns.Pairwise fun a b =>
      a.triggerType = .dependency → b.triggerType = .dependency → a.jobId ≠ b.jobId) :
    AtMostOne db' ∧ db'.dependencies.rows = db.dependencies.rows ∧
      (∀ p, (db.statusOf p).any RunStatus.active = true →
        (db'.statusOf p).any RunStatus.active = true) ∧
      ∀ r ∈ db'.runs.rows, r ∈ db.runs.rows ∨
        ∃ n ∈ ns, r.jobId = n.jobId ∧ r.triggerType = n.triggerType ∧ r.status = n.status := by
  induction ns generalizing db with
  | nil =>
    cases h
    exact ⟨hone, rfl, fun _ hp => hp, fun r hr => .inl hr⟩
  | cons n ns ih =>
    obtain ⟨db1, hmap, h⟩ := Option.bind_eq_some_iff.mp h
    obtain ⟨⟨db2, i⟩, hins, rfl⟩ := Option.map_eq_some_iff.mp hmap
    obtain ⟨rfl, ha, rfl⟩ := insertRun_eq_some hins
    obtain ⟨hdist, hrest⟩ := List.pairwise_cons.mp hdistinct
    have hone1 := hone.addRun ha (hfree n (List.mem_cons_self ..))
    have hfree1 : ∀ m ∈ ns, m.triggerType = .dependency → Free (db.addRun n ha) m.jobId := by
      intro m hm hdm
      exact (hfree m (List.mem_cons_of_mem _ hm) hdm).addRun ha fun hdn => hdist m hm hdn hdm
    obtain ⟨hone', hdeps, hactive, hrows⟩ := ih h hone1 hfree1 hrest
    refine ⟨hone', hdeps, fun p hp => hactive p (statusOf_addRun ha hp), fun r hr => ?_⟩
    rcases hrows r hr with hr | ⟨m, hm, heq⟩
    · rcases (mem_addRun ha).mp hr with hr | rfl
      · exact .inl hr
      · exact .inr ⟨n, List.mem_cons_self .., rfl, rfl, rfl⟩
    · exact .inr ⟨m, List.mem_cons_of_mem _ hm, heq⟩

/-! ### The statements of create_dependency_run -/

theorem free_of_activeRun (h : db.activeRun j = none) : Free db j := by
  intro r hr _ hact hj
  exact oldestRun_eq_none.mp h ⟨r, hr, hj, hact⟩

theorem Holds.inserted (hs : Holds s) (hk : s.sessions[k]? = some (.create (.absent j)))
    (hclean : Clean s (.statement k now)) (ha : s.db.Admits (dependencyRow j now))
    (out : Option RunId) :
    Holds ({ s with db := s.db.addRun (dependencyRow j now) ha }.set k (.create (.done out))) := by
  have hfree : Free s.db j := hs.ok k _ hk
  refine hs.commit trivial (hs.one.addRun ha fun _ => hfree) rfl
    (fun p hp => statusOf_addRun ha hp) fun r hr hd hact => ?_
  rcases (mem_addRun ha).mp hr with hr | rfl
  · exact .inr (was_of_mem hr hd hact)
  · exact .inl ((hclean _ hk).1 (j, .queued) (List.mem_singleton.mpr rfl))

theorem Holds.promoted (hs : Holds s) {p : RunId}
    (hk : s.sessions[k]? = some (.create (.flushed p))) (hclean : Clean s (.statement k now)) (out : Option RunId) :
    Holds ({ s with db := promoteRun s.db p }.set k (.create (.done out))) := by
  have hp : (s.db.statusOf p).any RunStatus.active = true := hs.ok k _ hk
  -- a row of the new tables is an old one, or the promoted one
  have hrows : ∀ r' ∈ (promoteRun s.db p).runs.rows, ∃ r ∈ s.db.runs.rows,
      r' = r ∧ r.id ≠ p ∨ r' = promotedRow r ∧ r.id = p ∧ r.status.active = true := by
    intro r' hr'
    have hmap : r' ∈ s.db.runs.rows.map (Table.rewrite (selects p fun _ => true) promotedRow) := hr'
    obtain ⟨r, hr, rfl⟩ := List.mem_map.mp hmap
    refine ⟨r, hr, ?_⟩
    by_cases hid : r.id = p
    · refine .inr ⟨by simp [Table.rewrite, selects, hid], hid, ?_⟩
      rw [statusOf, Table.get_eq_some.mpr ⟨hr, hid⟩] at hp
      exact hp
    · exact .inl ⟨by simp [Table.rewrite, selects, hid], hid⟩
  refine hs.commit trivial ?_ rfl ?_ ?_
  · intro r' hr' q' hq' hdr hdq har haq hjob
    obtain ⟨r, hr, hcase⟩ := hrows r' hr'
    obtain ⟨q, hq, hcase'⟩ := hrows q' hq'
    have heq : r = q := by
      rcases hcase with ⟨rfl, -⟩ | ⟨rfl, -, hact⟩ <;> rcases hcase' with ⟨rfl, -⟩ | ⟨rfl, -, hact'⟩
      · exact hs.one _ hr _ hq hdr hdq har haq hjob
      · exact hs.one _ hr _ hq hdr hdq har hact' hjob
      · exact hs.one _ hr _ hq hdr hdq hact haq hjob
      · exact hs.one _ hr _ hq hdr hdq hact hact' hjob
    subst heq
    rcases hcase with ⟨rfl, hne⟩ | ⟨rfl, hid, -⟩ <;> rcases hcase' with ⟨rfl, hne'⟩ | ⟨rfl, hid', -⟩
    · rfl
    · exact absurd hid' hne
    · exact absurd hid hne'
    · rfl
  · intro q hq
    rw [ReadCommitted.sets_promoteRun s.db p q]
    split
    · rfl
    · exact hq
  · intro r' hr' hd hact
    obtain ⟨r, hr, ⟨rfl, -⟩ | ⟨rfl, hid, -⟩⟩ := hrows r' hr'
    · exact .inr (was_of_mem hr hd hact)
    · refine .inl ((hclean _ hk).1 (r.jobId, .queued) ?_)
      have hdr : isDependency r = true := hd
      simp only [Session.publishes, Table.get_eq_some.mpr ⟨hr, hid⟩, Option.filter_some_pos hdr]
      exact List.mem_singleton.mpr rfl

theorem Holds.create {c c' : ReadCommitted.Session} (hs : Holds s)
    (hk : s.sessions[k]? = some (.create c)) (hclean : Clean s (.statement k now))
    (hn : ReadCommitted.next s.view now c = some (db', c')) :
    Holds ({ s with db := db' }.set k (.create c')) := by
  have hok := hs.ok k _ hk
  cases c with
  | begun j =>
    cases hd : s.db.hasDispatchedRun j with
    | true =>
      simp only [ReadCommitted.next, State.view, hd, if_true] at hn
      cases hn
      exact hs.set trivial
    | false =>
      simp only [ReadCommitted.next, State.view, hd] at hn
      cases hn
      refine hs.set fun r hr _ hdis hj => ?_
      exact hasDispatchedRun_eq_false.mp hd ⟨r, hr, hj, hdis⟩
  | checked j =>
    simp only [ReadCommitted.next, State.view] at hn
    split at hn
    · cases hn
      exact hs.set trivial
    · rename_i hp
      cases hn
      refine hs.set fun r hr hd hact hj => ?_
      rw [RunStatus.active_eq_not_terminal, Bool.not_eq_true'] at hact
      rcases (RunStatus.active_iff r.status).mp hact with hst | hst
      · exact oldestRun_eq_none.mp hp ⟨r, hr, hj, by simp [hst]⟩
      · exact hok r hr hd hst hj
  | read p =>
    simp only [ReadCommitted.next] at hn
    split at hn
    · cases hn
    · cases hn
      exact hs.set ((hclean _ hk).2 p rfl)
  | absent j =>
    simp only [ReadCommitted.next, State.view] at hn
    split at hn
    · cases hn
      exact hs.set trivial
    · rename_i db1 i hins
      cases hn
      obtain ⟨-, ha, rfl⟩ := insertRun_eq_some hins
      exact hs.inserted hk hclean ha _
  | flushed p =>
    cases hn
    exact hs.promoted hk hclean _
  | done _ | raised => cases hn

/-! ### The statements of trigger_job -/

variable {tr : Trigger} {f : Frame} {rest : List Frame}

theorem Trigger.free_of_active (h : tr.active db j = false) :
    Free db j ∧ ∀ n ∈ tr.inserted, n.status.active = true → n.jobId ≠ j := by
  rw [Trigger.active, Bool.or_eq_false_iff, Option.isSome_eq_false_iff, Option.isNone_iff_eq_none,
    List.any_eq_false] at h
  refine ⟨free_of_activeRun h.1, fun n hn hact hj => h.2 n hn ?_⟩
  rw [hact, decide_eq_true hj]
  rfl

/- The frames below the innermost one are in their loops, and rely on nothing. -/
theorem Trigger.Ok.undecided (h : tr.Ok db) (hf : tr.frames = f :: rest) :
    ∀ g, rest.head? = some g → g.decided db = false := by
  intro g hg
  obtain ⟨ds, hds⟩ := h.below g (by rw [hf]; exact List.mem_of_mem_head? hg)
  simp [Frame.decided, hds]

theorem Trigger.Ok.tail (h : tr.Ok db) (hf : tr.frames = f :: rest) :
    ∀ g ∈ rest.tail, ∃ ds, g.phase = .visiting ds := by
  intro g hg
  exact h.below g (by rw [hf]; exact List.mem_of_mem_tail hg)

/- The innermost call goes on to another phase. -/
theorem Trigger.Ok.phase (h : tr.Ok db) (hf : tr.frames = f :: rest) (ph : Phase)
    (hhead : f.triggerType = .dependency → { f with phase := ph }.decided db = true →
      Free db f.jobId ∧ ∀ n ∈ tr.inserted, n.triggerType = .dependency → n.jobId ≠ f.jobId) :
    Trigger.Ok db { tr with frames := { f with phase := ph } :: rest } := by
  refine { h with below := fun g hg => h.below g (by rw [hf]; exact hg), head := ?_ }
  intro g hg
  cases hg
  exact hhead

/- The innermost call returns. -/
theorem Trigger.Ok.pop (h : tr.Ok db) (hf : tr.frames = f :: rest) :
    Trigger.Ok db { tr with frames := rest } := by
  refine { h with below := h.tail hf, head := ?_ }
  intro g hg _ hdec
  rw [h.undecided hf g hg] at hdec
  cases hdec

/- It inserts its row and returns. -/
theorem Trigger.Ok.insert (h : tr.Ok db) (hf : tr.frames = f :: rest) (hdec : f.decided db = true)
    {st : RunStatus} (hst : st.active = true) (now : Time) :
    Trigger.Ok db { frames := rest, inserted := tr.inserted ++ [f.row st now] } := by
  have hhead := h.head f (by rw [hf]; rfl)
  refine ⟨?_, ?_, ?_, h.tail hf, ?_⟩
  · intro n hn
    rcases List.mem_append.mp hn with hn | hn
    · exact h.active n hn
    · rw [List.mem_singleton.mp hn]
      exact hst
  · intro n hn hdep
    rcases List.mem_append.mp hn with hn | hn
    · exact h.free n hn hdep
    · rw [List.mem_singleton.mp hn] at hdep ⊢
      exact (hhead hdep hdec).1
  · rw [List.pairwise_append]
    refine ⟨h.distinct, List.pairwise_singleton _ _, fun a ha b hb hda hdb => ?_⟩
    rw [List.mem_singleton.mp hb] at hdb ⊢
    exact (hhead hdb hdec).2 a ha hda
  · intro g hg _ hdec'
    rw [h.undecided hf g hg] at hdec'
    cases hdec'

theorem Holds.trigger (hs : Holds s) (hk : s.sessions[k]? = some (.trigger tr))
    (hclean : Clean s (.statement k now)) (hn : tr.next s.db now = (db', y)) :
    Holds ({ s with db := db' }.set k y) := by
  have hok : tr.Ok s.db := hs.ok k _ hk
  cases hf : tr.frames with
  | nil =>
    simp only [Trigger.next, hf] at hn
    cases hn
    cases hins : insertAll s.db tr.inserted with
    | none =>
      rw [Option.getD_none]
      exact hs.set trivial
    | some db1 =>
      rw [Option.getD_some]
      obtain ⟨hone, hdeps, hactive, hrows⟩ :=
        insertAll_spec hins hs.one hok.free hok.distinct
      refine hs.commit trivial hone hdeps hactive fun r hr hd hact => ?_
      rcases hrows r hr with hr | ⟨n, hn, hjob, htype, hst⟩
      · exact .inr (was_of_mem hr hd hact)
      · refine .inl ((hclean _ hk).1 (r.jobId, r.status) ?_)
        have hdep : n.triggerType = .dependency := htype ▸ of_decide_eq_true hd
        obtain ⟨frames, inserted⟩ := tr
        cases hf
        rw [hjob, hst]
        exact List.mem_map.mpr ⟨n, List.mem_filter.mpr ⟨hn, decide_eq_true hdep⟩, rfl⟩
  | cons f rest =>
    have hhead := hok.head f (by rw [hf]; rfl)
    simp only [Trigger.next, hf] at hn
    cases hph : f.phase with
    | entered =>
      simp only [hph] at hn
      split at hn
      · cases hn
        exact hs.set trivial
      · split at hn
        · rename_i hempty
          cases hn
          refine hs.set (hok.phase hf .leaf fun hdep _ => hhead hdep ?_)
          simp only [Frame.decided, hph]
          exact hempty
        · cases hn
          exact hs.set (hok.phase hf _ fun _ hdec => by cases hdec)
    | leaf =>
      simp only [hph] at hn
      cases hn
      exact hs.set (hok.insert hf (by simp [Frame.decided, hph]) rfl now)
    | visiting ds =>
      cases ds with
      | nil =>
        simp only [hph] at hn
        split at hn
        · cases hn
          exact hs.set (hok.pop hf)
        · rename_i hno
          cases hn
          obtain ⟨hfree, hown⟩ := Trigger.free_of_active (Bool.eq_false_of_not_eq_true hno)
          exact hs.set (hok.phase hf .creating fun _ _ =>
            ⟨hfree, fun n hn _ => hown n hn (hok.active n hn)⟩)
      | cons d ds =>
        simp only [hph] at hn
        split at hn
        · cases hn
          exact hs.set (hok.phase hf _ fun _ hdec => by cases hdec)
        · rename_i hno
          cases hn
          obtain ⟨hfree, hown⟩ := Trigger.free_of_active (Bool.eq_false_of_not_eq_true hno)
          refine hs.set (y := .trigger _) { hok with below := ?_, head := ?_ }
          · intro g hg
            rcases List.mem_cons.mp hg with rfl | hg
            · exact ⟨ds, rfl⟩
            · exact hok.below g (by rw [hf]; exact hg)
          · intro g hg _ _
            cases hg
            exact ⟨hfree, fun n hn _ => hown n hn (hok.active n hn)⟩
    | creating =>
      simp only [hph] at hn
      cases hn
      exact hs.set (hok.insert hf (by simp [Frame.decided, hph]) rfl now)

/-! ### Every interleaving -/

theorem was_of_wasThere {r' : JobRun} (h : wasThere db r' = true) : Was db r' := by
  obtain ⟨r, hr, hall⟩ := (Option.any_eq_true _ _).mp h
  simp only [Bool.and_eq_true, Bool.or_eq_true, Bool.not_eq_true', decide_eq_true_eq] at hall
  obtain ⟨⟨⟨hjob, hdep⟩, hact⟩, hdis⟩ := hall
  refine ⟨r, Table.mem_of_get hr, Table.key_of_get hr, hjob, hdep, hact, fun h' => ?_⟩
  rcases hdis with hno | hyes
  · rw [hno] at h'
    cases h'
  · exact hyes

theorem Holds.other (hs : Holds s) (hl : leaves s db' = true) : Holds { s with db := db' } := by
  simp only [leaves, Bool.and_eq_true, decide_eq_true_eq, List.all_eq_true, Bool.or_eq_true,
    Bool.not_eq_true'] at hl
  obtain ⟨⟨hdeps, hrows⟩, hlocks⟩ := hl
  have hwas : ∀ r' ∈ db'.runs.rows, isDependency r' = true → r'.status.active = true →
      Was s.db r' := by
    intro r' hr' hd ha
    rcases hrows r' hr' with (hno | hno) | hthere
    · rw [hd] at hno
      cases hno
    · rw [ha] at hno
      cases hno
    · exact was_of_wasThere hthere
  refine ⟨?_, ?_⟩
  · intro r' hr' q' hq' hdr hdq har haq hjob
    obtain ⟨r, hr, hid, hrj, hrd, hra, -⟩ := hwas r' hr' hdr har
    obtain ⟨q, hq, hid', hqj, hqd, hqa, -⟩ := hwas q' hq' hdq haq
    have heq := hs.one r hr q hq hrd hqd hra hqa (hrj.trans (hjob.trans hqj.symm))
    subst heq
    exact db'.runs.eq_of_key_eq hr' hq' (hid.symm.trans hid')
  · intro k y hk
    refine (hs.ok k y hk).mono hdeps (fun p hp hy => ?_) fun r' hr' hd ha =>
      .inr (hwas r' hr' hd ha)
    subst hy
    have hlock := hlocks (.flushed p) (List.mem_filterMap.mpr ⟨_, List.mem_of_getElem? hk, rfl⟩)
    rw [of_decide_eq_true hlock]
    exact hp

theorem Holds.append (hs : Holds s) (hy : y.Ok s.db) :
    Holds { s with sessions := s.sessions ++ [y] } where
  one := hs.one
  ok := by
    intro k z hz
    rcases concat_cases hz with hz | ⟨-, rfl⟩
    · exact hs.ok k z hz
    · exact hy

theorem Holds.step {l : Label} (hs : Holds s) (hclean : Clean s l)
    (hstep : DependencyRuns.step s l = some t) : Holds t := by
  cases l with
  | createDependencyRun j =>
    cases hstep
    exact hs.append trivial
  | triggerJob owner j =>
    obtain ⟨job, -, rfl⟩ := Option.map_eq_some_iff.mp hstep
    refine hs.append (y := .trigger _) ⟨?_, ?_, List.Pairwise.nil, ?_, ?_⟩
    · exact fun n hn => absurd hn List.not_mem_nil
    · exact fun n hn => absurd hn List.not_mem_nil
    · exact fun f hf => absurd hf List.not_mem_nil
    · intro f hf hdep
      cases hf
      cases hdep
  | statement k now =>
    obtain ⟨x, hk, hstep⟩ := Option.bind_eq_some_iff.mp hstep
    obtain ⟨⟨db', y⟩, hn, rfl⟩ := Option.map_eq_some_iff.mp hstep
    cases x with
    | create c =>
      obtain ⟨⟨db1, c'⟩, hc, heq⟩ := Option.map_eq_some_iff.mp hn
      cases heq
      exact hs.create hk hclean hc
    | trigger tr => exact hs.trigger hk hclean (Option.some.inj hn)
    | ended => cases hn
  | other db' =>
    simp only [DependencyRuns.step] at hstep
    split at hstep
    · rename_i hl
      cases hstep
      exact hs.other hl
    · cases hstep

/- As long as no transaction commits a dependency run of a job under another one that has found
none, no job has two of them active. -/
theorem atMostOne_visits (hdb : AtMostOne db) {ls : List Label}
    (hclean : Machine.Along step Clean (start db) ls) :
    Machine.Visits step (fun s => AtMostOne s.db) (start db) ls := by
  refine Machine.visits_of_invariant (I := Holds) (fun s l t hs hc hstep => hs.step hc hstep)
    (fun s hs => hs.one) ⟨hdb, fun k y hk => ?_⟩ hclean
  cases hk

/-! ### One trigger alone -/

/- One statement of a trigger that is not its commit. -/
def Continues (db : Database) (now : Time) (a b : Trigger) : Prop :=
  a.next db now = (db, .trigger b)

abbrev Steps (db : Database) (now : Time) : Trigger → Trigger → Prop :=
  Relation.ReflTransGen (Continues db now)

theorem insertAll_append {db1 db2 : Database} {i : RunId} (h : insertAll db ns = some db1)
    (hn : db1.insertRun n = some (db2, i)) : insertAll db (ns ++ [n]) = some db2 := by
  have happ : insertAll db (ns ++ [n]) = (insertAll db ns).bind fun db1 => insertAll db1 [n] :=
    List.foldlM_append
  rw [happ, h, Option.bind_some]
  simp [insertAll, hn]

/- The session sees its tables as if its rows were committed. -/
theorem insertAll_view (h : insertAll db ns = some db') :
    db'.dependencies = db.dependencies ∧ ∀ j p, db'.HasRun j p ↔
      db.HasRun j p ∨ ∃ n ∈ ns, n.jobId = j ∧ p n.status = true := by
  induction ns generalizing db with
  | nil =>
    cases h
    simp
  | cons n ns ih =>
    obtain ⟨db1, hmap, h⟩ := Option.bind_eq_some_iff.mp h
    obtain ⟨⟨db2, i⟩, hins, rfl⟩ := Option.map_eq_some_iff.mp hmap
    obtain ⟨rfl, ha, rfl⟩ := insertRun_eq_some hins
    obtain ⟨hdeps, hrun⟩ := ih h
    refine ⟨hdeps, fun j p => ?_⟩
    have hadd : (db.addRun n ha).HasRun j p ↔ db.HasRun j p ∨ n.jobId = j ∧ p n.status = true := by
      simp only [HasRun, mem_addRun, or_and_right, exists_or, exists_eq_left, NewRun.row]
    rw [hrun, hadd]
    simp only [List.mem_cons, or_and_right, exists_or, exists_eq_left, or_assoc]

theorem active_eq {own : List NewRun} (h : insertAll db own = some db') (frames : List Frame)
    (j : JobId) : (Trigger.mk frames own).active db j = (db'.activeRun j).isSome := by
  rw [Bool.eq_iff_iff, activeRun, oldestRun_isSome, (insertAll_view h).2]
  simp only [Trigger.active, activeRun, Bool.or_eq_true, oldestRun_isSome, List.any_eq_true,
    Bool.and_eq_true, decide_eq_true_eq]

theorem dependencyIds_eq {own : List NewRun} (h : insertAll db own = some db') (j : JobId) :
    db'.dependencyIds j = db.dependencyIds j := by
  rw [dependencyIds, dependencyIds, (insertAll_view h).1]

/- The loop over the dependency ids, given the calls it makes. -/
theorem steps_visit {prepare : Api.Prepared → JobId → Except Api.ApiError (Api.Prepared × RunId)}
    (hcall : ∀ (st st' : Api.Prepared) (d : JobId) (i : RunId) (g : Frame) (own : List NewRun),
      prepare st d = .ok (st', i) → insertAll db own = some st.1 → g.jobId = f.jobId →
      ∃ own', insertAll db own' = some st'.1 ∧
        Steps db now ⟨⟨d, .dependency, .entered⟩ :: g :: rest, own⟩ ⟨g :: rest, own'⟩)
    (ds : List JobId) {st st' : Api.Prepared} {own : List NewRun}
    (hfold : ds.foldlM (Api.visit prepare) st = .ok st') (hown : insertAll db own = some st.1) :
    ∃ own', insertAll db own' = some st'.1 ∧
      Steps db now ⟨{ f with phase := .visiting ds } :: rest, own⟩
        ⟨{ f with phase := .visiting [] } :: rest, own'⟩ := by
  induction ds generalizing st own with
  | nil =>
    cases hfold
    exact ⟨own, hown, .refl⟩
  | cons d ds ih =>
    obtain ⟨st1, hvisit, hfold⟩ := bind_eq_ok.mp hfold
    unfold Api.visit at hvisit
    cases hact : st.1.activeRun d with
    | some r =>
      rw [hact] at hvisit
      cases hvisit
      obtain ⟨own', hown', hsteps⟩ := ih hfold hown
      refine ⟨own', hown', hsteps.head ?_⟩
      simp [Continues, Trigger.next, active_eq hown, hact]
    | none =>
      rw [hact] at hvisit
      obtain ⟨⟨st2, i⟩, hprep, heq⟩ := map_eq_ok.mp hvisit
      cases heq
      obtain ⟨own1, hown1, hsteps1⟩ :=
        hcall st st2 d i { f with phase := .visiting ds } own hprep hown rfl
      obtain ⟨own', hown', hsteps⟩ := ih hfold hown1
      refine ⟨own', hown', .head ?_ (hsteps1.trans hsteps)⟩
      simp [Continues, Trigger.next, active_eq hown, hact]

/- The statements from the entry of _prepare_trigger_run to its return. -/
theorem steps_prepareTriggerRun (db : Database) (now : Time) :
    ∀ (fuel : ℕ) (st st' : Api.Prepared) (i : RunId) (job : JobId) (tt : TriggerType)
      (stack : List JobId) (rest : List Frame) (own : List NewRun),
      Api.prepareTriggerRun now fuel st job tt stack = .ok (st', i) →
      (∀ v, v ∈ rest.map Frame.jobId → v ∈ stack) → insertAll db own = some st.1 →
      ∃ own', insertAll db own' = some st'.1 ∧
        Steps db now ⟨⟨job, tt, .entered⟩ :: rest, own⟩ ⟨rest, own'⟩ := by
  intro fuel
  induction fuel with
  | zero =>
    intro st st' i job tt stack rest own h
    cases h
  | succ fuel ih =>
    intro st st' i job tt stack rest own h hstack hown
    rw [Api.prepareTriggerRun] at h
    split at h
    · cases h
    · rename_i hnot
      have hrest : job ∉ rest.map Frame.jobId := fun hm => hnot (hstack job hm)
      rw [dependencyIds_eq hown] at h
      split at h
      · rename_i hempty
        split at h
        · cases h
        · rename_i db1 k hcreate
          cases h
          have hleaf : Continues db now ⟨⟨job, tt, .entered⟩ :: rest, own⟩
              ⟨⟨job, tt, .leaf⟩ :: rest, own⟩ := by
            simp only [Continues, Trigger.next, if_neg hrest, if_pos hempty]
          exact ⟨_, insertAll_append hown hcreate, .head hleaf (.single rfl)⟩
      · rename_i hne
        split at h
        · cases h
        · rename_i acc hfold
          have hloop : Continues db now ⟨⟨job, tt, .entered⟩ :: rest, own⟩
              ⟨⟨job, tt, .visiting (db.dependencyIds job)⟩ :: rest, own⟩ := by
            simp only [Continues, Trigger.next, if_neg hrest, if_neg hne]
          have hcall : ∀ (st st' : Api.Prepared) (d : JobId) (i : RunId) (g : Frame)
              (own : List NewRun),
              Api.prepareTriggerRun now fuel st d .dependency (stack ++ [job]) = .ok (st', i) →
              insertAll db own = some st.1 → g.jobId = job →
              ∃ own', insertAll db own' = some st'.1 ∧
                Steps db now ⟨⟨d, .dependency, .entered⟩ :: g :: rest, own⟩ ⟨g :: rest, own'⟩ := by
            intro st st' d i g own hprep hown hg
            refine ih st st' i d .dependency (stack ++ [job]) (g :: rest) own hprep ?_ hown
            intro v hv
            rcases List.mem_cons.mp hv with rfl | hv
            · rw [hg]
              exact List.mem_append_right _ (List.mem_singleton_self _)
            · exact List.mem_append_left _ (hstack v hv)
          obtain ⟨own1, hown1, hvisits⟩ :=
            steps_visit (f := ⟨job, tt, .entered⟩) hcall _ hfold hown
          split at h
          · rename_i r hact
            cases h
            have hpop : Continues db now ⟨⟨job, tt, .visiting []⟩ :: rest, own1⟩ ⟨rest, own1⟩ := by
              simp [Continues, Trigger.next, active_eq hown1, hact]
            exact ⟨own1, hown1, .head hloop (hvisits.tail hpop)⟩
          · rename_i hact
            split at h
            · cases h
            · rename_i db2 k hcreate
              cases h
              have hnone : Continues db now ⟨⟨job, tt, .visiting []⟩ :: rest, own1⟩
                  ⟨⟨job, tt, .creating⟩ :: rest, own1⟩ := by
                simp [Continues, Trigger.next, active_eq hown1, hact]
              exact ⟨_, insertAll_append hown1 hcreate,
                .head hloop ((hvisits.tail hnone).tail rfl)⟩

theorem step_trigger (hk : s.sessions[k]? = some (.trigger tr)) (now : Time) :
    step s (.statement k now) =
      some ({ s with db := (tr.next s.db now).1 }.set k (tr.next s.db now).2) := by
  simp only [step, hk, Option.bind_some, Session.next, Option.map_some]

theorem run_statement {n : ℕ} {u : State}
    (hrun : Machine.run step s (List.replicate n (.statement k now)) = some t)
    (hstep : step t (.statement k now) = some u) :
    Machine.run step s (List.replicate (n + 1) (.statement k now)) = some u := by
  rw [List.replicate_succ']
  exact Machine.run_append.mpr ⟨t, hrun, Machine.run_cons.mpr ⟨u, hstep, rfl⟩⟩

theorem run_of_steps {a b : Trigger} (h : Steps s.db now a b)
    (hk : s.sessions[k]? = some (.trigger a)) :
    ∃ n t, Machine.run step s (List.replicate n (.statement k now)) = some t ∧ t.db = s.db ∧
      t.sessions[k]? = some (.trigger b) := by
  induction h with
  | refl => exact ⟨0, s, rfl, rfl, hk⟩
  | tail _ hlast ih =>
    obtain ⟨n, t, hrun, hdb, htk⟩ := ih
    have hstep := step_trigger htk now
    rw [hdb, hlast] at hstep
    exact ⟨n + 1, _, run_statement hrun hstep, rfl, getElem?_set_of_some htk⟩

/- Executed without interruption, the statements are the transaction of the API. -/
theorem statements_triggerJob {owner : UserId} {out : List RunId} {i : RunId}
    (hk : s.sessions[k]? = some (.trigger { frames := [⟨j, .manual, .entered⟩] }))
    (h : Api.triggerJob s.db owner j now = .ok ((db', out), i)) :
    ∃ n t, Machine.run step s (List.replicate n (.statement k now)) = some t ∧ t.db = db' ∧
      t.sessions[k]? = some .ended := by
  unfold Api.triggerJob at h
  split at h
  · cases h
  · obtain ⟨own, hown, hsteps⟩ :=
      steps_prepareTriggerRun s.db now _ _ _ _ _ _ _ [] [] h (fun v hv => hv) rfl
    obtain ⟨n, t, hrun, hdb, htk⟩ := run_of_steps hsteps hk
    have hstep := step_trigger htk now
    have hcommit : Trigger.next ⟨[], own⟩ s.db now = (db', .ended) := by
      rw [Trigger.next, hown, Option.getD_some]
    rw [hdb, hcommit] at hstep
    exact ⟨n + 1, _, run_statement hrun hstep, rfl, getElem?_set_of_some htk⟩

/-! ### Two upstreams of one job -/

def clean (s : State) : Label → Bool
  | .statement k _ => (s.sessions[k]?).all fun x =>
      ((x.publishes s.db).all fun e => (List.range s.sessions.length).all fun k' =>
        decide (k' = k) || (s.sessions[k']?).all fun y => !y.relies s.db e.1 e.2) &&
      match x with
      | .create (.read p) => (s.db.statusOf p).any RunStatus.active
      | _ => true
  | _ => true

theorem clean_iff {l : Label} : clean s l = true ↔ Clean s l := by
  cases l with
  | statement k now =>
    simp only [clean, Clean, Option.all_eq_true, Bool.and_eq_true, List.all_eq_true, List.mem_range,
      Bool.or_eq_true, decide_eq_true_eq, Bool.not_eq_true']
    refine forall₂_congr fun x hx => and_congr ?_ ?_
    · refine forall₂_congr fun e he => ⟨fun h k' y hk' hne => ?_, fun h k' hk' => ?_⟩
      · exact (h k' (List.getElem?_eq_some_iff.mp hk').1).resolve_left hne y hk'
      · by_cases hkk : k' = k
        · exact .inl hkk
        · exact .inr fun y hy => h k' y hy hkk
    · constructor
      · rintro h p rfl
        exact h
      · intro h
        split
        · exact h _ rfl
        · rfl
  | _ => exact iff_of_true rfl trivial

instance (s : State) (l : Label) : Decidable (Clean s l) := decidable_of_iff _ clean_iff

/- Jobs 0 and 1, and job 2 that depends on both. -/
def report : Database := Database.ofNames 1 ["extract", "clean", "report"] [(2, 0), (2, 1)]

theorem atMostOne_of_nil (h : db.runs.rows = []) : AtMostOne db := by
  intro r hr
  rw [h] at hr
  exact absurd hr List.not_mem_nil

def rowsOf (db : Database) : List (RunId × JobId × TriggerType × RunStatus) :=
  db.runs.rows.map fun r => (r.id, r.jobId, r.triggerType, r.status)

/- A worker looks for a run of job 2 while the API triggers it, and promotes the pending run
after the API has committed. -/
def triggerThenPromote : List Label :=
  [.createDependencyRun 2, .triggerJob 1 2] ++ List.replicate 8 (.statement 1 1) ++
    [.statement 0 2, .statement 1 3, .statement 1 3, .statement 0 4, .statement 0 4, .statement 0 5]

/- Two workers, each done with one of the upstreams, look for a run of job 2 before either has
inserted one. -/
def bothFindNone : List Label :=
  [.createDependencyRun 2, .createDependencyRun 2, .statement 0 1, .statement 1 1, .statement 0 2,
    .statement 1 2, .statement 0 3, .statement 1 3]

theorem atMostOne_triggerThenPromote :
    ((Machine.run step (start report) triggerThenPromote).map fun s => rowsOf s.db) =
      some [(0, 0, .dependency, .queued), (1, 1, .dependency, .queued), (2, 2, .manual, .queued)] ∧
    Machine.Visits step (fun s => AtMostOne s.db) (start report) triggerThenPromote :=
  ⟨by decide, atMostOne_visits (atMostOne_of_nil rfl) (by decide)⟩

theorem not_atMostOne : ¬ ∀ (db : Database) (ls : List Label), AtMostOne db →
    Machine.Visits step (fun s => AtMostOne s.db) (start db) ls := by
  intro hclaim
  have hall : (Machine.run step (start report) bothFindNone).any (fun s =>
      decide (rowsOf s.db =
        [(0, 2, .dependency, .queued), (1, 2, .dependency, .queued)])) = true := by
    decide
  obtain ⟨s, hs, hrows⟩ := (Option.any_eq_true _ _).mp hall
  have hone : AtMostOne s.db := (hclaim report bothFindNone (atMostOne_of_nil rfl)).last hs
  have hget : ∀ i, (i, 2, .dependency, .queued) ∈ rowsOf s.db →
      ∃ r ∈ s.db.runs.rows, r.id = i ∧ r.jobId = 2 ∧ isDependency r = true ∧
        r.status.active = true := by
    intro i hi
    obtain ⟨r, hr, heq⟩ := List.mem_map.mp hi
    simp only [Prod.mk.injEq] at heq
    obtain ⟨hid, hjob, htype, hst⟩ := heq
    exact ⟨r, hr, hid, hjob, decide_eq_true htype, by rw [hst]; rfl⟩
  rw [of_decide_eq_true hrows] at hget
  obtain ⟨r, hr, hr0, hrj, hrd, hra⟩ := hget 0 (by decide)
  obtain ⟨q, hq, hq1, hqj, hqd, hqa⟩ := hget 1 (by decide)
  have heq := hone r hr q hq hrd hqd hra hqa (hrj.trans hqj.symm)
  rw [heq, hq1] at hr0
  cases hr0

end JobScheduler.DependencyRuns
