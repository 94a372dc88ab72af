import JobScheduler.Api.Trigger

/-!
# What a trigger creates

The runs that a successful `trigger_job` adds, the order in which it adds them, and which
of them it publishes, for any dependency graph and any runs that are there before.
-/

namespace JobScheduler.Api
open Library Database

/-- The run i is in db' and was not in db. -/
def NewRunAt (db db' : Database) (i : RunId) (r : JobRun) : Prop :=
  db.runs.get i = none ∧ db'.runs.get i = some r

/-! ### The order of the insertions -/

/- A part of the recursion: the edges stay, a run is added only after an active run of each
dependency, and the ids to publish grow by the new queued runs, in order. -/
structure Orders (st st' : Prepared) : Prop where
  dependencies : st'.1.dependencies = st.1.dependencies
  jobs : st'.1.jobs = st.1.jobs
  next : st.1.runs.next ≤ st'.1.runs.next
  old : ∀ i r, st.1.runs.get i = some r → st'.1.runs.get i = some r
  fresh : ∀ i r, NewRunAt st.1 st'.1 i r → st.1.runs.next ≤ i
  before : ∀ i r, NewRunAt st.1 st'.1 i r → ∀ k, st.1.DependsOn r.jobId k →
    ∃ m q, m < i ∧ st'.1.runs.get m = some q ∧ q.jobId = k ∧ q.status.active = true
  published : ∃ new, st'.2 = st.2 ++ new ∧ new.Pairwise (· < ·) ∧
    ∀ i, i ∈ new ↔ ∃ r, NewRunAt st.1 st'.1 i r ∧ r.status = .queued

theorem not_newRunAt_self (db : Database) (i : RunId) (r : JobRun) : ¬ NewRunAt db db i r := by
  rintro ⟨hn, hr⟩
  rw [hn] at hr
  cases hr

theorem Orders.refl (st : Prepared) : Orders st st where
  dependencies := rfl
  jobs := rfl
  next := le_rfl
  old := fun _ _ h => h
  fresh := fun i r h => absurd h (not_newRunAt_self _ i r)
  before := fun i r h => absurd h (not_newRunAt_self _ i r)
  published := by
    refine ⟨[], (List.append_nil _).symm, List.Pairwise.nil, fun i => ?_⟩
    refine iff_of_false List.not_mem_nil ?_
    rintro ⟨r, hr, -⟩
    exact not_newRunAt_self _ i r hr

/- A new run was added in the first part or in the second. -/
theorem Orders.newRunAt_iff {st st' st'' : Prepared} (h : Orders st st') (k : Orders st' st'')
    {i : RunId} {r : JobRun} :
    NewRunAt st.1 st''.1 i r ↔ NewRunAt st.1 st'.1 i r ∨ NewRunAt st'.1 st''.1 i r := by
  unfold NewRunAt
  constructor
  · rintro ⟨hn, hr⟩
    cases hm : st'.1.runs.get i with
    | none => exact .inr ⟨rfl, hr⟩
    | some q =>
      have hq := k.old i q hm
      rw [hr] at hq
      cases hq
      exact .inl ⟨hn, rfl⟩
  · rintro (⟨hn, hr⟩ | ⟨hn, hr⟩)
    · exact ⟨hn, k.old i r hr⟩
    · refine ⟨?_, hr⟩
      cases hg : st.1.runs.get i with
      | none => rfl
      | some q =>
        rw [h.old i q hg] at hn
        cases hn

theorem Orders.trans {st st' st'' : Prepared} (h : Orders st st') (k : Orders st' st'') :
    Orders st st'' where
  dependencies := k.dependencies.trans h.dependencies
  jobs := k.jobs.trans h.jobs
  next := h.next.trans k.next
  old := fun i r hr => k.old i r (h.old i r hr)
  fresh := by
    intro i r hr
    rcases (h.newRunAt_iff k).mp hr with hr | hr
    · exact h.fresh i r hr
    · exact h.next.trans (k.fresh i r hr)
  before := by
    intro i r hr d hd
    rcases (h.newRunAt_iff k).mp hr with hr | hr
    · obtain ⟨m, q, hlt, hq, hj, hs⟩ := h.before i r hr d hd
      exact ⟨m, q, hlt, k.old m q hq, hj, hs⟩
    · refine k.before i r hr d ?_
      unfold Database.DependsOn
      rw [h.dependencies]
      exact hd
  published := by
    obtain ⟨new, hids, hlt, hnew⟩ := h.published
    obtain ⟨new', hids', hlt', hnew'⟩ := k.published
    refine ⟨new ++ new', ?_, ?_, ?_⟩
    · rw [hids', hids, List.append_assoc]
    · refine List.pairwise_append.mpr ⟨hlt, hlt', fun a ha b hb => ?_⟩
      obtain ⟨r, hr, -⟩ := (hnew a).mp ha
      obtain ⟨q, hq, -⟩ := (hnew' b).mp hb
      exact (Table.lt_next_of_get hr.2).trans_le (k.fresh b q hq)
    · intro i
      rw [List.mem_append, hnew, hnew']
      simp only [h.newRunAt_iff k, or_and_right, exists_or]

theorem newRunAt_addRun {db : Database} {n : NewRun} (ha : db.Admits n) {i : RunId} {r : JobRun} :
    NewRunAt db (db.addRun n ha) i r ↔ i = db.runs.next ∧ r = n.row db.runs.next := by
  unfold NewRunAt
  rw [get_addRun]
  constructor
  · rintro ⟨hn, hr⟩
    by_cases hi : i = db.runs.next
    · rw [if_pos hi] at hr
      cases hr
      exact ⟨hi, rfl⟩
    · rw [if_neg hi, hn] at hr
      cases hr
  · rintro ⟨rfl, rfl⟩
    exact ⟨db.runs.get_next, if_pos rfl⟩

theorem get_addRun_old {db : Database} {n : NewRun} (ha : db.Admits n) (i : RunId) (r : JobRun)
    (hr : db.runs.get i = some r) : (db.addRun n ha).runs.get i = some r := by
  have hext : db.Extends (fun _ => True) (db.addRun n ha) := extends_addRun db n ha trivial
  exact hext.old i r hr

theorem orders_addRun {st : Prepared} {n : NewRun} (ha : st.1.Admits n) {new : List RunId}
    (hdeps : ∀ k, st.1.DependsOn n.jobId k → st.1.HasRun k RunStatus.active)
    (hnew : new = if n.status = .queued then [st.1.runs.next] else []) :
    Orders st (st.1.addRun n ha, st.2 ++ new) where
  dependencies := rfl
  jobs := rfl
  next := Nat.le_succ _
  old := get_addRun_old ha
  fresh := by
    intro i r hr
    obtain ⟨rfl, -⟩ := (newRunAt_addRun ha).mp hr
    exact le_rfl
  before := by
    intro i r hr k hk
    obtain ⟨rfl, rfl⟩ := (newRunAt_addRun ha).mp hr
    obtain ⟨m, q, hq, hj, hs⟩ := hasRun_iff_get.mp (hdeps k hk)
    exact ⟨m, q, Table.lt_next_of_get hq, get_addRun_old ha m q hq, hj, hs⟩
  published := by
    refine ⟨new, rfl, ?_, ?_⟩
    · rw [hnew]
      split
      · exact List.pairwise_singleton _ _
      · exact List.Pairwise.nil
    · intro i
      simp only [newRunAt_addRun ha]
      rw [hnew]
      split
      · rename_i hs
        rw [List.mem_singleton]
        constructor
        · exact fun hi => ⟨_, ⟨hi, rfl⟩, hs⟩
        · rintro ⟨_, hi, _⟩
          exact hi.1
      · rename_i hs
        refine iff_of_false List.not_mem_nil ?_
        rintro ⟨r, ⟨-, rfl⟩, hq⟩
        exact hs hq

theorem prepareTriggerRun_orders {now : Time} {fuel : ℕ} {st st' : Prepared} {i : RunId}
    {job : JobId} {tt : TriggerType} {stack : List JobId}
    (h : prepareTriggerRun now fuel st job tt stack = .ok (st', i)) : Orders st st' := by
  refine prepareTriggerRun_rel Orders.refl (fun _ _ _ hab hbc => hab.trans hbc) ?_ ?_
    _ _ _ _ _ _ _ h
  · intro st job tt ha hnil
    refine orders_addRun ha (fun k hk => ?_) rfl
    exact absurd hk (dependencyIds_eq_nil.mp hnil k)
  · intro st job tt ha _ hdeps
    have hadd : Orders st (st.1.addRun _ ha, st.2 ++ []) := orders_addRun ha hdeps rfl
    rwa [List.append_nil] at hadd

/-! ### A whole trigger -/

/-- v is j, or is reached from j along edges whose intermediate jobs have no active run. -/
def Reached (db : Database) (j v : JobId) : Prop :=
  v = j ∨ ∃ u, Opened db j u ∧ db.DependsOn u v

theorem Opened.reached {db : Database} {j v : JobId} (h : Opened db j v) : Reached db j v := by
  cases h with
  | refl => exact .inl rfl
  | step hu hd _ => exact .inr ⟨_, hu, hd⟩

theorem Opened.eq_of_leaf {db : Database} {j v : JobId} (hleaf : db.dependencyIds j = [])
    (h : Opened db j v) : v = j := by
  induction h with
  | refl => rfl
  | step _ hd _ ih =>
    rw [ih] at hd
    exact absurd hd (dependencyIds_eq_nil.mp hleaf _)

/-- What a trigger of job j that returns run i leaves behind: the tables and the published
ids are `st`. -/
structure Creates (db : Database) (j : JobId) (st : Prepared) (i : RunId) : Prop where
  jobs : st.1.jobs = db.jobs
  dependencies : st.1.dependencies = db.dependencies
  old : ∀ k r, db.runs.get k = some r → st.1.runs.get k = some r
  once : ∀ k r m q, NewRunAt db st.1 k r → NewRunAt db st.1 m q → r.jobId = q.jobId → k = m
  status : ∀ k r, NewRunAt db st.1 k r → r.status = openedStatus db r.jobId
  published : st.2.Nodup ∧ ∀ k, k ∈ st.2 ↔ ∃ r, NewRunAt db st.1 k r ∧ r.status = .queued
  active : ∀ v, Reached db j v → st.1.HasRun v RunStatus.active
  only : ∀ k r, NewRunAt db st.1 k r → Reached db j r.jobId
  order : ∀ k r m q, NewRunAt db st.1 k r → NewRunAt db st.1 m q →
    db.DependsOn r.jobId q.jobId → m < k
  returned : ∃ r, st.1.runs.get i = some r ∧ r.jobId = j ∧
    (db.dependencyIds j ≠ [] ∧ db.HasRun j RunStatus.active → db.activeRun j = some r) ∧
    (¬ (db.dependencyIds j ≠ [] ∧ db.HasRun j RunStatus.active) → NewRunAt db st.1 i r)

/- The facts about new runs that depend on how the walk began. -/
structure Opens (db db' : Database) (j : JobId) : Prop where
  once : ∀ k r m q, NewRunAt db db' k r → NewRunAt db db' m q → r.jobId = q.jobId → k = m
  status : ∀ k r, NewRunAt db db' k r → r.status = openedStatus db r.jobId
  opened : ∀ k r, NewRunAt db db' k r → Opened db j r.jobId
  idle : ∀ k r, NewRunAt db db' k r → db.dependencyIds j = [] ∨
    ¬ db.HasRun r.jobId RunStatus.active

theorem Prepares.opens {j : JobId} {stack : List JobId} {db db' : Database} {i : RunId}
    (h : Prepares j stack db db' i) : Opens db db' j := by
  by_cases hd : db.dependencyIds j = []
  · obtain ⟨-, n, ha, rfl, hs, rfl⟩ := h.leaf hd
    refine ⟨?_, ?_, ?_, fun _ _ _ => .inl hd⟩
    · intro k r m q hr hq _
      rw [((newRunAt_addRun ha).mp hr).1, ((newRunAt_addRun ha).mp hq).1]
    · intro k r hr
      rw [((newRunAt_addRun ha).mp hr).2]
      show n.status = openedStatus db n.jobId
      rw [hs, openedStatus, hd]
      rfl
    · intro k r hr
      rw [((newRunAt_addRun ha).mp hr).2]
      exact .refl
  · have hw := h.walk hd
    refine ⟨fun k r m q hr hq heq => hw.once k r hr.2 hr.1 m q hq.2 hq.1 heq, ?_, ?_, ?_⟩
    · exact fun k r hr => (hw.ext.new k r hr.2 hr.1).2.1
    · intro k r hr
      obtain ⟨-, -, -, -, root, rfl, ho⟩ := hw.ext.new k r hr.2 hr.1
      exact ho
    · exact fun k r hr => .inr (hw.ext.new k r hr.2 hr.1).2.2.2.1

/- An active run of a job that had none is new. -/
theorem newRunAt_of_idle {db : Database} {st : Prepared} (ho : Orders (db, []) st) {v : JobId}
    (hidle : ¬ db.HasRun v RunStatus.active) (h : st.1.HasRun v RunStatus.active) :
    ∃ k r, NewRunAt db st.1 k r ∧ r.jobId = v := by
  obtain ⟨k, r, hr, hj, hs⟩ := hasRun_iff_get.mp h
  refine ⟨k, r, ⟨?_, hr⟩, hj⟩
  cases hg : db.runs.get k with
  | none => rfl
  | some q =>
    have hq := ho.old k q hg
    rw [hr] at hq
    cases hq
    exact absurd (hasRun_iff_get.mpr ⟨k, r, hg, hj, hs⟩) hidle

/- Every job that the walk opens has an active run for each of its dependencies. -/
theorem active_of_opened {db : Database} {j u v : JobId} {st : Prepared} {i : RunId}
    (hp : Prepares j [] db st.1 i) (ho : Orders (db, []) st) (hu : Opened db j u)
    (hd : db.DependsOn u v) : st.1.HasRun v RunStatus.active := by
  induction hu generalizing v with
  | refl => exact hp.returned.closed v hd
  | step _ hdep hidle ih =>
    obtain ⟨k, r, hnew, hj⟩ := newRunAt_of_idle ho hidle (ih hdep)
    obtain ⟨m, q, -, hq, hqj, hqs⟩ := ho.before k r hnew v (hj ▸ hd)
    exact hasRun_iff_get.mpr ⟨m, q, hq, hqj, hqs⟩

/- Between two new runs the run of the dependency comes first: it is the one that was there
before the run k. -/
theorem before_of_dependsOn {db : Database} {j : JobId} {st : Prepared} {i : RunId}
    (hp : Prepares j [] db st.1 i) (ho : Orders (db, []) st) {k m : RunId} {r q : JobRun}
    (hr : NewRunAt db st.1 k r) (hq : NewRunAt db st.1 m q) (hd : db.DependsOn r.jobId q.jobId) :
    m < k := by
  have hopens := hp.opens
  obtain ⟨m', q', hlt, hq', hj, hs⟩ := ho.before k r hr q.jobId hd
  cases hg : db.runs.get m' with
  | none =>
    rw [hopens.once m q m' q' hq ⟨hg, hq'⟩ hj.symm]
    exact hlt
  | some p =>
    have hp' := ho.old m' p hg
    rw [hq'] at hp'
    cases hp'
    rcases hopens.idle m q hq with hleaf | hidle
    · have hrj : r.jobId = j := (hopens.opened k r hr).eq_of_leaf hleaf
      rw [hrj] at hd
      exact absurd hd (dependencyIds_eq_nil.mp hleaf _)
    · exact absurd (hasRun_iff_get.mpr ⟨m', q', hg, hj, hs⟩) hidle

theorem triggerJob_orders {db : Database} {owner : UserId} {j : JobId} {now : Time}
    {st : Prepared} {i : RunId} (h : triggerJob db owner j now = .ok (st, i)) :
    Orders (db, []) st := by
  unfold triggerJob at h
  split at h
  · cases h
  · exact prepareTriggerRun_orders h

/-- What trigger_job creates, returns and publishes, when it does not raise. -/
theorem triggerJob_creates {db : Database} {owner : UserId} {j : JobId} {now : Time}
    {st : Prepared} {i : RunId} (h : triggerJob db owner j now = .ok (st, i)) :
    Creates db j st i := by
  have hp := triggerJob_prepares h
  have ho := triggerJob_orders h
  have hopens := hp.opens
  refine ⟨ho.jobs, ho.dependencies, ho.old, hopens.once, hopens.status, ?_, ?_, ?_, ?_, ?_⟩
  · obtain ⟨new, hids, hlt, hnew⟩ := ho.published
    rw [List.nil_append] at hids
    rw [hids]
    exact ⟨hlt.imp fun hab => Nat.ne_of_lt hab, hnew⟩
  · rintro v (rfl | ⟨u, hu, hd⟩)
    · exact hp.returned.hasRun
    · exact active_of_opened hp ho hu hd
  · exact fun k r hr => (hopens.opened k r hr).reached
  · exact fun k r m q hr hq hd => before_of_dependsOn hp ho hr hq hd
  · obtain ⟨r, hr, hj, hleaf, hinner⟩ := hp.returned.row
    refine ⟨r, hr, hj, ?_, ?_⟩
    · rintro ⟨hne, hrun⟩
      rcases hinner hne with hact | ⟨hidle, -⟩
      · exact hact
      · exact absurd hrun hidle
    · intro hnot
      refine ⟨?_, hr⟩
      by_cases hd : db.dependencyIds j = []
      · rw [(hp.leaf hd).1]
        exact db.runs.get_next
      · have hidle : ¬ db.HasRun j RunStatus.active := fun hrun => hnot ⟨hd, hrun⟩
        rcases hinner hd with hact | ⟨-, hs⟩
        · obtain ⟨hmem, hrj, hrs⟩ := oldestRun_eq_some hact
          exact absurd ⟨r, hmem, hrj, hrs⟩ hidle
        · cases hg : db.runs.get i with
          | none => rfl
          | some q =>
            have hq := ho.old i q hg
            rw [hr] at hq
            cases hq
            exact absurd (hasRun_iff_get.mpr ⟨i, r, hg, hj, by rw [hs]; rfl⟩) hidle

/- report (3) depends on orders (1) and customers (2), which share extract (0). -/
def diamond : Database :=
  Database.ofNames 1 ["extract", "orders", "customers", "report"] [(1, 0), (2, 0), (3, 1), (3, 2)]

theorem triggerJob_creates_diamond :
    ∃ st i, triggerJob diamond 1 3 0 = .ok (st, i) ∧ Creates diamond 3 st i := by
  have h : (triggerJob diamond 1 3 0).isOk = true := by decide
  cases hr : triggerJob diamond 1 3 0 with
  | error e =>
    rw [hr] at h
    cases h
  | ok out => exact ⟨out.1, out.2, rfl, triggerJob_creates hr⟩

end JobScheduler.Api
