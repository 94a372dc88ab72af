import JobScheduler.Gating

/-!
# The round of a manual trigger

A trigger that returns a pending run starts, or joins, one run of every dependency; the
pending run should wait for these. dependents_ready accepts any success in the history
of a dependency, so this is true of a trigger only if there is no such history, or if
there is a single dependency whose next success is then the first one to be noticed.
-/

namespace JobScheduler
open Library Database

namespace Sys

variable {cfg : Settings} {cronNext : Cron.CronNext} {s t : Sys} {l : Label} {job : JobId}

/-! ### Conditions on the steps -/

/- The step leaves the dependencies of the job as they are. -/
def keepsEdges (job : JobId) (s : Sys) : Label → Bool
  | .editJobs _ dependencies =>
    (dependencies.rows.all fun d => !decide (d.jobId = job) ||
      (s.db.dependencyIds job).contains d.dependsOnJobId) &&
    (s.db.dependencyIds job).all fun k => dependencies.rows.any fun d =>
      decide (d.jobId = job) && decide (d.dependsOnJobId = k)
  | .deleteJob _ k => decide (k ≠ job) && !(s.db.dependencyIds job).contains k
  | _ => true

/- A handler's finish_run and the flush of a promotion find their run not yet in a terminal state;
the thread of a canceled handler may find it canceled. -/
def finishesActive (s : Sys) (l : Label) : Bool :=
  match l.tx s with
  | some (.finishRun k ..) => !(s.db.runs.get k).any fun r =>
      r.status.terminal && (l.actor.isSome || decide (r.status ≠ .canceled))
  | some (.promoteRun k) => !(s.db.runs.get k).any fun r => r.status.terminal
  | _ => true

theorem Trans.dependsOn_iff (h : Trans cfg cronNext s l t) (hk : keepsEdges job s l = true)
    {k : JobId} : t.db.DependsOn job k ↔ s.db.DependsOn job k := by
  rcases h.evolves.edges with heq | ⟨jobs, rfl⟩ | ⟨owner, j, rfl, hdb⟩
  · unfold Database.DependsOn
    rw [heq]
  · simp only [keepsEdges, Bool.and_eq_true, List.all_eq_true, Bool.or_eq_true, Bool.not_eq_true',
      decide_eq_false_iff_not, List.contains_iff_mem, List.any_eq_true, decide_eq_true_eq,
      mem_dependencyIds] at hk
    refine ⟨fun hd => ?_, fun hd => ?_⟩
    · obtain ⟨d, hd, hj, rfl⟩ := hd
      rcases hk.1 d hd with hne | hdep
      · exact absurd hj hne
      · exact hdep
    · obtain ⟨d, hd, hj, hdk⟩ := hk.2 k hd
      exact ⟨d, hd, hj, hdk⟩
  · simp only [keepsEdges, Bool.and_eq_true, decide_eq_true_eq, Bool.not_eq_true',
      ← Bool.not_eq_true, List.contains_iff_mem, mem_dependencyIds] at hk
    rw [hdb]
    refine ⟨fun hd => ?_, fun hd => ?_⟩
    · obtain ⟨d, hd, hj, hdk⟩ := hd
      exact ⟨d, (Table.mem_rows_deleteWhere.mp hd).1, hj, hdk⟩
    · have hne : k ≠ j := fun heq => hk.2 (heq ▸ hd)
      obtain ⟨d, hd, hj, hdk⟩ := hd
      refine ⟨d, Table.mem_rows_deleteWhere.mpr ⟨hd, ?_⟩, hj, hdk⟩
      simp [hj, hdk, hne, Ne.symm hk.1]

theorem not_deleted_of_keepsEdges (hk : keepsEdges job s l = true) {k : JobId}
    (hd : s.db.DependsOn job k) (owner : UserId) : l ≠ .deleteJob owner k := by
  intro hl
  subst hl
  simp only [keepsEdges, Bool.and_eq_true, Bool.not_eq_true', ← Bool.not_eq_true,
    List.contains_iff_mem, mem_dependencyIds] at hk
  exact hk.2 hd

/- A terminal run is not finished once more. -/
theorem canceled_of_finishesActive (hf : finishesActive s l = true) {i : RunId}
    {res : ExecResult} {error : Option String} {now : Time}
    (htx : l.tx s = some (.finishRun i res error now)) {r : JobRun}
    (hr : s.db.runs.get i = some r) (hterm : r.status.terminal = true) : r.status = .canceled := by
  by_contra hne
  simp [finishesActive, htx, hr, hterm, hne] at hf

theorem active_of_finishesActive (hf : finishesActive s l = true) {i : RunId}
    (htx : l.tx s = some (.promoteRun i)) {r : JobRun} (hr : s.db.runs.get i = some r) :
    r.status.terminal = false := by
  simpa [finishesActive, htx, hr] using hf

theorem keepsSuccess_of_finishesActive (hf : finishesActive s l = true) : KeepsSuccess s l := by
  intro tx htx
  cases tx with
  | finishRun i res error now =>
    simp only [RunTx.keepsSuccess, Bool.or_eq_true, decide_eq_true_eq]
    refine Or.inl fun hst => ?_
    obtain ⟨r, hr, hrs⟩ := Option.map_eq_some_iff.mp hst
    have hcan := canceled_of_finishesActive hf htx hr (by rw [hrs]; rfl)
    rw [hrs] at hcan
    cases hcan
  | promoteRun i =>
    refine decide_eq_true fun hst => ?_
    obtain ⟨r, hr, hrs⟩ := Option.map_eq_some_iff.mp hst
    have hact := active_of_finishesActive hf htx hr
    rw [hrs] at hact
    cases hact
  | _ => rfl

theorem RowChange.terminal_status {r r' : JobRun} (hf : finishesActive s l = true)
    (hr : s.db.runs.get r.id = some r) (hrow : RowChange s l r r')
    (hterm : r.status.terminal = true) : r'.status = r.status := by
  rcases hrow with rfl | ⟨tx, htx, hrow⟩
  · rfl
  · cases hrow with
    | same => rfl
    | claimed _ w allow now hgr =>
      rw [RunTx.claimable_not_terminal hgr] at hterm
      cases hterm
    | canceled _ now ha =>
      rw [RunStatus.active_eq_not_terminal, hterm] at ha
      cases ha
    | promoted _ now hp =>
      rw [hp] at hterm
      cases hterm
    | finished _ res error now hne =>
      exact absurd (canceled_of_finishesActive hf htx hr hterm) hne
    | flushed =>
      rw [active_of_finishesActive hf htx hr] at hterm
      cases hterm

/-! ### After the trigger -/

theorem Trans.dependenciesSucceeded_of_keepsEdges (h : Trans cfg cronNext s l t)
    (hk : keepsEdges job s l = true) (hsucc : KeepsSuccess s l)
    (hj : s.db.DependenciesSucceeded job) : t.db.DependenciesSucceeded job := by
  intro k hd
  have hd' := (h.dependsOn_iff hk).mp hd
  exact h.hasSucceeded hsucc (hj k hd') (not_deleted_of_keepsEdges hk hd')

/- The run of `job` waits since the tables were db0: the dependencies are still the same,
the runs that were over keep their outcome, and a fan-out lists the job only when all its
dependencies have succeeded. -/
structure Waits (job : JobId) (db0 : Database) (s : Sys) : Prop where
  next : db0.runs.next ≤ s.db.runs.next
  edges : ∀ k, s.db.DependsOn job k ↔ db0.DependsOn job k
  jobId : ∀ i q r, db0.runs.get i = some q → s.db.runs.get i = some r → r.jobId = q.jobId
  final : ∀ i q r, db0.runs.get i = some q → s.db.runs.get i = some r →
    q.status.terminal = true → r.status = q.status
  listed : ∀ h, Works s h → job ∈ h.pc.todo → s.db.DependenciesSucceeded job

theorem Trans.waits (h : Trans cfg cronNext s l t) {db0 : Database}
    (hk : keepsEdges job s l = true) (hf : finishesActive s l = true) (hw : Waits job db0 s) :
    Waits job db0 t where
  next := hw.next.trans h.evolves.next
  edges := fun k => (h.dependsOn_iff hk).trans (hw.edges k)
  jobId := by
    intro i q r' hq hr'
    have hlt := (Table.lt_next_of_get hq).trans_le hw.next
    obtain ⟨r, hr, hrow⟩ := h.evolves.back hr' hlt
    exact hrow.jobId.trans (hw.jobId i q r hq hr)
  final := by
    intro i q r' hq hr' hterm
    have hlt := (Table.lt_next_of_get hq).trans_le hw.next
    obtain ⟨r, hr, hrow⟩ := h.evolves.back hr' hlt
    have heq := hw.final i q r hq hr hterm
    have hid : r.id = i := Table.key_of_get hr
    rw [hrow.terminal_status hf (by rw [hid]; exact hr) (by rw [heq]; exact hterm), heq]
  listed := by
    intro k hwk hj
    rcases h.todo hwk hj with ⟨k', hw', hj'⟩ | ⟨hdb, k', -, c, -, hready⟩
    · exact h.dependenciesSucceeded_of_keepsEdges hk (keepsSuccess_of_finishesActive hf)
        (hw.listed k' hw' hj')
    · obtain ⟨-, -, -, -, -, hdeps⟩ := Store.mem_dependentsReady.mp hready
      rw [hdb]
      exact hdeps

/- A success of job k among the runs that count as new. -/
def FreshSuccess (new : RunId → Prop) (db : Database) (k : JobId) : Prop :=
  ∃ i r, db.runs.get i = some r ∧ r.jobId = k ∧ r.status = .succeeded ∧ new i

/- The run was not over in the tables db0. -/
def NotOver (db0 : Database) (i : RunId) : Prop :=
  ∀ q, db0.runs.get i = some q → q.status.terminal = false

theorem FreshSuccess.step {new : RunId → Prop} {k : JobId} (hfresh : FreshSuccess new s.db k)
    (h : Trans cfg cronNext s l t) (hsucc : KeepsSuccess s l)
    (hdel : ∀ owner, l ≠ .deleteJob owner k) : FreshSuccess new t.db k := by
  obtain ⟨i, r, hr, rfl, hst, hq⟩ := hfresh
  obtain ⟨r', hr', hj', hst'⟩ := h.stays_succeeded hsucc hr hst hdel
  exact ⟨i, r', hr', hj', hst', hq⟩

/- Whoever may promote the job has seen a success of a dependency since db0. -/
def OffersFresh (job : JobId) (db0 : Database) (s : Sys) : Prop :=
  ∀ h, Works s h → h.pc.Offers s.db job → ∃ k, s.db.DependsOn job k ∧ FreshSuccess (NotOver db0) s.db k

theorem OffersFresh.all {db0 : Database} (hw : Waits job db0 s) (hfresh : OffersFresh job db0 s)
    (hsingle : ∀ k m, db0.DependsOn job k → db0.DependsOn job m → k = m) {h : Handler}
    (hh : Works s h) (hoff : h.pc.Offers s.db job) :
    ∀ k, db0.DependsOn job k → FreshSuccess (NotOver db0) s.db k := by
  intro k hk
  obtain ⟨m, hm, hsucc⟩ := hfresh h hh hoff
  rw [hsingle k m hk ((hw.edges m).mp hm)]
  exact hsucc

/- User 1 has `report` (2), which depends on `orders` (0) and `customers` (1). -/
def fanIn : Database := Database.ofNames 1 ["orders", "customers", "report"] [(2, 0), (2, 1)]

/- Handler h takes the next message, its run succeeds and dependents_ready has answered. -/
def succeeds (h : ℕ) (now : Time) : List Label :=
  taken h now ++ [.executorReturns h { status := .succeeded }, .advance h now, .advance h now,
    .advance h now]

def returns (out : Except Api.ApiError (Api.Prepared × RunId)) (p : RunId) : Bool :=
  match out with
  | .ok (_, i) => decide (i = p)
  | .error _ => false

end Sys
end JobScheduler
