import JobScheduler.Common.Queries
import JobScheduler.Library.Except

/-!
# Manual triggers (backend/api/routers/jobs.py)

`trigger_job` and its recursion `_prepare_trigger_run` over the dependency graph. The
session is committed when the recursion returns and rolled back when it raises, so a
call has either the new tables or an error. The recursion ends because the stack holds
distinct jobs that have a dependency: `fuel` bounds its depth, and a trigger never runs
out of it (`triggerJob_ne_recursionError`).
-/

namespace JobScheduler.Api
open Library Database

inductive ApiError where
  | httpException (statusCode : ℕ) (detail : String)
  | integrityError
  | recursionError
  deriving DecidableEq, Repr

def getJob (db : Database) (jobId : JobId) (ownerUserId : UserId) : Option Job :=
  (db.jobs.get jobId).filter fun j => decide (j.ownerUserId = some ownerUserId)

def cycleDetail (stack : List JobId) (jobId : JobId) : String :=
  "job dependency cycle detected: " ++
    String.intercalate " -> " ((stack ++ [jobId]).map toString)

/- The tables and runs_to_publish. -/
abbrev Prepared := Database × List RunId

/- The body of the loop over dependency_ids: only a dependency without an active run is
prepared. -/
def visit (prepare : Prepared → JobId → Except ApiError (Prepared × RunId)) (acc : Prepared)
    (depId : JobId) : Except ApiError Prepared :=
  match acc.1.activeRun depId with
  | some _ => .ok acc
  | none => (prepare acc depId).map Prod.fst

def prepareTriggerRun (now : Time) :
    ℕ → Prepared → JobId → TriggerType → List JobId → Except ApiError (Prepared × RunId)
  | 0, _, _, _, _ => .error .recursionError
  | fuel + 1, st, jobId, triggerType, stack =>
    if jobId ∈ stack then .error (.httpException 409 (cycleDetail stack jobId))
    else if (st.1.dependencyIds jobId).isEmpty then
      match st.1.createRun jobId triggerType none 1 .queued now with
      | none => .error .integrityError
      | some (db, i) => .ok ((db, st.2 ++ [i]), i)
    else
      match (st.1.dependencyIds jobId).foldlM (visit fun acc depId =>
          prepareTriggerRun now fuel acc depId .dependency (stack ++ [jobId])) st with
      | .error e => .error e
      | .ok acc =>
        match acc.1.activeRun jobId with
        | some existing => .ok (acc, existing.id)
        | none =>
          match acc.1.createRun jobId triggerType none 1 .pending now with
          | none => .error .integrityError
          | some (db, i) => .ok ((db, acc.2), i)

def recursionDepth (db : Database) : ℕ := db.dependencies.rows.length + 1

/- The committed tables, the ids to publish in order, and the run returned with 202. -/
def triggerJob (db : Database) (ownerUserId : UserId) (jobId : JobId) (now : Time) :
    Except ApiError (Prepared × RunId) :=
  match getJob db jobId ownerUserId with
  | none => .error (.httpException 404 "job not found")
  | some _ => prepareTriggerRun now (recursionDepth db) (db, []) jobId .manual []

/-! ### The jobs a trigger opens -/

/- v is reached from j along edges whose target has no active run: the jobs that the
recursion started at j walks into. -/
inductive Opened (db : Database) (j : JobId) : JobId → Prop where
  | refl : Opened db j j
  | step {u v : JobId} : Opened db j u → db.DependsOn u v → ¬ db.HasRun v RunStatus.active →
      Opened db j v

/- The status a run created by the recursion starts with. -/
def openedStatus (db : Database) (j : JobId) : RunStatus :=
  if (db.dependencyIds j).isEmpty then .queued else .pending

theorem Opened.mono {new : JobRun → Prop} {db db' : Database} (h : db.Extends new db')
    {j v : JobId} (ho : Opened db' j v) : Opened db j v := by
  induction ho with
  | refl => exact .refl
  | step _ hd ha ih => exact .step ih (h.dependsOn.mp hd) fun hr => ha (h.hasRun hr)

theorem Opened.head {db : Database} {i j v : JobId} (hd : db.DependsOn i j)
    (ha : ¬ db.HasRun j RunStatus.active) (ho : Opened db j v) : Opened db i v := by
  induction ho with
  | refl => exact .step .refl hd ha
  | step _ hd' ha' ih => exact .step ih hd' ha'

theorem Extends.dependencyIds {new : JobRun → Prop} {db db' : Database}
    (h : db.Extends new db') (j : JobId) : db'.dependencyIds j = db.dependencyIds j := by
  unfold Database.dependencyIds
  rw [h.dependencies]

/- One walk of the recursion from the tables db to the tables db', started below the
jobs in `stack` from the jobs in `roots`. -/
structure Walk (roots : JobId → Prop) (stack : List JobId) (db db' : Database) : Prop where
  ext : db.Extends (fun r => r.status = openedStatus db r.jobId ∧ r.jobId ∉ stack ∧
    ¬ db.HasRun r.jobId RunStatus.active ∧ ∃ j, roots j ∧ Opened db j r.jobId) db'
  closed : ∀ i r, db'.runs.get i = some r → db.runs.get i = none →
    ∀ k, db.DependsOn r.jobId k → db'.HasRun k RunStatus.active
  once : ∀ i r, db'.runs.get i = some r → db.runs.get i = none →
    ∀ k q, db'.runs.get k = some q → db.runs.get k = none → r.jobId = q.jobId → i = k

theorem openedStatus_active (db : Database) (j : JobId) : (openedStatus db j).active = true := by
  unfold openedStatus
  split <;> rfl

/- A run that the walk added is active, so no later part of the walk opens its job. -/
theorem Walk.active {roots : JobId → Prop} {stack : List JobId} {db db' : Database}
    (h : Walk roots stack db db') {i : RunId} {r : JobRun} (hr : db'.runs.get i = some r)
    (hn : db.runs.get i = none) : db'.HasRun r.jobId RunStatus.active := by
  have hs := (h.ext.new i r hr hn).2.1
  refine hasRun_iff_get.mpr ⟨i, r, hr, rfl, ?_⟩
  rw [hs]
  exact openedStatus_active db r.jobId

theorem Walk.refl (roots : JobId → Prop) (stack : List JobId) (db : Database) :
    Walk roots stack db db where
  ext := Extends.refl _ db
  closed := by
    intro i r hr hn
    rw [hn] at hr
    cases hr
  once := by
    intro i r hr hn
    rw [hn] at hr
    cases hr

theorem Walk.trans {roots : JobId → Prop} {stack : List JobId} {db db' db'' : Database}
    (h : Walk roots stack db db') (k : Walk roots stack db' db'') : Walk roots stack db db'' where
  ext := by
    refine h.ext.trans ?_
    refine k.ext.mono ?_
    intro r hr
    obtain ⟨hs, hst, hact, j, hj, ho⟩ := hr
    refine ⟨?_, hst, fun ha => hact (h.ext.hasRun ha), j, hj, ho.mono h.ext⟩
    rw [hs, openedStatus, openedStatus, Extends.dependencyIds h.ext]
  closed := by
    intro i r hr hn v hv
    rcases k.ext.cases hr with hr' | ⟨hn', -, -⟩
    · exact k.ext.hasRun (h.closed i r hr' hn v hv)
    · exact k.closed i r hr hn' v (h.ext.dependsOn.mpr hv)
  once := by
    intro i r hr hn m q hq hm heq
    rcases k.ext.cases hr with hr' | ⟨hn', -, -, -, hidle, -⟩ <;>
      rcases k.ext.cases hq with hq' | ⟨hm', -, -, -, hidle', -⟩
    · exact h.once i r hr' hn m q hq' hm heq
    · exact absurd (heq ▸ h.active hr' hn) hidle'
    · exact absurd (heq ▸ h.active hq' hm) hidle
    · exact k.once i r hr hn' m q hq hm' heq

/- What a call of the recursion returns with, seen from the tables it started with. -/
structure Returned (job : JobId) (db db' : Database) (i : RunId) : Prop where
  row : ∃ r, db'.runs.get i = some r ∧ r.jobId = job ∧
    (db.dependencyIds job = [] → r.status = .queued) ∧
    (db.dependencyIds job ≠ [] → db.activeRun job = some r ∨
      (¬ db.HasRun job RunStatus.active ∧ r.status = .pending))
  closed : ∀ k, db.DependsOn job k → db'.HasRun k RunStatus.active

theorem Walk.head {stack : List JobId} {db db' : Database} {job dep : JobId}
    (h : Walk (fun j => j = dep) stack db db') (hd : db.DependsOn job dep)
    (ha : ¬ db.HasRun dep RunStatus.active) : Walk (fun j => j = job) stack db db' where
  ext := by
    refine h.ext.mono ?_
    intro r hr
    obtain ⟨hs, hst, hact, j, rfl, ho⟩ := hr
    exact ⟨hs, hst, hact, job, rfl, ho.head hd ha⟩
  closed := h.closed
  once := h.once

theorem Walk.weaken {roots : JobId → Prop} {stack : List JobId} {db db' : Database}
    {jobs : List JobId} (h : Walk roots (stack ++ jobs) db db') : Walk roots stack db db' where
  ext := by
    refine h.ext.mono ?_
    intro r hr
    obtain ⟨hs, hst, hrest⟩ := hr
    exact ⟨hs, fun hm => hst (List.mem_append_left _ hm), hrest⟩
  closed := h.closed
  once := h.once

/- Creating the run of the job the walk stands on, once its dependencies have one. -/
theorem walk_addRun {stack : List JobId} {db : Database} {n : NewRun} (ha : db.Admits n)
    (hs : n.status = openedStatus db n.jobId) (hst : n.jobId ∉ stack)
    (hact : ¬ db.HasRun n.jobId RunStatus.active)
    (hdeps : ∀ k, db.DependsOn n.jobId k → db.HasRun k RunStatus.active) :
    Walk (fun j => j = n.jobId) stack db (db.addRun n ha) := by
  have hext : db.Extends (fun r => r.jobId = n.jobId ∧
      (r.status = openedStatus db r.jobId ∧ r.jobId ∉ stack ∧
        ¬ db.HasRun r.jobId RunStatus.active ∧ ∃ j, j = n.jobId ∧ Opened db j r.jobId))
      (db.addRun n ha) :=
    extends_addRun db n ha ⟨rfl, hs, hst, hact, n.jobId, rfl, .refl⟩
  have hnew : ∀ i r, (db.addRun n ha).runs.get i = some r → db.runs.get i = none →
      i = db.runs.next := by
    intro i r hr hn
    by_contra hne
    rw [get_addRun, if_neg hne, hn] at hr
    cases hr
  refine ⟨hext.mono fun r hr => hr.2, ?_, ?_⟩
  · intro i r hr hn k hk
    have hjob : r.jobId = n.jobId := (hext.new i r hr hn).2.1
    rw [hjob] at hk
    exact hext.hasRun (hdeps k hk)
  · intro i r hr hn k q hq hk _
    rw [hnew i r hr hn, hnew k q hq hk]

theorem Returned.hasRun {job : JobId} {db db' : Database} {i : RunId}
    (h : Returned job db db' i) : db'.HasRun job RunStatus.active := by
  obtain ⟨r, hr, hj, hq, hp⟩ := h.row
  refine hasRun_iff_get.mpr ⟨i, r, hr, hj, ?_⟩
  by_cases hd : db.dependencyIds job = []
  · rw [hq hd]
    rfl
  · rcases hp hd with ha | ⟨-, hs⟩
    · exact (oldestRun_eq_some ha).2.2
    · rw [hs]
      rfl

/- The specification of a call: a job without dependencies always gets a new queued run,
any other job a walk over the jobs it opens. -/
structure Prepares (job : JobId) (stack : List JobId) (db db' : Database) (i : RunId) : Prop where
  notOnStack : job ∉ stack
  returned : Returned job db db' i
  leaf : db.dependencyIds job = [] →
    i = db.runs.next ∧ ∃ (n : NewRun) (ha : db.Admits n), n.jobId = job ∧ n.status = .queued ∧
      db' = db.addRun n ha
  walk : db.dependencyIds job ≠ [] → Walk (fun j => j = job) stack db db'

theorem Prepares.walk_of_idle {job : JobId} {stack : List JobId} {db db' : Database} {i : RunId}
    (h : Prepares job stack db db' i) (hact : ¬ db.HasRun job RunStatus.active) :
    Walk (fun j => j = job) stack db db' := by
  by_cases hd : db.dependencyIds job = []
  · obtain ⟨-, n, ha, rfl, hs, rfl⟩ := h.leaf hd
    refine walk_addRun ha ?_ h.notOnStack hact ?_
    · rw [hs, openedStatus, hd]
      rfl
    · intro k hk
      exact absurd hk (dependencyIds_eq_nil.mp hd k)
  · exact h.walk hd

section
variable {prepare : Prepared → JobId → Except ApiError (Prepared × RunId)} {stack : List JobId}
  {job : JobId}

theorem visit_walk
    (hcall : ∀ st st' i j, prepare st j = .ok (st', i) → Prepares j stack st.1 st'.1 i)
    {dep : JobId} {acc out : Prepared} (hd : acc.1.DependsOn job dep)
    (hout : visit prepare acc dep = .ok out) :
    Walk (fun j => j = job) stack acc.1 out.1 ∧ out.1.HasRun dep RunStatus.active := by
  unfold visit at hout
  cases hact : acc.1.activeRun dep with
  | some r =>
    rw [hact] at hout
    cases hout
    obtain ⟨hr, hj, hs⟩ := oldestRun_eq_some hact
    exact ⟨Walk.refl _ _ _, r, hr, hj, hs⟩
  | none =>
    rw [hact] at hout
    have hidle : ¬ acc.1.HasRun dep RunStatus.active := oldestRun_eq_none.mp hact
    cases hp : prepare acc dep with
    | error e =>
      simp only [hp] at hout
      cases hout
    | ok res =>
      simp only [hp] at hout
      cases hout
      have hprep := hcall acc res.1 res.2 dep hp
      exact ⟨(hprep.walk_of_idle hidle).head hd hidle, hprep.returned.hasRun⟩

theorem foldlM_walk
    (hcall : ∀ st st' i j, prepare st j = .ok (st', i) → Prepares j stack st.1 st'.1 i)
    {deps : List JobId} {acc out : Prepared} (hd : ∀ d ∈ deps, acc.1.DependsOn job d)
    (hout : deps.foldlM (visit prepare) acc = .ok out) :
    Walk (fun j => j = job) stack acc.1 out.1 ∧
      ∀ d ∈ deps, out.1.HasRun d RunStatus.active := by
  induction deps generalizing acc with
  | nil =>
    cases hout
    exact ⟨Walk.refl _ _ _, fun d h => absurd h List.not_mem_nil⟩
  | cons d deps ih =>
    rw [List.foldlM_cons] at hout
    cases hv : visit prepare acc d with
    | error e =>
      rw [hv] at hout
      cases hout
    | ok mid =>
      rw [hv] at hout
      obtain ⟨hw, hrun⟩ := visit_walk hcall (hd d (List.mem_cons_self ..)) hv
      have hrest : ∀ k ∈ deps, mid.1.DependsOn job k :=
        fun k hk => hw.ext.dependsOn.mpr (hd k (List.mem_cons_of_mem _ hk))
      obtain ⟨hw', hall⟩ := ih hrest hout
      refine ⟨hw.trans hw', ?_⟩
      intro k hk
      rcases List.mem_cons.mp hk with rfl | hk
      · exact hw'.ext.hasRun hrun
      · exact hall k hk

end

/- A walk below a job on the stack leaves the active run of that job as it was. -/
theorem Walk.activeRun {roots : JobId → Prop} {stack : List JobId} {db db' : Database}
    {job : JobId} (h : Walk roots stack db db') (hj : job ∈ stack) :
    db'.activeRun job = db.activeRun job := by
  refine oldestRun_congr ?_
  intro r hr _
  refine ⟨fun hm => ?_, fun hm => Table.mem_of_get (h.ext.old r.id r (Table.get_of_mem hm))⟩
  rcases h.ext.cases (Table.get_of_mem hm) with hold | ⟨-, -, -, hst, -⟩
  · exact Table.mem_of_get hold
  · rw [hr] at hst
    exact absurd hj hst

theorem prepareTriggerRun_prepares (now : Time) :
    ∀ (fuel : ℕ) (st st' : Prepared) (i : RunId) (job : JobId) (tt : TriggerType)
      (stack : List JobId), prepareTriggerRun now fuel st job tt stack = .ok (st', i) →
      Prepares job stack st.1 st'.1 i := by
  intro fuel
  induction fuel with
  | zero =>
    intro st st' i job tt stack h
    cases h
  | succ fuel ih =>
    intro st st' i job tt stack h
    rw [prepareTriggerRun] at h
    split at h
    · cases h
    · rename_i hstack
      split at h
      · rename_i hnil
        have hnil : st.1.dependencyIds job = [] := List.isEmpty_iff.mp hnil
        split at h
        · cases h
        · rename_i db k hcreate
          cases h
          obtain ⟨rfl, ha, rfl⟩ := insertRun_eq_some hcreate
          have hrow := get_addRun st.1 _ ha st.1.runs.next
          rw [if_pos rfl] at hrow
          refine ⟨hstack, ⟨⟨_, hrow, rfl, fun _ => rfl, fun hne => absurd hnil hne⟩, ?_⟩,
            fun _ => ⟨rfl, _, ha, rfl, rfl, rfl⟩, fun hne => absurd hnil hne⟩
          intro k hk
          exact absurd hk (dependencyIds_eq_nil.mp hnil k)
      · rename_i hne
        have hne : st.1.dependencyIds job ≠ [] := fun hnil => hne (by rw [hnil]; rfl)
        have hcall : ∀ (st st' : Prepared) (i : RunId) (j : JobId),
            prepareTriggerRun now fuel st j .dependency (stack ++ [job]) = .ok (st', i) →
              Prepares j (stack ++ [job]) st.1 st'.1 i :=
          fun st st' i j hp => ih st st' i j .dependency (stack ++ [job]) hp
        split at h
        · cases h
        · rename_i acc hfold
          obtain ⟨hw, hall⟩ := foldlM_walk hcall (fun d hd => mem_dependencyIds.mp hd) hfold
          have hact := hw.activeRun (List.mem_append_right stack (List.mem_singleton_self job))
          have hdeps : ∀ k, st.1.DependsOn job k → acc.1.HasRun k RunStatus.active :=
            fun k hk => hall k (mem_dependencyIds.mpr hk)
          split at h
          · rename_i r hr
            cases h
            have hmem := (oldestRun_eq_some hr).1
            refine ⟨hstack, ⟨⟨r, Table.get_of_mem hmem, (oldestRun_eq_some hr).2.1,
              fun hnil => absurd hnil hne, fun _ => Or.inl (hact ▸ hr)⟩, hdeps⟩,
              fun hnil => absurd hnil hne, fun _ => hw.weaken⟩
          · rename_i hr
            split at h
            · cases h
            · rename_i db k hcreate
              cases h
              obtain ⟨rfl, ha, rfl⟩ := insertRun_eq_some hcreate
              have hidle : ¬ acc.1.HasRun job RunStatus.active := oldestRun_eq_none.mp hr
              have hidle' : ¬ st.1.HasRun job RunStatus.active :=
                fun hrun => hidle (hw.ext.hasRun hrun)
              have hrow := get_addRun acc.1 _ ha acc.1.runs.next
              rw [if_pos rfl] at hrow
              have hstatus : RunStatus.pending = openedStatus acc.1 job := by
                rw [openedStatus, Extends.dependencyIds hw.ext, if_neg]
                rwa [List.isEmpty_iff]
              have hadd : Walk (fun j => j = job) stack acc.1 (acc.1.addRun _ ha) :=
                walk_addRun ha hstatus hstack hidle
                  fun k hk => hdeps k (hw.ext.dependsOn.mp hk)
              refine ⟨hstack, ⟨⟨_, hrow, rfl, fun hnil => absurd hnil hne,
                fun _ => Or.inr ⟨hidle', rfl⟩⟩, fun k hk => hadd.ext.hasRun (hdeps k hk)⟩,
                fun hnil => absurd hnil hne, fun _ => hw.weaken.trans hadd⟩

/-! ### Induction over a call -/

/- The row that the recursion inserts. -/
def triggeredRow (now : Time) (job : JobId) (tt : TriggerType) (status : RunStatus) : NewRun :=
  { jobId := job, triggerType := tt, status := status, createdAt := now }

theorem foldlM_rel {R : Prepared → Prepared → Prop} (hrefl : ∀ st, R st st)
    (htrans : ∀ a b c, R a b → R b c → R a c)
    {prepare : Prepared → JobId → Except ApiError (Prepared × RunId)}
    (hcall : ∀ st st' i j, prepare st j = .ok (st', i) → R st st') {deps : List JobId}
    {st st' : Prepared} (h : deps.foldlM (visit prepare) st = .ok st') : R st st' := by
  induction deps generalizing st with
  | nil =>
    cases h
    exact hrefl _
  | cons d deps ih =>
    obtain ⟨mid, hmid, h⟩ := bind_eq_ok.mp h
    refine htrans st mid st' ?_ (ih h)
    unfold visit at hmid
    split at hmid
    · cases hmid
      exact hrefl _
    · obtain ⟨res, hres, rfl⟩ := map_eq_ok.mp hmid
      exact hcall st res.1 res.2 d hres

/-- A reflexive and transitive relation holds between the start and the end of a call when it
holds for its two kinds of insertion: the queued run of a job without dependencies, which is
published, and the pending run of a job all of whose dependencies have an active run. The calls
below the first one are made for a dependency. -/
theorem prepareTriggerRun_rel_of {R : Prepared → Prepared → Prop} {K : TriggerType → Prop}
    {now : Time} (hrefl : ∀ st, R st st) (htrans : ∀ a b c, R a b → R b c → R a c)
    (hdep : K .dependency)
    (hleaf : ∀ (st : Prepared) (job : JobId) (tt : TriggerType)
      (ha : st.1.Admits (triggeredRow now job tt .queued)), K tt → st.1.dependencyIds job = [] →
      R st (st.1.addRun (triggeredRow now job tt .queued) ha, st.2 ++ [st.1.runs.next]))
    (hinner : ∀ (st : Prepared) (job : JobId) (tt : TriggerType)
      (ha : st.1.Admits (triggeredRow now job tt .pending)), K tt → st.1.dependencyIds job ≠ [] →
      (∀ k, st.1.DependsOn job k → st.1.HasRun k RunStatus.active) →
      R st (st.1.addRun (triggeredRow now job tt .pending) ha, st.2)) :
    ∀ (fuel : ℕ) (st st' : Prepared) (i : RunId) (job : JobId) (tt : TriggerType)
      (stack : List JobId), K tt → prepareTriggerRun now fuel st job tt stack = .ok (st', i) →
      R st st' := by
  intro fuel
  induction fuel with
  | zero =>
    intro st st' i job tt stack _ h
    cases h
  | succ fuel ih =>
    intro st st' i job tt stack htt h
    rw [prepareTriggerRun] at h
    split at h
    · cases h
    · split at h
      · rename_i hnil
        split at h
        · cases h
        · rename_i db k hcreate
          cases h
          obtain ⟨rfl, ha, rfl⟩ := insertRun_eq_some hcreate
          exact hleaf st job tt ha htt (List.isEmpty_iff.mp hnil)
      · rename_i hne
        have hne : st.1.dependencyIds job ≠ [] := fun hnil => hne (by rw [hnil]; rfl)
        split at h
        · cases h
        · rename_i acc hfold
          have hacc : R st acc := foldlM_rel hrefl htrans
            (fun st st' i j hp => ih st st' i j .dependency (stack ++ [job]) hdep hp) hfold
          obtain ⟨hw, hall⟩ := foldlM_walk
            (fun st st' i j hp => prepareTriggerRun_prepares now fuel st st' i j .dependency
              (stack ++ [job]) hp) (fun d hd => mem_dependencyIds.mp hd) hfold
          split at h
          · cases h
            exact hacc
          · split at h
            · cases h
            · rename_i db k hcreate
              cases h
              obtain ⟨rfl, ha, rfl⟩ := insertRun_eq_some hcreate
              refine htrans _ _ _ hacc (hinner acc job tt ha htt ?_ ?_)
              · rwa [Extends.dependencyIds hw.ext]
              · intro d hd
                exact hall d (mem_dependencyIds.mpr (hw.ext.dependsOn.mp hd))

/- The same for insertions of any trigger type. -/
theorem prepareTriggerRun_rel {R : Prepared → Prepared → Prop} {now : Time}
    (hrefl : ∀ st, R st st) (htrans : ∀ a b c, R a b → R b c → R a c)
    (hleaf : ∀ (st : Prepared) (job : JobId) (tt : TriggerType)
      (ha : st.1.Admits (triggeredRow now job tt .queued)), st.1.dependencyIds job = [] →
      R st (st.1.addRun (triggeredRow now job tt .queued) ha, st.2 ++ [st.1.runs.next]))
    (hinner : ∀ (st : Prepared) (job : JobId) (tt : TriggerType)
      (ha : st.1.Admits (triggeredRow now job tt .pending)), st.1.dependencyIds job ≠ [] →
      (∀ k, st.1.DependsOn job k → st.1.HasRun k RunStatus.active) →
      R st (st.1.addRun (triggeredRow now job tt .pending) ha, st.2))
    (fuel : ℕ) (st st' : Prepared) (i : RunId) (job : JobId) (tt : TriggerType)
    (stack : List JobId) (h : prepareTriggerRun now fuel st job tt stack = .ok (st', i)) :
    R st st' :=
  prepareTriggerRun_rel_of (K := fun _ => True) hrefl htrans trivial
    (fun st job tt ha _ => hleaf st job tt ha) (fun st job tt ha _ => hinner st job tt ha)
    fuel st st' i job tt stack trivial h

/-! ### The recursion ends -/

/- Distinct jobs with a dependency are no more than the edges. -/
theorem length_le_dependencies {db : Database} {stack : List JobId} (hnodup : stack.Nodup)
    (hdeps : ∀ j ∈ stack, db.dependencyIds j ≠ []) :
    stack.length ≤ db.dependencies.rows.length := by
  have hsub : stack ⊆ db.dependencies.rows.map JobDependency.jobId := by
    intro j hj
    obtain ⟨k, hk⟩ := List.exists_mem_of_ne_nil _ (hdeps j hj)
    obtain ⟨d, hd, hdj, -⟩ := mem_dependencyIds.mp hk
    exact List.mem_map.mpr ⟨d, hd, hdj⟩
  have hlen := List.Nodup.length_le_of_subset hnodup hsub
  rwa [List.length_map] at hlen

/- Where the loop over the dependencies stops with an error. -/
theorem foldlM_visit_error {prepare : Prepared → JobId → Except ApiError (Prepared × RunId)}
    {deps : List JobId} {acc : Prepared} {e : ApiError}
    (h : deps.foldlM (visit prepare) acc = .error e) :
    ∃ before d after mid, deps = before ++ d :: after ∧
      before.foldlM (visit prepare) acc = .ok mid ∧ mid.1.activeRun d = none ∧
      prepare mid d = .error e := by
  induction deps generalizing acc with
  | nil => cases h
  | cons d deps ih =>
    rw [List.foldlM_cons] at h
    cases hv : visit prepare acc d with
    | ok next =>
      rw [hv] at h
      obtain ⟨before, d', after, mid, rfl, hmid, hidle, hp⟩ := ih h
      refine ⟨d :: before, d', after, mid, rfl, ?_, hidle, hp⟩
      rw [List.foldlM_cons, hv]
      exact hmid
    | error e' =>
      rw [hv] at h
      cases h
      unfold visit at hv
      split at hv
      · cases hv
      · rename_i hidle
        refine ⟨[], d, deps, acc, rfl, rfl, hidle, ?_⟩
        cases hp : prepare acc d with
        | error e' =>
          rw [hp] at hv
          cases hv
          rfl
        | ok res =>
          rw [hp] at hv
          cases hv

theorem createRun_eq_none {db : Database} {job : JobId} {tt : TriggerType} {status : RunStatus}
    {now : Time} (h : db.createRun job tt none 1 status now = none) :
    ¬ db.Admits (triggeredRow now job tt status) := by
  intro ha
  unfold triggeredRow at ha
  rw [Database.createRun, insertRun, dif_pos ha] at h
  cases h

/-- The ways in which a call raises: at its own job, at an insertion, or in the call for one
of its dependencies. -/
theorem prepareTriggerRun_error {now : Time} {fuel : ℕ} {st : Prepared} {job : JobId}
    {tt : TriggerType} {stack : List JobId} {e : ApiError}
    (h : prepareTriggerRun now (fuel + 1) st job tt stack = .error e) :
    (job ∈ stack ∧ e = .httpException 409 (cycleDetail stack job)) ∨
    (e = .integrityError ∧ ∃ (db : Database) (status : RunStatus),
      st.1.Extends (fun _ => True) db ∧ ¬ db.Admits (triggeredRow now job tt status)) ∨
    (job ∉ stack ∧ ∃ mid d, st.1.DependsOn job d ∧ st.1.Extends (fun _ => True) mid.1 ∧
      ¬ mid.1.HasRun d RunStatus.active ∧
      prepareTriggerRun now fuel mid d .dependency (stack ++ [job]) = .error e) := by
  rw [prepareTriggerRun] at h
  split at h
  · rename_i hstack
    cases h
    exact .inl ⟨hstack, rfl⟩
  · rename_i hstack
    have hcall : ∀ (st st' : Prepared) (i : RunId) (j : JobId),
        prepareTriggerRun now fuel st j .dependency (stack ++ [job]) = .ok (st', i) →
          Prepares j (stack ++ [job]) st.1 st'.1 i :=
      fun st st' i j hp =>
        prepareTriggerRun_prepares now fuel st st' i j .dependency (stack ++ [job]) hp
    split at h
    · split at h
      · rename_i hcreate
        cases h
        exact .inr (.inl ⟨rfl, st.1, .queued, Extends.refl _ _, createRun_eq_none hcreate⟩)
      · cases h
    · split at h
      · rename_i hfold
        cases h
        obtain ⟨before, d, after, mid, hdeps, hmid, hidle, hp⟩ := foldlM_visit_error hfold
        have hmem : ∀ k ∈ before ++ d :: after, st.1.DependsOn job k := by
          intro k hk
          exact mem_dependencyIds.mp (hdeps ▸ hk)
        obtain ⟨hw, -⟩ := foldlM_walk hcall
          (fun k hk => hmem k (List.mem_append_left _ hk)) hmid
        refine .inr (.inr ⟨hstack, mid, d, hmem d ?_, hw.ext.mono fun _ _ => trivial,
          oldestRun_eq_none.mp hidle, hp⟩)
        exact List.mem_append_right _ (List.mem_cons_self ..)
      · rename_i acc hfold
        obtain ⟨hw, -⟩ := foldlM_walk hcall (fun d hd => mem_dependencyIds.mp hd) hfold
        split at h
        · cases h
        · split at h
          · rename_i hcreate
            cases h
            exact .inr (.inl ⟨rfl, acc.1, .pending, hw.ext.mono fun _ _ => trivial,
              createRun_eq_none hcreate⟩)
          · cases h

/- Below a stack of distinct jobs with dependencies, fuel for the remaining edges is enough. -/
theorem prepareTriggerRun_ne_recursionError (now : Time) :
    ∀ (fuel : ℕ) (st : Prepared) (job : JobId) (tt : TriggerType) (stack : List JobId),
      stack.Nodup → (∀ j ∈ stack, st.1.dependencyIds j ≠ []) →
      st.1.dependencies.rows.length < fuel + stack.length →
      prepareTriggerRun now fuel st job tt stack ≠ .error .recursionError := by
  intro fuel
  induction fuel with
  | zero =>
    intro st job tt stack hnodup hdeps hfuel
    have hle := length_le_dependencies hnodup hdeps
    omega
  | succ fuel ih =>
    intro st job tt stack hnodup hdeps hfuel h
    rcases prepareTriggerRun_error h with ⟨-, he⟩ | ⟨he, -⟩ | ⟨hstack, mid, d, hd, hext, -, hp⟩
    · cases he
    · cases he
    · refine ih mid d .dependency (stack ++ [job]) ?_ ?_ ?_ hp
      · rw [← List.concat_eq_append]
        exact List.Nodup.concat hstack hnodup
      · intro k hk
        rw [Extends.dependencyIds hext]
        rcases List.mem_append.mp hk with hk | hk
        · exact hdeps k hk
        · rw [List.mem_singleton.mp hk]
          exact fun hnil => dependencyIds_eq_nil.mp hnil d hd
      · rw [hext.dependencies, List.length_append, List.length_singleton]
        omega

theorem triggerJob_ne_recursionError (db : Database) (owner : UserId) (job : JobId) (now : Time) :
    triggerJob db owner job now ≠ .error .recursionError := by
  unfold triggerJob
  split
  · exact fun h => by cases h
  · refine prepareTriggerRun_ne_recursionError now _ _ _ _ _ List.nodup_nil ?_ ?_
    · exact fun j hj => absurd hj List.not_mem_nil
    · exact Nat.lt_succ_self _

/-! ### The runs a trigger publishes -/

/- The list of ids grows by new queued runs only. -/
structure Publishes (st st' : Prepared) : Prop where
  next : st.1.runs.next ≤ st'.1.runs.next
  old : ∀ i r, st.1.runs.get i = some r → st'.1.runs.get i = some r
  ids : ∀ i ∈ st'.2, i ∈ st.2 ∨ st.1.runs.next ≤ i ∧
    ∃ r, st'.1.runs.get i = some r ∧ r.status = .queued

theorem Publishes.refl (st : Prepared) : Publishes st st :=
  ⟨le_rfl, fun _ _ h => h, fun _ h => Or.inl h⟩

theorem Publishes.trans {st st' st'' : Prepared} (h : Publishes st st')
    (k : Publishes st' st'') : Publishes st st'' where
  next := h.next.trans k.next
  old := fun i r hr => k.old i r (h.old i r hr)
  ids := by
    intro i hi
    rcases k.ids i hi with hi | ⟨hle, hr⟩
    · rcases h.ids i hi with hi | ⟨hle, r, hr, hs⟩
      · exact Or.inl hi
      · exact Or.inr ⟨hle, r, k.old i r hr, hs⟩
    · exact Or.inr ⟨h.next.trans hle, hr⟩

/- Adding a run and publishing it if it is queued. -/
theorem publishes_addRun {st : Prepared} {n : NewRun} (ha : st.1.Admits n) {ids : List RunId}
    (hids : ∀ k ∈ ids, k ∈ st.2 ∨ k = st.1.runs.next ∧ n.status = .queued) :
    Publishes st (st.1.addRun n ha, ids) := by
  have hext : st.1.Extends (fun _ => True) (st.1.addRun n ha) := extends_addRun st.1 n ha trivial
  refine ⟨hext.next, hext.old, ?_⟩
  intro k hk
  rcases hids k hk with hk | ⟨rfl, hs⟩
  · exact Or.inl hk
  · have hrow := get_addRun st.1 n ha st.1.runs.next
    rw [if_pos rfl] at hrow
    exact Or.inr ⟨le_rfl, _, hrow, hs⟩

theorem prepareTriggerRun_publishes (now : Time) (fuel : ℕ) (st st' : Prepared) (i : RunId)
    (job : JobId) (tt : TriggerType) (stack : List JobId)
    (h : prepareTriggerRun now fuel st job tt stack = .ok (st', i)) : Publishes st st' := by
  refine prepareTriggerRun_rel Publishes.refl (fun _ _ _ hab hbc => hab.trans hbc) ?_ ?_ _ _ _ _ _ _ _ h
  · intro st job tt ha _
    refine publishes_addRun ha ?_
    intro m hm
    rcases List.mem_append.mp hm with hm | hm
    · exact Or.inl hm
    · exact Or.inr ⟨List.mem_singleton.mp hm, rfl⟩
  · intro st job tt ha _ _
    exact publishes_addRun ha fun m hm => Or.inl hm

theorem triggerJob_publishes {db : Database} {owner : UserId} {job : JobId} {now : Time}
    {st : Prepared} {p : RunId} (h : triggerJob db owner job now = .ok (st, p)) :
    Publishes (db, []) st := by
  unfold triggerJob at h
  split at h
  · cases h
  · exact prepareTriggerRun_publishes now _ _ _ _ _ _ _ h

theorem triggerJob_prepares {db : Database} {owner : UserId} {job : JobId} {now : Time}
    {st : Prepared} {p : RunId} (h : triggerJob db owner job now = .ok (st, p)) :
    Prepares job [] db st.1 p := by
  unfold triggerJob at h
  split at h
  · cases h
  · exact prepareTriggerRun_prepares now _ _ _ _ _ _ _ h

end JobScheduler.Api
