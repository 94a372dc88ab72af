import JobScheduler.Rounds

/-!
# The last finisher wakes the pending run

A job with several dependencies has a pending run, and the workers that are about to
complete the missing dependencies go through _on_success in any order. Each of them looks
at the tables after its own commit only, so a handler may find the job not ready, or find
it ready and be overtaken. The invariant is about the handlers that have not asked yet: as
long as the run is pending, one of them will still see all dependencies succeeded.
-/

namespace JobScheduler
open Library Database Store

namespace Pc

/- In _on_success, or returned from it. -/
def onSuccess : Pc → Bool
  | successCheck _ _ | successFinish _ _ | successReady _ | successFan _ _
  | successCreate _ _ _ | successEnqueue _ _ _ | acking => true
  | _ => false

/- The finish_run of a success is still to come. -/
def completes? : Pc → Option Claimed
  | successCheck c _ | successFinish c _ => some c
  | _ => none

end Pc

/-! ### Program counters of several handlers -/

section
variable {H : List ℕ} {P : ℕ → Option Pc} {i : ℕ} {pc pc' : Pc} {Q Q' : Pc → Prop} {R : Prop}

/- One of the handlers moves. -/
theorem exists_update (hP : P i = some pc) (h : ∃ k ∈ H, ∃ q, P k = some q ∧ Q q)
    (hmove : Q pc → Q' pc' ∨ R) (hkeep : ∀ q, Q q → Q' q) :
    (∃ k ∈ H, ∃ q, Function.update P i (some pc') k = some q ∧ Q' q) ∨ R := by
  obtain ⟨k, hk, q, hq, hQ⟩ := h
  by_cases hki : k = i
  · subst hki
    have heq : q = pc := Option.some.inj (hq.symm.trans hP)
    rw [heq] at hQ
    rcases hmove hQ with hQ' | hR
    · exact Or.inl ⟨k, hk, pc', Function.update_self .., hQ'⟩
    · exact Or.inr hR
  · exact Or.inl ⟨k, hk, q, by rw [Function.update_of_ne hki]; exact hq, hkeep q hQ⟩

theorem forall_update (h : ∀ k ∈ H, ∀ q, P k = some q → Q q) (hnew : Q pc') :
    ∀ k ∈ H, ∀ q, Function.update P i (some pc') k = some q → Q q := by
  intro k hk q hq
  by_cases hki : k = i
  · rw [hki, Function.update_self] at hq
    cases hq
    exact hnew
  · rw [Function.update_of_ne hki] at hq
    exact h k hk q hq

end

/-! ### The invariant -/

/- The handlers H are in _on_success. The runs they are about to finish are running, unless
another handler of the same run was faster, and are not p; the runs that their promotions have
read are pending, unless another promotion was faster. -/
structure Completing (H : List ℕ) (p : RunId) (db : Database) (P : ℕ → Option Pc) : Prop where
  pc : ∀ i ∈ H, ∀ pc, P i = some pc → pc.onSuccess = true
  row : ∀ i ∈ H, ∀ pc, P i = some pc → ∀ c, pc.completes? = some c → c.runId ≠ p ∧
    ∃ r, db.runs.get c.runId = some r ∧ r.jobId = c.jobId ∧
      (r.status = .running ∨ r.status = .succeeded)
  jobs : ∀ i ∈ H, ∀ pc, P i = some pc → ∀ j ∈ pc.todo, (db.jobs.get j).isSome = true
  read : ∀ i ∈ H, ∀ pc, P i = some pc → ∀ j q, pc.promotion? = some (.read j q) →
    ∃ r, db.runs.get q = some r ∧ r.jobId = j ∧ claimable false r.status = true

/- The run p of `job` is pending, and one of the handlers will still look at it. Promotions of
the job that are under way have not read its pending runs or have read p. -/
structure Waiting (H : List ℕ) (job : JobId) (p : RunId) (db : Database) (P : ℕ → Option Pc) :
    Prop where
  row : ∃ r, db.runs.get p = some r ∧ r.jobId = job ∧ r.status = .pending
  only : ∀ i r, db.runs.get i = some r → r.jobId = job → r.status.active = true → i = p
  promotes : ∀ i ∈ H, ∀ pc, P i = some pc → ∀ x, pc.promotion? = some x → x.jobId = job →
    x = .checked job ∨ x = .read job p
  deps : ∀ k, db.DependsOn job k → (∃ i ∈ H, ∃ pc, P i = some pc ∧
    ∃ c, pc.completes? = some c ∧ c.jobId = k) ∨ db.HasRun k fun s => decide (s = .succeeded)
  offer : ∃ i ∈ H, ∃ pc, P i = some pc ∧
    ((∃ c, pc.completes? = some c ∧ db.DependsOn job c.jobId) ∨ pc.Offers db job)

/- The run p is queued, and it has been sent or is about to be. -/
structure Woken (H : List ℕ) (p : RunId) (n : ℕ) (db : Database) (q : Redis)
    (P : ℕ → Option Pc) : Prop where
  row : db.statusOf p = some .queued
  sent : (∃ i ∈ H, ∃ pc, P i = some pc ∧ pc.unsent? = some p) ∨
    ∃ m ∈ q.stream.rows, n ≤ m.id ∧ m.runId = p

section
variable {H : List ℕ} {job : JobId} {p : RunId} {db db' : Database} {P : ℕ → Option Pc} {i : ℕ}
  {pc pc' : Pc}

theorem Waiting.no_dispatched (h : Waiting H job p db P) :
    ¬ db.HasRun job RunStatus.dispatched := by
  intro hd
  obtain ⟨k, q, hq, hj, hs⟩ := hasRun_iff_get.mp hd
  obtain ⟨r, hr, -, hp⟩ := h.row
  have hk := h.only k q hq hj (by rw [RunStatus.active_eq_not_terminal,
    (RunStatus.active_iff q.status).mpr (Or.inr hs)]; rfl)
  subst hk
  rw [Option.some.inj (hq.symm.trans hr), hp] at hs
  cases hs

/- The tables before and after a statement of _on_success: a run succeeds or goes to the queue,
and a new run is queued. -/
structure Fans (db db' : Database) : Prop where
  dependencies : db'.dependencies = db.dependencies
  jobIds : ∀ j, (db'.jobs.get j).isSome = (db.jobs.get j).isSome
  row : ∀ i r, db.runs.get i = some r → ∃ r', db'.runs.get i = some r' ∧ r'.jobId = r.jobId ∧
    (r'.status = r.status ∨
      (r.status = .running ∨ r.status = .succeeded) ∧ r'.status = .succeeded ∨
      claimable false r.status = true ∧ r'.status = .queued)
  new : ∀ i r, db'.runs.get i = some r → db.runs.get i = none → r.status = .queued

theorem Fans.refl (db : Database) : Fans db db where
  dependencies := rfl
  jobIds := fun _ => rfl
  row := fun _ r hr => ⟨r, hr, rfl, Or.inl rfl⟩
  new := by
    intro i r hr hn
    rw [hn] at hr
    cases hr

theorem Fans.of_effect {tx : RunTx} (heff : RunTx.Effect tx db db')
    (hrow : ∀ r r', db.runs.get r.id = some r → RunTx.RowStep tx r r' → r'.status = r.status ∨
      (r.status = .running ∨ r.status = .succeeded) ∧ r'.status = .succeeded ∨
      claimable false r.status = true ∧ r'.status = .queued)
    (hnew : ∀ r, RunTx.Adds tx r → r.status = .queued) : Fans db db' where
  dependencies := heff.dependencies
  jobIds := heff.jobIds
  row := by
    intro i r hr
    obtain ⟨r', hr', hstep⟩ := heff.row i r hr
    have hid : r.id = i := Table.key_of_get hr
    exact ⟨r', hr', hstep.jobId, hrow r r' (hid ▸ hr) hstep⟩
  new := fun i r hr hn => hnew r (heff.new i r hr hn).2

theorem Fans.dependsOn (h : Fans db db') {k : JobId} : db'.DependsOn job k ↔ db.DependsOn job k := by
  unfold Database.DependsOn
  rw [h.dependencies]

theorem Fans.active (h : Fans db db') {k : RunId} {r r' : JobRun} (hr : db.runs.get k = some r)
    (hr' : db'.runs.get k = some r') (hact : r'.status.active = true) : r.status.active = true := by
  obtain ⟨q, hq, -, hst⟩ := h.row k r hr
  have heq : q = r' := Option.some.inj (hq.symm.trans hr')
  subst heq
  rcases hst with hst | ⟨-, hst⟩ | ⟨hst, -⟩
  · rw [← hst]
    exact hact
  · rw [hst] at hact
    cases hact
  · rw [RunStatus.active_eq_not_terminal, RunTx.claimable_not_terminal hst]
    rfl

theorem Fans.succeeded (h : Fans db db') {k : JobId}
    (hs : db.HasRun k fun s => decide (s = .succeeded)) :
    db'.HasRun k fun s => decide (s = .succeeded) := by
  obtain ⟨i, r, hr, hj, hst⟩ := hasRun_iff_get.mp hs
  obtain ⟨r', hr', hj', hrow⟩ := h.row i r hr
  refine hasRun_iff_get.mpr ⟨i, r', hr', hj'.trans hj, ?_⟩
  rw [decide_eq_true_eq] at hst ⊢
  rcases hrow with hrow | ⟨-, hrow⟩ | ⟨hrow, -⟩
  · exact hrow.trans hst
  · exact hrow
  · rw [hst] at hrow
    cases hrow

/- Other jobs' statements leave the waiting run alone. -/
theorem Waiting.of_fans (h : Waiting H job p db P) (hf : Fans db db')
    (hp : db'.statusOf p = db.statusOf p)
    (hnew : ∀ i r, db'.runs.get i = some r → db.runs.get i = none → r.jobId ≠ job) :
    Waiting H job p db' P where
  row := by
    obtain ⟨r, hr, hj, hst⟩ := h.row
    obtain ⟨r', hr', hj', -⟩ := hf.row p r hr
    rw [statusOf, statusOf, hr, hr'] at hp
    exact ⟨r', hr', hj'.trans hj, (Option.some.inj hp).trans hst⟩
  only := by
    intro k r' hr' hj hact
    cases hg : db.runs.get k with
    | none => exact absurd hj (hnew k r' hr' hg)
    | some r =>
      obtain ⟨q, hq, hqj, -⟩ := hf.row k r hg
      have heq : q = r' := Option.some.inj (hq.symm.trans hr')
      subst heq
      exact h.only k r hg (hqj.symm.trans hj) (hf.active hg hr' hact)
  promotes := h.promotes
  deps := by
    intro k hk
    rcases h.deps k (hf.dependsOn.mp hk) with hc | hsucc
    · exact Or.inl hc
    · exact Or.inr (hf.succeeded hsucc)
  offer := by
    obtain ⟨k, hk, q, hq, hoff⟩ := h.offer
    refine ⟨k, hk, q, hq, ?_⟩
    rcases hoff with ⟨c, hc, hd⟩ | hj | ⟨c, hc, hd⟩
    · exact Or.inl ⟨c, hc, hf.dependsOn.mpr hd⟩
    · exact Or.inr (Or.inl hj)
    · exact Or.inr (Or.inr ⟨c, hc, hf.dependsOn.mpr hd⟩)

/- A handler moves on. Whoever stops offering the job has found that it is not ready, and
then the handler of the missing dependency is still to come. -/
theorem Waiting.move (h : Waiting H job p db P) (hP : P i = some pc)
    (hc : ∀ c, pc.completes? = some c → pc'.completes? = some c ∨
      db.HasRun c.jobId (fun s => decide (s = .succeeded)) ∧
        (db.DependsOn job c.jobId → pc'.Offers db job))
    (hoff : pc.Offers db job → pc'.Offers db job ∨ ¬ db.DependenciesSucceeded job)
    (hx : ∀ x, pc'.promotion? = some x → x.jobId = job → x = .checked job ∨ x = .read job p) :
    Waiting H job p db (Function.update P i (some pc')) := by
  have hdeps : ∀ k, db.DependsOn job k → (∃ m ∈ H, ∃ q, Function.update P i (some pc') m = some q ∧
      ∃ c, q.completes? = some c ∧ c.jobId = k) ∨ db.HasRun k fun s => decide (s = .succeeded) := by
    intro k hk
    rcases h.deps k hk with hex | hsucc
    · refine exists_update hP hex ?_ fun q hq => hq
      intro hq
      obtain ⟨c, hcc, rfl⟩ := hq
      rcases hc c hcc with hc' | ⟨hsucc, -⟩
      · exact Or.inl ⟨c, hc', rfl⟩
      · exact Or.inr hsucc
    · exact Or.inr hsucc
  refine ⟨h.row, h.only, forall_update h.promotes hx, hdeps, ?_⟩
  have hupd : (∃ m ∈ H, ∃ q, Function.update P i (some pc') m = some q ∧
      ((∃ c, q.completes? = some c ∧ db.DependsOn job c.jobId) ∨ q.Offers db job)) ∨
      ¬ db.DependenciesSucceeded job := by
    refine exists_update hP h.offer ?_ fun q hq => hq
    intro hq
    rcases hq with ⟨c, hcc, hd⟩ | ho
    · rcases hc c hcc with hc' | ⟨-, ho⟩
      · exact Or.inl (Or.inl ⟨c, hc', hd⟩)
      · exact Or.inl (Or.inr (ho hd))
    · rcases hoff ho with ho' | hno
      · exact Or.inl (Or.inr ho')
      · exact Or.inr hno
  rcases hupd with hex | hno
  · exact hex
  · obtain ⟨k, hk⟩ := not_forall.mp hno
    obtain ⟨hk, hns⟩ := Classical.not_imp.mp hk
    rcases hdeps k hk with ⟨m, hm, q, hq, c, hcc, hck⟩ | hsucc
    · exact ⟨m, hm, q, hq, Or.inl ⟨c, hcc, by rw [hck]; exact hk⟩⟩
    · exact absurd hsucc hns

/-! ### One call -/

variable {cfg : Settings} {now : Time} {d : Handler} {out : Option Send}

theorem Completing.of_fans (h : Completing H p db P) (hf : Fans db db') : Completing H p db' P where
  pc := h.pc
  row := by
    intro k hk q hq c hcc
    obtain ⟨hne, r, hr, hj, hs⟩ := h.row k hk q hq c hcc
    obtain ⟨r', hr', hj', hst⟩ := hf.row c.runId r hr
    refine ⟨hne, r', hr', hj'.trans hj, ?_⟩
    rcases hst with hst | ⟨-, hst⟩ | ⟨hst, -⟩
    · rw [hst]
      exact hs
    · exact Or.inr hst
    · rcases hs with hs | hs <;> rw [hs] at hst <;> cases hst
  jobs := by
    intro k hk q hq j hj
    rw [hf.jobIds]
    exact h.jobs k hk q hq j hj
  read := by
    intro k hk q hq j i hx
    obtain ⟨r, hr, hj, hs⟩ := h.read k hk q hq j i hx
    obtain ⟨r', hr', hj', hst⟩ := hf.row i r hr
    refine ⟨r', hr', hj'.trans hj, ?_⟩
    rcases hst with hst | ⟨hst, -⟩ | ⟨-, hst⟩
    · rw [hst]
      exact hs
    · rcases hst with hst | hst <;> rw [hst] at hs <;> cases hs
    · rw [hst]
      rfl

theorem Completing.move (h : Completing H p db P) (hi : i ∈ H) (hP : P i = some pc)
    (hon : pc'.onSuccess = true) (hc : ∀ c, pc'.completes? = some c → pc.completes? = some c)
    (hj : ∀ j ∈ pc'.todo, j ∈ pc.todo ∨ (db.jobs.get j).isSome = true)
    (hx : ∀ j q, pc'.promotion? = some (.read j q) →
      ∃ r, db.runs.get q = some r ∧ r.jobId = j ∧ claimable false r.status = true) :
    Completing H p db (Function.update P i (some pc')) where
  pc := forall_update h.pc hon
  row := forall_update h.row fun c hcc => h.row i hi pc hP c (hc c hcc)
  jobs := by
    refine forall_update h.jobs fun j hj' => ?_
    rcases hj j hj' with hold | hnew
    · exact h.jobs i hi pc hP j hold
    · exact hnew
  read := forall_update h.read hx

/- The finish_run of a success. -/
theorem fans_finishRun {k : RunId} (res : ExecResult) (now : Time)
    (hrow : ∃ r, db.runs.get k = some r ∧ r.jobId = job ∧
      (r.status = .running ∨ r.status = .succeeded)) :
    Fans db (finishRun db k .succeeded res.exitCode res.result none now) := by
  obtain ⟨r, hr, -, hs⟩ := hrow
  have heff := RunTx.effect_exec Cron.noCron db
    (.finishRun k { res with status := .succeeded } none now)
  refine Fans.of_effect heff ?_ fun r hr => absurd hr id
  intro q q' hq hstep
  cases hstep with
  | same => exact Or.inl rfl
  | finished _ _ _ _ hne =>
    have hqr : q = r := Option.some.inj (hq.symm.trans hr)
    exact Or.inr (Or.inl ⟨hqr ▸ hs, rfl⟩)

/- The flush of a promotion whose run is still pending or queued. -/
theorem fans_promoteRun {q : RunId}
    (hrow : ∃ r, db.runs.get q = some r ∧ r.jobId = job ∧ claimable false r.status = true) :
    Fans db (promoteRun db q) := by
  obtain ⟨r, hr, -, hs⟩ := hrow
  have heff := RunTx.effect_exec Cron.noCron db (.promoteRun q)
  rw [RunTx.exec, hr, Option.isSome_some, if_pos rfl] at heff
  refine Fans.of_effect heff ?_ fun r hr => absurd hr id
  intro q1 q' hq hstep
  rcases hstep.of_promoteRun with rfl | ⟨rfl, rfl⟩
  · exact Or.inl rfl
  · have hqr : q1 = r := Option.some.inj (hq.symm.trans hr)
    exact Or.inr (Or.inr ⟨hqr ▸ hs, rfl⟩)

theorem fans_insertRun {j : JobId} {k : RunId}
    (hins : db.insertRun (dependencyRow j now) = some (db', k)) : Fans db db' := by
  have heff := RunTx.effect_exec Cron.noCron db (.insertDependencyRun j now)
  rw [RunTx.exec, hins] at heff
  refine Fans.of_effect heff ?_ fun r hr => hr.2
  intro r r' _ hstep
  cases hstep
  exact Or.inl rfl

/- What a statement of a handler in _on_success does to the tables. -/
theorem Completing.fans (h : Completing H p db P) (hi : i ∈ H) (hP : P i = some pc)
    (hadv : Runner.Advance cfg db now d .statement pc db' pc' out) : Fans db db' := by
  have hon := h.pc i hi pc hP
  cases hadv with
  | succeeded c res => exact fans_finishRun res now (h.row i hi _ hP c rfl).2
  | dependencyPromoted c j q js r hq => exact fans_promoteRun (h.read i hi _ hP j q rfl)
  | dependencyInserted c j js db' k hins => exact fans_insertRun hins
  | refused _ | claimed _ _ _ _ _ | failureSkipped _ _ _ | retries _ _ _ | givesUp _ _ _
  | retryRaised _ _ _ | retryCreated _ _ _ _ _ | delayed _ _ _ | failed _ _ _ => cases hon
  | _ => exact Fans.refl db

theorem Completing.step (h : Completing H p db P) (hi : i ∈ H) (hP : P i = some pc)
    (hadv : Runner.Advance cfg db now d .statement pc db' pc' out) :
    Completing H p db' (Function.update P i (some pc')) := by
  have hon := h.pc i hi pc hP
  have hf := h.of_fans (h.fans hi hP hadv)
  cases hadv with
  | successSkipped c res hcan | fannedOut c =>
    exact hf.move hi hP rfl (fun c hc => by cases hc) (fun j hj => by cases hj)
      fun j q hx => by cases hx
  | successChecked c res hcan =>
    exact hf.move hi hP rfl (fun c hc => hc) (fun j hj => by cases hj) fun j q hx => by cases hx
  | succeeded c res =>
    exact hf.move hi hP rfl (fun c hc => by cases hc) (fun j hj => by cases hj)
      fun j q hx => by cases hx
  | ready c =>
    refine hf.move hi hP rfl (fun c hc => by cases hc) (fun j hj => Or.inr ?_)
      fun j q hx => by cases hx
    obtain ⟨-, job, hjob, -⟩ := mem_dependentsReady.mp hj
    rw [hjob]
    rfl
  | dependencyDispatched c j js hd =>
    exact hf.move hi hP rfl (fun c hc => by cases hc)
      (fun k hk => Or.inl (List.mem_cons_of_mem _ hk)) fun j q hx => by cases hx
  | dependencyPromoted c j q js r hq | dependencyInserted c j js db' k hins =>
    exact hf.move hi hP rfl (fun c hc => by cases hc)
      (fun k hk => Or.inl (List.mem_cons_of_mem _ hk)) fun j q hx => by cases hx
  | dependencyChecked c j js hd | dependencyAbsent c j js hd | enqueued c k js =>
    exact hf.move hi hP rfl (fun c hc => by cases hc) (fun j hj => Or.inl hj)
      fun j q hx => by cases hx
  | dependencyRead c j js q hq =>
    obtain ⟨hmem, hqj, hqs⟩ := oldestRun_eq_some hq
    refine hf.move hi hP rfl (fun c hc => by cases hc) (fun j hj => Or.inl hj) fun j k hx => ?_
    cases hx
    exact ⟨q, Table.get_of_mem hmem, hqj, by rw [of_decide_eq_true hqs]; rfl⟩
  | dependencyGone c j q js hq =>
    obtain ⟨r, hr, -⟩ := h.read i hi _ hP j q rfl
    rw [hq] at hr
    cases hr
  | dependencyRefused c j js hno =>
    have hjob := h.jobs i hi _ hP j (List.mem_cons_self ..)
    exact absurd hno (insertRun_dependencyRow_ne_none hjob now)
  | _ => cases hon

/- The calls up to dependents_ready. -/
theorem Waiting.step_finish (hcomp : Completing H p db P) (h : Waiting H job p db P) (hi : i ∈ H)
    (hP : P i = some pc) (hadv : Runner.Advance cfg db now d .statement pc db' pc' out)
    (hpc : pc.todo = []) (hfan : ∀ c, pc ≠ .successFan c []) (hsend : pc.unsent? = none) :
    Waiting H job p db' (Function.update P i (some pc')) := by
  have hon := hcomp.pc i hi pc hP
  have hf := hcomp.fans hi hP hadv
  cases hadv with
  | successSkipped c res hcan =>
    obtain ⟨-, r, hr, -, hs⟩ := hcomp.row i hi _ hP c rfl
    obtain ⟨q, hq, hqc⟩ := isRunCanceled_iff.mp hcan
    rw [Option.some.inj (hr.symm.trans hq), hqc] at hs
    rcases hs with hs | hs <;> cases hs
  | successChecked c res hcan =>
    refine h.move hP (fun c hc => Or.inl hc) ?_ fun x hx => by cases hx
    intro ho
    obtain ⟨c', hc'⟩ := ho.fansOut
    cases hc'
  | succeeded c res =>
    obtain ⟨hne, r, hr, hj, hs⟩ := hcomp.row i hi _ hP c rfl
    have hnc : r.status ≠ .canceled := by
      rintro hcan
      rw [hcan] at hs
      rcases hs with hs | hs <;> cases hs
    have hget := get_finishRun .succeeded res.exitCode res.result none now hr hnc
    have hw : Waiting H job p (finishRun db c.runId .succeeded res.exitCode res.result none now) P := by
      refine h.of_fans hf ?_ ?_
      · rw [statusOf, statusOf, finishRun, get_updateRun, if_neg (Ne.symm hne)]
      · intro k q hq hn
        rw [finishRun, get_updateRun, hn] at hq
        split at hq <;> cases hq
    refine hw.move hP ?_ ?_ fun x hx => by cases hx
    · intro c' hc'
      cases hc'
      exact Or.inr ⟨hasRun_iff_get.mpr ⟨c.runId, _, hget, hj, rfl⟩, fun hd => Or.inr ⟨c, rfl, hd⟩⟩
    · intro ho
      obtain ⟨c', hc'⟩ := ho.fansOut
      cases hc'
  | ready c =>
    refine h.move hP (fun c hc => by cases hc) ?_ fun x hx => by cases hx
    intro ho
    rcases ho with ho | ⟨c', hc', hd⟩
    · cases ho
    · cases hc'
      by_cases hsucc : db.DependenciesSucceeded job
      · obtain ⟨r, hr, hj, hp⟩ := h.row
        obtain ⟨jb, hjb, hid⟩ := db.run_fk r (Table.mem_of_get hr)
        have hget : db.jobs.get job = some jb := Table.get_eq_some.mpr ⟨hjb, hid.trans hj⟩
        have hpend : db.HasRun job fun s => decide (s = .pending) :=
          hasRun_iff_get.mpr ⟨p, r, hr, hj, by rw [hp]; rfl⟩
        exact Or.inl (Or.inl (mem_dependentsReady.mpr
          ⟨hd, jb, hget, Or.inr hpend, h.no_dispatched, hsucc⟩))
      · exact Or.inr hsucc
  | fannedOut c => exact absurd rfl (hfan c)
  | enqueued c k js => cases hsend
  | dependencyDispatched _ _ _ _ | dependencyChecked _ _ _ _ | dependencyRead _ _ _ _ _
  | dependencyAbsent _ _ _ _ | dependencyPromoted _ _ _ _ _ _ | dependencyGone _ _ _ _ _
  | dependencyInserted _ _ _ _ _ _ | dependencyRefused _ _ _ _ => cases hpc
  | _ => cases hon

/- The statements of create_dependency_run: the promotion of the job reads p, and whoever
flushes it will send it. -/
theorem Waiting.step_create (hcomp : Completing H p db P) (h : Waiting H job p db P) (hi : i ∈ H)
    (hP : P i = some pc) (hadv : Runner.Advance cfg db now d .statement pc db' pc' out)
    {j : JobId} {js : List JobId} (hpc : pc.todo = j :: js) (hsend : pc.unsent? = none) :
    Waiting H job p db' (Function.update P i (some pc')) ∨
      db'.statusOf p = some .queued ∧ pc'.unsent? = some p := by
  obtain ⟨r, hr, hrj, hp⟩ := h.row
  have hf := hcomp.fans hi hP hadv
  cases hadv with
  | dependencyDispatched c j js hd =>
    have hne : j ≠ job := by
      rintro rfl
      exact h.no_dispatched (hasDispatchedRun_iff.mp hd)
    exact Or.inl (h.move hP (fun c hc => by cases hc) (fun ho => Or.inl (ho.tail rfl hne rfl))
      fun x hx => by cases hx)
  | dependencyChecked c j js hd =>
    refine Or.inl (h.move hP (fun c hc => by cases hc) ?_ fun x hx hxj => ?_)
    · exact fun ho => Or.inl (Or.inl (ho.mem_todo fun c hc => by cases hc))
    · cases hx
      exact Or.inl (congrArg Promotion.checked hxj)
  | dependencyRead c j js q hq =>
    obtain ⟨hmem, hqj, hqs⟩ := oldestRun_eq_some hq
    refine Or.inl (h.move hP (fun c hc => by cases hc) ?_ fun x hx hxj => ?_)
    · exact fun ho => Or.inl (Or.inl (ho.mem_todo fun c hc => by cases hc))
    · cases hx
      have hjob : j = job := hxj
      have hqp := h.only q.id q (Table.get_of_mem hmem) (hqj.trans hjob)
        (by rw [of_decide_eq_true hqs]; rfl)
      rw [hjob, hqp]
      exact Or.inr rfl
  | dependencyAbsent c j js hno =>
    refine Or.inl (h.move hP (fun c hc => by cases hc) ?_ fun x hx hxj => ?_)
    · exact fun ho => Or.inl (Or.inl (ho.mem_todo fun c hc => by cases hc))
    · cases hx
      have hjob : j = job := hxj
      refine absurd (hasRun_iff_get.mpr ⟨p, r, hr, hrj.trans hjob.symm, ?_⟩) (oldestRun_eq_none.mp hno)
      rw [hp]
      rfl
  | dependencyPromoted c j q js r' hq =>
    by_cases hj : j = job
    · subst hj
      right
      have hqp : q = p := by
        rcases h.promotes i hi _ hP _ rfl rfl with heq | heq
        · cases heq
        · exact (Promotion.read.injEq _ _ _ _ ▸ heq).2
      subst hqp
      exact ⟨by rw [statusOf, promoteRun, get_updateRun, if_pos rfl, hr]; rfl, rfl⟩
    · have hne : p ≠ q := by
        rintro rfl
        obtain ⟨r1, hr1, hj1, -⟩ := hcomp.read i hi _ hP j p rfl
        rw [← Option.some.inj (hr.symm.trans hr1), hrj] at hj1
        exact hj hj1.symm
      refine Or.inl ((h.of_fans hf ?_ ?_).move hP (fun c hc => by cases hc)
        (fun ho => Or.inl (ho.tail rfl hj rfl)) fun x hx => by cases hx)
      · rw [statusOf, statusOf, promoteRun, get_updateRun, if_neg hne]
      · intro k q' hq' hn
        rw [promoteRun, get_updateRun, hn] at hq'
        split at hq' <;> cases hq'
  | dependencyGone c j q js hq =>
    obtain ⟨r1, hr1, -⟩ := hcomp.read i hi _ hP j q rfl
    rw [hq] at hr1
    cases hr1
  | dependencyInserted c j js db' k hins =>
    have hne : j ≠ job := by
      rintro rfl
      rcases h.promotes i hi _ hP _ rfl rfl with heq | heq <;> cases heq
    obtain ⟨rfl, ha, rfl⟩ := insertRun_eq_some hins
    refine Or.inl ((h.of_fans hf ?_ ?_).move hP (fun c hc => by cases hc)
      (fun ho => Or.inl (ho.tail rfl hne rfl)) fun x hx => by cases hx)
    · rw [statusOf, statusOf, get_addRun, if_neg (Nat.ne_of_lt (Table.lt_next_of_get hr))]
    · intro k q hq hn
      rw [get_addRun] at hq
      split at hq
      · cases hq
        exact hne
      · rw [hn] at hq
        cases hq
  | dependencyRefused c j js hno =>
    have hjob := hcomp.jobs i hi _ hP j (List.mem_cons_self ..)
    exact absurd hno (insertRun_dependencyRow_ne_none hjob now)
  | enqueued c k js => cases hsend
  | _ => cases hpc

theorem Waiting.step (hcomp : Completing H p db P) (h : Waiting H job p db P) (hi : i ∈ H)
    (hP : P i = some pc) (hadv : Runner.Advance cfg db now d .statement pc db' pc' out) :
    Waiting H job p db' (Function.update P i (some pc')) ∨
      db'.statusOf p = some .queued ∧ pc'.unsent? = some p := by
  by_cases hsend : ∃ c k js, pc = .successEnqueue c k js
  · obtain ⟨c, k, js, rfl⟩ := hsend
    cases hadv
    refine Or.inl (h.move hP (fun c hc => by cases hc) ?_ fun x hx => by cases hx)
    exact fun ho => Or.inl (Or.inl (ho.mem_todo fun c hc => by cases hc))
  · by_cases hfan : ∃ c, pc = .successFan c []
    · obtain ⟨c, rfl⟩ := hfan
      cases hadv
      refine Or.inl (h.move hP (fun c hc => by cases hc) ?_ fun x hx => by cases hx)
      exact fun ho => absurd (ho.mem_todo fun c hc => by cases hc) List.not_mem_nil
    · have hunsent : pc.unsent? = none := by
        have hon := hcomp.pc i hi pc hP
        cases pc <;> first | rfl | exact absurd ⟨_, _, _, rfl⟩ hsend | cases hon
      cases htodo : pc.todo with
      | nil => exact Or.inl (Waiting.step_finish hcomp h hi hP hadv htodo
          (fun c hc => hfan ⟨c, hc⟩) hunsent)
      | cons j js => exact Waiting.step_create hcomp h hi hP hadv htodo hunsent

/- A queued run that none of the handlers finishes stays queued. -/
theorem Fans.stays_queued (h : Fans db db') (hq : db.statusOf p = some .queued) :
    db'.statusOf p = some .queued := by
  obtain ⟨r, hr, hs⟩ := Option.map_eq_some_iff.mp hq
  obtain ⟨r', hr', -, hst⟩ := h.row p r hr
  rw [statusOf, hr', Option.map_some]
  rcases hst with hst | ⟨hst, -⟩ | ⟨-, hst⟩
  · rw [hst, hs]
  · rw [hs] at hst
    rcases hst with hst | hst <;> cases hst
  · rw [hst]

theorem mem_stream_send {s : Sys} {m : Message} (hm : m ∈ s.redis.stream.rows) :
    m ∈ (s.send out).redis.stream.rows := by
  rcases out with _ | k | ⟨k, readyAt⟩
  · exact hm
  · exact Table.mem_rows_insert.mpr (Or.inl hm)
  · exact hm

theorem next_stream_send (s : Sys) (out : Option Send) :
    s.redis.stream.next ≤ (s.send out).redis.stream.next := by
  rcases out with _ | k | ⟨k, readyAt⟩
  · exact le_rfl
  · exact Nat.le_succ _
  · exact le_rfl

theorem Woken.step {s : Sys} {n : ℕ} (hcomp : Completing H p db P) (h : Woken H p n db s.redis P)
    (hn : n ≤ s.redis.stream.next) (hi : i ∈ H) (hP : P i = some pc)
    (hadv : Runner.Advance cfg db now d .statement pc db' pc' out) :
    Woken H p n db' (s.send out).redis (Function.update P i (some pc')) where
  row := (hcomp.fans hi hP hadv).stays_queued h.row
  sent := by
    have hon := hcomp.pc i hi pc hP
    rcases h.sent with hex | ⟨m, hm, hrest⟩
    · refine exists_update hP hex ?_ fun q hq => hq
      intro hq
      cases hadv with
      | enqueued c k js =>
        cases hq
        exact Or.inr ⟨⟨s.redis.stream.next, p⟩, Table.mem_rows_insert.mpr (Or.inr rfl), hn, rfl⟩
      | failureSkipped _ _ _ | retries _ _ _ | givesUp _ _ _ | retryRaised _ _ _
      | retryCreated _ _ _ _ _ | delayed _ _ _ | failed _ _ _ | refused _ | claimed _ _ _ _ _ =>
        cases hon
      | _ => cases hq
    · exact Or.inr ⟨m, mem_stream_send hm, hrest⟩

end

/-! ### Every interleaving -/

namespace Sys

variable {cfg : Settings} {cronNext : Cron.CronNext} {s t : Sys} {H : List ℕ} {job : JobId}
  {p : RunId}

/- The job whose running run handler i is about to complete successfully. -/
def completedJob? (s : Sys) (i : ℕ) : Option JobId :=
  match s.pcOf i with
  | some (.successCheck c _) =>
    if (s.db.runs.get c.runId).any fun r =>
        decide (r.jobId = c.jobId) && decide (r.status = .running) then
      some c.jobId
    else none
  | _ => none

/- p is the only active run of the job and pending; the handlers H stand before _on_success,
at least one of them with a run of a dependency; and a dependency that has not succeeded is
about to be completed by one of them. -/
def FanIn (H : List ℕ) (job : JobId) (p : RunId) (s : Sys) : Prop :=
  ((s.db.runs.get p).any fun r => decide (r.jobId = job) && decide (r.status = .pending)) = true ∧
  (∀ r ∈ s.db.runs.rows, r.jobId = job → r.status.active = true → r.id = p) ∧
  (∀ i ∈ H, (s.completedJob? i).isSome = true) ∧
  (∀ k ∈ s.db.dependencyIds job,
    (∃ i ∈ H, s.completedJob? i = some k) ∨ s.db.hasSucceeded k = true) ∧
  ∃ i ∈ H, ∃ k ∈ s.db.dependencyIds job, s.completedJob? i = some k

instance (H : List ℕ) (job : JobId) (p : RunId) (s : Sys) : Decidable (FanIn H job p s) :=
  inferInstanceAs (Decidable (_ ∧ _ ∧ _ ∧ _ ∧ _))

/- A statement of one of the handlers. -/
def stepOf (H : List ℕ) : Label → Bool
  | .advance i _ => H.contains i
  | _ => false

/- The handler has returned from _on_success. -/
def hasReturned (s : Sys) (i : ℕ) : Bool :=
  match s.pcOf i with
  | some .acking => true
  | _ => false

theorem completedJob?_eq_some {i : ℕ} {k : JobId} (h : s.completedJob? i = some k) :
    ∃ c res r, s.pcOf i = some (.successCheck c res) ∧ c.jobId = k ∧
      s.db.runs.get c.runId = some r ∧ r.jobId = c.jobId ∧ r.status = .running := by
  unfold completedJob? at h
  split at h
  · rename_i c res hpc
    split at h
    · rename_i hrow
      obtain ⟨r, hr, hok⟩ := (Option.any_eq_true _ _).mp hrow
      simp only [Bool.and_eq_true, decide_eq_true_eq] at hok
      exact ⟨c, res, r, hpc, Option.some.inj h, hr, hok⟩
    · cases h
  · cases h

theorem FanIn.completing (h : FanIn H job p s) : Completing H p s.db s.pcOf := by
  obtain ⟨hp, -, hH, -⟩ := h
  obtain ⟨rp, hrp, hok⟩ := (Option.any_eq_true _ _).mp hp
  simp only [Bool.and_eq_true, decide_eq_true_eq] at hok
  have hcheck : ∀ i ∈ H, ∀ pc, s.pcOf i = some pc → ∃ c res r, pc = .successCheck c res ∧
      s.db.runs.get c.runId = some r ∧ r.jobId = c.jobId ∧ r.status = .running := by
    intro i hi pc hpc
    obtain ⟨k, hk⟩ := Option.isSome_iff_exists.mp (hH i hi)
    obtain ⟨c, res, r, hpc', -, hrest⟩ := completedJob?_eq_some hk
    exact ⟨c, res, r, Option.some.inj (hpc.symm.trans hpc'), hrest⟩
  refine ⟨?_, ?_, ?_, ?_⟩
  · intro i hi pc hpc
    obtain ⟨c, res, r, rfl, -⟩ := hcheck i hi pc hpc
    rfl
  · intro i hi pc hpc c hc
    obtain ⟨c', res, r, rfl, hr, hj, hs⟩ := hcheck i hi pc hpc
    cases hc
    refine ⟨?_, r, hr, hj, Or.inl hs⟩
    intro heq
    rw [heq, hrp] at hr
    rw [← Option.some.inj hr, hok.2] at hs
    cases hs
  · intro i hi pc hpc j hj
    obtain ⟨c, res, r, rfl, -⟩ := hcheck i hi pc hpc
    cases hj
  · intro i hi pc hpc j q hx
    obtain ⟨c, res, r, rfl, -⟩ := hcheck i hi pc hpc
    cases hx

theorem FanIn.waiting (h : FanIn H job p s) : Waiting H job p s.db s.pcOf := by
  obtain ⟨hp, honly, hH, hdeps, hone⟩ := h
  obtain ⟨rp, hrp, hok⟩ := (Option.any_eq_true _ _).mp hp
  simp only [Bool.and_eq_true, decide_eq_true_eq] at hok
  refine ⟨⟨rp, hrp, hok⟩, ?_, ?_, ?_, ?_⟩
  · intro i r hr hj hact
    rw [← honly r (Table.mem_of_get hr) hj hact]
    exact (Table.key_of_get hr).symm
  · intro i hi pc hpc x hx
    obtain ⟨k, hk⟩ := Option.isSome_iff_exists.mp (hH i hi)
    obtain ⟨c, res, r, hpc', -⟩ := completedJob?_eq_some hk
    rw [Option.some.inj (hpc.symm.trans hpc')] at hx
    cases hx
  · intro k hk
    rcases hdeps k (mem_dependencyIds.mpr hk) with ⟨i, hi, hik⟩ | hsucc
    · obtain ⟨c, res, r, hpc, hck, -⟩ := completedJob?_eq_some hik
      exact Or.inl ⟨i, hi, _, hpc, c, rfl, hck⟩
    · exact Or.inr (hasSucceeded_iff.mp hsucc)
  · obtain ⟨i, hi, k, hk, hik⟩ := hone
    obtain ⟨c, res, r, hpc, rfl, -⟩ := completedJob?_eq_some hik
    exact ⟨i, hi, _, hpc, Or.inl ⟨c, rfl, mem_dependencyIds.mp hk⟩⟩

/- What one statement of a handler does to the program counters. -/
theorem step_of_handler {l : Label} (hl : stepOf H l = true)
    (hstep : step cfg cronNext s l = some t) :
    ∃ i ∈ H, ∃ d pc now pc' out, s.pcOf i = some pc ∧
      Runner.Advance cfg s.db now d .statement pc t.db pc' out ∧
      t.pcOf = Function.update s.pcOf i (some pc') ∧ t.redis = (s.send out).redis := by
  cases l with
  | advance i now =>
    obtain ⟨d, hget, -⟩ := Option.bind_eq_some_iff.mp hstep
    have hid : d.id = i := Table.key_of_get hget
    subst hid
    obtain ⟨db', pc', out, hadv, hdb, hhand, hredis⟩ :=
      (trans_of_step hstep).advance_inv (Table.mem_of_get hget)
    subst hdb
    refine ⟨d.id, List.contains_iff_mem.mp hl, d, d.pc, now, pc', out, ?_, hadv, ?_, hredis⟩
    · rw [pcOf, hget, Option.map_some]
    · funext k
      rw [pcOf, hhand, get_goto hget]
      by_cases hk : k = d.id
      · rw [if_pos hk, hk, Function.update_self, Option.map_some]
        rfl
      · rw [if_neg hk, Function.update_of_ne hk, pcOf]
  | _ => cases hl

/- However the calls of _on_success interleave, and the statements of create_dependency_run: when all of them have returned, the pending
run has been promoted and its id has been added to the stream. -/
theorem no_lost_wakeup (cfg : Settings) (cronNext : Cron.CronNext) (ls : List Label)
    (hstart : FanIn H job p s) (hls : ∀ l ∈ ls, stepOf H l = true)
    (hrun : Machine.run (step cfg cronNext) s ls = some t)
    (hdone : ∀ i ∈ H, t.hasReturned i = true) :
    t.db.statusOf p = some .queued ∧
      ∃ m ∈ t.redis.stream.rows, s.redis.stream.next ≤ m.id ∧ m.runId = p := by
  have hinv : (Completing H p t.db t.pcOf ∧ s.redis.stream.next ≤ t.redis.stream.next) ∧
      (Waiting H job p t.db t.pcOf ∨ Woken H p s.redis.stream.next t.db t.redis t.pcOf) := by
    refine Machine.run_invariant (C := fun _ l => stepOf H l = true)
      (I := fun u => (Completing H p u.db u.pcOf ∧ s.redis.stream.next ≤ u.redis.stream.next) ∧
        (Waiting H job p u.db u.pcOf ∨ Woken H p s.redis.stream.next u.db u.redis u.pcOf))
      ?_ ⟨⟨hstart.completing, le_rfl⟩, Or.inl hstart.waiting⟩ ?_ hrun
    · intro u l v hI hl hstep
      obtain ⟨⟨hcomp, hn⟩, hcase⟩ := hI
      obtain ⟨i, hi, d, pc, now, pc', out, hP, hadv, hpcs, hredis⟩ := step_of_handler hl hstep
      rw [hpcs, hredis]
      refine ⟨⟨hcomp.step hi hP hadv, hn.trans (next_stream_send u out)⟩, ?_⟩
      rcases hcase with hw | hw
      · rcases Waiting.step hcomp hw hi hP hadv with hw' | ⟨hq, hunsent⟩
        · exact Or.inl hw'
        · exact Or.inr ⟨hq, Or.inl ⟨i, hi, pc', Function.update_self .., hunsent⟩⟩
      · exact Or.inr (Woken.step hcomp hw hn hi hP hadv)
    · exact Machine.along_iff.mpr fun ms l ns _ hls' _ => hls l (by simp [hls'])
  have hacking : ∀ i ∈ H, ∀ pc, t.pcOf i = some pc → pc = .acking := by
    intro i hi pc hpc
    have hr := hdone i hi
    unfold hasReturned at hr
    rw [hpc] at hr
    cases pc <;> first | rfl | cases hr
  rcases hinv.2 with hw | hw
  · exfalso
    obtain ⟨i, hi, pc, hpc, hoff⟩ := hw.offer
    rw [hacking i hi pc hpc] at hoff
    rcases hoff with ⟨c, hc, -⟩ | hj | ⟨c, hc, -⟩
    · cases hc
    · cases hj
    · cases hc
  · refine ⟨hw.row, ?_⟩
    rcases hw.sent with ⟨i, hi, pc, hpc, hunsent⟩ | hsent
    · rw [hacking i hi pc hpc] at hunsent
      cases hunsent
    · exact hsent

/- Handlers 0 and 1 execute the runs of `orders` and `customers`, and both executors return. -/
def bothReturn : List Label :=
  [.trigger 1 2 0, .publish 0, .publish 1, .poll 1, .reclaimed 1, .deliver 1, .deliver 1,
    .delivered 1, .acquire 0, .acquire 1, .advance 0 1, .advance 1 1,
    .executorReturns 0 { status := .succeeded }, .executorReturns 1 { status := .succeeded }]

/- Both find `report` ready and read its pending run; handler 1 flushes it first. -/
def bothFinish : List Label :=
  [.advance 0 2, .advance 1 2, .advance 0 3, .advance 1 3, .advance 0 4, .advance 1 4,
    .advance 0 5, .advance 1 5, .advance 0 6, .advance 1 6, .advance 1 7, .advance 0 7,
    .advance 0 8, .advance 1 8, .advance 0 9, .advance 1 9]

theorem report_woken_by_bothFinish :
    ∃ s t, Machine.run (step {} Cron.noCron) (start fanIn) bothReturn = some s ∧
      Machine.run (step {} Cron.noCron) s bothFinish = some t ∧
      s.db.statusOf 2 = some .pending ∧ t.db.statusOf 2 = some .queued ∧
      ∃ m ∈ t.redis.stream.rows, s.redis.stream.next ≤ m.id ∧ m.runId = 2 := by
  have hall : (Machine.run (step {} Cron.noCron) (start fanIn) bothReturn).any (fun s =>
      decide (FanIn [0, 1] 2 2 s) && decide (s.db.statusOf 2 = some .pending) &&
      (Machine.run (step {} Cron.noCron) s bothFinish).any fun t =>
        [0, 1].all t.hasReturned) = true := by
    decide
  obtain ⟨s, hs, hall⟩ := (Option.any_eq_true _ _).mp hall
  simp only [Bool.and_eq_true, decide_eq_true_eq] at hall
  obtain ⟨⟨hstart, hp⟩, hall⟩ := hall
  obtain ⟨t, ht, hdone⟩ := (Option.any_eq_true _ _).mp hall
  exact ⟨s, t, hs, ht, hp, no_lost_wakeup {} Cron.noCron bothFinish hstart (by decide) ht
    (List.all_eq_true.mp hdone)⟩

end Sys
end JobScheduler
