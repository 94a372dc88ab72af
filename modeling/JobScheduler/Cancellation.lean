import JobScheduler.Backoff

/-!
# Cancelling a run while a worker executes it

A handler executes one run, call by call. At any moment cancel_run of the same run may commit;
then the message is published, and the listener of the worker cancels the task at the await
where it stands. A store call that is under way in its thread may still commit. Whatever else
the system does goes on beside it, other workers with the runs that this one creates included.
-/

namespace JobScheduler.Cancellation
open Library Database Store Runner
open Backoff (createdRetry queuedReport firstDelivery)

/- `thread`: the task is cancelled, and this is the call it was waiting for. `retries` holds the
runs that create_retry_run has committed for the execution, `late` those that it has created or
promoted after the cancellation was committed. -/
structure State where
  db : Database
  handler : Handler
  published : Bool := false
  thread : Option Handler := none
  retries : List RunId := []
  late : List RunId := []

def start (db : Database) (h : Handler) : State := { db := db, handler := h }

def State.canceled (s : State) : Bool := isRunCanceled s.db s.handler.runId

inductive Label where
  | advance (now : Time)
  | executorReturns (res : ExecResult)
  | cancelRun (now : Time)
  | publishCancel
  | cancelTask
  | commitThread (now : Time)
  | other (db' : Database)

/- The run is in a terminal status, or deleted. -/
def settled (db : Database) (i : RunId) : Bool :=
  decide (i < db.runs.next) && (db.runs.get i).all fun r => r.status.terminal

/- The rest of the system may do anything except cancel the run, revive it, or undo the
cancellation. -/
def leaves (s : State) (db' : Database) : Bool :=
  decide (s.db.runs.next ≤ db'.runs.next) &&
    decide (isRunCanceled db' s.handler.runId = s.canceled) &&
    (!settled s.db s.handler.runId || settled db' s.handler.runId)

/- A store call of the execution commits db' and goes on to pc. -/
def State.commit (s : State) (db' : Database) (pc : Pc) : State :=
  { s with
    db := db'
    retries := s.retries ++ (createdRetry pc).toList
    late := s.late ++ if s.canceled then pc.unsent?.toList else [] }

def step (cfg : Settings) (s : State) : Label → Option State
  | .advance now =>
    (next cfg s.db s.handler now).map fun (db', pc, _) =>
      { s.commit db' pc with handler := { s.handler with pc := pc } }
  | .executorReturns res =>
    match s.handler.pc with
    | .executing c => some { s with handler := { s.handler with pc := returned c res } }
    | _ => none
  | .cancelRun now =>
    match Store.cancelRun s.db s.handler.runId now with
    | (_, false) => none
    | (db', true) => some { s with db := db' }
  | .publishCancel => if s.canceled then some { s with published := true } else none
  | .cancelTask =>
    if s.published && s.handler.pc.working then
      some { s with thread := some s.handler, handler := { s.handler with pc := .acking } }
    else none
  | .commitThread now =>
    s.thread.bind fun h =>
      (next cfg s.db h now).map fun (db', pc, _) => { s.commit db' pc with thread := none }
  | .other db' => if leaves s db' then some { s with db := db' } else none

/- If the run is cancelled, then nothing is created or promoted on its behalf afterwards, and
none of its retries has been claimed. -/
def Suppressed (s : State) : Prop :=
  s.canceled = true → s.late = [] ∧
    ∀ n ∈ s.retries, ∀ r, s.db.runs.get n = some r → r.startedAt = none

/- The execution has created a retry and not finished its run. -/
def retried : Pc → Bool
  | .failureDelay _ _ _ => true
  | .failureFinish c res _ => willRetry c res
  | _ => false

/- The execution has passed its is_run_canceled check and has follow-ups to make, or has made
one. -/
def pastCheck : Pc → Bool
  | .successFinish _ _ | .successReady _ | .successFan _ _ | .successCreate _ _ _
  | .successEnqueue _ _ _ => true
  | .failureRetry _ _ => true
  | pc => retried pc

/- A cancellation does not commit while the execution is past its check. -/
def InTime (s : State) : Label → Prop
  | .cancelRun _ => pastCheck s.handler.pc = false
  | _ => True

/-! ### The invariant -/

variable {cfg : Settings} {s t : State} {h : Handler} {pc : Pc}

/- The handler works on the record of its own run, and retries only what is to be retried. -/
structure Sound (db : Database) (h : Handler) : Prop where
  own : ∀ c, h.pc.claimed? = some c → c.runId = h.runId ∧ h.runId < db.runs.next
  retry : ∀ c res, h.pc = .failureRetry c res → willRetry c res = true
  delay : ∀ c res n, h.pc = .failureDelay c res n → willRetry c res = true

/- After a cancellation in time the execution, and the call left in its thread, only find out
about it. Before, a retry exists only while its predecessor is being finished. -/
structure Holds (s : State) : Prop where
  sound : Sound s.db s.handler
  late : s.late = []
  thread : ∀ h, s.thread = some h →
    Sound s.db h ∧ h.runId = s.handler.runId ∧ pastCheck h.pc = false
  told : s.canceled = true → s.retries = [] ∧ pastCheck s.handler.pc = false
  untold : s.canceled = false → s.published = false ∧ s.thread = none
  retries : s.retries ≠ [] →
    retried s.handler.pc = true ∨ settled s.db s.handler.runId = true

theorem pastCheck_of_retried (h : retried pc = true) : pastCheck pc = true := by
  cases pc <;> first | exact h | cases h

theorem Sound.mono {db db' : Database} (hs : Sound db h) (hle : db.runs.next ≤ db'.runs.next) :
    Sound db' h where
  own := fun c hc => ⟨(hs.own c hc).1, lt_of_lt_of_le (hs.own c hc).2 hle⟩
  retry := hs.retry
  delay := hs.delay

/- A handler past the claim and before the decision to retry. -/
theorem sound_of {db : Database} (c : Claimed) (hc : h.pc.claimed? = some c)
    (hi : c.runId = h.runId) (hlt : h.runId < db.runs.next) (hretry : ∀ c res, h.pc ≠ .failureRetry c res)
    (hdelay : ∀ c res n, h.pc ≠ .failureDelay c res n) : Sound db h where
  own := by
    intro c' hc'
    rw [hc] at hc'
    cases hc'
    exact ⟨hi, hlt⟩
  retry := fun c res hpc => absurd hpc (hretry c res)
  delay := fun c res n hpc => absurd hpc (hdelay c res n)

theorem sound_acking {db : Database} (h : Handler) : Sound db { h with pc := .acking } where
  own := fun _ hc => by cases hc
  retry := fun _ _ hpc => by cases hpc
  delay := fun _ _ _ hpc => by cases hpc

/-! ### The calls of the execution -/

/- A store call is a transaction as a whole. -/
theorem effect_next {db db' : Database} {now : Time} {out : Option Send}
    (hn : next cfg db h now = some (db', pc, out)) :
    db' = db ∨ ∃ tx : RunTx, tx.ofWorker = true ∧ (∀ p, tx ≠ .promoteRun p) ∧
      RunTx.Effect tx db db' := by
  have hadv := advance_of_next hn
  dsimp only at hadv
  by_cases hfan : ∃ c j js, h.pc = .successFan c (j :: js)
  · obtain ⟨c, j, js, hpc⟩ := hfan
    rw [hpc] at hadv
    cases hadv with
    | dependencyRaised _ _ _ _ => exact .inl rfl
    | dependencySkipped _ _ _ db' hd | dependencyCreated _ _ _ db' i hd =>
      exact .inr ⟨.createDependencyRun j now, rfl, nofun, RunTx.effect_of_createDependencyRun hd⟩
  · have hfine := hadv.coarse (g := .statement) fun c j js hpc => hfan ⟨c, j, js, hpc⟩
    rcases hfine.exec Cron.noCron with ⟨-, heq⟩ | ⟨tx', htx, heq⟩
    · exact .inl heq
    · have heff := RunTx.effect_exec Cron.noCron db tx'
      rw [← heq] at heff
      refine .inr ⟨tx', ?_, ?_, heff⟩
      · unfold tx at htx
        split at htx
        · cases htx
          rfl
        · cases htx
          rfl
        · rcases Promotion.tx_cases htx with ⟨p, rfl⟩ | ⟨j, rfl⟩ <;> rfl
        · cases htx
          rfl
        · cases htx
          rfl
        · cases htx
      · rintro p rfl
        obtain ⟨c, j, js, hpc⟩ := tx_promoteRun htx
        rw [hpc] at hadv
        cases hadv

theorem next_le_next {db db' : Database} {now : Time} {out : Option Send}
    (hn : next cfg db h now = some (db', pc, out)) : db.runs.next ≤ db'.runs.next := by
  rcases effect_next hn with rfl | ⟨tx, -, -, heff⟩
  · exact le_rfl
  · exact heff.next

/- Only cancel_run writes CANCELED, and nothing overwrites it. -/
theorem isRunCanceled_next {db db' : Database} {now : Time} {out : Option Send} (i : RunId)
    (hn : next cfg db h now = some (db', pc, out)) :
    isRunCanceled db' i = isRunCanceled db i := by
  rcases effect_next hn with rfl | ⟨tx, hw, hflush, heff⟩
  · rfl
  · rw [Bool.eq_iff_iff, isRunCanceled_iff, isRunCanceled_iff]
    constructor
    · rintro ⟨r', hr', hc⟩
      cases hr : db.runs.get i with
      | none =>
        have hadds := (heff.new i r' hr' hr).2
        cases tx with
        | createRetryRun j attempt now | createDependencyRun j now | insertDependencyRun j now =>
          rw [hadds.2] at hc
          cases hc
        | claimRun i w allow now | finishRun i res error now | promoteRun p => exact False.elim hadds
        | _ => cases hw
      | some r =>
        obtain ⟨r'', hr'', hrow⟩ := heff.row i r hr
        rw [hr'] at hr''
        cases hr''
        refine ⟨r, rfl, ?_⟩
        cases hrow with
        | same => exact hc
        | claimed _ w allow now hg => cases hc
        | canceled _ now ha => cases hw
        | finished _ res error now hne =>
          have hst : res.status.runStatus = .canceled := hc
          cases hres : res.status <;> rw [hres] at hst <;> cases hst
        | promoted _ now hp => cases hc
        | flushed => cases hc
    · rintro ⟨r, hr, hc⟩
      obtain ⟨r', hr', hrow⟩ := heff.row i r hr
      exact ⟨r', hr', by rw [hrow.canceled_eq (hflush r.id) hc, hc]⟩

theorem settled_next {db db' : Database} {now : Time} {out : Option Send} {i : RunId}
    (hn : next cfg db h now = some (db', pc, out)) (hs : settled db i = true) :
    settled db' i = true := by
  simp only [settled, Bool.and_eq_true, decide_eq_true_eq] at hs ⊢
  rcases effect_next hn with rfl | ⟨tx, hw, hflush, heff⟩
  · exact hs
  · refine ⟨lt_of_lt_of_le hs.1 heff.next, ?_⟩
    rw [Option.all_eq_true]
    intro r' hr'
    cases hr : db.runs.get i with
    | none => exact absurd (heff.new i r' hr' hr).1 (Nat.not_le.mpr hs.1)
    | some r =>
      obtain ⟨r'', hr'', hrow⟩ := heff.row i r hr
      rw [hr'] at hr''
      cases hr''
      exact hrow.terminal (hflush r.id) ((Option.all_eq_true _ _).mp hs.2 r hr)

/- finish_run leaves the run settled. -/
theorem settled_finishRun {db : Database} {i : RunId} (status : ExecStatus) (exitCode : Option ℤ)
    (result : Option Json) (error : Option String) (now : Time) (hlt : i < db.runs.next) :
    settled (finishRun db i status.runStatus exitCode result error now) i = true := by
  simp only [settled, Bool.and_eq_true, decide_eq_true_eq, Option.all_eq_true]
  refine ⟨hlt, fun r' hr' => ?_⟩
  rw [finishRun, get_updateRun, if_pos rfl, Option.map_eq_some_iff] at hr'
  obtain ⟨r, hr, rfl⟩ := hr'
  split
  · exact status.runStatus_terminal
  · rename_i hno
    have hcan : r.status = .canceled := by simpa [finishable] using hno
    rw [hcan]
    rfl

theorem Sound.after {db db' : Database} {now : Time} {out : Option Send} (hs : Sound db h)
    (hn : next cfg db h now = some (db', pc, out)) : Sound db' { h with pc := pc } := by
  have hle := next_le_next hn
  have hadv := advance_of_next hn
  dsimp only at hadv
  have hown := hs.own
  generalize hpc : h.pc = pc0 at hadv hown
  -- the record is the one of the claim, and stays the same until the handler is done with it
  have hsame : ∀ c, pc0.claimed? = some c → pc.claimed? = some c →
      (∀ c res, pc ≠ .failureRetry c res) → (∀ c res n, pc ≠ .failureDelay c res n) →
      Sound db' { h with pc := pc } := by
    intro c hc hc' hretry hdelay
    exact sound_of c hc' (hown c hc).1 (lt_of_lt_of_le (hown c hc).2 hle) hretry hdelay
  cases hadv with
  | refused hno => exact sound_acking h
  | claimed r job hr hg hjob =>
    exact sound_of _ rfl (Table.key_of_get hr) (lt_of_lt_of_le (Table.lt_next_of_get hr) hle)
      (fun _ _ h => by cases h) fun _ _ _ h => by cases h
  | successChecked c res _ | ready c | dependencySkipped c j js db' _
  | dependencyCreated c j js db' i _ | enqueued c i js | succeeded c res | givesUp c res _
  | delayed c res i =>
    exact hsame c rfl rfl (fun _ _ h => by cases h) fun _ _ _ h => by cases h
  | retries c res hcan =>
    have hretry := willRetry_of_retries hpc hcan hn
    refine ⟨fun c' hc' => ?_, fun c' res' h' => ?_, fun _ _ _ h => by cases h⟩
    · cases hc'
      exact ⟨(hown c rfl).1, (hown c rfl).2⟩
    · cases h'
      exact hretry
  | retryCreated c res db' i hcreate =>
    have hretry := hs.retry c res hpc
    refine ⟨fun c' hc' => ?_, fun _ _ h => (by cases h), fun c' res' n h' => ?_⟩
    · cases hc'
      exact ⟨(hown c rfl).1, lt_of_lt_of_le (hown c rfl).2 hle⟩
    · cases h'
      exact hretry
  | _ => exact sound_acking h

/- Told of the cancellation before its check, a handler makes no follow-up. -/
theorem Sound.quiet {db db' : Database} {now : Time} {out : Option Send} (hs : Sound db h)
    (hcan : isRunCanceled db h.runId = true) (hpast : pastCheck h.pc = false)
    (hn : Runner.next cfg db h now = some (db', pc, out)) : pc = .acking := by
  have hadv := advance_of_next hn
  dsimp only at hadv
  have hown := hs.own
  generalize h.pc = pc0 at hadv hown hpast
  cases hadv with
  | claimed r job hr hg hjob =>
    obtain ⟨r', hr', hst⟩ := isRunCanceled_iff.mp hcan
    rw [hr] at hr'
    cases hr'
    rw [hst] at hg
    cases hallow : h.allowRunning <;> rw [hallow] at hg <;> cases hg
  | successChecked c res hno | retries c res hno | givesUp c res hno =>
    rw [(hown c rfl).1, hcan] at hno
    cases hno
  | refused | successSkipped | failureSkipped | failed => rfl
  | _ => cases hpast

/- A retry is there while its predecessor is being finished; then the predecessor is settled. -/
theorem Sound.retried_after {db db' : Database} {now : Time} {out : Option Send} (hs : Sound db h)
    (hn : next cfg db h now = some (db', pc, out))
    (hretried : retried h.pc = true ∨ settled db h.runId = true) :
    retried pc = true ∨ settled db' h.runId = true := by
  rcases hretried with hretried | hsettled
  · have hadv := advance_of_next hn
    dsimp only at hadv
    have hown := hs.own
    generalize hpc : h.pc = pc0 at hadv hown hretried
    cases hadv with
    | delayed c res i => exact .inl (hs.delay c res i hpc)
    | failed c res error =>
      obtain ⟨hi, hlt⟩ := hown c rfl
      rw [hi]
      exact .inr (settled_finishRun res.status _ _ _ _ hlt)
    | _ => cases hretried
  · exact .inr (settled_next hn hsettled)

theorem Holds.advance (hs : Holds s) {now : Time} (hstep : step cfg s (.advance now) = some t) :
    Holds t := by
  obtain ⟨⟨db', pc, out⟩, hn, rfl⟩ := Option.map_eq_some_iff.mp hstep
  have hsound := hs.sound.after hn
  have hsame : isRunCanceled db' s.handler.runId = s.canceled := isRunCanceled_next _ hn
  cases hcan : s.canceled with
  | true =>
    obtain ⟨hretries, hpast⟩ := hs.told hcan
    cases hs.sound.quiet hcan hpast hn
    have hnone : s.retries ++ (createdRetry .acking).toList = [] := by
      rw [hretries]
      rfl
    refine ⟨hsound, ?_, ?_, fun _ => ⟨hnone, rfl⟩, ?_, fun hne => absurd hnone hne⟩
    · show s.late ++ (if s.canceled then _ else _) = []
      rw [hs.late, hcan]
      rfl
    · intro h hthread
      obtain ⟨hsnd, hrun⟩ := hs.thread h hthread
      exact ⟨hsnd.mono (next_le_next hn), hrun⟩
    · intro huntold
      rw [State.canceled] at huntold
      rw [← hsame] at hcan
      exact absurd (hcan.symm.trans huntold) (by decide)
  | false =>
    refine ⟨hsound, ?_, ?_, ?_, fun _ => hs.untold hcan, ?_⟩
    · show s.late ++ (if s.canceled then _ else _) = []
      rw [hs.late, hcan]
      rfl
    · intro h hthread
      have hnone : none = some h := (hs.untold hcan).2.symm.trans hthread
      cases hnone
    · intro htold
      rw [← hsame] at hcan
      exact absurd (hcan.symm.trans htold) (by decide)
    · intro hne
      cases hcreated : createdRetry pc with
      | some n =>
        refine .inl ?_
        cases pc <;> cases hcreated
        rfl
      | none =>
        have hold : s.retries ≠ [] := by
          intro hnil
          refine hne ?_
          show s.retries ++ (createdRetry pc).toList = []
          rw [hnil, hcreated]
          rfl
        exact hs.sound.retried_after hn (hs.retries hold)

/- A cancellation that commits in time finds no retry. -/
theorem Holds.cancelRun (hs : Holds s) {now : Time} (hin : InTime s (.cancelRun now))
    (hstep : step cfg s (.cancelRun now) = some t) : Holds t := by
  simp only [step, Store.cancelRun] at hstep
  split at hstep
  · cases hstep
  rename_i db' hcancel
  cases hstep
  injection hcancel with hdb hmatch
  subst hdb
  obtain ⟨r, hr, hactive⟩ := matchesRun_iff.mp hmatch
  have hcan : s.canceled = false := by
    rw [State.canceled, ← Bool.not_eq_true, isRunCanceled_iff]
    rintro ⟨r', hr', hst⟩
    rw [hr] at hr'
    cases hr'
    rw [hst] at hactive
    cases hactive
  have hretries : s.retries = [] := by
    by_contra hne
    rcases hs.retries hne with hretried | hsettled
    · exact absurd ((pastCheck_of_retried hretried).symm.trans hin) (by decide)
    · rw [settled, Bool.and_eq_true] at hsettled
      rw [RunStatus.active_eq_not_terminal, (Option.all_eq_true _ _).mp hsettled.2 r hr] at hactive
      cases hactive
  have hnow : isRunCanceled (updateRun s.db s.handler.runId RunStatus.active (canceledRow now)
      (canceledRow_keeps now)) s.handler.runId = true := by
    rw [isRunCanceled_iff, get_updateRun, if_pos rfl, hr, Option.map_some, if_pos hactive]
    exact ⟨_, rfl, rfl⟩
  refine ⟨hs.sound.mono le_rfl, hs.late, ?_, fun _ => ⟨hretries, hin⟩, ?_, ?_⟩
  · intro h hthread
    have hnone : none = some h := (hs.untold hcan).2.symm.trans hthread
    cases hnone
  · intro huntold
    exact absurd (hnow.symm.trans huntold) (by decide)
  · exact fun hne => absurd hretries hne

theorem Holds.commitThread (hs : Holds s) {now : Time}
    (hstep : step cfg s (.commitThread now) = some t) : Holds t := by
  obtain ⟨h, hthread, hstep⟩ := Option.bind_eq_some_iff.mp hstep
  obtain ⟨⟨db', pc, out⟩, hn, rfl⟩ := Option.map_eq_some_iff.mp hstep
  obtain ⟨hsound, hrun, hpast⟩ := hs.thread h hthread
  have hcan : s.canceled = true := by
    by_contra hno
    rw [(hs.untold (Bool.eq_false_of_not_eq_true hno)).2] at hthread
    cases hthread
  obtain ⟨hretries, hpast'⟩ := hs.told hcan
  have hsame : isRunCanceled db' s.handler.runId = true := (isRunCanceled_next _ hn).trans hcan
  rw [State.canceled, ← hrun] at hcan
  cases hsound.quiet hcan hpast hn
  have hnone : s.retries ++ (createdRetry .acking).toList = [] := by
    rw [hretries]
    rfl
  refine ⟨hs.sound.mono (next_le_next hn), ?_, fun _ h => (by cases h),
    fun _ => ⟨hnone, hpast'⟩, ?_, fun hne => absurd hnone hne⟩
  · show s.late ++ (if s.canceled then _ else _) = []
    rw [hs.late]
    split <;> rfl
  · intro huntold
    exact absurd (hsame.symm.trans huntold) (by decide)

theorem Holds.other (hs : Holds s) {db' : Database} (hstep : step cfg s (.other db') = some t) :
    Holds t := by
  simp only [step] at hstep
  split at hstep
  · rename_i hleaves
    cases hstep
    simp only [leaves, Bool.and_eq_true, decide_eq_true_eq] at hleaves
    obtain ⟨⟨hnext, hcan⟩, hsettled⟩ := hleaves
    refine ⟨hs.sound.mono hnext, hs.late, ?_, fun h => hs.told (hcan.symm.trans h),
      fun h => hs.untold (hcan.symm.trans h), ?_⟩
    · intro h hthread
      obtain ⟨hsound, hrun⟩ := hs.thread h hthread
      exact ⟨hsound.mono hnext, hrun⟩
    · intro hne
      rcases hs.retries hne with hretried | hold
      · exact .inl hretried
      · rw [hold] at hsettled
        exact .inr hsettled
  · cases hstep

theorem Holds.executorReturns (hs : Holds s) {res : ExecResult}
    (hstep : step cfg s (.executorReturns res) = some t) : Holds t := by
  simp only [step] at hstep
  split at hstep
  · rename_i c hpc
    cases hstep
    have hown := hs.sound.own c (by rw [hpc]; rfl)
    have hretries : s.retries ≠ [] → settled s.db s.handler.runId = true := by
      intro hne
      rcases hs.retries hne with hretried | hsettled
      · rw [hpc] at hretried
        cases hretried
      · exact hsettled
    unfold returned
    split
    · refine ⟨sound_of c rfl hown.1 hown.2 (fun _ _ h => by cases h) (fun _ _ _ h => by cases h),
        hs.late, hs.thread, fun h => ⟨(hs.told h).1, rfl⟩, hs.untold, fun h => .inr (hretries h)⟩
    · refine ⟨sound_of c rfl hown.1 hown.2 (fun _ _ h => by cases h) (fun _ _ _ h => by cases h),
        hs.late, hs.thread, fun h => ⟨(hs.told h).1, rfl⟩, hs.untold, fun h => .inr (hretries h)⟩
  · cases hstep

theorem Holds.cancelTask (hs : Holds s) (hstep : step cfg s .cancelTask = some t) : Holds t := by
  simp only [step, Bool.and_eq_true] at hstep
  split at hstep
  · rename_i hpub
    cases hstep
    have hcan : s.canceled = true := by
      by_contra hno
      rw [(hs.untold (Bool.eq_false_of_not_eq_true hno)).1] at hpub
      cases hpub.1
    obtain ⟨hretries, hpast⟩ := hs.told hcan
    refine ⟨sound_acking _, hs.late, ?_, fun _ => ⟨hretries, rfl⟩, ?_, fun h => absurd hretries h⟩
    · intro h hthread
      cases hthread
      exact ⟨hs.sound, rfl, hpast⟩
    · exact fun huntold => absurd (hcan.symm.trans huntold) (by decide)
  · cases hstep

theorem Holds.publishCancel (hs : Holds s) (hstep : step cfg s .publishCancel = some t) :
    Holds t := by
  simp only [step] at hstep
  split at hstep
  · rename_i hcan
    cases hstep
    exact ⟨hs.sound, hs.late, hs.thread, hs.told,
      fun huntold => absurd (hcan.symm.trans huntold) (by decide), hs.retries⟩
  · cases hstep

theorem Holds.step {l : Label} (hs : Holds s) (hin : InTime s l)
    (hstep : Cancellation.step cfg s l = some t) : Holds t := by
  cases l with
  | advance now => exact hs.advance hstep
  | executorReturns res => exact hs.executorReturns hstep
  | cancelRun now => exact hs.cancelRun hin hstep
  | publishCancel => exact hs.publishCancel hstep
  | cancelTask => exact hs.cancelTask hstep
  | commitThread now => exact hs.commitThread hstep
  | other db' => exact hs.other hstep

theorem holds_start {db : Database} (hpc : h.pc = .claiming) : Holds (start db h) where
  sound := ⟨fun c hc => by simp [start, hpc, Pc.claimed?] at hc,
    fun c res h' => by simp [start, hpc] at h', fun c res n h' => by simp [start, hpc] at h'⟩
  late := rfl
  thread := fun _ h => by cases h
  told := fun _ => ⟨rfl, by simp [start, hpc, pastCheck, retried]⟩
  untold := fun _ => ⟨rfl, rfl⟩
  retries := fun h => absurd rfl h

/- When the cancellation does not fall between the check of the execution and the end of its
follow-ups, it suppresses them. -/
theorem suppressed_visits {db : Database} (hpc : h.pc = .claiming) {ls : List Label}
    (hin : Machine.Along (step cfg) InTime (start db h) ls) :
    Machine.Visits (step cfg) Suppressed (start db h) ls := by
  refine Machine.visits_of_invariant (I := Holds) (fun s l t hs hc hstep => hs.step hc hstep) ?_
    (holds_start hpc) hin
  intro s hs hcan
  refine ⟨hs.late, fun n hn => ?_⟩
  rw [(hs.told hcan).1] at hn
  exact absurd hn List.not_mem_nil

/-! ### A failing run with one retry -/

instance (s : State) : ∀ l, Decidable (InTime s l)
  | .cancelRun _ => by
    unfold InTime
    infer_instance
  | .advance _ | .executorReturns _ | .publishCancel | .cancelTask | .commitThread _ | .other _ =>
    isTrue trivial

/- The cancellation commits before the check, and reaches the task at the check. -/
def canceledInTime : List Label :=
  [.advance 1, .executorReturns { status := .failed }, .cancelRun 2, .publishCancel, .cancelTask,
    .commitThread 3]

/- It commits right after the check. -/
def canceledAfterCheck : List Label :=
  [.advance 1, .executorReturns { status := .failed }, .advance 2, .cancelRun 3, .advance 4]

theorem suppressed_canceledInTime : ∃ db s, queuedReport = some db ∧
    Machine.run (step {}) (start db firstDelivery) canceledInTime = some s ∧ s.canceled = true ∧
    Machine.Visits (step {}) Suppressed (start db firstDelivery) canceledInTime := by
  have hall : queuedReport.any (fun db =>
      decide (Machine.Along (step {}) InTime (start db firstDelivery) canceledInTime) &&
        (Machine.run (step {}) (start db firstDelivery) canceledInTime).any State.canceled) =
      true := by
    decide
  obtain ⟨db, hdb, hall⟩ := (Option.any_eq_true _ _).mp hall
  rw [Bool.and_eq_true, decide_eq_true_eq] at hall
  obtain ⟨s, hs, hcan⟩ := (Option.any_eq_true _ _).mp hall.2
  exact ⟨db, s, hdb, hs, hcan, suppressed_visits rfl hall.1⟩

/- The retry is created for a run that is already cancelled. -/
theorem not_suppressed : ¬ ∀ (cfg : Settings) (db : Database) (h : Handler) (ls : List Label),
    h.pc = .claiming → Machine.Visits (step cfg) Suppressed (start db h) ls := by
  intro hclaim
  have hall : queuedReport.any (fun db =>
      (Machine.run (step {}) (start db firstDelivery) canceledAfterCheck).any fun s =>
        s.canceled && decide (s.late = [1])) = true := by
    decide
  obtain ⟨db, -, hall⟩ := (Option.any_eq_true _ _).mp hall
  obtain ⟨s, hs, hall⟩ := (Option.any_eq_true _ _).mp hall
  rw [Bool.and_eq_true, decide_eq_true_eq] at hall
  have hlate := ((hclaim {} db firstDelivery canceledAfterCheck rfl).last hs hall.1).1
  rw [hall.2] at hlate
  cases hlate

end JobScheduler.Cancellation
