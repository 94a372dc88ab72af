import JobScheduler.Library.Positions
import JobScheduler.Lifecycle
import JobScheduler.Rows

/-!
# A run of the system is a history of transactions

The ledger knows nothing of Redis, of handlers and of processes: it has the tables, the
transactions that write runs, and who has claimed what. As long as nobody edits or deletes a
job the system does nothing to the tables that the callers of the ledger could not do, with
create_dependency_run cut at its statements on both sides.
-/

namespace JobScheduler
open Library Database

namespace Pc

/- After process_run. -/
def released : Pc → Bool
  | acking | deleting => true
  | _ => false

theorem released_of_claimed? {pc : Pc} (h : pc.claimed?.isSome = true) : pc.released = false := by
  cases pc <;> first | rfl | cases h

theorem released_of_working {pc : Pc} (h : pc.working = true) : pc.released = false := by
  cases pc <;> first | rfl | cases h

end Pc

namespace Lifecycle

/- The operation of a caller that makes the transaction; the statements of create_dependency_run
are none. -/
def Op.ofTx (caller : ℕ) : RunTx → Option Op
  | .createRun jobId triggerType scheduledFor attempt status now =>
    some (.createRun jobId triggerType scheduledFor attempt status now)
  | .createRetryRun jobId attempt now => some (.createRetryRun jobId attempt now)
  | .createDependencyRun jobId now => some (.createDependencyRun jobId now)
  | .scheduleDueJobs now => some (.scheduleDueJobs now)
  | .claimRun runId workerId allowRunning now =>
    some (.claimRun caller runId workerId allowRunning now)
  | .cancelRun runId now => some (.cancelRun runId now)
  | .finishRun runId res error now => some (.finishRun caller runId res error now)
  | .promoteRun _ | .insertDependencyRun _ _ => none

theorem Op.tx_ofTx {caller : ℕ} {tx : RunTx} {op : Op} (h : Op.ofTx caller tx = some op) :
    op.tx = tx := by
  cases tx <;> cases h <;> rfl

theorem step_ofTx (cronNext : Cron.CronNext) (u : Ledger) {caller : ℕ} {tx : RunTx} {op : Op}
    (hop : Op.ofTx caller tx = some op) (hclaim : ∀ i res error now,
      tx = .finishRun i res error now → ∃ c ∈ u.claims, c.caller = caller ∧ c.runId = i) :
    step cronNext u op = some ⟨tx.exec cronNext u.db, u.claims ++ op.claims u.db⟩ := by
  have hen : op.enabled u = true := by
    cases tx with
    | finishRun i res error now =>
      cases hop
      obtain ⟨c, hc, hcaller, hrun⟩ := hclaim i res error now rfl
      refine List.any_eq_true.mpr ⟨c, hc, ?_⟩
      simp [hcaller, hrun]
    | _ => cases hop <;> rfl
  rw [step, if_pos hen, Op.tx_ofTx hop]

namespace Sessions

variable {cronNext : Cron.CronNext} {P : Prop} {u : Sessions}

/- Under P every flush finds its run unclaimed. -/
def Finds (P : Prop) (u : Sessions) (e : Event) : Prop :=
  P → FlushFinds (Store.claimable false) u e

theorem leads_transaction {op : Op} {v : Ledger} (h : Lifecycle.step cronNext u.ledger op = some v) :
    Machine.Leads (step cronNext) (Finds P) u { u with ledger := v } := by
  refine .single (l := .transaction op) ?_ (by rw [step, h, Option.map_some])
  rintro - tx htx
  cases htx
  have hne := op.tx_ne_promoteRun
  cases htx : op.tx <;> first | rfl | exact absurd htx (hne _)

variable (cronNext P) in
theorem leads_first {caller : ℕ} (hu : u.promotion caller = none) (job : JobId) :
    Machine.Leads (step cronNext) (Finds P) u
      (u.replied caller (Store.firstStatement u.ledger.db job)) := by
  refine .single (l := .createDependencyRun caller job) ?_ (by rw [step, hu])
  rintro - tx htx
  cases htx

variable (cronNext P) in
theorem leads_statement (now : Time) {caller : ℕ} {x : Store.Promotion}
    (hu : u.promotion caller = some x) (hfinds : P → ∀ tx, x.tx now = some tx →
      tx.flushFinds (Store.claimable false) u.ledger.db = true) :
    Machine.Leads (step cronNext) (Finds P) u
      ({ u with ledger := { u.ledger with
        db := (Store.nextStatement u.ledger.db now x).1 } }.replied caller
          (Store.nextStatement u.ledger.db now x).2) := by
  refine .single (l := .statement caller now) ?_ (by rw [step, hu, Option.map_some])
  intro hP tx htx
  rw [Event.tx, hu, Option.bind_some] at htx
  exact hfinds hP tx htx

/- The recursion of a trigger is a sequence of create_run. -/
theorem leads_trigger {owner : UserId} {job : JobId} {now : Time} {st : Api.Prepared} {p : RunId}
    (h : Api.triggerJob u.ledger.db owner job now = .ok (st, p)) :
    Machine.Leads (step cronNext) (Finds P) u
      { u with ledger := { u.ledger with db := st.1 } } := by
  have hcreate : ∀ (db : Database) (job : JobId) (tt : TriggerType) (status : RunStatus)
      (ha : db.Admits (Api.triggeredRow now job tt status)),
      Machine.Leads (step cronNext) (Finds P) { u with ledger := { u.ledger with db := db } }
        { u with ledger := { u.ledger with
          db := db.addRun (Api.triggeredRow now job tt status) ha } } := by
    intro db job tt status ha
    have hins : db.createRun job tt none 1 status now =
        some (db.addRun (Api.triggeredRow now job tt status) ha, db.runs.next) := dif_pos ha
    have hop : Op.ofTx 0 (.createRun job tt none 1 status now) = some _ := rfl
    have hstep := step_ofTx cronNext { u.ledger with db := db } hop
      (by rintro _ _ _ _ heq; cases heq)
    refine leads_transaction (u := { u with ledger := { u.ledger with db := db } }) (hstep.trans ?_)
    rw [RunTx.exec, hins]
    show some (⟨_, u.ledger.claims ++ []⟩ : Ledger) = _
    rw [List.append_nil]
    rfl
  unfold Api.triggerJob at h
  split at h
  · cases h
  · exact Api.prepareTriggerRun_rel_of (K := fun _ => True)
      (R := fun a b => Machine.Leads (step cronNext) (Finds P)
        { u with ledger := { u.ledger with db := a.1 } }
        { u with ledger := { u.ledger with db := b.1 } })
      (fun st => .refl _) (fun a b c hab hbc => hab.trans hbc) trivial
      (fun st job tt ha _ _ => hcreate st.1 job tt .queued ha)
      (fun st job tt ha _ _ _ => hcreate st.1 job tt .pending ha) _ _ _ _ _ _ _ trivial h

end Sessions
end Lifecycle

namespace Runner

/- A call after which the handler has a record is made with one, or it is the claim. -/
theorem Advance.claims {cfg : Settings} {db db' : Database} {now : Time} {h : Handler} {g : Grain}
    {pc pc' : Pc} {out : Option Send} (hadv : Advance cfg db now h g pc db' pc' out)
    (hc : pc'.claimed?.isSome = true) : pc.claimed?.isSome = true ∨
      pc = .claiming ∧ ∃ c, (Store.claimRun db h.runId h.worker h.allowRunning now).2 = some c := by
  cases hadv with
  | claimed r job hr hg hjob =>
    obtain ⟨job', -, heq⟩ := Store.claimRun_granted h.worker now hr hg
    exact Or.inr ⟨rfl, _, congrArg Prod.snd heq⟩
  | refused _ | successSkipped _ _ _ | fannedOut _ | dependencyRaised _ _ _ _
  | dependencyGone _ _ _ _ _ | dependencyRefused _ _ _ _ | failureSkipped _ _ _
  | retryRaised _ _ _ | failed _ _ _ => cases hc
  | _ => exact Or.inl rfl

theorem Advance.not_released {cfg : Settings} {db db' : Database} {now : Time} {h : Handler}
    {g : Grain} {pc pc' : Pc} {out : Option Send} (hadv : Advance cfg db now h g pc db' pc' out) :
    pc.released = false := by
  cases hadv <;> rfl

/- A statement that commits nothing and does not go on was not made inside a transaction. -/
theorem Advance.outside {cfg : Settings} {db db' : Database} {now : Time} {h : Handler} {pc' : Pc}
    {out : Option Send} (hadv : Advance cfg db now h .statement h.pc db' pc' out)
    (htx : tx h now = none) (hgo : pc'.promotion? = none) : h.pc.promotion? = none := by
  unfold tx at htx
  generalize h.pc = pc at hadv htx
  cases hadv with
  | dependencyRead _ _ _ _ _ | dependencyAbsent _ _ _ _ => cases hgo
  | dependencyPromoted _ _ _ _ _ _ | dependencyGone _ _ _ _ _ | dependencyInserted _ _ _ _ _ _
  | dependencyRefused _ _ _ _ => cases htx
  | _ => rfl

end Runner

/- Everything but the edits and the deletions of jobs. -/
def Label.ofRuns : Label → Bool
  | .editJobs .. | .deleteJob .. => false
  | _ => true

namespace Sys

variable {cfg : Settings} {cronNext : Cron.CronNext} {s t : Sys} {l : Label}

/-! ### Callers -/

/- A handler keeps its id in the thread that outlives it. -/
structure Callers (s : Sys) : Prop where
  known : ∀ d ∈ s.detached, d.id < s.handlers.next
  left : ∀ d ∈ s.detached, ∀ h ∈ s.handlers.rows, h.id = d.id → h.pc.released = true
  distinct : (s.detached.map Handler.id).Nodup

theorem Callers.mono (hs : Callers s) (hnext : s.handlers.next ≤ t.handlers.next)
    (hrows : ∀ h ∈ t.handlers.rows, h.pc.released = false → h ∈ s.handlers.rows ∨
      s.handlers.next ≤ h.id) (hd : (t.detached.map Handler.id).Sublist (s.detached.map Handler.id)) :
    Callers t where
  known := by
    intro d hmem
    obtain ⟨d', hd', hid⟩ := List.mem_map.mp (hd.subset (List.mem_map_of_mem hmem))
    exact hid ▸ (hs.known d' hd').trans_le hnext
  left := by
    intro d hmem h hh hid
    obtain ⟨d', hd', hid'⟩ := List.mem_map.mp (hd.subset (List.mem_map_of_mem hmem))
    by_contra hrel
    have hrel : h.pc.released = false := Bool.eq_false_of_not_eq_true hrel
    rcases hrows h hh hrel with hold | hnew
    · rw [hs.left d' hd' h hold (hid.trans hid'.symm)] at hrel
      cases hrel
    · have hlt := hs.known d' hd'
      omega
  distinct := hs.distinct.sublist hd

theorem Callers.goto (hs : Callers s) {h : Handler} {pc : Pc} (hget : s.handlers.get h.id = some h)
    (hpc : h.pc.released = true → pc.released = true)
    (hh : t.handlers = (s.goto h.id pc).handlers) (hd : t.detached = s.detached) : Callers t where
  known := by
    rw [hd, hh]
    exact hs.known
  left := by
    rw [hd, hh]
    intro d hmem k hk hid
    rcases (mem_goto hget).mp hk with rfl | ⟨hk, -⟩
    · exact hpc (hs.left d hmem h (Table.mem_of_get hget) hid)
    · exact hs.left d hmem k hk hid
  distinct := by
    rw [hd]
    exact hs.distinct

theorem Callers.cancelTask (hs : Callers s) {h : Handler} (hget : s.handlers.get h.id = some h)
    (hw : h.pc.working = true) (hh : t.handlers = (s.goto h.id .acking).handlers)
    (hd : t.detached = s.detached ++ [h]) : Callers t where
  known := by
    rw [hd, hh]
    intro d hmem
    rcases List.mem_append.mp hmem with hmem | hmem
    · exact hs.known d hmem
    · rw [List.mem_singleton.mp hmem]
      exact (Table.lt_next_of_get hget : h.id < s.handlers.next)
  left := by
    rw [hd, hh]
    intro d hmem k hk hid
    rcases (mem_goto hget).mp hk with rfl | ⟨hk, hne⟩
    · rfl
    · rcases List.mem_append.mp hmem with hmem | hmem
      · exact hs.left d hmem k hk hid
      · rw [List.mem_singleton.mp hmem] at hid
        exact absurd hid hne
  distinct := by
    rw [hd, List.map_append, List.map_cons, List.map_nil, ← List.concat_eq_append]
    refine hs.distinct.concat fun hmem => ?_
    obtain ⟨d, hmem, hid⟩ := List.mem_map.mp hmem
    have hrel := hs.left d hmem h (Table.mem_of_get hget) hid.symm
    rw [Pc.released_of_working hw] at hrel
    cases hrel

theorem Trans.callers (h : Trans cfg cronNext s l t) (hs : Callers s) : Callers t := by
  cases h with
  | reclaim w m e p _ | deliver w m p _ =>
    refine hs.mono (Nat.le_succ _) (fun k hk _ => ?_) (List.Sublist.refl _)
    rcases mem_spawn.mp hk with hk | rfl
    · exact Or.inl hk
    · exact Or.inr le_rfl
  | acquire hd hget hpc => exact hs.goto hget (by rw [hpc]; exact fun h => h) rfl rfl
  | advance hd now db' pc out hget hadv =>
    refine hs.goto hget ?_ (handlers_advance s pc hd out db') (by simp)
    rw [hadv.not_released]
    exact fun h => by cases h
  | executorReturns hd c res hget hpc =>
    refine hs.goto hget ?_ rfl rfl
    rw [hpc]
    exact fun h => by cases h
  | fail hd hget hw => exact hs.goto hget (fun _ => rfl) (handlers_leave s hd) (detached_leave s hd)
  | cancelTask hd hget hw hc =>
    exact hs.cancelTask hget hw (handlers_leave _ hd) (detached_leave _ hd)
  | commitThread k now hd db' hk hdb =>
    exact hs.mono le_rfl (fun k hk _ => Or.inl hk) ((List.eraseIdx_sublist _ _).map _)
  | threadGoesOn k now hd c x js hk hadv =>
    have hids : (s.detached.set k (setPc (.successCreate c x js) hd)).map Handler.id =
        s.detached.map Handler.id := Positions.map_set_of_eq hk rfl
    exact hs.mono le_rfl (fun k hk _ => Or.inl hk) (hids ▸ List.Sublist.refl _)
  | ack hd hget hpc => exact hs.goto hget (fun _ => rfl) rfl rfl
  | ackError hd hget hpc | del hd hget hpc | delError hd hget hpc | crash w =>
    exact hs.mono le_rfl (fun k hk _ => Or.inl (Table.mem_rows_deleteWhere.mp hk).1)
      (List.Sublist.refl _)
  | _ => exact ⟨hs.known, hs.left, hs.distinct⟩

theorem callers_start (db : Database) : Callers (start db) where
  known := fun _ hd => absurd hd List.not_mem_nil
  left := fun _ hd => absurd hd List.not_mem_nil
  distinct := List.nodup_nil

/-! ### The system and the ledger -/

def claimOf (h : Handler) : Lifecycle.Claim := ⟨h.id, h.runId, h.allowRunning⟩

/- The sessions have the tables of the system and the claims of its handlers, and a handler inside
a transaction of create_dependency_run stands there as the caller with its id. -/
structure Records (s : Sys) (u : Lifecycle.Sessions) : Prop where
  wellFormed : WellFormed s
  callers : Callers s
  db : u.ledger.db = s.db
  claims : ∀ h, Works s h → h.pc.claimed?.isSome = true → claimOf h ∈ u.ledger.claims
  promotion : ∀ h, Works s h → h.pc.released = false → u.promotion h.id = h.pc.promotion?
  fresh : ∀ k, s.handlers.next ≤ k → u.promotion k = none

variable {u v : Lifecycle.Sessions} {P : Prop}

/- The caller of finish_run has claimed the run. -/
theorem Records.claimed (hu : Records s u) {h : Handler} (hw : Works s h) {now n : Time} {i : RunId}
    {res : ExecResult} {error : Option String}
    (htx : Runner.tx h now = some (.finishRun i res error n)) :
    ∃ c ∈ u.ledger.claims, c.caller = h.id ∧ c.runId = i := by
  obtain ⟨-, c, hc, -⟩ := Runner.tx_finishRun htx
  exact ⟨claimOf h, hu.claims h hw (by rw [hc]; rfl), rfl, hu.wellFormed.runId_of_finish hw htx⟩

/- Of the callers only one has moved, and nobody has lost a claim. -/
structure Serves (caller : ℕ) (x : Option Store.Promotion) (u v : Lifecycle.Sessions) : Prop where
  claims : ∀ c ∈ u.ledger.claims, c ∈ v.ledger.claims
  promotion : v.promotion caller = x
  others : ∀ k, k ≠ caller → v.promotion k = u.promotion k

variable (cronNext P) in
theorem Records.goesOn (hu : Records s u) {h : Handler} (hw : Works s h) {now : Time}
    {db' : Database} {c : Store.Claimed} {x : Store.Promotion} {js : List JobId} {out : Option Send}
    (hadv : Runner.Advance cfg s.db now h .statement h.pc db' (.successCreate c x js) out) :
    ∃ v, Machine.Leads (Lifecycle.Sessions.step cronNext) (Lifecycle.Sessions.Finds P) u v ∧
      v.ledger = u.ledger ∧ Serves h.id (some x) u v := by
  have hx := hu.promotion h hw hadv.not_released
  have hserves : ∀ w : Lifecycle.Sessions, w.ledger = u.ledger → w.promotion = u.promotion →
      Serves h.id (some x) u (w.replied h.id (.goesOn x)) := by
    intro w hl hp
    refine ⟨fun c hc => ?_, if_pos rfl, fun k hk => (if_neg hk).trans (congrFun hp k)⟩
    rw [Lifecycle.Sessions.ledger_replied, hl]
    exact hc
  obtain ⟨⟨db, claims⟩, promotion⟩ := u
  obtain rfl : db = s.db := hu.db
  generalize h.pc = pc at hadv hx
  cases hadv with
  | dependencyChecked c j js hd =>
    have hleads := Lifecycle.Sessions.leads_first cronNext P hx j
    rw [Store.firstStatement, if_neg (by rw [hd]; exact Bool.false_ne_true)] at hleads
    exact ⟨_, hleads, rfl, hserves _ rfl rfl⟩
  | dependencyRead c j js p hp =>
    have hleads := Lifecycle.Sessions.leads_statement cronNext P now hx
      fun _ tx htx => by cases htx
    simp only [Store.nextStatement, hp] at hleads
    exact ⟨_, hleads, rfl, hserves _ rfl rfl⟩
  | dependencyAbsent c j js hp =>
    have hleads := Lifecycle.Sessions.leads_statement cronNext P now hx
      fun _ tx htx => by cases htx
    simp only [Store.nextStatement, hp] at hleads
    exact ⟨_, hleads, rfl, hserves _ rfl rfl⟩

def Granted (s : Sys) (h : Handler) (now : Time) (v : Lifecycle.Sessions) : Prop :=
  h.pc = .claiming → ∀ c, (Store.claimRun s.db h.runId h.worker h.allowRunning now).2 = some c →
    claimOf h ∈ v.ledger.claims

/- A handler commits: inside create_dependency_run with its last statement, elsewhere with an
operation of its own. -/
theorem Records.commits (hu : Records s u) {h : Handler} (hw : Works s h) {now : Time} {tx : RunTx}
    (htx : Runner.tx h now = some tx)
    (hfinds : P → tx.flushFinds (Store.claimable false) s.db = true) :
    ∃ v, Machine.Leads (Lifecycle.Sessions.step cronNext) (Lifecycle.Sessions.Finds P) u v ∧
      v.ledger.db = tx.exec cronNext s.db ∧ Granted s h now v ∧ Serves h.id none u v := by
  have hrel : h.pc.released = false := by
    unfold Runner.tx at htx
    generalize h.pc = pc at htx
    cases pc <;> first | rfl | cases htx
  have hx := hu.promotion h hw hrel
  by_cases hpc : ∃ c x js, h.pc = .successCreate c x js
  · obtain ⟨c, x, js, hpc⟩ := hpc
    have hx : u.promotion h.id = some x := by rw [hx, hpc]; rfl
    have htx : x.tx now = some tx := by
      rw [Runner.tx, hpc] at htx
      exact htx
    refine ⟨_, Lifecycle.Sessions.leads_statement cronNext P now hx fun hP tx' htx' => ?_, ?_, ?_,
      fun _ hc => hc, ?_, fun k hk => if_neg hk⟩
    · rw [hu.db, Option.some.inj (htx'.symm.trans htx)]
      exact hfinds hP
    · rw [Lifecycle.Sessions.ledger_replied, hu.db, Store.fst_nextStatement cronNext, htx]
      rfl
    · intro hclaim
      rw [hpc] at hclaim
      cases hclaim
    · refine (if_pos rfl).trans ?_
      have hlast := Store.nextStatement_last u.ledger.db htx
      generalize (Store.nextStatement u.ledger.db now x).2 = reply at hlast
      cases reply with
      | goesOn y => exact absurd rfl (hlast y)
      | returned res => rfl
      | raised => rfl
  · obtain ⟨op, hop⟩ : ∃ op, Lifecycle.Op.ofTx h.id tx = some op := by
      cases tx with
      | promoteRun p =>
        obtain ⟨c, j, js, heq⟩ := Runner.tx_promoteRun htx
        exact absurd ⟨c, _, js, heq⟩ hpc
      | insertDependencyRun j n =>
        obtain ⟨c, js, heq⟩ := Runner.tx_insertDependencyRun htx
        exact absurd ⟨c, _, js, heq⟩ hpc
      | _ => exact ⟨_, rfl⟩
    have hstep := Lifecycle.step_ofTx cronNext u.ledger hop
      fun i res error n heq => hu.claimed hw (heq ▸ htx)
    refine ⟨_, Lifecycle.Sessions.leads_transaction hstep, by rw [hu.db], ?_,
      fun c hc => List.mem_append_left _ hc, ?_, fun _ _ => rfl⟩
    · intro hclaim c hgrant
      rw [Runner.tx, hclaim] at htx
      cases htx
      cases hop
      refine List.mem_append_right _ ?_
      simp [Lifecycle.Op.claims, hu.db, hgrant, claimOf]
    · show u.promotion h.id = none
      rw [hx]
      cases hc : h.pc <;> first | rfl | exact absurd ⟨_, _, _, hc⟩ hpc

/- A step after which nobody works who did not work before. -/
theorem Records.fewer (hu : Records s u) (h : Trans cfg cronNext s l t)
    (hworks : ∀ k, Works t k → k.pc.released = false → Works s k)
    (hnext : s.handlers.next ≤ t.handlers.next) (hdb : v.ledger.db = t.db)
    (hclaims : ∀ c ∈ u.ledger.claims, c ∈ v.ledger.claims) (hprom : v.promotion = u.promotion) :
    Records t v where
  wellFormed := h.wellFormed hu.wellFormed
  callers := h.callers hu.callers
  db := hdb
  claims := fun k hk hc =>
    hclaims _ (hu.claims k (hworks k hk (Pc.released_of_claimed? hc)) hc)
  promotion := by
    rw [hprom]
    exact fun k hk hrel => hu.promotion k (hworks k hk hrel) hrel
  fresh := by
    rw [hprom]
    exact fun k hk => hu.fresh k (hnext.trans hk)

theorem Records.spawned (hu : Records s u) (h : Trans cfg cronNext s l t) {w : WorkerId} {m : ℕ}
    {r : RunId} {allow : Bool} (hh : t.handlers = (s.spawn w m r allow).handlers)
    (hd : t.detached = s.detached) (hdb : s.db = t.db) : Records t u where
  wellFormed := h.wellFormed hu.wellFormed
  callers := h.callers hu.callers
  db := hu.db.trans hdb
  claims := by
    rintro k (hk | hk) hc
    · rw [hh] at hk
      rcases mem_spawn.mp hk with hk | rfl
      · exact hu.claims k (Or.inl hk) hc
      · cases hc
    · exact hu.claims k (Or.inr (hd ▸ hk)) hc
  promotion := by
    rintro k (hk | hk) hrel
    · rw [hh] at hk
      rcases mem_spawn.mp hk with hk | rfl
      · exact hu.promotion k (Or.inl hk) hrel
      · exact hu.fresh _ le_rfl
    · exact hu.promotion k (Or.inr (hd ▸ hk)) hrel
  fresh := by
    rw [hh]
    exact fun k hk => hu.fresh k ((Nat.le_succ _).trans hk)

/- A live handler moves, and its caller with it. -/
theorem Records.moved (hu : Records s u) (h : Trans cfg cronNext s l t) {d : Handler} {pc : Pc}
    (hget : s.handlers.get d.id = some d) (hrel : d.pc.released = false)
    (hh : t.handlers = (s.goto d.id pc).handlers) (hd : t.detached = s.detached)
    (hdb : v.ledger.db = t.db) (hv : Serves d.id pc.promotion? u v)
    (hclaim : pc.claimed?.isSome = true → claimOf d ∈ v.ledger.claims) : Records t v where
  wellFormed := h.wellFormed hu.wellFormed
  callers := h.callers hu.callers
  db := hdb
  claims := by
    rintro k (hk | hk) hc
    · rw [hh] at hk
      rcases (mem_goto hget).mp hk with rfl | ⟨hk, -⟩
      · exact hclaim hc
      · exact hv.claims _ (hu.claims k (Or.inl hk) hc)
    · exact hv.claims _ (hu.claims k (Or.inr (hd ▸ hk)) hc)
  promotion := by
    rintro k (hk | hk) hk'
    · rw [hh] at hk
      rcases (mem_goto hget).mp hk with rfl | ⟨hk, hne⟩
      · exact hv.promotion
      · rw [hv.others k.id hne]
        exact hu.promotion k (Or.inl hk) hk'
    · rw [hd] at hk
      rw [hv.others k.id fun heq => ?_]
      · exact hu.promotion k (Or.inr hk) hk'
      · rw [hu.callers.left k hk d (Table.mem_of_get hget) heq.symm] at hrel
        cases hrel
  fresh := by
    rw [hh]
    intro k hk
    have hlt : d.id < s.handlers.next := Table.lt_next_of_get hget
    have hk : s.handlers.next ≤ k := hk
    rw [hv.others k (by omega)]
    exact hu.fresh k hk

theorem Records.thread (hu : Records s u) (h : Trans cfg cronNext s l t) {n : ℕ} {d : Handler}
    {x : Option Store.Promotion} (hn : s.detached[n]? = some d) (hh : t.handlers = s.handlers)
    (hd : ∀ k ∈ t.detached, k ∈ s.detached.eraseIdx n ∨
      k.id = d.id ∧ k.pc.promotion? = x ∧ (k.pc.claimed?.isSome = true → claimOf k ∈ u.ledger.claims))
    (hdb : v.ledger.db = t.db) (hv : Serves d.id x u v) : Records t v where
  wellFormed := h.wellFormed hu.wellFormed
  callers := h.callers hu.callers
  db := hdb
  claims := by
    rintro k (hk | hk) hc
    · exact hv.claims _ (hu.claims k (Or.inl (hh ▸ hk)) hc)
    · rcases hd k hk with hk | ⟨-, -, hk⟩
      · exact hv.claims _ (hu.claims k (Or.inr (List.mem_of_mem_eraseIdx hk)) hc)
      · exact hv.claims _ (hk hc)
  promotion := by
    have hmem := List.mem_of_getElem? hn
    rintro k (hk | hk) hrel
    · rw [hh] at hk
      rw [hv.others k.id fun heq => ?_]
      · exact hu.promotion k (Or.inl hk) hrel
      · rw [hu.callers.left d hmem k hk heq] at hrel
        cases hrel
    · rcases hd k hk with hk | ⟨hid, hx, -⟩
      · rw [hv.others k.id (Positions.ne_of_mem_eraseIdx hu.callers.distinct hn hk)]
        exact hu.promotion k (Or.inr (List.mem_of_mem_eraseIdx hk)) hrel
      · rw [hid, hx]
        exact hv.promotion
  fresh := by
    rw [hh]
    intro k hk
    have hlt := hu.callers.known d (List.mem_of_getElem? hn)
    rw [hv.others k (by omega)]
    exact hu.fresh k hk

theorem Records.request (hu : Records s u) (tx : RunTx) (h : Trans cfg cronNext s l t)
    {op : Lifecycle.Op} (hop : Lifecycle.Op.ofTx 0 tx = some op)
    (htx : ∀ i res error n, tx ≠ .finishRun i res error n) (hdb : t.db = tx.exec cronNext s.db)
    (hh : t.handlers = s.handlers) (hd : t.detached = s.detached) :
    ∃ v, Machine.Leads (Lifecycle.Sessions.step cronNext) (Lifecycle.Sessions.Finds P) u v ∧
      Records t v := by
  have hstep := Lifecycle.step_ofTx cronNext u.ledger hop
    fun i res error n heq => absurd heq (htx i res error n)
  refine ⟨_, Lifecycle.Sessions.leads_transaction hstep, hu.fewer h (fun k hk _ => ?_)
    (by rw [hh]) (by rw [hdb, hu.db]) (fun c hc => List.mem_append_left _ hc) rfl⟩
  rcases hk with hk | hk
  · exact Or.inl (hh ▸ hk)
  · exact Or.inr (hd ▸ hk)

theorem Records.advance (hu : Records s u) {d : Handler} {now : Time} {db' : Database} {pc : Pc}
    {out : Option Send} (hget : s.handlers.get d.id = some d)
    (hadv : Runner.Advance cfg s.db now d .statement d.pc db' pc out)
    (hP : P → FlushFinds (Store.claimable false) s (.advance d.id now)) :
    ∃ v, Machine.Leads (Lifecycle.Sessions.step cronNext) (Lifecycle.Sessions.Finds P) u v ∧
      Records (({ s with db := db' }.send out).resume d pc) v := by
  have htrans : Trans cfg cronNext s _ _ := .advance d now db' pc out hget hadv
  have hw : Works s d := Or.inl (Table.mem_of_get hget)
  have hrel := hadv.not_released
  have hh := handlers_advance s pc d out db'
  have hd : (({ s with db := db' }.send out).resume d pc).detached = s.detached := by simp
  have hdb : (({ s with db := db' }.send out).resume d pc).db = db' := by simp
  by_cases hgo : ∃ c x js, pc = .successCreate c x js
  · obtain ⟨c, x, js, rfl⟩ := hgo
    obtain ⟨v, hleads, hl, hv⟩ := hu.goesOn cronNext P hw hadv
    refine ⟨v, hleads, hu.moved htrans hget hrel hh hd ?_ hv fun _ => ?_⟩
    · rw [hl, hu.db, hdb, hadv.goesOn.1]
    · exact hv.claims _ (hu.claims d hw (by rw [hadv.goesOn_claimed]; rfl))
  · have hnone : pc.promotion? = none := by
      cases pc <;> first | rfl | exact absurd ⟨_, _, _, rfl⟩ hgo
    rcases hadv.exec cronNext with ⟨hno, rfl⟩ | ⟨tx, htx, rfl⟩
    · refine ⟨u, .refl u, hu.moved htrans hget hrel hh hd (hu.db.trans hdb.symm)
        ⟨fun _ hc => hc, ?_, fun _ _ => rfl⟩ fun hc => ?_⟩
      · rw [hu.promotion d hw hrel, hadv.outside hno hnone, hnone]
      · rcases hadv.claims hc with hc | ⟨hpc, -⟩
        · exact hu.claims d hw hc
        · rw [Runner.tx, hpc] at hno
          cases hno
    · obtain ⟨v, hleads, hexec, hgrant, hv⟩ := hu.commits (P := P) hw htx
        fun h => hP h tx ((Trans.tx_advance hget now).trans htx)
      refine ⟨v, hleads, hu.moved htrans hget hrel hh hd (hexec.trans hdb.symm) (hnone ▸ hv)
        fun hc => ?_⟩
      rcases hadv.claims hc with hc | ⟨hpc, c, hc⟩
      · exact hv.claims _ (hu.claims d hw hc)
      · exact hgrant hpc c hc

theorem Records.commitThread (hu : Records s u) {n : ℕ} {now : Time}
    (h : Trans cfg cronNext s (.commitThread n now) t)
    (hP : P → FlushFinds (Store.claimable false) s (.commitThread n now)) :
    ∃ v, Machine.Leads (Lifecycle.Sessions.step cronNext) (Lifecycle.Sessions.Finds P) u v ∧
      Records t v := by
  have htrans := h
  cases h with
  | commitThread _ _ d db' hn hdb =>
    have hw : Works s d := Or.inr (List.mem_of_getElem? hn)
    rcases hdb with ⟨rfl, hno⟩ | ⟨tx, htx, rfl⟩
    · refine ⟨u, .refl u, hu.fewer htrans (fun k hk _ => ?_) le_rfl hu.db (fun _ hc => hc) rfl⟩
      rcases hk with hk | hk
      · exact Or.inl hk
      · exact Or.inr (List.mem_of_mem_eraseIdx hk)
    · obtain ⟨v, hleads, hexec, -, hv⟩ := hu.commits (P := P) hw htx fun h => hP h tx (by
        show (s.detached[n]?.bind fun h => Runner.tx h now) = _
        rw [hn, Option.bind_some, htx])
      exact ⟨v, hleads, hu.thread htrans hn rfl (fun k hk => Or.inl hk) hexec hv⟩
  | threadGoesOn _ _ d c x js hn hadv =>
    have hw : Works s d := Or.inr (List.mem_of_getElem? hn)
    obtain ⟨v, hleads, hl, hv⟩ := hu.goesOn cronNext P hw hadv
    refine ⟨v, hleads, hu.thread htrans hn rfl (fun k hk => ?_) (by rw [hl, hu.db]) hv⟩
    rcases Positions.mem_set_cases hn hk with rfl | hk
    · exact Or.inr ⟨rfl, rfl, fun _ => hu.claims d hw (by rw [hadv.goesOn_claimed]; rfl)⟩
    · exact Or.inl hk

/- Every step is matched by no event, by one, or by those of a trigger. -/
theorem Trans.recorded (h : Trans cfg cronNext s l t) (hl : l.ofRuns = true)
    (hP : P → FlushFinds (Store.claimable false) s l) (hu : Records s u) :
    ∃ v, Machine.Leads (Lifecycle.Sessions.step cronNext) (Lifecycle.Sessions.Finds P) u v ∧
      Records t v := by
  have htrans := h
  have hsame : ∀ k, Works s k → k.pc.released = false → Works s k := fun _ hk _ => hk
  cases h with
  | editJobs _ _ _ _ | deleteJob _ _ => cases hl
  | trigger owner job now st p hok =>
    have hok : Api.triggerJob u.ledger.db owner job now = .ok (st, p) := by rw [hu.db]; exact hok
    refine ⟨_, Lifecycle.Sessions.leads_trigger hok, ?_⟩
    exact hu.fewer htrans hsame le_rfl rfl (fun _ hc => hc) rfl
  | retryRun owner i now run db' k hrun hterm hcreate =>
    refine hu.request (.createRun run.jobId .retry none (run.attempt + 1) .queued now) htrans rfl
      (fun _ _ _ _ heq => by cases heq) ?_ rfl rfl
    rw [RunTx.exec, hcreate]
    rfl
  | cancelRun owner i now r hr ha =>
    exact hu.request (.cancelRun i now) htrans rfl (fun _ _ _ _ heq => by cases heq) rfl rfl rfl
  | tick now db' ids hok =>
    refine hu.request (.scheduleDueJobs now) htrans rfl (fun _ _ _ _ heq => by cases heq) ?_
      rfl rfl
    rw [RunTx.exec, hok]
  | reclaim w m e p hstale | deliver w m p hnext => exact ⟨u, .refl u, hu.spawned htrans rfl rfl rfl⟩
  | acquire d hget hpc =>
    have hrel : d.pc.released = false := by rw [hpc]; rfl
    have hprom := hu.promotion d (Or.inl (Table.mem_of_get hget)) hrel
    rw [hpc] at hprom
    exact ⟨u, .refl u, hu.moved htrans hget hrel rfl rfl hu.db ⟨fun _ hc => hc, hprom, fun _ _ => rfl⟩
      fun hc => by cases hc⟩
  | advance d now db' pc out hget hadv => exact hu.advance hget hadv hP
  | executorReturns d c res hget hpc =>
    have hw : Works s d := Or.inl (Table.mem_of_get hget)
    have hrel : d.pc.released = false := by rw [hpc]; rfl
    have hnone : (Runner.returned c res).promotion? = none := by
      unfold Runner.returned
      split <;> rfl
    have hprom := hu.promotion d hw hrel
    rw [hpc] at hprom
    refine ⟨u, .refl u, hu.moved htrans hget hrel rfl rfl hu.db
      ⟨fun _ hc => hc, hprom.trans hnone.symm, fun _ _ => rfl⟩ fun _ => ?_⟩
    exact hu.claims d hw (by rw [hpc]; rfl)
  | fail d hget hw =>
    refine ⟨u, .refl u, hu.fewer htrans (fun k hk hrel => ?_) ?_ ?_ (fun _ hc => hc) rfl⟩
    · rcases hk with hk | hk
      · rw [handlers_leave] at hk
        rcases (mem_goto hget).mp hk with rfl | ⟨hk, -⟩
        · cases hrel
        · exact Or.inl hk
      · exact Or.inr (by simpa using hk)
    · rw [handlers_leave]
      exact le_rfl
    · rw [db_leave, hu.db]
  | cancelTask d hget hw hc =>
    refine ⟨u, .refl u, hu.fewer htrans (fun k hk hrel => ?_) ?_ ?_ (fun _ hc => hc) rfl⟩
    · rcases hk with hk | hk
      · rw [handlers_leave] at hk
        rcases (mem_goto hget).mp hk with rfl | ⟨hk, -⟩
        · cases hrel
        · exact Or.inl hk
      · rw [detached_leave] at hk
        rcases List.mem_append.mp hk with hk | hk
        · exact Or.inr hk
        · rw [List.mem_singleton.mp hk]
          exact Or.inl (Table.mem_of_get hget)
    · rw [handlers_leave]
      exact le_rfl
    · rw [db_leave, hu.db]
  | commitThread _ _ _ _ _ _ | threadGoesOn _ _ _ _ _ _ _ _ => exact hu.commitThread htrans hP
  | ack d hget hpc =>
    refine ⟨u, .refl u, hu.fewer htrans (fun k hk hrel => ?_) le_rfl hu.db (fun _ hc => hc) rfl⟩
    rcases hk with hk | hk
    · rcases (mem_goto (s := { s with redis := s.redis.xack d.messageId }) hget).mp hk with
        rfl | ⟨hk, -⟩
      · cases hrel
      · exact Or.inl hk
    · exact Or.inr hk
  | ackError d hget hpc | del d hget hpc | delError d hget hpc | crash w =>
    refine ⟨u, .refl u, hu.fewer htrans (fun k hk _ => ?_) le_rfl hu.db (fun _ hc => hc) rfl⟩
    rcases hk with hk | hk
    · exact Or.inl (Table.mem_rows_deleteWhere.mp hk).1
    · exact Or.inr hk
  | elapse _ | promoteDelayed _ | publish _ _ | drop _ _ | poll _ _ | reclaimed _ _
  | delivered _ _ =>
    exact ⟨u, .refl u, hu.fewer htrans hsame le_rfl hu.db (fun _ hc => hc) rfl⟩

/- Every run of the system without edits and deletions of jobs ends with the tables of a
history of sessions, in which the handlers have claimed what they work on. If the flushes of
create_dependency_run found their runs unclaimed, each run was won by one fresh claim. -/
theorem run_is_history (cfg : Settings) (cronNext : Cron.CronNext) (db : Database)
    (ls : List Label) (s : Sys) (hdb : db.runs.rows = []) (hruns : ∀ l ∈ ls, l.ofRuns = true)
    (hrun : Machine.run (step cfg cronNext) (start db) ls = some s) :
    ∃ es u, Machine.run (Lifecycle.Sessions.step cronNext) { ledger := ⟨db, []⟩ } es = some u ∧
      u.ledger.db = s.db ∧
      (∀ h, Works s h → h.pc.claimed?.isSome = true → claimOf h ∈ u.ledger.claims) ∧
      (Machine.Along (step cfg cronNext) (FlushFinds (Store.claimable false)) (start db) ls →
        ∀ i, (Lifecycle.wins i u.ledger).length ≤ 1) := by
  have hstart : Records (start db) { ledger := ⟨db, []⟩ } :=
    ⟨wellFormed_start hdb, callers_start db, rfl, fun h hw => absurd hw (not_works_start db h),
      fun h hw => absurd hw (not_works_start db h), fun _ _ => rfl⟩
  let P := Machine.Along (step cfg cronNext) (FlushFinds (Store.claimable false)) (start db) ls
  have hC : Machine.Along (step cfg cronNext)
      (fun s l => l.ofRuns = true ∧ (P → FlushFinds (Store.claimable false) s l)) (start db) ls := by
    refine Machine.along_iff.mpr fun ms l ns t heq ht => ⟨hruns l (by rw [heq]; simp), fun hP => ?_⟩
    exact Machine.along_iff.mp hP ms l ns t heq ht
  obtain ⟨es, u, hes, hu, hrec⟩ := Machine.run_simulation (R := Records)
    (D := Lifecycle.Sessions.Finds P)
    (fun s l t u hR hl ht =>
      have ⟨v, ⟨ms, hms, hv⟩, hRv⟩ := (trans_of_step ht).recorded hl.1 hl.2 hR
      ⟨ms, v, hms, hv, hRv⟩) hstart hC hrun
  refine ⟨es, u, hu, hrec.db, hrec.claims, fun hP i => ?_⟩
  have hfinds := Machine.along_of_invariant (I := fun _ => True)
    (fun _ _ _ _ _ _ => trivial) (fun u e _ hf => hf hP) trivial hes
  exact (Lifecycle.Sessions.run_singleWinner rfl hfinds hu i).1

/- Worker 1 dies while it executes the run, and worker 2 claims it again. -/
theorem run_is_history_after_crash :
    ∃ s es u, Machine.run (step {} Cron.noCron) (start reportJob)
        (claimedByFirst ++ [.crash 1] ++ reclaimedBySecond ++ [.advance 1 31]) = some s ∧
      Machine.run (Lifecycle.Sessions.step Cron.noCron) { ledger := ⟨reportJob, []⟩ } es = some u ∧
      u.ledger.db = s.db ∧ ∀ i, (Lifecycle.wins i u.ledger).length ≤ 1 := by
  have hall : (Machine.run (step {} Cron.noCron) (start reportJob)
      (claimedByFirst ++ [.crash 1] ++ reclaimedBySecond ++ [.advance 1 31])).isSome = true := by
    decide
  obtain ⟨s, hs⟩ := Option.isSome_iff_exists.mp hall
  obtain ⟨es, u, hu, hdb, -, hwins⟩ :=
    run_is_history {} Cron.noCron reportJob _ s rfl (by decide) hs
  exact ⟨s, es, u, hs, hu, hdb, hwins (by decide)⟩

end Sys
end JobScheduler
