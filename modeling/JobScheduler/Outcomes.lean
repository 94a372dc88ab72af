import JobScheduler.Rows
import JobScheduler.Worker.Executors

/-!
# The outcomes in the tables

A row that a worker has finished reports an execution of that run: what the executor of the
claimed job ended with is what the row says, and for a retried failure the note on its retry
comes after it.
-/

namespace JobScheduler
open Library Database

/-! ### What a handler carries -/

namespace Runner
open Store

/- The error that _on_failure records for a result of the executor. -/
def Says (cfg : Settings) (c : Claimed) (res : ExecResult) (error : Option String) : Prop :=
  if willRetry c res then ∃ i, error = some (retryError cfg c res i) else error = res.error

theorem willRetry_of_succeeded {c : Claimed} {res : ExecResult} (h : res.status = .succeeded) :
    willRetry c res = false := by
  rw [willRetry, h]
  rfl

end Runner

namespace Executors
open Store
variable (py : HttpAsync.Python) (floatError : Json → Option String)

/- The executor of the claimed job has ended with this result. -/
def Returned (c : Claimed) (res : ExecResult) : Prop :=
  ∃ o, Ends py floatError c o ∧ o.result = res

theorem Returned.tells {c : Claimed} {res : ExecResult} (h : Returned py floatError c res) :
    res.Tells := by
  obtain ⟨o, ho, rfl⟩ := h
  exact ho.tells

end Executors

section
variable (py : HttpAsync.Python) (floatError : Json → Option String) (cfg : Settings)

/- The results a handler works with are those of its executor. -/
def Pc.Honest : Pc → Prop
  | .successCheck c res | .successFinish c res =>
    Executors.Returned py floatError c res ∧ res.status = .succeeded
  | .failureCheck c res => Executors.Returned py floatError c res
  | .failureRetry c res | .failureDelay c res _ =>
    Executors.Returned py floatError c res ∧ Runner.willRetry c res = true
  | .failureFinish c res error =>
    Executors.Returned py floatError c res ∧ Runner.Says cfg c res error
  | _ => True

variable {py floatError cfg}

namespace Runner
open Store

theorem honest_returned {c : Claimed} {res : ExecResult}
    (h : Executors.Returned py floatError c res) : (returned c res).Honest py floatError cfg := by
  unfold returned
  split
  · rename_i hsucc
    exact ⟨h, of_decide_eq_true hsucc⟩
  · exact h

theorem honest_statement {db db' : Database} {h : Handler} {now : Time} {pc : Pc}
    {out : Option Send} (hh : h.pc.Honest py floatError cfg)
    (hn : statement cfg db h now = some (db', pc, out)) : pc.Honest py floatError cfg := by
  have hadv := advance_of_statement hn
  dsimp only at hadv
  generalize hpc : h.pc = pc0 at hadv hh
  cases hadv with
  | successChecked c res hcan => exact hh
  | retries c res hcan =>
    simp only [statement, hpc] at hn
    exact ⟨hh, willRetry_of_retries hpc hcan hn⟩
  | givesUp c res hcan =>
    simp only [statement, hpc] at hn
    have hno := willRetry_of_givesUp hpc hcan hn
    refine ⟨hh, ?_⟩
    rw [Says, if_neg (by rw [hno]; decide)]
  | retryCreated c res db' i hcreate => exact hh
  | delayed c res i =>
    refine ⟨hh.1, ?_⟩
    rw [Says, if_pos hh.2]
    exact ⟨i, rfl⟩
  | _ => trivial

/- The transaction that ends a run records what the executor has returned. -/
theorem honest_finishRun {h : Handler} {now : Time} {i : RunId} {res : ExecResult}
    {error : Option String} {n : Time} (hh : h.pc.Honest py floatError cfg)
    (htx : tx h now = some (.finishRun i res error n)) :
    ∃ c, h.pc.claimed? = some c ∧ c.runId = i ∧ Executors.Returned py floatError c res ∧
      Says cfg c res error := by
  unfold tx at htx
  generalize h.pc = pc0 at htx hh
  cases pc0 with
  | successFinish c res' =>
    obtain ⟨hret, hsucc⟩ := hh
    cases htx
    have hsame : ({ res' with status := .succeeded } : ExecResult) = res' := by rw [← hsucc]
    rw [hsame]
    refine ⟨c, rfl, rfl, hret, ?_⟩
    rw [Says, if_neg (by rw [willRetry_of_succeeded hsucc]; decide)]
    exact ((hret.tells.succeeded hsucc).2.2).symm
  | failureFinish c res' error' =>
    cases htx
    exact ⟨c, rfl, rfl, hh.1, hh.2⟩
  | successCreate c x js =>
    rcases Promotion.tx_cases htx with ⟨p, heq⟩ | ⟨j, heq⟩ <;> cases heq
  | _ => cases htx

end Runner
end

/-! ### What a row reports -/

namespace JobRun
open Store
variable (py : HttpAsync.Python) (floatError : Json → Option String) (cfg : Settings)

/- The execution of this claim has ended with what the row says. -/
structure Recorded (r : JobRun) (c : Claimed) (res : ExecResult) : Prop where
  returned : Executors.Returned py floatError c res
  runId : c.runId = r.id
  jobId : c.jobId = r.jobId
  attempt : c.attempt = r.attempt
  status : r.status = res.status.runStatus
  exitCode : r.exitCode = res.exitCode
  result : r.result = res.result
  error : Runner.Says cfg c res r.error

/- The run is over and was not canceled. -/
def Finished (r : JobRun) : Prop := r.status.terminal = true ∧ r.status ≠ .canceled

structure Reports (r : JobRun) : Prop where
  recorded : r.Finished → ∃ c res, r.Recorded py floatError cfg c res
  success : r.status = .succeeded →
    r.exitCode = some 0 ∧ (∃ fields, r.result = some (.object fields)) ∧ r.error = none
  failure : r.status = .failed ∨ r.status = .timedOut → ∃ error, r.error = some error ∧ error ≠ ""

variable {py floatError cfg} {r : JobRun} {c : Claimed} {res : ExecResult}

theorem Recorded.succeeded (h : r.Recorded py floatError cfg c res) (hs : r.status = .succeeded) :
    res.status = .succeeded := by
  have hstatus := h.status
  rw [hs] at hstatus
  cases hres : res.status <;> rw [hres] at hstatus <;> first | rfl | cases hstatus

end JobRun

namespace Sys

variable {py : HttpAsync.Python} {floatError : Json → Option String} {cfg : Settings}
  {cronNext : Cron.CronNext} {s t : Sys} {l : Label}

/- The handler that has made its call continues where the call leaves it. -/
theorem statement_of_works {d k : Handler} {now : Time} {pc : Pc} (hd : d ∈ s.handlers.rows)
    (h : s.step cfg cronNext (.advance d.id now) = some t) (hk : k ∈ t.handlers.rows)
    (heq : k = setPc pc d) :
    ∃ db' out, Runner.statement cfg s.db d now = some (db', pc, out) := by
  obtain ⟨d', db', pc', out, hget, hid, hn, rfl⟩ := statement_of_step h
  have hdd : d' = d := by
    have hget' : s.handlers.get d.id = some d := Table.get_of_mem hd
    rw [hid, hget'] at hget
    exact (Option.some.inj hget).symm
  subst hdd
  rw [handlers_advance] at hk
  rcases (mem_goto hget).mp hk with hk | ⟨-, hne⟩
  · have hpc : pc = pc' := by
      have hcongr := congrArg Handler.pc (heq.symm.trans hk)
      exact hcongr
    subst hpc
    exact ⟨db', out, hn⟩
  · rw [heq] at hne
    exact absurd rfl hne

variable (py floatError) in
/- An executor returns what running the claimed job ends with. -/
def ExecutorsEnd (s : Sys) : Label → Prop
  | .executorReturns i res => ∀ h c, s.handlers.get i = some h → h.pc = .executing c →
      Executors.Returned py floatError c res
  | _ => True

variable (py floatError cfg) in
structure Truthful (s : Sys) : Prop where
  recorded : Recorded s
  honest : ∀ h, Works s h → h.pc.Honest py floatError cfg
  row : ∀ i r, s.db.runs.get i = some r → r.Finished →
    ∃ c res, r.Recorded py floatError cfg c res

theorem Truthful.honest_step (hs : Truthful py floatError cfg s)
    (hexec : ExecutorsEnd py floatError s l) (h : s.step cfg cronNext l = some t) {k : Handler}
    (hk : Works t k) : k.pc.Honest py floatError cfg := by
  have htrans := trans_of_step h
  rcases hk with hk | hk
  · rcases htrans.handler hk with ⟨hk', -⟩ | ⟨hpc, -⟩ | ⟨d, hd, pc, heq, hm⟩
    · exact hs.honest k (Or.inl hk')
    · rw [hpc]
      trivial
    · have hpc : k.pc = pc := by rw [heq]; rfl
      rw [hpc]
      generalize t.db = db' at hm
      cases hm with
      | acquire _ | fail _ | cancelTask _ _ | ack _ => trivial
      | executorReturns c res hexecuting =>
        exact Runner.honest_returned (hexec d c (Table.get_of_mem hd) hexecuting)
      | advance now _ _ out hadv =>
        obtain ⟨db'', out', hn⟩ := statement_of_works hd h hk heq
        exact Runner.honest_statement (hs.honest d (Or.inl hd)) hn
  · rcases htrans.detached hk with hk' | ⟨hk', -⟩ | ⟨-, d, -, now, c, x, js, rfl, -⟩
    · exact hs.honest k (Or.inr hk')
    · exact hs.honest k (Or.inl hk')
    · trivial

/- A row that the step has finished records the result of the handler's executor. -/
theorem Truthful.recorded_step (hs : Truthful py floatError cfg s) {i : RunId} {r r' : JobRun}
    (hr : s.db.runs.get i = some r) (hrow : RowChange s l r r') (hfin : r'.Finished) :
    ∃ c res, r'.Recorded py floatError cfg c res := by
  rcases hrow with rfl | ⟨tx, htx, hstep⟩
  · exact hs.row i r' hr hfin
  · cases hstep with
    | same => exact hs.row i r hr hfin
    | claimed _ w allow now hg => cases hfin.1
    | canceled _ now ha => exact absurd rfl hfin.2
    | promoted _ now hp => cases hfin.1
    | flushed => cases hfin.1
    | finished _ res error now hne =>
      obtain ⟨h, hw, n, hh⟩ := tx_of_works htx rfl
      obtain ⟨c, hc, hrun, hret, hnote⟩ := Runner.honest_finishRun (hs.honest h hw) hh
      obtain ⟨hid, hjob⟩ := hs.recorded.wellFormed.record h hw c hc
      have hget : s.db.runs.get h.runId = some r := by
        have hri : r.id = i := Table.key_of_get hr
        rw [← hid, hrun, hri]
        exact hr
      refine ⟨c, res, hret, hrun, (hjob r hget).symm, ?_, rfl, rfl, rfl, hnote⟩
      exact ((hs.recorded.claimed h hw c hc).2 r hget).2.symm

theorem Truthful.step (hs : Truthful py floatError cfg s) (hexec : ExecutorsEnd py floatError s l)
    (h : s.step cfg cronNext l = some t) : Truthful py floatError cfg t where
  recorded := hs.recorded.step (trans_of_step h)
  honest := fun k hk => hs.honest_step hexec h hk
  row := by
    intro i r' hr' hfin
    have htrans := trans_of_step h
    cases hr : s.db.runs.get i with
    | none =>
      obtain ⟨now, -, n, hn, hrow⟩ := hs.recorded.inserted htrans hr' hr
      have hstatus : r'.status = n.status := by rw [hrow]; rfl
      rcases hn.status with hst | hst <;> rw [JobRun.Finished, hstatus, hst] at hfin <;>
        cases hfin.1
    | some r => exact hs.recorded_step hr (htrans.evolves.change hr hr') hfin

end Sys
end JobScheduler
