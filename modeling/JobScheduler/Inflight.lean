import JobScheduler.Execution
import JobScheduler.Gating

/-!
# Cancellation of local executions (`run.handle`, `_cancel_listener` of backend/worker/main.py)

`inflight_by_run` keeps one task for each run. A second handler of the same run and worker
replaces the first one there, and nothing puts the first one back: a cancel message then
finds the second handler only. A claim after the cancellation fails unless a promotion that had
read the run earlier takes it back to the queue.
-/

namespace JobScheduler
open Library Database

namespace Runner

/- A call leads to the next one or to the acknowledgement. -/
theorem Advance.working {cfg : Settings} {db db' : Database} {now : Time} {h : Handler}
    {g : Grain} {pc pc' : Pc} {out : Option Send} (hadv : Advance cfg db now h g pc db' pc' out) :
    pc.working = true ∧ (pc' = .acking ∨ pc'.working = true) := by
  cases hadv <;> simp [Pc.working]

theorem returned_working (c : Store.Claimed) (res : ExecResult) :
    (returned c res).working = true := by
  unfold returned
  split <;> rfl

/- Before the claim, or past the end of process_run. -/
theorem Advance.unclaimed {cfg : Settings} {db db' : Database} {now : Time} {h : Handler}
    {g : Grain} {pc pc' : Pc} {out : Option Send} (hadv : Advance cfg db now h g pc db' pc' out)
    (hpc : pc.claimed? = none) (hno : ∀ r, db.runs.get h.runId = some r → r.status = .canceled) :
    pc'.claimed? = none := by
  cases hadv with
  | refused _ => rfl
  | claimed r job hr hg hjob =>
    rw [hno r hr] at hg
    cases hallow : h.allowRunning <;> rw [hallow] at hg <;> cases hg
  | _ => cases hpc

end Runner

namespace Sys

variable {cfg : Settings} {cronNext : Cron.CronNext} {s t : Sys} {l : Label}

/- The body of `_cancel_listener` of worker w for a message that names run r. -/
def hearCancel (cfg : Settings) (cronNext : Cron.CronNext) (s : Sys) (w : WorkerId) (r : RunId) :
    Option Sys :=
  match s.inflightByRun w r with
  | none => some s
  | some i => s.step cfg cronNext (.cancelTask i)

/- A state of a run and what is left of the run.
found: a handler inside process_run is the one that inflight_by_run has for its run.
heard: a cancel message for run r cancels every handler of r in the worker that hears it.
refused: the claim of a handler fails when the cancellation of its run is committed before. -/
structure CancelReaches (cfg : Settings) (cronNext : Cron.CronNext) (s : Sys)
    (rest : List Label) : Prop where
  found : ∀ h ∈ s.handlers.rows, h.pc.working = true →
    s.inflightByRun h.worker h.runId = some h.id
  heard : ∀ w, ∀ r ∈ s.cancels, ∃ t, s.hearCancel cfg cronNext w r = some t ∧
    ∀ h ∈ s.handlers.rows, h.worker = w → h.runId = r → h.pc.working = true →
      setPc .acking h ∈ t.handlers.rows
  refused : ∀ h ∈ s.handlers.rows, h.pc = .waiting ∨ h.pc = .claiming →
    Store.isRunCanceled s.db h.runId = true →
    ∀ ls t, ls <+: rest → Machine.run (step cfg cronNext) s ls = some t →
      ∀ k ∈ t.handlers.rows, k.id = h.id → k.pc.claimed? = none

/- A handler that gets past the semaphore is then the only one of its run in its worker. -/
def StartsAlone (cfg : Settings) (s : Sys) : Label → Prop
  | .acquire i => ∀ h ∈ s.handlers.rows, h.id = i → h.pc = .waiting →
      (s.acquired h.worker : ℤ) < cfg.workerConcurrency →
      ∀ k ∈ s.handlers.rows, k.worker = h.worker → k.runId = h.runId → k.pc.working = false
  | _ => True

/-! ### The map -/

/- inflight_by_run has exactly the handlers that are inside process_run. -/
structure Registered (s : Sys) : Prop where
  found : ∀ h ∈ s.handlers.rows, h.pc.working = true →
    s.inflightByRun h.worker h.runId = some h.id
  works : ∀ w r i, s.inflightByRun w r = some i →
    ∃ h ∈ s.handlers.rows, h.id = i ∧ h.worker = w ∧ h.runId = r ∧ h.pc.working = true

theorem Registered.of_eq (hs : Registered s) (hrows : t.handlers.rows = s.handlers.rows)
    (hmap : t.inflightByRun = s.inflightByRun) : Registered t where
  found := by
    rw [hrows, hmap]
    exact hs.found
  works := by
    rw [hrows, hmap]
    exact hs.works

theorem Registered.spawn (hs : Registered s) (w : WorkerId) (m : ℕ) (r : RunId) (allow : Bool) :
    Registered (s.spawn w m r allow) where
  found := by
    intro h hh hw
    rcases mem_spawn.mp hh with hh | rfl
    · exact hs.found h hh hw
    · cases hw
  works := by
    intro w' r' i hi
    obtain ⟨h, hh, hrest⟩ := hs.works w' r' i hi
    exact ⟨h, mem_spawn.mpr (Or.inl hh), hrest⟩

theorem Registered.goto (hs : Registered s) {h : Handler} (hget : s.handlers.get h.id = some h)
    {pc : Pc} (hpc : pc.working = h.pc.working) : Registered (s.goto h.id pc) where
  found := by
    intro k hk hw
    rcases (mem_goto hget).mp hk with rfl | ⟨hk, -⟩
    · exact hs.found h (Table.mem_of_get hget) (hpc ▸ hw)
    · exact hs.found k hk hw
  works := by
    intro w r i hi
    obtain ⟨k, hk, hid, hkw, hkr, hw⟩ := hs.works w r i hi
    by_cases heq : k.id = h.id
    · have hkh : k = h := s.handlers.eq_of_key_eq hk (Table.mem_of_get hget) heq
      subst hkh
      exact ⟨setPc pc k, (mem_goto hget).mpr (Or.inl rfl), hid, hkw, hkr, hpc.trans hw⟩
    · exact ⟨k, (mem_goto hget).mpr (Or.inr ⟨hk, heq⟩), hid, hkw, hkr, hw⟩

theorem Registered.remove (hs : Registered s) {h : Handler} (hget : s.handlers.get h.id = some h)
    (hpc : h.pc.working = false) : Registered (s.remove h.id) where
  found := by
    intro k hk hw
    exact hs.found k (mem_remove.mp hk).1 hw
  works := by
    intro w r i hi
    obtain ⟨k, hk, hid, hkw, hkr, hw⟩ := hs.works w r i hi
    refine ⟨k, mem_remove.mpr ⟨hk, ?_⟩, hid, hkw, hkr, hw⟩
    intro heq
    have hkh : k = h := s.handlers.eq_of_key_eq hk (Table.mem_of_get hget) heq
    rw [hkh, hpc] at hw
    cases hw

theorem inflightByRun_register (s : Sys) (w : WorkerId) (r : RunId) (v : Option ℕ) (i : ℕ)
    (pc : Pc) (w' : WorkerId) (r' : RunId) :
    ((s.register w r v).goto i pc).inflightByRun w' r' =
      if w' = w ∧ r' = r then v else s.inflightByRun w' r' := rfl

/- A handler goes in or out with the entry of its run, which is no one else's. -/
theorem Registered.register (hs : Registered s) {h : Handler}
    (hget : s.handlers.get h.id = some h) (pc : Pc)
    (hlone : ∀ k ∈ s.handlers.rows, k.worker = h.worker → k.runId = h.runId →
      k.pc.working = true → k = h) :
    Registered ((s.register h.worker h.runId (if pc.working then some h.id else none)).goto
      h.id pc) where
  found := by
    intro k hk hw
    rw [inflightByRun_register]
    rcases (mem_goto hget).mp hk with rfl | ⟨hk, hne⟩
    · have hpc : pc.working = true := hw
      rw [if_pos ⟨rfl, rfl⟩, if_pos hpc]
      rfl
    · have hother : ¬ (k.worker = h.worker ∧ k.runId = h.runId) := by
        intro hsame
        exact hne (congrArg Handler.id (hlone k hk hsame.1 hsame.2 hw))
      rw [if_neg hother]
      exact hs.found k hk hw
  works := by
    intro w r i hi
    rw [inflightByRun_register] at hi
    by_cases hsame : w = h.worker ∧ r = h.runId
    · rw [if_pos hsame] at hi
      cases hpc : pc.working with
      | true =>
        rw [hpc] at hi
        exact ⟨setPc pc h, (mem_goto hget).mpr (Or.inl rfl), Option.some.inj hi, hsame.1.symm,
          hsame.2.symm, hpc⟩
      | false =>
        rw [hpc] at hi
        cases hi
    · rw [if_neg hsame] at hi
      obtain ⟨k, hk, hid, hkw, hkr, hw⟩ := hs.works w r i hi
      refine ⟨k, (mem_goto hget).mpr (Or.inr ⟨hk, ?_⟩), hid, hkw, hkr, hw⟩
      intro heq
      have hkh : k = h := s.handlers.eq_of_key_eq hk (Table.mem_of_get hget) heq
      exact hsame ⟨by rw [← hkw, hkh], by rw [← hkr, hkh]⟩

/- The identity check of the finally block succeeds: only this handler has the entry. -/
theorem Registered.leave (hs : Registered s) {h : Handler} (hget : s.handlers.get h.id = some h)
    (hpc : h.pc.working = true) : Registered (s.leave h) := by
  have hmem := Table.mem_of_get hget
  have hown := hs.found h hmem hpc
  unfold Sys.leave
  rw [if_pos hown]
  apply hs.register hget .acking
  intro k hk hkw hkr hw
  have hkown := hs.found k hk hw
  rw [hkw, hkr, hown] at hkown
  exact s.handlers.eq_of_key_eq hk hmem (Option.some.inj hkown).symm

theorem Registered.acquire (hs : Registered s) {h : Handler} (hget : s.handlers.get h.id = some h)
    (hlone : ∀ k ∈ s.handlers.rows, k.worker = h.worker → k.runId = h.runId →
      k.pc.working = false) :
    Registered ((s.register h.worker h.runId (some h.id)).goto h.id .claiming) := by
  apply hs.register hget .claiming
  intro k hk hkw hkr hw
  rw [hlone k hk hkw hkr] at hw
  cases hw

theorem Registered.crash (hs : Registered s) (w : WorkerId) :
    Registered { s with
      handlers := s.handlers.deleteWhere fun h => decide (h.worker = w)
      inflightByRun := fun w' r => if w' = w then none else s.inflightByRun w' r
      phase := fun w' => if w' = w then .polling else s.phase w' } where
  found := by
    intro k hk hw
    obtain ⟨hk, hne⟩ := Table.mem_rows_deleteWhere.mp hk
    show (if k.worker = w then none else s.inflightByRun k.worker k.runId) = some k.id
    rw [if_neg (of_decide_eq_false hne)]
    exact hs.found k hk hw
  works := by
    intro w' r i hi
    change (if w' = w then none else s.inflightByRun w' r) = some i at hi
    by_cases hww : w' = w
    · rw [if_pos hww] at hi
      cases hi
    · rw [if_neg hww] at hi
      obtain ⟨k, hk, hid, hkw, hkr, hw⟩ := hs.works w' r i hi
      refine ⟨k, Table.mem_rows_deleteWhere.mpr ⟨hk, ?_⟩, hid, hkw, hkr, hw⟩
      simp [hkw, hww]

theorem inflightByRun_send (s : Sys) (out : Option Send) :
    (s.send out).inflightByRun = s.inflightByRun := by
  rcases out with _ | _ | _ <;> rfl

/- Handlers that start alone keep the map exact. -/
theorem Trans.registered (h : Trans cfg cronNext s l t) (hs : Registered s)
    (hlone : ∀ d ∈ s.handlers.rows, l = .acquire d.id → ∀ k ∈ s.handlers.rows,
      k.worker = d.worker → k.runId = d.runId → k.pc.working = false) : Registered t := by
  cases h with
  | reclaim w m e p hstale =>
    have hq : Registered { s with redis := s.redis.xautoclaim w m } := hs.of_eq rfl rfl
    exact (hq.spawn w m e.runId true).of_eq rfl rfl
  | deliver w m p hnext =>
    have hq : Registered { s with redis := s.redis.xreadgroup w m } := hs.of_eq rfl rfl
    exact (hq.spawn w m.id m.runId false).of_eq rfl rfl
  | acquire d hget hpc => exact hs.acquire hget (hlone d (Table.mem_of_get hget) rfl)
  | advance d now db' pc out hget hadv =>
    obtain ⟨hw, hpc⟩ := hadv.working
    have hq : Registered ({ s with db := db' }.send out) :=
      hs.of_eq (by simp) (inflightByRun_send _ out)
    have hget' : ({ s with db := db' }.send out).handlers.get d.id = some d := by simp [hget]
    rcases hpc with rfl | hpc
    · exact hq.leave hget' hw
    · have hgoto := hq.goto hget' (hpc.trans hw.symm)
      have hres : ({ s with db := db' }.send out).resume d pc =
          ({ s with db := db' }.send out).goto d.id pc := by
        cases pc <;> first | rfl | cases hpc
      rw [hres]
      exact hgoto
  | executorReturns d c res hget hpc =>
    exact hs.goto hget (by rw [hpc, Runner.returned_working]; rfl)
  | fail d hget hw => exact hs.leave hget hw
  | cancelTask d hget hw hcan =>
    have hq : Registered { s with detached := s.detached ++ [d] } := hs.of_eq rfl rfl
    exact hq.leave hget hw
  | ack d hget hpc =>
    have hq : Registered { s with redis := s.redis.xack d.messageId } := hs.of_eq rfl rfl
    exact hq.goto hget (by rw [hpc]; rfl)
  | ackError d hget hpc | delError d hget hpc => exact hs.remove hget (by rw [hpc]; rfl)
  | del d hget hpc =>
    have hq : Registered { s with redis := s.redis.xdel d.messageId } := hs.of_eq rfl rfl
    exact hq.remove hget (by rw [hpc]; rfl)
  | crash w => exact hs.crash w
  | _ => exact hs.of_eq rfl rfl

theorem registered_start (db : Database) : Registered (start db) :=
  ⟨fun _ hh => absurd hh List.not_mem_nil, fun _ _ _ hi => by cases hi⟩

/- What the listener does in a worker whose map is exact. -/
theorem Registered.heard (hs : Registered s) (w : WorkerId) {r : RunId} (hr : r ∈ s.cancels) :
    ∃ t, s.hearCancel cfg cronNext w r = some t ∧
      ∀ h ∈ s.handlers.rows, h.worker = w → h.runId = r → h.pc.working = true →
        setPc .acking h ∈ t.handlers.rows := by
  unfold hearCancel
  cases hmap : s.inflightByRun w r with
  | none =>
    refine ⟨s, rfl, ?_⟩
    intro h hh hw hrun hwork
    have hfound := hs.found h hh hwork
    rw [hw, hrun, hmap] at hfound
    cases hfound
  | some i =>
    obtain ⟨d, hd, rfl, rfl, rfl, hwork⟩ := hs.works w r i hmap
    have hget : s.handlers.get d.id = some d := Table.get_of_mem hd
    refine ⟨{ s with detached := s.detached ++ [d] }.leave d, ?_, ?_⟩
    · show ((s.handlers.get d.id).bind fun h => s.handlerStep cfg h (.cancelTask d.id)) = _
      rw [hget, Option.bind_some, handlerStep, if_pos ⟨hwork, hr, hmap⟩]
    · intro h hh hw hrun hh'
      have hfound := hs.found h hh hh'
      rw [hw, hrun, hmap] at hfound
      have hhd : h = d := s.handlers.eq_of_key_eq hh hd (Option.some.inj hfound).symm
      subst hhd
      rw [handlers_leave]
      exact (mem_goto (s := { s with detached := s.detached ++ [h] }) hget).mpr (Or.inl rfl)

/-! ### A cancellation before the claim -/

theorem Trans.handlers_next (h : Trans cfg cronNext s l t) :
    s.handlers.next ≤ t.handlers.next := by
  cases h with
  | reclaim w m e p hstale | deliver w m p hnext => exact Nat.le_succ _
  | advance d now db' pc out hget hadv => exact (handlers_advance s pc d out db').symm ▸ le_rfl
  | fail d hget hw | cancelTask d hget hw hcan =>
    rw [handlers_leave]
    exact le_rfl
  | _ => exact le_rfl

/- A handler after the step has the next id, or it was there before and keeps its run. -/
theorem Trans.handler_runId (h : Trans cfg cronNext s l t) {k : Handler}
    (hk : k ∈ t.handlers.rows) :
    k.id = s.handlers.next ∨ ∃ d ∈ s.handlers.rows, d.id = k.id ∧ d.runId = k.runId := by
  have hgoto : ∀ {d : Handler} {pc : Pc}, s.handlers.get d.id = some d →
      k ∈ (s.goto d.id pc).handlers.rows →
      k.id = s.handlers.next ∨ ∃ d ∈ s.handlers.rows, d.id = k.id ∧ d.runId = k.runId := by
    intro d pc hget hk
    rcases (mem_goto hget).mp hk with rfl | ⟨hk, -⟩
    · exact Or.inr ⟨d, Table.mem_of_get hget, rfl, rfl⟩
    · exact Or.inr ⟨k, hk, rfl, rfl⟩
  cases h with
  | reclaim w m e p hstale | deliver w m p hnext =>
    rcases mem_spawn.mp hk with hk | rfl
    · exact Or.inr ⟨k, hk, rfl, rfl⟩
    · exact Or.inl rfl
  | acquire d hget hpc | executorReturns d c res hget hpc | ack d hget hpc => exact hgoto hget hk
  | advance d now db' pc out hget hadv =>
    rw [handlers_advance] at hk
    exact hgoto hget hk
  | fail d hget hw | cancelTask d hget hw hcan =>
    rw [handlers_leave] at hk
    exact hgoto hget hk
  | ackError d hget hpc | delError d hget hpc | del d hget hpc =>
    exact Or.inr ⟨k, (mem_remove.mp hk).1, rfl, rfl⟩
  | crash w => exact Or.inr ⟨k, (Table.mem_rows_deleteWhere.mp hk).1, rfl, rfl⟩
  | _ => exact Or.inr ⟨k, hk, rfl, rfl⟩

/- Run i is canceled or deleted and handler d of it has not claimed it. -/
structure Refused (i : RunId) (d : ℕ) (s : Sys) : Prop where
  run : i < s.db.runs.next
  canceled : ∀ r, s.db.runs.get i = some r → r.status = .canceled
  handler : d < s.handlers.next
  unclaimed : ∀ k ∈ s.handlers.rows, k.id = d → k.runId = i ∧ k.pc.claimed? = none

/- No flush of create_dependency_run meets a canceled run. -/
def LeavesCanceled (s : Sys) (l : Label) : Prop := FlushFinds (fun st => st != .canceled) s l

instance (s : Sys) (l : Label) : Decidable (LeavesCanceled s l) :=
  inferInstanceAs (Decidable (FlushFinds _ s l))

theorem Trans.refused (h : Trans cfg cronNext s l t) (hflush : LeavesCanceled s l) {i : RunId}
    {d : ℕ} (hs : Refused i d s) : Refused i d t where
  run := lt_of_lt_of_le hs.run h.evolves.next
  canceled := by
    intro r' hr'
    obtain ⟨r, hr, hrow⟩ := h.evolves.back hr' hs.run
    have hid : r.id = i := Table.key_of_get hr
    rw [hrow.canceled hflush rfl (hid ▸ hr) (hs.canceled r hr)]
    exact hs.canceled r hr
  handler := lt_of_lt_of_le hs.handler h.handlers_next
  unclaimed := by
    intro k hk hid
    have hrun : k.runId = i := by
      rcases h.handler_runId hk with hnew | ⟨e, he, hek, hrun⟩
      · have hlt := hs.handler
        omega
      · rw [← hrun]
        exact (hs.unclaimed e he (hek.trans hid)).1
    refine ⟨hrun, ?_⟩
    rcases h.handler hk with ⟨hk, -⟩ | ⟨hpc, -⟩ | ⟨e, he, pc, rfl, hm⟩
    · exact (hs.unclaimed k hk hid).2
    · rw [hpc]
      rfl
    · obtain ⟨hrun, hpc⟩ := hs.unclaimed e he hid
      show pc.claimed? = none
      generalize t.db = db' at hm
      cases hm with
      | acquire _ | fail _ | cancelTask _ _ | ack _ => rfl
      | advance now db' pc out hadv =>
        apply hadv.unclaimed hpc
        rw [hrun]
        exact hs.canceled
      | executorReturns c res hex =>
        rw [hex] at hpc
        cases hpc

theorem refused_of_canceled {h : Handler} (hh : h ∈ s.handlers.rows)
    (hpc : h.pc = .waiting ∨ h.pc = .claiming) (hcan : Store.isRunCanceled s.db h.runId = true)
    {ls : List Label} (hflush : Machine.Along (step cfg cronNext) LeavesCanceled s ls)
    (hr : Machine.run (step cfg cronNext) s ls = some t) : Refused h.runId h.id t := by
  obtain ⟨r, hget, hst⟩ := Store.isRunCanceled_iff.mp hcan
  have hs : Refused h.runId h.id s := by
    refine ⟨Table.lt_next_of_get hget, ?_, Table.lt_next_of_get (Table.get_of_mem hh), ?_⟩
    · intro q hq
      rw [Option.some.inj (hq.symm.trans hget)]
      exact hst
    · intro k hk hid
      have hkh : k = h := s.handlers.eq_of_key_eq hk hh hid
      subst hkh
      refine ⟨rfl, ?_⟩
      rcases hpc with hpc | hpc <;> rw [hpc] <;> rfl
  exact Machine.run_invariant (fun _ _ _ hi hc hstep => (trans_of_step hstep).refused hc hi) hs
    hflush hr

/-! ### Two handlers of one run -/

theorem Registered.reaches (hs : Registered s) {rest : List Label}
    (hflush : Machine.Along (step cfg cronNext) LeavesCanceled s rest) :
    CancelReaches cfg cronNext s rest where
  found := hs.found
  heard := fun w _ hr => hs.heard w hr
  refused := by
    rintro h hh hpc hcan ls t ⟨later, rfl⟩ hr k hk hid
    have hls := (Machine.along_append.mp hflush).1
    exact ((refused_of_canceled hh hpc hcan hls hr).unclaimed k hk hid).2

theorem StartsAlone.registered (hs : Registered s) (hc : StartsAlone cfg s l)
    (hstep : step cfg cronNext s l = some t) : Registered t := by
  refine (trans_of_step hstep).registered hs ?_
  intro d hd hl
  subst hl
  rw [step_acquire (Table.get_of_mem hd)] at hstep
  split at hstep
  · rename_i hguard
    rw [Bool.and_eq_true, decide_eq_true_eq] at hguard
    apply hc d hd rfl _ hguard.2
    cases hpc : d.pc <;> simp [hpc, isWaiting] at hguard ⊢
  · cases hstep

/- The later of two handlers of one run hides the earlier one. -/
theorem startsAlone_of_found
    (hnext : ∀ t, step cfg cronNext s l = some t → ∀ h ∈ t.handlers.rows, h.pc.working = true →
      t.inflightByRun h.worker h.runId = some h.id) :
    StartsAlone cfg s l := by
  cases l with
  | acquire i =>
    intro h hh hid hpc hsem k hk hkw hkr
    subst hid
    cases hwork : k.pc.working with
    | false => rfl
    | true =>
      have hget : s.handlers.get h.id = some h := Table.get_of_mem hh
      have hstep : step cfg cronNext s (.acquire h.id) = _ := step_acquire hget
      rw [if_pos (by simp [hpc, isWaiting, hsem])] at hstep
      have hne : k.id ≠ h.id := by
        intro heq
        rw [s.handlers.eq_of_key_eq hk hh heq, hpc] at hwork
        cases hwork
      have hfound := hnext _ hstep k ((mem_goto hget).mpr (Or.inr ⟨hk, hne⟩)) hwork
      rw [inflightByRun_register, if_pos ⟨hkw, hkr⟩] at hfound
      exact absurd (Option.some.inj hfound).symm hne
  | _ => trivial

/- In a run whose flushes meet no canceled run, a cancel reaches the local executions in every
state exactly when no handler gets past the semaphore while another one of the same run and worker
is inside process_run. -/
theorem cancelReaches_iff_startsAlone (cfg : Settings) (cronNext : Cron.CronNext) (db : Database)
    (ls : List Label)
    (hflush : Machine.Along (step cfg cronNext) LeavesCanceled (start db) ls) :
    (∀ before rest s, ls = before ++ rest →
      Machine.run (step cfg cronNext) (start db) before = some s →
      CancelReaches cfg cronNext s rest) ↔
      Machine.Along (step cfg cronNext) (StartsAlone cfg) (start db) ls := by
  constructor
  · intro hreach
    rw [Machine.along_iff]
    intro before l rest s hls hs
    have hnext : ∀ t, step cfg cronNext s l = some t → CancelReaches cfg cronNext t rest := by
      intro t ht
      refine hreach (before ++ [l]) rest t ?_ ?_
      · rw [hls, List.append_assoc, List.singleton_append]
      · exact Machine.run_append.mpr ⟨s, hs, Machine.run_cons.mpr ⟨t, ht, rfl⟩⟩
    exact startsAlone_of_found fun t ht => (hnext t ht).found
  · rintro halone before rest s rfl hs
    obtain ⟨-, hrest⟩ := Machine.along_append.mp hflush
    have hregistered : Registered s :=
      Machine.run_invariant (fun _ _ _ hs hc hstep => hc.registered hs hstep)
        (registered_start db) (Machine.along_append.mp halone).1 hs
    exact hregistered.reaches (hrest s hs)

instance (pc : Pc) : Decidable (pc = .waiting) :=
  decidable_of_iff (isWaiting pc = true) (by cases pc <;> simp [isWaiting])

instance (cfg : Settings) (s : Sys) : ∀ l, Decidable (StartsAlone cfg s l)
  | .acquire i => inferInstanceAs (Decidable (∀ h ∈ s.handlers.rows, h.id = i → h.pc = .waiting →
      (s.acquired h.worker : ℤ) < cfg.workerConcurrency →
      ∀ k ∈ s.handlers.rows, k.worker = h.worker → k.runId = h.runId → k.pc.working = false))
  | .elapse _ | .trigger .. | .retryRun .. | .cancelRun .. | .editJobs .. | .deleteJob ..
  | .promoteDelayed _ | .tick _ | .publish _ | .drop _ | .poll _ | .reclaim .. | .reclaimed _
  | .deliver _ | .delivered _ | .advance .. | .executorReturns .. | .fail _ | .cancelTask _
  | .commitThread .. | .ack _ | .ackError _ | .del _ | .delError _ | .crash _ => isTrue trivial

/- Run 1 of `load` is promoted and delivered, and canceled before handler 1 claims it. -/
def canceledBeforeClaim : List Label :=
  [.trigger 1 1 0, .publish 0] ++ taken 0 1 ++ finishesAndPromotes 0 2 ++
    [.poll 1, .reclaimed 1, .deliver 1, .delivered 1, .cancelRun 1 1 10, .acquire 1, .advance 1 11,
      .ack 1, .del 1]

theorem cancel_reaches_canceledBeforeClaim :
    (Machine.run (step {} Cron.noCron) (start pipeline) canceledBeforeClaim).isSome = true ∧
      ∀ before rest s, canceledBeforeClaim = before ++ rest →
        Machine.run (step {} Cron.noCron) (start pipeline) before = some s →
        CancelReaches {} Cron.noCron s rest :=
  ⟨by decide, (cancelReaches_iff_startsAlone {} Cron.noCron pipeline canceledBeforeClaim
    (by decide)).mpr (by decide)⟩

/- The message is delivered to worker 1 again while its executor is still running. -/
def reclaimedByFirst : List Label :=
  [.elapse 30000000, .poll 1, .reclaim 1 0, .acquire 1, .advance 1 31]

/- Both handlers execute the run in worker 1; the cancel message stops the second one. -/
theorem cancel_misses_first :
    ∃ s, Machine.run (step {} Cron.noCron) (start reportJob)
        (claimedByFirst ++ reclaimedByFirst ++ [.cancelRun 1 0 32]) = some s ∧
      ¬ CancelReaches {} Cron.noCron s [] ∧
      ∃ t, s.hearCancel {} Cron.noCron 1 0 = some t ∧
        ∃ h ∈ t.handlers.rows, h.worker = 1 ∧ h.runId = 0 ∧ h.pc.executes = true := by
  have hall : (Machine.run (step {} Cron.noCron) (start reportJob)
      (claimedByFirst ++ reclaimedByFirst ++ [.cancelRun 1 0 32])).any (fun s =>
        (s.handlers.rows.any fun h => h.pc.working &&
          decide (s.inflightByRun h.worker h.runId ≠ some h.id)) &&
        (s.hearCancel {} Cron.noCron 1 0).any fun t => t.handlers.rows.any fun h =>
          decide (h.worker = 1) && decide (h.runId = 0) && h.pc.executes) = true := by
    decide
  obtain ⟨s, hs, hall⟩ := (Option.any_eq_true _ _).mp hall
  obtain ⟨hlost, hheard⟩ := (Bool.and_eq_true _ _).mp hall
  obtain ⟨t, ht, hleft⟩ := (Option.any_eq_true _ _).mp hheard
  simp only [List.any_eq_true, Bool.and_eq_true, decide_eq_true_eq, and_assoc] at hlost hleft
  obtain ⟨h, hh, hwork, hno⟩ := hlost
  exact ⟨s, hs, fun hreach => hno (hreach.found h hh hwork), t, ht, hleft⟩

end Sys
end JobScheduler
