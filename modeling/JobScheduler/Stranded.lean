import JobScheduler.Rounds

/-!
# Pending runs that nobody looks at again

A pending run is promoted by a handler that completes a dependency, and only by it. The
handler passes the job over when it has another run that is queued or running, and no one
comes back to it when that run is over. `noticed` says of a step that no handler passes a
pending run over, or gives up before it has looked at it.
-/

namespace JobScheduler
open Library Database Store

namespace Pc

/- `Offers`, decided. -/
def offers (db : Database) (job : JobId) : Pc → Bool
  | .successReady c => (db.dependencyIds job).contains c.jobId
  | pc => pc.todo.contains job

theorem offers_iff {db : Database} {job : JobId} {pc : Pc} :
    pc.offers db job = true ↔ pc.Offers db job := by
  unfold Offers
  cases pc <;> simp [offers, todo, mem_dependencyIds]

end Pc

namespace Sys

variable {cfg : Settings} {cronNext : Cron.CronNext} {s t : Sys} {l : Label} {job : JobId}
  {p : RunId}

/-! ### Conditions on the steps -/

/- The job is ready but for another run of it. -/
def blocked (s : Sys) (job : JobId) : Bool :=
  s.db.hasDispatchedRun job && (s.db.pendingRun job).isSome && s.db.allDependenciesSucceeded job

/- What a handler that comes to the job next must find: the job is not blocked, and a promotion
of it that is about to write has read its pending run. A promotion of another job does not raise
while the job is still to come. -/
def noticedBy (job : JobId) (s : Sys) : Pc → Bool
  | .successReady c => !((s.db.dependencyIds job).contains c.jobId && s.blocked job)
  | .successFan _ (j :: _) => !(decide (j = job) && s.blocked job)
  | .successCreate _ (.read j q) js =>
    (decide (j ≠ job) || (s.db.pendingRun job).all fun r => decide (r.id = q)) &&
      (!js.contains job || (s.db.runs.get q).isSome)
  | .successCreate _ (.absent j) js =>
    (decide (j ≠ job) || (s.db.pendingRun job).isNone) &&
      (!js.contains job || (s.db.jobs.get j).isSome)
  | _ => true

/- The thread of a canceled handler finds its run canceled when it records the outcome. -/
def finishesCanceled (s : Sys) (l : Label) : Bool :=
  match l.tx s with
  | some (.finishRun i ..) => (s.db.runs.get i).all fun r => decide (r.status = .canceled)
  | _ => true

def noticed (job : JobId) (s : Sys) (l : Label) : Bool :=
  (l.tx s).all (RunTx.keepsSuccess s.db) &&
    match l with
    | .crash _ => false
    | .fail i | .cancelTask i => !(s.pcOf i).any (Pc.offers s.db job)
    | .advance i _ => (s.pcOf i).all (s.noticedBy job)
    | .commitThread .. => s.finishesCanceled l
    | _ => true

theorem keepsSuccess_of_noticed (hn : noticed job s l = true) : KeepsSuccess s l := by
  intro tx htx
  have hall := ((Bool.and_eq_true _ _).mp hn).1
  rw [htx, Option.all_some] at hall
  exact hall

/-! ### Handlers that will still look at the job -/

/- The handler has recorded the success of a run of a dependency and offers the job. -/
structure Offering (job : JobId) (s : Sys) (h : Handler) (c : Claimed) : Prop where
  mem : h ∈ s.handlers.rows
  fan : h.pc.fansOut? = some c
  offers : h.pc.Offers s.db job
  dep : s.db.DependsOn job c.jobId
  row : ∃ r, s.db.runs.get h.runId = some r ∧ r.jobId = c.jobId ∧ r.status = .succeeded

theorem not_dispatched_of_not_blocked (hb : s.blocked job = false) {r : JobRun}
    (hr : s.db.runs.get p = some r) (hj : r.jobId = job) (hp : r.status = .pending)
    (hsucc : s.db.DependenciesSucceeded job) : ¬ s.db.HasRun job RunStatus.dispatched := by
  intro hd
  have hpend : (s.db.pendingRun job).isSome = true :=
    oldestRun_isSome.mpr (hasRun_iff_get.mpr ⟨p, r, hr, hj, by rw [hp]; rfl⟩)
  rw [blocked, hasDispatchedRun_iff.mpr hd, hpend, allDependenciesSucceeded_iff.mpr hsucc] at hb
  cases hb

theorem pendingRun_of_pendingOnce (hs : PendingOnce s.db) {r : JobRun}
    (hr : s.db.runs.get p = some r) (hj : r.jobId = job) (hp : r.status = .pending) :
    ∃ q, s.db.pendingRun job = some q ∧ q.id = p := by
  have hpend : (s.db.pendingRun job).isSome = true :=
    oldestRun_isSome.mpr (hasRun_iff_get.mpr ⟨p, r, hr, hj, by rw [hp]; rfl⟩)
  obtain ⟨q, hq⟩ := Option.isSome_iff_exists.mp hpend
  obtain ⟨hmem, hqj, hqp⟩ := oldestRun_eq_some hq
  exact ⟨q, hq, hs q.id q (Table.get_of_mem hmem) (of_decide_eq_true hqp) p r hr hp
    (hqj.trans hj.symm)⟩

/- The promotion of the job, or of one before it in the list. -/
theorem offers_create {h : Handler} {c : Claimed} {x : Promotion} {js : List JobId}
    {db' : Database} {pc' : Pc} {out : Option Send} {now : Time} {r : JobRun}
    (hs : PendingOnce s.db) (hr : s.db.runs.get p = some r) (hj : r.jobId = job)
    (hp : r.status = .pending) (ho : (Pc.successCreate c x js).Offers s.db job)
    (hn : s.noticedBy job (.successCreate c x js) = true)
    (hadv : Runner.Advance cfg s.db now h .statement (.successCreate c x js) db' pc' out)
    (hstays : db'.statusOf p = some .pending) :
    pc'.fansOut? = some c ∧ pc'.Offers db' job := by
  obtain ⟨q0, hq0, hq0p⟩ := pendingRun_of_pendingOnce hs hr hj hp
  have hmem : job ∈ x.jobId :: js := ho.mem_todo fun c hc => by cases hc
  cases hadv with
  | dependencyRead _ j _ q hq => exact ⟨rfl, Or.inl hmem⟩
  | dependencyAbsent _ j _ hno => exact ⟨rfl, Or.inl hmem⟩
  | dependencyPromoted _ j q _ r1 hq =>
    have hne : j ≠ job := by
      rintro rfl
      have hqp : p = q := by
        simp only [noticedBy, hq0, Option.all_some, hq0p, Bool.and_eq_true, Bool.or_eq_true,
          decide_eq_true_eq, ne_eq, not_true_eq_false, false_or] at hn
        exact hn.1
      subst hqp
      rw [statusOf, promoteRun, get_updateRun, if_pos rfl, hr] at hstays
      cases hstays
    exact ⟨rfl, ho.tail rfl hne rfl⟩
  | dependencyGone _ j q _ hq =>
    exfalso
    simp only [noticedBy, hq0, hq, Option.all_some, hq0p, Bool.and_eq_true, Bool.or_eq_true,
      decide_eq_true_eq, ne_eq, Bool.not_eq_true', ← Bool.not_eq_true, List.contains_iff_mem,
      Option.isSome_none] at hn
    rcases List.mem_cons.mp hmem with rfl | hmem
    · rcases hn.1 with hno | hpq
      · exact hno rfl
      · rw [← hpq, hr] at hq
        cases hq
    · rcases hn.2 with hno | hno
      · exact hno hmem
      · cases hno
  | dependencyInserted _ j _ db' k hins =>
    have hne : j ≠ job := by
      rintro rfl
      simp [noticedBy, hq0] at hn
    exact ⟨rfl, ho.tail rfl hne rfl⟩
  | dependencyRefused _ j _ hno =>
    exfalso
    simp only [noticedBy, hq0, Bool.and_eq_true, Bool.or_eq_true, decide_eq_true_eq, ne_eq,
      Bool.not_eq_true', ← Bool.not_eq_true, List.contains_iff_mem, Option.isNone_some] at hn
    rcases List.mem_cons.mp hmem with rfl | hmem
    · rcases hn.1 with hne | hsome
      · exact hne rfl
      · cases hsome
    · rcases hn.2 with hne | hjob
      · exact hne hmem
      · exact insertRun_dependencyRow_ne_none hjob now hno

/- The statement of a handler that offers the job: it goes on offering it, or promotes its
pending run. -/
theorem offers_advance {h : Handler} {c : Claimed} {db' : Database} {pc pc' : Pc}
    {out : Option Send} {now : Time} {r : JobRun} (hs : PendingOnce s.db)
    (hr : s.db.runs.get p = some r) (hj : r.jobId = job) (hp : r.status = .pending)
    (hsucc : s.db.DependenciesSucceeded job) (hc : pc.fansOut? = some c)
    (ho : pc.Offers s.db job) (hdep : s.db.DependsOn job c.jobId)
    (hn : s.noticedBy job pc = true)
    (hadv : Runner.Advance cfg s.db now h .statement pc db' pc' out)
    (hstays : db'.statusOf p = some .pending) :
    pc'.fansOut? = some c ∧ pc'.Offers db' job := by
  obtain ⟨jb, hjb, hid⟩ := s.db.run_fk r (Table.mem_of_get hr)
  have hjob : s.db.jobs.get job = some jb := Table.get_eq_some.mpr ⟨hjb, hid.trans hj⟩
  have hfree : s.blocked job = false → ¬ s.db.HasRun job RunStatus.dispatched :=
    fun hb => not_dispatched_of_not_blocked hb hr hj hp hsucc
  cases pc with
  | successReady c' =>
    cases hadv
    cases hc
    refine ⟨rfl, Or.inl (mem_dependentsReady.mpr ⟨hdep, jb, hjob, Or.inr ?_, hfree ?_, hsucc⟩)⟩
    · exact hasRun_iff_get.mpr ⟨p, r, hr, hj, by rw [hp]; rfl⟩
    · simpa [noticedBy, mem_dependencyIds, hdep] using hn
  | successFan c' js =>
    cases hc
    have hmem : job ∈ js := ho.mem_todo fun c hc => by cases hc
    cases hadv with
    | fannedOut => exact absurd hmem List.not_mem_nil
    | dependencyDispatched _ j js hd =>
      refine ⟨rfl, ho.tail rfl ?_ rfl⟩
      rintro rfl
      refine hfree ?_ (hasDispatchedRun_iff.mp hd)
      simpa [noticedBy] using hn
    | dependencyChecked _ j js hd => exact ⟨rfl, Or.inl hmem⟩
  | successCreate c' x js =>
    cases hc
    exact offers_create hs hr hj hp ho hn hadv hstays
  | successEnqueue c' i js =>
    cases hc
    cases hadv
    exact ⟨rfl, Or.inl (ho.mem_todo fun c hc => by cases hc)⟩
  | _ => cases hc

theorem Offering.step {h : Handler} {c : Claimed} {r : JobRun} (hoff : Offering job s h c)
    (htr : Trans cfg cronNext s l t) (hs : WellFormed s) (hk : keepsEdges job s l = true)
    (hn : noticed job s l = true) (hr : s.db.runs.get p = some r) (hj : r.jobId = job)
    (hp : r.status = .pending) (hsucc : s.db.DependenciesSucceeded job)
    (hstays : t.db.statusOf p = some .pending) : ∃ h', Offering job t h' c := by
  have hget : s.handlers.get h.id = some h := Table.get_of_mem hoff.mem
  obtain ⟨q, hq, hqj, hqs⟩ := hoff.row
  obtain ⟨q', hq', hqj', hqs'⟩ := htr.stays_succeeded (keepsSuccess_of_noticed hn) hq hqs
    (by rw [hqj]; exact not_deleted_of_keepsEdges hk hoff.dep)
  have hrow : ∃ r, t.db.runs.get h.runId = some r ∧ r.jobId = c.jobId ∧ r.status = .succeeded :=
    ⟨q', hq', hqj'.trans hqj, hqs'⟩
  have hdep : t.db.DependsOn job c.jobId := (htr.dependsOn_iff hk).mpr hoff.dep
  rcases htr.handler_fate hoff.mem with hmem | ⟨pc, hmem, hmove⟩ | hpc | hpc | hl
  · refine ⟨h, hmem, hoff.fan, ?_, hdep, hrow⟩
    rcases hoff.offers with ho | ⟨c', hc', hd⟩
    · exact Or.inl ho
    · exact Or.inr ⟨c', hc', (htr.dependsOn_iff hk).mpr hd⟩
  · have hfan := hoff.fan
    generalize hdb : t.db = db' at hmove
    cases hmove with
    | acquire hpc =>
      rw [hpc] at hfan
      cases hfan
    | advance now db' pc out hadv =>
      have hby : s.noticedBy job h.pc = true := by
        simp only [noticed, pcOf, hget, Option.map_some, Option.all_some, Bool.and_eq_true] at hn
        exact hn.2
      subst hdb
      obtain ⟨hfan', ho⟩ := offers_advance hs.pending hr hj hp hsucc hfan hoff.offers hoff.dep hby
        hadv hstays
      exact ⟨setPc pc h, hmem, hfan', ho, hdep, hrow⟩
    | executorReturns c' res hpc =>
      rw [hpc] at hfan
      cases hfan
    | fail hw | cancelTask hw hcan =>
      exfalso
      simp only [noticed, pcOf, hget, Option.map_some, Option.any_some, Bool.and_eq_true,
        Bool.not_eq_true', ← Bool.not_eq_true, Pc.offers_iff] at hn
      exact hn.2 hoff.offers
    | ack hpc =>
      rw [hpc] at hfan
      cases hfan
  · have hfan := hoff.fan
    rw [hpc] at hfan
    cases hfan
  · have hfan := hoff.fan
    rw [hpc] at hfan
    cases hfan
  · rw [hl] at hn
    cases ((Bool.and_eq_true _ _).mp hn).2

/-! ### Runs that reach SUCCEEDED -/

section
variable (cfg cronNext)

end

end Sys
end JobScheduler
