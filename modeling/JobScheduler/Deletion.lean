import JobScheduler.Rows

/-!
# A deleted job

DELETE takes a job away while messages carry its runs and handlers execute them. Its id is
never used again, no run and no edge of it can be written, and the handlers that still have a
record of one of its runs can only go on with what they had read before.
-/

namespace JobScheduler
open Library Database

namespace Database

/- The id has been handed out, and no job has it. -/
structure Gone (db : Database) (j : JobId) : Prop where
  used : j < db.jobs.next
  absent : db.jobs.get j = none

variable {db db' : Database} {j : JobId}

theorem KeepsJobIds.gone (h : db.KeepsJobIds db') (hg : db.Gone j) : db'.Gone j where
  used := hg.used.trans_le h.next
  absent := by
    refine Option.not_isSome_iff_eq_none.mp fun hsome => ?_
    rcases h.old j hsome with hold | hle
    · rw [hg.absent] at hold
      cases hold
    · exact absurd hg.used (Nat.not_lt.mpr hle)

theorem Gone.not_mem (h : db.Gone j) {job : Job} (hjob : job ∈ db.jobs.rows) : job.id ≠ j := by
  intro hid
  have hget : db.jobs.get j = some job := Table.get_eq_some.mpr ⟨hjob, hid⟩
  rw [h.absent] at hget
  cases hget

theorem Gone.run (h : db.Gone j) {r : JobRun} (hr : r ∈ db.runs.rows) : r.jobId ≠ j := by
  obtain ⟨job, hjob, hid⟩ := db.run_fk r hr
  rw [← hid]
  exact h.not_mem hjob

theorem Gone.edge (h : db.Gone j) {d : JobDependency} (hd : d ∈ db.dependencies.rows) :
    d.jobId ≠ j ∧ d.dependsOnJobId ≠ j := by
  obtain ⟨⟨a, ha, hai⟩, b, hb, hbi⟩ := db.dependency_fk d hd
  exact ⟨hai ▸ h.not_mem ha, hbi ▸ h.not_mem hb⟩

/- A fan-out that begins after the delete finds no dependents. -/
theorem Gone.dependentsReady (h : db.Gone j) : Store.dependentsReady db j = [] := by
  refine List.eq_nil_iff_forall_not_mem.mpr fun k hk => ?_
  obtain ⟨d, hd, -, hj⟩ := (Store.mem_dependentsReady.mp hk).1
  exact (h.edge hd).2 hj

end Database

namespace Runner

variable {cfg : Settings} {db db' : Database} {now : Time} {h : Handler} {g : Grain} {pc pc' : Pc}
  {out : Option Send} {c : Store.Claimed}

/- A handler with a record of a run of the job goes on with the dependents it has read. -/
theorem Advance.leftover (hadv : Advance cfg db now h g pc db' pc' out) (hg : db.Gone c.jobId)
    (hc : pc'.claimed? = some c) :
    pc.claimed? = some c ∧ ∀ k ∈ pc'.todo, k ∈ pc.todo := by
  cases hadv with
  | claimed r job hr hclaim hjob =>
    cases hc
    have hne : r.jobId ≠ r.jobId := hg.run (Table.mem_of_get hr)
    exact absurd rfl hne
  | ready c' =>
    cases hc
    refine ⟨rfl, fun k hk => ?_⟩
    rw [Pc.todo, hg.dependentsReady] at hk
    cases hk
  | dependencySkipped _ _ _ _ _ | dependencyCreated _ _ _ _ _ _ | dependencyDispatched _ _ _ _
  | dependencyPromoted _ _ _ _ _ _ | dependencyInserted _ _ _ _ _ _ =>
    exact ⟨hc, fun k hk => List.mem_cons_of_mem _ hk⟩
  | dependencyChecked _ _ _ _ | dependencyRead _ _ _ _ _ | dependencyAbsent _ _ _ _
  | enqueued _ _ _ => exact ⟨hc, fun k hk => hk⟩
  | refused _ | successSkipped _ _ _ | fannedOut _ | dependencyRaised _ _ _ _
  | dependencyGone _ _ _ _ _ | dependencyRefused _ _ _ _ | failureSkipped _ _ _ | retryRaised _ _ _ | failed _ _ _ => cases hc
  | _ => exact ⟨hc, fun k hk => by cases hk⟩

end Runner

namespace Sys

variable {cfg : Settings} {cronNext : Cron.CronNext} {s t u : Sys} {l : Label}

/- Handler k holds a record that a handler of the same run held in s, with no dependent more to
deal with. -/
def HeldIn (s : Sys) (k : Handler) (c : Store.Claimed) : Prop :=
  ∃ h, Works s h ∧ h.runId = k.runId ∧ h.pc.claimed? = some c ∧ ∀ j ∈ k.pc.todo, j ∈ h.pc.todo

theorem Trans.leftover (h : Trans cfg cronNext s l t) {k : Handler} (hk : Works t k)
    {c : Store.Claimed} (hc : k.pc.claimed? = some c) (hg : s.db.Gone c.jobId) : HeldIn s k c := by
  rcases h.works hk with hk | hpc | ⟨k', hk', pc, rfl, hm⟩ | ⟨-, k', hk', now, c', x, js, rfl, hadv⟩
  · exact ⟨k, hk, rfl, hc, fun _ hj => hj⟩
  · rw [hpc] at hc
    cases hc
  · change pc.claimed? = some c at hc
    generalize t.db = db' at hm
    cases hm with
    | acquire _ | fail _ | cancelTask _ _ | ack _ => cases hc
    | advance now db' pc out hadv =>
      obtain ⟨hc', htodo⟩ := hadv.leftover hg hc
      exact ⟨k', Or.inl hk', rfl, hc', htodo⟩
    | executorReturns c' res hpc =>
      refine ⟨k', Or.inl hk', rfl, ?_, ?_⟩
      · rw [hpc]
        unfold Runner.returned at hc
        split at hc <;> exact hc
      · intro j hj
        obtain ⟨c'', hfan⟩ := Pc.fansOut?_of_todo hj
        have hno : (Runner.returned c' res).fansOut? = some c'' := hfan
        rw [returned_fansOut] at hno
        cases hno
  · obtain ⟨hc', htodo⟩ := hadv.leftover hg hc
    exact ⟨k', Or.inr hk', rfl, hc', htodo⟩

/- The job is gone, and nobody has a record of a run of it that was not held in s. -/
structure Leftover (s : Sys) (j : JobId) (u : Sys) : Prop where
  gone : u.db.Gone j
  held : ∀ k, Works u k → ∀ c, k.pc.claimed? = some c → c.jobId = j → HeldIn s k c

theorem Leftover.step {j : JobId} (hs : Leftover s j t) (h : Trans cfg cronNext t l u) :
    Leftover s j u where
  gone := h.evolves.jobs.gone hs.gone
  held := by
    intro k hk c hc hj
    obtain ⟨d, hd, hrun, hcd, htodo⟩ := h.leftover hk hc (hj ▸ hs.gone)
    obtain ⟨e, he, hrun', hce, htodo'⟩ := hs.held d hd c hcd hj
    exact ⟨e, he, hrun'.trans hrun, hce, fun i hi => htodo' i (htodo i hi)⟩

end Sys
end JobScheduler
