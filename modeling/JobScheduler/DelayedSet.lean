import JobScheduler.Library.Machine
import JobScheduler.Scheduler.Tick

/-!
# The delayed set

Any number of workers register runs with `schedule_delayed` and any number of scheduler
processes call `promote_due_delayed`, whose script Redis runs atomically. The script is
executed member by member here. Two histories are kept beside Redis: the registrations,
and one entry with the `now` of the call for each message that a promotion added.
-/

namespace JobScheduler.Redis
open Library

/-- ZREM of one member. -/
def zrem (q : Redis) (runId : RunId) : Redis :=
  { q with delayed := q.delayed.filter fun d => decide (d.runId ≠ runId) }

/-- The body of the loop of `_PROMOTE_LUA`. -/
def promoteMember (q : Redis) (d : Delayed) : Redis := (q.zrem d.runId).enqueueRun d.runId

/-- `_PROMOTE_LUA`: the loop over the due members, and the number of them. -/
def promoteScript (q : Redis) (now : Time) : Redis × ℕ :=
  ((q.due now).foldl promoteMember q, (q.due now).length)

/-- The messages of q' that were added to q. -/
def newMessages (q q' : Redis) : List Message :=
  q'.stream.rows.filter fun m => decide (q.stream.next ≤ m.id)

/-! ### The loop of the script -/

theorem mem_delayed_foldl_promoteMember {ds : List Delayed} {q : Redis} {e : Delayed} :
    e ∈ (ds.foldl promoteMember q).delayed ↔ e ∈ q.delayed ∧ ∀ d ∈ ds, e.runId ≠ d.runId := by
  induction ds generalizing q with
  | nil => simp
  | cons d ds ih =>
    rw [List.foldl_cons, ih, List.forall_mem_cons, ← and_assoc]
    refine and_congr_left' ?_
    simp [promoteMember, zrem, enqueueRun]

/- One message for each member, in the order of the set; the others stay as they are. -/
theorem rows_foldl_promoteMember (ds : List Delayed) (q : Redis) :
    ∃ ms, (ds.foldl promoteMember q).stream.rows = q.stream.rows ++ ms ∧
      ms.map Message.runId = ds.map Delayed.runId ∧ ∀ m ∈ ms, q.stream.next ≤ m.id := by
  induction ds generalizing q with
  | nil => exact ⟨[], (List.append_nil _).symm, rfl, fun m hm => absurd hm List.not_mem_nil⟩
  | cons d ds ih =>
    obtain ⟨ms, hrows, hids, hnew⟩ := ih (q.promoteMember d)
    have hrow : (q.promoteMember d).stream.rows =
        q.stream.rows ++ [⟨q.stream.next, d.runId⟩] := rfl
    refine ⟨⟨q.stream.next, d.runId⟩ :: ms, ?_, ?_, ?_⟩
    · rw [List.foldl_cons, hrows, hrow, List.append_assoc, List.singleton_append]
    · rw [List.map_cons, List.map_cons, hids]
    · intro m hm
      rcases List.mem_cons.mp hm with rfl | hm
      · exact le_rfl
      · exact (Nat.le_succ _).trans (hnew m hm)

theorem newMessages_eq {q q' : Redis} {ms : List Message}
    (hrows : q'.stream.rows = q.stream.rows ++ ms) (hnew : ∀ m ∈ ms, q.stream.next ≤ m.id) :
    q.newMessages q' = ms := by
  have hold : (q.stream.rows.filter fun m => decide (q.stream.next ≤ m.id)) = [] := by
    refine List.filter_eq_nil_iff.mpr fun m hm => ?_
    have hlt : m.id < q.stream.next := q.stream.fresh m hm
    simpa using hlt
  rw [newMessages, hrows, List.filter_append, hold, List.nil_append]
  exact List.filter_eq_self.mpr fun m hm => decide_eq_true (hnew m hm)

/-- What one call does to the stream. -/
theorem promoteScript_stream (q : Redis) (now : Time) :
    (q.promoteScript now).1.stream.rows =
        q.stream.rows ++ q.newMessages (q.promoteScript now).1 ∧
      (q.newMessages (q.promoteScript now).1).map Message.runId =
        (q.due now).map Delayed.runId := by
  obtain ⟨ms, hrows, hids, hnew⟩ := rows_foldl_promoteMember (q.due now) q
  have hms : q.newMessages (q.promoteScript now).1 = ms := newMessages_eq hrows hnew
  rw [hms]
  exact ⟨hrows, hids⟩

/-- What one call does to the set. -/
theorem mem_delayed_promoteScript {q : Redis} {now : Time} {e : Delayed} :
    e ∈ (q.promoteScript now).1.delayed ↔
      e ∈ q.delayed ∧ ∀ d ∈ q.delayed, d.readyAt ≤ now → e.runId ≠ d.runId := by
  refine mem_delayed_foldl_promoteMember.trans (and_congr_right' ?_)
  simp [due]

/-- A sorted set has no two members of one name. -/
def DistinctMembers (q : Redis) : Prop := (q.delayed.map Delayed.runId).Nodup

theorem DistinctMembers.eq {q : Redis} (hq : q.DistinctMembers) {d e : Delayed}
    (hd : d ∈ q.delayed) (he : e ∈ q.delayed) (h : d.runId = e.runId) : d = e :=
  List.inj_on_of_nodup_map hq hd he h

theorem foldl_promoteMember_eq (ds : List Delayed) (q : Redis) :
    ds.foldl promoteMember q = ds.foldl (fun q d => q.enqueueRun d.runId)
      { q with delayed := q.delayed.filter fun e => decide (∀ d ∈ ds, e.runId ≠ d.runId) } := by
  induction ds generalizing q with
  | nil => simp
  | cons d ds ih =>
    rw [List.foldl_cons, List.foldl_cons, ih]
    congr 1
    simp only [promoteMember, zrem, enqueueRun, List.filter_filter]
    congr 2
    funext e
    simp [Bool.and_comm]

/-- The script and the single filter of `promoteDueDelayed` agree. -/
theorem promoteScript_eq {q : Redis} (hq : q.DistinctMembers) (now : Time) :
    q.promoteScript now = q.promoteDueDelayed now := by
  unfold promoteScript promoteDueDelayed
  rw [foldl_promoteMember_eq]
  congr 3
  refine List.filter_congr fun e he => ?_
  rw [← decide_not, decide_eq_decide]
  constructor
  · intro h hready
    exact h e (List.mem_filter.mpr ⟨he, decide_eq_true hready⟩) rfl
  · intro hready d hd h
    obtain ⟨hd, hdue⟩ := List.mem_filter.mp hd
    rw [hq.eq he hd h] at hready
    exact hready (of_decide_eq_true hdue)

end JobScheduler.Redis

namespace JobScheduler.DelayedSet
open Library

structure State where
  redis : Redis
  registered : List Delayed := []
  promoted : List (RunId × Time) := []

/- The set is empty at first; the stream and its readers are in any state. -/
def start (q : Redis) : State := { redis := { q with delayed := [] } }

inductive Label where
  | scheduleDelayed (runId : RunId) (readyAt : Time)
  | promoteDueDelayed (now : Time)
  | enqueueRun (runId : RunId)
  | xreadgroup (consumer : WorkerId) (m : Message)
  | xautoclaim (consumer : WorkerId) (messageId : ℕ)
  | xack (messageId : ℕ)
  | xdel (messageId : ℕ)
  | elapse (microseconds : ℕ)

def promotions (q q' : Redis) (now : Time) : List (RunId × Time) :=
  (q.newMessages q').map fun m => (m.runId, now)

/-- One command. Every command is atomic, the script of a promotion too. -/
def step (s : State) : Label → Option State
  | .scheduleDelayed i ready => some
      { s with
        redis := s.redis.scheduleDelayed i ready
        registered := s.registered ++ [⟨i, ready⟩] }
  | .promoteDueDelayed now =>
    let redis := (s.redis.promoteScript now).1
    some { s with redis := redis, promoted := s.promoted ++ promotions s.redis redis now }
  | .enqueueRun i => some { s with redis := s.redis.enqueueRun i }
  | .xreadgroup w m => some { s with redis := s.redis.xreadgroup w m }
  | .xautoclaim w m => some { s with redis := s.redis.xautoclaim w m }
  | .xack m => some { s with redis := s.redis.xack m }
  | .xdel m => some { s with redis := s.redis.xdel m }
  | .elapse d => some { s with redis := { s.redis with clock := s.redis.clock + d } }

/-- create_retry_run: a registration is of a run that was never registered. -/
def Fresh (s : State) : Label → Prop
  | .scheduleDelayed i _ => ∀ d ∈ s.registered, d.runId ≠ i
  | _ => True

instance : ∀ (s : State) (l : Label), Decidable (Fresh s l)
  | s, .scheduleDelayed i _ => inferInstanceAs (Decidable (∀ d ∈ s.registered, d.runId ≠ i))
  | _, .promoteDueDelayed _ | _, .enqueueRun _ | _, .xreadgroup .. | _, .xautoclaim .. => isTrue trivial
  | _, .xack _ | _, .xdel _ | _, .elapse _ => isTrue trivial

/-! ### Conservation -/

/-- The promotions of run i so far. -/
def State.promotionsOf (s : State) (i : RunId) : List (RunId × Time) :=
  s.promoted.filter fun p => decide (p.1 = i)

def State.Waits (s : State) (d : Delayed) : Prop :=
  d ∈ s.redis.delayed ∧ s.promotionsOf d.runId = []

def State.Sent (s : State) (d : Delayed) : Prop :=
  (∀ e ∈ s.redis.delayed, e.runId ≠ d.runId) ∧
    ∃ now, d.readyAt ≤ now ∧ s.promotionsOf d.runId = [(d.runId, now)]

/-- A registered run waits in the set with its time, or was promoted once and in time; and
the set and the promotions hold nothing that was not registered. -/
structure Conserved (s : State) : Prop where
  one : ∀ d ∈ s.registered, s.Waits d ∨ s.Sent d
  delayed : ∀ e ∈ s.redis.delayed, e ∈ s.registered
  promoted : ∀ p ∈ s.promoted, ∃ d ∈ s.registered, d.runId = p.1
  members : s.redis.DistinctMembers
  registered : (s.registered.map Delayed.runId).Nodup

theorem conserved_start (q : Redis) : Conserved (start q) where
  one := fun _ hd => absurd hd List.not_mem_nil
  delayed := fun _ he => absurd he List.not_mem_nil
  promoted := fun _ hp => absurd hp List.not_mem_nil
  members := List.nodup_nil
  registered := List.nodup_nil

/- The commands that have nothing to do with the set. -/
theorem Conserved.of_delayed_eq {s : State} (h : Conserved s) {q : Redis}
    (hq : q.delayed = s.redis.delayed) : Conserved { s with redis := q } where
  one := by
    intro d hd
    refine (h.one d hd).imp ?_ ?_
    · rintro ⟨hw, hp⟩
      exact ⟨hq ▸ hw, hp⟩
    · rintro ⟨hn, hp⟩
      exact ⟨fun e he => hn e (hq ▸ he), hp⟩
  delayed := fun e he => h.delayed e (hq ▸ he)
  promoted := h.promoted
  members := by
    unfold Redis.DistinctMembers
    rw [hq]
    exact h.members
  registered := h.registered

theorem mem_scheduleDelayed {q : Redis} {i : RunId} {ready : Time} {e : Delayed} :
    e ∈ (q.scheduleDelayed i ready).delayed ↔
      e = ⟨i, ready⟩ ∨ e ∈ q.delayed ∧ e.runId ≠ i := by
  simp [Redis.scheduleDelayed]

theorem distinctMembers_scheduleDelayed {q : Redis} (hq : q.DistinctMembers) (i : RunId)
    (ready : Time) : (q.scheduleDelayed i ready).DistinctMembers := by
  have hothers : ((q.delayed.filter fun d => decide (d.runId ≠ i)).map Delayed.runId).Nodup :=
    hq.sublist ((List.filter_sublist).map _)
  have hperm := (List.perm_orderedInsert Delayed.before ⟨i, ready⟩
    (q.delayed.filter fun d => decide (d.runId ≠ i))).map Delayed.runId
  refine hperm.nodup_iff.mpr (List.nodup_cons.mpr ⟨?_, hothers⟩)
  simp

theorem Conserved.scheduleDelayed {s : State} (h : Conserved s) {i : RunId} {ready : Time}
    (hfresh : ∀ d ∈ s.registered, d.runId ≠ i) :
    Conserved
      { s with
        redis := s.redis.scheduleDelayed i ready
        registered := s.registered ++ [⟨i, ready⟩] } where
  one := by
    intro d hd
    rcases List.mem_append.mp hd with hd | hd
    · rcases h.one d hd with ⟨hw, hp⟩ | ⟨hn, hp⟩
      · exact .inl ⟨mem_scheduleDelayed.mpr (.inr ⟨hw, hfresh d hd⟩), hp⟩
      · refine .inr ⟨?_, hp⟩
        intro e he
        rcases mem_scheduleDelayed.mp he with rfl | ⟨he, -⟩
        · exact (hfresh d hd).symm
        · exact hn e he
    · -- the new registration: nothing of its id was promoted before
      rw [List.mem_singleton.mp hd]
      refine .inl ⟨mem_scheduleDelayed.mpr (.inl rfl), ?_⟩
      refine List.filter_eq_nil_iff.mpr fun p hp => ?_
      obtain ⟨e, he, hep⟩ := h.promoted p hp
      simpa [← hep] using hfresh e he
  delayed := by
    intro e he
    rcases mem_scheduleDelayed.mp he with rfl | ⟨he, -⟩
    · exact List.mem_append_right _ (List.mem_singleton.mpr rfl)
    · exact List.mem_append_left _ (h.delayed e he)
  promoted := by
    intro p hp
    obtain ⟨d, hd, hdp⟩ := h.promoted p hp
    exact ⟨d, List.mem_append_left _ hd, hdp⟩
  members := distinctMembers_scheduleDelayed h.members i ready
  registered := by
    rw [List.map_append, List.nodup_append]
    refine ⟨h.registered, List.nodup_singleton _, ?_⟩
    intro k hk k' hk'
    obtain ⟨d, hd, rfl⟩ := List.mem_map.mp hk
    rw [List.map_singleton, List.mem_singleton] at hk'
    rw [hk']
    exact hfresh d hd

/- The promotions of one call are the due members, each with the time of the call. -/
theorem promotions_promoteScript (q : Redis) (now : Time) :
    promotions q (q.promoteScript now).1 now =
      (q.due now).map fun d => (d.runId, now) := by
  have hids := (q.promoteScript_stream now).2
  have hpair : ∀ ms : List Message, (ms.map fun m => (m.runId, now)) =
      (ms.map Message.runId).map fun i => (i, now) := by
    intro ms
    rw [List.map_map]
    rfl
  rw [promotions, hpair, hids, List.map_map]
  rfl

/- A call promotes a due member once. -/
theorem promotionsOf_due {q : Redis} (hq : q.DistinctMembers) {now : Time} {d : Delayed}
    (hd : d ∈ q.delayed) (hready : d.readyAt ≤ now) :
    ((promotions q (q.promoteScript now).1 now).filter fun p => decide (p.1 = d.runId)) =
      [(d.runId, now)] := by
  have hdue : d ∈ q.due now := List.mem_filter.mpr ⟨hd, decide_eq_true hready⟩
  have hnodup : (q.due now).Nodup := (hq.of_map _).filter _
  have hone : ((q.due now).filter fun e => decide (e.runId = d.runId)) = [d] := by
    have hcongr : ∀ e ∈ q.due now, decide (e.runId = d.runId) = decide (e = d) := by
      intro e he
      rw [decide_eq_decide]
      constructor
      · exact hq.eq (List.mem_filter.mp he).1 hd
      · rintro rfl
        rfl
    rw [List.filter_congr hcongr, List.filter_eq, List.count_eq_one_of_mem hnodup hdue]
    rfl
  rw [promotions_promoteScript, List.filter_map]
  have hcomp : ((fun p : RunId × Time => decide (p.1 = d.runId)) ∘ fun e => (e.runId, now)) =
      fun e : Delayed => decide (e.runId = d.runId) := rfl
  rw [hcomp, hone]
  rfl

/- A run of which no member is due is not promoted. -/
theorem promotionsOf_not_due {q : Redis} {now : Time} {i : RunId}
    (h : ∀ e ∈ q.delayed, e.readyAt ≤ now → e.runId ≠ i) :
    ((promotions q (q.promoteScript now).1 now).filter fun p => decide (p.1 = i)) = [] := by
  rw [promotions_promoteScript]
  refine List.filter_eq_nil_iff.mpr fun p hp => ?_
  obtain ⟨e, he, rfl⟩ := List.mem_map.mp hp
  obtain ⟨he, hready⟩ := List.mem_filter.mp he
  simpa using h e he (of_decide_eq_true hready)

theorem Conserved.promote {s : State} (h : Conserved s) (now : Time) :
    Conserved
      { s with
        redis := (s.redis.promoteScript now).1
        promoted := s.promoted ++ promotions s.redis (s.redis.promoteScript now).1 now } where
  one := by
    intro d hd
    unfold State.Waits State.Sent State.promotionsOf
    simp only [List.filter_append, Redis.mem_delayed_promoteScript]
    rcases h.one d hd with ⟨hw, hp⟩ | ⟨hn, t, ht, hp⟩
    · unfold State.promotionsOf at hp
      rw [hp, List.nil_append]
      by_cases hready : d.readyAt ≤ now
      · refine .inr ⟨fun e he => he.2 d hw hready, now, hready, ?_⟩
        exact promotionsOf_due h.members hw hready
      · have hlate : ∀ e ∈ s.redis.delayed, e.readyAt ≤ now → e.runId ≠ d.runId := by
          intro e he hle heq
          rw [h.members.eq he hw heq] at hle
          exact hready hle
        exact .inl ⟨⟨hw, fun e he hle => (hlate e he hle).symm⟩, promotionsOf_not_due hlate⟩
    · unfold State.promotionsOf at hp
      refine .inr ⟨fun e he => hn e he.1, t, ht, ?_⟩
      rw [hp, promotionsOf_not_due fun e he _ => hn e he, List.append_nil]
  delayed := fun e he => h.delayed e (Redis.mem_delayed_promoteScript.mp he).1
  promoted := by
    intro p hp
    rcases List.mem_append.mp hp with hp | hp
    · exact h.promoted p hp
    · rw [promotions_promoteScript] at hp
      obtain ⟨d, hd, rfl⟩ := List.mem_map.mp hp
      exact ⟨d, h.delayed d (List.mem_of_mem_filter hd), rfl⟩
  members := by
    rw [Redis.promoteScript_eq h.members, Redis.promoteDueDelayed_eq]
    unfold Redis.DistinctMembers
    rw [Redis.delayed_foldl_enqueueRun]
    exact h.members.sublist ((List.filter_sublist).map _)
  registered := h.registered

theorem Conserved.step {s t : State} {l : Label} (h : Conserved s) (hl : Fresh s l)
    (hst : DelayedSet.step s l = some t) : Conserved t := by
  cases l with
  | scheduleDelayed i ready =>
    cases hst
    exact h.scheduleDelayed hl
  | promoteDueDelayed now =>
    cases hst
    exact h.promote now
  | enqueueRun i | xreadgroup w m | xautoclaim w m | xack m | xdel m | elapse d =>
    cases hst
    exact h.of_delayed_eq rfl

/-- What one call of promote_due_delayed does: no run registered for a time up to `now` is
left in the set, the messages are appended to the stream, and their number is returned. -/
def Promotes (s : State) : Label → Prop
  | .promoteDueDelayed now =>
    (∀ d ∈ s.registered, d.readyAt ≤ now →
      ∀ e ∈ (s.redis.promoteScript now).1.delayed, e.runId ≠ d.runId) ∧
    (s.redis.promoteScript now).1.stream.rows =
      s.redis.stream.rows ++ s.redis.newMessages (s.redis.promoteScript now).1 ∧
    (s.redis.promoteScript now).2 =
      (s.redis.newMessages (s.redis.promoteScript now).1).length
  | _ => True

theorem Conserved.promotes {s : State} (h : Conserved s) (l : Label) : Promotes s l := by
  cases l with
  | promoteDueDelayed now =>
    obtain ⟨hrows, hids⟩ := s.redis.promoteScript_stream now
    refine ⟨?_, hrows, ?_⟩
    · intro d hd hready e he
      obtain ⟨he, hno⟩ := Redis.mem_delayed_promoteScript.mp he
      rcases h.one d hd with ⟨hw, -⟩ | ⟨hn, -⟩
      · exact hno d hw hready
      · exact hn e he
    · have hlen := congrArg List.length hids
      rw [List.length_map, List.length_map] at hlen
      exact hlen.symm
  | scheduleDelayed i ready => trivial
  | enqueueRun i | xreadgroup w m | xautoclaim w m | xack m | xdel m | elapse d => trivial

/-- Nothing is lost, doubled or promoted early, in any interleaving. -/
theorem delayed_set_conserves_runs (q : Redis) (ls : List Label)
    (h : Machine.Along step Fresh (start q) ls) :
    Machine.Visits step Conserved (start q) ls ∧ Machine.Along step Promotes (start q) ls := by
  have hstep : ∀ s l t, Conserved s → Fresh s l → step s l = some t → Conserved t :=
    fun s l t hs hl hst => hs.step hl hst
  constructor
  · exact Machine.visits_of_invariant hstep (fun _ hs => hs) (conserved_start q) h
  · exact Machine.along_of_invariant hstep (fun s l hs _ => hs.promotes l) (conserved_start q) h

/- Two registrations for one time, promotions just before, at and after it. -/
def sampleLabels : List Label :=
  [.scheduleDelayed 1 5, .promoteDueDelayed 4, .scheduleDelayed 2 5, .promoteDueDelayed 5,
    .scheduleDelayed 3 9, .promoteDueDelayed 5]

theorem delayed_set_conserves_sample :
    Machine.Along step Fresh (start {}) sampleLabels ∧
      Machine.Visits step Conserved (start {}) sampleLabels :=
  have h : Machine.Along step Fresh (start {}) sampleLabels := by decide
  ⟨h, (delayed_set_conserves_runs {} sampleLabels h).1⟩

end JobScheduler.DelayedSet
