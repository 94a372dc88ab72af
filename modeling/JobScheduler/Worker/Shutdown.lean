import JobScheduler.Worker.Main

/-!
# The end of a worker (`run` of backend/worker/main.py after SIGTERM)

The signal only sets a flag. The loop sees it at its next check, after the replies of the
iteration it is in, and then waits for the handlers.
-/

namespace JobScheduler.WorkerMain
open Library

namespace Worker

/-! ### The way that is left -/

/- The most messages that one reply can have. -/
def batch (cfg : Settings) : ℕ := (min cfg.workerConcurrency cfg.workerReadBatch).toNat

end Worker

namespace Position

/- The steps of the loop up to its end, when it is to stop at the next check. -/
def turns : Position → ℕ
  | .checking => 2
  | .sleeping => 3
  | .reclaiming count => 4 * count.toNat + 5
  | .reading count => 2 * count.toNat + 4
  | .dropping (.xautoclaim count) acked rest =>
    (if acked then 1 else 2) + 2 * rest.length + (2 * count.toNat + 4)
  | .dropping .xreadgroup acked rest => (if acked then 1 else 2) + 2 * rest.length + 2
  | .draining => 1
  | .stopped | .raised => 0

/- The messages that the loop may still spawn a handler for. -/
def budget : Position → ℕ
  | .reclaiming count => 2 * count.toNat
  | .reading count => count.toNat
  | .dropping (.xautoclaim count) _ rest => rest.length + count.toNat
  | .dropping .xreadgroup _ rest => rest.length
  | _ => 0

/- The counts and the messages of a reply are within the batch. -/
def Fits (n : ℕ) : Position → Prop
  | .reclaiming count | .reading count => count.toNat ≤ n
  | .dropping (.xautoclaim count) _ rest => count.toNat ≤ n ∧ rest.length ≤ n
  | .dropping .xreadgroup _ rest => rest.length ≤ n
  | _ => True

theorem Fits.turns_le {n : ℕ} {p : Position} (h : p.Fits n) : p.turns ≤ 4 * n + 6 := by
  cases p with
  | reclaiming count | reading count =>
    simp only [Fits, turns] at h ⊢
    omega
  | dropping source acked rest =>
    cases source <;> cases acked <;> simp only [Fits, turns] at h ⊢ <;> simp <;> omega
  | _ => simp [turns]

theorem Fits.budget_le {n : ℕ} {p : Position} (h : p.Fits n) : p.budget ≤ 2 * n := by
  cases p with
  | reclaiming count | reading count =>
    simp only [Fits, budget] at h ⊢
    omega
  | dropping source acked rest =>
    cases source <;> simp only [Fits, budget] at h ⊢ <;> omega
  | _ => simp [budget]

end Position

namespace Worker

variable {cfg : Settings} {s t : Worker} {l : Label}

/- Where the loop over the messages of a reply stops. -/
theorem enter_cases (s : Worker) (source : Source) (messages : List StreamMessage) :
    ((s.enter source messages).position = source.after ∧
        (s.enter source messages).inflight.length = s.inflight.length + messages.length) ∨
      ∃ rest, (s.enter source messages).position = .dropping source false rest ∧
        (s.enter source messages).inflight.length + rest.length + 1 =
          s.inflight.length + messages.length := by
  have hsplit := length_spawnAll source.allowRunning messages
  rw [length_enter]
  cases hleft : (spawnAll source.allowRunning messages).2 with
  | nil =>
    left
    rw [hleft, List.length_nil] at hsplit
    refine ⟨?_, by omega⟩
    simp only [enter, hleft]
  | cons m rest =>
    right
    rw [hleft, List.length_cons] at hsplit
    refine ⟨rest, ?_, by omega⟩
    simp only [enter, hleft]

theorem turns_dropping (source : Source) (acked : Bool) (rest : List StreamMessage) :
    (Position.dropping source acked rest).turns =
      (if acked then 1 else 2) + 2 * rest.length + source.after.turns := by
  cases source <;> rfl

theorem budget_dropping (source : Source) (acked : Bool) (rest : List StreamMessage) :
    (Position.dropping source acked rest).budget = rest.length + source.after.budget := by
  cases source <;> rfl

theorem fits_dropping {n : ℕ} {source : Source} {acked : Bool} {rest : List StreamMessage} :
    (Position.dropping source acked rest).Fits n ↔ source.after.Fits n ∧ rest.length ≤ n := by
  cases source <;> simp [Position.Fits, Source.after]

theorem turns_enter (s : Worker) (source : Source) (messages : List StreamMessage) :
    (s.enter source messages).position.turns ≤ 2 * messages.length + source.after.turns := by
  rcases s.enter_cases source messages with ⟨hpos, -⟩ | ⟨rest, hpos, hlen⟩
  · rw [hpos]
    omega
  · have hle : s.inflight.length ≤ (s.enter source messages).inflight.length := by
      rw [length_enter]
      omega
    rw [hpos, turns_dropping]
    simp only [Bool.false_eq_true, if_false]
    omega

theorem budget_enter (s : Worker) (source : Source) (messages : List StreamMessage) :
    (s.enter source messages).inflight.length + (s.enter source messages).position.budget ≤
      s.inflight.length + (messages.length + source.after.budget) := by
  rcases s.enter_cases source messages with ⟨hpos, hlen⟩ | ⟨rest, hpos, hlen⟩
  · rw [hpos]
    omega
  · rw [hpos, budget_dropping]
    omega

theorem fits_enter {n : ℕ} (s : Worker) {source : Source} {messages : List StreamMessage}
    (hsource : source.after.Fits n) (hlen : messages.length ≤ n) :
    (s.enter source messages).position.Fits n := by
  rcases s.enter_cases source messages with ⟨hpos, -⟩ | ⟨rest, hpos, hrest⟩
  · rw [hpos]
    exact hsource
  · have hle : s.inflight.length ≤ (s.enter source messages).inflight.length := by
      rw [length_enter]
      omega
    rw [hpos, fits_dropping]
    exact ⟨hsource, by omega⟩

/-! ### What holds in every state -/

/- The worker has stopped after all its handlers. -/
def Drained (s : Worker) : Prop :=
  s.position = .stopped → ∀ task ∈ s.inflight, task.stage = .finished

structure Steady (cfg : Settings) (s : Worker) : Prop where
  fits : s.position.Fits (batch cfg)
  drained : s.Drained
  stops : s.position = .draining ∨ s.position = .stopped → s.stop = true

theorem drained_of_ne (h : s.position ≠ .stopped) : s.Drained := fun hpos => absurd hpos h

theorem enter_ne_stopped (s : Worker) (source : Source) (messages : List StreamMessage) :
    (s.enter source messages).position ≠ .stopped ∧
      (s.enter source messages).position ≠ .draining := by
  rcases s.enter_cases source messages with ⟨hpos, -⟩ | ⟨rest, hpos, -⟩
  · rw [hpos]
    cases source <;> simp [Source.after]
  · rw [hpos]
    simp

theorem steady_enter (s : Worker) {source : Source} {messages : List StreamMessage}
    (hsource : source.after.Fits (batch cfg)) (hlen : messages.length ≤ batch cfg) :
    Steady cfg (s.enter source messages) where
  fits := s.fits_enter hsource hlen
  drained := drained_of_ne (s.enter_ne_stopped source messages).1
  stops := by
    intro hpos
    obtain ⟨hstopped, hdraining⟩ := s.enter_ne_stopped source messages
    rcases hpos with hpos | hpos
    · exact absurd hpos hdraining
    · exact absurd hpos hstopped

theorem Steady.step (hs : Steady cfg s) (h : Trans cfg s l t) : Steady cfg t := by
  have hfits := hs.fits
  -- a step of a handler: the finished ones stay so
  have hhandler : ∀ tasks : List Task,
      ((∀ task ∈ s.inflight, task.stage = .finished) → ∀ task ∈ tasks, task.stage = .finished) →
      Steady cfg { s with inflight := tasks } := by
    intro tasks hsub
    exact ⟨hfits, fun hpos => hsub (hs.drained hpos), hs.stops⟩
  -- a step of the loop to a place where it has still to check the flag
  have hloop : ∀ p : Position, p.Fits (batch cfg) → p ≠ .stopped → p ≠ .draining →
      Steady cfg { s with position := p } := by
    intro p hp hstopped hdraining
    refine ⟨hp, drained_of_ne hstopped, ?_⟩
    intro hpos
    rcases hpos with hpos | hpos
    · exact absurd hpos hdraining
    · exact absurd hpos hstopped
  cases h with
  | signal => exact ⟨hfits, hs.drained, fun _ => rfl⟩
  | leaves hpos hstop => exact ⟨trivial, drained_of_ne (by simp), fun _ => hstop⟩
  | full _ _ _ | wake _ => exact hloop _ trivial (by simp) (by simp)
  | polls _ _ _ =>
    refine hloop _ ?_ (by simp) (by simp)
    simp only [Position.Fits, batch]
    omega
  | reclaimFails count hpos =>
    rw [hpos] at hfits
    exact hloop _ hfits (by simp) (by simp)
  | readFails count hpos => exact hloop _ trivial (by simp) (by simp)
  | reclaims count messages hpos hlen =>
    rw [hpos] at hfits
    simp only [Position.Fits] at hfits
    exact s.steady_enter hfits (by omega)
  | reads count messages hpos hlen =>
    rw [hpos] at hfits
    simp only [Position.Fits] at hfits
    exact s.steady_enter trivial (by omega)
  | acked source rest hpos =>
    rw [hpos, fits_dropping] at hfits
    exact hloop _ (fits_dropping.mpr hfits) (by simp) (by simp)
  | deleted source rest hpos =>
    rw [hpos, fits_dropping] at hfits
    exact s.steady_enter hfits.1 hfits.2
  | dropRaises source acked rest hpos => exact hloop _ trivial (by simp) (by simp)
  | acquire k task hk hwait _ =>
    refine hhandler _ ?_
    intro hall
    rw [hall task (List.mem_of_getElem? hk)] at hwait
    cases hwait
  | finish k task hk hstage =>
    refine hhandler _ ?_
    intro hall
    rw [hall task (List.mem_of_getElem? hk)] at hstage
    rcases hstage with hstage | ⟨hstage, -⟩ <;> cases hstage
  | discard k task hk hdone =>
    refine hhandler _ ?_
    intro hall task' htask
    exact hall task' (List.mem_of_mem_eraseIdx htask)
  | drained hpos hall =>
    have hstop := hs.stops (Or.inl hpos)
    exact ⟨trivial, fun _ => hall, fun _ => hstop⟩

theorem run_steady {ls : List Label} (h : Machine.run (step cfg) {} ls = some t) :
    Steady cfg t := by
  refine Machine.run_invariant (I := Steady cfg) ?_ ?_ (Machine.along_true _ _) h
  · exact fun s l t hs _ ht => hs.step (trans_of_step ht)
  · refine ⟨trivial, drained_of_ne (by simp), ?_⟩
    intro hpos
    rcases hpos with hpos | hpos <;> cases hpos

/-! ### After the signal -/

end Worker

namespace Label

/- The steps of the loop, without those of the handlers. -/
def ofLoop : Label → Bool
  | .check | .wake | .xautoclaim _ | .xreadgroup _ | .acked | .deleted | .dropRaises
  | .drained => true
  | _ => false

def discards : Label → Bool
  | .discard _ => true
  | _ => false

end Label

namespace Worker

variable {cfg : Settings} {s t : Worker} {l : Label}

/- A step after the signal takes the loop nearer to its end, and what it spawns and what the
finished handlers leave was counted before. -/
structure Closer (l : Label) (s t : Worker) : Prop where
  stop : t.stop = true
  turns : t.position.turns + (if l.ofLoop then 1 else 0) ≤ s.position.turns
  budget : t.inflight.length + t.position.budget + (if l.discards then 1 else 0) ≤
    s.inflight.length + s.position.budget

theorem closer_enter {source : Source} {messages : List StreamMessage} (hstop : s.stop = true)
    (hl : l.discards = false)
    (hturns : 2 * messages.length + source.after.turns + 1 ≤ s.position.turns)
    (hbudget : messages.length + source.after.budget ≤ s.position.budget) :
    Closer l s (s.enter source messages) where
  stop := hstop
  turns := by
    have hle := s.turns_enter source messages
    split <;> omega
  budget := by
    have hle := s.budget_enter source messages
    rw [hl]
    simp only [Bool.false_eq_true, if_false]
    omega

theorem Trans.closer (h : Trans cfg s l t) (hstop : s.stop = true) : Closer l s t := by
  cases h with
  | signal => exact ⟨rfl, le_rfl, le_rfl⟩
  | leaves hpos _ | wake hpos | drained hpos _ =>
    refine ⟨hstop, ?_, ?_⟩ <;> rw [hpos] <;>
      simp [Position.turns, Position.budget, Label.ofLoop, Label.discards]
  | full _ hno _ | polls _ hno _ =>
    rw [hstop] at hno
    cases hno
  | reclaimFails count hpos | readFails count hpos =>
    refine ⟨hstop, ?_, ?_⟩ <;> rw [hpos] <;>
      simp [Position.turns, Position.budget, Label.ofLoop, Label.discards] <;> omega
  | reclaims count messages hpos hlen =>
    refine closer_enter hstop rfl ?_ ?_ <;> rw [hpos] <;>
      simp [Position.turns, Position.budget, Source.after] <;> omega
  | reads count messages hpos hlen =>
    refine closer_enter hstop rfl ?_ ?_ <;> rw [hpos] <;>
      simp [Position.turns, Position.budget, Source.after] <;> omega
  | acked source rest hpos =>
    refine ⟨hstop, ?_, ?_⟩
    · rw [hpos, turns_dropping, turns_dropping]
      simp only [Label.ofLoop, if_true, Bool.false_eq_true, if_false]
      omega
    · rw [hpos, budget_dropping, budget_dropping]
      exact le_rfl
  | deleted source rest hpos =>
    refine closer_enter hstop rfl ?_ ?_
    · rw [hpos, turns_dropping]
      simp only [if_true]
      omega
    · rw [hpos, budget_dropping]
  | dropRaises source acked rest hpos =>
    refine ⟨hstop, ?_, ?_⟩
    · rw [hpos, turns_dropping]
      simp [Position.turns, Label.ofLoop]
      split <;> omega
    · simp [Position.budget, Label.discards]
  | acquire k task hk _ _ | finish k task hk _ =>
    refine ⟨hstop, le_rfl, ?_⟩
    simp [Label.discards]
  | discard k task hk _ =>
    refine ⟨hstop, le_rfl, ?_⟩
    have hlt : k < s.inflight.length := (List.getElem?_eq_some_iff.mp hk).1
    simp [Label.discards, List.length_eraseIdx, hlt]
    omega

/- While handlers are not finished, one of them can go on. -/
theorem exists_handler_step (hc : 1 ≤ cfg.workerConcurrency)
    (hopen : ∃ task ∈ s.inflight, task.stage ≠ .finished) :
    ∃ l t, l ≠ .signal ∧ s.step cfg l = some t := by
  by_cases hhold : ∃ task ∈ s.inflight, task.stage = .holding
  · obtain ⟨task, htask, hstage⟩ := hhold
    obtain ⟨k, hk⟩ := List.getElem?_of_mem htask
    exact ⟨.finish k, _, by simp, by simp only [step, hk, hstage, true_or, if_true]; rfl⟩
  · obtain ⟨task, htask, hstage⟩ := hopen
    obtain ⟨k, hk⟩ := List.getElem?_of_mem htask
    have hwait : task.stage = .waiting := by
      cases hcase : task.stage with
      | waiting => rfl
      | holding => exact absurd ⟨task, htask, hcase⟩ hhold
      | finished => exact absurd hcase hstage
    have hnone : s.holding = 0 := by
      refine List.countP_eq_zero.mpr ?_
      intro other hother hheld
      exact hhold ⟨other, hother, of_decide_eq_true hheld⟩
    have hfree : task.stage = .waiting ∧ (s.holding : ℤ) < cfg.workerConcurrency :=
      ⟨hwait, by rw [hnone]; omega⟩
    exact ⟨.acquire k, _, by simp, by simp only [step, hk]; exact if_pos hfree⟩

/- Whatever the loop waits for, there is a step that brings it on. -/
theorem exists_step (hc : 1 ≤ cfg.workerConcurrency) (hs : s.stop = true)
    (hstopped : s.position ≠ .stopped) (hraised : s.position ≠ .raised) :
    ∃ l t, l ≠ .signal ∧ s.step cfg l = some t := by
  cases hpos : s.position with
  | checking => exact ⟨.check, _, by simp, by simp only [step, hpos, hs, if_true]; rfl⟩
  | sleeping => exact ⟨.wake, _, by simp, by simp only [step, hpos]; rfl⟩
  | reclaiming count => exact ⟨.xautoclaim none, _, by simp, by simp only [step, hpos]; rfl⟩
  | reading count => exact ⟨.xreadgroup none, _, by simp, by simp only [step, hpos]; rfl⟩
  | dropping source acked rest =>
    cases acked with
    | false => exact ⟨.acked, _, by simp, by simp only [step, hpos]; rfl⟩
    | true => exact ⟨.deleted, _, by simp, by simp only [step, hpos]; rfl⟩
  | draining =>
    by_cases hopen : ∃ task ∈ s.inflight, task.stage ≠ .finished
    · exact exists_handler_step hc hopen
    · have hall : s.inflight.all (fun task => decide (task.stage = .finished)) = true := by
        refine List.all_eq_true.mpr ?_
        intro task htask
        by_contra hno
        exact hopen ⟨task, htask, fun hdone => hno (decide_eq_true hdone)⟩
      exact ⟨.drained, _, by simp, by simp only [step, hpos, hall, if_true]; rfl⟩
  | stopped => exact absurd hpos hstopped
  | raised => exact absurd hpos hraised

/- After the signal the loop ends within a bounded number of its steps: it goes through the
replies of at most one iteration. It ends when every handler has finished, and nothing keeps it
from going on until then. -/
theorem stops_gracefully (cfg : Settings) (hc : 1 ≤ cfg.workerConcurrency)
    (before ls : List Label) (s t : Worker) (hbefore : Machine.run (step cfg) {} before = some s)
    (hstop : s.stop = true) (hrun : Machine.run (step cfg) s ls = some t) :
    ls.countP Label.ofLoop ≤ 4 * batch cfg + 6 ∧
      t.inflight.length + ls.countP Label.discards ≤ s.inflight.length + 2 * batch cfg ∧
      (t.position = .stopped → ∀ task ∈ t.inflight, task.stage = .finished) ∧
      (t.position ≠ .stopped → t.position ≠ .raised →
        ∃ l u, l ≠ .signal ∧ t.step cfg l = some u) := by
  have hs : Steady cfg s := run_steady hbefore
  have ht : Steady cfg t := run_steady (Machine.run_append.mpr ⟨s, hbefore, hrun⟩)
  have hclose : ∀ u l v, u.stop = true → u.step cfg l = some v → Closer l u v :=
    fun u l v hu hv => (trans_of_step hv).closer hu
  have htstop : t.stop = true :=
    Machine.run_invariant (I := fun u => u.stop = true) (fun u l v hu _ hv => (hclose u l v hu hv).stop)
      hstop (Machine.along_true s ls) hrun
  have hturns := Machine.run_countP_le (I := fun u => u.stop = true)
    (μ := fun u => u.position.turns) (p := Label.ofLoop)
    (fun u l v hu hv => ⟨(hclose u l v hu hv).stop, (hclose u l v hu hv).turns⟩) hstop hrun
  have hbudget := Machine.run_countP_le (I := fun u => u.stop = true)
    (μ := fun u => u.inflight.length + u.position.budget) (p := Label.discards)
    (fun u l v hu hv => ⟨(hclose u l v hu hv).stop, (hclose u l v hu hv).budget⟩) hstop hrun
  have hturnsle := hs.fits.turns_le
  have hbudgetle := hs.fits.budget_le
  refine ⟨?_, ?_, ht.drained, fun hstopped hraised => exists_step hc htstop hstopped hraised⟩
  · omega
  · omega

/- The signal comes while XREADGROUP waits; the message it returns still gets its handler. -/
theorem stops_gracefully_reading :
    ∃ s t, Machine.run (step {}) {} [.check, .xautoclaim (some []), .signal] = some s ∧
      Machine.run (step {}) s [.xreadgroup (some [runMessage "1-0" 7]), .check, .acquire 0,
        .finish 0, .drained] = some t ∧
      (t.position = .stopped → ∀ task ∈ t.inflight, task.stage = .finished) := by
  have hall : (Machine.run (step {}) {} [.check, .xautoclaim (some []), .signal]).any (fun s =>
      s.stop && (Machine.run (step {}) s [.xreadgroup (some [runMessage "1-0" 7]), .check,
        .acquire 0, .finish 0, .drained]).isSome) = true := by
    decide
  obtain ⟨s, hs, hall⟩ := (Option.any_eq_true _ _).mp hall
  obtain ⟨hstop, hsome⟩ := (Bool.and_eq_true _ _).mp hall
  obtain ⟨t, ht⟩ := Option.isSome_iff_exists.mp hsome
  exact ⟨s, t, hs, ht, (stops_gracefully {} (by decide) _ _ s t hs hstop ht).2.2.1⟩

end Worker
end JobScheduler.WorkerMain
