import JobScheduler.Scheduler.Leader

/-!
# The main loop of the scheduler (`main` of backend/scheduler/main.py)

Any number of scheduler processes, each with its `Leader`. A process looks at `_stop`, calls
acquire(), ticks when the call says so, sleeps, and calls release() in the end. Sessions die,
signals arrive and processes are killed at any time. A tick takes its own session from the
same engine; what it writes is not part of this state.
-/

namespace JobScheduler.Scheduler.Loop
open Library
open Leader (SessionId ReplicaId Action Replica Server)

/- Where main stands; `acquiring` and `releasing` while a call of the Leader waits for a
statement, `stopped` when the process has ended. -/
inductive Stage where
  | checking
  | acquiring
  | ticking
  | sleeping
  | releasing
  | stopped
  deriving DecidableEq, Repr

/- `stop` is the global `_stop`, `isLeader` the gauge SCHEDULER_IS_LEADER. -/
structure Process where
  stage : Stage := .checking
  stop : Bool := false
  isLeader : Bool := false
  deriving DecidableEq, Repr

structure State where
  leader : Leader.State := {}
  process : ReplicaId → Process := fun _ => {}

def start : State := {}

inductive Label where
  | check (r : ReplicaId)
  | leader (r : ReplicaId) (x : Action)
  | session (r : ReplicaId) (x : Action)
  | finish (r : ReplicaId)
  | wake (r : ReplicaId)
  | signal (r : ReplicaId)
  | kill (s : SessionId)
  | die (r : ReplicaId)
  deriving DecidableEq, Repr

/- Where main goes on when a call of the Leader has returned. -/
def settle (p : Process) : Leader.Pc → Process
  | .returned (some (.acquired true)) => { p with stage := .ticking, isLeader := true }
  | .returned (some (.acquired false)) => { p with stage := .sleeping, isLeader := false }
  | .returned (some .released) => { p with stage := .stopped, isLeader := false }
  | _ => p

/- The state after a statement of a call that main makes at the given stage. -/
def State.called (st : State) (r : ReplicaId) (stage : Stage) (l : Leader.State) : State where
  leader := l
  process := Function.update st.process r
    (settle { st.process r with stage := stage } (l.replica r).pc)

def State.goto (st : State) (r : ReplicaId) (stage : Stage) : State :=
  { st with process := Function.update st.process r { st.process r with stage := stage } }

/- The sessions that end with the process. -/
def sessions (a : Replica) : List SessionId := a.conn.toList ++ a.idle ++ a.busy

/- A tick has at most one session at a time. -/
def allowed (a : Replica) : Action → Bool
  | .checkout _ => a.busy.isEmpty
  | .giveBack _ => true
  | _ => false

def step (st : State) : Label → Option State
  | .check r =>
    if (st.process r).stage = .checking then
      if (st.process r).stop then
        (Leader.step st.leader (.act r .release)).map (st.called r .releasing)
      else (Leader.step st.leader (.act r .acquire)).map (st.called r .acquiring)
    else none
  | .leader r x =>
    if x.ofLeader ∧ ((st.process r).stage = .acquiring ∨ (st.process r).stage = .releasing) then
      (Leader.step st.leader (.act r x)).map (st.called r (st.process r).stage)
    else none
  | .session r x =>
    if (st.process r).stage = .ticking ∧ allowed (st.leader.replica r) x then
      (Leader.step st.leader (.act r x)).map fun l => { st with leader := l }
    else none
  | .finish r =>
    if (st.process r).stage = .ticking ∧ (st.leader.replica r).busy = [] then
      some (st.goto r .sleeping)
    else none
  | .wake r => if (st.process r).stage = .sleeping then some (st.goto r .checking) else none
  | .signal r =>
    some { st with process := Function.update st.process r { st.process r with stop := true } }
  | .kill s => (Leader.step st.leader (.kill s)).map fun l => { st with leader := l }
  | .die r =>
    some
      { leader :=
          { st.leader with
            server := (sessions (st.leader.replica r)).foldl Server.close st.leader.server }
        process := Function.update st.process r { st.process r with stage := .stopped } }

/-! ### Everything a step can do -/

inductive Trans (st : State) : Label → State → Prop where
  | acquire (r : ReplicaId) (l : Leader.State) : (st.process r).stage = .checking →
      (st.process r).stop = false → Leader.step st.leader (.act r .acquire) = some l →
      Trans st (.check r) (st.called r .acquiring l)
  | release (r : ReplicaId) (l : Leader.State) : (st.process r).stage = .checking →
      (st.process r).stop = true → Leader.step st.leader (.act r .release) = some l →
      Trans st (.check r) (st.called r .releasing l)
  | leader (r : ReplicaId) (x : Action) (l : Leader.State) : x.ofLeader = true →
      (st.process r).stage = .acquiring ∨ (st.process r).stage = .releasing →
      Leader.step st.leader (.act r x) = some l →
      Trans st (.leader r x) (st.called r (st.process r).stage l)
  | session (r : ReplicaId) (x : Action) (l : Leader.State) : x.ofLeader = false →
      (st.process r).stage = .ticking → Leader.step st.leader (.act r x) = some l →
      Trans st (.session r x) { st with leader := l }
  | finish (r : ReplicaId) : (st.process r).stage = .ticking →
      Trans st (.finish r) (st.goto r .sleeping)
  | wake (r : ReplicaId) : (st.process r).stage = .sleeping →
      Trans st (.wake r) (st.goto r .checking)
  | signal (r : ReplicaId) :
      Trans st (.signal r)
        { st with process := Function.update st.process r { st.process r with stop := true } }
  | kill (s : SessionId) :
      Trans st (.kill s)
        { st with leader := { st.leader with server := st.leader.server.close s } }
  | die (r : ReplicaId) :
      Trans st (.die r)
        { leader :=
            { st.leader with
              server := (sessions (st.leader.replica r)).foldl Server.close st.leader.server }
          process := Function.update st.process r { st.process r with stage := .stopped } }

theorem not_ofLeader_of_allowed {a : Replica} {x : Action} (h : allowed a x = true) :
    x.ofLeader = false := by
  cases x with
  | checkout | giveBack => rfl
  | _ => cases h

theorem trans_of_step {st st' : State} {l : Label} (h : step st l = some st') :
    Trans st l st' := by
  cases l with
  | check r =>
    simp only [step] at h
    split at h
    · rename_i hc
      split at h
      · rename_i hstop
        obtain ⟨l, hl, rfl⟩ := Option.map_eq_some_iff.mp h
        exact .release r l hc hstop hl
      · rename_i hstop
        obtain ⟨l, hl, rfl⟩ := Option.map_eq_some_iff.mp h
        exact .acquire r l hc (Bool.eq_false_iff.mpr hstop) hl
    · cases h
  | leader r x =>
    simp only [step] at h
    split at h
    · rename_i hc
      obtain ⟨l, hl, rfl⟩ := Option.map_eq_some_iff.mp h
      exact .leader r x l hc.1 hc.2 hl
    · cases h
  | session r x =>
    simp only [step] at h
    split at h
    · rename_i hc
      obtain ⟨l, hl, rfl⟩ := Option.map_eq_some_iff.mp h
      exact .session r x l (not_ofLeader_of_allowed hc.2) hc.1 hl
    · cases h
  | finish r =>
    simp only [step] at h
    split at h
    · rename_i hc
      cases h
      exact .finish r hc.1
    · cases h
  | wake r =>
    simp only [step] at h
    split at h
    · rename_i hc
      cases h
      exact .wake r hc
    · cases h
  | signal r =>
    cases h
    exact .signal r
  | kill s =>
    cases h
    exact .kill s
  | die r =>
    cases h
    exact .die r

/-! ### The calls of main -/

/- The statements a call of main waits for. -/
def Waits (stage : Stage) (pc : Leader.Pc) : Prop :=
  stage = .acquiring ∧ (pc = .probing ∨ pc = .connecting ∨ pc = .locking) ∨
    stage = .releasing ∧ pc = .unlocking

/- What a call made at the stage leaves after each of its statements. -/
inductive Called (b : Replica) : Stage → Prop where
  | waits (stage : Stage) : Waits stage b.pc → Called b stage
  | acquired (leader : Bool) : b.pc = .returned (some (.acquired leader)) →
      b.isLeader = leader → Called b .acquiring
  | released : b.pc = .returned (some .released) → b.isLeader = false → Called b .releasing

section
variable {sv sv' : Server} {a b : Replica} {x : Action} {stage : Stage}

theorem waits_of_acquire (h : Leader.act sv a .acquire = some (sv', b)) :
    Waits .acquiring b.pc := by
  simp only [Leader.act] at h
  split at h
  · split at h
    · cases h
      exact Or.inl ⟨rfl, Or.inl rfl⟩
    · cases h
      exact Or.inl ⟨rfl, Or.inr (Or.inl rfl)⟩
  · cases h

theorem called_of_release (h : Leader.act sv a .release = some (sv', b)) :
    Called b .releasing := by
  simp only [Leader.act] at h
  split at h
  · split at h
    · cases h
      exact .waits _ (Or.inr ⟨rfl, rfl⟩)
    · cases h
      exact .released rfl (Leader.reset_forgets sv a).isLeader
  · cases h

theorem Waits.acquiring {pc : Leader.Pc} (h : Waits stage pc) (hpc : pc ≠ .unlocking) :
    stage = .acquiring := by
  rcases h with ⟨rfl, -⟩ | ⟨-, hu⟩
  · rfl
  · exact absurd hu hpc

theorem Waits.releasing {pc : Leader.Pc} (h : Waits stage pc) (hpc : pc = .unlocking) :
    stage = .releasing := by
  rcases h with ⟨-, hu⟩ | ⟨rfl, -⟩
  · rw [hpc] at hu
    rcases hu with hu | hu | hu <;> cases hu
  · rfl

theorem Waits.not_returned {pc : Leader.Pc} (h : Waits stage pc) (y : Option Leader.Answer) :
    pc ≠ .returned y := by
  rcases h with ⟨-, rfl | rfl | rfl⟩ | ⟨-, rfl⟩ <;> exact fun h => by cases h

theorem called_of_answers (ha : Leader.Local sv a) (hw : Waits stage a.pc)
    (h : Leader.act sv a .answers = some (sv', b)) : Called b stage := by
  simp only [Leader.act] at h
  split at h
  · rename_i s hpc hconn
    obtain rfl := hw.acquiring (by rw [hpc]; exact fun h => by cases h)
    split at h
    · cases h
      exact .acquired true rfl (ha.leading (Or.inl hpc))
    · cases h
  · rename_i s hpc hconn
    obtain rfl := hw.acquiring (by rw [hpc]; exact fun h => by cases h)
    split at h
    · split at h
      · cases h
        exact .acquired true rfl rfl
      · cases h
        exact .acquired false rfl (Leader.reset_forgets _ a).isLeader
    · cases h
  · rename_i s hpc hconn
    obtain rfl := hw.releasing hpc
    split at h
    · cases h
      exact .released rfl (Leader.reset_forgets _ a).isLeader
    · cases h
  · cases h

/- A statement that raises ends the call, except for the probe. -/
theorem called_of_raises {f : Leader.Fault} (hw : Waits stage a.pc)
    (h : Leader.act sv a (.raises f) = some (sv', b)) : Called b stage := by
  simp only [Leader.act] at h
  split at h
  · rename_i s hpc hconn
    obtain rfl := hw.acquiring (by rw [hpc]; exact fun h => by cases h)
    cases h
    rw [hpc]
    exact .waits _ (Or.inl ⟨rfl, Or.inr (Or.inl rfl)⟩)
  · rename_i s hpc hconn
    obtain rfl := hw.acquiring (by rw [hpc]; exact fun h => by cases h)
    cases h
    rw [hpc]
    exact .acquired false rfl (Leader.failed_forgets f hconn).isLeader
  · rename_i s hpc hconn
    obtain rfl := hw.releasing hpc
    cases h
    rw [hpc]
    exact .released rfl (Leader.failed_forgets f hconn).isLeader
  · cases h

theorem called_of_statement (ha : Leader.Local sv a) (hw : Waits stage a.pc)
    (hx : x.ofLeader = true) (h : Leader.act sv a x = some (sv', b)) : Called b stage := by
  cases x with
  | acquire | release =>
    simp only [Leader.act] at h
    split at h
    · rename_i y hpc
      exact absurd hpc (hw.not_returned y)
    · cases h
  | answers => exact called_of_answers ha hw h
  | raises f => exact called_of_raises hw h
  | connects idle =>
    simp only [Leader.act] at h
    split at h
    · rename_i hpc
      obtain rfl := hw.acquiring (by rw [hpc]; exact fun h => by cases h)
      obtain ⟨out, -, heq⟩ := Option.map_eq_some_iff.mp h
      cases heq
      exact .waits _ (Or.inl ⟨rfl, Or.inr (Or.inr rfl)⟩)
    · cases h
  | connectFails =>
    simp only [Leader.act] at h
    split at h
    · rename_i hpc
      obtain rfl := hw.acquiring (by rw [hpc]; exact fun h => by cases h)
      cases h
      exact .acquired false rfl (Leader.reset_forgets sv a).isLeader
    · cases h
  | checkout | giveBack => cases hx

/- The session of a tick is no business of the Leader. -/
theorem act_session (hx : x.ofLeader = false) (h : Leader.act sv a x = some (sv', b)) :
    b.pc = a.pc ∧ b.isLeader = a.isLeader ∧ b.conn = a.conn := by
  cases x with
  | checkout idle =>
    obtain ⟨⟨sv1, a', s⟩, hconn, heq⟩ := Option.map_eq_some_iff.mp h
    cases heq
    have hc := Leader.connects_of_connect hconn
    exact ⟨hc.pc, hc.isLeader, hc.conn⟩
  | giveBack s =>
    simp only [Leader.act] at h
    split at h
    · obtain ⟨hl, hc, hp⟩ := Leader.checkin_keeps (Option.some.inj h)
      exact ⟨hp, hl, hc⟩
    · cases h
  | _ => cases hx

end

/-! ### The invariant -/

/- A process and its Leader. -/
structure Agrees (p : Process) (a : Replica) : Prop where
  between : p.stage = .checking ∨ p.stage = .ticking ∨ p.stage = .sleeping →
    (∃ x, a.pc = .returned x) ∧ p.isLeader = a.isLeader
  ticking : p.stage = .ticking → a.isLeader = true
  waits : p.stage = .acquiring ∨ p.stage = .releasing → Waits p.stage a.pc
  stops : p.stage = .releasing → p.stop = true

theorem Agrees.of_eq {p : Process} {a b : Replica} (h : Agrees p a) (hpc : b.pc = a.pc)
    (hl : b.isLeader = a.isLeader) : Agrees p b := by
  obtain ⟨hbetween, hticking, hwaits, hstops⟩ := h
  refine ⟨?_, ?_, ?_, hstops⟩
  · rw [hpc, hl]
    exact hbetween
  · rw [hl]
    exact hticking
  · rw [hpc]
    exact hwaits

theorem agrees_stopped {p : Process} (a : Replica) (h : p.stage = .stopped) : Agrees p a := by
  refine ⟨?_, ?_, ?_, ?_⟩ <;> rw [h] <;> simp

theorem settle_waits {p : Process} {stage : Stage} {pc : Leader.Pc} (hw : Waits stage pc) :
    settle { p with stage := stage } pc = { p with stage := stage } := by
  rcases hw with ⟨-, rfl | rfl | rfl⟩ | ⟨-, rfl⟩ <;> rfl

theorem agrees_settle {p : Process} {b : Replica} {stage : Stage} (h : Called b stage)
    (hstop : stage = .releasing → p.stop = true) :
    Agrees (settle { p with stage := stage } b.pc) b := by
  cases h with
  | waits stage hw =>
    rw [settle_waits hw]
    refine ⟨?_, ?_, fun _ => hw, hstop⟩
    · rcases hw with ⟨rfl, -⟩ | ⟨rfl, -⟩ <;> simp
    · rcases hw with ⟨rfl, -⟩ | ⟨rfl, -⟩ <;> simp
  | acquired leader hpc hl =>
    rw [hpc]
    cases leader with
    | true => exact ⟨fun _ => ⟨⟨_, hpc⟩, hl.symm⟩, fun _ => hl, by simp [settle], by simp [settle]⟩
    | false => exact ⟨fun _ => ⟨⟨_, hpc⟩, hl.symm⟩, by simp [settle], by simp [settle], by simp [settle]⟩
  | released hpc hl =>
    rw [hpc]
    exact agrees_stopped b rfl

structure Sound (st : State) : Prop where
  leader : Leader.Sound st.leader
  agrees : ∀ r, Agrees (st.process r) (st.leader.replica r)

theorem sound_start : Sound start where
  leader := Leader.sound_start
  agrees := fun r => ⟨fun _ => ⟨⟨none, rfl⟩, rfl⟩, by simp [start], by simp [start], by simp [start]⟩

/- A step of the Leader of replica r. -/
theorem act_of_step {st st' : Leader.State} {r : ReplicaId} {x : Action}
    (h : Leader.step st (.act r x) = some st') :
    Leader.act st.server (st.replica r) x = some (st'.server, st'.replica r) ∧
      ∀ q, q ≠ r → st'.replica q = st.replica q := by
  obtain ⟨⟨sv, b⟩, hact, rfl⟩ := Option.map_eq_some_iff.mp h
  refine ⟨by simpa using hact, fun q hq => ?_⟩
  exact Function.update_of_ne hq _ _

theorem agrees_called {st : State} (hs : Sound st) {r : ReplicaId} {stage : Stage}
    {l : Leader.State} {x : Action} (hl : Leader.step st.leader (.act r x) = some l)
    (hc : Called (l.replica r) stage) (hstop : stage = .releasing → (st.process r).stop = true)
    (q : ReplicaId) : Agrees ((st.called r stage l).process q) (l.replica q) := by
  by_cases hq : q = r
  · subst hq
    show Agrees (Function.update st.process q _ q) _
    rw [Function.update_self]
    exact agrees_settle hc hstop
  · show Agrees (Function.update st.process r _ q) _
    rw [Function.update_of_ne hq, (act_of_step hl).2 q hq]
    exact hs.agrees q

theorem agrees_update {st : State} (hs : Sound st) {r : ReplicaId} {p : Process}
    (hp : Agrees p (st.leader.replica r)) (q : ReplicaId) :
    Agrees (Function.update st.process r p q) (st.leader.replica q) := by
  by_cases hq : q = r
  · subst hq
    rw [Function.update_self]
    exact hp
  · rw [Function.update_of_ne hq]
    exact hs.agrees q

theorem sound_close {st : Leader.State} (hs : Leader.Sound st) (l : List SessionId) :
    Leader.Sound { st with server := l.foldl Server.close st.server } := by
  induction l generalizing st with
  | nil => exact hs
  | cons s l ih => exact ih (hs.step (l := .kill s) rfl)

theorem Sound.step {st st' : State} {l : Label} (hs : Sound st) (h : Trans st l st') :
    Sound st' := by
  cases h with
  | acquire r l hstage hstop hl =>
    exact ⟨hs.leader.step hl,
      agrees_called hs hl (.waits _ (waits_of_acquire (act_of_step hl).1)) nofun⟩
  | release r l hstage hstop hl =>
    exact ⟨hs.leader.step hl,
      agrees_called hs hl (called_of_release (act_of_step hl).1) fun _ => hstop⟩
  | leader r x l hx hstage hl =>
    have hwaits := (hs.agrees r).waits hstage
    exact ⟨hs.leader.step hl, agrees_called hs hl
      (called_of_statement (hs.leader.each r) hwaits hx (act_of_step hl).1) (hs.agrees r).stops⟩
  | session r x l hx hstage hl =>
    refine ⟨hs.leader.step hl, fun q => ?_⟩
    by_cases hq : q = r
    · subst hq
      obtain ⟨hpc, hlead, -⟩ := act_session hx (act_of_step hl).1
      exact (hs.agrees q).of_eq hpc hlead
    · show Agrees (st.process q) (l.replica q)
      rw [(act_of_step hl).2 q hq]
      exact hs.agrees q
  | finish r hstage =>
    have hb := (hs.agrees r).between (Or.inr (Or.inl hstage))
    exact ⟨hs.leader, agrees_update hs ⟨fun _ => hb, by simp, by simp, by simp⟩⟩
  | wake r hstage =>
    have hb := (hs.agrees r).between (Or.inr (Or.inr hstage))
    exact ⟨hs.leader, agrees_update hs ⟨fun _ => hb, by simp, by simp, by simp⟩⟩
  | signal r =>
    have h := hs.agrees r
    exact ⟨hs.leader, agrees_update hs ⟨h.between, h.ticking, h.waits, fun _ => rfl⟩⟩
  | kill s => exact ⟨hs.leader.step (l := .kill s) rfl, hs.agrees⟩
  | die r =>
    exact ⟨sound_close hs.leader _, agrees_update hs (agrees_stopped _ rfl)⟩

theorem run_sound {st : State} {ls : List Label} (h : Machine.run step start ls = some st) :
    Sound st :=
  Machine.run_invariant (fun _ _ _ hs _ ht => hs.step (trans_of_step ht)) sound_start
    (Machine.along_true start ls) h

/-! ### Ticks exclude each other -/

/- The session behind `_conn` of the replica is there and has the lock. -/
def HasLock (st : Leader.State) (r : ReplicaId) : Prop :=
  ∃ s, (st.replica r).conn = some s ∧ s ∈ st.server.alive ∧ st.server.Holds s

def LostSession (st : Leader.State) (r : ReplicaId) : Prop :=
  ∃ s, (st.replica r).conn = some s ∧ s ∉ st.server.alive

structure Exclusive (st : State) : Prop where
  holds : ∀ r, (st.process r).stage = .ticking → HasLock st.leader r ∨ LostSession st.leader r
  once : ∀ r q, (st.process r).stage = .ticking → (st.process q).stage = .ticking →
    r = q ∨ LostSession st.leader r ∨ LostSession st.leader q
  begins : ∀ l st' r, step st l = some st' → (st.process r).stage ≠ .ticking →
    (st'.process r).stage = .ticking → HasLock st'.leader r ∧
      ∀ q, q ≠ r → (st'.process q).stage = .ticking → LostSession st'.leader q
  gauge : ∀ r, (st.process r).stage = .checking ∨ (st.process r).stage = .ticking ∨
      (st.process r).stage = .sleeping →
    (st.process r).isLeader = (st.leader.replica r).isLeader

theorem Sound.holds {st : State} (hs : Sound st) {r : ReplicaId}
    (hr : (st.process r).stage = .ticking) : HasLock st.leader r ∨ LostSession st.leader r := by
  obtain ⟨s, hconn, hhold⟩ := (hs.leader.each r).leads ((hs.agrees r).ticking hr)
  by_cases halive : s ∈ st.leader.server.alive
  · exact Or.inl ⟨s, hconn, halive, hhold halive⟩
  · exact Or.inr ⟨s, hconn, halive⟩

theorem Sound.once {st : State} (hs : Sound st) {r q : ReplicaId}
    (hr : (st.process r).stage = .ticking) (hq : (st.process q).stage = .ticking) :
    r = q ∨ LostSession st.leader r ∨ LostSession st.leader q := by
  rcases hs.holds hr with ⟨s, hs1, -, hhold⟩ | hlost
  · rcases hs.holds hq with ⟨s', hs2, -, hhold'⟩ | hlost
    · obtain rfl := hhold.unique hhold'
      exact Or.inl (hs.leader.disjoint r q s (Or.inl hs1) (Or.inl hs2))
    · exact Or.inr (Or.inr hlost)
  · exact Or.inr (Or.inl hlost)

/- A tick begins when the call of acquire returns True. -/
theorem settle_ticking {p : Process} {pc : Leader.Pc} (hp : p.stage ≠ .ticking)
    (h : (settle p pc).stage = .ticking) : pc = .returned (some (.acquired true)) := by
  unfold settle at h
  split at h
  · rfl
  · cases h
  · cases h
  · exact absurd h hp

theorem Sound.begins {st st' : State} {l : Label} {r : ReplicaId} (hs : Sound st)
    (h : Loop.step st l = some st') (hr : (st.process r).stage ≠ .ticking)
    (hr' : (st'.process r).stage = .ticking) : HasLock st'.leader r := by
  have htrans := trans_of_step h
  have hother : ∀ {q : ReplicaId} {p : Process}, p.stage ≠ .ticking →
      (Function.update st.process q p r).stage ≠ .ticking := by
    intro q p hp
    by_cases hq : r = q
    · subst hq
      rw [Function.update_self]
      exact hp
    · rw [Function.update_of_ne hq]
      exact hr
  cases htrans with
  | acquire q l hstage hstop hl =>
    refine absurd hr' (hother ?_)
    rw [settle_waits (waits_of_acquire (act_of_step hl).1)]
    exact fun h => by cases h
  | release q l hstage hstop hl =>
    refine absurd hr' (hother fun hp => ?_)
    have hpc := settle_ticking (fun h => by cases h) hp
    have hc := called_of_release (act_of_step hl).1
    generalize hst : Stage.releasing = stage at hc
    cases hc with
    | waits stage hw => exact hw.not_returned _ hpc
    | acquired => cases hst
    | released hrel =>
      rw [hpc] at hrel
      cases hrel
  | leader q x l hx hstage hl =>
    by_cases hq : r = q
    · subst hq
      have hp : (Function.update st.process r (settle { st.process r with
          stage := (st.process r).stage } (l.replica r).pc) r).stage = .ticking := hr'
      rw [Function.update_self] at hp
      exact hs.leader.confirms hl
        ⟨((hs.agrees r).waits hstage).not_returned, settle_ticking hr hp⟩
    · have hp : (Function.update st.process q _ r).stage = .ticking := hr'
      rw [Function.update_of_ne hq] at hp
      exact absurd hp hr
  | session q x l hx hstage hl => exact absurd hr' hr
  | finish q hstage | wake q hstage | die q => exact absurd hr' (hother fun h => by cases h)
  | signal q =>
    by_cases hq : r = q
    · subst hq
      have hp : (Function.update st.process r _ r).stage = .ticking := hr'
      rw [Function.update_self] at hp
      exact absurd hp hr
    · have hp : (Function.update st.process q _ r).stage = .ticking := hr'
      rw [Function.update_of_ne hq] at hp
      exact absurd hp hr
  | kill s => exact absurd hr' hr

theorem Sound.exclusive {st : State} (hs : Sound st) : Exclusive st where
  holds := fun r hr => hs.holds hr
  once := fun r q hr hq => hs.once hr hq
  begins := by
    intro l st' r h hr hr'
    obtain ⟨s, hconn, halive, hhold⟩ := hs.begins h hr hr'
    refine ⟨⟨s, hconn, halive, hhold⟩, fun q hne hq => ?_⟩
    have hs' := hs.step (trans_of_step h)
    rcases hs'.holds hq with ⟨s', hconn', -, hhold'⟩ | hlost
    · obtain rfl := hhold.unique hhold'
      exact absurd (hs'.leader.disjoint q r s (Or.inl hconn') (Or.inl hconn)) hne
    · exact hlost
  gauge := fun r hr => ((hs.agrees r).between hr).2

/- Two schedulers tick at the same time only while one of them has lost its session since its
acquire() returned, and a tick begins with the lock. -/
theorem ticks_exclude (ls : List Label) : Machine.Visits step Exclusive start ls :=
  Machine.visits_of_invariant (fun _ _ _ hs _ ht => hs.step (trans_of_step ht))
    (fun _ hs => hs.exclusive) sound_start (Machine.along_true start ls)

/-! ### A process that is told to stop -/

namespace Label

/- The steps of main, without those of the session of a tick. -/
def moves (r : ReplicaId) : Label → Bool
  | .check q | .leader q _ | .finish q | .wake q => decide (q = r)
  | _ => false

def ofProcess (r : ReplicaId) : Label → Bool
  | .session q _ => decide (q = r)
  | l => l.moves r

end Label

/- The steps main still has to make when `_stop` is set. -/
def left : Stage → Leader.Pc → ℕ
  | .stopped, _ => 0
  | .releasing, pc => pc.rank
  | .checking, _ => 2
  | .sleeping, _ => 3
  | .ticking, _ => 4
  | .acquiring, pc => 4 + pc.rank

def rank (st : State) (r : ReplicaId) : ℕ := left (st.process r).stage (st.leader.replica r).pc

theorem rank_le (st : State) (r : ReplicaId) : rank st r ≤ 7 := by
  unfold rank
  generalize (st.process r).stage = stage
  cases (st.leader.replica r).pc <;> cases stage <;> simp [left, Leader.Pc.rank]

theorem stop_settle (p : Process) (pc : Leader.Pc) : (settle p pc).stop = p.stop := by
  unfold settle
  split <;> rfl

theorem stop_called (st : State) (r q : ReplicaId) (stage : Stage) (l : Leader.State) :
    ((st.called r stage l).process q).stop = (st.process q).stop := by
  by_cases hq : q = r
  · subst hq
    show (Function.update st.process q _ q).stop = _
    rw [Function.update_self, stop_settle]
  · show (Function.update st.process r _ q).stop = _
    rw [Function.update_of_ne hq]

/- Every step keeps the flag, and the step of another process also the rank. -/
theorem Trans.other {st st' : State} {l : Label} {r : ReplicaId} (h : Trans st l st')
    (hstop : (st.process r).stop = true) : (st'.process r).stop = true ∧
      (l.moves r = false → rank st' r ≤ rank st r) := by
  have hupdate : ∀ {q : ReplicaId} {p : Process} {m : Leader.State},
      (q = r → p.stop = true ∧ (p.stage = (st.process r).stage ∧
        (m.replica r).pc = (st.leader.replica r).pc ∨ p.stage = .stopped)) →
      (q ≠ r → (m.replica r).pc = (st.leader.replica r).pc) →
      (Function.update st.process q p r).stop = true ∧
        rank ⟨m, Function.update st.process q p⟩ r ≤ rank st r := by
    intro q p m hsame hne
    unfold rank
    by_cases hq : q = r
    · subst hq
      obtain ⟨hp, hcase⟩ := hsame rfl
      simp only [Function.update_self]
      rcases hcase with ⟨hst, hpc⟩ | hst
      · rw [hst, hpc]
        exact ⟨hp, le_rfl⟩
      · rw [hst]
        exact ⟨hp, Nat.zero_le _⟩
    · simp only [Function.update_of_ne (Ne.symm hq)]
      rw [hne hq]
      exact ⟨hstop, le_rfl⟩
  have hcalled : ∀ {q : ReplicaId} {x : Action} {lead : Leader.State} (stage : Stage), q ≠ r →
      Leader.step st.leader (.act q x) = some lead → rank (st.called q stage lead) r ≤ rank st r := by
    intro q x lead stage hq hl
    exact (hupdate (fun h => absurd h hq)
      fun _ => by rw [(act_of_step hl).2 r (Ne.symm hq)]).2
  cases h with
  | acquire q lead hstage hs hl | release q lead hstage hs hl | leader q x lead hx hstage hl =>
    refine ⟨by rw [stop_called]; exact hstop, fun hm => hcalled _ ?_ hl⟩
    simpa [Label.moves] using hm
  | session q x lead hx hstage hl =>
    refine ⟨hstop, fun _ => ?_⟩
    by_cases hq : q = r
    · subst hq
      unfold rank
      rw [(act_session hx (act_of_step hl).1).1]
    · unfold rank
      rw [(act_of_step hl).2 r (Ne.symm hq)]
  | finish q hstage | wake q hstage =>
    constructor
    · by_cases hq : r = q
      · subst hq
        show (Function.update st.process r _ r).stop = true
        rw [Function.update_self]
        exact hstop
      · show (Function.update st.process q _ r).stop = true
        rw [Function.update_of_ne hq]
        exact hstop
    · intro hm
      have hq : q ≠ r := by simpa [Label.moves] using hm
      exact (hupdate (fun h => absurd h hq) fun _ => rfl).2
  | signal q =>
    obtain ⟨h1, h2⟩ := hupdate (q := q) (p := { st.process q with stop := true })
      (m := st.leader) (fun hq => ⟨rfl, Or.inl ⟨by rw [hq], rfl⟩⟩) fun _ => rfl
    exact ⟨h1, fun _ => h2⟩
  | kill s => exact ⟨hstop, fun _ => le_rfl⟩
  | die q =>
    obtain ⟨h1, h2⟩ := hupdate (q := q) (p := { st.process q with stage := .stopped })
      (m := { st.leader with
        server := (sessions (st.leader.replica q)).foldl Server.close st.leader.server })
      (fun hq => ⟨by rw [hq]; exact hstop, Or.inr rfl⟩) fun _ => rfl
    exact ⟨h1, fun _ => h2⟩

theorem rank_update (st : State) (l : Leader.State) (r : ReplicaId) (p : Process) :
    rank ⟨l, Function.update st.process r p⟩ r = left p.stage (l.replica r).pc := by
  show left (Function.update st.process r p r).stage (l.replica r).pc = _
  rw [Function.update_self]

/- What a call of main has left to do. -/
theorem rank_called {st : State} {r : ReplicaId} {l : Leader.State} {stage : Stage}
    (hc : Called (l.replica r) stage) :
    rank (st.called r stage l) r ≤ left stage (l.replica r).pc := by
  rw [State.called, rank_update]
  cases hc with
  | waits stage hw => rw [settle_waits hw]
  | acquired leader hpc hl =>
    rw [hpc]
    cases leader <;> simp [settle, left, Leader.Pc.rank]
  | released hpc hl =>
    rw [hpc]
    exact Nat.zero_le _

/- Every step of a process that is told to stop brings it nearer to its end. -/
theorem Trans.own {st st' : State} {l : Label} {r : ReplicaId} (h : Trans st l st')
    (hs : Sound st) (hstop : (st.process r).stop = true) (hm : l.moves r = true) :
    rank st' r < rank st r := by
  cases h with
  | acquire q lead hstage hno hl =>
    obtain rfl : q = r := by simpa [Label.moves] using hm
    rw [hstop] at hno
    cases hno
  | release q lead hstage _ hl =>
    obtain rfl : q = r := by simpa [Label.moves] using hm
    have hc := called_of_release (act_of_step hl).1
    have hpc : (lead.replica q).pc.rank ≤ 1 := by
      generalize hst : Stage.releasing = stage at hc
      cases hc with
      | waits stage hw =>
        rcases hw with ⟨rfl, -⟩ | ⟨-, hpc⟩
        · cases hst
        · rw [hpc]
          exact le_rfl
      | acquired => cases hst
      | released hpc => rw [hpc]; exact Nat.zero_le _
    refine (rank_called hc).trans_lt ?_
    rw [rank, hstage]
    exact Nat.lt_succ_of_le hpc
  | leader q x lead hx hstage hl =>
    obtain rfl : q = r := by simpa [Label.moves] using hm
    obtain ⟨hact, -⟩ := act_of_step hl
    have hw := (hs.agrees q).waits hstage
    have hlocal := hs.leader.each q
    have hlt : (lead.replica q).pc.rank < (st.leader.replica q).pc.rank :=
      (Leader.move_of_act (fun hpc => (hlocal.connecting hpc).1) hact).rank_lt hx hw.not_returned
    refine (rank_called (called_of_statement hlocal hw hx hact)).trans_lt ?_
    unfold rank
    rcases hstage with hst | hst
    · rw [hst]
      exact Nat.add_lt_add_left hlt 4
    · rw [hst]
      exact hlt
  | finish q hstage =>
    obtain rfl : q = r := by simpa [Label.moves] using hm
    rw [State.goto, rank_update, rank, hstage]
    exact Nat.lt_succ_self 3
  | wake q hstage =>
    obtain rfl : q = r := by simpa [Label.moves] using hm
    rw [State.goto, rank_update, rank, hstage]
    exact Nat.lt_succ_self 2
  | session | signal | kill | die => cases hm

theorem act_giveBack (sv : Server) {a : Replica} {s : SessionId} (hs : s ∈ a.busy) :
    Leader.act sv a (.giveBack s) =
      some (Leader.checkin sv { a with busy := a.busy.erase s } s) := by
  rw [Leader.act, if_pos hs]

/- A process that has not ended can go on. -/
theorem Sound.exists_step {st : State} {r : ReplicaId} (hs : Sound st)
    (hr : (st.process r).stage ≠ .stopped) :
    ∃ l st', l.ofProcess r = true ∧ Loop.step st l = some st' := by
  have hlift : ∀ {x : Action} {out : Server × Replica},
      Leader.act st.leader.server (st.leader.replica r) x = some out →
      ∃ lead, Leader.step st.leader (.act r x) = some lead := by
    intro x out hact
    exact ⟨_, by rw [Leader.step, hact, Option.map_some]⟩
  have hcall : ((st.process r).stage = .acquiring ∨ (st.process r).stage = .releasing) →
      ∃ l st', l.ofProcess r = true ∧ Loop.step st l = some st' := by
    intro hstage
    obtain ⟨x, out, hx, hact⟩ := Leader.exists_act (hs.leader.each r)
      ((hs.agrees r).waits hstage).not_returned
    obtain ⟨lead, hl⟩ := hlift hact
    exact ⟨.leader r x, _, by simp [Label.ofProcess, Label.moves],
      by rw [Loop.step, if_pos ⟨hx, hstage⟩, hl, Option.map_some]⟩
  cases hst : (st.process r).stage with
  | stopped => exact absurd hst hr
  | acquiring => exact hcall (Or.inl hst)
  | releasing => exact hcall (Or.inr hst)
  | checking =>
    obtain ⟨⟨y, hpc⟩, -⟩ := (hs.agrees r).between (Or.inl hst)
    refine ⟨.check r, ?_⟩
    cases hstop : (st.process r).stop with
    | true =>
      have hact : ∃ out, Leader.act st.leader.server (st.leader.replica r) .release = some out := by
        simp only [Leader.act, hpc]
        split <;> exact ⟨_, rfl⟩
      obtain ⟨out, hact⟩ := hact
      obtain ⟨lead, hl⟩ := hlift hact
      exact ⟨_, by simp [Label.ofProcess, Label.moves],
        by rw [Loop.step, if_pos hst, if_pos hstop, hl, Option.map_some]⟩
    | false =>
      have hact : ∃ out, Leader.act st.leader.server (st.leader.replica r) .acquire = some out := by
        simp only [Leader.act, hpc]
        split <;> exact ⟨_, rfl⟩
      obtain ⟨out, hact⟩ := hact
      obtain ⟨lead, hl⟩ := hlift hact
      exact ⟨_, by simp [Label.ofProcess, Label.moves],
        by rw [Loop.step, if_pos hst, if_neg (by simp [hstop]), hl, Option.map_some]⟩
  | sleeping =>
    exact ⟨.wake r, _, by simp [Label.ofProcess, Label.moves], by rw [Loop.step, if_pos hst]⟩
  | ticking =>
    cases hbusy : (st.leader.replica r).busy with
    | nil =>
      exact ⟨.finish r, _, by simp [Label.ofProcess, Label.moves],
        by rw [Loop.step, if_pos ⟨hst, hbusy⟩]⟩
    | cons s rest =>
      have hmem : s ∈ (st.leader.replica r).busy := by
        rw [hbusy]
        exact List.mem_cons_self ..
      obtain ⟨lead, hl⟩ := hlift (act_giveBack st.leader.server hmem)
      exact ⟨.session r (.giveBack s), _, by simp [Label.ofProcess],
        by rw [Loop.step, if_pos ⟨hst, rfl⟩, hl, Option.map_some]⟩

/- Process 0 leads and ticks, process 1 has found the lock taken. -/
def elected : List Label :=
  [.check 0, .leader 0 (.connects none), .leader 0 .answers, .check 1,
    .leader 1 (.connects none), .leader 1 .answers]

/- After the signal a process makes at most seven more steps of its loop, whatever its
statements answer and whatever the others do, and until it has ended it can go on. -/
theorem stops_soon (before ls : List Label) (st st' : State) (r : ReplicaId)
    (hbefore : Machine.run step start before = some st) (hstop : (st.process r).stop = true)
    (hrun : Machine.run step st ls = some st') :
    ls.countP (Label.moves r) ≤ 7 ∧
      ((st'.process r).stage ≠ .stopped →
        ∃ l st'', l.ofProcess r = true ∧ step st' l = some st'') := by
  have hs := run_sound hbefore
  constructor
  · have hcount := Machine.run_countP_le (μ := fun st => rank st r) (p := Label.moves r)
      (I := fun st => Sound st ∧ (st.process r).stop = true) ?_ ⟨hs, hstop⟩ hrun
    · exact ((Nat.le_add_right _ _).trans hcount).trans (rank_le st r)
    · intro u l v hu hv
      have h := trans_of_step hv
      obtain ⟨hkeep, hle⟩ := h.other hu.2
      refine ⟨⟨hu.1.step h, hkeep⟩, ?_⟩
      cases hm : l.moves r with
      | true => exact h.own hu.1 hu.2 hm
      | false => exact hle hm
  · intro hr
    exact (run_sound (Machine.run_append.mpr ⟨st, hbefore, hrun⟩)).exists_step hr

/- The leader is told to stop during a tick and loses its session before the unlock. -/
theorem stops_soon_leader :
    ∃ st st', Machine.run step start (elected ++ [.signal 0]) = some st ∧
      Machine.run step st [.finish 0, .wake 0, .check 0, .kill 0, .leader 0 (.raises ⟨false, true⟩)] =
        some st' ∧ ((st'.process 0).stage ≠ .stopped →
          ∃ l st'', l.ofProcess 0 = true ∧ step st' l = some st'') := by
  have hall : ((Machine.run step start (elected ++ [.signal 0])).any fun st =>
      (st.process 0).stop && (Machine.run step st [.finish 0, .wake 0, .check 0, .kill 0,
        .leader 0 (.raises ⟨false, true⟩)]).isSome) = true := by decide
  obtain ⟨st, hst, hall⟩ := (Option.any_eq_true _ _).mp hall
  obtain ⟨hstop, hsome⟩ := (Bool.and_eq_true _ _).mp hall
  obtain ⟨st', hst'⟩ := Option.isSome_iff_exists.mp hsome
  exact ⟨st, st', hst, hst', (stops_soon _ _ st st' 0 hst hstop hst').2⟩

/-! ### A standby takes over -/

/- Replica r goes through its loop and nothing fails, except on a session that has died. -/
def Healthy (r : ReplicaId) (st : State) : Label → Prop
  | .leader q (.raises _) => q = r ∧ LostSession st.leader r
  | .leader _ .connectFails => False
  | l => l.ofProcess r = true

def Rules (r : ReplicaId) (st : State) : Prop :=
  (st.process r).stage = .ticking ∧ HasLock st.leader r

/- Nobody has the lock, and the loop of replica r goes on. -/
structure Free (r : ReplicaId) (st : State) : Prop where
  sound : Sound st
  lock : st.leader.server.lock = none
  stop : (st.process r).stop = false
  runs : (st.process r).stage ≠ .stopped

section
variable {st : State} {r : ReplicaId}

theorem Free.dead (h : Free r st) {s : SessionId} (hl : (st.leader.replica r).isLeader = true)
    (hconn : (st.leader.replica r).conn = some s) : s ∉ st.leader.server.alive := by
  intro halive
  obtain ⟨s', hconn', hhold⟩ := (h.sound.leader.each r).leads hl
  rw [hconn] at hconn'
  cases hconn'
  obtain ⟨n, hn⟩ := hhold halive
  rw [h.lock] at hn
  cases hn

/- A statement of acquire() returns. -/
theorem exists_statement (hst : (st.process r).stage = .acquiring) {x : Action}
    (hx : x.ofLeader = true) {sv : Server} {b : Replica}
    (hact : Leader.act st.leader.server (st.leader.replica r) x = some (sv, b)) :
    ∃ st', step st (.leader r x) = some st' ∧ st'.leader.server = sv ∧
      st'.leader.replica r = b ∧ st'.process r = settle (st.process r) b.pc := by
  have hl : Leader.step st.leader (.act r x) =
      some ⟨sv, Function.update st.leader.replica r b⟩ := by
    rw [Leader.step, hact, Option.map_some]
  refine ⟨_, by rw [step, if_pos ⟨hx, Or.inl hst⟩, hl, Option.map_some], rfl, ?_, ?_⟩
  · exact Function.update_self ..
  · show Function.update st.process r _ r = _
    rw [Function.update_self]
    show settle (st.process r) (Function.update st.leader.replica r b r).pc = _
    rw [Function.update_self]

theorem exists_rules_of_locking (h : Free r st) (hst : (st.process r).stage = .acquiring)
    (hpc : (st.leader.replica r).pc = .locking) {s : SessionId}
    (hconn : (st.leader.replica r).conn = some s) (halive : s ∈ st.leader.server.alive) :
    ∃ t, Machine.Leads step (Healthy r) st t ∧ Rules r t := by
  have htry : st.leader.server.tryLock s = ({ st.leader.server with lock := some (s, 1) }, true) := by
    rw [Server.tryLock, h.lock]
  obtain ⟨t, ht, hsv, hb, hp⟩ := exists_statement (x := .answers) hst rfl
    (by simp only [Leader.act, hpc, hconn, if_pos halive, htry]; rfl)
  refine ⟨t, .single (by simp [Healthy, Label.ofProcess, Label.moves]) ht, ?_, s, ?_, ?_, 1, ?_⟩
  · rw [hp]
    rfl
  · rw [hb]
  · rw [hsv]
    exact halive
  · rw [hsv]

theorem exists_rules_of_connecting (h : Free r st) (hst : (st.process r).stage = .acquiring)
    (hpc : (st.leader.replica r).pc = .connecting) :
    ∃ t, Machine.Leads step (Healthy r) st t ∧ Rules r t := by
  obtain ⟨u, hu, hsv, hb, hp⟩ := exists_statement (x := .connects none) hst rfl
    (by simp only [Leader.act, hpc, Leader.connect, Option.map_some]; rfl)
  have hfree : Free r u := by
    refine ⟨h.sound.step (trans_of_step hu), ?_, ?_, ?_⟩
    · rw [hsv]
      exact h.lock
    · rw [hp, stop_settle]
      exact h.stop
    · rw [hp]
      exact h.runs
  obtain ⟨t, hlead, ht⟩ := exists_rules_of_locking hfree (s := st.leader.server.opened)
    (by rw [hp]; exact hst) (by rw [hb]) (by rw [hb]; rfl) (by rw [hsv]; exact List.mem_cons_self ..)
  exact ⟨t, .head (by simp [Healthy, Label.ofProcess, Label.moves]) hu hlead, ht⟩

/- A statement on a session that has died raises, and the session is thrown away. -/
theorem exists_raised (h : Free r st) (hst : (st.process r).stage = .acquiring) {s : SessionId}
    (hconn : (st.leader.replica r).conn = some s) (hdead : s ∉ st.leader.server.alive)
    (hpc : (st.leader.replica r).pc = .probing ∨ (st.leader.replica r).pc = .locking) :
    ∃ u, Machine.Leads step (Healthy r) st u ∧ Sound u ∧ u.leader.server.lock = none ∧
      (u.leader.replica r).pc = (st.leader.replica r).pc.afterError ∧
      u.process r = settle (st.process r) (st.leader.replica r).pc.afterError := by
  have hact : Leader.act st.leader.server (st.leader.replica r) (.raises ⟨false, true⟩) =
      some (Leader.goto (st.leader.replica r).pc.afterError
        (Leader.failed st.leader.server (st.leader.replica r) s ⟨false, true⟩)) := by
    rcases hpc with hpc | hpc <;> simp only [Leader.act, hpc, hconn]
  obtain ⟨u, hu, hsv, hb, hp⟩ := exists_statement hst rfl hact
  refine ⟨u, .single (l := .leader r (.raises ⟨false, true⟩)) ⟨rfl, s, hconn, hdead⟩ hu,
    h.sound.step (trans_of_step hu), ?_, ?_, hp⟩
  · rw [hsv]
    exact Leader.lock_none (Leader.failed_forgets ⟨false, true⟩ hconn) h.lock
  · rw [hb]

theorem exists_rules_of_probing (h : Free r st) (hst : (st.process r).stage = .acquiring)
    (hpc : (st.leader.replica r).pc = .probing) :
    ∃ t, Machine.Leads step (Healthy r) st t ∧ Rules r t := by
  have hl := (h.sound.leader.each r).leading (Or.inl hpc)
  obtain ⟨s, hconn, -⟩ := (h.sound.leader.each r).leads hl
  obtain ⟨u, hlead, hs, hlock, hpc', hp⟩ :=
    exists_raised h hst hconn (h.dead hl hconn) (Or.inl hpc)
  rw [hpc] at hpc' hp
  have hfree : Free r u := ⟨hs, hlock, by rw [hp]; exact h.stop, by rw [hp]; exact h.runs⟩
  obtain ⟨t, hlead', ht⟩ := exists_rules_of_connecting hfree (by rw [hp]; exact hst) hpc'
  exact ⟨t, hlead.trans hlead', ht⟩

theorem exists_rules_of_checking (h : Free r st) (hst : (st.process r).stage = .checking) :
    ∃ t, Machine.Leads step (Healthy r) st t ∧ Rules r t := by
  obtain ⟨⟨y, hpc⟩, -⟩ := (h.sound.agrees r).between (Or.inl hst)
  have hact : ∃ sv b, Leader.act st.leader.server (st.leader.replica r) .acquire = some (sv, b) ∧
      sv.lock = none ∧ (b.pc = .probing ∨ b.pc = .connecting) := by
    simp only [Leader.act, hpc]
    split
    · exact ⟨_, _, rfl, h.lock, Or.inl rfl⟩
    · exact ⟨_, _, rfl, Leader.lock_none (Leader.reset_forgets _ _) h.lock, Or.inr rfl⟩
  obtain ⟨sv, b, hact, hlock, hb⟩ := hact
  have hl : Leader.step st.leader (.act r .acquire) =
      some ⟨sv, Function.update st.leader.replica r b⟩ := by
    rw [Leader.step, hact, Option.map_some]
  have hu : step st (.check r) =
      some (st.called r .acquiring ⟨sv, Function.update st.leader.replica r b⟩) := by
    rw [step, if_pos hst, if_neg (by simp [h.stop]), hl, Option.map_some]
  generalize hw : st.called r .acquiring ⟨sv, Function.update st.leader.replica r b⟩ = u at hu
  have hsv : u.leader.server = sv := by rw [← hw]; rfl
  have hrep : u.leader.replica r = b := by
    rw [← hw]
    exact Function.update_self ..
  have hp : u.process r = { st.process r with stage := .acquiring } := by
    rw [← hw]
    show Function.update st.process r _ r = _
    rw [Function.update_self]
    show settle _ (Function.update st.leader.replica r b r).pc = _
    rw [Function.update_self]
    exact settle_waits (waits_of_acquire hact)
  have hfree : Free r u := by
    refine ⟨h.sound.step (trans_of_step hu), by rw [hsv]; exact hlock, ?_, ?_⟩
    · rw [hp]
      exact h.stop
    · rw [hp]
      exact fun h => by cases h
  have hstage : (u.process r).stage = .acquiring := by rw [hp]
  have hhead : Healthy r st (.check r) := by simp [Healthy, Label.ofProcess, Label.moves]
  rcases hb with hb | hb
  · obtain ⟨t, hlead, ht⟩ := exists_rules_of_probing hfree hstage (by rw [hrep]; exact hb)
    exact ⟨t, .head hhead hu hlead, ht⟩
  · obtain ⟨t, hlead, ht⟩ := exists_rules_of_connecting hfree hstage (by rw [hrep]; exact hb)
    exact ⟨t, .head hhead hu hlead, ht⟩

/- main goes on to another stage by itself. -/
theorem Free.goto (h : Free r st) {stage : Stage} {l : Label} (hne : stage ≠ .stopped)
    (hstep : step st l = some (st.goto r stage)) :
    Free r (st.goto r stage) ∧ ((st.goto r stage).process r).stage = stage := by
  have hp : (st.goto r stage).process r = { st.process r with stage := stage } :=
    Function.update_self ..
  refine ⟨⟨h.sound.step (trans_of_step hstep), h.lock, ?_, ?_⟩, ?_⟩
  · rw [hp]
    exact h.stop
  · rw [hp]
    exact hne
  · rw [hp]

theorem exists_rules_of_sleeping (h : Free r st) (hst : (st.process r).stage = .sleeping) :
    ∃ t, Machine.Leads step (Healthy r) st t ∧ Rules r t := by
  have hu : step st (.wake r) = some (st.goto r .checking) := by rw [step, if_pos hst]
  obtain ⟨hfree, hstage⟩ := h.goto (fun h => by cases h) hu
  obtain ⟨t, hlead, ht⟩ := exists_rules_of_checking hfree hstage
  exact ⟨t, .head (by simp [Healthy, Label.ofProcess, Label.moves]) hu hlead, ht⟩

/- A tick that goes on without the lock ends first. -/
theorem exists_rules_of_ticking (h : Free r st) (hst : (st.process r).stage = .ticking) :
    ∃ t, Machine.Leads step (Healthy r) st t ∧ Rules r t := by
  generalize hbusy : (st.leader.replica r).busy = busy
  induction busy generalizing st with
  | nil =>
    have hu : step st (.finish r) = some (st.goto r .sleeping) := by rw [step, if_pos ⟨hst, hbusy⟩]
    obtain ⟨hfree, hstage⟩ := h.goto (fun h => by cases h) hu
    obtain ⟨t, hlead, ht⟩ := exists_rules_of_sleeping hfree hstage
    exact ⟨t, .head (by simp [Healthy, Label.ofProcess, Label.moves]) hu hlead, ht⟩
  | cons s busy ih =>
    have hmem : s ∈ (st.leader.replica r).busy := by
      rw [hbusy]
      exact List.mem_cons_self ..
    have hact := act_giveBack st.leader.server hmem
    generalize hout : Leader.checkin st.leader.server
      { st.leader.replica r with busy := (st.leader.replica r).busy.erase s } s = out at hact
    obtain ⟨sv, b⟩ := out
    have hl : Leader.step st.leader (.act r (.giveBack s)) =
        some ⟨sv, Function.update st.leader.replica r b⟩ := by
      rw [Leader.step, hact, Option.map_some]
    have hu : step st (.session r (.giveBack s)) =
        some { st with leader := ⟨sv, Function.update st.leader.replica r b⟩ } := by
      rw [step, if_pos ⟨hst, rfl⟩, hl, Option.map_some]
    have hlock : sv.lock = none := by
      cases hl : sv.lock with
      | none => rfl
      | some p =>
        have hold : st.leader.server.lock = some p := Leader.lock_checkin (s := s)
          (a := { st.leader.replica r with busy := (st.leader.replica r).busy.erase s })
          (by rw [hout]; exact hl)
        rw [h.lock] at hold
        cases hold
    have hb : b.busy = busy := by
      have herase : ((st.leader.replica r).busy.erase s) = busy := by
        rw [hbusy, List.erase_cons_head]
      unfold Leader.checkin at hout
      split at hout <;> cases hout <;> exact herase
    have hfree : Free r { st with leader := ⟨sv, Function.update st.leader.replica r b⟩ } :=
      ⟨h.sound.step (trans_of_step hu), hlock, h.stop, h.runs⟩
    have hbusy : (Function.update st.leader.replica r b r).busy = busy := by
      rw [Function.update_self]
      exact hb
    obtain ⟨t, hlead, ht⟩ := ih hfree hst hbusy
    exact ⟨t, .head (by simp [Healthy, Label.ofProcess]) hu hlead, ht⟩

theorem exists_rules (h : Free r st) : ∃ t, Machine.Leads step (Healthy r) st t ∧ Rules r t := by
  cases hst : (st.process r).stage with
  | checking => exact exists_rules_of_checking h hst
  | ticking => exact exists_rules_of_ticking h hst
  | sleeping => exact exists_rules_of_sleeping h hst
  | stopped => exact absurd hst h.runs
  | releasing =>
    have hstop := (h.sound.agrees r).stops hst
    rw [h.stop] at hstop
    cases hstop
  | acquiring =>
    rcases (h.sound.agrees r).waits (Or.inl hst) with ⟨-, hpc | hpc | hpc⟩ | ⟨hrel, -⟩
    · exact exists_rules_of_probing h hst hpc
    · exact exists_rules_of_connecting h hst hpc
    · obtain ⟨hl, s, hconn⟩ := (h.sound.leader.each r).locking hpc
      by_cases halive : s ∈ st.leader.server.alive
      · exact exists_rules_of_locking h hst hpc hconn halive
      · obtain ⟨u, hlead, hs, hlock, hpc', hp⟩ := exists_raised h hst hconn halive (Or.inr hpc)
        rw [hpc] at hp
        have hfree : Free r u :=
          ⟨hs, hlock, by rw [hp]; exact h.stop, by rw [hp]; exact fun h => by cases h⟩
        obtain ⟨t, hlead', ht⟩ := exists_rules_of_sleeping hfree (by rw [hp]; rfl)
        exact ⟨t, hlead.trans hlead', ht⟩
    · rw [hst] at hrel
      cases hrel

end

theorem lock_foldl_close {l : List SessionId} {sv : Server} {p : SessionId × ℕ}
    (h : (l.foldl Server.close sv).lock = some p) : sv.lock = some p ∧ p.1 ∉ l := by
  induction l generalizing sv with
  | nil => exact ⟨h, List.not_mem_nil⟩
  | cons s l ih =>
    obtain ⟨hclose, hl⟩ := ih h
    rw [Server.close, Option.filter_eq_some_iff, decide_eq_true_eq] at hclose
    exact ⟨hclose.1, fun hmem => (List.mem_cons.mp hmem).elim hclose.2 hl⟩

theorem mem_sessions {a : Replica} {s : SessionId} (h : a.Owns s) : s ∈ sessions a := by
  unfold sessions
  rcases h with h | h | h
  · rw [h]
    simp
  · simp [h]
  · simp [h]

/- When the process that has the lock dies, every other one that still runs comes to tick with
the lock, by the steps of its own loop. -/
theorem standby_takes_over (ls : List Label) (st : State) (q r : ReplicaId)
    (hrun : Machine.run step start ls = some st) (hne : r ≠ q)
    (hlock : ∀ s, st.leader.server.Holds s → (st.leader.replica q).Owns s)
    (hstop : (st.process r).stop = false) (hruns : (st.process r).stage ≠ .stopped) :
    ∃ u t, step st (.die q) = some u ∧ Machine.Leads step (Healthy r) u t ∧
      (t.process r).stage = .ticking ∧ HasLock t.leader r := by
  obtain ⟨u, hu⟩ : ∃ u, step st (.die q) = some u := ⟨_, rfl⟩
  have hp : u.process r = st.process r := by
    cases hu
    exact Function.update_of_ne hne ..
  have hfree : Free r u := by
    refine ⟨(run_sound hrun).step (trans_of_step hu), ?_, by rw [hp]; exact hstop,
      by rw [hp]; exact hruns⟩
    cases hu
    cases hl : ((sessions (st.leader.replica q)).foldl Server.close st.leader.server).lock with
    | none => rfl
    | some p =>
      obtain ⟨hold, hno⟩ := lock_foldl_close hl
      exact absurd (mem_sessions (hlock p.1 ⟨p.2, hold⟩)) hno
  obtain ⟨t, hlead, ht⟩ := exists_rules hfree
  exact ⟨u, t, hu, hlead, ht.1, ht.2⟩

/- Process 1 takes over from process 0. -/
theorem standby_takes_over_elected :
    ∃ st u t, Machine.run step start elected = some st ∧ step st (.die 0) = some u ∧
      Machine.Leads step (Healthy 1) u t ∧ (t.process 1).stage = .ticking ∧
      HasLock t.leader 1 := by
  have hall : (Machine.run step start elected).any (fun st =>
      decide (st.leader.server.lock = some (0, 1)) && decide ((st.leader.replica 0).Owns 0) &&
        !(st.process 1).stop && decide ((st.process 1).stage ≠ .stopped)) = true := by decide
  obtain ⟨st, hst, hall⟩ := (Option.any_eq_true _ _).mp hall
  simp only [Bool.and_eq_true, decide_eq_true_eq, Bool.not_eq_true'] at hall
  obtain ⟨⟨⟨hlock, howns⟩, hstop⟩, hruns⟩ := hall
  have hholder : ∀ s, st.leader.server.Holds s → (st.leader.replica 0).Owns s := by
    rintro s ⟨n, hn⟩
    cases hlock.symm.trans hn
    exact howns
  obtain ⟨u, t, hu, hlead, htick, hhas⟩ :=
    standby_takes_over elected st 0 1 hst (by decide) hholder hstop hruns
  exact ⟨st, u, t, hst, hu, hlead, htick, hhas⟩

end JobScheduler.Scheduler.Loop
