import JobScheduler.Library.Machine
import Mathlib.Logic.Function.Basic
import Mathlib.Order.Nat

/-!
# Leader election

Every scheduler replica has a `Leader` over its own engine. The advisory lock belongs to a
database session, the engine keeps sessions in a pool, and a statement can raise with the
session still there, so the lock server, the pools and the two attributes of `Leader` are
one state. A replica moves by one statement at a time.
-/

namespace JobScheduler.Leader
open Library

abbrev SessionId := ℕ
abbrev ReplicaId := ℕ

/-! ### The lock server -/

/- The advisory lock is counted: the holder may take it again and has to give it back as
often. Sessions are numbered in the order they are opened. -/
structure Server where
  opened : ℕ := 0
  alive : List SessionId := []
  lock : Option (SessionId × ℕ) := none
  deriving DecidableEq, Repr

namespace Server

/- pg_try_advisory_lock -/
def tryLock (sv : Server) (s : SessionId) : Server × Bool :=
  match sv.lock with
  | none => ({ sv with lock := some (s, 1) }, true)
  | some (h, n) => if h = s then ({ sv with lock := some (s, n + 1) }, true) else (sv, false)

/- pg_advisory_unlock; a session that does not hold the lock only gets a warning. -/
def unlock (sv : Server) (s : SessionId) : Server :=
  match sv.lock with
  | none => sv
  | some (h, n) =>
    if h = s then { sv with lock := if n ≤ 1 then none else some (s, n - 1) } else sv

/- The end of a session, which frees its advisory locks. -/
def close (sv : Server) (s : SessionId) : Server :=
  { sv with
    alive := sv.alive.filter (· ≠ s)
    lock := sv.lock.filter (·.1 ≠ s) }

def connect (sv : Server) : Server × SessionId :=
  ({ sv with opened := sv.opened + 1, alive := sv.opened :: sv.alive }, sv.opened)

def Holds (sv : Server) (s : SessionId) : Prop := ∃ n, sv.lock = some (s, n)

/- Everything about session s, and the lock while s holds it, is as before. -/
def Same (sv sv' : Server) (s : SessionId) : Prop :=
  (s ∈ sv'.alive ↔ s ∈ sv.alive) ∧ ∀ n, sv'.lock = some (s, n) ↔ sv.lock = some (s, n)

theorem Same.refl (sv : Server) (s : SessionId) : Same sv sv s := ⟨Iff.rfl, fun _ => Iff.rfl⟩

/- A session that holds the lock while it lives still does. -/
theorem Same.holds {sv sv' : Server} {s : SessionId} (h : Same sv sv' s)
    (hhold : s ∈ sv.alive → sv.Holds s) (halive : s ∈ sv'.alive) : sv'.Holds s := by
  obtain ⟨n, hn⟩ := hhold (h.1.mp halive)
  exact ⟨n, (h.2 n).mpr hn⟩

theorem tryLock_cases (sv : Server) (s : SessionId) :
    (∃ n, (sv.lock = none ∧ n = 0 ∨ sv.Holds s) ∧
      sv.tryLock s = ({ sv with lock := some (s, n + 1) }, true)) ∨
    (∃ h n, sv.lock = some (h, n) ∧ h ≠ s) ∧ sv.tryLock s = (sv, false) := by
  unfold tryLock
  cases hl : sv.lock with
  | none => exact .inl ⟨0, .inl ⟨rfl, rfl⟩, rfl⟩
  | some p =>
    obtain ⟨h, n⟩ := p
    by_cases hs : h = s
    · subst hs
      exact .inl ⟨n, .inr ⟨n, hl⟩, by simp⟩
    · exact .inr ⟨⟨h, n, rfl, hs⟩, by simp [hs]⟩

theorem same_tryLock (sv : Server) {s s' : SessionId} (hne : s' ≠ s) :
    Same sv (sv.tryLock s).1 s' := by
  rcases tryLock_cases sv s with ⟨n, hfree, heq⟩ | ⟨-, heq⟩
  · rw [heq]
    refine ⟨Iff.rfl, fun m => ⟨fun h => ?_, fun h => ?_⟩⟩
    · cases h
      exact absurd rfl hne
    · rcases hfree with ⟨hfree, -⟩ | ⟨k, hk⟩
      · rw [hfree] at h
        cases h
      · rw [hk] at h
        cases h
        exact absurd rfl hne
  · rw [heq]
    exact .refl sv s'

theorem same_unlock (sv : Server) {s s' : SessionId} (hne : s' ≠ s) :
    Same sv (sv.unlock s) s' := by
  unfold unlock
  cases hl : sv.lock with
  | none => exact .refl sv s'
  | some p =>
    obtain ⟨h, n⟩ := p
    by_cases hs : h = s
    · subst hs
      refine ⟨by simp, fun m => ?_⟩
      rw [hl]
      simp only [if_true]
      constructor
      · intro h
        split at h
        · cases h
        · cases h
          exact absurd rfl hne
      · intro h
        cases h
        exact absurd rfl hne
    · simp only [hs, if_false]
      exact .refl sv s'

theorem same_close (sv : Server) {s s' : SessionId} (hne : s' ≠ s) :
    Same sv (sv.close s) s' := by
  refine ⟨by simp [close, hne], fun n => ?_⟩
  cases hl : sv.lock with
  | none => simp [close, hl]
  | some p =>
    obtain ⟨h, m⟩ := p
    by_cases hs : h = s
    · subst hs
      simp [close, hl, Option.filter, Ne.symm hne]
    · simp [close, hl, Option.filter, hs]

theorem same_connect (sv : Server) {s' : SessionId} (hne : s' ≠ sv.opened) :
    Same sv sv.connect.1 s' :=
  ⟨by simp [connect, hne], fun _ => Iff.rfl⟩

theorem ne_of_alive_close {sv : Server} {s s' : SessionId} (h : s' ∈ (sv.close s).alive) :
    s' ≠ s := by
  rintro rfl
  simp [close] at h

theorem not_holds_close (sv : Server) (s : SessionId) (n : ℕ) :
    (sv.close s).lock ≠ some (s, n) := by
  intro h
  rw [close, Option.filter_eq_some_iff] at h
  simp at h

theorem ne_of_lock_close {sv : Server} {s s' : SessionId} {n : ℕ}
    (h : (sv.close s).lock = some (s', n)) : s' ≠ s := by
  rintro rfl
  exact sv.not_holds_close s' n h

end Server

/-! ### A replica -/

/- What the last call of the replica returned. -/
inductive Answer where
  | acquired (leader : Bool)
  | released
  deriving DecidableEq, Repr

/- The statement a call waits for; `returned` between two calls. -/
inductive Pc where
  | returned (answer : Option Answer)
  | probing
  | connecting
  | locking
  | unlocking
  deriving DecidableEq, Repr

/- `conn` and `isLeader` are the attributes of Leader. The sessions of the engine that
Leader does not use are idle in the pool or checked out by somebody else (`busy`). -/
structure Replica where
  isLeader : Bool := false
  conn : Option SessionId := none
  idle : List SessionId := []
  busy : List SessionId := []
  pc : Pc := .returned none
  deriving DecidableEq, Repr

/- How a statement raises: whether the server has executed it, and whether SQLAlchemy
takes the error for a disconnect. -/
structure Fault where
  executed : Bool
  disconnect : Bool
  deriving DecidableEq, Repr

inductive Action where
  | acquire
  | release
  | answers
  | raises (f : Fault)
  | connects (idle : Option SessionId)
  | connectFails
  | checkout (idle : Option SessionId)
  | giveBack (s : SessionId)
  deriving DecidableEq, Repr

namespace Replica

/- Every session of the replica's engine, dead ones included. -/
def Owns (a : Replica) (s : SessionId) : Prop := a.conn = some s ∨ s ∈ a.idle ∨ s ∈ a.busy

instance (a : Replica) (s : SessionId) : Decidable (a.Owns s) := by
  unfold Owns
  infer_instance

end Replica

/- pool_size of the engine -/
def poolSize : ℕ := 5

/- A session comes back to the pool. Only the overflow beyond pool_size is closed. -/
def checkin (sv : Server) (a : Replica) (s : SessionId) : Server × Replica :=
  if a.idle.length < poolSize then (sv, { a with idle := a.idle ++ [s] }) else (sv.close s, a)

def reset (sv : Server) (a : Replica) : Server × Replica :=
  match a.conn with
  | none => (sv, { a with isLeader := false })
  | some s => checkin sv { a with isLeader := false, conn := none } s

/- What the server does for the statement the replica waits for. -/
def execute (sv : Server) (pc : Pc) (s : SessionId) : Server :=
  match pc with
  | .locking => (sv.tryLock s).1
  | .unlocking => sv.unlock s
  | _ => sv

/- A statement on session s raised and the handler has called _reset. An error that is a
disconnect has ended the session by then. -/
def failed (sv : Server) (a : Replica) (s : SessionId) (f : Fault) : Server × Replica :=
  let sv := if f.executed && decide (s ∈ sv.alive) then execute sv a.pc s else sv
  if f.disconnect then (sv.close s, { a with isLeader := false, conn := none })
  else reset sv a

def goto (pc : Pc) (p : Server × Replica) : Server × Replica := (p.1, { p.2 with pc := pc })

/- engine.connect(): with pool_pre_ping it gives a live session of the pool or a new one. -/
def connect (sv : Server) (a : Replica) : Option SessionId → Option (Server × Replica × SessionId)
  | none => some (sv.connect.1, a, sv.connect.2)
  | some s =>
    if s ∈ a.idle ∧ s ∈ sv.alive then some (sv, { a with idle := a.idle.erase s }, s) else none

/- Where acquire goes on after an error. -/
def Pc.afterError : Pc → Pc
  | .probing => .connecting
  | .locking => .returned (some (.acquired false))
  | _ => .returned (some .released)

def act (sv : Server) (a : Replica) : Action → Option (Server × Replica)
  | .acquire =>
    match a.pc with
    | .returned _ =>
      if a.isLeader && a.conn.isSome then some (sv, { a with pc := .probing })
      else some (goto .connecting (reset sv a))
    | _ => none
  | .release =>
    match a.pc with
    | .returned _ =>
      if a.conn.isSome && a.isLeader then some (sv, { a with pc := .unlocking })
      else some (goto (.returned (some .released)) (reset sv a))
    | _ => none
  | .answers =>
    match a.pc, a.conn with
    | .probing, some s =>
      if s ∈ sv.alive then some (sv, { a with pc := .returned (some (.acquired true)) }) else none
    | .locking, some s =>
      if s ∈ sv.alive then
        match sv.tryLock s with
        | (sv', true) =>
          some (sv', { a with isLeader := true, pc := .returned (some (.acquired true)) })
        | (sv', false) => some (goto (.returned (some (.acquired false))) (reset sv' a))
      else none
    | .unlocking, some s =>
      if s ∈ sv.alive then
        some (goto (.returned (some .released)) (reset (sv.unlock s) a))
      else none
    | _, _ => none
  | .raises f =>
    match a.pc, a.conn with
    | .probing, some s | .locking, some s | .unlocking, some s =>
      some (goto a.pc.afterError (failed sv a s f))
    | _, _ => none
  | .connects idle =>
    match a.pc with
    | .connecting =>
      (connect sv a idle).map fun (sv', a', s) => (sv', { a' with conn := some s, pc := .locking })
    | _ => none
  | .connectFails =>
    match a.pc with
    | .connecting => some (goto (.returned (some (.acquired false))) (reset sv a))
    | _ => none
  | .checkout idle =>
    (connect sv a idle).map fun (sv', a', s) => (sv', { a' with busy := a'.busy ++ [s] })
  | .giveBack s =>
    if s ∈ a.busy then some (checkin sv { a with busy := a.busy.erase s } s) else none

/-! ### All replicas -/

structure State where
  server : Server := {}
  replica : ReplicaId → Replica := fun _ => {}

def start : State := {}

inductive Label where
  | act (r : ReplicaId) (x : Action)
  | kill (s : SessionId)
  deriving DecidableEq, Repr

def step (st : State) : Label → Option State
  | .act r x =>
    (act st.server (st.replica r) x).map fun (sv, a) =>
      { server := sv, replica := Function.update st.replica r a }
  | .kill s => some { st with server := st.server.close s }

/-! ### What a replica can do to the server -/

/- The sessions of the others are left alone, and a session that is new to the replica is
new to the server. -/
structure Frame (sv : Server) (a : Replica) (sv' : Server) (b : Replica) : Prop where
  opened : sv.opened ≤ sv'.opened
  owns : ∀ s, b.Owns s → a.Owns s ∨ (s = sv.opened ∧ sv.opened < sv'.opened)
  alive : ∀ s, ¬ a.Owns s → s < sv.opened → (s ∈ sv'.alive ↔ s ∈ sv.alive)
  lock : ∀ s n, ¬ a.Owns s → (sv'.lock = some (s, n) ↔ sv.lock = some (s, n))

theorem Frame.refl (sv : Server) (a : Replica) : Frame sv a sv a :=
  ⟨le_rfl, fun _ h => .inl h, fun _ _ _ => Iff.rfl, fun _ _ _ => Iff.rfl⟩

theorem Frame.trans {sv sv' sv'' : Server} {a b : Replica} (h : Frame sv a sv' a)
    (h' : Frame sv' a sv'' b) (hopened : sv'.opened = sv.opened) : Frame sv a sv'' b := by
  refine ⟨h.opened.trans h'.opened, fun s hs => ?_, fun s hs hlt => ?_, fun s n hs => ?_⟩
  · rw [← hopened]
    exact h'.owns s hs
  · exact (h'.alive s hs (lt_of_lt_of_le hlt h.opened)).trans (h.alive s hs hlt)
  · exact (h'.lock s n hs).trans (h.lock s n hs)

theorem Frame.same {sv sv' : Server} {a b : Replica} {s : SessionId} (h : Frame sv a sv' b)
    (hs : ¬ a.Owns s) (hlt : s < sv.opened) : sv.Same sv' s :=
  ⟨h.alive s hs hlt, fun n => h.lock s n hs⟩

theorem Frame.goto {sv sv' : Server} {a b : Replica} (h : Frame sv a sv' b) (pc : Pc) :
    Frame sv a sv' { b with pc := pc } := ⟨h.opened, h.owns, h.alive, h.lock⟩

/- A change to one session of the replica. -/
theorem frame_of_same {sv sv' : Server} {a b : Replica} (s : SessionId) (hs : a.Owns s)
    (hopened : sv'.opened = sv.opened) (hsame : ∀ s', s' ≠ s → sv.Same sv' s')
    (howns : ∀ s', b.Owns s' → a.Owns s') : Frame sv a sv' b := by
  have hne : ∀ s', ¬ a.Owns s' → s' ≠ s := by
    rintro s' h rfl
    exact h hs
  exact ⟨hopened.ge, fun s' h => .inl (howns s' h), fun s' h _ => (hsame s' (hne s' h)).1,
    fun s' n h => (hsame s' (hne s' h)).2 n⟩

theorem opened_execute (sv : Server) (pc : Pc) (s : SessionId) :
    (execute sv pc s).opened = sv.opened := by
  unfold execute
  split
  · rcases sv.tryLock_cases s with ⟨n, -, heq⟩ | ⟨-, heq⟩ <;> rw [heq]
  · unfold Server.unlock
    repeat' split
    all_goals rfl
  · rfl

theorem same_execute (sv : Server) (pc : Pc) {s s' : SessionId} (hne : s' ≠ s) :
    sv.Same (execute sv pc s) s' := by
  unfold execute
  split
  · exact sv.same_tryLock hne
  · exact sv.same_unlock hne
  · exact .refl sv s'

theorem frame_execute {sv : Server} {a : Replica} {s : SessionId} (pc : Pc)
    (hs : a.conn = some s) : Frame sv a (execute sv pc s) a :=
  frame_of_same s (.inl hs) (opened_execute sv pc s) (fun _ hne => same_execute sv pc hne)
    fun _ h => h

theorem frame_checkin {sv : Server} {a b : Replica} {s : SessionId} (hs : a.Owns s)
    (hb : ∀ s', b.Owns s' → a.Owns s') :
    Frame sv a (checkin sv b s).1 (checkin sv b s).2 := by
  unfold checkin
  split
  · refine frame_of_same s hs rfl (fun s' _ => .refl sv s') fun s' h => ?_
    rcases h with h | h | h
    · exact hb s' (.inl h)
    · rcases List.mem_append.mp h with h | h
      · exact hb s' (.inr (.inl h))
      · rw [List.mem_singleton.mp h]
        exact hs
    · exact hb s' (.inr (.inr h))
  · exact frame_of_same s hs rfl (fun _ hne => sv.same_close hne) hb

theorem lock_checkin {sv : Server} {a : Replica} {s : SessionId} {p : SessionId × ℕ}
    (h : (checkin sv a s).1.lock = some p) : sv.lock = some p := by
  unfold checkin at h
  split at h
  · exact h
  · exact (Option.filter_eq_some_iff.mp h).1

theorem owns_forget {a : Replica} {isLeader : Bool} {s : SessionId}
    (h : Replica.Owns { a with isLeader := isLeader, conn := none } s) : a.Owns s := by
  rcases h with h | h
  · cases h
  · exact .inr h

/- The replica after _reset. -/
structure Forgets (sv : Server) (a : Replica) (sv' : Server) (b : Replica) : Prop where
  isLeader : b.isLeader = false
  conn : b.conn = none
  frame : Frame sv a sv' b
  lock : ∀ p, sv'.lock = some p → sv.lock = some p

theorem reset_forgets (sv : Server) (a : Replica) :
    Forgets sv a (reset sv a).1 (reset sv a).2 := by
  unfold reset
  split
  · rename_i hconn
    exact ⟨rfl, hconn, ⟨le_rfl, fun _ h => .inl h, fun _ _ _ => Iff.rfl, fun _ _ _ => Iff.rfl⟩,
      fun _ h => h⟩
  · rename_i s hconn
    refine ⟨?_, ?_, frame_checkin (.inl hconn) fun s' h => owns_forget h,
      fun p h => lock_checkin h⟩
    · unfold checkin
      split <;> rfl
    · unfold checkin
      split <;> rfl

/- The server when a statement has raised, before the session is given up. -/
def afterFault (sv : Server) (a : Replica) (s : SessionId) (f : Fault) : Server :=
  if f.executed && decide (s ∈ sv.alive) then execute sv a.pc s else sv

theorem failed_forgets {sv : Server} {a : Replica} {s : SessionId} (f : Fault)
    (hs : a.conn = some s) :
    Forgets (afterFault sv a s f) a (failed sv a s f).1 (failed sv a s f).2 := by
  unfold failed
  rw [← afterFault]
  dsimp only
  split
  · exact ⟨rfl, rfl, frame_of_same s (.inl hs) rfl (fun _ hne => Server.same_close _ hne)
      fun s' h => owns_forget h, fun p h => (Option.filter_eq_some_iff.mp h).1⟩
  · exact reset_forgets _ a

theorem opened_afterFault (sv : Server) (a : Replica) (s : SessionId) (f : Fault) :
    (afterFault sv a s f).opened = sv.opened := by
  unfold afterFault
  split
  · exact opened_execute sv a.pc s
  · rfl

theorem frame_afterFault {sv : Server} {a : Replica} {s : SessionId} (f : Fault)
    (hs : a.conn = some s) : Frame sv a (afterFault sv a s f) a := by
  unfold afterFault
  split
  · exact frame_execute a.pc hs
  · exact .refl sv a

/- A checked out session: the rest of the replica and of the server is as before. -/
structure Connects (sv : Server) (a : Replica) (sv' : Server) (a' : Replica) (s : SessionId) :
    Prop where
  lock : sv'.lock = sv.lock
  isLeader : a'.isLeader = a.isLeader
  conn : a'.conn = a.conn
  pc : a'.pc = a.pc
  same : ∀ q, q < sv.opened → sv.Same sv' q
  frame : ∀ b : Replica, (∀ q, b.Owns q → q = s ∨ a'.Owns q) → Frame sv a sv' b

theorem connects_of_connect {sv sv' : Server} {a a' : Replica} {idle : Option SessionId}
    {s : SessionId} (h : connect sv a idle = some (sv', a', s)) : Connects sv a sv' a' s := by
  cases idle with
  | none =>
    cases h
    refine ⟨rfl, rfl, rfl, rfl, fun q hlt => sv.same_connect hlt.ne,
      fun b hb => ⟨Nat.le_succ _, fun q hq => ?_, fun q _ hlt => (sv.same_connect hlt.ne).1,
        fun _ _ _ => Iff.rfl⟩⟩
    rcases hb q hq with rfl | hq
    · exact .inr ⟨rfl, Nat.lt_succ_self _⟩
    · exact .inl hq
  | some i =>
    simp only [connect] at h
    split at h
    · rename_i hi
      cases h
      refine ⟨rfl, rfl, rfl, rfl, fun q _ => .refl sv q,
        fun b hb => ⟨le_rfl, fun q hq => ?_, fun _ _ _ => Iff.rfl, fun _ _ _ => Iff.rfl⟩⟩
      rcases hb q hq with rfl | hq
      · exact .inl (.inr (.inl hi.1))
      · rcases hq with hq | hq | hq
        · exact .inl (.inl hq)
        · exact .inl (.inr (.inl (List.mem_of_mem_erase hq)))
        · exact .inl (.inr (.inr hq))
    · cases h

/-! ### The actions one by one -/

/- Everything an action can do. -/
inductive Move (sv : Server) (a : Replica) : Action → Server → Replica → Prop where
  | probe (x : Option Answer) : a.pc = .returned x → a.isLeader = true →
      Move sv a .acquire sv { a with pc := .probing }
  | unlock (x : Option Answer) : a.pc = .returned x → a.isLeader = true →
      Move sv a .release sv { a with pc := .unlocking }
  | reset (x : Action) (pc : Pc) (sv' : Server) (b : Replica) : Forgets sv a sv' b →
      (a.isLeader = true → a.conn = none) →
      (pc = .connecting ∧ ∃ y, a.pc = .returned y) ∨
        pc = .returned (some (.acquired false)) ∨ pc = .returned (some .released) →
      Move sv a x sv' { b with pc := pc }
  | confirmed (s : SessionId) : a.pc = .probing → a.conn = some s → s ∈ sv.alive →
      Move sv a .answers sv { a with pc := .returned (some (.acquired true)) }
  | granted (s : SessionId) (n : ℕ) : a.pc = .locking → a.conn = some s → s ∈ sv.alive →
      sv.lock = none ∧ n = 0 ∨ sv.Holds s →
      sv.tryLock s = ({ sv with lock := some (s, n + 1) }, true) →
      Move sv a .answers { sv with lock := some (s, n + 1) }
        { a with isLeader := true, pc := .returned (some (.acquired true)) }
  | refused (s h : SessionId) (n : ℕ) (sv' : Server) (b : Replica) : a.pc = .locking →
      a.conn = some s → sv.lock = some (h, n) → h ≠ s → Forgets sv a sv' b →
      Move sv a .answers sv' { b with pc := .returned (some (.acquired false)) }
  | unlocked (s : SessionId) (sv' : Server) (b : Replica) : a.pc = .unlocking →
      a.conn = some s → s ∈ sv.alive → Forgets (sv.unlock s) a sv' b →
      Move sv a .answers sv' { b with pc := .returned (some .released) }
  | raised (s : SessionId) (f : Fault) (sv' : Server) (b : Replica) :
      a.pc = .probing ∨ a.pc = .locking ∨ a.pc = .unlocking → a.conn = some s →
      Forgets (afterFault sv a s f) a sv' b →
      (f.disconnect = true → ∀ n, sv'.lock ≠ some (s, n)) →
      Move sv a (.raises f) sv' { b with pc := a.pc.afterError }
  | connected (idle : Option SessionId) (sv' : Server) (a' : Replica) (s : SessionId) :
      a.pc = .connecting → Connects sv a sv' a' s →
      Move sv a (.connects idle) sv' { a' with conn := some s, pc := .locking }
  | checkout (idle : Option SessionId) (sv' : Server) (a' : Replica) (s : SessionId) :
      Connects sv a sv' a' s →
      Move sv a (.checkout idle) sv' { a' with busy := a'.busy ++ [s] }
  | giveBack (s : SessionId) (sv' : Server) (b : Replica) : s ∈ a.busy →
      checkin sv { a with busy := a.busy.erase s } s = (sv', b) →
      Move sv a (.giveBack s) sv' b

theorem not_lock_failed {sv : Server} {a : Replica} {s : SessionId} {f : Fault}
    (hf : f.disconnect = true) (n : ℕ) : (failed sv a s f).1.lock ≠ some (s, n) := by
  unfold failed
  dsimp only
  rw [if_pos hf]
  exact Server.not_holds_close _ s n

theorem move_of_answers {sv sv' : Server} {a b : Replica}
    (h : act sv a .answers = some (sv', b)) : Move sv a .answers sv' b := by
  simp only [act] at h
  split at h
  · rename_i s hpc hconn
    split at h
    · rename_i halive
      cases h
      exact .confirmed s hpc hconn halive
    · cases h
  · rename_i s hpc hconn
    split at h
    · rename_i halive
      rcases sv.tryLock_cases s with ⟨n, hfree, heq⟩ | ⟨⟨k, n, hlock, hne⟩, heq⟩
      · rw [heq] at h
        cases h
        exact .granted s n hpc hconn halive hfree heq
      · rw [heq] at h
        cases h
        exact .refused s k n _ _ hpc hconn hlock hne (reset_forgets sv a)
    · cases h
  · rename_i s hpc hconn
    split at h
    · rename_i halive
      cases h
      exact .unlocked s _ _ hpc hconn halive (reset_forgets _ a)
    · cases h
  · cases h

theorem move_of_raises {sv sv' : Server} {a b : Replica} {f : Fault}
    (h : act sv a (.raises f) = some (sv', b)) : Move sv a (.raises f) sv' b := by
  simp only [act] at h
  have hraised : ∀ s, a.pc = .probing ∨ a.pc = .locking ∨ a.pc = .unlocking →
      a.conn = some s → goto a.pc.afterError (failed sv a s f) = (sv', b) →
      Move sv a (.raises f) sv' b := by
    intro s hpc hconn heq
    cases heq
    exact .raised s f _ _ hpc hconn (failed_forgets f hconn) fun hf n => not_lock_failed hf n
  split at h
  · rename_i s hpc hconn
    exact hraised s (.inl hpc) hconn (Option.some.inj h)
  · rename_i s hpc hconn
    exact hraised s (.inr (.inl hpc)) hconn (Option.some.inj h)
  · rename_i s hpc hconn
    exact hraised s (.inr (.inr hpc)) hconn (Option.some.inj h)
  · cases h

theorem move_of_act {sv sv' : Server} {a b : Replica} {x : Action}
    (hpc : a.pc = .connecting → a.isLeader = false) (h : act sv a x = some (sv', b)) :
    Move sv a x sv' b := by
  cases x with
  | acquire =>
    simp only [act] at h
    split at h
    · rename_i y hy
      split at h
      · rename_i hlead
        cases h
        exact .probe y hy (by simp_all)
      · rename_i hlead
        cases h
        exact .reset _ _ _ _ (reset_forgets sv a) (by simp_all) (.inl ⟨rfl, y, hy⟩)
    · cases h
  | release =>
    simp only [act] at h
    split at h
    · rename_i y hy
      split at h
      · rename_i hlead
        cases h
        exact .unlock y hy (by simp_all)
      · rename_i hlead
        cases h
        exact .reset _ _ _ _ (reset_forgets sv a)
          (fun hl => by simpa [hl] using hlead) (.inr (.inr rfl))
    · cases h
  | answers => exact move_of_answers h
  | raises f => exact move_of_raises h
  | connects idle =>
    simp only [act] at h
    split at h
    · rename_i hc
      obtain ⟨⟨sv₁, a', s⟩, hconn, heq⟩ := Option.map_eq_some_iff.mp h
      cases heq
      exact .connected idle _ a' s hc (connects_of_connect hconn)
    · cases h
  | connectFails =>
    simp only [act] at h
    split at h
    · rename_i hc
      cases h
      exact .reset _ _ _ _ (reset_forgets sv a) (fun hl => by rw [hpc hc] at hl; cases hl)
        (.inr (.inl rfl))
    · cases h
  | checkout idle =>
    obtain ⟨⟨sv₁, a', s⟩, hconn, heq⟩ := Option.map_eq_some_iff.mp h
    cases heq
    exact .checkout idle _ a' s (connects_of_connect hconn)
  | giveBack s =>
    simp only [act] at h
    split at h
    · rename_i hs
      exact .giveBack s sv' b hs (Option.some.inj h)
    · cases h

/-! ### The invariant of one replica -/

/- While the session of a leader lives, it holds the lock. -/
structure Local (sv : Server) (a : Replica) : Prop where
  owned : ∀ s, a.Owns s → s < sv.opened
  leads : a.isLeader = true → ∃ s, a.conn = some s ∧ (s ∈ sv.alive → sv.Holds s)
  connecting : a.pc = .connecting → a.isLeader = false ∧ a.conn = none
  locking : a.pc = .locking → a.isLeader = false ∧ ∃ s, a.conn = some s
  leading : a.pc = .probing ∨ a.pc = .unlocking → a.isLeader = true
  answered : ∀ x, a.pc = .returned x → a.isLeader = true → x = some (.acquired true)

/- Leader without a session: what _reset leaves, in a state that waits for no statement. -/
theorem local_forgets {sv sv' : Server} {a b : Replica} {pc : Pc} (h : Forgets sv a sv' b)
    (howned : ∀ s, b.Owns s → s < sv'.opened)
    (hpc : pc ≠ .probing ∧ pc ≠ .locking ∧ pc ≠ .unlocking) : Local sv' { b with pc := pc } where
  owned := howned
  leads := fun hl => by rw [h.isLeader] at hl; cases hl
  connecting := fun _ => ⟨h.isLeader, h.conn⟩
  locking := fun hl => absurd hl hpc.2.1
  leading := fun hl => by
    rcases hl with hl | hl
    · exact absurd hl hpc.1
    · exact absurd hl hpc.2.2
  answered := fun x _ hl => by rw [h.isLeader] at hl; cases hl

theorem Frame.owned {sv sv' : Server} {a b : Replica} (h : Frame sv a sv' b)
    (hold : ∀ s, a.Owns s → s < sv.opened) (s : SessionId) (hs : b.Owns s) : s < sv'.opened := by
  rcases h.owns s hs with hs | ⟨rfl, hlt⟩
  · exact lt_of_lt_of_le (hold s hs) h.opened
  · exact hlt

/- Only the pool of the replica and the server have changed. -/
theorem Local.of_eq {sv sv' : Server} {a b : Replica} (h : Local sv a)
    (howned : ∀ s, b.Owns s → s < sv'.opened) (hl : b.isLeader = a.isLeader)
    (hc : b.conn = a.conn) (hp : b.pc = a.pc)
    (hhold : ∀ s, a.conn = some s → (s ∈ sv.alive → sv.Holds s) → s ∈ sv'.alive → sv'.Holds s) :
    Local sv' b := by
  refine ⟨howned, fun hlead => ?_, ?_, ?_, ?_, ?_⟩
  · obtain ⟨s, hs, hold⟩ := h.leads (hl.symm.trans hlead)
    exact ⟨s, hc.trans hs, hhold s hs hold⟩
  · rw [hl, hc, hp]
    exact h.connecting
  · rw [hl, hc, hp]
    exact h.locking
  · rw [hl, hp]
    exact h.leading
  · rw [hl, hp]
    exact h.answered

theorem checkin_keeps {sv sv' : Server} {a b : Replica} {s : SessionId}
    (h : checkin sv a s = (sv', b)) :
    b.isLeader = a.isLeader ∧ b.conn = a.conn ∧ b.pc = a.pc := by
  unfold checkin at h
  split at h <;> cases h <;> exact ⟨rfl, rfl, rfl⟩

theorem Move.frame {sv sv' : Server} {a b : Replica} {x : Action} (h : Move sv a x sv' b) :
    Frame sv a sv' b := by
  cases h with
  | probe | unlock | confirmed =>
    exact ⟨le_rfl, fun _ hs => .inl hs, fun _ _ _ => Iff.rfl, fun _ _ _ => Iff.rfl⟩
  | reset x pc sv' b hf => exact hf.frame.goto pc
  | granted s n hpc hconn halive hfree heq =>
    refine frame_of_same s (.inl hconn) rfl (fun s' hne => ?_) fun s' h => h
    have hsame := sv.same_tryLock hne
    rw [heq] at hsame
    exact hsame
  | refused s k n sv' b hpc hconn hlock hne hf => exact hf.frame.goto _
  | unlocked s sv' b hpc hconn halive hf =>
    have hunlock : Frame sv a (sv.unlock s) a := frame_execute .unlocking hconn
    exact (hunlock.trans hf.frame (opened_execute sv .unlocking s)).goto _
  | raised s f sv' b hpc hconn hf =>
    exact ((frame_afterFault f hconn).trans hf.frame (opened_afterFault sv a s f)).goto _
  | connected idle sv' a' s hpc hconn =>
    refine hconn.frame _ fun q hq => ?_
    rcases hq with hq | hq
    · exact .inl (Option.some.inj hq).symm
    · exact .inr (.inr hq)
  | checkout idle sv' a' s hconn =>
    refine hconn.frame _ fun q hq => ?_
    rcases hq with hq | hq | hq
    · exact .inr (.inl hq)
    · exact .inr (.inr (.inl hq))
    · rcases List.mem_append.mp hq with hq | hq
      · exact .inr (.inr (.inr hq))
      · exact .inl (List.mem_singleton.mp hq)
  | giveBack s sv' b hs heq =>
    have h : Frame sv a (checkin sv { a with busy := a.busy.erase s } s).1
        (checkin sv { a with busy := a.busy.erase s } s).2 := by
      refine frame_checkin (.inr (.inr hs)) fun s' h => ?_
      rcases h with h | h | h
      · exact .inl h
      · exact .inr (.inl h)
      · exact .inr (.inr (List.mem_of_mem_erase h))
    rw [heq] at h
    exact h

/- A session closed by the pool is no longer alive, whoever uses it. -/
theorem leads_checkin {sv sv' : Server} {a b : Replica} {s s' : SessionId}
    (h : checkin sv a s = (sv', b)) (hold : s' ∈ sv.alive → sv.Holds s')
    (halive : s' ∈ sv'.alive) : sv'.Holds s' := by
  unfold checkin at h
  split at h
  · cases h
    exact hold halive
  · cases h
    exact (sv.same_close (Server.ne_of_alive_close halive)).holds hold halive

theorem afterError_cases {pc : Pc} (h : pc = .probing ∨ pc = .locking ∨ pc = .unlocking) :
    pc.afterError ≠ .probing ∧ pc.afterError ≠ .locking ∧ pc.afterError ≠ .unlocking := by
  rcases h with rfl | rfl | rfl <;> decide

theorem Move.keeps_local {sv sv' : Server} {a b : Replica} {x : Action} (h : Move sv a x sv' b)
    (ha : Local sv a) : Local sv' b := by
  have howned := h.frame.owned ha.owned
  cases h with
  | probe y hy hl =>
    exact ⟨howned, ha.leads, nofun, nofun, fun _ => hl, nofun⟩
  | unlock y hy hl =>
    exact ⟨howned, ha.leads, nofun, nofun, fun _ => hl, nofun⟩
  | reset x pc sv' b hf hl hpc =>
    refine local_forgets hf howned ?_
    rcases hpc with ⟨rfl, -⟩ | rfl | rfl <;> decide
  | confirmed s hpc hconn halive =>
    exact ⟨howned, ha.leads, nofun, nofun, nofun, fun x hx _ => (Pc.returned.inj hx).symm⟩
  | granted s n hpc hconn halive hfree heq =>
    exact ⟨howned, fun _ => ⟨s, hconn, fun _ => ⟨n + 1, rfl⟩⟩, nofun, nofun, nofun,
      fun x hx _ => (Pc.returned.inj hx).symm⟩
  | refused s k n sv' b hpc hconn hlock hne hf =>
    exact local_forgets hf howned (by decide)
  | unlocked s sv' b hpc hconn halive hf =>
    exact local_forgets hf howned (by decide)
  | raised s f sv' b hpc hconn hf =>
    exact local_forgets hf howned (afterError_cases hpc)
  | connected idle sv' a' s hpc hconn =>
    have hlead : a'.isLeader = false := by
      rw [hconn.isLeader]
      exact (ha.connecting hpc).1
    refine ⟨howned, fun hl => ?_, nofun, fun _ => ⟨hlead, s, rfl⟩, nofun, nofun⟩
    rw [hlead] at hl
    cases hl
  | checkout idle sv' a' s hconn =>
    refine ha.of_eq howned hconn.isLeader hconn.conn hconn.pc fun s' hs' hhold halive => ?_
    exact (hconn.same s' (ha.owned s' (.inl hs'))).holds hhold halive
  | giveBack s sv' b hs heq =>
    obtain ⟨hl, hc, hp⟩ := checkin_keeps heq
    exact ha.of_eq howned hl hc hp fun s' _ hhold halive => leads_checkin heq hhold halive

/-! ### Any number of replicas -/

structure Sound (st : State) : Prop where
  each : ∀ r, Local st.server (st.replica r)
  disjoint : ∀ r q s, (st.replica r).Owns s → (st.replica q).Owns s → r = q

theorem step_cases {st st' : State} {l : Label} (hs : Sound st) (h : step st l = some st') :
    (∃ r x sv b, l = .act r x ∧ Move st.server (st.replica r) x sv b ∧
      st' = { server := sv, replica := Function.update st.replica r b }) ∨
    ∃ s, l = .kill s ∧ st' = { st with server := st.server.close s } := by
  cases l with
  | act r x =>
    obtain ⟨⟨sv, b⟩, hact, heq⟩ := Option.map_eq_some_iff.mp h
    exact .inl ⟨r, x, sv, b, rfl, move_of_act (fun hpc => ((hs.each r).connecting hpc).1) hact,
      heq.symm⟩
  | kill s => exact .inr ⟨s, rfl, (Option.some.inj h).symm⟩

theorem sound_start : Sound start where
  each := fun r => {
    owned := fun s hs => by rcases hs with hs | hs | hs <;> cases hs
    leads := nofun
    connecting := nofun
    locking := nofun
    leading := fun h => by rcases h with h | h <;> cases h
    answered := nofun }
  disjoint := fun r q s hs => by rcases hs with hs | hs | hs <;> cases hs

theorem Sound.step {st st' : State} {l : Label} (hs : Sound st)
    (h : Leader.step st l = some st') : Sound st' := by
  rcases step_cases hs h with ⟨r, x, sv, b, rfl, hmove, rfl⟩ | ⟨s, rfl, rfl⟩
  · have hframe := hmove.frame
    -- a session of another replica is neither a session of r nor the new one
    have hother : ∀ q s, q ≠ r → (st.replica q).Owns s → ¬ (st.replica r).Owns s :=
      fun q s hne hq hr => hne (hs.disjoint q r s hq hr)
    have hfresh : ∀ q s, q ≠ r → (st.replica q).Owns s → ¬ b.Owns s := by
      intro q s hne hq hb
      rcases hframe.owns s hb with hr | ⟨rfl, -⟩
      · exact hother q s hne hq hr
      · exact lt_irrefl _ ((hs.each q).owned _ hq)
    refine ⟨fun q => ?_, fun q p s hq hp => ?_⟩
    · by_cases hqr : q = r
      · subst hqr
        simp only [Function.update_self]
        exact hmove.keeps_local (hs.each q)
      · simp only [Function.update_of_ne hqr]
        refine (hs.each q).of_eq (fun s hq => ?_) rfl rfl rfl fun s hconn hhold halive => ?_
        · exact lt_of_lt_of_le ((hs.each q).owned s hq) hframe.opened
        · have hno := hother q s hqr (.inl hconn)
          have hlt := (hs.each q).owned s (.inl hconn)
          exact (hframe.same hno hlt).holds hhold halive
    · by_cases hqr : q = r <;> by_cases hpr : p = r
      · rw [hqr, hpr]
      · subst hqr
        simp only [Function.update_self, Function.update_of_ne hpr] at hq hp
        exact absurd hq (hfresh p s hpr hp)
      · subst hpr
        simp only [Function.update_self, Function.update_of_ne hqr] at hq hp
        exact absurd hp (hfresh q s hqr hq)
      · simp only [Function.update_of_ne hqr, Function.update_of_ne hpr] at hq hp
        exact hs.disjoint q p s hq hp
  · refine ⟨fun q => ?_, hs.disjoint⟩
    refine (hs.each q).of_eq (hs.each q).owned rfl rfl rfl fun s' _ hhold halive => ?_
    exact (st.server.same_close (Server.ne_of_alive_close halive)).holds hhold halive

/-! ### One leader -/

/- A step in which the acquire() of replica r returns. -/
def Completes (st st' : State) (r : ReplicaId) (leader : Bool) : Prop :=
  (∀ x, (st.replica r).pc ≠ .returned x) ∧
    (st'.replica r).pc = .returned (some (.acquired leader))

/- The statements a call of the replica still waits for, at most. -/
def Pc.rank : Pc → ℕ
  | .returned _ => 0
  | .locking | .unlocking => 1
  | .connecting => 2
  | .probing => 3

/- The actions of the Leader object; the others are those of the rest of the process. -/
def Action.ofLeader : Action → Bool
  | .checkout _ | .giveBack _ => false
  | _ => true

structure SingleLeader (st : State) : Prop where
  holds : ∀ l st' r, step st l = some st' → Completes st st' r true →
    ∃ s, (st'.replica r).conn = some s ∧ s ∈ st'.server.alive ∧ st'.server.Holds s
  unique : ∀ r q s s', (st.replica r).isLeader = true → (st.replica r).conn = some s →
    s ∈ st.server.alive → (st.replica q).isLeader = true → (st.replica q).conn = some s' →
    s' ∈ st.server.alive → r = q
  standby : ∀ l st' r q s leader, step st l = some st' → Completes st st' r leader → q ≠ r →
    (st'.replica q).Owns s → st'.server.Holds s → leader = false
  returns : ∀ r, (∀ x, (st.replica r).pc ≠ .returned x) →
    (∃ x st', x.ofLeader = true ∧ step st (.act r x) = some st') ∧
    ∀ x st', x.ofLeader = true → step st (.act r x) = some st' →
      (st'.replica r).pc.rank < (st.replica r).pc.rank

theorem Server.Holds.unique {sv : Server} {s s' : SessionId} (h : sv.Holds s)
    (h' : sv.Holds s') : s = s' := by
  obtain ⟨n, hn⟩ := h
  obtain ⟨m, hm⟩ := h'
  rw [hn] at hm
  cases hm
  rfl

theorem Move.confirms {sv sv' : Server} {a b : Replica} {x : Action} (h : Move sv a x sv' b)
    (ha : Local sv a) (hpc : ∀ y, a.pc ≠ .returned y)
    (hb : b.pc = .returned (some (.acquired true))) :
    ∃ s, b.conn = some s ∧ s ∈ sv'.alive ∧ sv'.Holds s := by
  cases h with
  | probe y hy | unlock y hy => exact absurd hy (hpc y)
  | reset x pc sv' b hf hl hp =>
    cases hb
    rcases hp with ⟨hp, -⟩ | hp | hp <;> cases hp
  | confirmed s hp hconn halive =>
    obtain ⟨s', hs', hhold⟩ := ha.leads (ha.leading (.inl hp))
    rw [hconn] at hs'
    cases hs'
    exact ⟨s, hconn, halive, hhold halive⟩
  | granted s n hp hconn halive hfree heq => exact ⟨s, hconn, halive, n + 1, rfl⟩
  | refused | unlocked => cases hb
  | raised s f sv' b hp hconn hf =>
    rcases hp with hp | hp | hp <;> simp [hp, Pc.afterError] at hb
  | connected => cases hb
  | checkout idle sv' a' s hconn => exact absurd (hconn.pc.symm.trans hb) (hpc _)
  | giveBack s sv' b hs heq => exact absurd ((checkin_keeps heq).2.2.symm.trans hb) (hpc _)

theorem Sound.confirms {st st' : State} {l : Label} {r : ReplicaId} (hs : Sound st)
    (h : Leader.step st l = some st') (hc : Completes st st' r true) :
    ∃ s, (st'.replica r).conn = some s ∧ s ∈ st'.server.alive ∧ st'.server.Holds s := by
  rcases step_cases hs h with ⟨q, x, sv, b, rfl, hmove, rfl⟩ | ⟨s, rfl, rfl⟩
  · by_cases hqr : r = q
    · subst hqr
      have hb := hc.2
      simp only [Function.update_self] at hb ⊢
      exact hmove.confirms (hs.each r) hc.1 hb
    · have hb := hc.2
      simp only [Function.update_of_ne hqr] at hb
      exact absurd hb (hc.1 _)
  · exact absurd hc.2 (hc.1 _)

theorem rank_pos {pc : Pc} (h : ∀ x, pc ≠ .returned x) : 0 < pc.rank := by
  cases pc with
  | returned x => exact absurd rfl (h x)
  | _ => decide

theorem Move.rank_lt {sv sv' : Server} {a b : Replica} {x : Action} (h : Move sv a x sv' b)
    (hx : x.ofLeader = true) (hpc : ∀ y, a.pc ≠ .returned y) : b.pc.rank < a.pc.rank := by
  have hpos := rank_pos hpc
  cases h with
  | probe y hy | unlock y hy => exact absurd hy (hpc y)
  | reset x pc sv' b hf hl hp =>
    rcases hp with ⟨-, y, hy⟩ | rfl | rfl
    · exact absurd hy (hpc y)
    · exact hpos
    · exact hpos
  | confirmed | granted | refused | unlocked => exact hpos
  | raised s f sv' b hp hconn hf =>
    rcases hp with hp | hp | hp <;> simp [hp, Pc.afterError, Pc.rank]
  | connected idle sv' a' s hp hconn =>
    simp [hp, Pc.rank]
  | checkout | giveBack => cases hx

theorem exists_act {sv : Server} {a : Replica} (ha : Local sv a)
    (hpc : ∀ y, a.pc ≠ .returned y) : ∃ x p, x.ofLeader = true ∧ act sv a x = some p := by
  -- every statement may raise, and so may connect
  have hraises : ∀ s, a.conn = some s → a.pc = .probing ∨ a.pc = .locking ∨ a.pc = .unlocking →
      ∃ x p, x.ofLeader = true ∧ act sv a x = some p := by
    intro s hconn hp
    refine ⟨.raises ⟨false, false⟩, goto a.pc.afterError (failed sv a s ⟨false, false⟩), rfl, ?_⟩
    rcases hp with hp | hp | hp <;> simp only [act, hconn, hp]
  cases hp : a.pc with
  | returned y => exact absurd hp (hpc y)
  | connecting =>
    exact ⟨.connectFails, goto (.returned (some (.acquired false))) (reset sv a), rfl,
      by simp only [act, hp]⟩
  | locking =>
    obtain ⟨-, s, hconn⟩ := ha.locking hp
    exact hraises s hconn (.inr (.inl hp))
  | probing =>
    obtain ⟨s, hconn, -⟩ := ha.leads (ha.leading (.inl hp))
    exact hraises s hconn (.inl hp)
  | unlocking =>
    obtain ⟨s, hconn, -⟩ := ha.leads (ha.leading (.inr hp))
    exact hraises s hconn (.inr (.inr hp))

theorem Sound.singleLeader {st : State} (hs : Sound st) : SingleLeader st where
  holds := fun l st' r h hc => hs.confirms h hc
  unique := by
    intro r q s s' hr hconnr haliver hq hconnq haliveq
    obtain ⟨x, hx, hholdr⟩ := (hs.each r).leads hr
    obtain ⟨y, hy, hholdq⟩ := (hs.each q).leads hq
    rw [hconnr] at hx
    rw [hconnq] at hy
    cases hx
    cases hy
    have heq := (hholdr haliver).unique (hholdq haliveq)
    subst heq
    exact hs.disjoint r q s (.inl hconnr) (.inl hconnq)
  standby := by
    intro l st' r q s leader h hc hne howns hhold
    cases leader with
    | false => rfl
    | true =>
      obtain ⟨s', hconn, -, hhold'⟩ := hs.confirms h hc
      have heq := hhold.unique hhold'
      subst heq
      exact absurd ((hs.step h).disjoint q r s howns (.inl hconn)) hne
  returns := by
    intro r hpc
    constructor
    · obtain ⟨x, p, hx, hact⟩ := exists_act (hs.each r) hpc
      exact ⟨x, ⟨p.1, Function.update st.replica r p.2⟩, hx,
        by simp only [Leader.step, hact, Option.map_some]⟩
    · intro x st' hx h
      rcases step_cases hs h with ⟨q, y, sv, b, hl, hmove, rfl⟩ | ⟨s, hl, -⟩
      · cases hl
        simp only [Function.update_self]
        exact hmove.rank_lt hx hpc
      · cases hl

/- Whenever acquire() returns True the session behind `_conn` holds the lock. -/
theorem singleLeader_visits (ls : List Label) : Machine.Visits step SingleLeader start ls :=
  Machine.visits_of_invariant (fun _ _ _ hs _ h => hs.step h) (fun _ hs => hs.singleLeader)
    sound_start (Machine.along_true start ls)

/-! ### A lock that nobody uses -/

/- When a statement that raises leaves no lock on a session that goes back to the pool:
the session ends with the error or is dead already, or the lock was not taken, or it was
given back before the error. -/
def clears (sv : Server) (a : Replica) : Action → Bool
  | .raises f =>
    f.disconnect || a.conn.all fun s => !decide (s ∈ sv.alive) ||
      match a.pc with
      | .probing => false
      | .locking => !f.executed || sv.lock.any (·.1 ≠ s)
      | _ => f.executed
  | _ => true

def Clears (st : State) : Label → Prop
  | .act r x => clears st.server (st.replica r) x = true
  | .kill _ => True

instance (st : State) (l : Label) : Decidable (Clears st l) := by
  cases l <;> unfold Clears <;> infer_instance

/- After an acquire() that returned False and after a release() the replica keeps no lock,
and without a leader whose session lives every replica can win an election. -/
structure NotStranded (st : State) : Prop where
  free : ∀ r x, (st.replica r).pc = .returned (some x) → x ≠ .acquired true →
    ∀ s, (st.replica r).Owns s → ¬ st.server.Holds s
  winnable : (∀ r s, (st.replica r).isLeader = true → (st.replica r).conn = some s →
      s ∉ st.server.alive) → ∀ r x, (st.replica r).pc = .returned x →
    ∃ (xs : List Action) (st' : State), Machine.run step st (xs.map (.act r)) = some st' ∧
      (st'.replica r).pc = .returned (some (.acquired true))

/- The lock is held once, by the session of a leader. -/
def Kept (st : State) : Prop :=
  ∀ s n, st.server.lock = some (s, n) → n = 1 ∧ s ∈ st.server.alive ∧
    ∃ r, (st.replica r).isLeader = true ∧ (st.replica r).conn = some s

/- The same for the sessions of one replica. -/
def Keeps (sv : Server) (a : Replica) : Prop :=
  ∀ s n, a.Owns s → sv.lock = some (s, n) →
    n = 1 ∧ s ∈ sv.alive ∧ a.isLeader = true ∧ a.conn = some s

theorem Keeps.unlock {sv : Server} {a : Replica} {s s' : SessionId} {n : ℕ} (h : Keeps sv a)
    (hconn : a.conn = some s) (hs' : a.Owns s') : (sv.unlock s).lock ≠ some (s', n) := by
  intro hlock
  cases hl : sv.lock with
  | none =>
    rw [Server.unlock, hl] at hlock
    simp only [hl] at hlock
    cases hlock
  | some p =>
    obtain ⟨k, m⟩ := p
    simp only [Server.unlock, hl] at hlock
    split at hlock
    · rename_i hk
      obtain ⟨hm, -⟩ := h k m (hk ▸ .inl hconn) hl
      simp [hm] at hlock
    · rename_i hk
      rw [hl] at hlock
      cases hlock
      obtain ⟨-, -, -, hconn'⟩ := h s' n hs' hl
      rw [hconn] at hconn'
      exact hk (Option.some.inj hconn').symm

theorem Keeps.afterFault {sv : Server} {a : Replica} {s s' : SessionId} {n : ℕ} {f : Fault}
    (h : Keeps sv a) (ha : Local sv a) (hconn : a.conn = some s)
    (hpc : a.pc = .probing ∨ a.pc = .locking ∨ a.pc = .unlocking)
    (hclears : clears sv a (.raises f) = true) (hf : f.disconnect = false) (hs' : a.Owns s') :
    (Leader.afterFault sv a s f).lock ≠ some (s', n) := by
  intro hlock
  -- without the effect of the statement: s' is the live session of a leader
  have hsv : ∀ {m : ℕ}, sv.lock = some (s', m) → s ∈ sv.alive ∧ a.isLeader = true := by
    intro m hl
    obtain ⟨-, halive, hlead, hconn'⟩ := h s' m hs' hl
    rw [hconn] at hconn'
    cases hconn'
    exact ⟨halive, hlead⟩
  simp only [clears, hf, hconn, Option.all_some, Bool.false_or] at hclears
  unfold Leader.afterFault at hlock
  by_cases halive : s ∈ sv.alive
  · simp only [halive, decide_true, Bool.not_true, Bool.false_or, Bool.and_true] at hclears hlock
    rcases hpc with hp | hp | hp
    · rw [hp] at hclears
      cases hclears
    · have hlead := (ha.locking hp).1
      simp only [hp] at hclears hlock
      split at hlock
      · rename_i hex
        rcases sv.tryLock_cases s with ⟨m, hfree, heq⟩ | ⟨-, heq⟩
        · rcases hfree with ⟨hnone, -⟩ | ⟨k, hk⟩
          · simp [hex, hnone] at hclears
          · simp [hex, hk] at hclears
        · simp only [execute, heq] at hlock
          rw [(hsv hlock).2] at hlead
          cases hlead
      · rw [(hsv hlock).2] at hlead
        cases hlead
    · simp only [hp] at hclears hlock
      rw [if_pos hclears] at hlock
      exact h.unlock hconn hs' hlock
  · simp only [halive, decide_false, Bool.and_false, Bool.false_eq_true, if_false] at hlock
    exact halive (hsv hlock).1

theorem Move.keeps {sv sv' : Server} {a b : Replica} {x : Action} (h : Move sv a x sv' b)
    (ha : Local sv a) (hkeeps : Keeps sv a) (hclears : clears sv a x = true) {s : SessionId}
    {n : ℕ} (hs : a.Owns s) (hlock : sv'.lock = some (s, n)) :
    n = 1 ∧ s ∈ sv'.alive ∧ b.isLeader = true ∧ b.conn = some s := by
  cases h with
  | probe | unlock | confirmed => exact hkeeps s n hs hlock
  | reset x pc sv' b hf hl hp =>
    obtain ⟨-, -, hlead, hconn⟩ := hkeeps s n hs (hf.lock _ hlock)
    rw [hl hlead] at hconn
    cases hconn
  | granted s' m hp hconn halive hfree heq =>
    cases hlock
    rcases hfree with ⟨-, rfl⟩ | ⟨k, hk⟩
    · exact ⟨rfl, halive, rfl, hconn⟩
    · have hlead := (hkeeps s k hs hk).2.2.1
      rw [(ha.locking hp).1] at hlead
      cases hlead
  | refused s' k m sv' b hp hconn hl hne hf =>
    have hlead := (hkeeps s n hs (hf.lock _ hlock)).2.2.1
    rw [(ha.locking hp).1] at hlead
    cases hlead
  | unlocked s' sv' b hp hconn halive hf =>
    exact absurd (hf.lock _ hlock) (hkeeps.unlock hconn hs)
  | raised s' f sv' b hp hconn hf hdis =>
    cases hfd : f.disconnect with
    | false => exact absurd (hf.lock _ hlock) (hkeeps.afterFault ha hconn hp hclears hfd hs)
    | true =>
      -- the session of the statement has ended, and no other one is checked out by Leader
      have hne : s ≠ s' := by
        rintro rfl
        exact hdis hfd n hlock
      have hold : sv.lock = some (s, n) := by
        have hl := hf.lock _ hlock
        unfold Leader.afterFault at hl
        split at hl
        · exact ((same_execute sv a.pc hne).2 n).mp hl
        · exact hl
      have hconn' := (hkeeps s n hs hold).2.2.2
      rw [hconn] at hconn'
      exact absurd (Option.some.inj hconn').symm hne
  | connected idle sv' a' s' hp hconn =>
    rw [hconn.lock] at hlock
    have hlead := (hkeeps s n hs hlock).2.2.1
    rw [(ha.connecting hp).1] at hlead
    cases hlead
  | checkout idle sv' a' s' hconn =>
    rw [hconn.lock] at hlock
    obtain ⟨hn, halive, hlead, hc⟩ := hkeeps s n hs hlock
    exact ⟨hn, (hconn.same s (ha.owned s hs)).1.mpr halive, hconn.isLeader.trans hlead,
      hconn.conn.trans hc⟩
  | giveBack s' sv' b hs' heq =>
    have hold : sv.lock = some (s, n) := by
      refine lock_checkin (a := { a with busy := a.busy.erase s' }) (s := s') ?_
      rw [heq]
      exact hlock
    obtain ⟨hn, halive, hlead, hc⟩ := hkeeps s n hs hold
    obtain ⟨hl', hc', -⟩ := checkin_keeps heq
    refine ⟨hn, ?_, hl'.trans hlead, hc'.trans hc⟩
    unfold checkin at heq
    split at heq
    · cases heq
      exact halive
    · cases heq
      exact (sv.same_close (Server.ne_of_lock_close hlock)).1.mpr halive

theorem Kept.keeps {st : State} (hk : Kept st) (hs : Sound st) (r : ReplicaId) :
    Keeps st.server (st.replica r) := by
  intro s n howns hlock
  obtain ⟨hn, halive, q, hlead, hconn⟩ := hk s n hlock
  have hqr := hs.disjoint q r s (.inl hconn) howns
  subst hqr
  exact ⟨hn, halive, hlead, hconn⟩

theorem Kept.step {st st' : State} {l : Label} (hk : Kept st) (hs : Sound st)
    (hclears : Clears st l) (h : Leader.step st l = some st') : Kept st' := by
  rcases step_cases hs h with ⟨r, x, sv, b, rfl, hmove, rfl⟩ | ⟨s', rfl, rfl⟩
  · intro s n hlock
    by_cases howns : (st.replica r).Owns s
    · obtain ⟨hn, halive, hlead, hconn⟩ :=
        hmove.keeps (hs.each r) (hk.keeps hs r) hclears howns hlock
      refine ⟨hn, halive, r, ?_⟩
      simp only [Function.update_self]
      exact ⟨hlead, hconn⟩
    · have hframe := hmove.frame
      obtain ⟨hn, halive, q, hlead, hconn⟩ := hk s n ((hframe.lock s n howns).mp hlock)
      have hqr : q ≠ r := by
        rintro rfl
        exact howns (.inl hconn)
      have hlt := (hs.each q).owned s (.inl hconn)
      refine ⟨hn, (hframe.alive s howns hlt).mpr halive, q, ?_⟩
      simp only [Function.update_of_ne hqr]
      exact ⟨hlead, hconn⟩
  · intro s n hlock
    have hsame := st.server.same_close (Server.ne_of_lock_close hlock)
    obtain ⟨hn, halive, hq⟩ := hk s n ((hsame.2 n).mp hlock)
    exact ⟨hn, hsame.1.mpr halive, hq⟩

/- The lock is free and the replica is about to connect. -/
theorem wins_of_connecting {st : State} {r : ReplicaId} (hpc : (st.replica r).pc = .connecting)
    (hlock : st.server.lock = none) :
    ∃ st', Machine.run step st [.act r (.connects none), .act r .answers] = some st' ∧
      (st'.replica r).pc = .returned (some (.acquired true)) := by
  simp [Machine.run, step, act, hpc, connect, Server.connect, Server.tryLock, hlock]

theorem lock_none {sv sv' : Server} {a b : Replica} (h : Forgets sv a sv' b)
    (hlock : sv.lock = none) : sv'.lock = none := by
  cases hl : sv'.lock with
  | none => rfl
  | some p =>
    rw [h.lock p hl] at hlock
    cases hlock

theorem wins {st : State} {r : ReplicaId} {x : Option Answer} (hs : Sound st)
    (hpc : (st.replica r).pc = .returned x) (hlock : st.server.lock = none) :
    ∃ (xs : List Action) (st' : State), Machine.run step st (xs.map (.act r)) = some st' ∧
      (st'.replica r).pc = .returned (some (.acquired true)) := by
  cases hlead : (st.replica r).isLeader with
  | false =>
    -- never leader or lost the lock: acquire resets and connects
    let p := goto .connecting (reset st.server (st.replica r))
    let u : State := { server := p.1, replica := Function.update st.replica r p.2 }
    have hu : step st (.act r .acquire) = some u := by
      simp only [step, act, hpc, hlead, Bool.false_and, Bool.false_eq_true, if_false,
        Option.map_some]
      rfl
    have hconnecting : (u.replica r).pc = .connecting := by simp [u, p, goto]
    obtain ⟨st', hrun, hst'⟩ := wins_of_connecting hconnecting
      (lock_none (reset_forgets st.server (st.replica r)) hlock)
    exact ⟨[.acquire, .connects none, .answers], st', Machine.run_cons.mpr ⟨u, hu, hrun⟩, hst'⟩
  | true =>
    -- the probe finds the session gone
    obtain ⟨s, hconn, -⟩ := (hs.each r).leads hlead
    let a : Replica :=
      { isLeader := true, conn := some s, idle := (st.replica r).idle,
        busy := (st.replica r).busy, pc := .probing }
    let p := goto .connecting (failed st.server a s ⟨false, true⟩)
    let u : State := { server := st.server, replica := Function.update st.replica r a }
    let v : State := { server := p.1, replica := Function.update u.replica r p.2 }
    have hu : step st (.act r .acquire) = some u := by
      simp only [step, act, hpc, hlead, hconn, Option.isSome_some, Bool.true_and, if_true,
        Option.map_some]
      rfl
    have hv : step u (.act r (.raises ⟨false, true⟩)) = some v := by
      simp only [step, act, u, a, Function.update_self, Option.map_some]
      rfl
    have hconnecting : (v.replica r).pc = .connecting := by simp [v, p, goto]
    obtain ⟨st', hrun, hst'⟩ := wins_of_connecting hconnecting
      (lock_none (failed_forgets (a := a) ⟨false, true⟩ rfl) hlock)
    exact ⟨[.acquire, .raises ⟨false, true⟩, .connects none, .answers], st',
      Machine.run_cons.mpr ⟨u, hu, Machine.run_cons.mpr ⟨v, hv, hrun⟩⟩, hst'⟩

theorem Kept.notStranded {st : State} (hk : Kept st) (hs : Sound st) : NotStranded st where
  free := by
    rintro r x hpc hx s howns ⟨n, hlock⟩
    have hlead := (hk.keeps hs r s n howns hlock).2.2.1
    exact hx (Option.some.inj ((hs.each r).answered _ hpc hlead))
  winnable := by
    intro hdead r x hpc
    refine wins hs hpc ?_
    cases hl : st.server.lock with
    | none => rfl
    | some p =>
      obtain ⟨s, n⟩ := p
      obtain ⟨-, halive, q, hlead, hconn⟩ := hk s n hl
      exact absurd halive (hdead q s hlead hconn)

/- Where every statement that raises leaves no lock behind, no lock is ever stranded. -/
theorem notStranded_visits {ls : List Label} (h : Machine.Along step Clears start ls) :
    Machine.Visits step NotStranded start ls :=
  Machine.visits_of_invariant (I := fun st => Sound st ∧ Kept st)
    (fun _ _ _ hs hc hstep => ⟨hs.1.step hstep, hs.2.step hs.1 hc hstep⟩)
    (fun _ hs => hs.2.notStranded hs.1) ⟨sound_start, nofun⟩ h

/- Two elections with a failover by a dead session, a refused standby, a lock statement and
an unlock that raise after a disconnect. -/
def election : List Label :=
  [.act 0 .acquire, .act 0 (.connects none), .act 0 .answers,
    .act 1 .acquire, .act 1 (.connects none), .act 1 .answers,
    .kill 0, .act 1 .acquire, .act 1 (.connects (some 1)), .act 1 .answers,
    .act 0 .acquire, .act 0 (.raises ⟨false, true⟩), .act 0 (.connects none),
    .act 0 (.raises ⟨true, true⟩), .act 1 .release, .act 1 (.raises ⟨false, true⟩)]

theorem notStranded_visits_election : Machine.Visits step NotStranded start election :=
  notStranded_visits (by decide)

/- SELECT 1 raises without a disconnect. The session goes back to the pool with the lock and
is taken from there again, now with the lock twice; release gives it back once. -/
def stranding : List Label :=
  [.act 0 .acquire, .act 0 (.connects none), .act 0 .answers,
    .act 0 .acquire, .act 0 (.raises ⟨false, false⟩), .act 0 (.connects (some 0)),
    .act 0 .answers, .act 0 .release, .act 0 .answers]

theorem stranded_by_probe :
    ¬ ∀ ls : List Label, Machine.Visits step NotStranded start ls := by
  intro h
  have hall : (Machine.run step start stranding).any (fun st =>
      decide ((st.replica 0).pc = .returned (some .released)) &&
        decide ((st.replica 0).Owns 0) && decide (st.server.lock = some (0, 1))) = true := by
    decide
  obtain ⟨st, hrun, hall⟩ := (Option.any_eq_true _ _).mp hall
  simp only [Bool.and_eq_true, decide_eq_true_eq] at hall
  obtain ⟨⟨hpc, howns⟩, hlock⟩ := hall
  exact ((h stranding).last hrun).free 0 .released hpc (by decide) 0 howns ⟨1, hlock⟩

end JobScheduler.Leader
