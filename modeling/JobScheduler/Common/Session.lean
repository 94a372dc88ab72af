import JobScheduler.Common.RedisQueue
import JobScheduler.Library.Raise

/-!
# Sessions (backend/common/db.py)

A session works on tables of its own until it commits them. Requests and ticks that may
stop halfway are statements on the committed tables, the session's tables and Redis:
`rollback` throws the session's tables away, nothing takes a Redis command back.
-/

namespace JobScheduler
open Library

structure Env where
  committed : Database
  working : Database
  redis : Redis

namespace Env

/-- A new session on the committed tables. -/
def start (db : Database) (redis : Redis) : Env := ⟨db, db, redis⟩

def commit (env : Env) : Env := { env with committed := env.working }

def rollback (env : Env) : Env := { env with working := env.committed }

/-- Neither the committed tables nor Redis have changed. -/
def Pending (env env' : Env) : Prop := env'.committed = env.committed ∧ env'.redis = env.redis

theorem Pending.refl (env : Env) : Pending env env := ⟨rfl, rfl⟩

theorem Pending.trans (env env' env'' : Env) (h : Pending env env') (k : Pending env' env'') :
    Pending env env'' :=
  ⟨k.1.trans h.1, k.2.trans h.2⟩

end Env

/-- `try: ... except Exception: session.rollback(); raise`, as in get_session and in tick. -/
def withRollback {ε α : Type} (body : EStateM ε Env α) : EStateM ε Env α :=
  tryCatch body fun e => do
    modify Env.rollback
    throw e

section
variable {ε α : Type} {body : EStateM ε Env α} {env env' : Env} {e : ε} {a : α}

theorem withRollback_ok : withRollback body env = .ok a env' ↔ body env = .ok a env' := by
  show (EStateM.tryCatch body _) env = _ ↔ _
  unfold EStateM.tryCatch
  cases body env with
  | ok b u => exact Iff.rfl
  | error e u => exact ⟨fun h => (by cases h), fun h => (by cases h)⟩

theorem withRollback_error :
    withRollback body env = .error e env' ↔
      ∃ u, body env = .error e u ∧ env' = u.rollback := by
  show (EStateM.tryCatch body _) env = _ ↔ _
  unfold EStateM.tryCatch
  cases body env with
  | ok b u => exact ⟨fun h => (by cases h), fun ⟨_, h, _⟩ => (by cases h)⟩
  | error e' u =>
    constructor
    · intro h
      cases h
      exact ⟨u, rfl, rfl⟩
    · rintro ⟨u', h, rfl⟩
      cases h
      rfl

end

end JobScheduler
