import Mathlib.Algebra.Group.Int.Defs
import JobScheduler.Common.Models
import JobScheduler.Common.Text

/-!
# Request bodies (backend/common/schemas.py)

`JobRecord` is the record that `JobBase(...)` is called with, before validation: any field
may be null. The field checks of pydantic are collected; the model validator runs only when
all of them have passed, and stops at its first error. `croniter.is_valid` is a parameter.
-/

namespace JobScheduler

/- The column values of the enumerations (backend/common/constants.py). -/
def TaskType.value : TaskType → String
  | .http => "http"
  | .shell => "shell"
  | .httpAsync => "http_async"

def ScheduleType.value : ScheduleType → String
  | .cron => "cron"
  | .interval => "interval"
  | .manual => "manual"

/- bool(v) -/
def Json.truthy : Json → Bool
  | .null => false
  | .bool b => b
  | .number mantissa _ => decide (mantissa ≠ 0)
  | .string s => decide (s ≠ "")
  | .array xs => !xs.isEmpty
  | .object fields => !fields.isEmpty

/-! ### Python's == on decoded JSON -/

/- The mantissa and exponent of a number; True and False are the numbers 1 and 0. -/
def Json.number? : Json → Option (ℤ × ℤ)
  | .bool b => some (if b then 1 else 0, 0)
  | .number mantissa exponent => some (mantissa, exponent)
  | _ => none

def sameNumber (x y : ℤ × ℤ) : Bool :=
  decide (x.1 * 10 ^ (x.2 - min x.2 y.2).toNat = y.1 * 10 ^ (y.2 - min x.2 y.2).toNat)

mutual

def Json.same : Json → Json → Bool
  | .null, .null => true
  | .string s, .string t => decide (s = t)
  | .array xs, .array ys => Json.sameArray xs ys
  | .object fs, .object gs =>
    Json.sameFields fs gs && gs.all fun g => fs.any fun f => decide (f.1 = g.1)
  | a, b =>
    match a.number?, b.number? with
    | some x, some y => sameNumber x y
    | _, _ => false

def Json.sameArray : List Json → List Json → Bool
  | [], [] => true
  | x :: xs, y :: ys => Json.same x y && Json.sameArray xs ys
  | _, _ => false

/- Every key of the first dictionary is in the second, with the same value. -/
def Json.sameFields : List (String × Json) → List (String × Json) → Bool
  | [], _ => true
  | f :: fs, gs =>
    (match gs.find? fun g => decide (g.1 = f.1) with
      | some g => Json.same f.2 g.2
      | none => false) && Json.sameFields fs gs

end

theorem sameNumber_zero {x y : ℤ × ℤ} (h : sameNumber x y = true) : x.1 = 0 ↔ y.1 = 0 := by
  have heq := of_decide_eq_true h
  have hten : ∀ n : ℕ, (10 : ℤ) ^ n ≠ 0 := fun n => Int.ne_of_gt (Int.pow_pos (by decide))
  constructor
  · intro hx
    rw [hx, Int.zero_mul] at heq
    exact (Int.mul_eq_zero.mp heq.symm).resolve_right (hten _)
  · intro hy
    rw [hy, Int.zero_mul] at heq
    exact (Int.mul_eq_zero.mp heq).resolve_right (hten _)

theorem truthy_of_number {a : Json} {x : ℤ × ℤ} (h : a.number? = some x) :
    a.truthy = decide (x.1 ≠ 0) := by
  cases a with
  | bool b =>
    cases h
    cases b <;> rfl
  | number m e =>
    cases h
    rfl
  | _ => cases h

/-- Equal values have one truth value. -/
theorem Json.truthy_of_same {a b : Json} (h : a.same b = true) : a.truthy = b.truthy := by
  have hnumber : ∀ {x y}, a.number? = some x → b.number? = some y → sameNumber x y = true →
      a.truthy = b.truthy := by
    intro x y hx hy hxy
    rw [truthy_of_number hx, truthy_of_number hy]
    simp [sameNumber_zero hxy]
  cases a with
  | null => cases b <;> first | rfl | simp [same, number?] at h
  | bool x =>
    cases b with
    | bool y | number m e => exact hnumber rfl rfl h
    | _ => simp [same, number?] at h
  | number m e =>
    cases b with
    | bool y | number m e => exact hnumber rfl rfl h
    | _ => simp [same, number?] at h
  | string s =>
    cases b with
    | string t =>
      simp only [same, decide_eq_true_eq] at h
      rw [h]
    | _ => simp [same, number?] at h
  | array xs =>
    cases b with
    | array ys =>
      simp only [same] at h
      cases xs <;> cases ys <;> first | rfl | simp [sameArray] at h
    | _ => simp [same, number?] at h
  | object fs =>
    cases b with
    | object gs =>
      simp only [same, Bool.and_eq_true] at h
      cases fs <;> cases gs <;> first | rfl | simp [sameFields] at h
    | _ => simp [same, number?] at h

namespace Schemas

structure FieldError where
  loc : String
  msg : String
  deriving DecidableEq, Repr

abbrev Checked (α : Type) := Except (List FieldError) α

structure JobRecord where
  name : Option String
  description : Option String := none
  category : Option String := none
  taskType : Option String
  taskSpec : Option (List (String × Json)) := some []
  scheduleType : Option String := some "manual"
  scheduleExpr : Option String := none
  timezone : Option String := some "UTC"
  enabled : Option Bool := some true
  maxRetries : Option ℤ := some 0
  retryBackoffSec : Option ℤ := some 30
  timeoutSec : Option ℤ := some 300
  dependsOn : Option (List ℤ) := some []

structure JobBase where
  name : String
  description : Option String
  category : Option String
  taskType : TaskType
  taskSpec : List (String × Json)
  scheduleType : ScheduleType
  scheduleExpr : Option String
  timezone : String
  enabled : Bool
  maxRetries : ℤ
  retryBackoffSec : ℤ
  timeoutSec : ℤ
  dependsOn : List ℤ

/-! ### Field checks -/

def fail {α : Type} (loc msg : String) : Checked α := .error [⟨loc, msg⟩]

/- A field that may not be null. -/
def required {α : Type} (loc msg : String) : Option α → Checked α
  | none => fail loc msg
  | some v => .ok v

def atLeast (loc : String) (least : ℕ) (s : String) : Checked String :=
  if s.length < least then
    fail loc s!"String should have at least {least} character"
  else .ok s

def atMost (loc : String) (most : ℕ) (s : String) : Checked String :=
  if most < s.length then
    fail loc s!"String should have at most {most} characters"
  else .ok s

def between (loc : String) (least most : ℤ) (v : ℤ) : Checked ℤ :=
  if v < least then fail loc s!"Input should be greater than or equal to {least}"
  else if most < v then fail loc s!"Input should be less than or equal to {most}"
  else .ok v

def str (loc : String) : Option String → Checked String :=
  required loc "Input should be a valid string"

def int (loc : String) (least most : ℤ) (v : Option ℤ) : Checked ℤ := do
  between loc least most (← required loc "Input should be a valid integer" v)

-- TaskType.ALL and ScheduleType.ALL
def taskTypes : List TaskType := [.http, .httpAsync, .shell]
def scheduleTypes : List ScheduleType := [.cron, .interval, .manual]

def validateName (v : Option String) : Checked String := do
  atMost "name" 255 (← atLeast "name" 1 (← str "name" v))

def validateCategory : Option String → Checked (Option String)
  | none => .ok none
  | some v => (atMost "category" 64 v).map some

def validateTaskType (v : Option String) : Checked TaskType := do
  let v ← str "task_type" v
  match taskTypes.find? fun t => decide (t.value = v) with
  | some t => .ok t
  | none => fail "task_type" "Value error, task_type must be one of ['http', 'http_async', 'shell']"

def validateScheduleType (v : Option String) : Checked ScheduleType := do
  let v ← str "schedule_type" v
  match scheduleTypes.find? fun t => decide (t.value = v) with
  | some t => .ok t
  | none =>
    fail "schedule_type" "Value error, schedule_type must be one of ['cron', 'interval', 'manual']"

/- Both parts are checked and both report. -/
def andAlso {α β : Type} (f : Checked (α → β)) (x : Checked α) : Checked β :=
  match f, x with
  | .ok f, .ok x => .ok (f x)
  | .ok _, .error es => .error es
  | .error es, .ok _ => .error es
  | .error es, .error fs => .error (es ++ fs)

theorem andAlso_eq_ok {α β : Type} {f : Checked (α → β)} {x : Checked α} {y : β}
    (h : andAlso f x = .ok y) : ∃ g a, f = .ok g ∧ x = .ok a ∧ g a = y := by
  cases f <;> cases x <;> cases h
  exact ⟨_, _, rfl, rfl, rfl⟩

def JobRecord.fields (r : JobRecord) : Checked JobBase :=
  andAlso (andAlso (andAlso (andAlso (andAlso (andAlso (andAlso (andAlso (andAlso (andAlso
    (andAlso (andAlso (andAlso (.ok JobBase.mk)
      (validateName r.name))
      (.ok r.description))
      (validateCategory r.category))
      (validateTaskType r.taskType))
      (required "task_spec" "Input should be a valid dictionary" r.taskSpec))
      (validateScheduleType r.scheduleType))
      (.ok r.scheduleExpr))
      (str "timezone" r.timezone))
      (required "enabled" "Input should be a valid boolean" r.enabled))
      (int "max_retries" 0 100 r.maxRetries))
      (int "retry_backoff_sec" 0 86400 r.retryBackoffSec))
      (int "timeout_sec" 1 86400 r.timeoutSec))
      (required "depends_on" "Input should be a valid list" r.dependsOn)

/- Every field of the validated record comes from its own check. -/
structure JobRecord.Checks (r : JobRecord) (b : JobBase) : Prop where
  name : validateName r.name = .ok b.name
  description : r.description = b.description
  category : validateCategory r.category = .ok b.category
  taskType : validateTaskType r.taskType = .ok b.taskType
  taskSpec : r.taskSpec = some b.taskSpec
  scheduleType : validateScheduleType r.scheduleType = .ok b.scheduleType
  scheduleExpr : r.scheduleExpr = b.scheduleExpr
  timezone : r.timezone = some b.timezone
  enabled : r.enabled = some b.enabled
  maxRetries : int "max_retries" 0 100 r.maxRetries = .ok b.maxRetries
  retryBackoffSec : int "retry_backoff_sec" 0 86400 r.retryBackoffSec = .ok b.retryBackoffSec
  timeoutSec : int "timeout_sec" 1 86400 r.timeoutSec = .ok b.timeoutSec
  dependsOn : r.dependsOn = some b.dependsOn

theorem required_eq_ok {α : Type} {loc msg : String} {v : Option α} {a : α}
    (h : required loc msg v = .ok a) : v = some a := by
  cases v <;> cases h
  rfl

theorem JobRecord.checks_of_fields {r : JobRecord} {b : JobBase} (h : r.fields = .ok b) :
    r.Checks b := by
  unfold fields at h
  obtain ⟨f, dependsOn, k0, hdependsOn, rfl⟩ := andAlso_eq_ok h
  obtain ⟨f, timeoutSec, k1, htimeoutSec, rfl⟩ := andAlso_eq_ok k0
  obtain ⟨f, retryBackoffSec, k2, hretryBackoffSec, rfl⟩ := andAlso_eq_ok k1
  obtain ⟨f, maxRetries, k3, hmaxRetries, rfl⟩ := andAlso_eq_ok k2
  obtain ⟨f, enabled, k4, henabled, rfl⟩ := andAlso_eq_ok k3
  obtain ⟨f, timezone, k5, htimezone, rfl⟩ := andAlso_eq_ok k4
  obtain ⟨f, scheduleExpr, k6, hscheduleExpr, rfl⟩ := andAlso_eq_ok k5
  obtain ⟨f, scheduleType, k7, hscheduleType, rfl⟩ := andAlso_eq_ok k6
  obtain ⟨f, taskSpec, k8, htaskSpec, rfl⟩ := andAlso_eq_ok k7
  obtain ⟨f, taskType, k9, htaskType, rfl⟩ := andAlso_eq_ok k8
  obtain ⟨f, category, k10, hcategory, rfl⟩ := andAlso_eq_ok k9
  obtain ⟨f, description, k11, hdescription, rfl⟩ := andAlso_eq_ok k10
  obtain ⟨f, name, k12, hname, rfl⟩ := andAlso_eq_ok k11
  cases k12
  exact ⟨hname, Except.ok.inj hdescription, hcategory, htaskType, required_eq_ok htaskSpec,
    hscheduleType, Except.ok.inj hscheduleExpr, required_eq_ok htimezone, required_eq_ok henabled,
    hmaxRetries, hretryBackoffSec, htimeoutSec, required_eq_ok hdependsOn⟩

theorem validateScheduleType_value (st : ScheduleType) :
    validateScheduleType (some st.value) = .ok st := by
  cases st <;> rfl

/-! ### The model validator -/

def scheduleExprError : String :=
  "Value error, schedule_expr must be a positive integer (seconds) for interval schedules"

/- The ValueError of int() is an error of the validator like its own. -/
def JobBase.validateScheduleExpr (isValid : String → Bool) (b : JobBase) : Checked Unit :=
  match b.scheduleType with
  | .cron =>
    if b.scheduleExpr.any fun e => decide (e ≠ "") && isValid e then .ok ()
    else fail "" "Value error, schedule_expr must be a valid cron expression for cron schedules"
  | .interval =>
    match b.scheduleExpr with
    | none => fail "" scheduleExprError
    | some e =>
      if Text.isdigit e then
        match Text.int e with
        | none => fail "" s!"Value error, invalid literal for int() with base 10: '{e}'"
        | some n => if n = 0 then fail "" scheduleExprError else .ok ()
      else fail "" scheduleExprError
  | .manual => .ok ()

-- spec.get(key)
def specGet (spec : List (String × Json)) (key : String) : Option Json :=
  (spec.find? fun p => decide (p.1 = key)).map Prod.snd

def JobBase.validateTaskSpec (b : JobBase) : Checked Unit :=
  match b.taskType with
  | .http | .httpAsync =>
    if (specGet b.taskSpec "url").any Json.truthy then .ok ()
    else fail "" "Value error, task_spec.url is required for http/http_async tasks"
  | .shell =>
    if (specGet b.taskSpec "command").any Json.truthy then .ok ()
    else fail "" "Value error, task_spec.command is required for shell tasks"

/- The validators of a record read the two columns of their own pair. -/
theorem JobBase.validateScheduleExpr_congr {isValid : String → Bool} {b c : JobBase}
    (htype : b.scheduleType = c.scheduleType) (hexpr : b.scheduleExpr = c.scheduleExpr) :
    b.validateScheduleExpr isValid = c.validateScheduleExpr isValid := by
  unfold validateScheduleExpr
  rw [htype, hexpr]

theorem specGet_of_sameFields {fs gs : List (String × Json)} {key : String} {v : Json}
    (h : Json.sameFields fs gs = true) (hv : specGet fs key = some v) :
    ∃ w, specGet gs key = some w ∧ v.same w = true := by
  induction fs with
  | nil => cases hv
  | cons f fs ih =>
    simp only [Json.sameFields, Bool.and_eq_true] at h
    by_cases hf : f.1 = key
    · have hfind : specGet (f :: fs) key = some f.2 := by
        unfold specGet
        rw [List.find?_cons_of_pos (by simpa using hf), Option.map_some]
      cases hfind.symm.trans hv
      obtain ⟨hsame, -⟩ := h
      split at hsame
      · rename_i g hg
        rw [hf] at hg
        refine ⟨g.2, ?_, hsame⟩
        unfold specGet
        rw [hg, Option.map_some]
      · cases hsame
    · refine ih h.2 ?_
      unfold specGet at hv ⊢
      rwa [List.find?_cons_of_neg (by simpa using hf)] at hv

theorem specGet_of_same {fs gs : List (String × Json)} (key : String)
    (h : (Json.object fs).same (.object gs) = true) :
    (specGet fs key).any Json.truthy = (specGet gs key).any Json.truthy := by
  simp only [Json.same, Bool.and_eq_true] at h
  obtain ⟨hfields, hkeys⟩ := h
  cases hv : specGet fs key with
  | some v =>
    obtain ⟨w, hw, hsame⟩ := specGet_of_sameFields hfields hv
    rw [hw, Option.any_some, Option.any_some, Json.truthy_of_same hsame]
  | none =>
    cases hw : specGet gs key with
    | none => rfl
    | some w =>
      exfalso
      obtain ⟨g, hg, -⟩ := Option.map_eq_some_iff.mp hw
      have hgkey : g.1 = key := by simpa using List.find?_some hg
      have hany := List.all_eq_true.mp hkeys g (List.mem_of_find?_eq_some hg)
      obtain ⟨f, hf, hfkey⟩ := List.any_eq_true.mp hany
      have hnone := List.find?_eq_none.mp (Option.map_eq_none_iff.mp hv) f hf
      exact hnone (by simpa [hgkey] using hfkey)

theorem JobBase.validateTaskSpec_congr {b c : JobBase} (htype : b.taskType = c.taskType)
    (hspec : ∀ key, (specGet b.taskSpec key).any Json.truthy =
      (specGet c.taskSpec key).any Json.truthy) :
    b.validateTaskSpec = c.validateTaskSpec := by
  unfold validateTaskSpec
  rw [htype, hspec, hspec]

def JobRecord.validate (isValid : String → Bool) (r : JobRecord) : Checked JobBase := do
  let b ← r.fields
  b.validateScheduleExpr isValid
  b.validateTaskSpec
  return b

theorem JobRecord.validate_eq_ok {isValid : String → Bool} {r : JobRecord} {b : JobBase}
    (h : r.validate isValid = .ok b) :
    r.Checks b ∧ b.validateScheduleExpr isValid = .ok () ∧ b.validateTaskSpec = .ok () := by
  unfold validate at h
  cases hf : r.fields with
  | error es =>
    rw [hf] at h
    cases h
  | ok b' =>
    rw [hf] at h
    cases hs : b'.validateScheduleExpr isValid with
    | error es =>
      simp only [bind, Except.bind, hs] at h
      cases h
    | ok _ =>
      cases ht : b'.validateTaskSpec with
      | error es =>
        simp only [bind, Except.bind, hs, ht] at h
        cases h
      | ok _ =>
        simp only [bind, Except.bind, hs, ht] at h
        cases h
        exact ⟨checks_of_fields hf, hs, ht⟩

theorem JobBase.expr_of_cron {isValid : String → Bool} {b : JobBase}
    (h : b.validateScheduleExpr isValid = .ok ()) (hc : b.scheduleType = .cron) :
    ∃ e, b.scheduleExpr = some e ∧ e ≠ "" ∧ isValid e = true := by
  simp only [validateScheduleExpr, hc] at h
  split at h
  · rename_i hany
    obtain ⟨e, he, hp⟩ := (Option.any_eq_true _ _).mp hany
    simp only [Bool.and_eq_true, decide_eq_true_eq] at hp
    exact ⟨e, he, hp.1, hp.2⟩
  · cases h

theorem JobBase.expr_of_interval {isValid : String → Bool} {b : JobBase}
    (h : b.validateScheduleExpr isValid = .ok ()) (hc : b.scheduleType = .interval) :
    ∃ e n, b.scheduleExpr = some e ∧ Text.isdigit e = true ∧ Text.int e = some n ∧ n ≠ 0 := by
  simp only [validateScheduleExpr, hc] at h
  split at h
  · cases h
  · rename_i e he
    split at h
    · rename_i hdigit
      split at h
      · cases h
      · rename_i n hn
        split at h
        · cases h
        · rename_i hpos
          exact ⟨e, n, he, hdigit, hn, hpos⟩
    · cases h

/- The fields of a stored job, as update_job merges them. -/
def recordOf (job : Job) : JobRecord where
  name := some job.name
  description := job.description
  category := job.category
  taskType := some job.taskType.value
  taskSpec := some job.taskSpec
  scheduleType := some job.scheduleType.value
  scheduleExpr := job.scheduleExpr
  timezone := some job.timezone
  enabled := some job.enabled
  maxRetries := some job.maxRetries
  retryBackoffSec := some job.retryBackoffSec
  timeoutSec := some job.timeoutSec

/- JobBase accepts the fields of the job. -/
def Accepted (isValid : String → Bool) (job : Job) : Prop :=
  ((recordOf job).validate isValid).isOk = true

instance (isValid : String → Bool) (job : Job) : Decidable (Accepted isValid job) := by
  unfold Accepted
  infer_instance

theorem Accepted.scheduleExpr {isValid : String → Bool} {job : Job} (h : Accepted isValid job) :
    ∃ b : JobBase, b.scheduleType = job.scheduleType ∧ b.scheduleExpr = job.scheduleExpr ∧
      b.validateScheduleExpr isValid = .ok () := by
  unfold Accepted at h
  cases hv : (recordOf job).validate isValid with
  | error es =>
    rw [hv] at h
    cases h
  | ok b =>
    obtain ⟨hc, hs, -⟩ := JobRecord.validate_eq_ok hv
    have htype := (validateScheduleType_value job.scheduleType).symm.trans hc.scheduleType
    exact ⟨b, (Except.ok.inj htype).symm, hc.scheduleExpr.symm, hs⟩

theorem Accepted.cron {isValid : String → Bool} {job : Job} (h : Accepted isValid job)
    (hc : job.scheduleType = .cron) :
    ∃ e, job.scheduleExpr = some e ∧ e ≠ "" ∧ isValid e = true := by
  obtain ⟨b, htype, hexpr, hs⟩ := h.scheduleExpr
  rw [← hexpr]
  exact JobBase.expr_of_cron hs (htype.trans hc)

theorem Accepted.interval {isValid : String → Bool} {job : Job} (h : Accepted isValid job)
    (hc : job.scheduleType = .interval) :
    ∃ e n, job.scheduleExpr = some e ∧ Text.isdigit e = true ∧ Text.int e = some n ∧ n ≠ 0 := by
  obtain ⟨b, htype, hexpr, hs⟩ := h.scheduleExpr
  rw [← hexpr]
  exact JobBase.expr_of_interval hs (htype.trans hc)

end Schemas
end JobScheduler
