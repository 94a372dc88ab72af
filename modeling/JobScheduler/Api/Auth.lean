import JobScheduler.Common.Models
import JobScheduler.Library.Machine

/-!
# Accounts (backend/api/routers/auth.py)

`register` and `login` look an account up by one query over two columns. Each column is
unique, but a string may stand in both: as the name of one account and as the email of
another. The password hash and the token come from hashlib and hmac; they enter as
functions, and nothing about them is used.
-/

namespace JobScheduler.Auth
open Library

structure User where
  id : UserId
  username : String
  email : Option String
  passwordHash : String
  isActive : Bool := true
  createdAt : Time
  updatedAt : Time

instance : Keyed User := ⟨User.id⟩

structure Users where
  table : Table User
  uq_username : ∀ u ∈ table.rows, ∀ v ∈ table.rows, u.username = v.username → u = v
  uq_email : ∀ u ∈ table.rows, ∀ v ∈ table.rows, u.email = v.email → u.email ≠ none → u = v

def Users.empty : Users where
  table := Table.empty
  uq_username := fun _ hu => absurd hu List.not_mem_nil
  uq_email := fun _ hu => absurd hu List.not_mem_nil

/-! ### Requests (backend/common/schemas.py) -/

-- [A-Za-z0-9_.-]
def usernameChar (c : Char) : Bool := c.isAlphanum || c == '_' || c == '.' || c == '-'

/-- A request body that has passed validation. The email is any string of up to 255
characters. -/
structure UserCreate where
  username : String
  password : String
  email : Option String := none
  username_length : 3 ≤ username.length ∧ username.length ≤ 64
  username_pattern : username.toList.all usernameChar = true
  password_length : 8 ≤ password.length ∧ password.length ≤ 128
  email_length : ∀ e, email = some e → e.length ≤ 255

structure UserLogin where
  username : String
  password : String
  username_length : 1 ≤ username.length ∧ username.length ≤ 255
  password_length : 1 ≤ password.length ∧ password.length ≤ 128

structure UserOut where
  id : UserId
  username : String
  email : Option String
  isActive : Bool
  createdAt : Time
  deriving DecidableEq, Repr

structure TokenOut where
  accessToken : String
  tokenType : String := "bearer"
  expiresIn : ℤ
  user : UserOut
  deriving DecidableEq, Repr

inductive AuthError where
  | httpException (statusCode : ℕ) (detail : String)
  | multipleResultsFound
  | integrityError
  deriving DecidableEq, Repr

/- hash_password with its salt, verify_password, create_access_token at a time, and the
setting auth_token_expire_minutes. -/
structure Crypto where
  hashPassword : String → ℕ → String
  verifyPassword : String → String → Bool
  createAccessToken : UserId → String → Time → String
  expireMinutes : ℤ

/-! ### The routes -/

/- Result.scalar_one_or_none -/
def scalarOneOrNone : List User → Except AuthError (Option User)
  | [] => .ok none
  | [u] => .ok (some u)
  | _ :: _ :: _ => .error .multipleResultsFound

section
variable (crypto : Crypto)

def userOut (u : User) : UserOut := ⟨u.id, u.username, u.email, u.isActive, u.createdAt⟩

def tokenForUser (u : User) (now : Time) : TokenOut where
  accessToken := crypto.createAccessToken u.id u.username now
  expiresIn := crypto.expireMinutes * 60
  user := userOut u

/-- `or_(User.username == x, User.email == x)`, the query of login. -/
def Users.named (users : Users) (x : String) : List User :=
  users.table.rows.filter fun u => decide (u.username = x) || decide (u.email = some x)

/-- The query of register; without an email only the names are compared. -/
def Users.taken (users : Users) (payload : UserCreate) : List User :=
  users.table.rows.filter fun u => decide (u.username = payload.username) ||
    (payload.email.isSome && decide (u.email = payload.email))

/- The row passes the two unique constraints. -/
def Users.Admits (users : Users) (username : String) (email : Option String) : Prop :=
  ∀ u ∈ users.table.rows, u.username ≠ username ∧ (u.email = email → email = none)

instance (users : Users) (username : String) (email : Option String) :
    Decidable (users.Admits username email) := by
  unfold Users.Admits
  infer_instance

def Users.add (users : Users) (username : String) (email : Option String) (passwordHash : String)
    (now : Time) (h : users.Admits username email) : Users where
  table := users.table.insert (fun i => ⟨i, username, email, passwordHash, true, now, now⟩)
    fun _ => rfl
  uq_username := by
    intro u hu v hv heq
    rcases Table.mem_rows_insert.mp hu with hu | rfl <;>
      rcases Table.mem_rows_insert.mp hv with hv | rfl
    · exact users.uq_username u hu v hv heq
    · exact absurd heq (h u hu).1
    · exact absurd heq.symm (h v hv).1
    · rfl
  uq_email := by
    intro u hu v hv heq hne
    rcases Table.mem_rows_insert.mp hu with hu | rfl <;>
      rcases Table.mem_rows_insert.mp hv with hv | rfl
    · exact users.uq_email u hu v hv heq hne
    · exact absurd (heq.trans ((h u hu).2 heq)) hne
    · exact absurd ((h v hv).2 heq.symm) hne
    · rfl

structure Register where
  payload : UserCreate
  salt : ℕ
  now : Time

def newUser (users : Users) (req : Register) : User :=
  ⟨users.table.next, req.payload.username, req.payload.email,
    crypto.hashPassword req.payload.password req.salt, true, req.now, req.now⟩

def register (users : Users) (req : Register) : Except AuthError (Users × TokenOut) := do
  match ← scalarOneOrNone (users.taken req.payload) with
  | some _ => .error (.httpException 409 "username or email already exists")
  | none =>
    if h : users.Admits req.payload.username req.payload.email then
      .ok (users.add req.payload.username req.payload.email
          (crypto.hashPassword req.payload.password req.salt) req.now h,
        tokenForUser crypto (newUser crypto users req) req.now)
    else .error .integrityError

def login (users : Users) (payload : UserLogin) (now : Time) : Except AuthError TokenOut := do
  match ← scalarOneOrNone (users.named payload.username) with
  | none => .error (.httpException 401 "invalid username or password")
  | some user =>
    if user.isActive && crypto.verifyPassword payload.password user.passwordHash then
      .ok (tokenForUser crypto user now)
    else .error (.httpException 401 "invalid username or password")

end

/-! ### How many accounts a query matches -/

/-- No name of an account is the email of another one. -/
def Apart (users : Users) : Prop :=
  ∀ u ∈ users.table.rows, ∀ v ∈ users.table.rows, v.email = some u.username → u = v

theorem named_length_le_one {users : Users} :
    (∀ x, (users.named x).length ≤ 1) ↔ Apart users := by
  constructor
  · intro h u hu v hv hemail
    refine Table.length_filter_le_one.mp (h u.username) u hu v hv ?_ ?_
    · simp
    · simp [hemail]
  · intro h x
    refine Table.length_filter_le_one.mpr fun u hu v hv hpu hpv => ?_
    simp only [Bool.or_eq_true, decide_eq_true_eq] at hpu hpv
    rcases hpu with hu' | hu' <;> rcases hpv with hv' | hv'
    · exact users.uq_username u hu v hv (hu'.trans hv'.symm)
    · exact h u hu v hv (hv'.trans (congrArg some hu'.symm))
    · exact (h v hv u hu (hu'.trans (congrArg some hv'.symm))).symm
    · exact users.uq_email u hu v hv (hu'.trans hv'.symm) (by rw [hu']; exact Option.some_ne_none x)

/- Two accounts can match a registration only when one has the name and the other the
email. -/
theorem taken_length_le_one {users : Users} {payload : UserCreate} :
    (users.taken payload).length ≤ 1 ↔
      ∀ u ∈ users.table.rows, ∀ v ∈ users.table.rows, u.username = payload.username →
        v.email = payload.email → payload.email ≠ none → u = v := by
  unfold Users.taken
  rw [Table.length_filter_le_one]
  simp only [Bool.or_eq_true, Bool.and_eq_true, decide_eq_true_eq, Option.isSome_iff_ne_none]
  constructor
  · intro h u hu v hv hname hemail hne
    exact h u hu v hv (Or.inl hname) (Or.inr ⟨hne, hemail⟩)
  · intro h u hu v hv hpu hpv
    rcases hpu with hu' | ⟨hne, hu'⟩ <;> rcases hpv with hv' | ⟨hne', hv'⟩
    · exact users.uq_username u hu v hv (hu'.trans hv'.symm)
    · exact h u hu v hv hu' hv' hne'
    · exact (h v hv u hu hv' hu' hne).symm
    · exact users.uq_email u hu v hv (hu'.trans hv'.symm) (by rw [hu']; exact hne)

theorem taken_eq_nil {users : Users} {payload : UserCreate} :
    users.taken payload = [] ↔ users.Admits payload.username payload.email := by
  unfold Users.taken Users.Admits
  rw [List.filter_eq_nil_iff]
  refine forall₂_congr fun u _ => ?_
  simp only [Bool.or_eq_true, Bool.and_eq_true, decide_eq_true_eq, Option.isSome_iff_ne_none,
    not_or, not_and, ne_eq]
  refine and_congr_right fun _ => ?_
  constructor
  · intro h heq
    by_contra hne
    exact h hne heq
  · intro h hne heq
    exact hne (h heq)

/-! ### What the routes answer -/

section
variable (crypto : Crypto)

/-- Every login is answered, with a token for the one account of that name or with 401. -/
def LoginsAnswered (users : Users) : Prop :=
  ∀ x, (users.named x).length ≤ 1 ∧ ∀ (payload : UserLogin) (now : Time), payload.username = x →
    (∃ u, users.named x = [u] ∧
      login crypto users payload now = .ok (tokenForUser crypto u now)) ∨
    login crypto users payload now =
      .error (.httpException 401 "invalid username or password")

/-- The registration inserts an account or is answered with 409. -/
def RegisterAnswered (users : Users) (req : Register) : Prop :=
  (∃ users', register crypto users req =
      .ok (users', tokenForUser crypto (newUser crypto users req) req.now) ∧
    users'.table.rows = users.table.rows ++ [newUser crypto users req]) ∨
  register crypto users req = .error (.httpException 409 "username or email already exists")

/- An error rolls the session back. -/
def step (users : Users) (req : Register) : Option Users :=
  match register crypto users req with
  | .ok (users', _) => some users'
  | .error _ => some users

variable {crypto}

theorem login_of_named {users : Users} {payload : UserLogin} {u : User} (now : Time)
    (h : users.named payload.username = [u]) :
    login crypto users payload now =
      if u.isActive && crypto.verifyPassword payload.password u.passwordHash then
        .ok (tokenForUser crypto u now)
      else .error (.httpException 401 "invalid username or password") := by
  unfold login
  rw [h]
  rfl

theorem login_of_unknown {users : Users} {payload : UserLogin} (now : Time)
    (h : users.named payload.username = []) :
    login crypto users payload now =
      .error (.httpException 401 "invalid username or password") := by
  unfold login
  rw [h]
  rfl

theorem loginsAnswered_iff {users : Users} : LoginsAnswered crypto users ↔ Apart users := by
  rw [← named_length_le_one]
  refine ⟨fun h x => (h x).1, fun h x => ⟨h x, ?_⟩⟩
  rintro payload now rfl
  match hn : users.named payload.username with
  | [] => exact Or.inr (login_of_unknown now hn)
  | [u] =>
    rw [login_of_named now hn]
    split
    · exact Or.inl ⟨u, rfl, rfl⟩
    · exact Or.inr rfl
  | _ :: _ :: _ =>
    have hlen := h payload.username
    rw [hn, List.length_cons, List.length_cons] at hlen
    omega

theorem register_of_free {users : Users} {req : Register}
    (h : users.Admits req.payload.username req.payload.email) :
    register crypto users req =
      .ok (users.add req.payload.username req.payload.email
          (crypto.hashPassword req.payload.password req.salt) req.now h,
        tokenForUser crypto (newUser crypto users req) req.now) := by
  unfold register
  rw [taken_eq_nil.mpr h]
  exact dif_pos h

theorem register_of_taken {users : Users} {req : Register} {u : User}
    (h : users.taken req.payload = [u]) :
    register crypto users req =
      .error (.httpException 409 "username or email already exists") := by
  unfold register
  rw [h]
  rfl

theorem register_of_multiple {users : Users} {req : Register}
    (h : ¬ (users.taken req.payload).length ≤ 1) :
    register crypto users req = .error .multipleResultsFound := by
  unfold register
  match ht : users.taken req.payload with
  | [] =>
    rw [ht] at h
    exact absurd (Nat.zero_le 1) h
  | [_] =>
    rw [ht] at h
    exact absurd (Nat.le_refl 1) h
  | _ :: _ :: _ => rfl

theorem registerAnswered_iff {users : Users} {req : Register} :
    RegisterAnswered crypto users req ↔ (users.taken req.payload).length ≤ 1 := by
  constructor
  · intro h
    by_contra hmany
    unfold RegisterAnswered at h
    rw [register_of_multiple hmany] at h
    rcases h with ⟨_, hok, _⟩ | herr
    · cases hok
    · cases herr
  · intro h
    match ht : users.taken req.payload with
    | [] =>
      have hfree := taken_eq_nil.mp ht
      exact Or.inl ⟨_, register_of_free hfree, rfl⟩
    | [_] => exact Or.inr (register_of_taken ht)
    | _ :: _ :: _ =>
      rw [ht, List.length_cons, List.length_cons] at h
      omega

/-! ### Registrations that keep the identifiers apart -/

/-- The registration does not name two accounts, one by its name and one by its email, and
an account it adds shares no identifier with another account across the two columns. -/
def Separate (users : Users) (req : Register) : Prop :=
  (∀ u ∈ users.table.rows, ∀ v ∈ users.table.rows, u.username = req.payload.username →
    v.email = req.payload.email → req.payload.email ≠ none → u = v) ∧
  (users.Admits req.payload.username req.payload.email → ∀ u ∈ users.table.rows,
    req.payload.email ≠ some u.username ∧ u.email ≠ some req.payload.username)

/- What one registration does to the table. -/
theorem step_cases {users users' : Users} {req : Register}
    (h : step crypto users req = some users') :
    (users.Admits req.payload.username req.payload.email ∧
      users'.table.rows = users.table.rows ++ [newUser crypto users req]) ∨
    (¬ users.Admits req.payload.username req.payload.email ∧ users' = users) := by
  by_cases hfree : users.Admits req.payload.username req.payload.email
  · left
    unfold step at h
    rw [register_of_free hfree] at h
    cases h
    exact ⟨hfree, rfl⟩
  · right
    refine ⟨hfree, ?_⟩
    by_cases hone : (users.taken req.payload).length ≤ 1
    · match ht : users.taken req.payload with
      | [] => exact absurd (taken_eq_nil.mp ht) hfree
      | [_] =>
        unfold step at h
        rw [register_of_taken ht] at h
        cases h
        rfl
      | _ :: _ :: _ =>
        rw [ht, List.length_cons, List.length_cons] at hone
        omega
    · unfold step at h
      rw [register_of_multiple hone] at h
      cases h
      rfl

theorem Apart.step {users users' : Users} {req : Register} (h : Apart users)
    (hsep : Separate users req) (hstep : Auth.step crypto users req = some users') :
    Apart users' := by
  obtain ⟨hfree, hrows⟩ | ⟨_, rfl⟩ := step_cases hstep
  · intro u hu v hv hemail
    rw [hrows, List.mem_append, List.mem_singleton] at hu hv
    rcases hu with hu | rfl <;> rcases hv with hv | rfl
    · exact h u hu v hv hemail
    · exact absurd hemail (hsep.2 hfree u hu).1
    · exact absurd hemail (hsep.2 hfree v hv).2
    · rfl
  · exact h

/- The condition is read off the answers before and after the step. -/
theorem separate_of_answered {users : Users} {req : Register}
    (hanswer : RegisterAnswered crypto users req)
    (hafter : ∀ users', step crypto users req = some users' → LoginsAnswered crypto users') :
    Separate users req := by
  refine ⟨taken_length_le_one.mp (registerAnswered_iff.mp hanswer), fun hfree u hu => ?_⟩
  obtain ⟨users', hstep⟩ : ∃ users', step crypto users req = some users' := by
    unfold step
    rw [register_of_free hfree]
    exact ⟨_, rfl⟩
  obtain ⟨_, hrows⟩ | ⟨hnot, _⟩ := step_cases hstep
  · have hapart : Apart users' := loginsAnswered_iff.mp (hafter users' hstep)
    have hu' : u ∈ users'.table.rows := by
      rw [hrows]
      exact List.mem_append_left _ hu
    have hnew : newUser crypto users req ∈ users'.table.rows := by
      rw [hrows]
      exact List.mem_append_right _ (List.mem_singleton_self _)
    have hne : u ≠ newUser crypto users req := by
      intro heq
      exact (hfree u hu).1 (congrArg User.username heq)
    exact ⟨fun hemail => hne (hapart u hu' _ hnew hemail),
      fun hemail => hne (hapart _ hnew u hu' hemail).symm⟩
  · exact absurd hfree hnot

/-- Along every sequence of registrations, all logins and all registrations are answered
when and only when every registration keeps the identifiers apart. -/
theorem identifiers_name_one_account (crypto : Crypto) (reqs : List Register) :
    (Machine.Visits (step crypto) (LoginsAnswered crypto) Users.empty reqs ∧
      Machine.Along (step crypto) (RegisterAnswered crypto) Users.empty reqs) ↔
    Machine.Along (step crypto) Separate Users.empty reqs := by
  constructor
  · rintro ⟨hlogins, hregisters⟩
    refine Machine.along_of_invariant (I := fun _ => True) (fun _ _ _ _ _ _ => trivial)
      (fun users req _ h => ?_) trivial (hregisters.and hlogins.along)
    exact separate_of_answered h.1 h.2
  · intro hsep
    have hempty : Apart Users.empty := fun _ hu => absurd hu List.not_mem_nil
    constructor
    · exact Machine.visits_of_invariant (fun _ _ _ h hs hstep => h.step hs hstep)
        (fun _ h => loginsAnswered_iff.mpr h) hempty hsep
    · refine Machine.along_of_invariant (I := fun _ => True) (fun _ _ _ _ _ _ => trivial)
        (fun users req _ hs => ?_) trivial hsep
      exact registerAnswered_iff.mpr (taken_length_le_one.mpr hs.1)

end

/-! ### An account locked out -/

def alice : UserCreate where
  username := "alice"
  password := "wonderland"
  username_length := by decide
  username_pattern := by decide
  password_length := by decide
  email_length := fun _ h => by cases h

/- bob gives the name of the first account as his email. -/
def bob : UserCreate where
  username := "bob"
  password := "wonderland"
  email := some "alice"
  username_length := by decide
  username_pattern := by decide
  password_length := by decide
  email_length := fun e h => by
    cases h
    decide

def aliceLogin : UserLogin where
  username := "alice"
  password := "wonderland"
  username_length := by decide
  password_length := by decide

def aliceAgain : UserCreate := { alice with
  email := some "alice"
  email_length := fun e h => by
    cases h
    decide }

def plainCrypto : Crypto where
  hashPassword := fun password _ => password
  verifyPassword := fun password hash => decide (password = hash)
  createAccessToken := fun _ username _ => username
  expireMinutes := 60

/- Both registrations are accepted. After them the first account cannot log in with its own
password, and a request for its name fails instead of being answered with 409. -/
theorem registered_email_locks_account : ∃ users,
    Machine.run (step plainCrypto) Users.empty [⟨alice, 0, 0⟩, ⟨bob, 1, 1⟩] = some users ∧
    users.table.rows.length = 2 ∧
    (users.named "alice").length = 2 ∧
    login plainCrypto users aliceLogin 2 = .error .multipleResultsFound ∧
    register plainCrypto users ⟨aliceAgain, 2, 2⟩ = .error .multipleResultsFound := by
  refine ⟨_, rfl, ?_, ?_, ?_, ?_⟩
  · decide
  · decide
  · decide
  · exact register_of_multiple (by decide)

end JobScheduler.Auth
