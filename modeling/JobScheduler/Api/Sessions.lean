import JobScheduler.Api.Deps
import JobScheduler.Api.Login

/-!
# Accounts and their tokens (backend/api/routers/auth.py, backend/api/deps.py)

The routes with the real tokens and the real records, over any sequence of requests. What is
kept beside the users is the list of the tokens that were given out, with the password each of
them was given for.
-/

namespace JobScheduler.Auth
open Library

/- hmac, json, PBKDF2, secrets.token_bytes, and the settings auth_secret_key and
auth_token_expire_minutes. -/
structure Service where
  lib : Stdlib
  pbkdf2 : List UInt8 → List UInt8 → ℕ → List UInt8
  tokenBytes : ℕ → List UInt8
  secretKey : String
  expireMinutes : ℤ

structure Issued where
  userId : UserId
  username : String
  issued : Time
  token : String
  password : String

structure Accounts where
  users : Users
  issued : List Issued

def Accounts.empty : Accounts := ⟨Users.empty, []⟩

inductive Request where
  | register (req : Register)
  | login (payload : UserLogin) (now : Time)
  | me (credentials : Option (String × String)) (now : Time)

inductive Reply where
  | token (out : TokenOut)
  | user (out : UserOut)
  | refused (e : AuthError)
  | failed (e : Failure)

namespace Service

variable (svc : Service)

/- timedelta(minutes=auth_token_expire_minutes) -/
def expiresDelta : ℤ := svc.expireMinutes * 60000000

/- The functions the routes call. A token outside the range of datetime is not made. -/
def crypto : Crypto where
  hashPassword password salt :=
    (hashPassword svc.pbkdf2 password (svc.tokenBytes salt)).toOption.getD ""
  verifyPassword password record :=
    (verifyPassword svc.pbkdf2 password record).toOption.getD false
  createAccessToken userId username now :=
    (createAccessToken svc.lib userId username svc.secretKey now svc.expiresDelta).toOption.getD ""
  expireMinutes := svc.expireMinutes

/- The answer with a token; create_access_token may still raise. -/
def answer (st : Accounts) (password : String) (now : Time) (out : TokenOut) : Accounts × Reply :=
  if inDatetimeRange (now + svc.expiresDelta) then
    ({ st with issued := st.issued ++ [⟨out.user.id, out.user.username, now, out.accessToken,
        password⟩] }, .token out)
  else (st, .failed (.unhandled .overflowError))

/- The row of a new account is committed before its token is made. -/
def serve (st : Accounts) : Request → Accounts × Reply
  | .register req =>
    match register svc.crypto st.users req with
    | .error e => (st, .refused e)
    | .ok (users, out) => svc.answer { st with users := users } req.payload.password req.now out
  | .login payload now =>
    match login svc.crypto st.users payload now with
    | .error e => (st, .refused e)
    | .ok out => svc.answer st payload.password now out
  | .me credentials now =>
    match getCurrentUser svc.lib st.users svc.secretKey now credentials with
    | .error e => (st, .failed e)
    | .ok user => (st, .user (userOut user))

def step (st : Accounts) (req : Request) : Option Accounts := some (svc.serve st req).1

end Service

/-! ### What the routes give out -/

section
variable {crypto : Crypto} {users users' : Users} {out : TokenOut}

theorem register_eq_ok {req : Register} (h : register crypto users req = .ok (users', out)) :
    users'.table.rows = users.table.rows ++ [newUser crypto users req] ∧
      out = tokenForUser crypto (newUser crypto users req) req.now := by
  unfold register at h
  obtain ⟨found, -, h⟩ := bind_eq_ok.mp h
  cases found with
  | some u => cases h
  | none =>
    dsimp only at h
    split at h
    · cases h
      exact ⟨rfl, rfl⟩
    · cases h

theorem mem_of_scalarOneOrNone {l : List User} {u : User}
    (h : scalarOneOrNone l = .ok (some u)) : u ∈ l := by
  unfold scalarOneOrNone at h
  split at h
  · cases h
  · cases h
    exact List.mem_singleton_self _
  · cases h

theorem login_eq_ok {payload : UserLogin} {now : Time} (h : login crypto users payload now = .ok out) :
    ∃ u ∈ users.table.rows, u.isActive = true ∧
      (u.username = payload.username ∨ u.email = some payload.username) ∧
      crypto.verifyPassword payload.password u.passwordHash = true ∧
      out = tokenForUser crypto u now := by
  unfold login at h
  obtain ⟨found, hfound, h⟩ := bind_eq_ok.mp h
  cases found with
  | none => cases h
  | some u =>
    obtain ⟨hu, hname⟩ := List.mem_filter.mp (mem_of_scalarOneOrNone hfound)
    dsimp only at h
    split at h
    · rename_i hok
      cases h
      obtain ⟨hactive, hverify⟩ := (Bool.and_eq_true _ _).mp hok
      refine ⟨u, hu, hactive, ?_, hverify, rfl⟩
      simpa using hname
    · cases h

end

/-! ### Every sequence of requests -/

/- The tokens are those of create_access_token, and each was given out for a password that the
record of its user accepts. -/
structure Genuine (svc : Service) (st : Accounts) : Prop where
  active : ∀ u ∈ st.users.table.rows, u.isActive = true
  made : ∀ i ∈ st.issued, createAccessToken svc.lib i.userId i.username svc.secretKey i.issued
    svc.expiresDelta = .ok i.token
  known : ∀ i ∈ st.issued, ∃ u ∈ st.users.table.rows, u.id = i.userId ∧
    svc.crypto.verifyPassword i.password u.passwordHash = true

section
variable {svc : Service} {st st' : Accounts}

theorem genuine_empty (svc : Service) : Genuine svc .empty where
  active := fun _ hu => absurd hu List.not_mem_nil
  made := fun _ hi => absurd hi List.not_mem_nil
  known := fun _ hi => absurd hi List.not_mem_nil

theorem Genuine.answer (h : Genuine svc st) {u : User} (hu : u ∈ st.users.table.rows)
    {password : String} {now : Time}
    (hverify : svc.crypto.verifyPassword password u.passwordHash = true) :
    Genuine svc (svc.answer st password now (tokenForUser svc.crypto u now)).1 := by
  unfold Service.answer
  split
  · rename_i hrange
    refine ⟨h.active, ?_, ?_⟩
    · intro i hi
      rcases List.mem_append.mp hi with hi | hi
      · exact h.made i hi
      · rw [List.mem_singleton.mp hi]
        obtain ⟨token, htoken⟩ := createAccessToken_isOk svc.lib u.id u.username svc.secretKey now
          svc.expiresDelta hrange
        simp only [tokenForUser, userOut, Service.crypto, htoken, Except.toOption, Option.getD_some]
    · intro i hi
      rcases List.mem_append.mp hi with hi | hi
      · exact h.known i hi
      · rw [List.mem_singleton.mp hi]
        exact ⟨u, hu, rfl, hverify⟩
  · exact h

theorem verify_newUser (svc : Service) (users : Users) (req : Register) :
    svc.crypto.verifyPassword req.payload.password (newUser svc.crypto users req).passwordHash =
      true := by
  simp only [Service.crypto, newUser, hashPassword_eq, Except.toOption, Option.getD_some,
    verifyPassword_recordText, decide_true]

theorem Genuine.serve (h : Genuine svc st) (req : Request) :
    Genuine svc (svc.serve st req).1 := by
  cases req with
  | register req =>
    rw [Service.serve]
    split
    · exact h
    · rename_i users out hok
      obtain ⟨hrows, rfl⟩ := register_eq_ok hok
      have hsub : ∀ u ∈ st.users.table.rows, u ∈ users.table.rows := by
        rw [hrows]
        exact fun u hu => List.mem_append_left _ hu
      have hnew : newUser svc.crypto st.users req ∈ users.table.rows := by
        rw [hrows]
        exact List.mem_append_right _ (List.mem_singleton_self _)
      have hst : Genuine svc { st with users := users } := by
        refine ⟨?_, h.made, ?_⟩
        · intro u hu
          change u ∈ users.table.rows at hu
          rw [hrows] at hu
          rcases List.mem_append.mp hu with hu | hu
          · exact h.active u hu
          · rw [List.mem_singleton.mp hu]
            rfl
        · intro i hi
          obtain ⟨u, hu, hid, hverify⟩ := h.known i hi
          exact ⟨u, hsub u hu, hid, hverify⟩
      exact hst.answer hnew (verify_newUser svc st.users req)
  | login payload now =>
    rw [Service.serve]
    split
    · exact h
    · rename_i out hok
      obtain ⟨u, hu, -, -, hverify, rfl⟩ := login_eq_ok hok
      exact h.answer hu hverify
  | me credentials now =>
    rw [Service.serve]
    split <;> exact h

theorem run_genuine {reqs : List Request}
    (h : Machine.run svc.step Accounts.empty reqs = some st) : Genuine svc st :=
  Machine.run_invariant (fun _ req _ hs _ ht => by cases ht; exact hs.serve req)
    (genuine_empty svc) (Machine.along_true _ reqs) h

/- The payload an issued token was made of. -/
def Issued.payload (svc : Service) (i : Issued) : List (String × Json) :=
  tokenPayload i.userId i.username i.issued (i.issued + svc.expiresDelta)

/- A token that carries the HMAC of its first part has been given out. -/
def Unforged (svc : Service) (st : Accounts) (token : String) : Prop :=
  ∀ p : String, '.' ∉ p.toList → token = p ++ "." ++ b64encode (svc.lib.hmacSha256 svc.secretKey p) →
    ∃ i ∈ st.issued, i.token = token

/- The token of an issued record is accepted for its user until its last second has passed. -/
theorem getCurrentUser_issued (h : Genuine svc st) {i : Issued} (hi : i ∈ st.issued)
    (hjson : svc.lib.loads (svc.lib.dumps (i.payload svc)) = some (.object (i.payload svc)))
    {scheme : String} (hscheme : Text.asciiLower scheme = "bearer") (now : Time) :
    getCurrentUser svc.lib st.users svc.secretKey now (some (scheme, i.token)) =
      if intTimestamp now ≤ intTimestamp (i.issued + svc.expiresDelta) then
        match (st.users.table.get i.userId).filter User.isActive with
        | none => .error (.httpException 401 "user not found or inactive")
        | some user => .ok user
      else .error (.httpException 401 "invalid or expired token") := by
  have hdecode := decode_createAccessToken now hjson (h.made i hi)
  by_cases hvalid : intTimestamp now ≤ intTimestamp (i.issued + svc.expiresDelta)
  · rw [if_pos hvalid] at hdecode ⊢
    exact getCurrentUser_of_payload hscheme hdecode
  · rw [if_neg hvalid] at hdecode ⊢
    exact getCurrentUser_of_rejected hscheme hdecode

theorem bearer_of_ok {users : Users} {lib : Stdlib} {secretKey scheme token : String} {now : Time}
    {user : User} (h : getCurrentUser lib users secretKey now (some (scheme, token)) = .ok user) :
    Text.asciiLower scheme = "bearer" ∧
      ∃ payload, decodeAccessToken lib token secretKey now = .ok (some payload) := by
  rw [getCurrentUser] at h
  split at h
  · rename_i hscheme
    refine ⟨hscheme, ?_⟩
    split at h
    · cases h
    · cases h
    · rename_i payload hdecode
      exact ⟨payload, hdecode⟩
  · cases h

end

/-- After any requests a bearer that nobody has forged is the account u exactly when it is a
token given out for u whose last second has not passed; and a token is only given out for a
password that the record of its account accepts. -/
theorem authenticated_iff_issued (svc : Service) (reqs : List Request) (st : Accounts)
    (hrun : Machine.run svc.step Accounts.empty reqs = some st)
    (hjson : ∀ i ∈ st.issued,
      svc.lib.loads (svc.lib.dumps (i.payload svc)) = some (.object (i.payload svc)))
    (scheme token : String) (hforged : Unforged svc st token) (now : Time) (u : User) :
    (getCurrentUser svc.lib st.users svc.secretKey now (some (scheme, token)) = .ok u ↔
      Text.asciiLower scheme = "bearer" ∧ u ∈ st.users.table.rows ∧
        ∃ i ∈ st.issued, i.token = token ∧ i.userId = u.id ∧
          intTimestamp now ≤ intTimestamp (i.issued + svc.expiresDelta)) ∧
    ∀ i ∈ st.issued, ∃ v ∈ st.users.table.rows, v.id = i.userId ∧
      svc.crypto.verifyPassword i.password v.passwordHash = true := by
  have hg := run_genuine hrun
  refine ⟨⟨?_, ?_⟩, hg.known⟩
  · intro h
    obtain ⟨hscheme, payload, hdecode⟩ := bearer_of_ok h
    obtain ⟨p, hdot, htoken, -⟩ := decodeAccessToken_eq_some.mp hdecode
    obtain ⟨i, hi, rfl⟩ := hforged p hdot htoken
    rw [getCurrentUser_issued hg hi (hjson i hi) hscheme] at h
    by_cases hvalid : intTimestamp now ≤ intTimestamp (i.issued + svc.expiresDelta)
    · rw [if_pos hvalid] at h
      split at h
      · cases h
      · rename_i user huser
        cases h
        obtain ⟨hget, -⟩ := Option.filter_eq_some_iff.mp huser
        exact ⟨hscheme, Table.mem_of_get hget, i, hi, rfl, (Table.key_of_get hget).symm, hvalid⟩
    · rw [if_neg hvalid] at h
      cases h
  · rintro ⟨hscheme, hu, i, hi, rfl, hid, hvalid⟩
    have hget : st.users.table.get i.userId = some u := by
      rw [hid]
      exact Table.get_of_mem hu
    rw [getCurrentUser_issued hg hi (hjson i hi) hscheme, if_pos hvalid, hget,
      Option.filter_some_pos (hg.active u hu)]

/- One account, and five minutes for its token. -/
def aliceService : Service where
  lib := textLib "\x7b\"sub\":\"0\",\"username\":\"alice\",\"iat\":1800000000,\"exp\":1800000300\x7d"
    [("sub", .string "0"), ("username", .string "alice"), ("iat", .number 1800000000 0),
      ("exp", .number 1800000300 0)]
  pbkdf2 := fun password _ _ => password
  tokenBytes := fun _ => List.replicate 16 0
  secretKey := "dev-change-me"
  expireMinutes := 5

/- The token of the registration is the account until second 1800000300. -/
theorem authenticated_iff_issued_alice :
    ∃ st, Machine.run aliceService.step Accounts.empty [.register ⟨alice, 0, 1800000000000000⟩] =
        some st ∧
      ∃ i ∈ st.issued, ∀ u, getCurrentUser aliceService.lib st.users aliceService.secretKey
          1800000300500000 (some ("Bearer", i.token)) = .ok u ↔
        Text.asciiLower "Bearer" = "bearer" ∧ u ∈ st.users.table.rows ∧
          ∃ k ∈ st.issued, k.token = i.token ∧ k.userId = u.id ∧
            intTimestamp 1800000300500000 ≤ intTimestamp (k.issued + aliceService.expiresDelta) := by
  have hadmits : Users.empty.Admits alice.username alice.email :=
    fun _ hu => absurd hu List.not_mem_nil
  have hreg : register aliceService.crypto Users.empty ⟨alice, 0, 1800000000000000⟩ = .ok (_, _) :=
    register_of_free hadmits
  have hissued : intTimestamp 1800000000000000 = 1800000000 :=
    intTimestamp_eq (by decide) (by decide)
  have hexpires : intTimestamp (1800000000000000 + aliceService.expiresDelta) = 1800000300 :=
    intTimestamp_eq (by decide) (by decide)
  obtain ⟨st, hst⟩ : ∃ st, Machine.run aliceService.step Accounts.empty
      [.register ⟨alice, 0, 1800000000000000⟩] = some st := ⟨_, rfl⟩
  have hone : ∃ token, st.issued = [⟨0, "alice", 1800000000000000, token, "wonderland"⟩] := by
    have hrange : inDatetimeRange (1800000000000000 + aliceService.expiresDelta) = true := by decide
    change some (aliceService.serve Accounts.empty
      (.register ⟨alice, 0, 1800000000000000⟩)).1 = some st at hst
    rw [Service.serve, show Accounts.empty.users = Users.empty from rfl, hreg] at hst
    dsimp only at hst
    rw [Service.answer, if_pos hrange] at hst
    cases hst
    exact ⟨_, rfl⟩
  obtain ⟨token, hone⟩ := hone
  refine ⟨st, hst, _, by rw [hone]; exact List.mem_singleton_self _, ?_⟩
  intro u
  refine (authenticated_iff_issued aliceService _ st hst ?_ "Bearer" token ?_ 1800000300500000 u).1
  · intro i hi
    rw [hone, List.mem_singleton] at hi
    subst hi
    unfold Issued.payload tokenPayload
    dsimp only
    rw [hissued, hexpires]
    exact if_pos rfl
  · intro p hdot htoken
    exact ⟨_, by rw [hone]; exact List.mem_singleton_self _, rfl⟩

end JobScheduler.Auth
