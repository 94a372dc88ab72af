import JobScheduler.Api.Auth
import JobScheduler.Common.Passwords

/-!
# Logging in with a password (backend/api/routers/auth.py, backend/common/auth.py)

The routes work with the records of PBKDF2. As long as the registrations keep the identifiers
apart, an account answers to its name and to the passwords with the digest of its own.
-/

namespace JobScheduler.Auth
open Library

/- tokenBytes salt stands for secrets.token_bytes(16). hash_password does not raise, and
verify_password only for records that hash_password does not make. -/
def Crypto.withRecords (crypto : Crypto) (pbkdf2 : List UInt8 → List UInt8 → ℕ → List UInt8)
    (tokenBytes : ℕ → List UInt8) : Crypto where
  hashPassword password salt :=
    (Auth.hashPassword pbkdf2 password (tokenBytes salt)).toOption.getD ""
  verifyPassword password record :=
    (Auth.verifyPassword pbkdf2 password record).toOption.getD false
  createAccessToken := crypto.createAccessToken
  expireMinutes := crypto.expireMinutes

theorem withRecords_verify (crypto : Crypto)
    (pbkdf2 : List UInt8 → List UInt8 → ℕ → List UInt8) (tokenBytes : ℕ → List UInt8)
    (q p : String) (salt : ℕ) :
    (crypto.withRecords pbkdf2 tokenBytes).verifyPassword q
        ((crypto.withRecords pbkdf2 tokenBytes).hashPassword p salt) =
      decide (pbkdf2 (encodeUtf8 q) (tokenBytes salt) pbkdf2Iterations =
        pbkdf2 (encodeUtf8 p) (tokenBytes salt) pbkdf2Iterations) := by
  simp only [Crypto.withRecords, hashPassword_eq, Except.toOption, Option.getD_some,
    verifyPassword_recordText]

variable {crypto : Crypto}

theorem login_of_account {users : Users} {u : User} (hapart : Apart users)
    (hu : u ∈ users.table.rows) (hactive : u.isActive = true) (payload : UserLogin) (now : Time)
    (hname : payload.username = u.username) :
    login crypto users payload now =
      if crypto.verifyPassword payload.password u.passwordHash then .ok (tokenForUser crypto u now)
      else .error (.httpException 401 "invalid username or password") := by
  have hmem : u ∈ users.named payload.username := by
    unfold Users.named
    rw [List.mem_filter, hname]
    exact ⟨hu, by simp⟩
  have hone : users.named payload.username = [u] := by
    have hle := named_length_le_one.mpr hapart payload.username
    obtain ⟨v, hv⟩ := List.length_eq_one_iff.mp (Nat.le_antisymm hle (List.length_pos_of_mem hmem))
    rw [hv] at hmem ⊢
    rw [List.mem_singleton.mp hmem]
  rw [login_of_named now hone, hactive, Bool.true_and]

theorem subset_rows_run {users users' : Users} {reqs : List Register}
    (h : Machine.run (step crypto) users reqs = some users') :
    users.table.rows ⊆ users'.table.rows := by
  apply Machine.run_relation (R := fun users users' => users.table.rows ⊆ users'.table.rows)
    (fun _ => List.Subset.refl _) (fun _ _ _ => List.Subset.trans) _ (Machine.along_true users reqs) h
  intro users req users' _ hstep
  obtain ⟨-, hrows⟩ | ⟨-, rfl⟩ := step_cases hstep
  · rw [hrows]
    exact List.subset_append_left _ _
  · exact List.Subset.refl _

/-- After any further registrations an account that was registered logs in under its name, with
the passwords that have the digest of its own. -/
theorem registered_account_logs_in (crypto : Crypto)
    (pbkdf2 : List UInt8 → List UInt8 → ℕ → List UInt8) (tokenBytes : ℕ → List UInt8)
    {before later : List Register} {req : Register} {users users' : Users}
    (hsep : Machine.Along (step (crypto.withRecords pbkdf2 tokenBytes)) Separate Users.empty
      (before ++ req :: later))
    (hbefore : Machine.run (step (crypto.withRecords pbkdf2 tokenBytes)) Users.empty before =
      some users)
    (hfree : users.Admits req.payload.username req.payload.email)
    (hlater : Machine.run (step (crypto.withRecords pbkdf2 tokenBytes)) users (req :: later) =
      some users')
    (payload : UserLogin) (now : Time) (hname : payload.username = req.payload.username) :
    login (crypto.withRecords pbkdf2 tokenBytes) users' payload now =
      if pbkdf2 (encodeUtf8 payload.password) (tokenBytes req.salt) pbkdf2Iterations =
          pbkdf2 (encodeUtf8 req.payload.password) (tokenBytes req.salt) pbkdf2Iterations then
        .ok (tokenForUser (crypto.withRecords pbkdf2 tokenBytes)
          (newUser (crypto.withRecords pbkdf2 tokenBytes) users req) now)
      else .error (.httpException 401 "invalid username or password") := by
  have hempty : Apart Users.empty := fun _ hu => absurd hu List.not_mem_nil
  have hapart : Apart users' :=
    Machine.run_invariant (fun _ _ _ h hs hstep => h.step hs hstep) hempty hsep
      (Machine.run_append.mpr ⟨users, hbefore, hlater⟩)
  have hadded : newUser (crypto.withRecords pbkdf2 tokenBytes) users req ∈ users'.table.rows := by
    obtain ⟨added, hstep, hrest⟩ := Machine.run_cons.mp hlater
    apply subset_rows_run hrest
    obtain ⟨-, hrows⟩ | ⟨hnot, -⟩ := step_cases hstep
    · rw [hrows]
      exact List.mem_append_right _ (List.mem_singleton_self _)
    · exact absurd hfree hnot
  rw [login_of_account hapart hadded rfl payload now hname]
  simp only [newUser, withRecords_verify, decide_eq_true_eq]

end JobScheduler.Auth
