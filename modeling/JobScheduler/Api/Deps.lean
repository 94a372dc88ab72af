import JobScheduler.Api.Auth
import JobScheduler.Common.Auth

/-!
# The authenticated user (backend/api/deps.py)

`get_current_user` turns the credentials of the Authorization header into a user row. A header
value is decoded as latin-1, so a token may hold any character up to U+00FF.
-/

namespace JobScheduler.Auth
open Library

inductive Failure where
  | httpException (statusCode : ℕ) (detail : String)
  | unhandled (exc : Exc)
  deriving DecidableEq, Repr

/- int(v); a TypeError or a ValueError is none. A float is cut towards zero. -/
def toInt : Json → Option ℤ
  | .string s => Text.parseInt s
  | .bool b => some (if b then 1 else 0)
  | .number mantissa exponent =>
    some (if 0 ≤ exponent then mantissa * 10 ^ exponent.toNat
      else mantissa.tdiv (10 ^ (-exponent).toNat))
  | _ => none

/- session.get(User, user_id) -/
def Users.find (users : Users) (userId : ℤ) : Option User :=
  users.table.rows.find? fun u => decide ((u.id : ℤ) = userId)

/- The credentials are the scheme and the rest of the header. -/
def getCurrentUser (lib : Stdlib) (users : Users) (secretKey : String) (now : Time) :
    Option (String × String) → Except Failure User
  | none => .error (.httpException 401 "missing bearer token")
  | some (scheme, token) =>
    if Text.asciiLower scheme = "bearer" then
      match decodeAccessToken lib token secretKey now with
      | .error exc => .error (.unhandled exc)
      | .ok none => .error (.httpException 401 "invalid or expired token")
      | .ok (some payload) =>
        match (Schemas.specGet payload "sub").bind toInt with
        | none => .error (.httpException 401 "invalid token subject")
        | some userId =>
          match (users.find userId).filter User.isActive with
          | none => .error (.httpException 401 "user not found or inactive")
          | some user => .ok user
    else .error (.httpException 401 "missing bearer token")

theorem find_natCast (users : Users) (userId : UserId) :
    users.find (userId : ℤ) = users.table.get userId := by
  unfold Users.find Table.get
  congr 1
  funext u
  exact decide_eq_decide.mpr Int.natCast_inj

section
variable {lib : Stdlib} {users : Users} {secretKey scheme token : String} {now : Time}

theorem getCurrentUser_of_rejected (hscheme : Text.asciiLower scheme = "bearer")
    (h : decodeAccessToken lib token secretKey now = .ok none) :
    getCurrentUser lib users secretKey now (some (scheme, token)) =
      .error (.httpException 401 "invalid or expired token") := by
  simp only [getCurrentUser, hscheme, if_true, h]

/- The user whose id is the subject of the token. -/
theorem getCurrentUser_of_payload {userId : UserId} {username : String} {issued expires : Time}
    (hscheme : Text.asciiLower scheme = "bearer")
    (h : decodeAccessToken lib token secretKey now =
      .ok (some (tokenPayload userId username issued expires))) :
    getCurrentUser lib users secretKey now (some (scheme, token)) =
      match (users.table.get userId).filter User.isActive with
      | none => .error (.httpException 401 "user not found or inactive")
      | some user => .ok user := by
  have hget : Schemas.specGet (tokenPayload userId username issued expires) "sub" =
      some (.string (toString userId)) := rfl
  have hsub : (Schemas.specGet (tokenPayload userId username issued expires) "sub").bind toInt =
      some (userId : ℤ) := by
    rw [hget, Option.bind_some, toInt, Text.parseInt_toString]
  simp only [getCurrentUser, hscheme, if_true, h, hsub, find_natCast]

end

/-! ### Which tokens are accepted -/

/-- decode_access_token returns a payload for the accepted tokens only; for any other token it
returns None, and get_current_user answers 401. -/
def ExactlyAccepted (lib : Stdlib) (token secretKey : String) (now : Time) : Prop :=
  (∀ payload, decodeAccessToken lib token secretKey now = .ok (some payload) ↔
    Accepts lib token secretKey now payload) ∧
  ((∀ payload, ¬ Accepts lib token secretKey now payload) →
    decodeAccessToken lib token secretKey now = .ok none ∧
    ∀ (users : Users) (scheme : String), Text.asciiLower scheme = "bearer" →
      getCurrentUser lib users secretKey now (some (scheme, token)) =
        .error (.httpException 401 "invalid or expired token"))

/-- Acceptance is exact and total on the readable tokens, and only on these. -/
theorem exactlyAccepted_iff (lib : Stdlib) (token secretKey : String) (now : Time) :
    ExactlyAccepted lib token secretKey now ↔ Readable lib token secretKey := by
  constructor
  · intro hexact
    obtain ⟨hsome, hnone⟩ := hexact
    apply decodeAccessToken_isOk.mp
    by_cases h : ∃ payload, Accepts lib token secretKey now payload
    · obtain ⟨payload, haccepts⟩ := h
      exact ⟨_, (hsome payload).mpr haccepts⟩
    · exact ⟨_, (hnone (not_exists.mp h)).1⟩
  · intro hreadable
    constructor
    · intro payload
      exact decodeAccessToken_eq_some
    · intro hnot
      obtain ⟨r, hr⟩ := decodeAccessToken_isOk.mpr hreadable
      have hrejected : decodeAccessToken lib token secretKey now = .ok none := by
        cases r with
        | none => exact hr
        | some payload => exact absurd (decodeAccessToken_eq_some.mp hr) (hnot payload)
      exact ⟨hrejected, fun _ _ hscheme => getCurrentUser_of_rejected hscheme hrejected⟩

/- Functions that behave as the real ones on one payload; the digest is 32 zero bytes. -/
def textLib (text : String) (payload : List (String × Json)) : Stdlib where
  hmacSha256 := fun _ _ => List.replicate 32 0
  dumps := fun _ => text.toUTF8.toList
  loads := fun raw => if raw = text.toUTF8.toList then some (.object payload) else none

def aliceLib : Stdlib :=
  textLib "\x7b\"sub\":\"7\",\"username\":\"alice\",\"iat\":1800000000,\"exp\":1800000300\x7d"
    [("sub", .string "7"), ("username", .string "alice"), ("iat", .number 1800000000 0),
      ("exp", .number 1800000300 0)]

/- A token with a character that is not ASCII raises out of get_current_user. -/
theorem not_exactlyAccepted :
    (∀ payload, ¬ Accepts aliceLib "é.x" "dev-change-me" 0 payload) ∧
    decodeAccessToken aliceLib "é.x" "dev-change-me" 0 = .error .unicodeEncodeError ∧
    getCurrentUser aliceLib Users.empty "dev-change-me" 0 (some ("Bearer", "é.x")) =
      .error (.unhandled .unicodeEncodeError) ∧
    ¬ ExactlyAccepted aliceLib "é.x" "dev-change-me" 0 := by
  have hraise : decodeAccessToken aliceLib "é.x" "dev-change-me" 0 =
      .error .unicodeEncodeError := rfl
  have hnot : ∀ payload, ¬ Accepts aliceLib "é.x" "dev-change-me" 0 payload := by
    intro payload h
    rw [← decodeAccessToken_eq_some, hraise] at h
    cases h
  have huser : getCurrentUser aliceLib Users.empty "dev-change-me" 0 (some ("Bearer", "é.x")) =
      .error (.unhandled .unicodeEncodeError) := by
    have hscheme : Text.asciiLower "Bearer" = "bearer" := rfl
    simp only [getCurrentUser, hscheme, if_true, hraise]
  have hexact : ¬ ExactlyAccepted aliceLib "é.x" "dev-change-me" 0 := by
    intro h
    have hnone := (h.2 hnot).1
    rw [hraise] at hnone
    cases hnone
  exact ⟨hnot, hraise, huser, hexact⟩

/-! ### Tokens until they expire -/

/-- A token made at `issued` decodes at `now` to its payload, with both instants in whole
seconds, until the second of its expiry has passed, and to None from then on. While it does,
get_current_user finds the user it was made for. For instants from 1970 to 2514 the whole
seconds are the floor. -/
theorem createAccessToken_round_trip (lib : Stdlib) (userId : UserId)
    (username secretKey : String) (issued expiresDelta now : Time)
    (hrange : inDatetimeRange (issued + expiresDelta) = true)
    (hjson : lib.loads (lib.dumps
        (tokenPayload userId username issued (issued + expiresDelta))) =
      some (.object (tokenPayload userId username issued (issued + expiresDelta)))) :
    ∃ token, createAccessToken lib userId username secretKey issued expiresDelta = .ok token ∧
      decodeAccessToken lib token secretKey now =
        .ok (if intTimestamp now ≤ intTimestamp (issued + expiresDelta) then
          some (tokenPayload userId username issued (issued + expiresDelta)) else none) ∧
      (intTimestamp now ≤ intTimestamp (issued + expiresDelta) →
        ∀ (users : Users) (scheme : String), Text.asciiLower scheme = "bearer" →
          getCurrentUser lib users secretKey now (some (scheme, token)) =
            match (users.table.get userId).filter User.isActive with
            | none => .error (.httpException 401 "user not found or inactive")
            | some user => .ok user) ∧
      ∀ t ∈ [issued, issued + expiresDelta, now], 0 ≤ t → t < exactUntil →
        intTimestamp t = t / 1000000 := by
  obtain ⟨token, hcreate⟩ := createAccessToken_isOk lib userId username secretKey issued
    expiresDelta hrange
  have hdecode := decode_createAccessToken now hjson hcreate
  refine ⟨token, hcreate, hdecode, ?_, fun t _ => intTimestamp_eq⟩
  intro hvalid users scheme hscheme
  rw [if_pos hvalid] at hdecode
  exact getCurrentUser_of_payload hscheme hdecode

/- Five minutes, and the token is checked half a second after its last second began. -/
theorem createAccessToken_round_trip_alice :
    inDatetimeRange (1800000000000000 + 300000000) = true ∧
    ∃ token, createAccessToken aliceLib 7 "alice" "dev-change-me" 1800000000000000 300000000 =
        .ok token ∧
      decodeAccessToken aliceLib token "dev-change-me" 1800000300500000 =
        .ok (some (tokenPayload 7 "alice" 1800000000000000 (1800000000000000 + 300000000))) := by
  have hissued : intTimestamp 1800000000000000 = 1800000000 :=
    intTimestamp_eq (by decide) (by decide)
  have hexpires : intTimestamp (1800000000000000 + 300000000) = 1800000300 :=
    intTimestamp_eq (by decide) (by decide)
  have hnow : intTimestamp 1800000300500000 = 1800000300 :=
    intTimestamp_eq (by decide) (by decide)
  have hjson : aliceLib.loads (aliceLib.dumps
      (tokenPayload 7 "alice" 1800000000000000 (1800000000000000 + 300000000))) =
      some (.object (tokenPayload 7 "alice" 1800000000000000 (1800000000000000 + 300000000))) := by
    unfold tokenPayload
    rw [hissued, hexpires]
    exact if_pos rfl
  obtain ⟨token, hcreate, hdecode, -⟩ := createAccessToken_round_trip aliceLib 7 "alice"
    "dev-change-me" 1800000000000000 300000000 1800000300500000 (by decide) hjson
  rw [if_pos (Int.le_of_eq (hnow.trans hexpires.symm))] at hdecode
  exact ⟨by decide, token, hcreate, hdecode⟩

def epochLib : Stdlib :=
  textLib "\x7b\"sub\":\"7\",\"username\":\"alice\",\"iat\":10,\"exp\":0\x7d"
    [("sub", .string "7"), ("username", .string "alice"), ("iat", .number 10 0),
      ("exp", .number 0 0)]

/- int cuts towards zero: half a second before the epoch is second 0, not second -1, and the
token is still accepted in second 0. -/
theorem expires_before_epoch :
    ∃ token, createAccessToken epochLib 7 "alice" "dev-change-me" 10000000 (-10500000) =
        .ok token ∧
      epochLib.loads (epochLib.dumps (tokenPayload 7 "alice" 10000000 (10000000 + -10500000))) =
        some (.object (tokenPayload 7 "alice" 10000000 (10000000 + -10500000))) ∧
      decodeAccessToken epochLib token "dev-change-me" 0 =
        .ok (some [("sub", .string "7"), ("username", .string "alice"), ("iat", .number 10 0),
          ("exp", .number 0 0)]) ∧
      (10000000 + -10500000 : Time) / 1000000 = -1 ∧
      ¬ (0 : Time) / 1000000 ≤ (10000000 + -10500000) / 1000000 := by
  have hissued : intTimestamp 10000000 = 10 := intTimestamp_eq (by decide) (by decide)
  have hexpires : intTimestamp (10000000 + -10500000) = 0 := by
    unfold intTimestamp
    rw [wholeSeconds_eq (by decide)]
    rfl
  have hpayload : tokenPayload 7 "alice" 10000000 (10000000 + -10500000) =
      [("sub", .string "7"), ("username", .string "alice"), ("iat", .number 10 0),
        ("exp", .number 0 0)] := by
    unfold tokenPayload
    rw [hissued, hexpires]
    rfl
  have hjson : epochLib.loads (epochLib.dumps
      (tokenPayload 7 "alice" 10000000 (10000000 + -10500000))) =
      some (.object (tokenPayload 7 "alice" 10000000 (10000000 + -10500000))) := by
    rw [hpayload]
    exact if_pos rfl
  obtain ⟨token, hcreate⟩ := createAccessToken_isOk epochLib 7 "alice" "dev-change-me" 10000000
    (-10500000) (by decide)
  have hdecode := decode_createAccessToken 0 hjson hcreate
  rw [hexpires, if_pos (by decide), hpayload] at hdecode
  exact ⟨token, hcreate, hjson, hdecode, by decide, by decide⟩

end JobScheduler.Auth
