import JobScheduler.Common.Auth

/-!
# Password records (backend/common/auth.py)

A record is the name of the algorithm, the number of iterations, the salt and the digest, joined
by '$'. `verify_password` takes the parameters of PBKDF2 from the record. PBKDF2 is a function
about which nothing is assumed; a password is text that has a UTF-8 encoding.
-/

namespace JobScheduler.Auth

def pbkdf2Iterations : ℕ := 210000

inductive Pbkdf2Error where
  | valueError
  | overflowError
  deriving DecidableEq, Repr

-- s.encode("utf-8")
def encodeUtf8 (s : String) : List UInt8 := s.toUTF8.data.toList

/- int of a text with more digits is a ValueError (sys.int_info.default_max_str_digits). -/
def maxStrDigits : ℕ := 4300

/- What the try block of verify_password takes from a record. -/
structure PasswordRecord where
  iterations : ℤ
  salt : List UInt8
  digest : List UInt8
  deriving DecidableEq, Repr

-- int(iterations_raw)
def readIterations (raw : List Char) : Option ℤ :=
  if maxStrDigits < raw.countP fun c => (Text.decimalValue c).isSome then none
  else Text.parseInt (String.ofList raw)

/- none: verify_password returns False before the digest is computed. -/
def readRecord (passwordHash : String) : Option PasswordRecord :=
  match Text.split '$' 3 passwordHash.toList with
  | [algorithm, iterationsRaw, saltRaw, digestRaw] =>
    if String.ofList algorithm ≠ "pbkdf2_sha256" then none
    else do
      let iterations ← readIterations iterationsRaw
      let salt ← b64decode (String.ofList saltRaw)
      let expected ← b64decode (String.ofList digestRaw)
      return ⟨iterations, salt, expected⟩
  | _ => none

def recordText (salt digest : List UInt8) : String :=
  "pbkdf2_sha256$" ++ toString pbkdf2Iterations ++ "$" ++ b64encode salt ++ "$" ++ b64encode digest

section
variable (pbkdf2 : List UInt8 → List UInt8 → ℕ → List UInt8)

/- hashlib.pbkdf2_hmac takes a positive number of iterations below 2^31. -/
def pbkdf2Hmac (password salt : List UInt8) (iterations : ℤ) :
    Except Pbkdf2Error (List UInt8) :=
  if iterations < -(2 ^ 63) then .error .overflowError
  else if iterations < 1 then .error .valueError
  else if 2 ^ 31 ≤ iterations then .error .overflowError
  else .ok (pbkdf2 password salt iterations.toNat)

/- salt stands for secrets.token_bytes(16). -/
def hashPassword (password : String) (salt : List UInt8) : Except Pbkdf2Error String := do
  let digest ← pbkdf2Hmac pbkdf2 (encodeUtf8 password) salt pbkdf2Iterations
  return recordText salt digest

def verifyPassword (password passwordHash : String) : Except Pbkdf2Error Bool :=
  match readRecord passwordHash with
  | none => .ok false
  | some r => do
    let actual ← pbkdf2Hmac pbkdf2 (encodeUtf8 password) r.salt r.iterations
    return decide (actual = r.digest)

end

theorem pad_notMem_b64encode (raw : List UInt8) : '=' ∉ (b64encode raw).toList := by
  apply notMem_b64encode
  exact urlsafe.symbol_ne_pad

theorem dollar_notMem_b64encode (raw : List UInt8) : '$' ∉ (b64encode raw).toList := by
  apply notMem_b64encode
  decide

theorem dollar_notMem_toString (n : ℕ) : '$' ∉ (toString n).toList := by
  rw [Text.toList_toString]
  intro hc
  exact absurd (Text.isDigit_of_mem_toDigits hc) (by decide)

/- The four parts of a record. -/
theorem split_recordText (salt digest : List UInt8) :
    Text.split '$' 3 (recordText salt digest).toList =
      ["pbkdf2_sha256".toList, (toString pbkdf2Iterations).toList, (b64encode salt).toList,
        (b64encode digest).toList] := by
  have hlist : (recordText salt digest).toList = "pbkdf2_sha256".toList ++ '$' ::
      ((toString pbkdf2Iterations).toList ++ '$' ::
        ((b64encode salt).toList ++ '$' :: (b64encode digest).toList)) := by
    unfold recordText
    generalize toString pbkdf2Iterations = iterations
    simp
  have hname : '$' ∉ "pbkdf2_sha256".toList := by simp
  rw [hlist, Text.split_append hname, Text.split_append (dollar_notMem_toString _),
    Text.split_append (dollar_notMem_b64encode salt)]
  rfl

theorem readIterations_pbkdf2Iterations :
    readIterations (toString pbkdf2Iterations).toList = some (pbkdf2Iterations : ℤ) := by
  have hlength : (toString pbkdf2Iterations).toList.length ≤ maxStrDigits := by
    rw [Text.toList_toString]
    decide
  unfold readIterations
  rw [if_neg (Nat.not_lt.mpr (List.countP_le_length.trans hlength)), String.ofList_toList]
  exact Text.parseInt_toString pbkdf2Iterations

/-- The record gives back the salt and the digest that it was made from. -/
theorem readRecord_recordText (salt digest : List UInt8) :
    readRecord (recordText salt digest) = some ⟨pbkdf2Iterations, salt, digest⟩ := by
  unfold readRecord
  rw [split_recordText]
  simp only [String.ofList_toList, readIterations_pbkdf2Iterations, b64decode_b64encode]
  rfl

variable (pbkdf2 : List UInt8 → List UInt8 → ℕ → List UInt8)

theorem pbkdf2Hmac_pbkdf2Iterations (password salt : List UInt8) :
    pbkdf2Hmac pbkdf2 password salt pbkdf2Iterations =
      .ok (pbkdf2 password salt pbkdf2Iterations) := by
  unfold pbkdf2Hmac pbkdf2Iterations
  rw [if_neg (by omega), if_neg (by omega), if_neg (by omega)]
  rfl

theorem hashPassword_eq (password : String) (salt : List UInt8) :
    hashPassword pbkdf2 password salt =
      .ok (recordText salt (pbkdf2 (encodeUtf8 password) salt pbkdf2Iterations)) := by
  unfold hashPassword
  rw [pbkdf2Hmac_pbkdf2Iterations]
  rfl

theorem verifyPassword_recordText (password : String) (salt digest : List UInt8) :
    verifyPassword pbkdf2 password (recordText salt digest) =
      .ok (decide (pbkdf2 (encodeUtf8 password) salt pbkdf2Iterations = digest)) := by
  unfold verifyPassword
  rw [readRecord_recordText]
  simp only [pbkdf2Hmac_pbkdf2Iterations]
  rfl

/-- Unpadded base64 reads back, and a record accepts the passwords with the digest of its own. -/
theorem verifyPassword_hashPassword :
    (∀ raw : List UInt8, b64decode (b64encode raw) = some raw ∧ '=' ∉ (b64encode raw).toList ∧
      '.' ∉ (b64encode raw).toList ∧ '$' ∉ (b64encode raw).toList) ∧
    (∀ (q p : String) (salt : List UInt8), ∃ record accepted,
      hashPassword pbkdf2 p salt = .ok record ∧ verifyPassword pbkdf2 q record = .ok accepted ∧
      (accepted = true ↔ pbkdf2 (encodeUtf8 q) salt pbkdf2Iterations =
        pbkdf2 (encodeUtf8 p) salt pbkdf2Iterations)) ∧
    ∀ (p : String) (salt : List UInt8), ∃ record,
      hashPassword pbkdf2 p salt = .ok record ∧ verifyPassword pbkdf2 p record = .ok true := by
  constructor
  · intro raw
    exact ⟨b64decode_b64encode raw, pad_notMem_b64encode raw, dot_notMem_b64encode raw,
      dollar_notMem_b64encode raw⟩
  constructor
  · intro q p salt
    exact ⟨_, _, hashPassword_eq pbkdf2 p salt, verifyPassword_recordText pbkdf2 q salt _,
      decide_eq_true_iff⟩
  · intro p salt
    refine ⟨_, hashPassword_eq pbkdf2 p salt, ?_⟩
    rw [verifyPassword_recordText, decide_eq_true rfl]

end JobScheduler.Auth
