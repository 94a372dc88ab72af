import Mathlib.Algebra.Order.Ring.Nat
import JobScheduler.Common.Schemas
import JobScheduler.Library.Except
import JobScheduler.Library.Base64

/-!
# Access tokens (backend/common/auth.py)

A token is the payload in unpadded URL-safe base64, a dot, and the HMAC of that text in the
same encoding. `hmac`, `json.dumps` and `json.loads` are functions about which nothing is
assumed here. An int of Python is a number without exponent; `json.loads` reads a number with
a fraction or an exponent part as a float.
-/

namespace JobScheduler.Auth
open Library

/- hmac.new(key, message, sha256).digest(); json.dumps(payload).encode(); json.loads, where
none is a ValueError. -/
structure Stdlib where
  hmacSha256 : String → String → List UInt8
  dumps : List (String × Json) → List UInt8
  loads : List UInt8 → Option Json

/- What the functions of this module do not catch. -/
inductive Exc where
  | unicodeEncodeError
  | typeError
  | attributeError
  | overflowError
  deriving DecidableEq, Repr

/-! ### Unpadded base64 -/

def urlsafeSymbol (n : ℕ) : Char :=
  if n < 26 then Char.ofNat (65 + n)
  else if n < 52 then Char.ofNat (71 + n)
  else if n < 62 then Char.ofNat (n - 4)
  else if n = 62 then '-' else '_'

/- urlsafe_b64decode translates "-_" to "+/" and so reads either pair. -/
def urlsafeValue (c : Char) : Option ℕ :=
  let n := c.toNat
  if 65 ≤ n ∧ n ≤ 90 then some (n - 65)
  else if 97 ≤ n ∧ n ≤ 122 then some (n - 71)
  else if 48 ≤ n ∧ n ≤ 57 then some (n + 4)
  else if c = '+' ∨ c = '-' then some 62
  else if c = '/' ∨ c = '_' then some 63
  else none

def urlsafe : Base64.Alphabet where
  symbol := urlsafeSymbol
  value := urlsafeValue
  pad := '='
  value_symbol := by decide
  symbol_ne_pad := by decide

def b64encode (raw : List UInt8) : String :=
  String.ofList ((Base64.encode urlsafe raw).rdropWhile fun c => decide (c = '='))

/- A ValueError, for text that is not ASCII or for a group that is cut off, is none. -/
def b64decode (value : String) : Option (List UInt8) :=
  let padding := List.replicate (-(value.length : ℤ) % 4).toNat '='
  if Text.isAscii value then Base64.decode urlsafe (value.toList ++ padding) else none

theorem toList_b64encode (raw : List UInt8) :
    (b64encode raw).toList = Base64.symbols urlsafe raw := by
  unfold b64encode
  rw [String.toList_ofList]
  exact Base64.rdropWhile_encode (A := urlsafe) raw

/- Letters, digits, '-' and '_'. -/
theorem urlsafeSymbol_char :
    ∀ v < 64, (urlsafeSymbol v).toNat < 128 ∧ urlsafeSymbol v ≠ '.' := by
  decide

theorem isAscii_b64encode (raw : List UInt8) : Text.isAscii (b64encode raw) = true := by
  unfold Text.isAscii
  rw [toList_b64encode, List.all_eq_true]
  intro c hc
  obtain ⟨v, hv, rfl⟩ := Base64.mem_symbols hc
  exact decide_eq_true (urlsafeSymbol_char v hv).1

/- A character that is no symbol is not in an encoding. -/
theorem notMem_b64encode {c : Char} (h : ∀ v < 64, urlsafeSymbol v ≠ c) (raw : List UInt8) :
    c ∉ (b64encode raw).toList := by
  rw [toList_b64encode]
  intro hc
  obtain ⟨v, hv, heq⟩ := Base64.mem_symbols hc
  exact h v hv heq

theorem dot_notMem_b64encode (raw : List UInt8) : '.' ∉ (b64encode raw).toList := by
  apply notMem_b64encode
  intro v hv
  exact (urlsafeSymbol_char v hv).2

/-- The padding that the encoder strips is the padding that the decoder adds. -/
theorem b64decode_b64encode (raw : List UInt8) : b64decode (b64encode raw) = some raw := by
  have hpad : (-((b64encode raw).length : ℤ) % 4).toNat =
      (4 - (Base64.symbols urlsafe raw).length % 4) % 4 := by
    rw [← toList_b64encode, String.length_toList]
    omega
  unfold b64decode
  simp only [isAscii_b64encode, if_true, hpad, toList_b64encode]
  exact Base64.decode_symbols raw

/-! ### int(t.timestamp()) -/

/- The integer nearest to a / b, the even one when there are two. -/
def roundHalfEven (a b : ℕ) : ℕ :=
  if 2 * (a % b) < b ∨ (2 * (a % b) = b ∧ a / b % 2 = 0) then a / b else a / b + 1

/- The whole part of the double nearest to a / 10^6, which has 53 bits. -/
def wholeSeconds (a : ℕ) : ℕ :=
  let bits := 52 - Nat.log2 (a / 1000000)
  roundHalfEven (a * 2 ^ bits) 1000000 / 2 ^ bits

/- timestamp() divides the microseconds since the epoch by 10^6, as floats are divided; int
cuts towards zero. -/
def intTimestamp (t : Time) : ℤ := t.sign * wholeSeconds t.natAbs

-- datetime.min and datetime.max in UTC
def inDatetimeRange (t : Time) : Bool :=
  decide (-62135596800000000 ≤ t) && decide (t ≤ 253402300799999999)

/- 2^34 seconds, in the year 2514. -/
def exactUntil : Time := 17179869184000000

theorem roundHalfEven_le {a b n : ℕ} (hb : 0 < b) (h : n * b ≤ a) : n ≤ roundHalfEven a b := by
  have hdiv : n ≤ a / b := (Nat.le_div_iff_mul_le hb).mpr h
  unfold roundHalfEven
  split <;> omega

theorem roundHalfEven_lt {a b n : ℕ} (h : 2 * a + b < 2 * (n * b)) :
    roundHalfEven a b < n := by
  have hb : 0 < b := by
    apply Nat.pos_of_ne_zero
    intro hb
    rw [hb] at h
    omega
  have hmod := Nat.div_add_mod a b
  have hlt : a / b < n := by
    rw [Nat.div_lt_iff_lt_mul hb]
    omega
  unfold roundHalfEven
  split
  · exact hlt
  · rename_i hup
    -- the fraction is at least a half, so the quotient is not the last one below n
    apply Nat.lt_of_le_of_ne hlt
    intro heq
    have hn : n * b = b * (a / b) + b := by rw [← heq, Nat.succ_mul, Nat.mul_comm]
    omega

/-- Until then the rounding does not reach the next second. -/
theorem wholeSeconds_eq {a : ℕ} (h : (a : ℤ) < exactUntil) : wholeSeconds a = a / 1000000 := by
  unfold exactUntil at h
  have hlog : Nat.log2 (a / 1000000) ≤ 33 := by
    by_cases hzero : a / 1000000 = 0
    · rw [hzero]
      decide
    · have hlt := (Nat.log2_lt hzero (k := 34)).mpr (by omega)
      omega
  unfold wholeSeconds
  generalize hk : 52 - Nat.log2 (a / 1000000) = k
  have hpow : 2 ^ 19 ≤ 2 ^ k := Nat.pow_le_pow_right (by omega) (by omega)
  have hpos : 0 < 2 ^ k := Nat.pow_pos (by omega)
  have hdiv := Nat.div_add_mod a 1000000
  have hmod := Nat.mod_lt a (show 1000000 > 0 by omega)
  simp only
  apply Nat.le_antisymm
  · apply Nat.le_of_lt_succ
    rw [Nat.div_lt_iff_lt_mul hpos]
    apply roundHalfEven_lt
    -- a is at most 999999 microseconds above the whole second
    have hle : a + 1 ≤ (a / 1000000 + 1) * 1000000 := by omega
    have hmul := Nat.mul_le_mul_right (2 ^ k) hle
    have hcomm : (a / 1000000 + 1) * 2 ^ k * 1000000 = (a / 1000000 + 1) * 1000000 * 2 ^ k := by
      rw [Nat.mul_assoc, Nat.mul_comm (2 ^ k), Nat.mul_assoc]
    rw [Nat.succ_eq_add_one, hcomm]
    rw [Nat.add_mul, Nat.one_mul] at hmul
    omega
  · rw [Nat.le_div_iff_mul_le hpos]
    apply roundHalfEven_le (by omega)
    have hle : a / 1000000 * 1000000 ≤ a := by omega
    have hmul := Nat.mul_le_mul_right (2 ^ k) hle
    calc a / 1000000 * 2 ^ k * 1000000
        = a / 1000000 * 1000000 * 2 ^ k := by
          rw [Nat.mul_assoc, Nat.mul_comm (2 ^ k), Nat.mul_assoc]
      _ ≤ a * 2 ^ k := hmul

theorem intTimestamp_eq {t : Time} (hpos : 0 ≤ t) (h : t < exactUntil) :
    intTimestamp t = t / 1000000 := by
  obtain ⟨n, rfl⟩ := Int.eq_ofNat_of_zero_le hpos
  unfold intTimestamp
  rw [Int.natAbs_natCast, wholeSeconds_eq h]
  by_cases hn : n = 0
  · rw [hn]
    rfl
  · rw [Int.sign_natCast_of_ne_zero hn]
    omega

/-! ### Tokens -/

/- token.split(".", 1); none: there is no second part. -/
def splitDot (token : String) : Option (String × String) :=
  match token.toList.dropWhile fun c => decide (c ≠ '.') with
  | [] => none
  | _ :: rest =>
    some (String.ofList (token.toList.takeWhile fun c => decide (c ≠ '.')), String.ofList rest)

-- s.encode("ascii")
def encodeAscii (s : String) : Except Exc String :=
  if Text.isAscii s then .ok s else .error .unicodeEncodeError

-- hmac.compare_digest(a, b)
def compareDigest (a b : String) : Except Exc Bool :=
  if Text.isAscii a && Text.isAscii b then .ok (decide (a = b)) else .error .typeError

/- The value of an object for which isinstance(v, int) holds; bool is a subclass of int. -/
def asInt : Json → Option ℤ
  | .number mantissa exponent => if exponent = 0 then some mantissa else none
  | .bool b => some (if b then 1 else 0)
  | _ => none

def tokenPayload (userId : UserId) (username : String) (now expires : Time) :
    List (String × Json) :=
  [("sub", .string (toString userId)), ("username", .string username),
    ("iat", .number (intTimestamp now) 0), ("exp", .number (intTimestamp expires) 0)]

section
variable (lib : Stdlib)

/- now + expires_delta raises outside the range of datetime. -/
def createAccessToken (userId : UserId) (username secretKey : String) (now : Time)
    (expiresDelta : ℤ) : Except Exc String :=
  if inDatetimeRange (now + expiresDelta) then
    let payloadRaw := b64encode (lib.dumps (tokenPayload userId username now (now + expiresDelta)))
    .ok (payloadRaw ++ "." ++ b64encode (lib.hmacSha256 secretKey payloadRaw))
  else .error .overflowError

/- Only the errors of the split and of the two decoders are caught. -/
def decodeAccessToken (token secretKey : String) (now : Time) :
    Except Exc (Option (List (String × Json))) :=
  match splitDot token with
  | none => .ok none
  | some (payloadRaw, signatureRaw) => do
    let message ← encodeAscii payloadRaw
    let expected := lib.hmacSha256 secretKey message
    if ← compareDigest (b64encode expected) signatureRaw then
      match (b64decode payloadRaw).bind lib.loads with
      | none => .ok none
      | some (.object payload) =>
        match (Schemas.specGet payload "exp").bind asInt with
        | none => .ok none
        | some exp => .ok (if exp < intTimestamp now then none else some payload)
      | some _ => .error .attributeError
    else .ok none

/-- The token is p.b64(HMAC(secret, p)), where p has no dot and decodes to this object, whose
exp is an integer not before the current second. -/
def Accepts (token secretKey : String) (now : Time) (payload : List (String × Json)) : Prop :=
  ∃ p : String, '.' ∉ p.toList ∧ token = p ++ "." ++ b64encode (lib.hmacSha256 secretKey p) ∧
    (b64decode p).bind lib.loads = some (.object payload) ∧
    ∃ exp, (Schemas.specGet payload "exp").bind asInt = some exp ∧ intTimestamp now ≤ exp

/-- Both parts of the token are ASCII, and the first one does not decode to a JSON value other
than an object under a correct signature. -/
def Readable (token secretKey : String) : Prop :=
  ∀ p s, splitDot token = some (p, s) → Text.isAscii p = true ∧ Text.isAscii s = true ∧
    (s = b64encode (lib.hmacSha256 secretKey p) →
      ∀ v, (b64decode p).bind lib.loads = some v → ∃ fields, v = .object fields)

end

theorem splitDot_eq_some {token p s : String} :
    splitDot token = some (p, s) ↔ token = p ++ "." ++ s ∧ '.' ∉ p.toList := by
  constructor
  · intro h
    have hparts := List.takeWhile_append_dropWhile
      (p := fun c => decide (c ≠ '.')) (l := token.toList)
    have htake : ∀ c ∈ token.toList.takeWhile fun c => decide (c ≠ '.'), c ≠ '.' := by
      intro c hc
      simpa using List.mem_takeWhile_imp hc
    unfold splitDot at h
    split at h
    · cases h
    · rename_i c rest hdrop
      cases h
      have hdot : c = '.' := by
        have hhead := List.head?_dropWhile_not (fun c => decide (c ≠ '.')) token.toList
        rw [hdrop] at hhead
        simpa using hhead
      rw [hdrop, hdot] at hparts
      constructor
      · apply String.toList_inj.mp
        simpa using hparts.symm
      · rw [String.toList_ofList]
        exact fun hmem => htake '.' hmem rfl
  · intro h
    obtain ⟨rfl, hdot⟩ := h
    have hall : ∀ c ∈ p.toList, decide (c ≠ '.') = true := by
      intro c hc
      apply decide_eq_true
      intro heq
      exact hdot (heq ▸ hc)
    have hlist : (p ++ "." ++ s).toList = p.toList ++ '.' :: s.toList := by
      simp
    unfold splitDot
    rw [hlist, List.dropWhile_append_of_pos hall, List.takeWhile_append_of_pos hall]
    simp

theorem encodeAscii_eq_ok {s message : String} :
    encodeAscii s = .ok message ↔ Text.isAscii s = true ∧ s = message := by
  unfold encodeAscii
  split <;> simp [*]

theorem compareDigest_eq_ok {raw : List UInt8} {s : String} {equal : Bool} :
    compareDigest (b64encode raw) s = .ok equal ↔
      Text.isAscii s = true ∧ decide (s = b64encode raw) = equal := by
  unfold compareDigest
  rw [isAscii_b64encode, Bool.true_and]
  split <;> simp [*, eq_comm]

theorem isAscii_of_b64decode {s : String} {raw : List UInt8} (h : b64decode s = some raw) :
    Text.isAscii s = true := by
  unfold b64decode at h
  split at h
  · assumption
  · cases h

/- A payload is returned for the accepted tokens, and for no others. -/
theorem decodeAccessToken_eq_some {lib : Stdlib} {token secretKey : String} {now : Time}
    {payload : List (String × Json)} :
    decodeAccessToken lib token secretKey now = .ok (some payload) ↔
      Accepts lib token secretKey now payload := by
  constructor
  · intro h
    unfold decodeAccessToken at h
    split at h
    · cases h
    · rename_i p s hsplit
      obtain ⟨htoken, hdot⟩ := splitDot_eq_some.mp hsplit
      obtain ⟨message, hmessage, h⟩ := bind_eq_ok.mp h
      obtain ⟨equal, hequal, h⟩ := bind_eq_ok.mp h
      obtain ⟨-, rfl⟩ := encodeAscii_eq_ok.mp hmessage
      obtain ⟨-, rfl⟩ := compareDigest_eq_ok.mp hequal
      split at h
      · rename_i hs
        split at h
        · cases h
        · rename_i fields hload
          split at h
          · cases h
          · rename_i exp hexp
            split at h
            · cases h
            · rename_i hnow
              cases h
              have hs := of_decide_eq_true hs
              exact ⟨p, hdot, by rw [htoken, hs], hload, exp, hexp, by omega⟩
        · cases h
      · cases h
  · intro h
    obtain ⟨p, hdot, rfl, hload, exp, hexp, hnow⟩ := h
    obtain ⟨raw, hraw, -⟩ := Option.bind_eq_some_iff.mp hload
    have hmessage := encodeAscii_eq_ok.mpr ⟨isAscii_of_b64decode hraw, rfl⟩
    have hequal := compareDigest_eq_ok.mpr
      ⟨isAscii_b64encode (lib.hmacSha256 secretKey p), decide_eq_true rfl⟩
    unfold decodeAccessToken
    rw [splitDot_eq_some.mpr ⟨rfl, hdot⟩]
    simp only [hmessage, hequal, bind, Except.bind, if_true, hload, hexp]
    rw [if_neg (by omega)]

/- decode_access_token raises on the other tokens. -/
theorem decodeAccessToken_isOk {lib : Stdlib} {token secretKey : String} {now : Time} :
    (∃ r, decodeAccessToken lib token secretKey now = .ok r) ↔ Readable lib token secretKey := by
  constructor
  · intro h p s hsplit
    obtain ⟨r, h⟩ := h
    unfold decodeAccessToken at h
    rw [hsplit] at h
    obtain ⟨message, hmessage, h⟩ := bind_eq_ok.mp h
    obtain ⟨equal, hequal, h⟩ := bind_eq_ok.mp h
    obtain ⟨hp, rfl⟩ := encodeAscii_eq_ok.mp hmessage
    obtain ⟨hs, rfl⟩ := compareDigest_eq_ok.mp hequal
    refine ⟨hp, hs, fun heq v hv => ?_⟩
    rw [if_pos (decide_eq_true heq), hv] at h
    cases v with
    | object fields => exact ⟨fields, rfl⟩
    | _ => cases h
  · intro h
    unfold decodeAccessToken
    cases hsplit : splitDot token with
    | none => exact ⟨_, rfl⟩
    | some parts =>
      obtain ⟨p, s⟩ := parts
      obtain ⟨hp, hs, hobject⟩ := h p s hsplit
      simp only [encodeAscii_eq_ok.mpr ⟨hp, rfl⟩, compareDigest_eq_ok.mpr ⟨hs, rfl⟩, bind,
        Except.bind, decide_eq_true_eq]
      split
      · rename_i heq
        split
        · exact ⟨_, rfl⟩
        · split <;> exact ⟨_, rfl⟩
        · rename_i v hnot hv
          obtain ⟨fields, rfl⟩ := hobject heq v hv
          exact absurd rfl (hnot fields)
      · exact ⟨_, rfl⟩

theorem createAccessToken_isOk (lib : Stdlib) (userId : UserId) (username secretKey : String)
    (issued : Time) (expiresDelta : ℤ) (h : inDatetimeRange (issued + expiresDelta) = true) :
    ∃ token, createAccessToken lib userId username secretKey issued expiresDelta = .ok token := by
  unfold createAccessToken
  rw [if_pos h]
  exact ⟨_, rfl⟩

/-- A token that create_access_token has made is accepted as long as its last second has not
passed, whenever the JSON text of its payload reads back. -/
theorem decode_createAccessToken {lib : Stdlib} {userId : UserId} {username secretKey : String}
    {issued : Time} {expiresDelta : ℤ} {token : String} (now : Time)
    (hjson : lib.loads (lib.dumps
        (tokenPayload userId username issued (issued + expiresDelta))) =
      some (.object (tokenPayload userId username issued (issued + expiresDelta))))
    (h : createAccessToken lib userId username secretKey issued expiresDelta = .ok token) :
    decodeAccessToken lib token secretKey now =
      .ok (if intTimestamp now ≤ intTimestamp (issued + expiresDelta) then
        some (tokenPayload userId username issued (issued + expiresDelta)) else none) := by
  unfold createAccessToken at h
  split at h
  · cases h
    unfold decodeAccessToken
    rw [splitDot_eq_some.mpr ⟨rfl, dot_notMem_b64encode _⟩]
    simp only [encodeAscii, compareDigest, isAscii_b64encode, Bool.and_self, if_true, decide_true,
      bind, Except.bind, b64decode_b64encode, Option.bind_some, hjson]
    have hexp : (Schemas.specGet (tokenPayload userId username issued (issued + expiresDelta))
        "exp").bind asInt = some (intTimestamp (issued + expiresDelta)) := by
      simp [Schemas.specGet, tokenPayload, asInt]
    rw [hexp]
    simp only
    split <;> split <;> first | rfl | omega
  · cases h

end JobScheduler.Auth
