import Mathlib.Data.List.DropRight
import Mathlib.Data.Int.Notation

/-!
# Text and digits as Python sees them

`str.isdigit` accepts every character with the Unicode property Numeric_Type = Digit
or Decimal, `int` only the decimal ones (Unicode 15, the version of Python 3.12): the
two functions disagree on superscripts, circled digits and the like.
-/

namespace JobScheduler.Text

/- Code points of the zeros; each starts a block of ten decimal digits. -/
def decimalZeros : List ℕ :=
  [48, 1632, 1776, 1984, 2406, 2534, 2662, 2790, 2918, 3046, 3174, 3302, 3430, 3558, 3664,
   3792, 3872, 4160, 4240, 6112, 6160, 6470, 6608, 6784, 6800, 6992, 7088, 7232, 7248, 42528,
   43216, 43264, 43472, 43504, 43600, 44016, 65296, 66720, 68912, 69734, 69872, 69942, 70096,
   70384, 70736, 70864, 71248, 71360, 71472, 71904, 72016, 72784, 73040, 73120, 73552, 92768,
   92864, 93008, 120782, 120792, 120802, 120812, 120822, 123200, 123632, 124144, 125264, 130032]

/- Ranges of the characters that are digits without being decimal. -/
def otherDigits : List (ℕ × ℕ) :=
  [(178, 179), (185, 185), (4969, 4977), (6618, 6618), (8304, 8304), (8308, 8313), (8320, 8329),
   (9312, 9320), (9332, 9340), (9352, 9360), (9450, 9450), (9461, 9469), (9471, 9471),
   (10102, 10110), (10112, 10120), (10122, 10130), (68160, 68163), (69216, 69224),
   (69714, 69722), (127232, 127242)]

-- unicodedata.decimal
def decimalValue (c : Char) : Option ℕ :=
  (decimalZeros.find? fun z => decide (z ≤ c.toNat) && decide (c.toNat < z + 10)).map
    fun z => c.toNat - z

def isDigitChar (c : Char) : Bool :=
  (decimalValue c).isSome ||
    otherDigits.any fun (a, b) => decide (a ≤ c.toNat) && decide (c.toNat ≤ b)

-- str.isdigit
def isdigit (s : String) : Bool := !s.toList.isEmpty && s.toList.all isDigitChar

def intOfDigits : ℕ → List Char → Option ℕ
  | acc, [] => some acc
  | acc, c :: cs =>
    match decimalValue c with
    | some d => intOfDigits (10 * acc + d) cs
    | none => none

/- int(s) for a string that passes isdigit; none is the ValueError. -/
def int (s : String) : Option ℕ := intOfDigits 0 s.toList

/-! ### int of any string -/

-- str.isspace
def isSpace (c : Char) : Bool :=
  [(9, 13), (28, 32), (133, 133), (160, 160), (5760, 5760), (8192, 8202), (8232, 8233),
    (8239, 8239), (8287, 8287), (12288, 12288)].any
    fun (a, b) => decide (a ≤ c.toNat) && decide (c.toNat ≤ b)

def stripWhile (p : Char → Bool) (cs : List Char) : List Char := (cs.dropWhile p).rdropWhile p

-- str.strip
def strip (cs : List Char) : List Char := stripWhile isSpace cs

/- int does not skip the four separators U+001C to U+001F. -/
def isIntSpace (c : Char) : Bool :=
  isSpace c && !(decide (28 ≤ c.toNat) && decide (c.toNat ≤ 31))

/- Single underscores may stand between two digits. -/
def intOfGroups : ℕ → Bool → List Char → Option ℕ
  | acc, afterDigit, [] => if afterDigit then some acc else none
  | acc, afterDigit, c :: cs =>
    match decimalValue c with
    | some d => intOfGroups (10 * acc + d) true cs
    | none => if c = '_' && afterDigit then intOfGroups acc false cs else none

/- int(s); none is the ValueError. -/
def parseInt (s : String) : Option ℤ :=
  match stripWhile isIntSpace s.toList with
  | '-' :: cs => (intOfGroups 0 false cs).map fun n => -(n : ℤ)
  | '+' :: cs => (intOfGroups 0 false cs).map fun n => (n : ℤ)
  | cs => (intOfGroups 0 false cs).map fun n => (n : ℤ)

-- str.isascii
def isAscii (s : String) : Bool := s.toList.all fun c => decide (c.toNat < 128)

/- str.split(sep, maxsplit) -/
def split (sep : Char) : ℕ → List Char → List (List Char)
  | 0, cs => [cs]
  | maxsplit + 1, cs =>
    match cs.dropWhile fun c => decide (c ≠ sep) with
    | [] => [cs]
    | _ :: rest => (cs.takeWhile fun c => decide (c ≠ sep)) :: split sep maxsplit rest

/- str.lower, where the result is compared with ASCII text other than 'k': no other character
becomes one of its letters. -/
def asciiLower (s : String) : String := String.ofList (s.toList.map Char.toLower)

/- The first part ends at the first separator. -/
theorem split_append {sep : Char} {xs : List Char} (hsep : sep ∉ xs) (maxsplit : ℕ)
    (rest : List Char) :
    split sep (maxsplit + 1) (xs ++ sep :: rest) = xs :: split sep maxsplit rest := by
  have hall : ∀ c ∈ xs, decide (c ≠ sep) = true := by
    intro c hc
    apply decide_eq_true
    intro heq
    exact hsep (heq ▸ hc)
  simp only [split, List.dropWhile_append_of_pos hall, List.takeWhile_append_of_pos hall]
  simp

example : split '$' 1 ['a', '$', 'b', '$', 'c'] = [['a'], ['b', '$', 'c']] := by decide

theorem intOfGroups_append {xs ys : List Char} {acc v : ℕ} {afterDigit : Bool}
    (h : intOfGroups acc afterDigit xs = some v) :
    intOfGroups acc afterDigit (xs ++ ys) = intOfGroups v true ys := by
  induction xs generalizing acc afterDigit with
  | nil =>
    cases afterDigit with
    | true =>
      simp only [intOfGroups, if_true, Option.some.injEq] at h
      rw [List.nil_append, h]
    | false => simp [intOfGroups] at h
  | cons c xs ih =>
    simp only [List.cons_append, intOfGroups] at h ⊢
    split at h
    · exact ih h
    · split at h
      · rename_i hc
        rw [if_pos hc]
        exact ih h
      · cases h

theorem decimalValue_digitChar : ∀ d < 10, decimalValue d.digitChar = some d := by
  decide

theorem intOfGroups_toDigits (n : ℕ) : intOfGroups 0 false (Nat.toDigits 10 n) = some n := by
  induction n using Nat.strongRecOn with
  | ind n ih =>
    by_cases hn : n < 10
    · rw [Nat.toDigits_of_lt_base hn]
      simp [intOfGroups, decimalValue_digitChar n hn]
    · rw [Nat.toDigits_of_base_le (by omega) (by omega),
        intOfGroups_append (ih (n / 10) (by omega))]
      simp only [intOfGroups, decimalValue_digitChar (n % 10) (by omega), if_true]
      congr 1
      omega

theorem not_isSpace_of_isDigit {c : Char} (h : c.isDigit = true) : isSpace c = false := by
  simp only [Char.isDigit, Bool.and_eq_true, decide_eq_true_eq, ge_iff_le, UInt32.le_iff_toNat_le]
    at h
  have hlow : 48 ≤ c.toNat := h.1
  have hhigh : c.toNat ≤ 57 := h.2
  simp only [isSpace, List.any_cons, List.any_nil, Bool.or_false, Bool.or_eq_false_iff,
    Bool.and_eq_false_iff, decide_eq_false_iff_not]
  omega

theorem not_isIntSpace_of_isDigit {c : Char} (h : c.isDigit = true) : isIntSpace c = false := by
  rw [isIntSpace, not_isSpace_of_isDigit h, Bool.false_and]

theorem toList_toString (n : ℕ) : (toString n).toList = Nat.toDigits 10 n :=
  String.toList_ofList

theorem isDigit_of_mem_toDigits {n : ℕ} {c : Char} (hc : c ∈ Nat.toDigits 10 n) :
    c.isDigit = true :=
  Nat.isDigit_of_mem_toDigits (by omega) (by omega) hc

/-- int(str(n)) = n -/
theorem parseInt_toString (n : ℕ) : parseInt (toString n) = some (n : ℤ) := by
  have hdigit : ∀ c ∈ Nat.toDigits 10 n, c.isDigit = true := fun _ => isDigit_of_mem_toDigits
  have hvalue := intOfGroups_toDigits n
  have hstrip : stripWhile isIntSpace (Nat.toDigits 10 n) = Nat.toDigits 10 n := by
    unfold stripWhile
    rw [List.dropWhile_eq_self_iff.mpr, List.rdropWhile_eq_self_iff.mpr]
    · intro hne
      rw [not_isIntSpace_of_isDigit (hdigit _ (List.getLast_mem hne))]
      exact Bool.false_ne_true
    · intro hpos
      rw [not_isIntSpace_of_isDigit (hdigit _ (List.getElem_mem hpos))]
      exact Bool.false_ne_true
  unfold parseInt
  rw [toList_toString, hstrip]
  split
  · rename_i cs heq
    rw [heq] at hdigit
    exact absurd (hdigit '-' (List.mem_cons_self ..)) (by decide)
  · rename_i cs heq
    rw [heq] at hdigit
    exact absurd (hdigit '+' (List.mem_cons_self ..)) (by decide)
  · rw [hvalue]
    rfl

end JobScheduler.Text
