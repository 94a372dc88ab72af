import Mathlib.Data.List.DropRight
import Mathlib.Data.Nat.Notation

/-!
# Base64

Three bytes are four symbols of six bits. The last group of an encoding is filled up with pad
characters. Decoding skips characters outside the alphabet and stops at the padding of a
complete group.
-/

namespace Library
namespace Base64

structure Alphabet where
  symbol : ℕ → Char
  value : Char → Option ℕ
  pad : Char
  value_symbol : ∀ n < 64, value (symbol n) = some n
  symbol_ne_pad : ∀ n < 64, symbol n ≠ pad

/- The groups of six bits, first bit first; the last one is filled up with zeros. -/
def sextets : List UInt8 → List ℕ
  | [] => []
  | [a] => [a.toNat / 4, a.toNat % 4 * 16]
  | [a, b] => [a.toNat / 4, a.toNat % 4 * 16 + b.toNat / 16, b.toNat % 16 * 4]
  | a :: b :: c :: bs =>
    a.toNat / 4 :: (a.toNat % 4 * 16 + b.toNat / 16) :: (b.toNat % 16 * 4 + c.toNat / 64) ::
      c.toNat % 64 :: sextets bs

theorem sextets_lt (bs : List UInt8) : ∀ v ∈ sextets bs, v < 64 := by
  induction bs using sextets.induct with
  | case1 => simp [sextets]
  | case2 a =>
    have ha := a.toNat_lt
    simp only [sextets, List.forall_mem_cons]
    refine ⟨by omega, by omega, by simp⟩
  | case3 a b =>
    have ha := a.toNat_lt
    have hb := b.toNat_lt
    simp only [sextets, List.forall_mem_cons]
    refine ⟨by omega, by omega, by omega, by simp⟩
  | case4 a b c bs ih =>
    have ha := a.toNat_lt
    have hb := b.toNat_lt
    have hc := c.toNat_lt
    simp only [sextets, List.forall_mem_cons]
    exact ⟨by omega, by omega, by omega, by omega, ih⟩

/- The characters missing in the last group of four. -/
theorem length_sextets (bs : List UInt8) :
    (4 - (sextets bs).length % 4) % 4 = (3 - bs.length % 3) % 3 := by
  induction bs using sextets.induct with
  | case1 => rfl
  | case2 a => rfl
  | case3 a b => rfl
  | case4 a b c bs ih =>
    simp only [sextets, List.length_cons]
    omega

section
variable (A : Alphabet)

/- The encoding without its padding. -/
def symbols (bs : List UInt8) : List Char := (sextets bs).map A.symbol

def encode (bs : List UInt8) : List Char :=
  symbols A bs ++ List.replicate ((3 - bs.length % 3) % 3) A.pad

/- quad counts the symbols of the current group, left holds the bits of the last symbol that
are still to be used, pads counts the pad characters since then. -/
def decodeFrom : ℕ → ℕ → ℕ → List Char → Option (List UInt8)
  | quad, _, _, [] => if quad = 0 then some [] else none
  | quad, left, pads, c :: cs =>
    if c = A.pad then
      if 2 ≤ quad then
        if 4 ≤ quad + (pads + 1) then some [] else decodeFrom quad left (pads + 1) cs
      else decodeFrom quad left pads cs
    else
      match A.value c with
      | none => decodeFrom quad left pads cs
      | some v =>
        match quad with
        | 0 => decodeFrom 1 v 0 cs
        | 1 => (decodeFrom 2 (v % 16) 0 cs).map (UInt8.ofNat (left * 4 + v / 16) :: ·)
        | 2 => (decodeFrom 3 (v % 4) 0 cs).map (UInt8.ofNat (left * 16 + v / 4) :: ·)
        | _ => (decodeFrom 0 0 0 cs).map (UInt8.ofNat (left * 64 + v) :: ·)

/- none: the last group is incomplete. -/
def decode (cs : List Char) : Option (List UInt8) := decodeFrom A 0 0 0 cs

end

variable {A : Alphabet}

theorem mem_symbols {bs : List UInt8} {c : Char} (h : c ∈ symbols A bs) :
    ∃ v < 64, A.symbol v = c := by
  obtain ⟨v, hv, rfl⟩ := List.mem_map.mp h
  exact ⟨v, sextets_lt bs v hv, rfl⟩

theorem pad_notMem_symbols (bs : List UInt8) : A.pad ∉ symbols A bs := by
  intro h
  obtain ⟨v, hv, heq⟩ := mem_symbols h
  exact A.symbol_ne_pad v hv heq

theorem length_symbols (bs : List UInt8) : (symbols A bs).length = (sextets bs).length :=
  List.length_map ..

/-! ### Decoding symbol by symbol -/

section
variable {v left pads : ℕ} {cs : List Char}

theorem decodeFrom_first (hv : v < 64) :
    decodeFrom A 0 left pads (A.symbol v :: cs) = decodeFrom A 1 v 0 cs := by
  simp only [decodeFrom, if_neg (A.symbol_ne_pad v hv), A.value_symbol v hv]

theorem decodeFrom_second (hv : v < 64) :
    decodeFrom A 1 left pads (A.symbol v :: cs) =
      (decodeFrom A 2 (v % 16) 0 cs).map (UInt8.ofNat (left * 4 + v / 16) :: ·) := by
  simp only [decodeFrom, if_neg (A.symbol_ne_pad v hv), A.value_symbol v hv]

theorem decodeFrom_third (hv : v < 64) :
    decodeFrom A 2 left pads (A.symbol v :: cs) =
      (decodeFrom A 3 (v % 4) 0 cs).map (UInt8.ofNat (left * 16 + v / 4) :: ·) := by
  simp only [decodeFrom, if_neg (A.symbol_ne_pad v hv), A.value_symbol v hv]

theorem decodeFrom_fourth (hv : v < 64) :
    decodeFrom A 3 left pads (A.symbol v :: cs) =
      (decodeFrom A 0 0 0 cs).map (UInt8.ofNat (left * 64 + v) :: ·) := by
  simp only [decodeFrom, if_neg (A.symbol_ne_pad v hv), A.value_symbol v hv]

end

theorem ofNat_eq {n : ℕ} {b : UInt8} (h : n = b.toNat) : UInt8.ofNat n = b := by
  rw [h]
  exact UInt8.ofNat_toNat

/-- Decoding the padded encoding gives the bytes back. -/
theorem decode_encode (bs : List UInt8) : decode A (encode A bs) = some bs := by
  unfold decode encode symbols
  induction bs using sextets.induct with
  | case1 => rfl
  | case2 a =>
    have ha := a.toNat_lt
    simp only [sextets, List.map_cons, List.map_nil, List.cons_append, List.nil_append]
    rw [decodeFrom_first (by omega), decodeFrom_second (by omega)]
    rw [ofNat_eq (b := a) (by omega)]
    simp [decodeFrom]
  | case3 a b =>
    have ha := a.toNat_lt
    have hb := b.toNat_lt
    simp only [sextets, List.map_cons, List.map_nil, List.cons_append, List.nil_append]
    rw [decodeFrom_first (by omega), decodeFrom_second (by omega), decodeFrom_third (by omega)]
    rw [ofNat_eq (b := a) (by omega), ofNat_eq (b := b) (by omega)]
    simp [decodeFrom]
  | case4 a b c bs ih =>
    have ha := a.toNat_lt
    have hb := b.toNat_lt
    have hc := c.toNat_lt
    have hlen : (a :: b :: c :: bs).length % 3 = bs.length % 3 := by
      simp only [List.length_cons]
      omega
    simp only [sextets, List.map_cons, List.cons_append, hlen]
    rw [decodeFrom_first (by omega), decodeFrom_second (by omega), decodeFrom_third (by omega),
      decodeFrom_fourth (by omega), ih]
    rw [ofNat_eq (b := a) (by omega), ofNat_eq (b := b) (by omega), ofNat_eq (b := c) (by omega)]
    rfl

/-- The padding can be rebuilt from the length of the rest. -/
theorem decode_symbols (bs : List UInt8) :
    decode A (symbols A bs ++
      List.replicate ((4 - (symbols A bs).length % 4) % 4) A.pad) = some bs := by
  rw [length_symbols, length_sextets]
  exact decode_encode bs

/- The pad characters are those at the end of the encoding. -/
theorem rdropWhile_encode (bs : List UInt8) :
    (encode A bs).rdropWhile (fun c => decide (c = A.pad)) = symbols A bs := by
  have hpads : ∀ n : ℕ, (symbols A bs ++ List.replicate n A.pad).rdropWhile
      (fun c => decide (c = A.pad)) = (symbols A bs).rdropWhile fun c => decide (c = A.pad) := by
    intro n
    induction n with
    | zero => rw [List.replicate_zero, List.append_nil]
    | succ n ih =>
      rw [List.replicate_succ', ← List.append_assoc, List.rdropWhile_concat_pos _ _ _ (by simp), ih]
  unfold encode
  rw [hpads, List.rdropWhile_eq_self_iff]
  intro hne hlast
  have hmem := List.getLast_mem hne
  rw [of_decide_eq_true hlast] at hmem
  exact pad_notMem_symbols bs hmem

end Base64
end Library
