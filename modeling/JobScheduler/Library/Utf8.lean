import Mathlib.Algebra.Order.Ring.Nat
import Mathlib.Data.Nat.Notation
import Mathlib.Tactic.Ring

/-!
# UTF-8 with replacement

A decoder that reads one byte at a time. Of the bytes that are not part of a character, every
longest start of one becomes U+FFFD, and so does every other byte.
-/

namespace Library
namespace Utf8

/-- A character of which some bytes have been read: its value so far, the range of the next
byte and the number of bytes after that one. The last field keeps the value above ASCII. -/
structure Pending where
  value : ℕ
  low : ℕ
  high : ℕ
  further : ℕ
  tail : 128 ≤ low
  large : 128 ≤ (64 * value + (low - 128)) * 64 ^ further

def replacement : Char := Char.ofNat 0xFFFD

/-- The first byte of a character of several bytes. -/
def lead (b : ℕ) : Option Pending :=
  if h : 0xC2 ≤ b ∧ b < 0xE0 then some ⟨b - 0xC0, 0x80, 0xBF, 0, by omega, by omega⟩
  else if b = 0xE0 then some ⟨0, 0xA0, 0xBF, 1, by omega, by omega⟩
  else if b = 0xED then some ⟨0xD, 0x80, 0x9F, 1, by omega, by omega⟩
  else if h : 0xE0 < b ∧ b < 0xF0 then some ⟨b - 0xE0, 0x80, 0xBF, 1, by omega, by omega⟩
  else if b = 0xF0 then some ⟨0, 0x90, 0xBF, 2, by omega, by omega⟩
  else if h : 0xF0 < b ∧ b < 0xF4 then some ⟨b - 0xF0, 0x80, 0xBF, 2, by omega, by omega⟩
  else if b = 0xF4 then some ⟨4, 0x80, 0x8F, 2, by omega, by omega⟩
  else none

def start (b : ℕ) : List Char × Option Pending :=
  if b < 0x80 then ([Char.ofNat b], none)
  else
    match lead b with
    | some p => ([], some p)
    | none => ([replacement], none)

/-- Any byte after the first one. -/
def Pending.next (p : Pending) (b : ℕ) (h : p.low ≤ b) : List Char × Option Pending :=
  match hf : p.further with
  | 0 => ([Char.ofNat (64 * p.value + (b - 128))], none)
  | n + 1 =>
    ([], some
      { value := 64 * p.value + (b - 128)
        low := 0x80
        high := 0xBF
        further := n
        tail := by omega
        large := by
          have hlarge := p.large
          rw [hf, pow_succ] at hlarge
          have hle : 64 * p.value + (p.low - 128) ≤ 64 * p.value + (b - 128) := by omega
          calc 128 ≤ (64 * p.value + (p.low - 128)) * (64 ^ n * 64) := hlarge
            _ ≤ (64 * p.value + (b - 128)) * (64 ^ n * 64) := Nat.mul_le_mul_right _ hle
            _ = (64 * (64 * p.value + (b - 128)) + (0x80 - 128)) * 64 ^ n := by
              rw [Nat.sub_self]
              ring })

def step : Option Pending → ℕ → List Char × Option Pending
  | none, b => start b
  | some p, b =>
    if h : p.low ≤ b ∧ b ≤ p.high then p.next b h.1
    else (replacement :: (start b).1, (start b).2)

def decodeFrom : Option Pending → List UInt8 → List Char
  | none, [] => []
  | some _, [] => [replacement]
  | q, b :: bs => (step q b.toNat).1 ++ decodeFrom (step q b.toNat).2 bs

def decode (bs : List UInt8) : List Char := decodeFrom none bs

theorem start_ascii {b : ℕ} (h : b < 128) : start b = ([Char.ofNat b], none) := by
  rw [start, if_pos h]

theorem step_ascii (q : Option Pending) {b : ℕ} (h : b < 128) :
    (step q b).2 = none ∧
      (step q b).1 = decodeFrom q [] ++ [Char.ofNat b] := by
  cases q with
  | none => simp [step, start_ascii h, decodeFrom]
  | some p =>
    have hlow := p.tail
    have hno : ¬ (p.low ≤ b ∧ b ≤ p.high) := by omega
    simp [step, hno, start_ascii h, decodeFrom]

/-- An ASCII byte ends what comes before it. -/
theorem decodeFrom_append_ascii (q : Option Pending) (bs cs : List UInt8) {b : UInt8}
    (h : b.toNat < 128) :
    decodeFrom q (bs ++ b :: cs) = decodeFrom q bs ++ Char.ofNat b.toNat :: decode cs := by
  induction bs generalizing q with
  | nil =>
    obtain ⟨hnone, hout⟩ := step_ascii q h
    simp only [List.nil_append, decodeFrom, hnone, hout, decode]
    simp
  | cons a bs ih => simp only [List.cons_append, decodeFrom, ih, List.append_assoc]

theorem toNat_ofNat_large {n : ℕ} (h : 128 ≤ n) :
    128 ≤ (Char.ofNat n).toNat ∨ (Char.ofNat n).toNat = 0 := by
  by_cases hvalid : n.isValidChar
  · left
    rw [Char.ofNat, dif_pos hvalid]
    exact h
  · right
    rw [Char.ofNat, dif_neg hvalid]
    rfl

theorem ne_replacement {c : Char} (hascii : c.toNat < 128) : c ≠ replacement := by
  intro heq
  rw [heq] at hascii
  exact absurd hascii (by decide)

section
variable {c : Char} (hpos : 0 < c.toNat) (hascii : c.toNat < 128)
include hascii

theorem eq_of_mem_start {b : ℕ} (h : c ∈ (start b).1) : c.toNat = b := by
  unfold start at h
  split at h
  · rename_i hb
    have hvalid : b.isValidChar := Or.inl (by omega)
    rw [List.mem_singleton.mp h, Char.ofNat, dif_pos hvalid]
    rfl
  · split at h
    · simp at h
    · exact absurd (List.mem_singleton.mp h) (ne_replacement hascii)

include hpos

theorem eq_of_mem_step {q : Option Pending} {b : ℕ} (h : c ∈ (step q b).1) :
    c.toNat = b := by
  cases q with
  | none => exact eq_of_mem_start hascii h
  | some p =>
    simp only [step] at h
    split at h
    · rename_i hrange
      unfold Pending.next at h
      split at h
      · rename_i hf
        have hlarge := p.large
        rw [hf, pow_zero] at hlarge
        rw [List.mem_singleton] at h
        have hval := toNat_ofNat_large (n := 64 * p.value + (b - 128)) (by omega)
        rw [← h] at hval
        omega
      · simp at h
    · rcases List.mem_cons.mp h with h | h
      · exact absurd h (ne_replacement hascii)
      · exact eq_of_mem_start hascii h

/-- An ASCII character of the result has been a byte. -/
theorem mem_of_mem_decodeFrom {q : Option Pending} {bs : List UInt8}
    (h : c ∈ decodeFrom q bs) : ∃ b ∈ bs, c.toNat = b.toNat := by
  induction bs generalizing q with
  | nil =>
    cases q with
    | none => simp [decodeFrom] at h
    | some p => exact absurd (by simpa [decodeFrom] using h) (ne_replacement hascii)
  | cons a bs ih =>
    rw [decodeFrom] at h
    rcases List.mem_append.mp h with h | h
    · exact ⟨a, List.mem_cons_self, eq_of_mem_step hpos hascii h⟩
    · obtain ⟨b, hb, hcb⟩ := ih h
      exact ⟨b, List.mem_cons_of_mem a hb, hcb⟩

end

-- The euro sign, an overlong form, and a character cut off by another one.
example : decode [0xE2, 0x82, 0xAC, 0xE0, 0x80, 0x41, 0xF1, 0x80, 0xE1] =
    [Char.ofNat 0x20AC, replacement, replacement, 'A', replacement, replacement] := by decide

end Utf8
end Library
