import Mathlib.Algebra.Order.Group.Unbundled.Int
import Mathlib.Order.Bounds.Basic

/-!
# Walking along a partial successor

A successor that may end or raise is followed from a first element for as long as it stays
at or below a limit. `Walk next limit a b` says that this succeeds from `a` and that `b` is
the last element reached. A walk with a low limit can be continued with a higher one from
the element where it stopped.
-/

namespace Library

variable {α ε : Type*} [LinearOrder α] {next : α → Except ε (Option α)} {limit : α}

inductive Walk (next : α → Except ε (Option α)) (limit : α) : α → α → Prop where
  | ended {a : α} : next a = .ok none → Walk next limit a a
  | passed {a b : α} : next a = .ok (some b) → limit < b → Walk next limit a a
  | step {a b c : α} : next a = .ok (some b) → b ≤ limit → Walk next limit b c →
      Walk next limit a c

namespace Walk

theorem unique {a b c : α} (h : Walk next limit a b) (h' : Walk next limit a c) : b = c := by
  induction h with
  | ended hn =>
    cases h' with
    | ended => rfl
    | passed => rfl
    | step hs => simp [hn] at hs
  | passed hn hlt =>
    cases h' with
    | ended => rfl
    | passed => rfl
    | step hs hle =>
      rw [hn] at hs
      cases hs
      exact absurd hlt (not_lt.mpr hle)
  | step hn hle _ ih =>
    cases h' with
    | ended hs => simp [hn] at hs
    | passed hs hlt =>
      rw [hn] at hs
      cases hs
      exact absurd hlt (not_lt.mpr hle)
    | step hs _ hw =>
      rw [hn] at hs
      cases hs
      exact ih hw

/- Walking to a limit and from there to a later one is one walk. -/
theorem trans {limit' a b c : α} (h : Walk next limit a b) (hle : limit ≤ limit')
    (h' : Walk next limit' b c) : Walk next limit' a c := by
  induction h with
  | ended => exact h'
  | passed => exact h'
  | step hn hb _ ih => exact .step hn (hb.trans hle) (ih h')

theorem preserves {P : α → Prop} (hnext : ∀ a b, P a → next a = .ok (some b) → P b) {a b : α}
    (h : Walk next limit a b) (ha : P a) : P b := by
  induction h with
  | ended => exact ha
  | passed => exact ha
  | step hn _ _ ih => exact ih (hnext _ _ ha hn)

/- A walk along an increasing successor stays where it is or ends in (a, limit]. -/
theorem eq_or_lt (hlt : ∀ a b, next a = .ok (some b) → a < b) {a b : α}
    (h : Walk next limit a b) : b = a ∨ a < b ∧ b ≤ limit := by
  induction h with
  | ended => exact .inl rfl
  | passed => exact .inl rfl
  | step hn hle _ ih =>
    rcases ih with rfl | ⟨hab, hb⟩
    · exact .inr ⟨hlt _ _ hn, hle⟩
    · exact .inr ⟨(hlt _ _ hn).trans hab, hb⟩

/-- When the successor of every element met is the next element of S, the walk ends at the
greatest element of S up to the limit, or where it began if there is none. -/
theorem isGreatest {S : Set α} {start : α}
    (hnext : ∀ a ∈ insert start S, ∀ b, next a = .ok (some b) → IsLeast (S ∩ Set.Ioi a) b)
    (hend : ∀ a ∈ insert start S, next a = .ok none → S ∩ Set.Ioi a = ∅) {a b : α}
    (h : Walk next limit a b) (ha : a ∈ insert start S) :
    b = a ∧ S ∩ Set.Ioc a limit = ∅ ∨ IsGreatest (S ∩ Set.Ioc a limit) b := by
  induction h with
  | ended hn =>
    refine .inl ⟨rfl, Set.eq_empty_iff_forall_notMem.mpr ?_⟩
    rintro x ⟨hx, hax, -⟩
    exact Set.eq_empty_iff_forall_notMem.mp (hend _ ha hn) x ⟨hx, hax⟩
  | passed hn hlt =>
    refine .inl ⟨rfl, Set.eq_empty_iff_forall_notMem.mpr ?_⟩
    rintro x ⟨hx, hax, hxl⟩
    have hbx := (hnext _ ha _ hn).2 ⟨hx, hax⟩
    exact absurd (hlt.trans_le hbx) (not_lt.mpr hxl)
  | step hn hle _ ih =>
    rename_i a b c _
    obtain ⟨⟨hb, hab⟩, -⟩ := hnext _ ha _ hn
    rcases ih (Set.mem_insert_of_mem _ hb) with ⟨rfl, hnone⟩ | ⟨⟨hc, hbc, hcl⟩, hmax⟩
    · refine .inr ⟨⟨hb, hab, hle⟩, ?_⟩
      rintro x ⟨hx, -, hxl⟩
      by_contra hlt
      exact Set.eq_empty_iff_forall_notMem.mp hnone x ⟨hx, not_le.mp hlt, hxl⟩
    · refine .inr ⟨⟨hc, hab.trans hbc, hcl⟩, ?_⟩
      rintro x ⟨hx, -, hxl⟩
      rcases le_or_gt x b with hxb | hbx
      · exact hxb.trans hbc.le
      · exact hmax ⟨hx, hbx, hxl⟩

/-- Over the integers an increasing successor that does not raise is walked to the end. -/
theorem exists_walk {next : ℤ → Except ε (Option ℤ)} {limit : ℤ} {P : ℤ → Prop}
    (hlt : ∀ a b, next a = .ok (some b) → a < b) (hok : ∀ a, P a → ∃ o, next a = .ok o)
    (hP : ∀ a b, P a → next a = .ok (some b) → b ≤ limit → P b) {a : ℤ} (ha : P a) :
    ∃ b, Walk next limit a b := by
  -- the distance to the limit decreases with every element
  generalize hk : (limit - a).toNat = k
  induction k using Nat.strong_induction_on generalizing a with
  | _ k ih =>
    obtain ⟨o, ho⟩ := hok a ha
    cases o with
    | none => exact ⟨a, .ended ho⟩
    | some b =>
      rcases lt_or_ge limit b with hlb | hbl
      · exact ⟨a, .passed ho hlb⟩
      · have hab := hlt a b ho
        have hless : (limit - b).toNat < k := by omega
        obtain ⟨c, hc⟩ := ih _ hless (hP a b ha ho hbl) rfl
        exact ⟨c, .step ho hbl hc⟩

end Walk
end Library
