import Mathlib.Data.List.Nodup

/-!
# Tables with an auto-incremented primary key

A table is a list of rows in the order in which their keys were allocated,
together with the sequence that hands out the next key. The two facts that make
the key a primary key (keys increase along the list, and every key in use is
below the sequence) are fields, so that a table with a repeated key cannot be
built. A deleted key is never handed out again.
-/

namespace Library

/-- Row types with a numeric primary key. -/
class Keyed (α : Type*) where
  key : α → ℕ

open Keyed

structure Table (α : Type*) [Keyed α] where
  rows : List α
  next : ℕ
  sorted : rows.Pairwise fun a b => key a < key b
  fresh : ∀ r ∈ rows, key r < next

namespace Table

variable {α : Type*} [Keyed α]

/-- The functions that may be used to rewrite a row in place. -/
def KeepsKey (f : α → α) : Prop := ∀ r, key (f r) = key r

def empty : Table α := ⟨[], 0, List.Pairwise.nil, fun _ h => absurd h List.not_mem_nil⟩

/-- Lookup by primary key. -/
def get (t : Table α) (i : ℕ) : Option α := t.rows.find? fun r => decide (key r = i)

/-- `INSERT` with the next value of the sequence as the key. -/
def insert (t : Table α) (mk : ℕ → α) (hmk : ∀ i, key (mk i) = i) : Table α where
  rows := t.rows ++ [mk t.next]
  next := t.next + 1
  sorted := by
    rw [List.pairwise_append]
    refine ⟨t.sorted, List.pairwise_singleton _ _, ?_⟩
    intro a ha b hb
    rw [List.mem_singleton.mp hb, hmk]
    exact t.fresh a ha
  fresh := by
    intro r hr
    rcases List.mem_append.mp hr with hr | hr
    · exact Nat.lt_succ_of_lt (t.fresh r hr)
    · rw [List.mem_singleton.mp hr, hmk]
      exact Nat.lt_succ_self _

/-- The row an `UPDATE ... SET f WHERE p` leaves in place of `r`. -/
def rewrite (p : α → Bool) (f : α → α) (r : α) : α := if p r then f r else r

theorem key_rewrite {f : α → α} (hf : KeepsKey f) (p : α → Bool) (r : α) :
    key (rewrite p f r) = key r := by
  unfold rewrite
  split
  · exact hf r
  · rfl

/-- `UPDATE ... SET f WHERE p`. -/
def update (t : Table α) (p : α → Bool) (f : α → α) (hf : KeepsKey f) : Table α where
  rows := t.rows.map (rewrite p f)
  next := t.next
  sorted := by
    rw [List.pairwise_map]
    refine t.sorted.imp ?_
    intro a b hab
    rwa [key_rewrite hf, key_rewrite hf]
  fresh := by
    intro r hr
    obtain ⟨a, ha, rfl⟩ := List.mem_map.mp hr
    rw [key_rewrite hf]
    exact t.fresh a ha

/-- `DELETE ... WHERE p`. The sequence keeps its value. -/
def deleteWhere (t : Table α) (p : α → Bool) : Table α where
  rows := t.rows.filter fun r => !p r
  next := t.next
  sorted := t.sorted.filter _
  fresh := fun r hr => t.fresh r (List.mem_of_mem_filter hr)

/-! ### Membership -/

theorem eq_of_key_eq (t : Table α) {a b : α} (ha : a ∈ t.rows) (hb : b ∈ t.rows)
    (h : key a = key b) : a = b := by
  have hn : (t.rows.map key).Nodup := List.pairwise_map.mpr (t.sorted.imp fun h => Nat.ne_of_lt h)
  exact List.inj_on_of_nodup_map hn ha hb h

theorem mem_rows_insert {t : Table α} {mk : ℕ → α} {hmk : ∀ i, key (mk i) = i} {r : α} :
    r ∈ (t.insert mk hmk).rows ↔ r ∈ t.rows ∨ r = mk t.next := by
  simp [insert]

theorem mem_rows_update {t : Table α} {p : α → Bool} {f : α → α} {hf : KeepsKey f} {r : α} :
    r ∈ (t.update p f hf).rows ↔ ∃ a ∈ t.rows, rewrite p f a = r := by
  simp [update]

theorem mem_rows_deleteWhere {t : Table α} {p : α → Bool} {r : α} :
    r ∈ (t.deleteWhere p).rows ↔ r ∈ t.rows ∧ p r = false := by
  simp [deleteWhere]

/-! ### Lookup -/

theorem get_eq_some {t : Table α} {i : ℕ} {r : α} :
    t.get i = some r ↔ r ∈ t.rows ∧ key r = i := by
  constructor
  · intro h
    have hk := List.find?_some h
    exact ⟨List.mem_of_find?_eq_some h, by simpa using hk⟩
  · rintro ⟨hr, hk⟩
    cases hg : t.get i with
    | none =>
      have hno := List.find?_eq_none.mp hg r hr
      simp [hk] at hno
    | some a =>
      have hka := List.find?_some hg
      have ha : key a = key r := by
        rw [hk]
        simpa using hka
      rw [t.eq_of_key_eq (List.mem_of_find?_eq_some hg) hr ha]

theorem get_eq_none {t : Table α} {i : ℕ} : t.get i = none ↔ ∀ r ∈ t.rows, key r ≠ i := by
  unfold get
  rw [List.find?_eq_none]
  simp

theorem get_of_mem {t : Table α} {r : α} (h : r ∈ t.rows) : t.get (key r) = some r :=
  get_eq_some.mpr ⟨h, rfl⟩

theorem mem_of_get {t : Table α} {i : ℕ} {r : α} (h : t.get i = some r) : r ∈ t.rows :=
  (get_eq_some.mp h).1

theorem key_of_get {t : Table α} {i : ℕ} {r : α} (h : t.get i = some r) : key r = i :=
  (get_eq_some.mp h).2

theorem lt_next_of_get {t : Table α} {i : ℕ} {r : α} (h : t.get i = some r) : i < t.next := by
  obtain ⟨hr, hk⟩ := get_eq_some.mp h
  rw [← hk]
  exact t.fresh r hr

theorem get_next (t : Table α) : t.get t.next = none :=
  get_eq_none.mpr fun r hr => Nat.ne_of_lt (t.fresh r hr)

/-- Looking a key up among the rows that satisfy `p`. -/
theorem filter_get (t : Table α) (p : α → Bool) (i : ℕ) :
    (t.get i).filter p = (t.rows.filter p).find? fun r => decide (key r = i) := by
  cases hget : (t.get i).filter p with
  | none =>
    refine (List.find?_eq_none.mpr fun r hr => ?_).symm
    obtain ⟨hmem, hp⟩ := List.mem_filter.mp hr
    rw [decide_eq_true_eq]
    rintro rfl
    rw [get_of_mem hmem, Option.filter_some_pos hp] at hget
    cases hget
  | some r =>
    obtain ⟨hr, hp⟩ := Option.filter_eq_some_iff.mp hget
    obtain ⟨hmem, hk⟩ := get_eq_some.mp hr
    cases hfind : (t.rows.filter p).find? fun r => decide (key r = i) with
    | none =>
      have hno := List.find?_eq_none.mp hfind r (List.mem_filter.mpr ⟨hmem, hp⟩)
      exact absurd (decide_eq_true hk) hno
    | some q =>
      have hq : key q = i := by simpa using List.find?_some hfind
      have hqm := List.mem_of_mem_filter (List.mem_of_find?_eq_some hfind)
      rw [t.eq_of_key_eq hmem hqm (hk.trans hq.symm)]

theorem get_insert (t : Table α) (mk : ℕ → α) (hmk : ∀ i, key (mk i) = i) (i : ℕ) :
    (t.insert mk hmk).get i = if i = t.next then some (mk t.next) else t.get i := by
  split
  · rename_i hi
    exact get_eq_some.mpr ⟨mem_rows_insert.mpr (Or.inr rfl), by rw [hmk, hi]⟩
  · rename_i hi
    cases hg : t.get i with
    | none =>
      refine get_eq_none.mpr fun r hr => ?_
      rcases mem_rows_insert.mp hr with hr | rfl
      · exact get_eq_none.mp hg r hr
      · rw [hmk]
        exact fun h => hi h.symm
    | some a =>
      obtain ⟨ha, hk⟩ := get_eq_some.mp hg
      exact get_eq_some.mpr ⟨mem_rows_insert.mpr (Or.inl ha), hk⟩

theorem get_update (t : Table α) (p : α → Bool) (f : α → α) (hf : KeepsKey f) (i : ℕ) :
    (t.update p f hf).get i = (t.get i).map (rewrite p f) := by
  cases hg : t.get i with
  | none =>
    refine get_eq_none.mpr fun r hr => ?_
    obtain ⟨a, ha, rfl⟩ := mem_rows_update.mp hr
    rw [key_rewrite hf]
    exact get_eq_none.mp hg a ha
  | some a =>
    obtain ⟨ha, hk⟩ := get_eq_some.mp hg
    exact get_eq_some.mpr ⟨mem_rows_update.mpr ⟨a, ha, rfl⟩, by rw [key_rewrite hf, hk]⟩

theorem get_deleteWhere (t : Table α) (p : α → Bool) (i : ℕ) :
    (t.deleteWhere p).get i = (t.get i).filter fun r => !p r := by
  cases hg : t.get i with
  | none =>
    refine get_eq_none.mpr fun r hr => ?_
    exact get_eq_none.mp hg r (mem_rows_deleteWhere.mp hr).1
  | some a =>
    obtain ⟨ha, hk⟩ := get_eq_some.mp hg
    cases hp : p a with
    | false =>
      have hmem : a ∈ (t.deleteWhere p).rows := mem_rows_deleteWhere.mpr ⟨ha, hp⟩
      rw [get_eq_some.mpr ⟨hmem, hk⟩, Option.filter_some_pos (by simp [hp])]
    | true =>
      have hnone : (t.deleteWhere p).get i = none := by
        refine get_eq_none.mpr fun r hr hkr => ?_
        obtain ⟨hr, hpr⟩ := mem_rows_deleteWhere.mp hr
        rw [t.eq_of_key_eq hr ha (hkr.trans hk.symm), hp] at hpr
        cases hpr
      rw [hnone, Option.filter_some_neg (by simp [hp])]

/-! ### Tables with the same rows -/

/-- Selections of two tables are the same list when they have the same rows: both lists are in
the order of the keys. -/
theorem filter_rows_congr {t u : Table α} {p q : α → Bool}
    (h : ∀ r, r ∈ t.rows ∧ p r = true ↔ r ∈ u.rows ∧ q r = true) :
    t.rows.filter p = u.rows.filter q := by
  have hnodup : ∀ (v : Table α) (f : α → Bool), (v.rows.filter f).Nodup := fun v f =>
    List.Nodup.filter f (v.sorted.imp fun hlt heq => Nat.ne_of_lt hlt (congrArg key heq))
  have hperm : (t.rows.filter p).Perm (u.rows.filter q) :=
    (List.perm_ext_iff_of_nodup (hnodup t p) (hnodup u q)).mpr fun r => by
      rw [List.mem_filter, List.mem_filter]
      exact h r
  have hasymm : ∀ a b, a ∈ t.rows.filter p → b ∈ u.rows.filter q → key a < key b →
      key b < key a → a = b := fun _ _ _ _ hab hba => absurd hab (Nat.lt_asymm hba)
  exact List.Perm.eq_of_pairwise hasymm (t.sorted.filter p) (u.sorted.filter q) hperm

/-! ### Queries for at most one row -/

/-- A query matches at most one row when any two matching rows are equal. -/
theorem length_filter_le_one {t : Table α} {p : α → Bool} :
    (t.rows.filter p).length ≤ 1 ↔
      ∀ a ∈ t.rows, ∀ b ∈ t.rows, p a = true → p b = true → a = b := by
  constructor
  · intro hlen a ha b hb hpa hpb
    have hma : a ∈ t.rows.filter p := List.mem_filter.mpr ⟨ha, hpa⟩
    have hmb : b ∈ t.rows.filter p := List.mem_filter.mpr ⟨hb, hpb⟩
    match hl : t.rows.filter p with
    | [] =>
      rw [hl] at hma
      cases hma
    | [c] =>
      rw [hl, List.mem_singleton] at hma hmb
      rw [hma, hmb]
    | _ :: _ :: _ =>
      rw [hl, List.length_cons, List.length_cons] at hlen
      omega
  · intro hall
    match hl : t.rows.filter p with
    | [] => exact Nat.zero_le 1
    | [_] => exact Nat.le_refl 1
    | a :: b :: _ =>
      exfalso
      -- two rows of the answer stand in the order of their keys
      have hsorted := t.sorted.filter p
      rw [hl] at hsorted
      have hab : key a < key b := (List.pairwise_cons.mp hsorted).1 b (List.mem_cons_self ..)
      have ha : a ∈ t.rows.filter p := by simp [hl]
      have hb : b ∈ t.rows.filter p := by simp [hl]
      obtain ⟨ha, hpa⟩ := List.mem_filter.mp ha
      obtain ⟨hb, hpb⟩ := List.mem_filter.mp hb
      rw [hall a ha b hb hpa hpb] at hab
      exact Nat.lt_irrefl _ hab

/-- The first row of an answer has the least key in it. -/
theorem key_le_of_find? {t : Table α} {p : α → Bool} {a b : α} (ha : t.rows.find? p = some a)
    (hb : b ∈ t.rows) (hp : p b = true) : key a ≤ key b := by
  obtain ⟨-, l, m, hrows, hl⟩ := List.find?_eq_some_iff_append.mp ha
  have hsorted := t.sorted
  rw [hrows] at hb hsorted
  rcases List.mem_append.mp hb with hb | hb
  · have hno := hl b hb
    rw [hp] at hno
    cases hno
  · rcases List.mem_cons.mp hb with rfl | hb
    · exact Nat.le_refl _
    · obtain ⟨-, hm, -⟩ := List.pairwise_append.mp hsorted
      exact Nat.le_of_lt ((List.pairwise_cons.mp hm).1 b hb)

/-! ### Counting -/

/-- An update of one row changes a count by what that row counts. -/
theorem countP_update_key {t : Table α} {a : α} (ha : t.get (key a) = some a) (q : α → Bool)
    (f : α → α) (hf : KeepsKey f) :
    (t.update (fun r => decide (key r = key a)) f hf).rows.countP q + (if q a then 1 else 0) =
      t.rows.countP q + (if q (f a) then 1 else 0) := by
  obtain ⟨l, m, hrows⟩ := List.append_of_mem (mem_of_get ha)
  have hsorted := t.sorted
  rw [hrows] at hsorted
  obtain ⟨-, hm, hl⟩ := List.pairwise_append.mp hsorted
  have hkeep : ∀ xs : List α, (∀ r ∈ xs, key r ≠ key a) →
      xs.map (rewrite (fun r => decide (key r = key a)) f) = xs := by
    intro xs hxs
    conv_rhs => rw [← List.map_id xs]
    refine List.map_congr_left fun r hr => ?_
    simp [rewrite, hxs r hr]
  have hmap : (t.update (fun r => decide (key r = key a)) f hf).rows = l ++ f a :: m := by
    show t.rows.map _ = _
    rw [hrows, List.map_append, List.map_cons,
      hkeep l fun r hr => Nat.ne_of_lt (hl r hr a (List.mem_cons_self ..)),
      hkeep m fun r hr => Nat.ne_of_gt ((List.pairwise_cons.mp hm).1 r hr)]
    simp [rewrite]
  rw [hmap, hrows]
  simp only [List.countP_append, List.countP_cons]
  omega

theorem countP_deleteWhere_key {t : Table α} {a : α} (ha : t.get (key a) = some a) (q : α → Bool) :
    (t.deleteWhere fun r => decide (key r = key a)).rows.countP q + (if q a then 1 else 0) =
      t.rows.countP q := by
  obtain ⟨l, m, hrows⟩ := List.append_of_mem (mem_of_get ha)
  have hsorted := t.sorted
  rw [hrows] at hsorted
  obtain ⟨-, hm, hl⟩ := List.pairwise_append.mp hsorted
  have hkeep : ∀ xs : List α, (∀ r ∈ xs, key r ≠ key a) →
      xs.filter (fun r => !decide (key r = key a)) = xs := by
    intro xs hxs
    exact List.filter_eq_self.mpr fun r hr => by simp [hxs r hr]
  have hfilter : (t.deleteWhere fun r => decide (key r = key a)).rows = l ++ m := by
    show t.rows.filter _ = _
    rw [hrows, List.filter_append, List.filter_cons_of_neg (by simp),
      hkeep l fun r hr => Nat.ne_of_lt (hl r hr a (List.mem_cons_self ..)),
      hkeep m fun r hr => Nat.ne_of_gt ((List.pairwise_cons.mp hm).1 r hr)]
  rw [hfilter, hrows]
  simp only [List.countP_append, List.countP_cons]
  omega

end Table
end Library
