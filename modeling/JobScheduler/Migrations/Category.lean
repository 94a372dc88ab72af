import Mathlib.Data.List.Forall2
import JobScheduler.Common.Models
import JobScheduler.Library.Regex

/-!
# Revision 0004 (migrations/versions/0004_category_and_cancel.py)

`upgrade` adds the column `category` to the table `jobs` and fills it from descriptions
of the form `[category] text`. The class `\s` depends on the locale of the database; it is
a parameter.
-/

namespace JobScheduler.Migrations
open Library

/- A row of jobs at revision 0003. -/
structure Row0003 where
  id : JobId
  ownerUserId : Option UserId
  name : String
  description : Option String
  taskType : String
  taskSpec : Json
  scheduleType : String
  scheduleExpr : Option String
  timezone : String
  enabled : Bool
  maxRetries : ℤ
  retryBackoffSec : ℤ
  timeoutSec : ℤ
  lastScheduledFor : Option Time
  createdAt : Time
  updatedAt : Time

structure Row0004 extends Row0003 where
  category : Option String

-- op.add_column("jobs", sa.Column("category", sa.String(length=64), nullable=True))
def addColumn (row : Row0003) : Row0004 := { row with category := none }

def categoryLength : ℕ := 64

/- Assignment to a column varchar(n); none is the error "value too long". -/
def varchar (n : ℕ) : Option String → Option (Option String)
  | none => some none
  | some v => if v.length ≤ n then some (some v) else none

def opening : Regex Char := .one (· == '[')
def inside : Regex Char := .plus (.one (· != ']'))
def closing : Regex Char := .one (· == ']')

-- '^\[[^\]]+\]'
def filterPattern : Regex Char := .seq opening (.seq inside closing)

section Upgrade
variable (isSpace : Char → Bool)

-- '^\[[^\]]+\]\s*'
def removalPattern : Regex Char :=
  .seq opening (.seq inside (.seq closing (.star (.one isSpace))))

-- description ~ '^\[[^\]]+\]'
def isBracketed (text : String) : Bool := (filterPattern.matchStart text.toList).isSome

-- substring(description from '^\[([^\]]+)\]')
def substring (text : String) : Option String :=
  (Regex.capture opening inside closing text.toList).map String.ofList

-- regexp_replace(description, '^\[[^\]]+\]\s*', '')
def regexpReplace (text : String) : String :=
  match (removalPattern isSpace).matchStart text.toList with
  | some (_, rest) => "" ++ String.ofList rest
  | none => text

/- One row of the UPDATE; a NULL description makes the condition NULL. -/
def backfill (row : Row0004) : Option Row0004 :=
  match row.description with
  | none => some row
  | some text =>
    if isBracketed text then do
      let category ← varchar categoryLength (substring text)
      return { row with category, description := some (regexpReplace isSpace text) }
    else some row

def upgrade (jobs : List Row0003) : Option (List Row0004) :=
  (jobs.map addColumn).mapM (backfill isSpace)

end Upgrade

/- The text starts with a non-empty prefix in brackets. -/
structure Prefixed (text inner rest : List Char) : Prop where
  split : text = '[' :: (inner ++ ']' :: rest)
  nonempty : inner ≠ []
  noBracket : ']' ∉ inner

/- Texts without brackets are told apart by the first bracket after them. -/
theorem takeWhile_inner {c u : List Char} (hc : ']' ∉ c) :
    (c ++ ']' :: u).takeWhile (· != ']') = c := by
  have hall : ∀ a ∈ c, (a != ']') = true := by
    intro a ha
    rw [bne_iff_ne]
    intro heq
    exact hc (heq ▸ ha)
  simp [List.takeWhile_append_of_pos hall]

theorem Prefixed.unique {text c d u v : List Char} (h : Prefixed text c u)
    (h' : Prefixed text d v) : c = d ∧ u = v := by
  have heq := h.split.symm.trans h'.split
  rw [List.cons.injEq] at heq
  have hinner : c = d := by
    rw [← takeWhile_inner (u := u) h.noBracket, heq.2, takeWhile_inner h'.noBracket]
  subst hinner
  have hrest := List.append_cancel_left heq.2
  rw [List.cons.injEq] at hrest
  exact ⟨rfl, hrest.2⟩

/-! ### The three patterns -/

theorem mem_inside {xs : List Char} : xs ∈ inside.language ↔ xs ≠ [] ∧ ']' ∉ xs := by
  rw [inside, Regex.mem_plus_one]
  constructor
  · intro h
    refine ⟨h.1, ?_⟩
    intro hmem
    simpa using h.2 ']' hmem
  · intro h
    refine ⟨h.1, ?_⟩
    intro a ha
    rw [bne_iff_ne]
    intro heq
    exact h.2 (heq ▸ ha)

theorem mem_closing {xs : List Char} : xs ∈ closing.language ↔ xs = [']'] := by
  constructor
  · intro h
    obtain ⟨a, ha, rfl⟩ := h
    rw [beq_iff_eq.mp ha]
  · intro h
    exact ⟨']', rfl, h⟩

theorem mem_opening_seq {s : Regex Char} {xs : List Char} :
    xs ∈ (Regex.seq opening s).language ↔ ∃ ys ∈ s.language, xs = '[' :: ys := by
  rw [opening, Regex.mem_seq_one]
  constructor
  · intro h
    obtain ⟨a, ys, ha, hys, rfl⟩ := h
    exact ⟨ys, hys, by rw [beq_iff_eq.mp ha]⟩
  · intro h
    obtain ⟨ys, hys, rfl⟩ := h
    exact ⟨'[', ys, rfl, hys, rfl⟩

theorem mem_filterPattern {xs : List Char} :
    xs ∈ filterPattern.language ↔ ∃ c, Prefixed xs c [] := by
  rw [filterPattern, mem_opening_seq]
  constructor
  · intro h
    obtain ⟨ys, hys, rfl⟩ := h
    rw [Regex.language, Language.mem_mul] at hys
    obtain ⟨c, hc, w, hw, rfl⟩ := hys
    rw [mem_closing] at hw
    rw [mem_inside] at hc
    exact ⟨c, by rw [hw], hc.1, hc.2⟩
  · intro h
    obtain ⟨c, hc⟩ := h
    refine ⟨c ++ [']'], ?_, hc.split⟩
    rw [Regex.language, Language.mem_mul]
    exact ⟨c, mem_inside.mpr ⟨hc.nonempty, hc.noBracket⟩, [']'], mem_closing.mpr rfl, rfl⟩

theorem mem_removalPattern {isSpace : Char → Bool} {xs : List Char} :
    xs ∈ (removalPattern isSpace).language ↔
      ∃ c spaces, Prefixed xs c spaces ∧ ∀ a ∈ spaces, isSpace a = true := by
  rw [removalPattern, mem_opening_seq]
  constructor
  · intro h
    obtain ⟨ys, hys, rfl⟩ := h
    rw [Regex.language, Language.mem_mul] at hys
    obtain ⟨c, hc, w, hw, rfl⟩ := hys
    rw [closing, Regex.mem_seq_one] at hw
    obtain ⟨a, spaces, ha, hspaces, rfl⟩ := hw
    rw [Regex.mem_star_one] at hspaces
    rw [mem_inside] at hc
    exact ⟨c, spaces, ⟨by rw [beq_iff_eq.mp ha], hc.1, hc.2⟩, hspaces⟩
  · intro h
    obtain ⟨c, spaces, hc, hspaces⟩ := h
    refine ⟨c ++ ']' :: spaces, ?_, hc.split⟩
    rw [Regex.language, Language.mem_mul]
    refine ⟨c, mem_inside.mpr ⟨hc.nonempty, hc.noBracket⟩, ']' :: spaces, ?_, rfl⟩
    rw [closing, Regex.mem_seq_one]
    exact ⟨']', spaces, rfl, Regex.mem_star_one.mpr hspaces, rfl⟩

theorem isBracketed_iff (text : String) :
    isBracketed text = true ↔ ∃ c rest, Prefixed text.toList c rest := by
  rw [isBracketed, Regex.isSome_matchStart]
  constructor
  · intro h
    obtain ⟨m, rest, happ, hm⟩ := h
    rw [mem_filterPattern] at hm
    obtain ⟨c, hc⟩ := hm
    refine ⟨c, rest, ?_, hc.nonempty, hc.noBracket⟩
    rw [← happ, hc.split]
    simp
  · intro h
    obtain ⟨c, rest, hc⟩ := h
    refine ⟨'[' :: (c ++ [']']), rest, ?_, ?_⟩
    · rw [hc.split]
      simp
    · exact mem_filterPattern.mpr ⟨c, rfl, hc.nonempty, hc.noBracket⟩

/-- The extraction returns what stands between the brackets. -/
theorem substring_of_prefixed {text : String} {c rest : List Char}
    (h : Prefixed text.toList c rest) : substring text = some (String.ofList c) := by
  have hinside : c ∈ inside.language := mem_inside.mpr ⟨h.nonempty, h.noBracket⟩
  have hclosing : [']'] ∈ closing.language := mem_closing.mpr rfl
  -- each of the three splits is the only one
  have hmatch : Regex.LongestSplit filterPattern.language Regex.anything.language text.toList
      ('[' :: (c ++ [']'])) rest := by
    apply Regex.LongestSplit.of_unique
    · rw [h.split]
      simp
    · exact mem_filterPattern.mpr ⟨c, rfl, h.nonempty, h.noBracket⟩
    · exact Regex.mem_anything rest
    · intro m' rest' happ hm' _
      obtain ⟨d, hd⟩ := mem_filterPattern.mp hm'
      have hfull : Prefixed text.toList d rest' := by
        refine ⟨?_, hd.nonempty, hd.noBracket⟩
        rw [← happ, hd.split]
        simp
      rw [hd.split, (hfull.unique h).1]
  have hbefore : Regex.LongestSplit opening.language (Regex.seq inside closing).language
      ('[' :: (c ++ [']'])) ['['] (c ++ [']']) := by
    apply Regex.LongestSplit.of_unique
    · rfl
    · exact ⟨'[', rfl, rfl⟩
    · rw [Regex.language, Language.mem_mul]
      exact ⟨c, hinside, [']'], hclosing, rfl⟩
    · intro m' _ _ hm' _
      obtain ⟨a, ha, rfl⟩ := hm'
      rw [beq_iff_eq.mp ha]
  have hgroup : Regex.LongestSplit inside.language closing.language (c ++ [']']) c [']'] := by
    apply Regex.LongestSplit.of_unique
    · rfl
    · exact hinside
    · exact hclosing
    · intro m' rest' happ _ hrest'
      rw [mem_closing.mp hrest'] at happ
      exact List.append_cancel_right happ
  rw [substring, Regex.capture_eq_some hmatch hbefore hgroup]
  rfl

/-- The removal takes the prefix and all the whitespace after it. -/
theorem regexpReplace_of_prefixed (isSpace : Char → Bool) {text : String} {c rest : List Char}
    (h : Prefixed text.toList c rest) :
    ∃ spaces, rest = spaces ++ (regexpReplace isSpace text).toList ∧
      (∀ a ∈ spaces, isSpace a = true) ∧
      ∀ a ∈ (regexpReplace isSpace text).toList.head?, isSpace a = false := by
  unfold regexpReplace
  cases hm : (removalPattern isSpace).matchStart text.toList with
  | none =>
    rw [Regex.matchStart, Regex.split_eq_none_iff] at hm
    have hmem : '[' :: (c ++ [']']) ∈ (removalPattern isSpace).language :=
      mem_removalPattern.mpr ⟨c, [], ⟨rfl, h.nonempty, h.noBracket⟩, by simp⟩
    refine absurd (Regex.mem_anything rest) (hm _ _ ?_ hmem)
    rw [h.split]
    simp
  | some found =>
    obtain ⟨m, tail⟩ := found
    rw [Regex.matchStart, Regex.split_eq_some_iff] at hm
    obtain ⟨d, spaces, hd, hspaces⟩ := mem_removalPattern.mp hm.left
    have hfull : Prefixed text.toList d (spaces ++ tail) := by
      refine ⟨?_, hd.nonempty, hd.noBracket⟩
      rw [← hm.append, hd.split]
      simp
    refine ⟨spaces, ?_, hspaces, ?_⟩
    · rw [(h.unique hfull).2]
      simp
    · intro a ha
      simp only [String.empty_append, String.toList_ofList] at ha
      cases tail with
      | nil => cases ha
      | cons b tail =>
        cases ha
        -- one more space would give a longer match
        by_contra hspace
        rw [Bool.not_eq_false] at hspace
        have hlonger : m ++ [a] ∈ (removalPattern isSpace).language := by
          apply mem_removalPattern.mpr
          refine ⟨d, spaces ++ [a], ⟨?_, hd.nonempty, hd.noBracket⟩, ?_⟩
          · rw [hd.split]
            simp
          · intro x hx
            rw [List.mem_append, List.mem_singleton] at hx
            cases hx with
            | inl hx => exact hspaces x hx
            | inr hx => rw [hx, hspace]
        have hle := hm.longest (m ++ [a]) tail (by rw [← hm.append]; simp) hlonger
          (Regex.mem_anything tail)
        rw [List.length_append, List.length_singleton] at hle
        omega

/-! ### The whole table -/

/- What the upgrade is to make of a row. -/
structure Backfilled (isSpace : Char → Bool) (old : Row0003) (new : Row0004) : Prop where
  kept : new.toRow0003 = { old with description := new.description }
  plain : (∀ text c rest, old.description = some text → ¬ Prefixed text.toList c rest) →
    new.description = old.description ∧ new.category = none
  lossless : ∀ text c rest, old.description = some text → Prefixed text.toList c rest →
    ∃ category spaces description,
      new.category = some category ∧ new.description = some description ∧
      text = "[" ++ category ++ "]" ++ spaces ++ description ∧
      ']' ∉ category.toList ∧ (∀ a ∈ spaces.toList, isSpace a = true) ∧
      ∀ a ∈ description.toList.head?, isSpace a = false

def Migrates (isSpace : Char → Bool) (jobs : List Row0003) : Prop :=
  ∃ rows, upgrade isSpace jobs = some rows ∧ List.Forall₂ (Backfilled isSpace) jobs rows

/- No description starts with brackets around more than 64 characters. -/
def FitsCategory (row : Row0003) : Prop :=
  ∀ text c rest, row.description = some text → Prefixed text.toList c rest →
    c.length ≤ categoryLength

theorem backfill_of_not_prefixed {isSpace : Char → Bool} {row : Row0003}
    (h : ∀ text c rest, row.description = some text → ¬ Prefixed text.toList c rest) :
    backfill isSpace (addColumn row) = some (addColumn row) := by
  have hdesc : (addColumn row).description = row.description := rfl
  unfold backfill
  rw [hdesc]
  cases hrow : row.description with
  | none => rfl
  | some text =>
    have hb : ¬ isBracketed text = true := by
      rw [isBracketed_iff]
      intro hex
      obtain ⟨c, rest, hc⟩ := hex
      exact h text c rest hrow hc
    simp [hb]

theorem backfill_of_prefixed {isSpace : Char → Bool} {row : Row0003} {text : String}
    {c rest : List Char} (hrow : row.description = some text)
    (h : Prefixed text.toList c rest) :
    backfill isSpace (addColumn row) =
      if c.length ≤ categoryLength then
        some { addColumn row with
          category := some (String.ofList c)
          description := some (regexpReplace isSpace text) }
      else none := by
  have hdesc : (addColumn row).description = some text := hrow
  have hb : isBracketed text = true := (isBracketed_iff text).mpr ⟨c, rest, h⟩
  unfold backfill
  rw [hdesc]
  simp only [hb, if_true, substring_of_prefixed h, varchar, String.length_ofList]
  split
  · rfl
  · rfl

theorem backfilled {isSpace : Char → Bool} {row : Row0003} {new : Row0004}
    (h : backfill isSpace (addColumn row) = some new) : Backfilled isSpace row new := by
  by_cases hp : ∃ text c rest, row.description = some text ∧ Prefixed text.toList c rest
  · obtain ⟨text, c, rest, hrow, hc⟩ := hp
    rw [backfill_of_prefixed hrow hc] at h
    split at h
    · cases h
      constructor
      · rfl
      · intro hnone
        exact absurd hc (hnone text c rest hrow)
      · intro text' d rest' hrow' hd
        rw [hrow, Option.some.injEq] at hrow'
        subst hrow'
        obtain ⟨spaces, hrest, hspaces, hhead⟩ := regexpReplace_of_prefixed isSpace hc
        refine ⟨_, String.ofList spaces, _, rfl, rfl, ?_, ?_, ?_, hhead⟩
        · apply String.toList_injective
          rw [hc.split, hrest]
          simp
        · simpa using hc.noBracket
        · simpa using hspaces
    · cases h
  · have hplain : ∀ text c rest, row.description = some text →
        ¬ Prefixed text.toList c rest := fun text c rest hrow hc => hp ⟨text, c, rest, hrow, hc⟩
    rw [backfill_of_not_prefixed hplain] at h
    cases h
    constructor
    · rfl
    · intro _
      exact ⟨rfl, rfl⟩
    · intro text c rest hrow hc
      exact absurd hc (hplain text c rest hrow)

theorem backfill_isSome_iff (isSpace : Char → Bool) (row : Row0003) :
    (∃ new, backfill isSpace (addColumn row) = some new) ↔ FitsCategory row := by
  constructor
  · intro h text c rest hrow hc
    obtain ⟨new, hnew⟩ := h
    rw [backfill_of_prefixed hrow hc] at hnew
    by_contra hlong
    rw [if_neg hlong] at hnew
    cases hnew
  · intro h
    by_cases hp : ∃ text c rest, row.description = some text ∧ Prefixed text.toList c rest
    · obtain ⟨text, c, rest, hrow, hc⟩ := hp
      rw [backfill_of_prefixed hrow hc, if_pos (h text c rest hrow hc)]
      exact ⟨_, rfl⟩
    · exact ⟨_, backfill_of_not_prefixed fun text c rest hrow hc => hp ⟨text, c, rest, hrow, hc⟩⟩

/-- The backfill is total and lossless exactly on the tables without a description that
starts with brackets around more than 64 characters. -/
theorem migrates_iff (isSpace : Char → Bool) (jobs : List Row0003) :
    Migrates isSpace jobs ↔ ∀ row ∈ jobs, FitsCategory row := by
  unfold Migrates upgrade
  induction jobs with
  | nil => simp
  | cons row jobs ih =>
    rw [List.forall_mem_cons, ← ih, ← backfill_isSome_iff isSpace row, List.map_cons]
    constructor
    · intro h
      obtain ⟨rows, hrows, hall⟩ := h
      rw [List.mapM_cons] at hrows
      cases hnew : backfill isSpace (addColumn row) with
      | none =>
        rw [hnew] at hrows
        cases hrows
      | some new =>
        rw [hnew] at hrows
        cases hrest : (jobs.map addColumn).mapM (backfill isSpace) with
        | none =>
          rw [hrest] at hrows
          cases hrows
        | some rest =>
          rw [hrest] at hrows
          cases hrows
          rw [List.forall₂_cons] at hall
          exact ⟨⟨new, rfl⟩, rest, rfl, hall.2⟩
    · intro h
      obtain ⟨⟨new, hnew⟩, rest, hrest, hall⟩ := h
      refine ⟨new :: rest, ?_, ?_⟩
      · rw [List.mapM_cons, hnew, hrest]
        rfl
      · exact List.Forall₂.cons (backfilled hnew) hall

def legacyRow (description : String) : Row0003 where
  id := 1
  ownerUserId := none
  name := "nightly"
  description := some description
  taskType := "shell"
  taskSpec := .object []
  scheduleType := "manual"
  scheduleExpr := none
  timezone := "UTC"
  enabled := false
  maxRetries := 0
  retryBackoffSec := 30
  timeoutSec := 300
  lastScheduledFor := none
  createdAt := 0
  updatedAt := 0

/-- One description with 65 characters in the brackets stops the whole migration. -/
theorem not_migrates :
    ¬ Migrates (· == ' ') [legacyRow (String.ofList ('[' :: (List.replicate 65 'x' ++ [']'])))] := by
  intro h
  obtain ⟨rows, hrows, _⟩ := h
  have hp : Prefixed (String.ofList ('[' :: (List.replicate 65 'x' ++ [']']))).toList
      (List.replicate 65 'x') [] := by
    refine ⟨String.toList_ofList, by decide, by decide⟩
  have hnone : backfill (· == ' ') (addColumn (legacyRow _)) = _ := backfill_of_prefixed rfl hp
  rw [if_neg (by decide)] at hnone
  rw [upgrade, List.map_cons, List.mapM_cons, hnone] at hrows
  cases hrows

end JobScheduler.Migrations
