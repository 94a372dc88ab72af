import Mathlib.Computability.Language

/-!
# Regular expressions over character classes

A POSIX matcher takes the longest match, and among the ways to parse it the one whose
earlier parts are longest. `split` finds the longest prefix matched by one expression whose
rest is matched by another; search, capture and replacement at the start of a text are
instances of it.
-/

namespace Library

inductive Regex (α : Type*) where
  | zero
  | eps
  | one (p : α → Bool)
  | alt (r s : Regex α)
  | seq (r s : Regex α)
  | star (r : Regex α)

namespace Regex
variable {α : Type*}

def language : Regex α → Language α
  | zero => 0
  | eps => 1
  | one p => {w | ∃ a, p a = true ∧ w = [a]}
  | alt r s => r.language + s.language
  | seq r s => r.language * s.language
  | star r => KStar.kstar r.language

def plus (r : Regex α) : Regex α := seq r (star r)
def anything : Regex α := star (one fun _ => true)

def nullable : Regex α → Bool
  | zero => false
  | eps => true
  | one _ => false
  | alt r s => r.nullable || s.nullable
  | seq r s => r.nullable && s.nullable
  | star _ => true

-- Brzozowski derivative
def deriv (a : α) : Regex α → Regex α
  | zero => zero
  | eps => zero
  | one p => if p a then eps else zero
  | alt r s => alt (r.deriv a) (s.deriv a)
  | seq r s => if r.nullable then alt (seq (r.deriv a) s) (s.deriv a) else seq (r.deriv a) s
  | star r => seq (r.deriv a) (star r)

def accepts : Regex α → List α → Bool
  | r, [] => r.nullable
  | r, a :: xs => (r.deriv a).accepts xs

/- The longest prefix that r matches while s matches all of the rest. -/
def split : Regex α → Regex α → List α → Option (List α × List α)
  | r, s, [] => if r.nullable && s.nullable then some ([], []) else none
  | r, s, a :: xs =>
    match split (r.deriv a) s xs with
    | some (m, rest) => some (a :: m, rest)
    | none => if r.nullable && s.accepts (a :: xs) then some ([], a :: xs) else none

/- The longest match at the start, with what follows it. -/
def matchStart (r : Regex α) (xs : List α) : Option (List α × List α) := split r anything xs

/- The text of the group g in the longest match of b (g) a at the start. -/
def capture (b g a : Regex α) (xs : List α) : Option (List α) := do
  let (m, _) ← (seq b (seq g a)).matchStart xs
  let (_, rest) ← split b (seq g a) m
  let (found, _) ← split g a rest
  return found

theorem nil_mem_language (r : Regex α) : [] ∈ r.language ↔ r.nullable = true := by
  induction r with
  | zero => simp [language, nullable]
  | eps => simp [language, nullable]
  | one p =>
    simp only [language, nullable, Bool.false_eq_true, iff_false]
    intro h
    obtain ⟨a, _, hnil⟩ := h
    cases hnil
  | alt r s ihr ihs => simp [language, nullable, Language.mem_add, ihr, ihs]
  | seq r s ihr ihs =>
    simp only [language, nullable, Bool.and_eq_true, ← ihr, ← ihs, Language.mem_mul]
    constructor
    · intro h
      obtain ⟨u, hu, v, hv, huv⟩ := h
      obtain ⟨rfl, rfl⟩ := List.append_eq_nil_iff.mp huv
      exact ⟨hu, hv⟩
    · intro h
      exact ⟨[], h.1, [], h.2, rfl⟩
  | star r _ => simp [language, nullable, Language.nil_mem_kstar]

/- A product splits a non-empty word inside its first factor or leaves that one empty. -/
theorem cons_mem_mul {k l : Language α} {a : α} {xs : List α} :
    a :: xs ∈ k * l ↔
      (∃ u v, a :: u ∈ k ∧ v ∈ l ∧ u ++ v = xs) ∨ ([] ∈ k ∧ a :: xs ∈ l) := by
  rw [Language.mem_mul]
  constructor
  · intro h
    obtain ⟨u, hu, v, hv, huv⟩ := h
    cases u with
    | nil =>
      right
      rw [List.nil_append] at huv
      exact ⟨hu, huv ▸ hv⟩
    | cons b u =>
      left
      rw [List.cons_append, List.cons.injEq] at huv
      exact ⟨u, v, huv.1 ▸ hu, hv, huv.2⟩
  · intro h
    cases h with
    | inl h =>
      obtain ⟨u, v, hu, hv, huv⟩ := h
      exact ⟨a :: u, hu, v, hv, by rw [List.cons_append, huv]⟩
    | inr h => exact ⟨[], h.1, a :: xs, h.2, rfl⟩

theorem cons_mem_kstar {l : Language α} {a : α} {xs : List α} :
    a :: xs ∈ KStar.kstar l ↔ ∃ u v, a :: u ∈ l ∧ v ∈ KStar.kstar l ∧ u ++ v = xs := by
  constructor
  · intro h
    rw [Language.mem_kstar_iff_exists_nonempty] at h
    obtain ⟨parts, hflat, hparts⟩ := h
    cases parts with
    | nil => cases hflat
    | cons p parts =>
      obtain ⟨hp, hne⟩ := hparts p (List.mem_cons_self ..)
      cases p with
      | nil => exact absurd rfl hne
      | cons b u =>
        rw [List.flatten_cons, List.cons_append, List.cons.injEq] at hflat
        have htail : parts.flatten ∈ KStar.kstar l := Language.join_mem_kstar fun y hy =>
          (hparts y (List.mem_cons_of_mem _ hy)).1
        exact ⟨u, parts.flatten, hflat.1 ▸ hp, htail, hflat.2.symm⟩
  · intro h
    obtain ⟨u, v, hu, hv, huv⟩ := h
    rw [← Language.one_add_self_mul_kstar_eq_kstar, Language.mem_add, Language.mem_mul]
    right
    exact ⟨a :: u, hu, v, hv, by rw [List.cons_append, huv]⟩

theorem cons_mem_language (r : Regex α) (a : α) (xs : List α) :
    a :: xs ∈ r.language ↔ xs ∈ (r.deriv a).language := by
  induction r generalizing xs with
  | zero => simp [language, deriv]
  | eps => simp [language, deriv, Language.mem_one]
  | one p =>
    have hone : a :: xs ∈ (one p).language ↔ p a = true ∧ xs = [] := by
      constructor
      · intro h
        obtain ⟨b, hb, heq⟩ := h
        cases heq
        exact ⟨hb, rfl⟩
      · intro h
        exact ⟨a, h.1, by rw [h.2]⟩
    rw [hone, deriv]
    split
    · rename_i h
      simp [language, h, Language.mem_one]
    · rename_i h
      simp [language, h]
  | alt r s ihr ihs => simp [language, deriv, Language.mem_add, ihr, ihs]
  | seq r s ihr ihs =>
    have hleft : (∃ u v, a :: u ∈ r.language ∧ v ∈ s.language ∧ u ++ v = xs) ↔
        xs ∈ (seq (r.deriv a) s).language := by
      rw [language, Language.mem_mul]
      constructor
      · intro h
        obtain ⟨u, v, hu, hv, huv⟩ := h
        exact ⟨u, (ihr u).mp hu, v, hv, huv⟩
      · intro h
        obtain ⟨u, hu, v, hv, huv⟩ := h
        exact ⟨u, v, (ihr u).mpr hu, hv, huv⟩
    rw [language, cons_mem_mul, hleft, nil_mem_language, ihs, deriv]
    split
    · rename_i h
      simp [language, h, Language.mem_add]
    · rename_i h
      simp [h]
  | star r ih =>
    rw [language, cons_mem_kstar, deriv, language, Language.mem_mul]
    constructor
    · intro h
      obtain ⟨u, v, hu, hv, huv⟩ := h
      exact ⟨u, (ih u).mp hu, v, hv, huv⟩
    · intro h
      obtain ⟨u, hu, v, hv, huv⟩ := h
      exact ⟨u, v, (ih u).mpr hu, hv, huv⟩

theorem accepts_iff (r : Regex α) (xs : List α) : r.accepts xs = true ↔ xs ∈ r.language := by
  induction xs generalizing r with
  | nil => rw [accepts, nil_mem_language]
  | cons a xs ih => rw [accepts, ih, cons_mem_language]

/- m is the longest prefix of the text in k whose rest is in l. -/
structure LongestSplit (k l : Language α) (xs m rest : List α) : Prop where
  append : m ++ rest = xs
  left : m ∈ k
  right : rest ∈ l
  longest : ∀ m' rest', m' ++ rest' = xs → m' ∈ k → rest' ∈ l → m'.length ≤ m.length

theorem LongestSplit.unique {k l : Language α} {xs m rest m' rest' : List α}
    (h : LongestSplit k l xs m rest) (h' : LongestSplit k l xs m' rest') :
    m = m' ∧ rest = rest' := by
  have hle := h.longest m' rest' h'.append h'.left h'.right
  have hge := h'.longest m rest h.append h.left h.right
  exact List.append_inj (h.append.trans h'.append.symm) (by omega)

theorem split_spec (r s : Regex α) (xs : List α) :
    match split r s xs with
    | some (m, rest) => LongestSplit r.language s.language xs m rest
    | none => ∀ m rest, m ++ rest = xs → m ∈ r.language → rest ∉ s.language := by
  induction xs generalizing r with
  | nil =>
    rw [split]
    by_cases h : (r.nullable && s.nullable) = true
    · rw [if_pos h]
      rw [Bool.and_eq_true, ← nil_mem_language, ← nil_mem_language] at h
      refine ⟨rfl, h.1, h.2, ?_⟩
      intro m' rest' hnil _ _
      rw [(List.append_eq_nil_iff.mp hnil).1]
    · rw [if_neg h]
      intro m rest hnil hm hrest
      obtain ⟨rfl, rfl⟩ := List.append_eq_nil_iff.mp hnil
      rw [nil_mem_language] at hm hrest
      exact h (by rw [hm, hrest]; rfl)
  | cons a xs ih =>
    have hd := ih (r.deriv a)
    rw [split]
    cases hsplit : split (r.deriv a) s xs with
    | some found =>
      rw [hsplit] at hd
      refine ⟨?_, (cons_mem_language r a _).mpr hd.left, hd.right, ?_⟩
      · rw [List.cons_append, hd.append]
      · intro m' rest' happ hm hrest
        cases m' with
        | nil => simp
        | cons b m' =>
          rw [List.cons_append, List.cons.injEq] at happ
          rw [happ.1, cons_mem_language] at hm
          have hle := hd.longest m' rest' happ.2 hm hrest
          simpa using hle
    | none =>
      rw [hsplit] at hd
      -- a match must be empty here: a longer one would be one of the derivative
      have hempty : ∀ m rest, m ++ rest = a :: xs → m ∈ r.language → rest ∈ s.language →
          m = [] := by
        intro m rest happ hm hrest
        cases m with
        | nil => rfl
        | cons b m =>
          rw [List.cons_append, List.cons.injEq] at happ
          rw [happ.1, cons_mem_language] at hm
          exact absurd hrest (hd m rest happ.2 hm)
      dsimp only
      by_cases h : (r.nullable && s.accepts (a :: xs)) = true
      · rw [if_pos h]
        rw [Bool.and_eq_true, ← nil_mem_language, accepts_iff] at h
        refine ⟨rfl, h.1, h.2, ?_⟩
        intro m' rest' happ hm hrest
        rw [hempty m' rest' happ hm hrest]
      · rw [if_neg h]
        intro m rest happ hm hrest
        have hnil := hempty m rest happ hm hrest
        subst hnil
        rw [List.nil_append] at happ
        subst happ
        rw [nil_mem_language] at hm
        rw [← accepts_iff] at hrest
        exact h (by rw [hm, hrest]; rfl)

theorem split_eq_some_iff (r s : Regex α) {xs m rest : List α} :
    split r s xs = some (m, rest) ↔ LongestSplit r.language s.language xs m rest := by
  have hspec := split_spec r s xs
  constructor
  · intro h
    rw [h] at hspec
    exact hspec
  · intro h
    cases hsplit : split r s xs with
    | none =>
      rw [hsplit] at hspec
      exact absurd h.right (hspec m rest h.append h.left)
    | some found =>
      rw [hsplit] at hspec
      have heq := hspec.unique h
      rw [← heq.1, ← heq.2]

theorem split_eq_none_iff (r s : Regex α) {xs : List α} :
    split r s xs = none ↔ ∀ m rest, m ++ rest = xs → m ∈ r.language → rest ∉ s.language := by
  have hspec := split_spec r s xs
  constructor
  · intro h
    rw [h] at hspec
    exact hspec
  · intro h
    cases hsplit : split r s xs with
    | none => rfl
    | some found =>
      rw [hsplit] at hspec
      exact absurd hspec.right (h found.1 found.2 hspec.append hspec.left)

theorem mem_star_one {p : α → Bool} {xs : List α} :
    xs ∈ (star (one p)).language ↔ ∀ a ∈ xs, p a = true := by
  induction xs with
  | nil => simp [nil_mem_language, nullable]
  | cons a xs ih =>
    rw [language] at ih
    rw [language, cons_mem_kstar, List.forall_mem_cons, ← ih]
    constructor
    · intro h
      obtain ⟨u, v, ⟨b, hb, hu⟩, hv, huv⟩ := h
      cases hu
      exact ⟨hb, huv ▸ hv⟩
    · intro h
      exact ⟨[], xs, ⟨a, h.1, rfl⟩, h.2, rfl⟩

theorem mem_anything (xs : List α) : xs ∈ (anything : Regex α).language := by
  rw [anything, mem_star_one]
  intro _ _
  rfl

theorem mem_plus_one {p : α → Bool} {xs : List α} :
    xs ∈ (plus (one p)).language ↔ xs ≠ [] ∧ ∀ a ∈ xs, p a = true := by
  cases xs with
  | nil => simp [nil_mem_language, plus, nullable]
  | cons a xs =>
    rw [plus, language, cons_mem_mul, List.forall_mem_cons, ← mem_star_one]
    constructor
    · intro h
      cases h with
      | inl h =>
        obtain ⟨u, v, ⟨b, hb, hu⟩, hv, huv⟩ := h
        cases hu
        exact ⟨List.cons_ne_nil _ _, hb, huv ▸ hv⟩
      | inr h =>
        obtain ⟨⟨b, _, hnil⟩, _⟩ := h
        cases hnil
    · intro h
      exact Or.inl ⟨[], xs, ⟨a, h.2.1, rfl⟩, h.2.2, rfl⟩

theorem mem_seq_one {p : α → Bool} {s : Regex α} {xs : List α} :
    xs ∈ (seq (one p) s).language ↔ ∃ a ys, p a = true ∧ ys ∈ s.language ∧ xs = a :: ys := by
  rw [language, Language.mem_mul]
  constructor
  · intro h
    obtain ⟨u, ⟨a, ha, hu⟩, v, hv, huv⟩ := h
    subst hu
    exact ⟨a, v, ha, hv, huv.symm⟩
  · intro h
    obtain ⟨a, ys, ha, hys, hxs⟩ := h
    exact ⟨[a], ⟨a, ha, rfl⟩, ys, hys, hxs.symm⟩

/- A split that is the only one is the longest. -/
theorem LongestSplit.of_unique {k l : Language α} {xs m rest : List α} (happ : m ++ rest = xs)
    (hm : m ∈ k) (hrest : rest ∈ l)
    (h : ∀ m' rest', m' ++ rest' = xs → m' ∈ k → rest' ∈ l → m' = m) :
    LongestSplit k l xs m rest := by
  refine ⟨happ, hm, hrest, ?_⟩
  intro m' rest' happ' hm' hrest'
  rw [h m' rest' happ' hm' hrest']

theorem isSome_matchStart (r : Regex α) (xs : List α) :
    (r.matchStart xs).isSome = true ↔ ∃ m rest, m ++ rest = xs ∧ m ∈ r.language := by
  have hnone : split r anything xs = none ↔ _ := split_eq_none_iff r anything
  rw [← not_iff_not, Bool.not_eq_true, Option.isSome_eq_false_iff, Option.isNone_iff_eq_none,
    matchStart, hnone]
  constructor
  · intro h hmatch
    obtain ⟨m, rest, happ, hm⟩ := hmatch
    exact h m rest happ hm (mem_anything rest)
  · intro h m rest happ hm _
    exact h ⟨m, rest, happ, hm⟩

theorem capture_eq_some {b g a : Regex α} {xs m rest u v c w : List α}
    (hmatch : LongestSplit (seq b (seq g a)).language anything.language xs m rest)
    (hbefore : LongestSplit b.language (seq g a).language m u v)
    (hgroup : LongestSplit g.language a.language v c w) : capture b g a xs = some c := by
  rw [← split_eq_some_iff] at hmatch hbefore hgroup
  rw [capture, matchStart, hmatch]
  simp only [Option.bind_eq_bind, Option.bind_some]
  rw [hbefore]
  simp only [Option.bind_some]
  rw [hgroup]
  rfl

end Regex

end Library
