import Mathlib.Data.List.Basic
import Mathlib.Data.List.MinMax
import Mathlib.Data.List.Nodup

/-!
# Lists read by position

A list of processes is read with `xs[k]?`: one of them is rewritten in place, or a new one
is appended. Each lemma says where an element of the new list comes from.
-/

namespace Library
namespace Positions

variable {α : Type*} {xs : List α} {x y : α} {k i : ℕ}

theorem set_cases (h : (xs.set k x)[i]? = some y) : i = k ∧ y = x ∨ i ≠ k ∧ xs[i]? = some y := by
  rw [List.getElem?_set] at h
  split at h
  · rename_i hk
    split at h
    · cases h
      exact .inl ⟨hk.symm, rfl⟩
    · cases h
  · rename_i hk
    exact .inr ⟨fun heq => hk heq.symm, h⟩

theorem getElem?_set_of_some (h : xs[k]? = some y) : (xs.set k x)[k]? = some x :=
  List.getElem?_set_self (List.getElem?_eq_some_iff.mp h).1

theorem getElem?_set_of_ne {z : α} (hk : xs[k]? = some z) (hi : xs[i]? = some y) (hne : y ≠ z) :
    (xs.set k x)[i]? = some y := by
  have hki : k ≠ i := by
    rintro rfl
    rw [hk] at hi
    cases hi
    exact hne rfl
  exact (List.getElem?_set_ne hki).trans hi

theorem concat_cases (h : (xs ++ [x])[k]? = some y) : xs[k]? = some y ∨ k = xs.length ∧ y = x := by
  rcases Nat.lt_trichotomy k xs.length with hlt | rfl | hgt
  · rw [List.getElem?_append_left hlt] at h
    exact .inl h
  · rw [List.getElem?_concat_length] at h
    cases h
    exact .inr ⟨rfl, rfl⟩
  · rw [List.getElem?_eq_none (by rw [List.length_append]; exact hgt)] at h
    cases h

theorem getElem?_concat (h : xs[k]? = some y) : (xs ++ [x])[k]? = some y := by
  rw [List.getElem?_append_left (List.getElem?_eq_some_iff.mp h).1]
  exact h

/- The list around the element at a position. -/
theorem exists_around (h : xs[k]? = some x) :
    ∃ as bs, xs = as ++ x :: bs ∧ as.length = k ∧ ∀ y, xs.set k y = as ++ y :: bs := by
  obtain ⟨hk, hx⟩ := List.getElem?_eq_some_iff.mp h
  refine ⟨xs.take k, xs.drop (k + 1), ?_, ?_, ?_⟩
  · rw [← hx, ← List.drop_eq_getElem_cons hk, List.take_append_drop]
  · rw [List.length_take]
    omega
  · intro y
    rw [List.set_eq_take_append_cons_drop, if_pos hk]

/- What a list counts after one element is rewritten, or taken out. -/
theorem countP_set_of_some (h : xs[k]? = some y) (p : α → Bool) :
    (xs.set k x).countP p + (if p y then 1 else 0) = xs.countP p + (if p x then 1 else 0) := by
  obtain ⟨as, bs, rfl, -, hset⟩ := exists_around h
  rw [hset]
  simp only [List.countP_append, List.countP_cons]
  omega

theorem countP_eraseIdx_of_some (h : xs[k]? = some y) (p : α → Bool) :
    (xs.eraseIdx k).countP p + (if p y then 1 else 0) = xs.countP p := by
  obtain ⟨as, bs, rfl, rfl, -⟩ := exists_around h
  rw [List.eraseIdx_append_of_length_le le_rfl, Nat.sub_self, List.eraseIdx_cons_zero]
  simp only [List.countP_append, List.countP_cons]
  omega

theorem map_set_of_eq {β : Type*} {f : α → β} (h : xs[k]? = some y) (heq : f x = f y) :
    (xs.set k x).map f = xs.map f := by
  obtain ⟨as, bs, rfl, -, hset⟩ := exists_around h
  rw [hset, List.map_append, List.map_append, List.map_cons, List.map_cons, heq]

theorem mem_set_cases {z : α} (h : xs[k]? = some y) (hz : z ∈ xs.set k x) :
    z = x ∨ z ∈ xs.eraseIdx k := by
  obtain ⟨as, bs, rfl, rfl, hset⟩ := exists_around h
  rw [hset] at hz
  rw [List.eraseIdx_append_of_length_le le_rfl, Nat.sub_self, List.eraseIdx_cons_zero]
  simpa [or_left_comm] using hz

/- Where the elements have different keys, those that are left have not the key of the one that
was taken out. -/
theorem ne_of_mem_eraseIdx {β : Type*} {f : α → β} (hxs : (xs.map f).Nodup) (h : xs[k]? = some x)
    (hy : y ∈ xs.eraseIdx k) : f y ≠ f x := by
  obtain ⟨as, bs, rfl, rfl, -⟩ := exists_around h
  rw [List.eraseIdx_append_of_length_le le_rfl, Nat.sub_self, List.eraseIdx_cons_zero] at hy
  rw [List.map_append, List.map_cons, List.nodup_middle, ← List.map_append] at hxs
  exact fun heq => (List.nodup_cons.mp hxs).1 (heq ▸ List.mem_map_of_mem hy)

theorem getElem?_around_of_ne (as bs : List α) (h : k ≠ as.length) :
    (as ++ x :: bs)[k]? = (as ++ y :: bs)[k]? := by
  rcases Nat.lt_or_gt_of_ne h with hlt | hgt
  · rw [List.getElem?_append_left hlt, List.getElem?_append_left hlt]
  · obtain ⟨n, rfl⟩ := Nat.exists_eq_add_of_lt hgt
    rw [List.getElem?_append_right (by omega), List.getElem?_append_right (by omega)]
    simp [Nat.add_assoc]

theorem mem_rewrite {as bs : List α} {z : α} (x : α) (h : z ∈ as ++ y :: bs) :
    z = y ∨ z ∈ as ++ x :: bs := by
  rcases List.mem_append.mp h with h | h
  · exact .inr (List.mem_append_left _ h)
  · rcases List.mem_cons.mp h with h | h
    · exact .inl h
    · exact .inr (List.mem_append_right _ (List.mem_cons_of_mem x h))

/- Rewriting one element of a list that is pairwise related. -/
theorem pairwise_rewrite {R : α → α → Prop} {as bs : List α} (h : (as ++ x :: bs).Pairwise R)
    (hbefore : ∀ a ∈ as, R a x → R a y) (hafter : ∀ b ∈ bs, R x b → R y b) :
    (as ++ y :: bs).Pairwise R := by
  rw [List.pairwise_append, List.pairwise_cons] at h ⊢
  obtain ⟨has, ⟨hx, hbs⟩, hcross⟩ := h
  refine ⟨has, ⟨fun b hb => hafter b hb (hx b hb), hbs⟩, ?_⟩
  intro a ha b hb
  rcases List.mem_cons.mp hb with rfl | hb
  · exact hbefore a ha (hcross a ha x List.mem_cons_self)
  · exact hcross a ha b (List.mem_cons_of_mem x hb)

theorem nodup_eraseDups [DecidableEq α] : ∀ xs : List α, xs.eraseDups.Nodup
  | [] => List.nodup_nil
  | x :: xs => by
    rw [List.eraseDups_cons, List.nodup_cons, List.mem_eraseDups, List.mem_filter]
    exact ⟨fun h => by simp at h, nodup_eraseDups _⟩
termination_by xs => xs.length
decreasing_by exact Nat.lt_succ_of_le (List.length_filter_le ..)

/- A map that keeps the order keeps the first least element. -/
theorem argmin_map {β γ δ : Type*} [LinearOrder γ] [LinearOrder δ] {f : α → β} {g : α → γ}
    {g' : β → δ} (h : ∀ a ∈ xs, ∀ b ∈ xs, g' (f a) < g' (f b) ↔ g a < g b) :
    (xs.map f).argmin g' = (xs.argmin g).map f := by
  induction xs using List.reverseRecOn with
  | nil => rfl
  | append_singleton xs a ih =>
    have hxs := ih fun b hb c hc => h b (List.mem_append_left _ hb) c (List.mem_append_left _ hc)
    rw [List.map_append, List.map_singleton, List.argmin_concat, List.argmin_concat, hxs]
    cases hmin : xs.argmin g with
    | none => rfl
    | some m =>
      have hm : m ∈ xs ++ [a] := List.mem_append_left _ (List.argmin_mem hmin)
      have ha : a ∈ xs ++ [a] := List.mem_append_right _ (List.mem_singleton_self a)
      simp only [Option.map_some, h a ha m hm]
      split <;> rfl

/-! ### Segments -/

/- The lists are parts of xs; start k is the position of the first element of the k-th list, and
no two of them overlap. -/
structure Segments (xss : List (List α)) (xs : List α) (start : ℕ → ℕ) : Prop where
  segment : ∀ k ys, xss[k]? = some ys → (xs.drop (start k)).take ys.length = ys
  apart : ∀ i j ys, xss[i]? = some ys → i < j → j < xss.length → start i + ys.length ≤ start j

/- The number of elements before the k-th list. -/
def first (xss : List (List α)) (k : ℕ) : ℕ := (xss.take k).flatten.length

/- Lists one after the other are segments of their concatenation. -/
theorem segments_flatten (xss : List (List α)) (ys : List α) :
    Segments xss (xss.flatten ++ ys) (first xss) where
  segment := by
    intro k zs hk
    obtain ⟨before, after, rfl, rfl, -⟩ := exists_around hk
    simp [first]
  apart := by
    intro i j zs hi hij hj
    obtain ⟨before, after, rfl, rfl, -⟩ := exists_around hi
    obtain ⟨n, rfl⟩ := Nat.exists_eq_add_of_lt hij
    have htake : (before ++ zs :: after).take (before.length + n + 1) =
        before ++ zs :: after.take n := by
      rw [Nat.add_assoc, List.take_length_add_append, List.take_succ_cons]
    unfold first
    rw [htake]
    simp

end Positions
end Library
