import Mathlib.Algebra.BigOperators.Group.Finset.Basic
import Mathlib.Algebra.GroupWithZero.Nat
import Mathlib.Algebra.Order.BigOperators.Group.Finset
import Mathlib.Algebra.Order.BigOperators.Group.List
import Mathlib.Algebra.Order.Group.Nat
import Mathlib.Data.Fintype.Pigeonhole
import Mathlib.Order.WellFounded
import JobScheduler.Library.Acyclic
import JobScheduler.Library.Table

/-!
# Budgets along a well-founded relation

What a node may cost is the sum of what its successors cost themselves and may cost further.
Along a relation without cycles such budgets exist, and the sum of the budgets in a table
changes with one row only by that row's share.
-/

namespace Library
open Relation

variable {α : Type*}

/- The later elements of a descending sequence lie below the earlier ones. -/
theorem transGen_of_descending {r : α → α → Prop} {f : ℕ → α} (hf : ∀ n, r (f (n + 1)) (f n))
    {i j : ℕ} (hij : i < j) : TransGen r (f j) (f i) := by
  induction hij with
  | refl => exact .single (hf i)
  | step _ ih => exact .head (hf _) ih

/- Edges that all go down close no cycle. -/
theorem acyclic_of_lt {r : ℕ → ℕ → Prop} (h : ∀ a b, r a b → b < a) : Acyclic r := by
  intro a ha
  have hlt : ∀ b, TransGen r a b → b < a := by
    intro b hb
    induction hb with
    | single hab => exact h a _ hab
    | tail _ hbc ih => exact (h _ _ hbc).trans ih
  exact Nat.lt_irrefl a (hlt a ha)

/- Within finitely many nodes a relation without cycles has no infinite descent. -/
theorem Acyclic.wellFounded {r : α → α → Prop} (h : Acyclic r) {nodes : Set α}
    (hfin : nodes.Finite) (hnodes : ∀ a b, r a b → a ∈ nodes) : WellFounded r := by
  rw [wellFounded_iff_isEmpty_descending_chain]
  constructor
  intro chain
  obtain ⟨f, hf⟩ := chain
  have : Finite nodes := hfin
  -- two elements of the sequence are the same node
  obtain ⟨i, j, hne, heq⟩ := Finite.exists_ne_map_eq_of_infinite
    fun n => (⟨f (n + 1), hnodes _ _ (hf n)⟩ : nodes)
  have heq : f (i + 1) = f (j + 1) := congrArg Subtype.val heq
  rcases Nat.lt_or_gt_of_ne hne with hij | hji
  · have hcycle := transGen_of_descending hf (Nat.succ_lt_succ hij)
    rw [← heq] at hcycle
    exact h _ hcycle
  · have hcycle := transGen_of_descending hf (Nat.succ_lt_succ hji)
    rw [heq] at hcycle
    exact h _ hcycle

/-- The budget of a node pays for each of its successors and for the budget of each. -/
theorem exists_budget {r : α → α → Prop} (hwf : WellFounded r) (succ : α → Finset α)
    (hsucc : ∀ a, ∀ b ∈ succ a, r b a) (cost : α → ℕ) :
    ∃ w : α → ℕ, ∀ a, w a = ∑ b ∈ succ a, (cost b + w b) := by
  refine ⟨hwf.fix fun a rec => ∑ b ∈ (succ a).attach, (cost b + rec b (hsucc a b b.2)), ?_⟩
  intro a
  rw [hwf.fix_eq]
  exact Finset.sum_attach (succ a) fun b => cost b + _

theorem sum_map_le_of_subset [DecidableEq α] {l : List α} (hl : l.Nodup) {s : Finset α}
    (hs : ∀ a ∈ l, a ∈ s) (cost : α → ℕ) : (l.map cost).sum ≤ ∑ a ∈ s, cost a := by
  rw [← List.sum_toFinset cost hl]
  exact Finset.sum_le_sum_of_subset fun a ha => hs a (List.mem_toFinset.mp ha)

/- An element taken out of a list takes its cost with it. -/
theorem sum_map_eraseIdx {l : List α} {k : ℕ} {a : α} (h : l[k]? = some a) (cost : α → ℕ) :
    ((l.eraseIdx k).map cost).sum + cost a = (l.map cost).sum := by
  induction l generalizing k with
  | nil => cases h
  | cons b l ih =>
    cases k with
    | zero =>
      cases h
      simp only [List.eraseIdx_cons_zero, List.map_cons, List.sum_cons]
      omega
    | succ k =>
      have hrest := ih (k := k) h
      simp only [List.eraseIdx_cons_succ, List.map_cons, List.sum_cons]
      omega

theorem sum_map_set {l : List α} {k : ℕ} {a : α} (h : l[k]? = some a) (b : α) (cost : α → ℕ) :
    ((l.set k b).map cost).sum + cost a = (l.map cost).sum + cost b := by
  induction l generalizing k with
  | nil => cases h
  | cons c l ih =>
    cases k with
    | zero =>
      cases h
      simp only [List.set_cons_zero, List.map_cons, List.sum_cons]
      omega
    | succ k =>
      have hrest := ih (k := k) h
      simp only [List.set_cons_succ, List.map_cons, List.sum_cons]
      omega

namespace Table

open Keyed
variable [Keyed α]

/-- When no other row counts more than before, the sum changes at most by what one row does. -/
theorem sum_map_le {t : Table α} {a : α} (ha : a ∈ t.rows) {f g : α → ℕ}
    (hle : ∀ x ∈ t.rows, key x ≠ key a → g x ≤ f x) :
    (t.rows.map g).sum + f a ≤ (t.rows.map f).sum + g a := by
  obtain ⟨l, m, hrows⟩ := List.append_of_mem ha
  have hsorted := t.sorted
  rw [hrows] at hsorted hle
  obtain ⟨-, hm, hl⟩ := List.pairwise_append.mp hsorted
  have hleft : (l.map g).sum ≤ (l.map f).sum := by
    refine List.sum_le_sum fun x hx => hle x (List.mem_append_left _ hx) ?_
    exact Nat.ne_of_lt (hl x hx a (List.mem_cons_self ..))
  have hright : (m.map g).sum ≤ (m.map f).sum := by
    refine List.sum_le_sum fun x hx => hle x (List.mem_append_right _ (List.mem_cons_of_mem _ hx)) ?_
    exact Nat.ne_of_gt ((List.pairwise_cons.mp hm).1 x hx)
  rw [hrows]
  simp only [List.map_append, List.map_cons, List.sum_append, List.sum_cons]
  omega

/- The same when no row counts more than before. -/
theorem sum_map_mono {t : Table α} {f g : α → ℕ} (hle : ∀ x ∈ t.rows, g x ≤ f x) :
    (t.rows.map g).sum ≤ (t.rows.map f).sum :=
  List.sum_le_sum hle

theorem sum_map_deleteWhere (t : Table α) (p : α → Bool) (f : α → ℕ) :
    ((t.deleteWhere p).rows.map f).sum ≤ (t.rows.map f).sum :=
  (t.rows.filter_sublist.map f).sum_le_sum fun _ _ => Nat.zero_le _

theorem sum_map_insert (t : Table α) (mk : ℕ → α) (hmk : ∀ i, key (mk i) = i) (f : α → ℕ) :
    ((t.insert mk hmk).rows.map f).sum = (t.rows.map f).sum + f (mk t.next) := by
  simp [insert]

theorem sum_map_update (t : Table α) (p : α → Bool) (u : α → α) (hu : KeepsKey u) (f : α → ℕ) :
    ((t.update p u hu).rows.map f).sum = (t.rows.map fun r => f (rewrite p u r)).sum := by
  simp [update, List.map_map, Function.comp_def]

end Table
end Library
