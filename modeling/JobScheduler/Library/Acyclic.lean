import Mathlib.Data.List.Chain
import Mathlib.Data.Set.Finite.List
import Mathlib.Logic.Relation

/-!
# Acyclic relations under edits of one node

A relation is edited by replacing all successors of one node. An acyclic relation stays so
exactly when none of the new successors already reaches the node.
-/

namespace Library
open Relation

variable {α : Type*} {r : α → α → Prop}

def Acyclic (r : α → α → Prop) : Prop := ∀ a, ¬ TransGen r a a

/- The relation in which node n has the successors `new` and no others. -/
def withSuccessors (r : α → α → Prop) (n : α) (new : α → Prop) : α → α → Prop :=
  fun a b => a ≠ n ∧ r a b ∨ a = n ∧ new b

namespace Acyclic

theorem mono {r' : α → α → Prop} (h : Acyclic r) (hle : ∀ a b, r' a b → r a b) : Acyclic r' :=
  fun a ha => h a (TransGen.mono hle a a ha)

theorem swap (h : Acyclic r) : Acyclic fun a b => r b a :=
  fun a ha => h a (transGen_swap.mp ha)

/- A path to n meets n for the first time before any edge out of n. -/
theorem reaches_of_withSuccessors {n : α} {new : α → Prop} {a : α}
    (h : ReflTransGen (withSuccessors r n new) a n) : ReflTransGen r a n := by
  induction h using ReflTransGen.head_induction_on with
  | refl => exact .refl
  | head hedge _ ih =>
    rcases hedge with ⟨-, hedge⟩ | ⟨rfl, -⟩
    · exact .head hedge ih
    · exact .refl

/- A path of the new relation that never leaves n is one of the old relation. -/
theorem transGen_of_withSuccessors {n : α} {new : α → Prop} {a b : α}
    (h : TransGen (withSuccessors r n new) a b) :
    TransGen r a b ∨ ReflTransGen (withSuccessors r n new) a n ∧
      ∃ c, new c ∧ ReflTransGen (withSuccessors r n new) c b := by
  induction h with
  | single hedge =>
    rcases hedge with ⟨-, hedge⟩ | ⟨rfl, hnew⟩
    · exact .inl (.single hedge)
    · exact .inr ⟨.refl, _, hnew, .refl⟩
  | tail hpath hedge ih =>
    rcases ih with ih | ⟨hn, c, hc, hcb⟩
    · rcases hedge with ⟨-, hedge'⟩ | ⟨rfl, hnew⟩
      · exact .inl (ih.tail hedge')
      · exact .inr ⟨hpath.to_reflTransGen, _, hnew, .refl⟩
    · exact .inr ⟨hn, c, hc, hcb.tail hedge⟩

theorem withSuccessors (h : Acyclic r) {n : α} {new : α → Prop}
    (hnew : ∀ c, new c → ¬ ReflTransGen r c n) : Acyclic (withSuccessors r n new) := by
  intro a ha
  rcases transGen_of_withSuccessors ha with ha | ⟨hn, c, hc, hca⟩
  · exact h a ha
  · exact hnew c hc (reaches_of_withSuccessors (hca.trans hn))

/- The nodes of a path differ from each other. -/
theorem nodup_of_isChain (h : Acyclic r) {l : List α} (hl : l.IsChain r) : l.Nodup := by
  have hpath : l.Pairwise (TransGen r) := (hl.imp fun _ _ => .single).pairwise
  refine List.Pairwise.imp ?_ hpath
  rintro a b hab rfl
  exact h a hab

/- Within finitely many nodes there are finitely many paths. -/
theorem finite_chains (h : Acyclic r) {nodes : Set α} (hfin : nodes.Finite)
    (hnodes : ∀ a b, r a b → b ∈ nodes) (a : α) : {l : List α | (a :: l).IsChain r}.Finite := by
  -- the nodes after the first one are among `nodes` and differ from each other
  have hmem : ∀ l : List α, ∀ c, (c :: l).IsChain r → ∀ b ∈ l, b ∈ nodes := by
    intro l
    induction l with
    | nil => exact fun _ _ b hb => absurd hb List.not_mem_nil
    | cons b l ih =>
      intro c hl x hx
      rw [List.isChain_cons_cons] at hl
      rcases List.mem_cons.mp hx with rfl | hx
      · exact hnodes c x hl.1
      · exact ih b hl.2 x hx
  have hlen : ∀ l : List α, (a :: l).IsChain r → l.length ≤ hfin.toFinset.card := by
    classical
    intro l hl
    have hnodup : l.Nodup := (List.nodup_cons.mp (h.nodup_of_isChain hl)).2
    rw [← List.toFinset_card_of_nodup hnodup]
    refine Finset.card_le_card fun b hb => ?_
    exact hfin.mem_toFinset.mpr (hmem l a hl b (List.mem_toFinset.mp hb))
  have : Finite nodes := hfin
  refine ((List.finite_length_le nodes hfin.toFinset.card).image (List.map Subtype.val)).subset ?_
  intro l hl
  have hl' := hlen l hl
  have hin := hmem l a hl
  lift l to List nodes using hin
  exact ⟨l, by simpa using hl', rfl⟩

end Acyclic
end Library
