import Mathlib.Logic.Basic

/-!
# Computations that raise

When a composed computation returns, each of its parts has returned.
-/

namespace Library

universe u v

variable {ε δ : Type u} {α β : Type v}

theorem bind_eq_ok {x : Except ε α} {f : α → Except ε β} {b : β} :
    (x >>= f) = .ok b ↔ ∃ a, x = .ok a ∧ f a = .ok b := by
  cases x with
  | error e => exact ⟨nofun, fun ⟨_, h, _⟩ => nomatch h⟩
  | ok a => exact ⟨fun h => ⟨a, rfl, h⟩, fun ⟨_, h, hb⟩ => by cases h; exact hb⟩

theorem map_eq_ok {x : Except ε α} {f : α → β} {b : β} :
    x.map f = .ok b ↔ ∃ a, x = .ok a ∧ f a = b := by
  cases x with
  | error e => exact ⟨nofun, fun ⟨_, h, _⟩ => nomatch h⟩
  | ok a => exact ⟨fun h => ⟨a, rfl, by cases h; rfl⟩, fun ⟨_, h, hb⟩ => by cases h; cases hb; rfl⟩

theorem mapError_eq_ok {x : Except ε α} {f : ε → δ} {a : α} :
    x.mapError f = .ok a ↔ x = .ok a := by
  cases x with
  | error e => exact ⟨nofun, nofun⟩
  | ok b => exact ⟨fun h => by cases h; rfl, fun h => by cases h; rfl⟩

/-! ### Two runs side by side -/

/-- Both runs raise the same error, or both return and the results are related. Nothing is said
once one of them has stopped with `out`: it stands for a run that was cut off. -/
inductive Agree (out : ε) (S : α → β → Prop) : Except ε α → Except ε β → Prop where
  | left (y : Except ε β) : Agree out S (.error out) y
  | right (x : Except ε α) : Agree out S x (.error out)
  | error (e : ε) : Agree out S (.error e) (.error e)
  | ok {a : α} {b : β} : S a b → Agree out S (.ok a) (.ok b)

namespace Agree

variable {γ κ : Type v} {out : ε} {S : α → β → Prop} {T : γ → κ → Prop}

theorem bind {x : Except ε α} {y : Except ε β} {f : α → Except ε γ} {g : β → Except ε κ}
    (h : Agree out S x y) (hf : ∀ a b, S a b → Agree out T (f a) (g b)) :
    Agree out T (x >>= f) (y >>= g) := by
  cases h with
  | left y => exact .left _
  | right x => exact .right _
  | error e => exact .error e
  | ok hab => exact hf _ _ hab

theorem map {x : Except ε α} {y : Except ε β} {f : α → γ} {g : β → κ}
    (h : Agree out S x y) (hf : ∀ a b, S a b → T (f a) (g b)) :
    Agree out T (x.map f) (y.map g) := by
  cases h with
  | left y => exact .left _
  | right x => exact .right _
  | error e => exact .error e
  | ok hab => exact .ok (hf _ _ hab)

theorem foldlM {ι : Type v} {f : α → ι → Except ε α} {g : β → ι → Except ε β} {xs : List ι}
    (hstep : ∀ i ∈ xs, ∀ a b, S a b → Agree out S (f a i) (g b i)) {a : α} {b : β}
    (h : S a b) : Agree out S (xs.foldlM f a) (xs.foldlM g b) := by
  induction xs generalizing a b with
  | nil => exact .ok h
  | cons i xs ih =>
    rw [List.foldlM_cons, List.foldlM_cons]
    refine (hstep i (List.mem_cons_self ..) a b h).bind fun a' b' h' => ?_
    exact ih (fun j hj => hstep j (List.mem_cons_of_mem _ hj)) h'

end Agree

end Library
