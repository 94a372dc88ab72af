import Mathlib.Logic.Basic

/-!
# Computations that raise and keep their state

`EStateM ε σ` is the monad of statements that change a state and may raise: unlike in
`Except`, what was done before the exception stays done. The rules below read a sequence
backwards, from the way it ended to the way its parts ended.
-/

namespace Library

universe u

variable {ε σ α β : Type u} {x : EStateM ε σ α} {f : α → EStateM ε σ β} {s t : σ} {b : β} {e : ε}

theorem bind_run (x : EStateM ε σ α) (f : α → EStateM ε σ β) (s : σ) :
    (x >>= f) s = match x s with
      | .ok a u => f a u
      | .error e u => .error e u := rfl

theorem bind_run_of_ok {a : α} (h : x s = .ok a t) : (x >>= f) s = f a t := by
  rw [bind_run, h]

theorem bind_run_of_error (h : x s = .error e t) : (x >>= f) s = .error e t := by
  rw [bind_run, h]

theorem get_bind_run (f : σ → EStateM ε σ β) (s : σ) : (get >>= f) s = f s s := rfl

theorem bind_run_ok :
    (x >>= f) s = .ok b t ↔ ∃ a u, x s = .ok a u ∧ f a u = .ok b t := by
  rw [bind_run]
  cases x s with
  | ok a u => exact ⟨fun h => ⟨a, u, rfl, h⟩, fun ⟨_, _, h, hb⟩ => by cases h; exact hb⟩
  | error e u => exact ⟨fun h => (by cases h), fun ⟨_, _, h, _⟩ => (by cases h)⟩

theorem bind_run_error :
    (x >>= f) s = .error e t ↔
      x s = .error e t ∨ ∃ a u, x s = .ok a u ∧ f a u = .error e t := by
  rw [bind_run]
  cases x s with
  | ok a u =>
    constructor
    · exact fun h => .inr ⟨a, u, rfl, h⟩
    · rintro (h | ⟨_, _, h, hb⟩)
      · cases h
      · cases h
        exact hb
  | error e' u =>
    constructor
    · intro h
      cases h
      exact .inl rfl
    · rintro (h | ⟨_, _, h, _⟩)
      · cases h
        rfl
      · cases h

/-- Every end of `x`, raised or not, is related to its start. -/
structure Keeps (R : σ → σ → Prop) (x : EStateM ε σ α) : Prop where
  ok : ∀ s a t, x s = .ok a t → R s t
  error : ∀ s e t, x s = .error e t → R s t

section
variable {R : σ → σ → Prop}

theorem Keeps.bind (htrans : ∀ s t u, R s t → R t u → R s u) (hx : Keeps R x)
    (hf : ∀ a, Keeps R (f a)) : Keeps R (x >>= f) where
  ok := by
    intro s b t h
    obtain ⟨a, u, hu, ht⟩ := bind_run_ok.mp h
    exact htrans s u t (hx.ok s a u hu) ((hf a).ok u b t ht)
  error := by
    intro s e t h
    rcases bind_run_error.mp h with h | ⟨a, u, hu, ht⟩
    · exact hx.error s e t h
    · exact htrans s u t (hx.ok s a u hu) ((hf a).error u e t ht)

theorem keeps_pure (hrefl : ∀ s, R s s) (a : α) : Keeps R (pure a : EStateM ε σ α) where
  ok := by
    intro s b t h
    cases h
    exact hrefl s
  error := by
    intro s e t h
    cases h

theorem keeps_throw (hrefl : ∀ s, R s s) (e : ε) : Keeps R (throw e : EStateM ε σ α) where
  ok := by
    intro s b t h
    cases h
  error := by
    intro s e t h
    cases h
    exact hrefl s

theorem Keeps.foldlM (hrefl : ∀ s, R s s) (htrans : ∀ s t u, R s t → R t u → R s u)
    {g : β → α → EStateM ε σ β} (hg : ∀ b a, Keeps R (g b a)) (as : List α) (b : β) :
    Keeps R (as.foldlM g b) := by
  induction as generalizing b with
  | nil => exact keeps_pure hrefl b
  | cons a as ih => exact (hg b a).bind htrans ih

end

end Library
