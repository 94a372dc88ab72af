import Mathlib.Data.List.Basic

/-!
# Finite runs of partial machines

A machine is a partial step function: a label is enabled in a state when the
function has a value there. A run is a list of labels. Two kinds of statement
about a run are used: what every visited state satisfies (`Visits`) and what
every step taken satisfies in the state it is taken from (`Along`).
-/

namespace Library
namespace Machine

variable {σ ι : Type*} {step : σ → ι → Option σ}

/-- Execute the labels in order; `none` when one of them is not enabled. -/
def run (step : σ → ι → Option σ) : σ → List ι → Option σ
  | s, [] => some s
  | s, l :: ls => (step s l).bind fun t => run step t ls

/-- Every state visited by the run, the first one included, satisfies `P`. -/
def Visits (step : σ → ι → Option σ) (P : σ → Prop) : σ → List ι → Prop
  | s, [] => P s
  | s, l :: ls => P s ∧ ∀ t, step s l = some t → Visits step P t ls

/-- Every step of the run satisfies `C` in the state it is taken from. -/
def Along (step : σ → ι → Option σ) (C : σ → ι → Prop) : σ → List ι → Prop
  | _, [] => True
  | s, l :: ls => C s l ∧ ∀ t, step s l = some t → Along step C t ls

instance Along.decidable {C : σ → ι → Prop} [∀ s l, Decidable (C s l)] :
    ∀ (s : σ) (ls : List ι), Decidable (Along step C s ls)
  | _, [] => isTrue trivial
  | s, l :: ls =>
    match h : step s l with
    | none => decidable_of_iff (C s l) ⟨fun hc => ⟨hc, fun t ht => by rw [h] at ht; cases ht⟩, And.left⟩
    | some t =>
      have : Decidable (Along step C t ls) := Along.decidable t ls
      decidable_of_iff (C s l ∧ Along step C t ls)
        ⟨fun hc => ⟨hc.1, fun u hu => by rw [h] at hu; cases hu; exact hc.2⟩,
          fun hc => ⟨hc.1, hc.2 t h⟩⟩

/-! ### Runs -/

theorem run_cons {s t : σ} {l : ι} {ls : List ι} :
    run step s (l :: ls) = some t ↔ ∃ u, step s l = some u ∧ run step u ls = some t :=
  Option.bind_eq_some_iff

theorem run_append {s t : σ} {ls ms : List ι} :
    run step s (ls ++ ms) = some t ↔ ∃ u, run step s ls = some u ∧ run step u ms = some t := by
  induction ls generalizing s with
  | nil => simp [run]
  | cons l ls ih =>
    simp only [List.cons_append, run_cons, ih]
    constructor
    · rintro ⟨u, hu, v, hv, ht⟩
      exact ⟨v, ⟨u, hu, hv⟩, ht⟩
    · rintro ⟨v, ⟨u, hu, hv⟩, ht⟩
      exact ⟨u, hu, v, hv, ht⟩

theorem along_append {C : σ → ι → Prop} {s : σ} {ls ms : List ι} :
    Along step C s (ls ++ ms) ↔
      Along step C s ls ∧ ∀ t, run step s ls = some t → Along step C t ms := by
  induction ls generalizing s with
  | nil => simp [Along, run]
  | cons l ls ih =>
    simp only [List.cons_append, Along, ih, run_cons]
    constructor
    · rintro ⟨hc, h⟩
      exact ⟨⟨hc, fun t ht => (h t ht).1⟩, fun t ⟨u, hu, hr⟩ => (h u hu).2 t hr⟩
    · rintro ⟨⟨hc, h⟩, k⟩
      exact ⟨hc, fun t ht => ⟨h t ht, fun u hu => k u ⟨t, ht, hu⟩⟩⟩

/-- `Along` read off the prefixes of the run. -/
theorem along_iff {C : σ → ι → Prop} {s : σ} {ls : List ι} :
    Along step C s ls ↔
      ∀ ms l ns t, ls = ms ++ l :: ns → run step s ms = some t → C t l := by
  constructor
  · rintro h ms l ns t rfl hr
    exact ((along_append.mp h).2 t hr).1
  · intro h
    induction ls generalizing s with
    | nil => trivial
    | cons l ls ih =>
      refine ⟨h [] l ls s rfl rfl, fun t ht => ih fun ms m ns u hls hr => ?_⟩
      exact h (l :: ms) m ns u (by rw [hls, List.cons_append]) (run_cons.mpr ⟨t, ht, hr⟩)

theorem along_true (s : σ) (ls : List ι) : Along step (fun _ _ => True) s ls :=
  along_iff.mpr fun _ _ _ _ _ _ => trivial

/-! ### Invariant rules -/

/-- What every step that meets `C` preserves, every run of such steps preserves. -/
theorem run_invariant {I : σ → Prop} {C : σ → ι → Prop}
    (hstep : ∀ s l t, I s → C s l → step s l = some t → I t)
    {s t : σ} {ls : List ι} (hs : I s) (hC : Along step C s ls)
    (hr : run step s ls = some t) : I t := by
  induction ls generalizing s with
  | nil =>
    cases hr
    exact hs
  | cons l ls ih =>
    obtain ⟨u, hu, hr⟩ := run_cons.mp hr
    exact ih (hstep s l u hs hC.1 hu) (hC.2 u hu) hr

theorem visits_of_invariant {I P : σ → Prop} {C : σ → ι → Prop}
    (hstep : ∀ s l t, I s → C s l → step s l = some t → I t) (hP : ∀ s, I s → P s)
    {s : σ} {ls : List ι} (hs : I s) (hC : Along step C s ls) : Visits step P s ls := by
  induction ls generalizing s with
  | nil => exact hP s hs
  | cons l ls ih => exact ⟨hP s hs, fun t ht => ih (hstep s l t hs hC.1 ht) (hC.2 t ht)⟩

theorem along_of_invariant {I : σ → Prop} {C D : σ → ι → Prop}
    (hstep : ∀ s l t, I s → C s l → step s l = some t → I t)
    (hD : ∀ s l, I s → C s l → D s l)
    {s : σ} {ls : List ι} (hs : I s) (hC : Along step C s ls) : Along step D s ls := by
  induction ls generalizing s with
  | nil => trivial
  | cons l ls ih => exact ⟨hD s l hs hC.1, fun t ht => ih (hstep s l t hs hC.1 ht) (hC.2 t ht)⟩

/- A machine whose states carry more visits what the machine without it visits. -/
theorem visits_map_iff {τ : Type*} {step' : τ → ι → Option τ} {f : σ → τ}
    (hstep : ∀ s l, step' (f s) l = (step s l).map f) {P : τ → Prop} {s : σ} {ls : List ι} :
    Visits step (fun s => P (f s)) s ls ↔ Visits step' P (f s) ls := by
  induction ls generalizing s with
  | nil => exact Iff.rfl
  | cons l ls ih =>
    refine and_congr_right fun _ => ⟨fun h t ht => ?_, fun h t ht => ?_⟩
    · rw [hstep] at ht
      obtain ⟨u, hu, rfl⟩ := Option.map_eq_some_iff.mp ht
      exact ih.mp (h u hu)
    · refine ih.mpr (h (f t) ?_)
      rw [hstep, ht, Option.map_some]

theorem Visits.head {P : σ → Prop} {s : σ} {ls : List ι} (h : Visits step P s ls) : P s := by
  cases ls with
  | nil => exact h
  | cons l ls => exact h.1

theorem Visits.last {P : σ → Prop} {s t : σ} {ls : List ι} (h : Visits step P s ls)
    (hr : run step s ls = some t) : P t := by
  induction ls generalizing s with
  | nil =>
    cases hr
    exact h
  | cons l ls ih =>
    obtain ⟨u, hu, hr⟩ := run_cons.mp hr
    exact ih (h.2 u hu) hr

/- What every visited state satisfies, every step of the run establishes. -/
theorem Visits.along {P : σ → Prop} {s : σ} {ls : List ι} (h : Visits step P s ls) :
    Along step (fun s l => ∀ t, step s l = some t → P t) s ls := by
  induction ls generalizing s with
  | nil => trivial
  | cons l ls ih => exact ⟨fun t ht => (h.2 t ht).head, fun t ht => ih (h.2 t ht)⟩

theorem Along.and {C D : σ → ι → Prop} {s : σ} {ls : List ι}
    (hC : Along step C s ls) (hD : Along step D s ls) :
    Along step (fun s l => C s l ∧ D s l) s ls := by
  induction ls generalizing s with
  | nil => trivial
  | cons l ls ih => exact ⟨⟨hC.1, hD.1⟩, fun t ht => ih (hC.2 t ht) (hD.2 t ht)⟩

/-- The relation between the ends of a run, from the relation of each step. -/
theorem run_relation {R : σ → σ → Prop} {C : σ → ι → Prop} (hrefl : ∀ s, R s s)
    (htrans : ∀ s t u, R s t → R t u → R s u)
    (hstep : ∀ s l t, C s l → step s l = some t → R s t)
    {s t : σ} {ls : List ι} (hC : Along step C s ls) (hr : run step s ls = some t) : R s t := by
  induction ls generalizing s with
  | nil =>
    cases hr
    exact hrefl _
  | cons l ls ih =>
    obtain ⟨u, hu, hr⟩ := run_cons.mp hr
    exact htrans s u t (hstep s l u hC.1 hu) (ih (hC.2 u hu) hr)

/-- When no step raises the measure and every counted one lowers it, a run counts no more of
them than the measure falls. -/
theorem run_countP_le {I : σ → Prop} {μ : σ → ℕ} {p : ι → Bool}
    (hstep : ∀ s l t, I s → step s l = some t → I t ∧ μ t + (if p l then 1 else 0) ≤ μ s)
    {s t : σ} {ls : List ι} (hs : I s) (hr : run step s ls = some t) :
    ls.countP p + μ t ≤ μ s := by
  induction ls generalizing s with
  | nil =>
    cases hr
    simp
  | cons l ls ih =>
    obtain ⟨u, hu, hr⟩ := run_cons.mp hr
    obtain ⟨hI, hle⟩ := hstep s l u hs hu
    have hrest := ih hI hr
    rw [List.countP_cons]
    omega

/-- When every step that meets `C` is matched by a run of another machine, so is every run of
such steps. -/
theorem run_simulation {τ κ : Type*} {step' : τ → κ → Option τ} {C : σ → ι → Prop}
    {D : τ → κ → Prop} {R : σ → τ → Prop}
    (hstep : ∀ s l t u, R s u → C s l → step s l = some t →
      ∃ ms v, Along step' D u ms ∧ run step' u ms = some v ∧ R t v)
    {s t : σ} {u : τ} {ls : List ι} (hR : R s u) (hC : Along step C s ls)
    (hr : run step s ls = some t) :
    ∃ ms v, Along step' D u ms ∧ run step' u ms = some v ∧ R t v := by
  induction ls generalizing s u with
  | nil =>
    cases hr
    exact ⟨[], u, trivial, rfl, hR⟩
  | cons l ls ih =>
    obtain ⟨s', hs', hr⟩ := run_cons.mp hr
    obtain ⟨ms, u', hms, hu', hR'⟩ := hstep s l s' u hR hC.1 hs'
    obtain ⟨ns, v, hns, hv, hRv⟩ := ih hR' (hC.2 s' hs') hr
    refine ⟨ms ++ ns, v, along_append.mpr ⟨hms, ?_⟩, run_append.mpr ⟨u', hu', hv⟩, hRv⟩
    intro w hw
    cases hw.symm.trans hu'
    exact hns

/-! ### What can be reached -/

/-- Some run of steps that meet `C` leads from s to t. -/
def Leads (step : σ → ι → Option σ) (C : σ → ι → Prop) (s t : σ) : Prop :=
  ∃ ls, Along step C s ls ∧ run step s ls = some t

namespace Leads

variable {C : σ → ι → Prop} {s t u : σ}

theorem refl (s : σ) : Leads step C s s := ⟨[], trivial, rfl⟩

theorem head {l : ι} (hc : C s l) (hu : step s l = some u) (h : Leads step C u t) :
    Leads step C s t := by
  obtain ⟨ls, hls, ht⟩ := h
  refine ⟨l :: ls, ⟨hc, ?_⟩, run_cons.mpr ⟨u, hu, ht⟩⟩
  intro v hv
  cases hv.symm.trans hu
  exact hls

theorem single {l : ι} (hc : C s l) (ht : step s l = some t) : Leads step C s t :=
  head hc ht (refl t)

theorem trans (h : Leads step C s u) (k : Leads step C u t) : Leads step C s t := by
  obtain ⟨ls, hls, hu⟩ := h
  obtain ⟨ms, hms, ht⟩ := k
  refine ⟨ls ++ ms, along_append.mpr ⟨hls, ?_⟩, run_append.mpr ⟨u, hu, ht⟩⟩
  intro v hv
  cases hv.symm.trans hu
  exact hms

theorem mono {D : σ → ι → Prop} (h : Leads step C s t) (hCD : ∀ s l, C s l → D s l) :
    Leads step D s t := by
  obtain ⟨ls, hls, ht⟩ := h
  exact ⟨ls, along_of_invariant (I := fun _ => True) (fun _ _ _ _ _ _ => trivial)
    (fun s l _ hc => hCD s l hc) trivial hls, ht⟩

end Leads

end Machine
end Library
