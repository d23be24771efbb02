/-
CCodes.Lib.Weights — runs that come to an end.

Every state has a weight, and every step that is allowed takes from it
(`Lightens`). Then a run is no longer than its start is heavy, and there is one to a
state in which no step is possible. The weight is often a sum over the components of
a system, of which a step changes one (`sum_update`).
-/
import Mathlib.Algebra.Order.BigOperators.Group.Finset
import Mathlib.Algebra.Ring.Nat
import CCodes.Lib.Runs

namespace CCodes.Lib

variable {σ ι ω : Type}

/-- Every allowed step keeps `Inv`, and takes from the weight of the state. -/
def Lightens (step : Machine σ ι ω) (ok : σ → ι → Prop) (Inv : σ → Prop) (weight : σ → Nat) :
    Prop :=
  ∀ s i o t, Inv s → ok s i → step s i = some (o, t) → Inv t ∧ weight t < weight s

namespace Lightens

variable {step : Machine σ ι ω} {ok : σ → ι → Prop} {Inv : σ → Prop} {weight : σ → Nat}
  {s t : σ} {tr : List (ι × ω)}

/-- **Weight rule.** A run is no longer than what it took from the weight. -/
theorem length_le (hl : Lightens step ok Inv weight) (hs : Inv s) (h : Exec step ok s tr t) :
    Inv t ∧ tr.length + weight t ≤ weight s := by
  induction h with
  | nil => exact ⟨hs, Nat.le_of_eq (Nat.zero_add _)⟩
  | snoc _ hok hstep ih =>
    obtain ⟨hinv, hle⟩ := ih
    obtain ⟨hinv', hlt⟩ := hl _ _ _ _ hinv hok hstep
    refine ⟨hinv', ?_⟩
    rw [List.length_append, List.length_singleton]
    omega

/-- Some run goes on until no allowed step is possible. -/
theorem exists_stuck (hl : Lightens step ok Inv weight) (hs : Inv s) :
    ∃ tr t, Exec step ok s tr t ∧ Inv t ∧ ∀ i, ok t i → step t i = none := by
  -- the induction is on the weight
  induction hn : weight s using Nat.strong_induction_on generalizing s with
  | _ n ih =>
    by_cases hstuck : ∀ i, ok s i → step s i = none
    · exact ⟨[], s, .nil, hs, hstuck⟩
    · simp only [not_forall] at hstuck
      obtain ⟨i, hok, hstep⟩ := hstuck
      obtain ⟨⟨o, u⟩, hstep⟩ := Option.ne_none_iff_exists'.mp hstep
      obtain ⟨hinv, hlt⟩ := hl _ _ _ _ hs hok hstep
      obtain ⟨tr, t, hrun, ht⟩ := ih (weight u) (hn ▸ hlt) hinv rfl
      have hfirst : Exec step ok s [(i, o)] u := .snoc .nil hok hstep
      exact ⟨_, t, hfirst.append hrun, ht⟩

end Lightens

/-- One component of a sum changes. -/
theorem sum_update {α β : Type} [DecidableEq α] {K : Finset α} {k : α} (hk : k ∈ K) (f : α → β)
    (y : β) (weight : β → Nat) :
    ∑ j ∈ K, weight (Function.update f k y j) + weight (f k) =
      ∑ j ∈ K, weight (f j) + weight y := by
  have hsum := Finset.add_sum_erase K (fun j => weight (f j)) hk
  have hsum' := Finset.add_sum_erase K (fun j => weight (Function.update f k y j)) hk
  have hrest : ∑ j ∈ K.erase k, weight (Function.update f k y j) =
      ∑ j ∈ K.erase k, weight (f j) := by
    refine Finset.sum_congr rfl fun j hj => ?_
    rw [Function.update_of_ne (Finset.ne_of_mem_erase hj)]
  rw [Function.update_self, hrest] at hsum'
  omega

end CCodes.Lib
