/-
CCodes.Lib.Commute — actions that commute.

Each action may be possible in a state, and then leads to one next state. If two
different actions that are possible in a state do not disturb each other
(`Commute`), it does not matter in which order a system does what it can: once one
order comes to an end, every other order comes to the same end, after the same
actions (`Path.complete`). So a single run to the end says how every run
ends, and bounds them all.
-/
import Mathlib.Data.List.Perm.Basic

namespace CCodes.Lib

variable {σ α : Type} {step : σ → α → Option σ}

/-- The state `t` is reached from `s` by the actions `as`. -/
def Path (step : σ → α → Option σ) : σ → List α → σ → Prop
  | s, [], t => s = t
  | s, a :: as, t => ∃ u, step s a = some u ∧ Path step u as t

/-- Nothing is possible any more. -/
def Ended (step : σ → α → Option σ) (s : σ) : Prop := ∀ a, step s a = none

/-- Two different actions that are possible do not disturb each other: each is
possible after the other, and the order does not matter. -/
def Commute (step : σ → α → Option σ) : Prop :=
  ∀ s a b t u, a ≠ b → step s a = some t → step s b = some u →
    ∃ v, step t b = some v ∧ step u a = some v

namespace Path

variable {s t u : σ} {as bs : List α} {a b : α}

theorem append : ∀ {as : List α} {s : σ}, Path step s as t → Path step t bs u →
    Path step s (as ++ bs) u
  | [], _, h, h' => by
      obtain rfl : _ = t := h
      exact h'
  | _ :: _, _, ⟨v, hv, h⟩, h' => ⟨v, hv, append h h'⟩

theorem snoc (h : Path step s as t) (ha : step t a = some u) : Path step s (as ++ [a]) u :=
  h.append ⟨u, ha, rfl⟩

/-- From an end no action is possible. -/
theorem of_ended (he : Ended step s) (h : Path step s as t) : as = [] ∧ t = s := by
  cases as with
  | nil => exact ⟨rfl, Eq.symm h⟩
  | cons a as =>
    obtain ⟨v, hv, -⟩ := h
    rw [he a] at hv
    cases hv

/-- **Every order comes to the same end.** If some order of actions comes to an
end, what another order has done so far can be continued to that end, by the
actions that are left. -/
theorem complete (hc : Commute step) (ht : Ended step t) :
    ∀ {as bs : List α} {s u : σ}, Path step s as t → Path step s bs u →
      ∃ cs, Path step u cs t ∧ (bs ++ cs).Perm as := by
  -- the induction is on the length of the order that ends
  suffices h : ∀ n, ∀ {as bs : List α} {s u : σ}, as.length = n → Path step s as t →
      Path step s bs u → ∃ cs, Path step u cs t ∧ (bs ++ cs).Perm as by
    intro as bs s u has hbs
    exact h as.length rfl has hbs
  intro n
  induction n with
  | zero =>
    intro as bs s u hlen has hbs
    obtain rfl := List.length_eq_zero_iff.mp hlen
    obtain rfl : s = t := has
    obtain ⟨rfl, rfl⟩ := of_ended ht hbs
    exact ⟨[], rfl, .refl _⟩
  | succ n ih =>
    intro as bs s u hlen has hbs
    obtain ⟨a, as, rfl⟩ := List.exists_cons_of_length_eq_add_one hlen
    cases bs with
    | nil =>
      obtain rfl : s = u := hbs
      exact ⟨a :: as, has, .refl _⟩
    | cons b bs =>
      obtain ⟨s₁, hs₁, has⟩ := has
      obtain ⟨s₂, hs₂, hbs⟩ := hbs
      have hlen' : as.length = n := by simpa using hlen
      by_cases hab : a = b
      · subst hab
        obtain rfl : s₁ = s₂ := Option.some.inj (hs₁.symm.trans hs₂)
        obtain ⟨cs, hcs, hperm⟩ := ih hlen' has hbs
        exact ⟨cs, hcs, hperm.cons a⟩
      · -- do `b` after `a`, finish, and then compare from behind `b`
        obtain ⟨v, hv₁, hv₂⟩ := hc s a b s₁ s₂ hab hs₁ hs₂
        have hv : Path step s₁ [b] v := ⟨v, hv₁, rfl⟩
        obtain ⟨cs, hcs, hperm⟩ := ih hlen' has hv
        have hlen₂ : (a :: cs).length = n := by rw [← hlen', ← hperm.length_eq]; rfl
        obtain ⟨ds, hds, hperm₂⟩ := ih hlen₂ ⟨v, hv₂, hcs⟩ hbs
        have hswap : (b :: a :: cs).Perm (a :: b :: cs) := .swap a b cs
        exact ⟨ds, hds, (hperm₂.cons b).trans (hswap.trans (hperm.cons a))⟩

/-- Two orders that come to an end come to the same one. -/
theorem ended_unique (hc : Commute step) (ht : Ended step t) (hu : Ended step u)
    (has : Path step s as t) (hbs : Path step s bs u) : u = t ∧ bs.Perm as := by
  obtain ⟨cs, hcs, hperm⟩ := complete hc ht has hbs
  obtain ⟨rfl, rfl⟩ := of_ended hu hcs
  exact ⟨rfl, by simpa using hperm⟩

end Path

end CCodes.Lib
