/-
CCodes.Lib.Runs — machines with inputs and outputs, their runs, and the
rules every result about whole runs is proved with.

A machine answers an input with an output and a next state, or with
`none` when the input is not possible there. `Exec step ok s₀ tr s` says
that the machine went from `s₀` to `s` along the trace `tr`, each input
allowed by `ok` in the state it came in. The trace grows at its END, so
an induction on `Exec` compares a run with the same run one step earlier,
which is what a statement about the history needs.

* `Exec.invariant`: what the start satisfies and a step keeps holds of
  every state reached.
* `eachStep_snoc`: a property of all steps of a run, which may be about the
  history, is proved one step at a time.
* `Exec.simulates`: a machine that follows a specification step by step
  gives the specification's outputs, and is never stuck on an allowed
  input.
* `Exec.agrees`: the same for two machines that may be stuck, on the same
  inputs.
-/
import Mathlib.Data.List.Basic

namespace CCodes.Lib

/-- A machine over states `σ`, inputs `ι` and outputs `ω`. -/
abbrev Machine (σ ι ω : Type) := σ → ι → Option (ω × σ)

variable {σ ι ω : Type}

/-- The runs of a machine from `s₀` whose inputs all satisfy `ok` in the
state they come in, with the trace of inputs and outputs so far. -/
inductive Exec (step : Machine σ ι ω) (ok : σ → ι → Prop) (s₀ : σ) :
    List (ι × ω) → σ → Prop where
  | nil : Exec step ok s₀ [] s₀
  | snoc {tr : List (ι × ω)} {s t : σ} {i : ι} {o : ω} :
      Exec step ok s₀ tr s → ok s i → step s i = some (o, t) →
      Exec step ok s₀ (tr ++ [(i, o)]) t

namespace Exec

variable {step : Machine σ ι ω} {ok : σ → ι → Prop} {s₀ s t : σ}
  {tr tr' : List (ι × ω)}

/-- **Invariant rule.** -/
theorem invariant (Inv : σ → Prop) (h0 : Inv s₀)
    (hs : ∀ s i o t, Inv s → ok s i → step s i = some (o, t) → Inv t)
    (h : Exec step ok s₀ tr s) : Inv s := by
  induction h with
  | nil => exact h0
  | snoc _ hok hstep ih => exact hs _ _ _ _ ih hok hstep

/-- A weaker condition on the inputs allows the same run. -/
theorem mono {ok' : σ → ι → Prop} (hok : ∀ s i, ok s i → ok' s i)
    (h : Exec step ok s₀ tr s) : Exec step ok' s₀ tr s := by
  induction h with
  | nil => exact .nil
  | snoc _ hi hstep ih => exact .snoc ih (hok _ _ hi) hstep

/-- Conditions that all inputs of a run meet, in any state, may be added. -/
theorem and_of_forall {P : ι → Prop} (h : Exec step ok s₀ tr s) (hP : ∀ p ∈ tr, P p.1) :
    Exec step (fun s i => ok s i ∧ P i) s₀ tr s := by
  induction h with
  | nil => exact .nil
  | snoc _ hi hstep ih =>
    refine .snoc (ih fun p hp => hP p (List.mem_append_left _ hp)) ⟨hi, ?_⟩ hstep
    exact hP _ (List.mem_append_right _ (List.mem_singleton_self _))

/-- A run may be continued by a run from the state it reached. -/
theorem append (h : Exec step ok s₀ tr s) (h' : Exec step ok s tr' t) :
    Exec step ok s₀ (tr ++ tr') t := by
  induction h' with
  | nil => simpa using h
  | snoc _ hi hstep ih => rw [← List.append_assoc]; exact .snoc ih hi hstep

/-- The first part of a run, and its last step. -/
theorem cases_snoc (h : Exec step ok s₀ tr s) :
    (tr = [] ∧ s = s₀) ∨ ∃ tr' s' i o, tr = tr' ++ [(i, o)] ∧ Exec step ok s₀ tr' s' ∧
      ok s' i ∧ step s' i = some (o, s) := by
  cases h with
  | nil => exact .inl ⟨rfl, rfl⟩
  | snoc h hi hstep => exact .inr ⟨_, _, _, _, rfl, h, hi, hstep⟩

/-- The inputs determine a run. -/
theorem deterministic {ok' : σ → ι → Prop} (h : Exec step ok s₀ tr s)
    (h' : Exec step ok' s₀ tr' t) (hin : tr'.map Prod.fst = tr.map Prod.fst) :
    tr' = tr ∧ t = s := by
  induction h generalizing tr' t with
  | nil =>
    obtain rfl : tr' = [] := List.map_eq_nil_iff.mp hin
    rcases h'.cases_snoc with ⟨-, rfl⟩ | ⟨_, _, _, _, htr, -⟩
    · exact ⟨rfl, rfl⟩
    · simp at htr
  | @snoc tr s u i o _ _ hstep ih =>
    rcases h'.cases_snoc with ⟨rfl, -⟩ | ⟨tr', s', i', o', rfl, hrun', -, hstep'⟩
    · simp at hin
    · rw [List.map_append, List.map_append] at hin
      obtain ⟨hfst, hlast⟩ := List.append_inj' hin rfl
      obtain ⟨rfl, rfl⟩ := ih hrun' hfst
      obtain rfl : i' = i := by simpa using hlast
      rw [hstep', Option.some.injEq, Prod.mk.injEq] at hstep
      obtain ⟨rfl, rfl⟩ := hstep
      exact ⟨rfl, rfl⟩

end Exec

/-! ## Every step of a run -/

/-- Every step of a run from `s₀` along `tr` satisfies `P`, which is about
the trace before the step, the state, the input, the output and the next
state. -/
def EachStep (step : Machine σ ι ω) (s₀ : σ) (P : List (ι × ω) → σ → ι → ω → σ → Prop)
    (tr : List (ι × ω)) : Prop :=
  ∀ tr' s i o t, tr' ++ [(i, o)] <+: tr → Exec step (fun _ _ => True) s₀ tr' s →
    step s i = some (o, t) → P tr' s i o t

section

variable {step : Machine σ ι ω} {ok : σ → ι → Prop} {s₀ s t : σ} {tr : List (ι × ω)} {i : ι}
  {o : ω} {P : List (ι × ω) → σ → ι → ω → σ → Prop}

theorem eachStep_nil : EachStep step s₀ P [] := by
  intro tr' s i o t hpre
  simp at hpre

/-- A step more. -/
theorem eachStep_snoc (h : Exec step ok s₀ tr s) (hstep : step s i = some (o, t)) :
    EachStep step s₀ P (tr ++ [(i, o)]) ↔ EachStep step s₀ P tr ∧ P tr s i o t := by
  have hrun : Exec step (fun _ _ => True) s₀ tr s := h.mono fun _ _ _ => trivial
  constructor
  · refine fun hall => ⟨fun tr' s i o t hpre => ?_, ?_⟩
    · exact hall tr' s i o t (hpre.trans (List.prefix_append ..))
    · exact hall tr s i o t (List.prefix_refl _) hrun hstep
  · rintro ⟨hall, hlast⟩ tr' s' i' o' t' hpre hrun' hstep'
    rcases List.prefix_concat_iff.mp hpre with heq | hpre
    · obtain ⟨rfl, heq⟩ := List.append_inj' heq rfl
      obtain ⟨rfl, rfl⟩ : i' = i ∧ o' = o := by simpa using heq
      obtain ⟨-, rfl⟩ := hrun.deterministic hrun' rfl
      rw [hstep, Option.some.injEq, Prod.mk.injEq] at hstep'
      obtain ⟨-, rfl⟩ := hstep'
      exact hlast
    · exact hall tr' s' i' o' t' hpre hrun' hstep'

end

/-- Some step of a run from `s₀` along `tr` satisfies `P`, which is about the
state, the input and the next state. -/
def SomeStep (step : Machine σ ι ω) (s₀ : σ) (P : σ → ι → σ → Prop) (tr : List (ι × ω)) : Prop :=
  ∃ tr' s i o t, tr' ++ [(i, o)] <+: tr ∧ Exec step (fun _ _ => True) s₀ tr' s ∧
    step s i = some (o, t) ∧ P s i t

section

variable {step : Machine σ ι ω} {ok : σ → ι → Prop} {s₀ s t : σ} {tr : List (ι × ω)} {i : ι}
  {o : ω} {P Q : σ → ι → σ → Prop}

/-- The last step. -/
theorem SomeStep.last (h : Exec step ok s₀ tr s) (hstep : step s i = some (o, t)) (hP : P s i t) :
    SomeStep step s₀ P (tr ++ [(i, o)]) :=
  ⟨tr, s, i, o, t, List.prefix_refl _, h.mono fun _ _ _ => trivial, hstep, hP⟩

/-- A step before it. -/
theorem SomeStep.earlier (h : SomeStep step s₀ P tr) (p : ι × ω) :
    SomeStep step s₀ P (tr ++ [p]) := by
  obtain ⟨tr', s, i, o, t, hpre, hrest⟩ := h
  exact ⟨tr', s, i, o, t, hpre.trans (List.prefix_append ..), hrest⟩

end

/-! ## Running a list of inputs -/

/-- Run the machine on a list of inputs, stopping with `none` at the first
input that is not allowed or not possible. -/
def run (step : Machine σ ι ω) (ok : σ → ι → Prop) [∀ s i, Decidable (ok s i)] :
    σ → List ι → Option (List (ι × ω) × σ)
  | s, [] => some ([], s)
  | s, i :: is =>
      if ok s i then
        (step s i).bind fun p => (run step ok p.2 is).map fun q => ((i, p.1) :: q.1, q.2)
      else none

/-- What `run` computes is a run. -/
theorem exec_of_run {step : Machine σ ι ω} {ok : σ → ι → Prop}
    [∀ s i, Decidable (ok s i)] :
    ∀ {is : List ι} {s t : σ} {tr : List (ι × ω)},
      run step ok s is = some (tr, t) → Exec step ok s tr t
  | [], s, t, tr, h => by
      simp only [run, Option.some.injEq, Prod.mk.injEq] at h
      obtain ⟨rfl, rfl⟩ := h
      exact .nil
  | i :: is, s, t, tr, h => by
      simp only [run] at h
      split at h
      · rename_i hok
        cases hstep : step s i with
        | none => simp [hstep] at h
        | some p =>
          cases hrun : run step ok p.2 is with
          | none => simp [hstep, hrun] at h
          | some q =>
            simp only [hstep, hrun, Option.bind_some, Option.map_some, Option.some.injEq,
              Prod.mk.injEq] at h
            obtain ⟨rfl, rfl⟩ := h
            have hfst : Exec step ok s [(i, p.1)] p.2 := .snoc .nil hok hstep
            exact hfst.append (exec_of_run hrun)
      · cases h

/-- A run is on the inputs it was given. -/
theorem run_inputs {step : Machine σ ι ω} {ok : σ → ι → Prop} [∀ s i, Decidable (ok s i)] :
    ∀ {is : List ι} {s t : σ} {tr : List (ι × ω)},
      run step ok s is = some (tr, t) → tr.map Prod.fst = is
  | [], s, t, tr, h => by
      simp only [run, Option.some.injEq, Prod.mk.injEq] at h
      rw [← h.1, List.map_nil]
  | i :: is, s, t, tr, h => by
      simp only [run] at h
      split at h
      · obtain ⟨p, -, h⟩ := Option.bind_eq_some_iff.mp h
        obtain ⟨⟨tr', t'⟩, hrun, h⟩ := Option.map_eq_some_iff.mp h
        rw [Prod.mk.injEq] at h
        rw [← h.1, List.map_cons, run_inputs hrun]
      · cases h

/-- What `run` computes is what a run on these inputs gives. -/
theorem exec_such_that (step : Machine σ ι ω) (ok : σ → ι → Prop) [∀ s i, Decidable (ok s i)]
    (s : σ) (is : List ι) (P : List (ι × ω) × σ → Prop) [DecidablePred P]
    (h : (run step ok s is).any (fun p => decide (P p)) = true) :
    ∃ tr t, Exec step ok s tr t ∧ tr.map Prod.fst = is ∧ P (tr, t) := by
  cases hrun : run step ok s is with
  | none => simp [hrun] at h
  | some p => exact ⟨p.1, p.2, exec_of_run hrun, run_inputs hrun, by simpa [hrun] using h⟩

/-! ## Specifications -/

/-- A specification answers every input. -/
abbrev Spec (α ι ω : Type) := α → ι → ω × α

/-- The outputs and the last state of a specification on a list of inputs. -/
def Spec.run {α : Type} (spec : Spec α ι ω) : α → List ι → List ω × α
  | a, [] => ([], a)
  | a, i :: is => ((spec a i).1 :: (Spec.run spec (spec a i).2 is).1,
      (Spec.run spec (spec a i).2 is).2)

/-- One more input is answered from the state the earlier ones led to. -/
theorem Spec.run_snoc {α : Type} (spec : Spec α ι ω) (i : ι) :
    ∀ (is : List ι) (a : α), spec.run a (is ++ [i]) =
      ((spec.run a is).1 ++ [(spec (spec.run a is).2 i).1], (spec (spec.run a is).2 i).2)
  | [], a => rfl
  | j :: is, a => by simp [Spec.run, Spec.run_snoc spec i is]

/-- **Simulation rule.** If `R` relates the starts, and every allowed input
is answered from related states as the specification answers it, leading to
related states, then every run gives the specification's outputs and ends
in a state related to the specification's, in which every allowed input
has an answer. -/
theorem Exec.simulates {α : Type} {step : Machine σ ι ω} {ok : σ → ι → Prop}
    {s₀ s : σ} {tr : List (ι × ω)} (spec : Spec α ι ω) (R : α → σ → Prop) {a₀ : α}
    (h0 : R a₀ s₀)
    (hs : ∀ a s i, R a s → ok s i →
      ∃ t, step s i = some ((spec a i).1, t) ∧ R (spec a i).2 t)
    (h : Exec step ok s₀ tr s) :
    tr.map Prod.snd = (spec.run a₀ (tr.map Prod.fst)).1 ∧
      R (spec.run a₀ (tr.map Prod.fst)).2 s ∧
      ∀ i, ok s i → ∃ o t, step s i = some (o, t) := by
  have hsim : tr.map Prod.snd = (spec.run a₀ (tr.map Prod.fst)).1 ∧
      R (spec.run a₀ (tr.map Prod.fst)).2 s := by
    induction h with
    | nil => exact ⟨rfl, h0⟩
    | @snoc tr s t i o _ hok hstep ih =>
      obtain ⟨hout, hR⟩ := ih
      obtain ⟨t', hstep', hR'⟩ := hs _ _ _ hR hok
      rw [hstep, Option.some.injEq, Prod.mk.injEq] at hstep'
      obtain ⟨rfl, rfl⟩ := hstep'
      constructor
      · simp [Spec.run_snoc, hout]
      · simpa [Spec.run_snoc] using hR'
  refine ⟨hsim.1, hsim.2, fun i hok => ?_⟩
  obtain ⟨t, hstep, -⟩ := hs _ _ _ hsim.2 hok
  exact ⟨_, t, hstep⟩

/-! ## Two machines that agree -/

/-- Two answers agree: both are `none`, or the outputs are the same and `Q`
holds of the output and the next states. -/
inductive Agree {τ : Type} (Q : ω → σ → τ → Prop) : Option (ω × σ) → Option (ω × τ) → Prop where
  | none : Agree Q none none
  | some {o : ω} {s : σ} {t : τ} : Q o s t → Agree Q (some (o, s)) (some (o, t))

namespace Agree

variable {τ : Type} {Q Q' : ω → σ → τ → Prop} {x : Option (ω × σ)} {y : Option (ω × τ)}

theorem mono (h : Agree Q x y) (hQ : ∀ o s t, Q o s t → Q' o s t) : Agree Q' x y := by
  cases h with
  | none => exact .none
  | some hQs => exact .some (hQ _ _ _ hQs)

theorem eq_none_iff (h : Agree Q x y) : y = Option.none ↔ x = Option.none := by
  cases h <;> simp

theorem map_fst (h : Agree Q x y) : y.map Prod.fst = x.map Prod.fst := by
  cases h <;> rfl

theorem of_some {o : ω} {t : τ} (h : Agree Q x (Option.some (o, t))) :
    ∃ s, x = Option.some (o, s) ∧ Q o s t := by
  cases h with
  | some hQs => exact ⟨_, rfl, hQs⟩

end Agree

/-- **Agreement rule.** A run of a machine is a run of another one, on the
inputs as the other has them, when every allowed input gets answers that
agree. -/
theorem Exec.agrees {τ ι' : Type} {step : Machine σ ι ω} {step' : Machine τ ι' ω}
    {ok : τ → ι' → Prop} {s₀ : σ} {t₀ t : τ} {tr : List (ι' × ω)} (f : ι' → ι)
    (R : σ → τ → Prop) (h0 : R s₀ t₀)
    (hs : ∀ s t i, R s t → ok t i → Agree (fun _ => R) (step s (f i)) (step' t i))
    (h : Exec step' ok t₀ tr t) :
    ∃ s, Exec step (fun _ _ => True) s₀ (tr.map fun p => (f p.1, p.2)) s ∧ R s t := by
  induction h with
  | nil => exact ⟨s₀, .nil, h0⟩
  | @snoc tr t t' i o _ hok hstep ih =>
    obtain ⟨s, hexec, hR⟩ := ih
    have hagree := hs s t i hR hok
    rw [hstep] at hagree
    obtain ⟨s', hans, hR'⟩ := hagree.of_some
    rw [List.map_append]
    exact ⟨s', hexec.snoc trivial hans, hR'⟩

end CCodes.Lib
