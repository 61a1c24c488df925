import Mathlib.Data.List.Basic

/-!
# Machines with a part for each key

A machine whose inputs are tagged with a key may be a family of machines, one for each key: an
input steps the part under its key and leaves the other parts (`Family`). A run of the whole is then
a run of each part over the inputs for its key (`Family.run`), which fails exactly when one of these
does (`Family.run_eq_none_iff`); so how the inputs of different keys are interleaved does not matter
(`Family.run_congr`).
-/

namespace Keyed

variable {σ τ κ ι : Type*} [DecidableEq κ]

/-- The inputs for a key, in order. -/
def inputsFor (k : κ) (is : List (κ × ι)) : List ι :=
  is.filterMap fun x => if x.1 = k then some x.2 else none

theorem inputsFor_cons_self (k : κ) (i : ι) (is : List (κ × ι)) :
    inputsFor k ((k, i) :: is) = i :: inputsFor k is :=
  List.filterMap_cons_some (if_pos rfl)

theorem inputsFor_cons_of_ne {k k' : κ} (h : k' ≠ k) (i : ι) (is : List (κ × ι)) :
    inputsFor k ((k', i) :: is) = inputsFor k is :=
  List.filterMap_cons_none (if_neg h)

/-- An input for a key steps the part under the key, and no other part. -/
structure Family (step : σ → κ × ι → Option σ) (part : σ → κ → τ)
    (stepAt : κ → τ → ι → Option τ) : Prop where
  at_key : ∀ s k i, (step s (k, i)).map (fun t => part t k) = stepAt k (part s k) i
  elsewhere : ∀ {s k i t k'}, step s (k, i) = some t → k' ≠ k → part t k' = part s k'

namespace Family

variable {step : σ → κ × ι → Option σ} {part : σ → κ → τ} {stepAt : κ → τ → ι → Option τ}
  {s t : σ} {is js : List (κ × ι)}

/-- After a step, every part has the rest of its own run before it. -/
theorem foldlM_cons (h : Family step part stepAt) {k : κ} {i : ι} (hstep : step s (k, i) = some t)
    (is : List (κ × ι)) (k' : κ) :
    (inputsFor k' ((k, i) :: is)).foldlM (stepAt k') (part s k') =
      (inputsFor k' is).foldlM (stepAt k') (part t k') := by
  by_cases hk : k = k'
  · subst hk
    have hpart := h.at_key s k i
    rw [hstep, Option.map_some] at hpart
    rw [inputsFor_cons_self, List.foldlM_cons, ← hpart]
    rfl
  · rw [inputsFor_cons_of_ne hk, h.elsewhere hstep (Ne.symm hk)]

omit [DecidableEq κ] in
/-- A run over inputs for one key is a run of the part under it. -/
theorem map_part_foldlM (h : Family step part stepAt) (k : κ) (is : List ι) (s : σ) :
    ((is.map fun i => (k, i)).foldlM step s).map (fun t => part t k) =
      is.foldlM (stepAt k) (part s k) := by
  induction is generalizing s with
  | nil => rfl
  | cons i is ih =>
    rw [List.map_cons, List.foldlM_cons, List.foldlM_cons, ← h.at_key s k i]
    cases step s (k, i) with
    | none => rfl
    | some t => exact ih t

/-- **A run of the family is a run of each part.** -/
theorem run (h : Family step part stepAt) (hrun : is.foldlM step s = some t) (k : κ) :
    (inputsFor k is).foldlM (stepAt k) (part s k) = some (part t k) := by
  induction is generalizing s with
  | nil =>
    obtain rfl : s = t := Option.some.inj hrun
    rfl
  | cons x is ih =>
    obtain ⟨k', i⟩ := x
    rw [List.foldlM_cons] at hrun
    obtain ⟨u, hu, hrest⟩ := Option.bind_eq_some_iff.mp hrun
    rw [h.foldlM_cons hu]
    exact ih hrest

/-- **A run of the family fails** exactly when the run of a part does. -/
theorem run_eq_none_iff (h : Family step part stepAt) : is.foldlM step s = none ↔
    ∃ k, (inputsFor k is).foldlM (stepAt k) (part s k) = none := by
  induction is generalizing s with
  | nil => exact iff_of_false nofun fun ⟨_, hnone⟩ => absurd hnone nofun
  | cons x is ih =>
    obtain ⟨k, i⟩ := x
    cases hstep : step s (k, i) with
    | none =>
      refine iff_of_true ?_ ⟨k, ?_⟩
      · rw [List.foldlM_cons, hstep]
        rfl
      · have hpart := h.at_key s k i
        rw [hstep, Option.map_none] at hpart
        rw [inputsFor_cons_self, List.foldlM_cons, ← hpart]
        rfl
    | some u =>
      rw [List.foldlM_cons, hstep]
      simp only [h.foldlM_cons hstep]
      exact ih

/-- **Interleaving does not matter**: lists with the same inputs for each key run alike, where the
parts make up the whole. -/
theorem run_congr (h : Family step part stepAt)
    (hext : ∀ {s t : σ}, (∀ k, part s k = part t k) → s = t)
    (hsame : ∀ k, inputsFor k is = inputsFor k js) (s : σ) :
    is.foldlM step s = js.foldlM step s := by
  cases his : is.foldlM step s with
  | none =>
    obtain ⟨k, hk⟩ := h.run_eq_none_iff.mp his
    rw [hsame k] at hk
    exact (h.run_eq_none_iff.mpr ⟨k, hk⟩).symm
  | some t =>
    cases hjs : js.foldlM step s with
    | none =>
      obtain ⟨k, hk⟩ := h.run_eq_none_iff.mp hjs
      rw [← hsame k] at hk
      exact absurd (his.symm.trans (h.run_eq_none_iff.mpr ⟨k, hk⟩)) nofun
    | some u =>
      refine congrArg some (hext fun k => Option.some.inj ?_)
      rw [← h.run his k, ← h.run hjs k, hsame k]

end Family

end Keyed
