import Mathlib.Data.Nat.Notation
import Mathlib.Logic.Relation
import Mathlib.Tactic.Common

/-!
# Loops whose body may stop

A `while` loop is a step function on its mutable state that answers `none` when the loop ends.
`Loop.run step n s` makes at most `n` passes. A loop with a decreasing measure ends within as
many passes as the measure of its start (`run_stops`), and from there on the number of
passes does not matter (`run_eq_of_stops`). An invariant of one pass is an invariant of every
state the loop goes through (`invariant_of_reaches`). `Loop.visited` lists these states
(`mem_visited_iff`). A map of states under which one pass of a loop is a pass of another is one of
runs (`run_map`).
-/

namespace Loop

variable {σ : Type*} {step : σ → Option σ}

/-- At most `n` passes of a loop, fewer when the body stops. -/
def run (step : σ → Option σ) : ℕ → σ → σ
  | 0, s => s
  | n + 1, s =>
    match step s with
    | none => s
    | some t => run step n t

/-- The loop started at `s` goes through the state `t`. -/
def Reaches (step : σ → Option σ) : σ → σ → Prop :=
  Relation.ReflTransGen fun s t => step s = some t

@[simp] theorem run_zero (s : σ) : run step 0 s = s := rfl

theorem run_of_none {s : σ} (h : step s = none) : ∀ n, run step n s = s
  | 0 => rfl
  | n + 1 => by rw [run, h]

theorem run_succ_of_some {s t : σ} (h : step s = some t) (n : ℕ) :
    run step (n + 1) s = run step n t := by
  rw [run, h]

/-- **A property that one pass keeps holds in every state the loop goes through.** -/
theorem invariant_of_reaches {P : σ → Prop} (hP : ∀ s t, P s → step s = some t → P t) {s t : σ}
    (hs : P s) (h : Reaches step s t) : P t := by
  induction h with
  | refl => exact hs
  | tail _ hstep ih => exact hP _ _ ih hstep

/-- **A loop with a decreasing measure ends**, within as many passes as the measure. -/
theorem run_stops (μ : σ → ℕ) (hμ : ∀ s t, step s = some t → μ t < μ s) {n : ℕ} {s : σ}
    (hn : μ s ≤ n) : step (run step n s) = none := by
  induction n generalizing s with
  | zero => exact Option.eq_none_iff_forall_ne_some.mpr fun t h => by have := hμ s t h; omega
  | succ n ih =>
    cases h : step s with
    | none => rwa [run_of_none h]
    | some t =>
      rw [run_succ_of_some h]
      exact ih (by have := hμ s t h; omega)

/-- Once the loop has ended, more passes change nothing. -/
theorem run_eq_of_stops {m n : ℕ} {s : σ} (h : step (run step m s) = none) (hmn : m ≤ n) :
    run step n s = run step m s := by
  induction m generalizing n s with
  | zero => exact run_of_none h n
  | succ m ih =>
    obtain ⟨n, rfl⟩ : ∃ k, n = k + 1 := ⟨n - 1, by omega⟩
    cases hs : step s with
    | none => rw [run_of_none hs, run_of_none hs]
    | some t =>
      rw [run_succ_of_some hs] at h ⊢
      rw [run_succ_of_some hs]
      exact ih h (by omega)

/-- The states at the start of at most `n` passes. -/
def visited (step : σ → Option σ) : ℕ → σ → List σ
  | 0, _ => []
  | n + 1, s => s :: ((step s).map (visited step n)).getD []

/-- A pass ends in a state that the loop goes through. -/
theorem reaches_run (n : ℕ) (s : σ) : Reaches step s (run step n s) := by
  induction n generalizing s with
  | zero => exact .refl
  | succ n ih =>
    cases h : step s with
    | none =>
      rw [run_of_none h]
      exact .refl
    | some t =>
      rw [run_succ_of_some h]
      exact .head h (ih t)

theorem reaches_of_mem_visited {n : ℕ} {s t : σ} (ht : t ∈ visited step n s) :
    Reaches step s t := by
  induction n generalizing s with
  | zero => exact absurd ht List.not_mem_nil
  | succ n ih =>
    rcases List.mem_cons.mp ht with rfl | ht
    · exact .refl
    · cases h : step s with
      | none =>
        rw [h] at ht
        exact absurd ht List.not_mem_nil
      | some u =>
        rw [h] at ht
        exact .head h (ih ht)

/-- **A loop that ends visits every state it goes through.** -/
theorem mem_visited_iff {n : ℕ} {s t : σ} (hstop : step (run step n s) = none) :
    t ∈ visited step (n + 1) s ↔ Reaches step s t := by
  refine ⟨reaches_of_mem_visited, fun h => ?_⟩
  induction n generalizing s with
  | zero =>
    rcases Relation.ReflTransGen.cases_head h with rfl | ⟨u, hu, -⟩
    · exact List.mem_cons_self
    · exact absurd (hstop.symm.trans hu) (by simp)
  | succ n ih =>
    rcases Relation.ReflTransGen.cases_head h with rfl | ⟨u, hu, hrest⟩
    · exact List.mem_cons_self
    · rw [run_succ_of_some hu] at hstop
      refine List.mem_cons_of_mem _ ?_
      rw [hu]
      exact ih hstop hrest

/-- **A simulation of one pass is a simulation of the loop.** -/
theorem run_map {τ : Type*} {step' : τ → Option τ} (f : σ → τ)
    (hstep : ∀ s, step' (f s) = (step s).map f) (n : ℕ) (s : σ) :
    run step' n (f s) = f (run step n s) := by
  induction n generalizing s with
  | zero => rfl
  | succ n ih =>
    cases hs : step s with
    | none => rw [run_of_none hs, run_of_none (by rw [hstep, hs]; rfl)]
    | some t => rw [run_succ_of_some hs, run_succ_of_some (by rw [hstep, hs]; rfl), ih]

end Loop
