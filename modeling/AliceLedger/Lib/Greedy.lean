import Mathlib.Algebra.Order.Ring.Defs
import Mathlib.Data.List.Forall2
import Mathlib.Tactic.Linarith
import Mathlib.Tactic.Ring

/-!
# Buying from a sorted list of offers

An offer is a capacity and a unit price. Buying greedily takes offers one after another until the
quantity is reached (`greedyCost`); an allocation takes some quantity of each offer within its
capacity (`Feasible`). From offers in order of price no allocation of the same quantity is cheaper
(`greedyCost_le_allocCost`); what an allocation takes beyond a greedy purchase costs at least the
least price (`greedyCost_add_le_allocCost`), which is what the induction carries.
-/

namespace Offers

variable {R : Type*} [CommRing R]

/-- The cost of buying `n` units, first offers first. -/
def greedyCost : ℕ → List (ℕ × R) → R
  | _, [] => 0
  | n, offer :: offers => ((min n offer.1 : ℕ) : R) * offer.2 + greedyCost (n - offer.1) offers

/-- The cost of taking a quantity of each offer. -/
def allocCost (quantities : List ℕ) (offers : List (ℕ × R)) : R :=
  (List.zipWith (fun (a : ℕ) (offer : ℕ × R) => (a : R) * offer.2) quantities offers).sum

/-- Within the capacities. -/
def Feasible (quantities : List ℕ) (offers : List (ℕ × R)) : Prop :=
  List.Forall₂ (fun a offer => a ≤ offer.1) quantities offers

/-- The units on offer. -/
def capacity (offers : List (ℕ × R)) : ℕ := (offers.map Prod.fst).sum

omit [CommRing R] in
/-- An allocation takes no more than is on offer. -/
theorem Feasible.sum_le_capacity {quantities : List ℕ} {offers : List (ℕ × R)}
    (h : Feasible quantities offers) : quantities.sum ≤ capacity offers := by
  unfold Feasible at h
  induction h with
  | nil => exact le_rfl
  | cons hle _ ih =>
    rw [List.sum_cons, capacity, List.map_cons, List.sum_cons]
    exact Nat.add_le_add hle ih

theorem allocCost_cons (a : ℕ) (quantities : List ℕ) (offer : ℕ × R) (offers : List (ℕ × R)) :
    allocCost (a :: quantities) (offer :: offers) = a * offer.2 + allocCost quantities offers := by
  rw [allocCost, List.zipWith_cons_cons, List.sum_cons, allocCost]

@[simp] theorem greedyCost_zero (offers : List (ℕ × R)) : greedyCost 0 offers = 0 := by
  induction offers with
  | nil => rfl
  | cons offer offers ih => rw [greedyCost, Nat.zero_sub, ih, Nat.zero_min]; simp

/-- Offers beyond the quantity do not matter. -/
theorem greedyCost_append {n : ℕ} {offers : List (ℕ × R)} (h : n ≤ capacity offers)
    (more : List (ℕ × R)) : greedyCost n (offers ++ more) = greedyCost n offers := by
  induction offers generalizing n with
  | nil =>
    rw [Nat.le_zero.mp h]
    simp
  | cons offer offers ih =>
    have hrest : n - offer.1 ≤ capacity offers := by
      rw [capacity, List.map_cons, List.sum_cons] at h
      exact Nat.sub_le_iff_le_add'.mpr h
    rw [List.cons_append, greedyCost, ih hrest, greedyCost]

/-- No more is bought than is on offer. -/
theorem greedyCost_min (n : ℕ) (offers : List (ℕ × R)) :
    greedyCost (min n (capacity offers)) offers = greedyCost n offers := by
  induction offers generalizing n with
  | nil => rfl
  | cons offer offers ih =>
    have hmin : min (min n (capacity (offer :: offers))) offer.1 = min n offer.1 := by
      rw [capacity, List.map_cons, List.sum_cons]
      omega
    have hrest : min n (capacity (offer :: offers)) - offer.1 =
        min (n - offer.1) (capacity offers) := by
      rw [capacity, List.map_cons, List.sum_cons, capacity]
      omega
    rw [greedyCost, hmin, hrest, ih, greedyCost]

variable [LinearOrder R] [IsStrictOrderedRing R]

/-- **What an allocation takes beyond a greedy purchase** costs at least the least price. -/
theorem greedyCost_add_le_allocCost {offers : List (ℕ × R)}
    (hsorted : offers.Pairwise fun i j => i.2 ≤ j.2) {quantities : List ℕ}
    (hfeasible : Feasible quantities offers) {least : R}
    (hleast : ∀ offer ∈ offers, least ≤ offer.2) {m d : ℕ} (hsum : quantities.sum = m + d) :
    greedyCost m offers + d * least ≤ allocCost quantities offers := by
  induction hfeasible generalizing least m d with
  | nil =>
    obtain ⟨-, rfl⟩ := Nat.add_eq_zero_iff.mp hsum.symm
    simp [greedyCost, allocCost]
  | @cons a offer quantities offers hle hrest ih =>
    obtain ⟨hhead, htail⟩ := List.pairwise_cons.mp hsorted
    have hprice : least ≤ offer.2 := hleast offer List.mem_cons_self
    rw [List.sum_cons] at hsum
    rw [allocCost_cons, greedyCost]
    have hbound : (d : R) * least ≤ d * offer.2 :=
      mul_le_mul_of_nonneg_left hprice (Nat.cast_nonneg d)
    rcases le_or_gt a (min m offer.1) with ha | ha
    · -- the greedy purchase takes at least as much here, and the allocation catches up later
      obtain ⟨e, he⟩ := Nat.exists_eq_add_of_le ha
      have hsum' : quantities.sum = (m - offer.1) + (d + e) := by omega
      have hlater := ih htail hhead hsum'
      rw [he]
      push_cast at hlater ⊢
      linarith
    · -- the greedy purchase is complete, and all that follows is beyond it
      have hm : min m offer.1 = m := by omega
      have hlater := ih htail hhead (zero_add quantities.sum).symm
      have hcast : (a : R) + quantities.sum = m + d := by exact_mod_cast hsum
      rw [hm, Nat.sub_eq_zero_of_le (min_eq_left_iff.mp hm)]
      rw [greedyCost_zero, zero_add] at hlater
      rw [greedyCost_zero, add_zero]
      calc m * offer.2 + d * least ≤ m * offer.2 + d * offer.2 := by linarith
        _ = a * offer.2 + quantities.sum * offer.2 := by rw [← add_mul, ← hcast, add_mul]
        _ ≤ a * offer.2 + allocCost quantities offers := by linarith

/-- **Greedy buying is cheapest**: from offers in order of price no allocation of the same quantity
costs less. -/
theorem greedyCost_le_allocCost {offers : List (ℕ × R)}
    (hsorted : offers.Pairwise fun i j => i.2 ≤ j.2) {quantities : List ℕ}
    (hfeasible : Feasible quantities offers) :
    greedyCost quantities.sum offers ≤ allocCost quantities offers := by
  cases offers with
  | nil =>
    cases hfeasible
    exact le_rfl
  | cons offer offers =>
    have hleast : ∀ o ∈ offer :: offers, offer.2 ≤ o.2 := fun o ho => by
      rcases List.mem_cons.mp ho with rfl | ho
      · exact le_rfl
      · exact (List.pairwise_cons.mp hsorted).1 o ho
    have h := greedyCost_add_le_allocCost hsorted hfeasible hleast
      (show quantities.sum = quantities.sum + 0 from rfl)
    rwa [Nat.cast_zero, zero_mul, add_zero] at h

end Offers
