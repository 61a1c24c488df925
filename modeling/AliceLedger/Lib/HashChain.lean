import Mathlib.Data.List.Basic
import Mathlib.Data.List.Induction
import Mathlib.Tactic.Common

/-!
# Hash chains

The entries of a hash chain each name the head of the chain before them, and the head of an entry
is computed from all of it. `follow prev head anchor es` walks the entries from an anchor: it gives
the head of the last one, or nothing where an entry names another head than the one before it.

A chain that ends in a given head is determined by it (`eq_of_follow`), whatever the lengths, as
long as the entries at hand have distinct heads and none has the head of the anchor. Under the same
conditions one chain extends another exactly when it passes the head of the other
(`prefix_iff_of_follow`).
-/

namespace HashChain

variable {ε η : Type*} [DecidableEq η] {prev head : ε → η} {anchor h : η} {es fs : List ε} {e : ε}

/-- Walk the entries of a chain from an anchor. -/
def follow (prev head : ε → η) : η → List ε → Option η
  | anchor, [] => some anchor
  | anchor, e :: es => if prev e = anchor then follow prev head (head e) es else none

theorem follow_append : follow prev head anchor (es ++ fs) =
    (follow prev head anchor es).bind fun h => follow prev head h fs := by
  induction es generalizing anchor with
  | nil => rfl
  | cons e es ih =>
    rw [List.cons_append, follow, follow]
    split_ifs
    · exact ih
    · rfl

theorem follow_concat : follow prev head anchor (es ++ [e]) = some h ↔
    follow prev head anchor es = some (prev e) ∧ head e = h := by
  rw [follow_append, Option.bind_eq_some_iff]
  constructor
  · rintro ⟨h', hes, he⟩
    rw [follow] at he
    split_ifs at he with hprev
    exact ⟨by rw [hes, hprev], Option.some.inj he⟩
  · rintro ⟨hes, hhead⟩
    exact ⟨prev e, hes, by rw [follow, if_pos rfl, hhead, follow]⟩

/-- **A chain is determined by its head.** -/
theorem eq_of_follow (hinj : ∀ e ∈ es, ∀ f ∈ fs, head e = head f → e = f)
    (hes : ∀ e ∈ es, head e ≠ anchor) (hfs : ∀ f ∈ fs, head f ≠ anchor)
    (he : follow prev head anchor es = some h) (hf : follow prev head anchor fs = some h) :
    es = fs := by
  -- backwards along the first chain: the last entries agree, so the heads before them do
  induction es using List.reverseRecOn generalizing fs h with
  | nil =>
    obtain rfl := Option.some.inj he
    rcases List.eq_nil_or_concat' fs with rfl | ⟨fs, f, rfl⟩
    · rfl
    · exact absurd (follow_concat.mp hf).2 (hfs f (by simp))
  | append_singleton es e ih =>
    obtain ⟨hprev, hhead⟩ := follow_concat.mp he
    rcases List.eq_nil_or_concat' fs with rfl | ⟨fs, f, rfl⟩
    · obtain rfl := Option.some.inj hf
      exact absurd hhead (hes e (by simp))
    · obtain ⟨hprev', hhead'⟩ := follow_concat.mp hf
      obtain rfl : e = f := hinj e (by simp) f (by simp) (hhead.trans hhead'.symm)
      have hrest : es = fs := by
        refine ih (fun e he f hf => ?_) (fun e he => ?_) (fun f hf => ?_) hprev hprev'
        · exact hinj e (List.mem_append_left _ he) f (List.mem_append_left _ hf)
        · exact hes e (List.mem_append_left _ he)
        · exact hfs f (List.mem_append_left _ hf)
      rw [hrest]

/-- **A chain extends another** exactly when it ends in the other's head or goes on from it. -/
theorem prefix_iff_of_follow {h' : η} (hinj : ∀ e ∈ es, ∀ f ∈ fs, head e = head f → e = f)
    (hes : ∀ e ∈ es, head e ≠ anchor) (hfs : ∀ f ∈ fs, head f ≠ anchor)
    (he : follow prev head anchor es = some h) (hf : follow prev head anchor fs = some h') :
    es <+: fs ↔ h = h' ∨ ∃ f ∈ fs, prev f = h := by
  constructor
  · rintro ⟨gs, rfl⟩
    rw [follow_append, he, Option.bind_some] at hf
    cases gs with
    | nil => exact .inl (Option.some.inj hf)
    | cons g gs =>
      rw [follow] at hf
      split_ifs at hf with hprev
      exact .inr ⟨g, by simp, hprev⟩
  · rintro (rfl | ⟨f, hmem, rfl⟩)
    · obtain rfl : es = fs := eq_of_follow hinj hes hfs he hf
      exact List.prefix_rfl
    · obtain ⟨fs, gs, rfl⟩ := List.append_of_mem hmem
      rw [follow_append, Option.bind_eq_some_iff] at hf
      obtain ⟨h₁, hf₁, hf₂⟩ := hf
      rw [follow] at hf₂
      split_ifs at hf₂ with hprev
      subst hprev
      have heq : es = fs := by
        refine eq_of_follow (fun e he f hf => ?_) hes (fun f hf => ?_) he hf₁
        · exact hinj e he f (List.mem_append_left _ hf)
        · exact hfs f (List.mem_append_left _ hf)
      rw [heq]
      exact List.prefix_append _ _

end HashChain
