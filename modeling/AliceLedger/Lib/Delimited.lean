import Mathlib.Data.List.Basic
import Mathlib.Data.List.DropRight
import Mathlib.Data.List.Infix
import Mathlib.Tactic.Common

/-!
# Delimited sequences

A sequence of chunks, each ended by a separator, is read by cutting at the separators. Cutting
splits at every boundary (`splitOn_append_of_closed`), where a boundary is the start or the place
after a separator (`Closed`), and cutting a written sequence gives its chunks back
(`splitOn_terminated`). A pattern without separators stands at a boundary exactly when some chunk
begins with it (`exists_chunk_iff`).

`splitOnce` cuts at the first separator only.
-/

namespace Delimited

variable {α : Type*}

/-! ## Boundaries -/

/-- Empty, or ending in the separator: what follows begins a chunk. -/
def Closed (s : α) (a : List α) : Prop := a = [] ∨ ∃ a', a = a' ++ [s]

theorem closed_nil (s : α) : Closed s [] := .inl rfl

theorem closed_concat (s : α) (a : List α) : Closed s (a ++ [s]) := .inr ⟨a, rfl⟩

theorem Closed.append {s : α} {a b : List α} (ha : Closed s a) (hb : Closed s b) :
    Closed s (a ++ b) := by
  rcases hb with rfl | ⟨b', rfl⟩
  · rwa [List.append_nil]
  · rw [← List.append_assoc]
    exact closed_concat s _

theorem Closed.of_append {s : α} {a b : List α} (h : Closed s (a ++ b)) : Closed s b := by
  rcases List.eq_nil_or_concat' b with rfl | ⟨b', x, rfl⟩
  · exact closed_nil s
  · rcases h with h | ⟨a', h⟩
    · simp at h
    · rw [← List.append_assoc] at h
      rw [(List.append_inj' h rfl).2]
      exact closed_concat s b'

theorem closed_concat_iff {s x : α} {a : List α} : Closed s (a ++ [x]) ↔ x = s := by
  constructor
  · rintro (h | ⟨a', h⟩)
    · simp at h
    · exact List.singleton_inj.mp (List.append_inj' h rfl).2
  · rintro rfl
    exact closed_concat x a

/-- No proper boundary inside a written chunk. -/
theorem eq_nil_of_closed {s : α} {c t b : List α} (hc : s ∉ c) (h : c ++ [s] = t ++ b)
    (ht : Closed s t) (hne : t ≠ []) : b = [] := by
  obtain rfl | ⟨t', rfl⟩ := ht
  · exact absurd rfl hne
  · rw [List.append_assoc, List.singleton_append] at h
    rcases List.append_eq_append_iff.mp h with ⟨d, rfl, hd⟩ | ⟨d, rfl, hd⟩
    · cases d with
      | nil => exact (List.cons.inj hd).2.symm
      | cons x d => simp at hd
    · cases d with
      | nil => exact (List.cons.inj hd).2
      | cons x d =>
        have hx : x = s := (List.cons.inj hd).1.symm
        exact absurd (by simp [hx]) hc

theorem closed_terminated (s : α) (cs : List (List α)) : Closed s (cs.flatMap (· ++ [s])) := by
  induction cs with
  | nil => exact closed_nil s
  | cons c cs ih =>
    rw [List.flatMap_cons]
    exact (closed_concat s c).append ih

/-- A list ends in a part without separators, after a boundary. -/
theorem exists_closed_append (s : α) (a : List α) :
    ∃ pre frag, a = pre ++ frag ∧ Closed s pre ∧ s ∉ frag := by
  induction a using List.reverseRecOn with
  | nil => exact ⟨[], [], rfl, closed_nil s, List.not_mem_nil⟩
  | append_singleton a x ih =>
    by_cases hx : x = s
    · exact ⟨a ++ [x], [], by simp, hx ▸ closed_concat x a, List.not_mem_nil⟩
    · obtain ⟨pre, frag, rfl, hpre, hfrag⟩ := ih
      refine ⟨pre, frag ++ [x], by simp, hpre, ?_⟩
      simpa [hfrag] using Ne.symm hx

/-- The search for the last index with a property. -/
theorem find?_reverse_range {n i : ℕ} {p : ℕ → Bool} :
    (List.range n).reverse.find? p = some i ↔
      p i ∧ i < n ∧ ∀ j, i < j → j < n → ¬ p j := by
  induction n with
  | zero => simp
  | succ n ih =>
    rw [List.range_succ, List.reverse_append, List.reverse_singleton, List.singleton_append,
      List.find?_cons]
    cases hn : p n with
    | true =>
      simp only [Option.some.injEq]
      constructor
      · rintro rfl
        exact ⟨hn, n.lt_succ_self, fun j hj hj' => by omega⟩
      · rintro ⟨-, hi, hlast⟩
        by_contra hne
        exact hlast n (by omega) n.lt_succ_self hn
    | false =>
      rw [ih]
      refine and_congr_right fun hi => ⟨fun h => ⟨by omega, fun j hj hj' => ?_⟩, fun h => ⟨?_, ?_⟩⟩
      · rcases Nat.lt_succ_iff_lt_or_eq.mp hj' with hj' | rfl
        · exact h.2 j hj hj'
        · simp [hn]
      · refine Nat.lt_of_le_of_ne (Nat.lt_succ_iff.mp h.1) ?_
        rintro rfl
        rw [hn] at hi
        cases hi
      · exact fun j hj hj' => h.2 j hj (by omega)

variable [DecidableEq α]

/-- Cut at the first separator. -/
def splitOnce (s : α) : List α → Option (List α × List α)
  | [] => none
  | x :: xs => if x = s then some ([], xs) else (splitOnce s xs).map fun p => (x :: p.1, p.2)

theorem splitOnce_append {s : α} {a : List α} (h : s ∉ a) (b : List α) :
    splitOnce s (a ++ s :: b) = some (a, b) := by
  induction a with
  | nil => exact if_pos rfl
  | cons x a ih =>
    have hx : x ≠ s := fun hx => h (by simp [hx])
    have ha : s ∉ a := fun ha => h (List.mem_cons_of_mem _ ha)
    rw [List.cons_append, splitOnce, if_neg hx, ih ha]
    rfl

theorem splitOnce_eq_some {s : α} {xs a b : List α} (h : splitOnce s xs = some (a, b)) :
    xs = a ++ s :: b := by
  induction xs generalizing a with
  | nil => cases h
  | cons x xs ih =>
    rw [splitOnce] at h
    split_ifs at h with hx
    · obtain ⟨rfl, rfl⟩ := Prod.mk.inj (Option.some.inj h)
      rw [hx]
      rfl
    · obtain ⟨⟨a', b'⟩, hrest, heq⟩ := Option.map_eq_some_iff.mp h
      obtain ⟨rfl, rfl⟩ := Prod.mk.inj heq
      rw [ih hrest]
      rfl

theorem idxOf?_append_cons {s : α} {a : List α} (h : s ∉ a) (b : List α) :
    (a ++ s :: b).idxOf? s = some a.length := by
  induction a with
  | nil => simp [List.idxOf?_cons]
  | cons x a ih =>
    have hx : (x == s) = false := beq_eq_false_iff_ne.mpr fun hx => h (by simp [hx])
    rw [List.cons_append, List.idxOf?_cons, hx, ih fun ha => h (List.mem_cons_of_mem _ ha)]
    rfl

theorem takeWhile_append_cons {s : α} {a : List α} (h : s ∉ a) (b : List α) :
    (a ++ s :: b).takeWhile (· ≠ s) = a ∧ (a ++ s :: b).dropWhile (· ≠ s) = s :: b := by
  have ha : ∀ x ∈ a, decide (x ≠ s) = true := fun x hx =>
    decide_eq_true fun heq => h (heq ▸ hx)
  rw [List.takeWhile_append_of_pos ha, List.dropWhile_append_of_pos ha]
  simp

theorem rtakeWhile_append {s : α} {a c : List α} (ha : Closed s a) (hc : s ∉ c) :
    (a ++ c).rtakeWhile (· ≠ s) = c := by
  have hall : ∀ x ∈ c.reverse, decide (x ≠ s) = true := fun x hx =>
    decide_eq_true fun heq => hc (heq ▸ List.mem_reverse.mp hx)
  rw [List.rtakeWhile, List.reverse_append, List.takeWhile_append_of_pos hall]
  rcases ha with rfl | ⟨a', rfl⟩ <;> simp

/-- At a boundary the cut of the whole is the two cuts, but for the empty chunk that ends the
first. -/
theorem splitOn_append_of_closed {s : α} {a : List α} (h : Closed s a) :
    ∃ cs, a.splitOn s = cs ++ [[]] ∧ ∀ b, (a ++ b).splitOn s = cs ++ b.splitOn s := by
  rcases h with rfl | ⟨a', rfl⟩
  · exact ⟨[], List.splitOn_nil s, fun b => rfl⟩
  · refine ⟨a'.splitOn s, ?_, fun b => ?_⟩
    · rw [List.splitOn_append_cons_self, List.splitOn_nil]
    · rw [List.append_assoc, List.singleton_append, List.splitOn_append_cons_self]

/-- What can be read off the chunks, one by one, can be read off the parts at a boundary, as long as
an empty chunk gives nothing. -/
theorem filterMap_splitOn_append {β : Type*} {s : α} {f : List α → Option β} (hf : f [] = none)
    {a : List α} (h : Closed s a) (b : List α) :
    ((a ++ b).splitOn s).filterMap f =
      (a.splitOn s).filterMap f ++ (b.splitOn s).filterMap f := by
  obtain ⟨cs, ha, hab⟩ := splitOn_append_of_closed h
  rw [hab, ha, List.filterMap_append, List.filterMap_append, List.filterMap_cons, hf]
  simp

/-- The chunks of the parts at a boundary are those of the whole, but for empty ones. -/
theorem mem_splitOn_append {s : α} {a : List α} (h : Closed s a) {b c : List α} (hc : c ≠ []) :
    c ∈ (a ++ b).splitOn s ↔ c ∈ a.splitOn s ∨ c ∈ b.splitOn s := by
  obtain ⟨cs, ha, hab⟩ := splitOn_append_of_closed h
  rw [hab, ha]
  simp [hc]

/-- **Cutting undoes writing**: the chunks of a written sequence, with an empty one after the last
separator. -/
theorem splitOn_terminated {s : α} {cs : List (List α)} (h : ∀ c ∈ cs, s ∉ c) :
    (cs.flatMap (· ++ [s])).splitOn s = cs ++ [[]] := by
  induction cs with
  | nil => rfl
  | cons c cs ih =>
    obtain ⟨hc, hcs⟩ := List.forall_mem_cons.mp h
    rw [List.flatMap_cons, List.append_assoc, List.singleton_append,
      List.splitOn_append_cons_self_of_not_mem hc, ih hcs]
    rfl

/-- A list is one chunk, or a chunk, a separator and the rest. -/
theorem splitOn_eq_cons (s : α) (xs : List α) :
    s ∉ xs ∧ xs.splitOn s = [xs] ∨
      ∃ c rest, s ∉ c ∧ xs = c ++ s :: rest ∧ xs.splitOn s = c :: rest.splitOn s := by
  by_cases h : s ∈ xs
  · obtain ⟨c, rest, rfl, hc⟩ := List.eq_append_cons_of_mem h
    exact .inr ⟨c, rest, hc, rfl, List.splitOn_append_cons_self_of_not_mem hc rest⟩
  · exact .inl ⟨h, List.splitOn_eq_singleton h⟩

/-- A part without separators in front goes to the first chunk. -/
theorem splitOn_append_of_not_mem {s : α} {a : List α} (h : s ∉ a) (xs : List α) :
    (a ++ xs).splitOn s = (xs.splitOn s).modifyHead (a ++ ·) := by
  rcases splitOn_eq_cons s xs with ⟨hs, hxs⟩ | ⟨c, rest, hs, rfl, hxs⟩
  · rw [hxs, List.splitOn_eq_singleton (by simp [h, hs])]
    rfl
  · rw [hxs, ← List.append_assoc, List.splitOn_append_cons_self_of_not_mem (by simp [h, hs])]
    rfl

/-- **The first chunk** is what comes before the first separator; the others are cut from what
comes after. -/
theorem splitOn_eq_takeWhile_cons (s : α) (xs : List α) :
    ∃ cs, xs.splitOn s = xs.takeWhile (· ≠ s) :: cs ∧
      (xs.dropWhile (· ≠ s)).splitOn s = [] :: cs := by
  rcases splitOn_eq_cons s xs with ⟨hs, hxs⟩ | ⟨c, rest, hc, rfl, hxs⟩
  · have hall : ∀ x ∈ xs, decide (x ≠ s) = true := fun x hx =>
      decide_eq_true fun heq => hs (heq ▸ hx)
    refine ⟨[], ?_, ?_⟩
    · rw [List.takeWhile_eq_self_iff.mpr hall, hxs]
    · rw [List.dropWhile_eq_nil_iff.mpr hall, List.splitOn_nil]
  · obtain ⟨htake, hdrop⟩ := takeWhile_append_cons hc rest
    refine ⟨rest.splitOn s, by rw [htake, hxs], ?_⟩
    rw [hdrop]
    exact List.splitOn_append_cons_self_of_not_mem List.not_mem_nil rest

/-- The chunks of a list are parts of it without separators. -/
theorem infix_of_mem_splitOn {s : α} {xs c : List α} (h : c ∈ xs.splitOn s) :
    c <:+: xs ∧ s ∉ c := by
  induction hn : xs.length using Nat.strongRecOn generalizing xs with
  | ind n ih =>
    rcases splitOn_eq_cons s xs with ⟨hs, hxs⟩ | ⟨c', rest, hs, rfl, hxs⟩
    · rw [hxs, List.mem_singleton] at h
      rw [h]
      exact ⟨List.infix_rfl, hs⟩
    · rw [hxs] at h
      rcases List.mem_cons.mp h with rfl | h
      · exact ⟨(List.prefix_append c _).isInfix, hs⟩
      · have hlt : rest.length < n := by
          rw [← hn, List.length_append, List.length_cons]
          omega
        obtain ⟨hin, hsc⟩ := ih _ hlt h rfl
        exact ⟨hin.trans ⟨c' ++ [s], [], by simp⟩, hsc⟩

/-! ## Patterns at a boundary -/

section Pattern

variable {s : α} {pat : List α}

omit [DecidableEq α] in
theorem prefix_of_prefix_append_cons (hs : s ∉ pat) {c rest : List α}
    (h : pat <+: c ++ s :: rest) : pat <+: c := by
  rcases List.prefix_or_prefix_of_prefix h (List.prefix_append c _) with hc | ⟨t, rfl⟩
  · exact hc
  · cases t with
    | nil => simp
    | cons x t =>
      have hx : x = s := (List.cons_prefix_cons.mp ((List.prefix_append_right_inj c).mp h)).1
      exact absurd (by simp [hx]) hs

/-- A pattern at the head of a list is at the head of its first chunk. -/
theorem splitOn_of_prefix (hs : s ∉ pat) {b : List α} (h : pat <+: b) :
    ∃ c cs, b.splitOn s = c :: cs ∧ pat <+: c ∧
      (cs = [] ∨ ∃ rest, b = c ++ s :: rest ∧ cs = rest.splitOn s) := by
  rcases splitOn_eq_cons s b with ⟨-, hb⟩ | ⟨c, rest, -, rfl, hb⟩
  · exact ⟨b, [], hb, h, .inl rfl⟩
  · exact ⟨c, rest.splitOn s, hb, prefix_of_prefix_append_cons hs h, .inr ⟨rest, rfl, rfl⟩⟩

/-- **A pattern stands at a boundary exactly when some chunk begins with it.** -/
theorem exists_chunk_iff (hs : s ∉ pat) (hne : pat ≠ []) (xs : List α) :
    (∃ c ∈ xs.splitOn s, pat <+: c) ↔ ∃ a b, xs = a ++ b ∧ Closed s a ∧ pat <+: b := by
  constructor
  · induction hn : xs.length using Nat.strongRecOn generalizing xs with
    | ind n ih =>
      rintro ⟨c, hc, hpat⟩
      rcases splitOn_eq_cons s xs with ⟨-, hxs⟩ | ⟨c', rest, -, rfl, hxs⟩
      · rw [hxs, List.mem_singleton] at hc
        exact ⟨[], xs, rfl, closed_nil s, hc ▸ hpat⟩
      · rw [hxs] at hc
        rcases List.mem_cons.mp hc with rfl | hc
        · exact ⟨[], _, rfl, closed_nil s, hpat.trans (List.prefix_append c _)⟩
        · have hlt : rest.length < n := by
            rw [← hn, List.length_append, List.length_cons]
            omega
          obtain ⟨a, b, rfl, ha, hb⟩ := ih _ hlt rest rfl ⟨c, hc, hpat⟩
          refine ⟨c' ++ [s] ++ a, b, by simp, (closed_concat s c').append ha, hb⟩
  · rintro ⟨a, b, rfl, ha, hb⟩
    obtain ⟨c, cs, hcs, hc, -⟩ := splitOn_of_prefix hs hb
    have hc' : c ≠ [] := fun h => hne (List.prefix_nil.mp (h ▸ hc))
    exact ⟨c, (mem_splitOn_append ha hc').mpr (.inr (by simp [hcs])), hc⟩

/-- The chunks from the last pattern at a boundary on: the first begins with the pattern and no
other does. -/
theorem splitOn_of_last (hs : s ∉ pat) (hne : pat ≠ []) {a b : List α} (ha : Closed s a)
    (hb : pat <+: b)
    (hlast : ∀ a' b', a ++ b = a' ++ b' → Closed s a' → pat <+: b' → a'.length ≤ a.length) :
    ∃ c cs, b.splitOn s = c :: cs ∧ pat <+: c ∧ ∀ d ∈ cs, ¬ pat <+: d := by
  obtain ⟨c, cs, hcs, hc, htail⟩ := splitOn_of_prefix hs hb
  refine ⟨c, cs, hcs, hc, fun d hd hpat => ?_⟩
  rcases htail with rfl | ⟨rest, rfl, rfl⟩
  · exact absurd hd List.not_mem_nil
  · obtain ⟨a', b', rfl, ha', hb'⟩ := (exists_chunk_iff hs hne rest).mp ⟨d, hd, hpat⟩
    have hle := hlast (a ++ (c ++ [s] ++ a')) b' (by simp)
      (ha.append ((closed_concat s c).append ha')) hb'
    simp only [List.length_append, List.length_singleton] at hle
    omega

end Pattern

end Delimited
