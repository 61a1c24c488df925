import AliceLedger.Book.Sweep

/-!
# The loop over the crossing levels

The engine collects the keys of the crossing levels, then fills one level after the other and
removes the levels it exhausts. Over levels whose orders are all open this is `sweepLevels`, which
sweeps the queues of the levels in turn (`matchLevels_eq`), and that is one sweep of the
concatenated queue (`sweep_queueOf`). A collected key is present when its turn comes, whatever the
levels are (`get?_matchLevels`), so the `unwrap` of the source never fails.
-/

namespace AliceLedger

variable {K : Type*}

/-- The orders of a list of levels, in the order of the levels and oldest first in each. -/
def queueOf (es : List (K × PriceLevel)) : List Order := es.flatMap fun e => e.2.orders

@[simp] theorem queueOf_nil : queueOf ([] : List (K × PriceLevel)) = [] := rfl

@[simp] theorem queueOf_cons (e : K × PriceLevel) (es : List (K × PriceLevel)) :
    queueOf (e :: es) = e.2.orders ++ queueOf es := rfl

@[simp] theorem queueOf_append (es es' : List (K × PriceLevel)) :
    queueOf (es ++ es') = queueOf es ++ queueOf es' := List.flatMap_append

theorem mem_queueOf {es : List (K × PriceLevel)} {o : Order} :
    o ∈ queueOf es ↔ ∃ e ∈ es, o ∈ e.2.orders := List.mem_flatMap

theorem liquidity_queueOf (es : List (K × PriceLevel)) :
    liquidity (queueOf es) = (es.map fun e => liquidity e.2.orders).sum := by
  induction es with
  | nil => rfl
  | cons e es ih => rw [queueOf_cons, liquidity_append, ih, List.map_cons, List.sum_cons]

/-- No level is empty, and every order in one is open. -/
def LevelsOpen (es : List (K × PriceLevel)) : Prop :=
  ∀ e ∈ es, e.2.orders ≠ [] ∧ AllOpen e.2.orders

theorem LevelsOpen.allOpen {es : List (K × PriceLevel)} (h : LevelsOpen es) :
    AllOpen (queueOf es) := fun o ho => by
  obtain ⟨e, he, ho⟩ := mem_queueOf.mp ho
  exact (h e he).2 o ho

/-! ## The sweep of levels -/

/-- The result of a sweep of levels. -/
structure SweptLevels (K : Type*) where
  taker : Order
  popped : List Order
  levels : List (K × PriceLevel)
  fills : List Fill

/-- Sweep the queues of the levels in turn, dropping the levels that are used up. -/
def sweepLevels (taker : Order) : List (K × PriceLevel) → SweptLevels K
  | [] => ⟨taker, [], [], []⟩
  | (key, level) :: rest =>
    let r := sweep taker level.orders
    if r.makers = [] then
      let t := sweepLevels r.taker rest
      ⟨t.taker, r.popped ++ t.popped, t.levels, r.fills ++ t.fills⟩
    else ⟨r.taker, r.popped, (key, level.afterSweep r) :: rest, r.fills⟩

/-- **Sweeping levels is sweeping their queue.** -/
theorem sweep_queueOf (taker : Order) (es : List (K × PriceLevel)) :
    sweep taker (queueOf es) =
      let r := sweepLevels taker es
      ⟨r.taker, r.popped, queueOf r.levels, r.fills⟩ := by
  induction es generalizing taker with
  | nil => rfl
  | cons e es ih =>
    obtain ⟨key, level⟩ := e
    rw [queueOf_cons, sweep_append]
    simp only [sweepLevels]
    split_ifs with h
    · rw [ih]
    · rfl

/-- A level that is left is one of the levels, after the sweep that did not use it up. -/
theorem mem_sweepLevels {taker : Order} {es : List (K × PriceLevel)} {e : K × PriceLevel}
    (h : e ∈ (sweepLevels taker es).levels) :
    e ∈ es ∨ ∃ key level taker', (key, level) ∈ es ∧
      (sweep taker' level.orders).makers ≠ [] ∧
      e = (key, level.afterSweep (sweep taker' level.orders)) := by
  induction es generalizing taker with
  | nil => exact absurd h (by simp [sweepLevels])
  | cons a es ih =>
    obtain ⟨key, level⟩ := a
    simp only [sweepLevels] at h
    split_ifs at h with hnil
    · rcases ih h with h | ⟨key', level', taker', hmem, hne, rfl⟩
      · exact .inl (List.mem_cons_of_mem _ h)
      · exact .inr ⟨key', level', taker', List.mem_cons_of_mem _ hmem, hne, rfl⟩
    · rcases List.mem_cons.mp h with rfl | h
      · exact .inr ⟨key, level, taker, by simp, hnil, rfl⟩
      · exact .inl (List.mem_cons_of_mem _ h)

/-- An open taker uses up every level. -/
theorem sweepLevels_levels_eq_nil {taker : Order} {es : List (K × PriceLevel)}
    (h : (sweepLevels taker es).taker.isFilled = false) : (sweepLevels taker es).levels = [] := by
  induction es generalizing taker with
  | nil => rfl
  | cons e es ih =>
    obtain ⟨key, level⟩ := e
    simp only [sweepLevels] at h ⊢
    split_ifs at h ⊢ with hnil
    · exact ih h
    · rw [isFilled_of_makers_ne_nil hnil] at h
      exact absurd h (by simp)

/-- A filled taker leaves the levels as they are. -/
theorem sweepLevels_of_filled {taker : Order} (ht : taker.isFilled = true)
    {es : List (K × PriceLevel)} (hes : LevelsOpen es) :
    sweepLevels taker es = ⟨taker, [], es, []⟩ := by
  cases es with
  | nil => rfl
  | cons e es =>
    obtain ⟨key, level⟩ := e
    simp only [sweepLevels, sweep_of_filled ht]
    exact if_neg (hes (key, level) (by simp)).1

/-! ## The loop -/

section Loop

variable [LinearOrder K] {fill : OrderId → UInt64 → FillState → FillState} {key k : K}
  {level : PriceLevel} {s : MatchState K}

theorem get?_matchLevel_of_ne (h : k ≠ key) :
    (matchLevel fill key level s).levels.get? k = s.levels.get? k := by
  simp only [matchLevel]
  split_ifs
  · rw [SortedMap.get?_erase_of_ne _ h, SortedMap.get?_insert_of_ne _ _ h]
  · rw [SortedMap.get?_insert_of_ne _ _ h]

theorem get?_matchLevels_of_not_mem {keys : List K} (h : k ∉ keys) (s : MatchState K) :
    (matchLevels fill keys s).levels.get? k = s.levels.get? k := by
  induction keys generalizing s with
  | nil => rfl
  | cons key keys ih =>
    obtain ⟨hne, hmem⟩ := not_or.mp (mt List.mem_cons.mpr h)
    rw [matchLevels]
    split_ifs
    · rfl
    · cases s.levels.get? key with
      | none => rfl
      | some level => rw [ih hmem, get?_matchLevel_of_ne hne]

/-- **A collected key is present when its turn comes.** -/
theorem get?_matchLevels (m : SortedMap K PriceLevel) (bound : K) {done rest : List K}
    (h : (m.upTo bound).map Prod.fst = done ++ k :: rest) (hs : s.levels = m) :
    ((matchLevels fill done s).levels.get? k).isSome := by
  have hnodup : ((m.upTo bound).map Prod.fst).Nodup :=
    (List.filter_sublist.map Prod.fst).nodup m.keys_nodup
  rw [h, List.nodup_append] at hnodup
  have hk : k ∉ done := fun hk => hnodup.2.2 k hk k (by simp) rfl
  rw [get?_matchLevels_of_not_mem hk, hs]
  have hmem : k ∈ (m.upTo bound).map Prod.fst := by rw [h]; simp
  obtain ⟨e, he, rfl⟩ := List.mem_map.mp hmem
  rw [SortedMap.mem_entries_iff.mp (SortedMap.mem_upTo.mp he).1]
  rfl

theorem matchLevels_of_filled (h : s.taker.isFilled = true) (keys : List K) :
    matchLevels fill keys s = s := by
  cases keys with
  | nil => rfl
  | cons => rw [matchLevels, if_pos h]

/-- One pass of the loop, on the first level of the map. -/
theorem matchLevel_eq {key : K} {level : PriceLevel} {tail : List (K × PriceLevel)}
    {s : MatchState K} (hs : s.levels.entries = (key, level) :: tail)
    (hopen : AllOpen level.orders) :
    let r := sweep s.taker level.orders
    let t := matchLevel fillLevel key level s
    t.levels.entries = (if r.makers = [] then tail else (key, level.afterSweep r) :: tail) ∧
      t.taker = r.taker ∧ t.fills = s.fills ++ r.fills ∧ t.index = dropIds s.index r.popped := by
  obtain ⟨levels, taker, fills, index⟩ := s
  have hins : ∀ level', (levels.insert key level').entries = [] ++ (key, level') :: tail :=
    fun _ => SortedMap.entries_insert (show levels.entries = [] ++ _ from hs)
  simp only [matchLevel, fillLevel_eq hopen, SortedMap.get?_insert_self, Option.any_some,
    PriceLevel.isEmpty, and_self, and_true]
  by_cases hnil : (sweep taker level.orders).makers = []
  · rw [if_pos (by simp [PriceLevel.afterSweep, hnil]), if_pos hnil]
    exact SortedMap.entries_erase (hins _)
  · rw [if_neg (by simp [PriceLevel.afterSweep, hnil]), if_neg hnil]
    exact hins _

/-- **The loop over the crossing levels is the sweep of the levels.** -/
theorem matchLevels_eq {es post : List (K × PriceLevel)} {s : MatchState K}
    (hs : s.levels.entries = es ++ post) (hopen : LevelsOpen es) :
    let r := sweepLevels s.taker es
    let t := matchLevels fillLevel (es.map Prod.fst) s
    t.levels.entries = r.levels ++ post ∧ t.taker = r.taker ∧ t.fills = s.fills ++ r.fills ∧
      t.index = dropIds s.index r.popped := by
  induction es generalizing s with
  | nil => simp [matchLevels, sweepLevels, dropIds, hs]
  | cons e es ih =>
    obtain ⟨key, level⟩ := e
    have hrest : LevelsOpen es := fun e he => hopen e (List.mem_cons_of_mem _ he)
    cases ht : s.taker.isFilled with
    | true =>
      simp only [sweepLevels_of_filled ht hopen, matchLevels_of_filled ht]
      simpa [dropIds] using hs
    | false =>
      have hget : s.levels.get? key = some level :=
        SortedMap.get?_of_entries_eq (show s.levels.entries = [] ++ _ from hs)
      obtain ⟨h1, h2, h3, h4⟩ := matchLevel_eq hs (hopen (key, level) (by simp)).2
      simp only [List.map_cons, matchLevels, ht, Bool.false_eq_true, if_false, hget, sweepLevels]
      by_cases hnil : (sweep s.taker level.orders).makers = []
      · -- the level is exhausted and has left the map
        simp only [if_pos hnil] at h1 ⊢
        obtain ⟨i1, i2, i3, i4⟩ := ih h1 hrest
        rw [h2] at i1 i2 i3 i4
        refine ⟨i1, i2, ?_, ?_⟩
        · rw [i3, h3, List.append_assoc]
        · rw [i4, h4]; simp only [dropIds, List.foldl_append]
      · -- the taker is filled, and the loop breaks at the next key
        simp only [if_neg hnil] at h1 ⊢
        rw [matchLevels_of_filled (by rw [h2]; exact isFilled_of_makers_ne_nil hnil)]
        exact ⟨h1, h2, h3, h4⟩

end Loop

end AliceLedger
