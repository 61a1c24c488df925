import Mathlib.Data.List.Induction
import Mathlib.Data.Prod.Lex
import Mathlib.Order.Basic
import Mathlib.Order.Monotone.Basic
import Mathlib.Tactic.Common

/-!
# Maps kept in key order

`SortedMap K V` is an ordered map as the list of its entries in strictly increasing key order; the
order is a field, so that a map has one representation and two maps with the same lookups are equal
(`ext_get?`). Reading a map in key order is reading the list. In a map filled by insertions the last
entry of a key wins (`get?_insertAll`).

Insertion and removal act at one place of the list. `exists_split` finds the place of a key,
`entries_insert`, `entries_insert_new` and `entries_erase` say what the operation does there, and
`perm_insert_new` and `perm_erase` forget the place. `upTo` and `above` are the
parts of the map on the two sides of a bound, a prefix of the entries and the rest
(`entries_eq_upTo_append`). `filterMap` maps the values and drops entries, key by key
(`get?_filterMap`). `map` renames the keys along a strictly monotone function, and every
operation commutes with it.
-/

variable {K V : Type*}

/-- An ordered map: entries in strictly increasing key order. -/
structure SortedMap (K V : Type*) [LinearOrder K] where
  entries : List (K × V)
  sorted : entries.Pairwise fun a b => a.1 < b.1

namespace SortedMap

variable [LinearOrder K]

@[ext] theorem ext {m n : SortedMap K V} (h : m.entries = n.entries) : m = n := by
  cases m; cases n; cases h; rfl

instance [DecidableEq V] : DecidableEq (SortedMap K V) := fun _ _ =>
  decidable_of_iff _ SortedMap.ext_iff.symm

/-- The map without entries. -/
def empty : SortedMap K V := ⟨[], .nil⟩

/-- The keys, in increasing order. -/
def keys (m : SortedMap K V) : List K := m.entries.map Prod.fst

/-- The values, in key order. -/
def values (m : SortedMap K V) : List V := m.entries.map Prod.snd

/-- The value at a key. -/
def get? (m : SortedMap K V) (k : K) : Option V :=
  (m.entries.find? fun e => e.1 = k).map Prod.snd

/-- Insert an entry into a list in key order, replacing an entry with the same key. -/
def insertEntry (k : K) (v : V) : List (K × V) → List (K × V)
  | [] => [(k, v)]
  | e :: es =>
    if k < e.1 then (k, v) :: e :: es
    else if k = e.1 then (k, v) :: es
    else e :: insertEntry k v es

theorem mem_of_mem_insertEntry {k : K} {v : V} {e : K × V} {es : List (K × V)}
    (h : e ∈ insertEntry k v es) : e = (k, v) ∨ e ∈ es := by
  induction es with
  | nil => exact .inl (by simpa [insertEntry] using h)
  | cons a es ih =>
    simp only [insertEntry] at h
    split_ifs at h with h1 h2
    · simpa using h
    · rcases List.mem_cons.mp h with h | h
      · exact .inl h
      · exact .inr (List.mem_cons_of_mem _ h)
    · rcases List.mem_cons.mp h with rfl | h
      · exact .inr (by simp)
      · exact (ih h).imp_right (List.mem_cons_of_mem _)

theorem sorted_insertEntry (k : K) (v : V) {es : List (K × V)}
    (h : es.Pairwise fun a b => a.1 < b.1) :
    (insertEntry k v es).Pairwise fun a b => a.1 < b.1 := by
  induction es with
  | nil => simp [insertEntry]
  | cons a es ih =>
    obtain ⟨ha, hes⟩ := List.pairwise_cons.mp h
    simp only [insertEntry]
    split_ifs with h1 h2
    · exact h.cons fun e he => by
        rcases List.mem_cons.mp he with rfl | he
        · exact h1
        · exact h1.trans (ha e he)
    · exact hes.cons fun e he => h2 ▸ ha e he
    · refine (ih hes).cons fun e he => ?_
      rcases mem_of_mem_insertEntry he with rfl | he
      · exact lt_of_le_of_ne (not_lt.mp h1) (Ne.symm h2)
      · exact ha e he

/-- Set the value at a key. -/
def insert (m : SortedMap K V) (k : K) (v : V) : SortedMap K V :=
  ⟨insertEntry k v m.entries, sorted_insertEntry k v m.sorted⟩

/-- Remove a key. -/
def erase (m : SortedMap K V) (k : K) : SortedMap K V :=
  ⟨m.entries.filter fun e => e.1 ≠ k, m.sorted.filter _⟩

/-- The entries with keys up to a bound, in key order. -/
def upTo (m : SortedMap K V) (k : K) : List (K × V) := m.entries.filter fun e => e.1 ≤ k

/-- The entries with keys above a bound, in key order. -/
def above (m : SortedMap K V) (k : K) : List (K × V) := m.entries.filter fun e => k < e.1

theorem mem_upTo {m : SortedMap K V} {k : K} {e : K × V} :
    e ∈ m.upTo k ↔ e ∈ m.entries ∧ e.1 ≤ k := by
  simp [upTo]

theorem mem_above {m : SortedMap K V} {k : K} {e : K × V} :
    e ∈ m.above k ↔ e ∈ m.entries ∧ k < e.1 := by
  simp [above]

@[simp] theorem entries_empty : (empty : SortedMap K V).entries = [] := rfl

/-! ## The place of a key -/

/-- **The place of a key**: the entries below it, the entries above it, and between them its entry
when it has one. -/
theorem exists_split (m : SortedMap K V) (k : K) :
    ∃ pre post, (∀ e ∈ pre, e.1 < k) ∧ (∀ e ∈ post, k < e.1) ∧
      (m.entries = pre ++ post ∨ ∃ v, m.entries = pre ++ (k, v) :: post) := by
  obtain ⟨es, hes⟩ := m
  induction es with
  | nil => exact ⟨[], [], by simp, by simp, .inl rfl⟩
  | cons a es ih =>
    obtain ⟨ha, hes'⟩ := List.pairwise_cons.mp hes
    rcases lt_trichotomy a.1 k with hlt | rfl | hgt
    · obtain ⟨pre, post, hpre, hpost, h⟩ := ih hes'
      refine ⟨a :: pre, post, ?_, hpost, ?_⟩
      · intro e he
        rcases List.mem_cons.mp he with rfl | he
        · exact hlt
        · exact hpre e he
      · rcases h with h | ⟨v, h⟩
        · exact .inl (congrArg (a :: ·) h)
        · exact .inr ⟨v, congrArg (a :: ·) h⟩
    · exact ⟨[], es, by simp, ha, .inr ⟨a.2, rfl⟩⟩
    · refine ⟨[], a :: es, by simp, ?_, .inl rfl⟩
      intro e he
      rcases List.mem_cons.mp he with rfl | he
      · exact hgt
      · exact hgt.trans (ha e he)

section Place

variable {m : SortedMap K V} {k : K} {v w : V} {pre post : List (K × V)}

theorem lt_of_entries_eq (h : m.entries = pre ++ (k, v) :: post) :
    (∀ e ∈ pre, e.1 < k) ∧ ∀ e ∈ post, k < e.1 := by
  have hs := m.sorted
  rw [h, List.pairwise_append] at hs
  exact ⟨fun e he => hs.2.2 e he (k, v) (by simp), (List.pairwise_cons.mp hs.2.1).1⟩

theorem find?_none_of_ne {es : List (K × V)} (h : ∀ e ∈ es, e.1 ≠ k) :
    es.find? (fun e => decide (e.1 = k)) = none :=
  List.find?_eq_none.mpr fun e he => by simpa using h e he

theorem get?_of_entries_eq (h : m.entries = pre ++ (k, v) :: post) : m.get? k = some v := by
  have hpre := (lt_of_entries_eq h).1
  rw [get?, h, List.find?_append, find?_none_of_ne fun e he => (hpre e he).ne]
  simp

theorem get?_eq_none_of_entries_eq (h : m.entries = pre ++ post) (hpre : ∀ e ∈ pre, e.1 < k)
    (hpost : ∀ e ∈ post, k < e.1) : m.get? k = none := by
  rw [get?, h, List.find?_append, find?_none_of_ne fun e he => (hpre e he).ne,
    find?_none_of_ne fun e he => (hpost e he).ne']
  rfl

theorem mem_entries_iff : (k, v) ∈ m.entries ↔ m.get? k = some v := by
  obtain ⟨pre, post, hpre, hpost, h | ⟨w, h⟩⟩ := m.exists_split k
  · rw [get?_eq_none_of_entries_eq h hpre hpost, h]
    refine iff_of_false (fun hmem => ?_) (by simp)
    rcases List.mem_append.mp hmem with hmem | hmem
    · exact lt_irrefl _ (hpre _ hmem)
    · exact lt_irrefl _ (hpost _ hmem)
  · rw [get?_of_entries_eq h, h]
    constructor
    · intro hmem
      rcases List.mem_append.mp hmem with hmem | hmem
      · exact absurd (hpre _ hmem) (lt_irrefl _)
      · rcases List.mem_cons.mp hmem with hmem | hmem
        · rw [(Prod.mk.inj hmem).2]
        · exact absurd (hpost _ hmem) (lt_irrefl _)
    · intro hw
      simp [Option.some.inj hw]

theorem exists_entries_eq (h : m.get? k = some v) :
    ∃ pre post, m.entries = pre ++ (k, v) :: post := by
  obtain ⟨pre, post, h⟩ := List.append_of_mem (mem_entries_iff.mpr h)
  exact ⟨pre, post, h⟩

theorem insertEntry_append (hpre : ∀ e ∈ pre, e.1 < k) (es : List (K × V)) :
    insertEntry k w (pre ++ es) = pre ++ insertEntry k w es := by
  induction pre with
  | nil => rfl
  | cons a pre ih =>
    have ha : a.1 < k := hpre a (by simp)
    rw [List.cons_append, insertEntry, if_neg (not_lt.mpr ha.le), if_neg ha.ne',
      ih fun e he => hpre e (by simp [he]), List.cons_append]

theorem entries_insert (h : m.entries = pre ++ (k, v) :: post) :
    (m.insert k w).entries = pre ++ (k, w) :: post := by
  show insertEntry k w m.entries = _
  rw [h, insertEntry_append (lt_of_entries_eq h).1]
  simp [insertEntry]

theorem entries_insert_new (h : m.entries = pre ++ post) (hpre : ∀ e ∈ pre, e.1 < k)
    (hpost : ∀ e ∈ post, k < e.1) : (m.insert k w).entries = pre ++ (k, w) :: post := by
  show insertEntry k w m.entries = _
  rw [h, insertEntry_append hpre]
  cases post with
  | nil => rfl
  | cons a post => rw [insertEntry, if_pos (hpost a (by simp))]

theorem filter_ne_self {es : List (K × V)} (h : ∀ e ∈ es, e.1 ≠ k) :
    es.filter (fun e => e.1 ≠ k) = es :=
  List.filter_eq_self.mpr fun e he => by simpa using h e he

theorem entries_erase (h : m.entries = pre ++ (k, v) :: post) :
    (m.erase k).entries = pre ++ post := by
  obtain ⟨hpre, hpost⟩ := lt_of_entries_eq h
  have hpre' : ∀ e ∈ pre, e.1 ≠ k := fun e he => (hpre e he).ne
  have hpost' : ∀ e ∈ post, e.1 ≠ k := fun e he => (hpost e he).ne'
  show m.entries.filter (fun e => e.1 ≠ k) = _
  rw [h, List.filter_append, filter_ne_self hpre', List.filter_cons, filter_ne_self hpost']
  simp

end Place

/-! ## Lookups -/

section Lookup

variable (m n : SortedMap K V) (k k' : K) (v : V)

@[simp] theorem get?_empty : (empty : SortedMap K V).get? k = none := rfl

theorem mem_entries_insert {e : K × V} :
    e ∈ (m.insert k v).entries ↔ e = (k, v) ∨ e ∈ m.entries ∧ e.1 ≠ k := by
  obtain ⟨pre, post, hpre, hpost, h | ⟨w, h⟩⟩ := m.exists_split k
  · have hne : e ∈ pre ∨ e ∈ post → e.1 ≠ k :=
      fun he => he.elim (fun he => (hpre e he).ne) fun he => (hpost e he).ne'
    rw [entries_insert_new h hpre hpost, h]
    simp only [List.mem_append, List.mem_cons]
    tauto
  · have hne : e ∈ pre ∨ e ∈ post → e.1 ≠ k :=
      fun he => he.elim (fun he => (hpre e he).ne) fun he => (hpost e he).ne'
    have hkw : e = (k, w) → e.1 = k := fun he => by rw [he]
    rw [entries_insert h, h]
    simp only [List.mem_append, List.mem_cons]
    tauto

@[simp] theorem get?_insert_self : (m.insert k v).get? k = some v :=
  mem_entries_iff.mp ((m.mem_entries_insert k v).mpr (.inl rfl))

variable {k k'} in
theorem get?_insert_of_ne (h : k' ≠ k) : (m.insert k v).get? k' = m.get? k' := by
  refine Option.ext fun w => ?_
  rw [← mem_entries_iff, ← mem_entries_iff, mem_entries_insert]
  simp [h]

theorem mem_entries_erase {e : K × V} : e ∈ (m.erase k).entries ↔ e ∈ m.entries ∧ e.1 ≠ k := by
  simp [erase]

@[simp] theorem get?_erase_self : (m.erase k).get? k = none := by
  refine Option.eq_none_iff_forall_ne_some.mpr fun w hw => ?_
  rw [← mem_entries_iff, mem_entries_erase] at hw
  exact hw.2 rfl

variable {k k'} in
theorem get?_erase_of_ne (h : k' ≠ k) : (m.erase k).get? k' = m.get? k' := by
  refine Option.ext fun w => ?_
  rw [← mem_entries_iff, ← mem_entries_iff, mem_entries_erase]
  simp [h]

variable {m n} in
/-- **A map is its lookups.** -/
theorem ext_get? (h : ∀ k, m.get? k = n.get? k) : m = n := by
  refine ext (List.Perm.eq_of_pairwise (fun a b _ _ (hab : a.1 < b.1) hba => absurd hab hba.not_gt)
    m.sorted n.sorted ?_)
  have nodup : ∀ m : SortedMap K V, m.entries.Nodup := fun m =>
    m.sorted.imp fun {a b} hab => fun e => hab.ne (congrArg Prod.fst e)
  refine (List.perm_ext_iff_of_nodup (nodup m) (nodup n)).mpr fun e => ?_
  rw [← Prod.mk.eta (p := e), mem_entries_iff, mem_entries_iff, h]

theorem insert_insert_self (w : V) : (m.insert k v).insert k w = m.insert k w :=
  ext_get? fun k' => by
    by_cases hk : k' = k
    · rw [hk, get?_insert_self, get?_insert_self]
    · rw [get?_insert_of_ne _ _ hk, get?_insert_of_ne _ _ hk, get?_insert_of_ne _ _ hk]

variable {m k v}

/-- Inserting what is there changes nothing. -/
theorem insert_eq_self (h : m.get? k = some v) : m.insert k v = m :=
  ext_get? fun k' => by
    by_cases hk : k' = k
    · rw [hk, get?_insert_self, h]
    · rw [get?_insert_of_ne _ _ hk]

/-- Erasing a new key takes its insertion back. -/
theorem erase_insert_new (h : m.get? k = none) (w : V) : (m.insert k w).erase k = m :=
  ext_get? fun k' => by
    by_cases hk : k' = k
    · rw [hk, get?_erase_self, h]
    · rw [get?_erase_of_ne _ hk, get?_insert_of_ne _ _ hk]

end Lookup

/-! ## Maps built by insertion -/

section Insertion

variable (m : SortedMap K V) (k : K) (es fs : List (K × V))

/-- Insert entries one after another. -/
def insertAll : SortedMap K V := es.foldl (fun m e => m.insert e.1 e.2) m

/-- The value of the last entry with a key. -/
def lastValue (k : K) (es : List (K × V)) : Option V :=
  (es.reverse.find? fun e => e.1 = k).map Prod.snd

theorem lastValue_append : lastValue k (es ++ fs) = (lastValue k fs).or (lastValue k es) := by
  simp only [lastValue, List.reverse_append, List.find?_append, Option.map_or]

theorem lastValue_singleton (e : K × V) :
    lastValue k [e] = if e.1 = k then some e.2 else none := by
  unfold lastValue
  split_ifs with h <;> simp [h]

variable {k es} in
theorem mem_of_lastValue {v : V} (h : lastValue k es = some v) : (k, v) ∈ es := by
  obtain ⟨e, he, rfl⟩ := Option.map_eq_some_iff.mp h
  have hk : e.1 = k := by simpa using List.find?_some he
  rw [← hk]
  exact List.mem_reverse.mp (List.mem_of_find?_eq_some he)

variable {k es} in
theorem exists_lastValue {v : V} (h : (k, v) ∈ es) : ∃ w, lastValue k es = some w := by
  have hsome : (es.reverse.find? fun e => e.1 = k).isSome :=
    List.find?_isSome.mpr ⟨(k, v), List.mem_reverse.mpr h, decide_eq_true rfl⟩
  obtain ⟨e, he⟩ := Option.isSome_iff_exists.mp hsome
  exact ⟨e.2, by rw [lastValue, he]; rfl⟩

theorem lastValue_entries : lastValue k m.entries = m.get? k := by
  cases hget : m.get? k with
  | none =>
    refine Option.eq_none_iff_forall_ne_some.mpr fun v hv => ?_
    have hmem := mem_entries_iff.mp (mem_of_lastValue hv)
    rw [hget] at hmem
    exact Option.some_ne_none v hmem.symm
  | some v =>
    obtain ⟨w, hw⟩ := exists_lastValue (mem_entries_iff.mpr hget)
    rw [hw, ← mem_entries_iff.mp (mem_of_lastValue hw), hget]

/-- **The last entry of a key wins.** -/
theorem get?_insertAll : (m.insertAll es).get? k = (lastValue k es).or (m.get? k) := by
  induction es using List.reverseRecOn with
  | nil => rfl
  | append_singleton es e ih =>
    rw [insertAll, List.foldl_append, lastValue_append, lastValue_singleton]
    change ((m.insertAll es).insert e.1 e.2).get? k = _
    split_ifs with h
    · rw [← h, get?_insert_self]
      rfl
    · rw [get?_insert_of_ne _ _ (Ne.symm h), ih]
      rfl

end Insertion

/-! ## Up to order -/

section Perm

variable {m : SortedMap K V} {k : K} {v : V}

theorem perm_insert_new (h : m.get? k = none) (w : V) :
    (m.insert k w).entries.Perm ((k, w) :: m.entries) := by
  obtain ⟨pre, post, hpre, hpost, he | ⟨v, he⟩⟩ := m.exists_split k
  · rw [entries_insert_new he hpre hpost, he]
    exact List.perm_middle
  · rw [get?_of_entries_eq he] at h
    exact absurd h (by simp)

theorem perm_erase (h : m.get? k = some v) : m.entries.Perm ((k, v) :: (m.erase k).entries) := by
  obtain ⟨pre, post, he⟩ := exists_entries_eq h
  rw [entries_erase he, he]
  exact List.perm_middle

theorem keys_nodup (m : SortedMap K V) : m.keys.Nodup :=
  List.pairwise_map.mpr (m.sorted.imp fun h => h.ne)

end Perm

/-! ## Bounded prefixes -/

/-- **The entries up to a bound are a prefix** of the entries in key order. -/
theorem entries_eq_upTo_append (m : SortedMap K V) (k : K) :
    m.entries = m.upTo k ++ m.above k := by
  obtain ⟨pre, post, hpre, hpost, h⟩ := m.exists_split k
  have hle : ∀ e ∈ pre, decide (e.1 ≤ k) = true := fun e he => by simpa using (hpre e he).le
  have hnlt : ∀ e ∈ pre, ¬ decide (k < e.1) = true := fun e he => by simpa using (hpre e he).le
  have hnle : ∀ e ∈ post, ¬ decide (e.1 ≤ k) = true := fun e he => by simpa using hpost e he
  have hlt : ∀ e ∈ post, decide (k < e.1) = true := fun e he => by simpa using hpost e he
  have h1 := List.filter_eq_self.mpr hle
  have h2 := List.filter_eq_nil_iff.mpr hnlt
  have h3 := List.filter_eq_nil_iff.mpr hnle
  have h4 := List.filter_eq_self.mpr hlt
  rcases h with h | ⟨v, h⟩
  · rw [upTo, above, h, List.filter_append, List.filter_append, h1, h2, h3, h4]
    simp
  · rw [upTo, above, h, List.filter_append, List.filter_append, List.filter_cons, List.filter_cons,
      h1, h2, h3, h4]
    simp

/-- **The least key decides** whether an entry is within a bound. -/
theorem any_head?_keys_iff (m : SortedMap K V) (k : K) :
    m.keys.head?.any (fun key => key ≤ k) = true ↔ m.upTo k ≠ [] := by
  obtain ⟨es, hes⟩ := m
  cases es with
  | nil => simp [keys, upTo]
  | cons e es =>
    simp only [keys, upTo, List.map_cons, List.head?_cons, Option.any_some, decide_eq_true_eq,
      List.filter_cons]
    split_ifs with hle
    · simp [hle]
    · have hnil : es.filter (fun e => e.1 ≤ k) = [] :=
        List.filter_eq_nil_iff.mpr fun e' he' => by
          simpa using (not_le.mp hle).trans ((List.pairwise_cons.mp hes).1 e' he')
      simp [hle, hnil]

/-! ## Dropping entries -/

section FilterMap

variable {W X : Type*} (m : SortedMap K V) (k : K) (f : V → Option W) (g : W → Option X)

/-- Map the values, dropping the entries whose value has no image. -/
def filterMap : SortedMap K W :=
  ⟨m.entries.filterMap fun e => (f e.2).map fun w => (e.1, w),
    m.sorted.filterMap _ fun a b hab c hc d hd => by
      obtain ⟨w, -, rfl⟩ := Option.map_eq_some_iff.mp hc
      obtain ⟨x, -, rfl⟩ := Option.map_eq_some_iff.mp hd
      exact hab⟩

theorem entries_filterMap : (m.filterMap f).entries =
    m.entries.filterMap fun e => (f e.2).map fun w => (e.1, w) := rfl

theorem mem_filterMap {e : K × W} :
    e ∈ (m.filterMap f).entries ↔ ∃ v, (e.1, v) ∈ m.entries ∧ f v = some e.2 := by
  simp only [entries_filterMap, List.mem_filterMap, Option.map_eq_some_iff, Prod.exists]
  constructor
  · rintro ⟨k, v, hmem, w, hw, rfl⟩
    exact ⟨v, hmem, hw⟩
  · rintro ⟨v, hmem, hw⟩
    exact ⟨e.1, v, hmem, e.2, hw, rfl⟩

theorem get?_filterMap : (m.filterMap f).get? k = (m.get? k).bind f := by
  refine Option.ext fun w => ?_
  rw [← mem_entries_iff, mem_filterMap, Option.bind_eq_some_iff]
  simp only [mem_entries_iff]

theorem filterMap_filterMap : (m.filterMap f).filterMap g = m.filterMap fun v => (f v).bind g :=
  ext_get? fun k => by rw [get?_filterMap, get?_filterMap, get?_filterMap, Option.bind_assoc]

variable {m}

theorem filterMap_congr {f f' : V → Option W} (h : ∀ e ∈ m.entries, f e.2 = f' e.2) :
    m.filterMap f = m.filterMap f' :=
  ext_get? fun k => by
    rw [get?_filterMap, get?_filterMap]
    cases hget : m.get? k with
    | none => rfl
    | some v => exact h (k, v) (mem_entries_iff.mpr hget)

end FilterMap

/-! ## Renaming keys -/

section Map

variable {L W : Type*} [LinearOrder L] {f : K → L} (hf : StrictMono f) (g : V → W)

/-- Rename the keys along a strictly monotone function, and map the values. -/
def map (m : SortedMap K V) : SortedMap L W :=
  ⟨m.entries.map fun e => (f e.1, g e.2), List.pairwise_map.mpr (m.sorted.imp fun h => hf h)⟩

variable (m : SortedMap K V) (k : K) (v : V)

theorem entries_map : (m.map hf g).entries = m.entries.map fun e => (f e.1, g e.2) := rfl

@[simp] theorem map_empty : (empty : SortedMap K V).map hf g = empty := rfl

@[simp] theorem get?_map : (m.map hf g).get? (f k) = (m.get? k).map g := by
  have hkey : (fun e : K × V => decide (f e.1 = f k)) = fun e => decide (e.1 = k) := by
    funext e
    simp [hf.injective.eq_iff]
  simp only [get?, entries_map, List.find?_map, Option.map_map, Function.comp_def, hkey]

include hf in
theorem insertEntry_map (es : List (K × V)) :
    insertEntry (f k) (g v) (es.map fun e => (f e.1, g e.2)) =
      (insertEntry k v es).map fun e => (f e.1, g e.2) := by
  induction es with
  | nil => rfl
  | cons e es ih =>
    simp only [List.map_cons, insertEntry, hf.lt_iff_lt, hf.injective.eq_iff]
    split_ifs
    · rfl
    · rfl
    · rw [ih, List.map_cons]

theorem map_insert : (m.insert k v).map hf g = (m.map hf g).insert (f k) (g v) :=
  ext (insertEntry_map hf g k v m.entries).symm

theorem map_erase : (m.erase k).map hf g = (m.map hf g).erase (f k) := by
  refine ext ?_
  simp only [erase, entries_map, List.filter_map, Function.comp_def, ne_eq, hf.injective.eq_iff]

theorem upTo_map : (m.map hf g).upTo (f k) = (m.upTo k).map fun e => (f e.1, g e.2) := by
  simp only [upTo, entries_map, List.filter_map, Function.comp_def, hf.le_iff_le]

theorem keys_map : (m.map hf g).keys = m.keys.map f := by
  simp only [keys, entries_map, List.map_map, Function.comp_def]

end Map

end SortedMap
