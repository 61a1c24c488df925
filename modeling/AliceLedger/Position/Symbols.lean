import AliceLedger.Lib.Keyed
import AliceLedger.Position.Fill

/-!
# Many symbols in one tracker

The calls of a tracker carry a symbol. A call reads and changes the entry of its own symbol only, so
a tracker is a family of entries (`PositionTracker.family`). Calls for different symbols may be
interleaved in any way: each symbol ends with the entry that a tracker of its own would hold, and
the tracker panics exactly when one of those would (`symbols_independent`).
-/

namespace AliceLedger

/-- A call on the entry of a symbol: a fill creates it, a mark does not. -/
def Position.stepEntry (symbolHash : UInt64) (entry : Option Position) :
    PositionOp → Option (Option Position)
  | .applyFill fill side => ((entry.getD (new symbolHash)).applyFill fill side).map some
  | .markToMarket currentPrice => some (entry.map fun pos => pos.markToMarket currentPrice)

/-- The fills among the calls for a symbol. -/
def PositionOp.fills (ops : List PositionOp) : List Fill :=
  ops.filterMap fun op => match op with
    | .applyFill fill _ => some fill
    | .markToMarket _ => none

namespace Position

variable {symbolHash : UInt64} {pos pos' : Position}

/-- What a fill leaves of the hash and the count. -/
theorem header_of_applyFill {fill : Fill} {side : Side}
    (h : pos.applyFill fill side = some pos') :
    pos'.symbolHash = pos.symbolHash ∧ pos'.tradeCount = pos.tradeCount + 1 := by
  have hresult := pos.applyFill_result fill side
  rw [h] at hresult
  cases hresult with
  | opens | adds | closes | flips | reduces => exact ⟨rfl, rfl⟩

theorem header_markToMarket (pos : Position) (currentPrice : Int64) :
    (pos.markToMarket currentPrice).symbolHash = pos.symbolHash ∧
      (pos.markToMarket currentPrice).tradeCount = pos.tradeCount := by
  unfold markToMarket
  split_ifs
  · exact ⟨rfl, rfl⟩
  · exact ⟨rfl, rfl⟩

/-- What an entry says of the fills of its symbol, `n` in number. -/
def Entered (symbolHash : UInt64) (n : ℕ) (entry : Option Position) : Prop :=
  (entry = none ↔ n = 0) ∧
    ∀ pos ∈ entry, pos.symbolHash = symbolHash ∧ pos.tradeCount = UInt64.ofNat n

theorem entered_none (symbolHash : UInt64) : Entered symbolHash 0 none :=
  ⟨iff_of_true rfl rfl, nofun⟩

/-- **One call** on an entry. -/
theorem Entered.step {n : ℕ} {entry entry' : Option Position} {op : PositionOp}
    (h : Entered symbolHash n entry) (hstep : stepEntry symbolHash entry op = some entry') :
    Entered symbolHash (n + (PositionOp.fills [op]).length) entry' := by
  cases op with
  | applyFill fill side =>
    obtain ⟨pos', hpos', rfl⟩ := Option.map_eq_some_iff.mp hstep
    obtain ⟨hhash, hcount⟩ := header_of_applyFill hpos'
    have hbefore : (entry.getD (new symbolHash)).symbolHash = symbolHash ∧
        (entry.getD (new symbolHash)).tradeCount = UInt64.ofNat n := by
      cases entry with
      | none => exact ⟨rfl, by rw [h.1.mp rfl]; rfl⟩
      | some pos => exact h.2 pos rfl
    refine ⟨iff_of_false nofun (by simp [PositionOp.fills]), fun pos hpos => ?_⟩
    obtain rfl : pos' = pos := Option.some.inj hpos
    rw [hhash, hcount, hbefore.1, hbefore.2]
    exact ⟨rfl, (UInt64.ofNat_add n 1).symm⟩
  | markToMarket currentPrice =>
    obtain rfl : entry.map (fun pos => pos.markToMarket currentPrice) = entry' :=
      Option.some.inj hstep
    refine ⟨Option.map_eq_none_iff.trans h.1, fun pos hpos => ?_⟩
    obtain ⟨pos₀, hpos₀, rfl⟩ := Option.map_eq_some_iff.mp hpos
    obtain ⟨hhash, hcount⟩ := header_markToMarket pos₀ currentPrice
    rw [hhash, hcount]
    exact h.2 pos₀ hpos₀

/-- **A run of calls** on an entry. -/
theorem Entered.run {n : ℕ} {entry entry' : Option Position} {ops : List PositionOp}
    (h : Entered symbolHash n entry)
    (hrun : ops.foldlM (stepEntry symbolHash) entry = some entry') :
    Entered symbolHash (n + (PositionOp.fills ops).length) entry' := by
  induction ops generalizing n entry with
  | nil =>
    obtain rfl : entry = entry' := Option.some.inj hrun
    exact h
  | cons op ops ih =>
    rw [List.foldlM_cons] at hrun
    obtain ⟨mid, hmid, hrest⟩ := Option.bind_eq_some_iff.mp hrun
    have hnext := ih (h.step hmid) hrest
    have hlength : (PositionOp.fills (op :: ops)).length =
        (PositionOp.fills [op]).length + (PositionOp.fills ops).length := by
      rw [← List.length_append, PositionOp.fills, PositionOp.fills, PositionOp.fills,
        ← List.filterMap_append]
      rfl
    rwa [Nat.add_assoc, ← hlength] at hnext

end Position

namespace PositionTracker

open Keyed (inputsFor Family)

/-- A call for a symbol. -/
def call (t : PositionTracker) (c : UInt64 × PositionOp) : Option PositionTracker :=
  t.step c.1 c.2

/-- **A tracker is a family of entries**, one for each symbol. -/
theorem family : Family call get Position.stepEntry where
  at_key t symbolHash op := by
    cases op with
    | applyFill fill side =>
      change (Option.map _ _).map _ = Option.map _ _
      rw [Option.map_map]
      refine Option.map_congr fun pos _ => ?_
      rw [Function.comp_apply, get, SortedMap.get?_insert_self]
    | markToMarket currentPrice =>
      change some ((t.markToMarket symbolHash currentPrice).get symbolHash) = some _
      rw [markToMarket]
      cases hget : t.positions.get? symbolHash with
      | none => simp only [get, hget, Option.map_none]
      | some pos => simp only [get, hget, Option.map_some, SortedMap.get?_insert_self]
  elsewhere {t symbolHash op t' other} hstep hne := by
    cases op with
    | applyFill fill side =>
      obtain ⟨pos, -, rfl⟩ := Option.map_eq_some_iff.mp hstep
      exact SortedMap.get?_insert_of_ne _ _ hne
    | markToMarket currentPrice =>
      obtain rfl : t.markToMarket symbolHash currentPrice = t' := Option.some.inj hstep
      rw [markToMarket]
      cases hget : t.positions.get? symbolHash with
      | none => rfl
      | some pos => exact SortedMap.get?_insert_of_ne _ _ hne

/-- A tracker is its entries. -/
theorem ext_get {t t' : PositionTracker} (h : ∀ symbolHash, t.get symbolHash = t'.get symbolHash) :
    t = t' := by
  obtain ⟨positions⟩ := t
  obtain ⟨positions'⟩ := t'
  exact congrArg mk (SortedMap.ext_get? h)

/-- A tracker of one symbol runs as its entry does. -/
theorem map_get_foldlM_step (symbolHash : UInt64) (ops : List PositionOp) :
    (ops.foldlM (step symbolHash) new).map (fun t => t.get symbolHash) =
      ops.foldlM (Position.stepEntry symbolHash) none := by
  rw [← show new.get symbolHash = none from rfl, ← family.map_part_foldlM, List.foldlM_map]
  rfl

/-- **Symbols are independent.** Let calls for many symbols be interleaved in any way on a new
tracker. It panics exactly when, for some symbol, a tracker that gets only the calls for that symbol
does. Otherwise each symbol ends with the entry that its own tracker holds; there is one exactly
when the symbol has had a fill, under its hash and with its fills counted modulo 2^64. And any other
interleaving of the same calls gives the same tracker. -/
theorem symbols_independent (calls : List (UInt64 × PositionOp)) :
    (calls.foldlM call new = none ↔
        ∃ symbolHash, (inputsFor symbolHash calls).foldlM (step symbolHash) new = none) ∧
      (∀ t, calls.foldlM call new = some t → ∀ symbolHash,
        ((inputsFor symbolHash calls).foldlM (step symbolHash) new).map
            (fun t => t.get symbolHash) = some (t.get symbolHash) ∧
          Position.Entered symbolHash (PositionOp.fills (inputsFor symbolHash calls)).length
            (t.get symbolHash)) ∧
      ∀ calls', (∀ symbolHash, inputsFor symbolHash calls' = inputsFor symbolHash calls) →
        calls'.foldlM call new = calls.foldlM call new := by
  have hentry : ∀ symbolHash, new.get symbolHash = none := fun _ => rfl
  refine ⟨?_, fun t ht symbolHash => ?_, fun calls' hsame => family.run_congr ext_get hsame new⟩
  · rw [family.run_eq_none_iff]
    refine exists_congr fun symbolHash => ?_
    rw [hentry, ← map_get_foldlM_step, Option.map_eq_none_iff]
  · have hrun := family.run ht symbolHash
    rw [hentry] at hrun
    refine ⟨(map_get_foldlM_step _ _).trans hrun, ?_⟩
    have hentered := (Position.entered_none symbolHash).run hrun
    rwa [Nat.zero_add] at hentered

end PositionTracker

end AliceLedger
