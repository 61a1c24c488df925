import AliceLedger.Lib.SortedMap

/-!
# Heaps of typed objects

A `Heap` maps addresses to objects and hands out addresses that it has never handed out before, as
memory models with block identities do: a pointer to a freed object stays dangling forever. The
frontier is a field, so that a new address is always a dead one (`get?_next`).

The objects may be of several types. An `ObjectKind` is one of them, as a constructor with its
partial inverse; `load` reads an object of a kind, and says nothing else about the heap
(`load_eq_some_iff`). The lemmas on `get?` say of each operation what it changes at its own address
and that it changes nothing elsewhere.

A `Layout` is what decides whether an allocation may be given back as another: its size, its
alignment, and whether some of its bytes are padding, which is not initialized.
-/

/-- The size and the alignment of an allocation in bytes, and whether it has padding. -/
structure Layout where
  size : ℕ
  align : ℕ
  padded : Bool
  deriving DecidableEq, Repr

namespace Layout

/-- The first multiple of an alignment from an offset on. -/
def roundUp (offset align : ℕ) : ℕ := (offset + align - 1) / align * align

/-- The layout of a C record with integer fields of these sizes. Each field starts at a multiple of
its size, and the record is padded to a multiple of the largest. -/
def record (fields : List ℕ) : Layout :=
  let align := fields.foldl Nat.max 1
  let size := roundUp (fields.foldl (fun offset field => roundUp offset field + field) 0) align
  ⟨size, align, fields.foldl Nat.add 0 < size⟩

/-- The layout of an array. -/
def array (element : Layout) (length : ℕ) : Layout :=
  ⟨length * element.size, element.align, element.padded⟩

/-- An allocation can be taken for one of its size and alignment that does not read its padding. -/
def fits (held taken : Layout) : Bool :=
  held.size = taken.size && held.align = taken.align && (!held.padded || taken.padded)

end Layout

/-- One of the types of objects in a sum `ω` of them. -/
structure ObjectKind (ω α : Type*) where
  inject : α → ω
  get? : ω → Option α
  get?_eq_some_iff : ∀ {o a}, get? o = some a ↔ o = inject a

variable {ω α : Type*}

theorem ObjectKind.get?_inject (k : ObjectKind ω α) (a : α) : k.get? (k.inject a) = some a :=
  k.get?_eq_some_iff.mpr rfl

/-- Objects at addresses below a frontier. -/
structure Heap (ω : Type*) where
  objects : SortedMap ℕ ω
  next : ℕ
  lt_next : ∀ e ∈ objects.entries, e.1 < next

namespace Heap

/-- The heap without objects. -/
def empty : Heap ω := ⟨.empty, 0, fun _ he => absurd he List.not_mem_nil⟩

variable (heap : Heap ω) (p q : ℕ) (o : ω) (k : ObjectKind ω α)

/-- The object at an address. -/
def get? : Option ω := heap.objects.get? p

/-- The object of a kind at an address. -/
def load : Option α := (heap.get? p).bind k.get?

theorem get?_eq_none_of_next_le (h : heap.next ≤ p) : heap.get? p = none := by
  refine Option.eq_none_iff_forall_ne_some.mpr fun o ho => ?_
  have hlt := heap.lt_next _ (SortedMap.mem_entries_iff.mpr ho)
  exact absurd h (not_le.mpr hlt)

variable {heap p q o k} in
theorem lt_next_of_get? (h : heap.get? p = some o) : p < heap.next :=
  heap.lt_next _ (SortedMap.mem_entries_iff.mpr h)

/-- A new object, at the frontier. -/
def alloc : Heap ω :=
  ⟨heap.objects.insert heap.next o, heap.next + 1, fun e he => by
    rcases (heap.objects.mem_entries_insert heap.next o).mp he with rfl | ⟨he, -⟩
    · exact Nat.lt_succ_self _
    · exact (heap.lt_next e he).trans (Nat.lt_succ_self _)⟩

/-- Replace the object at a live address. -/
def write : Heap ω :=
  if h : p < heap.next then
    ⟨heap.objects.insert p o, heap.next, fun e he => by
      rcases (heap.objects.mem_entries_insert p o).mp he with rfl | ⟨he, -⟩
      · exact h
      · exact heap.lt_next e he⟩
  else heap

/-- Drop the object at an address. -/
def free : Heap ω :=
  ⟨heap.objects.erase p, heap.next, fun e he =>
    heap.lt_next e ((heap.objects.mem_entries_erase p).mp he).1⟩

/-! ## Lookups -/

@[simp] theorem get?_empty : (empty : Heap ω).get? p = none := rfl

@[simp] theorem next_alloc : (heap.alloc o).next = heap.next + 1 := rfl

@[simp] theorem next_write : (heap.write p o).next = heap.next := by
  unfold write
  split_ifs <;> rfl

@[simp] theorem next_free : (heap.free p).next = heap.next := rfl

/-- **A new address is a dead one.** -/
@[simp] theorem get?_next : heap.get? heap.next = none :=
  heap.get?_eq_none_of_next_le heap.next le_rfl

@[simp] theorem get?_alloc_next : (heap.alloc o).get? heap.next = some o :=
  heap.objects.get?_insert_self heap.next o

variable {heap p q o k}

theorem get?_alloc_of_ne (h : p ≠ heap.next) : (heap.alloc o).get? p = heap.get? p :=
  SortedMap.get?_insert_of_ne heap.objects o h

/-- An object is new or was there before. -/
theorem get?_alloc_cases {o' : ω} (h : (heap.alloc o).get? p = some o') :
    (p = heap.next ∧ o' = o) ∨ heap.get? p = some o' := by
  by_cases hp : p = heap.next
  · rw [hp, get?_alloc_next] at h
    exact .inl ⟨hp, (Option.some.inj h).symm⟩
  · rw [get?_alloc_of_ne hp] at h
    exact .inr h

theorem get?_write_self {o' : ω} (h : heap.get? p = some o') :
    (heap.write p o).get? p = some o := by
  rw [write, dif_pos (lt_next_of_get? h)]
  exact heap.objects.get?_insert_self p o

theorem get?_write_of_ne (h : q ≠ p) : (heap.write p o).get? q = heap.get? q := by
  unfold write
  split_ifs
  · exact SortedMap.get?_insert_of_ne heap.objects o h
  · rfl

/-- Writing what is there changes nothing. -/
theorem write_eq_self (h : heap.get? p = some o) : heap.write p o = heap := by
  obtain ⟨objects, next, hlt⟩ := heap
  rw [write, dif_pos (lt_next_of_get? h)]
  simp only [mk.injEq, and_true]
  exact SortedMap.insert_eq_self h

@[simp] theorem get?_free_self : (heap.free p).get? p = none := heap.objects.get?_erase_self p

/-- An object was written or is as it was. -/
theorem get?_write_cases {o' o'' : ω} (hlive : heap.get? p = some o)
    (h : (heap.write p o').get? q = some o'') :
    (q = p ∧ o'' = o') ∨ q ≠ p ∧ heap.get? q = some o'' := by
  by_cases hq : q = p
  · rw [hq, get?_write_self hlive] at h
    exact .inl ⟨hq, (Option.some.inj h).symm⟩
  · rw [get?_write_of_ne hq] at h
    exact .inr ⟨hq, h⟩

/-- What is left after a release was there before. -/
theorem get?_of_free (h : (heap.free p).get? q = some o) : q ≠ p ∧ heap.get? q = some o := by
  by_cases hq : q = p
  · rw [hq] at h
    exact absurd ((heap.objects.get?_erase_self p).symm.trans h) nofun
  · exact ⟨hq, (SortedMap.get?_erase_of_ne heap.objects hq).symm.trans h⟩

theorem get?_free_of_ne (h : q ≠ p) : (heap.free p).get? q = heap.get? q :=
  SortedMap.get?_erase_of_ne heap.objects h

/-- **What a load reads** is the object of that kind at the address. -/
theorem load_eq_some_iff {a : α} : heap.load p k = some a ↔ heap.get? p = some (k.inject a) := by
  rw [load, Option.bind_eq_some_iff]
  constructor
  · rintro ⟨o, ho, ha⟩
    rw [ho, k.get?_eq_some_iff.mp ha]
  · exact fun h => ⟨k.inject a, h, k.get?_inject a⟩

end Heap
