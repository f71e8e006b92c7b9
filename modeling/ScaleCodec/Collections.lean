import ScaleCodec.FixedWidthInteger
import ScaleCodec.Compact
import Mathlib.Data.Vector.Basic

/-!
# Values of the composite types

Containers with the limits the standard library puts on their sizes, ordered containers, variants,
pointers and enum traits.  A container that a program holds respects its limits, and an ordered one
its order: both are fields of the structures, so that `resize` and `emplace` have to establish them
or throw.
-/

namespace ScaleCodec

/-! ### Limits of a container -/

/-- How many items a container of some type can have. -/
structure Capacity where
  /-- `max_size()` -/
  maxSize : ℕ
  /-- how many items there is memory for -/
  available : ℕ
  /-- `max_size()` is a `size_t` -/
  maxSize_lt : maxSize < 2 ^ 64

namespace Capacity

/-- A container of `n` items can exist. -/
def Admits (cap : Capacity) (n : ℕ) : Prop :=
  n ≤ cap.maxSize ∧ n ≤ cap.available

instance (cap : Capacity) (n : ℕ) : Decidable (cap.Admits n) :=
  inferInstanceAs (Decidable (_ ∧ _))

theorem Admits.mono {cap : Capacity} {m n : ℕ} (h : cap.Admits n) (hmn : m ≤ n) : cap.Admits m :=
  ⟨hmn.trans h.1, hmn.trans h.2⟩

theorem admits_zero (cap : Capacity) : cap.Admits 0 :=
  ⟨Nat.zero_le _, Nat.zero_le _⟩

theorem Admits.lt {cap : Capacity} {n : ℕ} (h : cap.Admits n) : n < 2 ^ 64 :=
  h.1.trans_lt cap.maxSize_lt

end Capacity

/-- A sequence container: `std::vector`, `std::deque`, `std::string`. -/
structure Collection (cap : Capacity) (α : Type) where
  items : List α
  admits : cap.Admits items.length
  deriving DecidableEq

theorem Collection.ext {cap : Capacity} {α : Type} {c c' : Collection cap α}
    (h : c.items = c'.items) : c = c' := by
  cases c
  cases c'
  cases h
  rfl

/-- `resize(n)` or `reserve(n)`: the container can have `n` items afterwards. -/
def resize (cap : Capacity) (n : ℕ) : Decoding (PLift (cap.Admits n)) :=
  if hmax : n ≤ cap.maxSize then
    if hmem : n ≤ cap.available then pure ⟨hmax, hmem⟩
    else throw .badAlloc
  else throw .lengthError

theorem resize_of_admits {cap : Capacity} {n : ℕ} (h : cap.Admits n) :
    resize cap n = pure ⟨h⟩ := by
  rw [resize, dif_pos h.1, dif_pos h.2]

/-- `catch (const std::bad_alloc &) { raise(DecodeError::TOO_MANY_ITEMS); }` -/
def catchBadAlloc {α : Type} (x : Decoding α) : Decoding α :=
  tryCatch x fun e =>
    if e = .badAlloc then raise (.decode .tooManyItems) else throw e

/-- `BitVec`. -/
structure BitVecValue (cap : Capacity) where
  bits : Collection cap Bool
  deriving DecidableEq

theorem BitVecValue.ext {cap : Capacity} {v v' : BitVecValue cap}
    (h : v.bits.items = v'.bits.items) : v = v' := by
  cases v
  cases v'
  congr 1
  exact Collection.ext h

/-! ### Ordered containers -/

/-- `Compare` of an ordered container: a strict order. -/
structure Compare (α : Type) where
  less : α → α → Bool
  irrefl : ∀ x, less x x = false
  trans : ∀ x y z, less x y = true → less y z = true → less x z = true

namespace Compare

variable {α : Type}

/-- `std::less` of an unsigned integer. -/
def ofUnsigned {w : ℕ} : Compare (BitVec w) where
  less x y := x.ult y
  irrefl x := by simp [BitVec.ult]
  trans x y z := by
    simp only [BitVec.ult, decide_eq_true_eq]
    exact Nat.lt_trans

/-- The order of the pairs of a `std::map`, whose keys alone are compared. -/
def onKey {κ : Type} (order : Compare κ) : Compare (κ × α) where
  less p q := order.less p.1 q.1
  irrefl p := order.irrefl p.1
  trans p q r := order.trans p.1 q.1 r.1

variable (order : Compare α)

/-- The items of an ordered container with one more, unless an equivalent one is there. -/
def insert (x : α) : List α → List α
  | [] => [x]
  | y :: ys =>
    if order.less y x then y :: insert x ys
    else if order.less x y then x :: y :: ys
    else y :: ys

variable {order}

theorem mem_of_mem_insert {x z : α} {ys : List α} (h : z ∈ order.insert x ys) :
    z = x ∨ z ∈ ys := by
  induction ys with
  | nil => simpa [insert] using h
  | cons y ys ih =>
    unfold insert at h
    split_ifs at h
    · rcases List.mem_cons.mp h with rfl | h'
      · exact Or.inr List.mem_cons_self
      · exact (ih h').imp_right (List.mem_cons_of_mem y)
    · exact List.mem_cons.mp h
    · exact Or.inr h

theorem length_insert_le (x : α) (ys : List α) :
    (order.insert x ys).length ≤ ys.length + 1 := by
  induction ys with
  | nil => rfl
  | cons y ys ih =>
    unfold insert
    split_ifs <;> simp only [List.length_cons] <;> omega

theorem pairwise_insert {x : α} {ys : List α}
    (h : ys.Pairwise fun y z => order.less y z = true) :
    (order.insert x ys).Pairwise fun y z => order.less y z = true := by
  induction ys with
  | nil => exact List.pairwise_singleton _ _
  | cons y ys ih =>
    obtain ⟨hy, hys⟩ := List.pairwise_cons.mp h
    unfold insert
    split_ifs with hyx hxy
    · refine List.pairwise_cons.mpr ⟨fun z hz => ?_, ih hys⟩
      rcases mem_of_mem_insert hz with rfl | hz'
      · exact hyx
      · exact hy z hz'
    · refine List.pairwise_cons.mpr ⟨fun z hz => ?_, h⟩
      rcases List.mem_cons.mp hz with rfl | hz'
      · exact hxy
      · exact order.trans _ _ _ hxy (hy z hz')
    · exact h

/-- An item that belongs at the end is put there. -/
theorem insert_of_forall_less {x : α} {ys : List α} (h : ∀ y ∈ ys, order.less y x = true) :
    order.insert x ys = ys ++ [x] := by
  induction ys with
  | nil => rfl
  | cons y ys ih =>
    rw [insert, if_pos (h y List.mem_cons_self),
      ih fun z hz => h z (List.mem_cons_of_mem y hz), List.cons_append]

end Compare

/-- An ordered container: `std::set`, or `std::map` as its pairs. -/
structure OrderedCollection (cap : Capacity) {α : Type} (order : Compare α) where
  items : List α
  sorted : items.Pairwise fun x y => order.less x y = true
  admits : cap.Admits items.length

theorem OrderedCollection.ext {cap : Capacity} {α : Type} {order : Compare α}
    {c c' : OrderedCollection cap order} (h : c.items = c'.items) : c = c' := by
  cases c
  cases c'
  cases h
  rfl

/-- `clear()`. -/
def OrderedCollection.clear {cap : Capacity} {α : Type} {order : Compare α} :
    OrderedCollection cap order :=
  ⟨[], List.Pairwise.nil, Nat.zero_le _, Nat.zero_le _⟩

/-- `emplace(std::move(item))`: the node is allocated before its place is looked for. -/
def OrderedCollection.emplace {cap : Capacity} {α : Type} {order : Compare α}
    (c : OrderedCollection cap order) (item : α) : Decoding (OrderedCollection cap order) :=
  if h : cap.Admits (c.items.length + 1) then
    pure ⟨order.insert item c.items, Compare.pairwise_insert c.sorted,
      h.mono (Compare.length_insert_le item c.items)⟩
  else throw .badAlloc

/-! ### Variants and pointers -/

/-- `std::variant`: one of the alternatives, or none after an exception. -/
inductive Variant {n : ℕ} (αs : Fin n → Type)
  | valueless
  | holds (i : Fin n) (x : αs i)

/-- `std::shared_ptr` and `std::unique_ptr`, with `heap` for whether there is memory for a pointee
of this type. -/
inductive Pointer (heap : Bool) (α : Type)
  | null
  | to (pointee : α) (allocated : heap = true)

/-- `std::make_shared` and `std::make_unique`, around the pointee's initialisation. -/
def makePointer {heap : Bool} {α : Type} (d : Decoding α) : Decoding (Pointer heap α) :=
  if h : heap = true then do
    let x ← d
    pure (.to x h)
  else throw .badAlloc

/-! ### Enum traits -/

/-- The specialisation of `enum_traits` for an enum, over its underlying type. -/
inductive EnumTraits (β : Type)
  /-- `min_value` and `max_value` -/
  | range (min max : β)
  /-- `valid_values` -/
  | list (validValues : List β)
  /-- the deprecated primary template, which takes every value as valid -/
  | unspecialized

/-- `is_valid_enum_value`. -/
def isValidEnumValue {β : Type} (i : Integral β) : EnumTraits β → β → Bool
  | .range min max, value => i.le min value && i.le value max
  | .list validValues, value => validValues.any (i.eq value)
  | .unspecialized, _ => true

end ScaleCodec
