import ScaleCodec.InPlace
import ScaleCodec.Lib.WeakOrder

/-!
# The decoders of the dynamic collections

One template of `operator>>` serves every container that has `emplace`: `readEmplaceable` has the
container's own `emplace` as a parameter, and `readMultiset` is its instance for a `std::multiset`.
`decodeList` is what all of the decoders are meant to read, and `DynamicDecoder` says of each of
them what it is meant to make of the list.
-/

namespace ScaleCodec

open WeakOrder

variable {α γ : Type}

/-! ### Orders -/

/-- `Compare` as a relation. -/
abbrev Compare.Before (order : Compare α) (x y : α) : Prop :=
  order.less x y = true

instance (order : Compare α) : IsStrictOrder α order.Before where
  irrefl x := by simp [Compare.Before, order.irrefl x]
  trans := order.trans

/-- What the standard library requires of a `Compare`: neither of two keys being less than the other
is transitive. -/
abbrev Compare.IsWeak (order : Compare α) : Prop :=
  IsStrictWeakOrder α order.Before

/-! ### `std::multiset` -/

/-- `std::multiset`: its items in order. -/
structure OrderedMulticollection (cap : Capacity) (order : Compare α) where
  items : List α
  sorted : items.Pairwise fun x y => ¬ order.Before y x
  admits : cap.Admits items.length

namespace OrderedMulticollection

variable {cap : Capacity} {order : Compare α}

/-- `clear()`. -/
def clear : OrderedMulticollection cap order :=
  ⟨[], List.Pairwise.nil, cap.admits_zero⟩

/-- `emplace(std::move(item))`: behind the items that are equivalent to it. -/
def emplace (c : OrderedMulticollection cap order) (item : α) :
    Decoding (OrderedMulticollection cap order) :=
  if h : cap.Admits (c.items.length + 1) then
    pure ⟨c.items.orderedInsert order.Before item, pairwise_orderedInsert c.sorted, by
      rwa [List.orderedInsert_length]⟩
  else throw .badAlloc

end OrderedMulticollection

/-- The loop of `operator>>` of `RandomExtensibleCollection`, for any container with `emplace`. -/
def emplaceAll (emplace : γ → α → Decoding γ) (movedFrom : α → α) (d : α → Decoding α) :
    ℕ → α → γ → Decoding γ
  | 0, _, collection => pure collection
  | k + 1, item, collection => do
    let item ← d item
    let collection ← catchBadAlloc (emplace collection item)
    emplaceAll emplace movedFrom d k (movedFrom item) collection

/-- `operator>>` of `RandomExtensibleCollection`, likewise, after `clear()`. -/
def readEmplaceable (b : Build) (cap : Capacity) (clear : γ) (emplace : γ → α → Decoding γ)
    (item : α) (movedFrom : α → α) (d : α → Decoding α) : Decoding γ := do
  let itemCount ← decodeLength b
  if itemCount > cap.maxSize then
    raise (.decode .tooManyItems)
  else
    emplaceAll emplace movedFrom d itemCount item clear

/-- `operator>>` of a `std::multiset`. -/
def readMultiset (b : Build) (left : Leftovers) (cap : Capacity) (order : Compare α)
    (t : ScaleType α) : Decoding (OrderedMulticollection cap order) :=
  readEmplaceable b cap .clear OrderedMulticollection.emplace (left.item t) (left.movedFrom t)
    (t.readInto b left)

/-! ### What they read -/

/-- The count, and then as many items one after the other. -/
def decodeList (b : Build) (d : Decoding α) : Decoding (List α) := do
  let n ← decodeLength b
  let items ← decodeItems d n
  pure items.1

/-- `r` decodes items of type `t` into a dynamic collection with the limits `cap`, whose value is
meant to be in the relation `R` to the list of the items. -/
inductive DynamicDecoder (b : Build) : {α : Type} → ScaleType α → Capacity →
    {γ : Type} → (r : Decoding γ) → (R : List α → γ → Prop) → Prop
  /-- `std::vector`, `std::deque`, `std::list`, `std::string` -/
  | resizeable {α : Type} (t : ScaleType α) (cap : Capacity) (left : Leftovers)
      (target : Collection cap α) :
    DynamicDecoder b t cap ((ScaleType.resizeable cap t).readInto b left target)
      fun xs c => c.items = xs
  | vectorBool (cap : Capacity) (left : Leftovers) (target : Collection cap Bool) :
    DynamicDecoder b (.integral .bool) cap ((ScaleType.vectorBool cap).readInto b left target)
      fun xs c => c.items = xs
  | extensibleBack {α : Type} (t : ScaleType α) (cap : Capacity) (left : Leftovers)
      (target : Collection cap α) :
    DynamicDecoder b t cap ((ScaleType.extensibleBack cap t).readInto b left target)
      fun xs c => c.items = xs
  | multiset {α : Type} (t : ScaleType α) (cap : Capacity) (left : Leftovers) (order : Compare α)
      (hweak : order.IsWeak) :
    DynamicDecoder b t cap (readMultiset b left cap order t)
      fun xs c => StablySorts order.Before xs c.items
  /-- the first of equivalent items is kept; if only equal ones are, no item is missing -/
  | set {α : Type} (t : ScaleType α) (cap : Capacity) (left : Leftovers) (order : Compare α)
      (hweak : order.IsWeak) (target : OrderedCollection cap order) :
    DynamicDecoder b t cap ((ScaleType.set cap order t).readInto b left target)
      fun xs c => FirstOccurrences order.Before xs c.items ∧
        ((∀ x y, Equivalent order.Before x y → x = y) → ∀ x, x ∈ c.items ↔ x ∈ xs)
  /-- a key has the value that comes first -/
  | map {κ α : Type} (t : ScaleType κ) (u : ScaleType α) (cap : Capacity) (left : Leftovers)
      (order : Compare κ) (hweak : order.IsWeak)
      (target : OrderedCollection cap (order.onKey : Compare (κ × α))) :
    DynamicDecoder b (.pair t u) cap ((ScaleType.map cap order t u).readInto b left target)
      fun xs c => ∀ key, (c.items.find? fun p => Equivalent order.Before key p.1) =
        xs.find? fun p => Equivalent order.Before key p.1

/-- Encoding a value and decoding the bytes, wherever they stand, yields the value again. -/
def ScaleType.ReadsBack (b : Build) (t : ScaleType α) (v : α) : Prop :=
  ∃ p, p.length < 2 ^ 63 ∧ Writes (t.toStream b v) p ∧ Reads (t.fromStream b) p v

end ScaleCodec
