import ScaleCodec.ScaleType
import Mathlib.Data.List.TakeDrop

/-!
# Decoding in place

`operator>>` decodes into an object that already holds something: a sequence is resized and its
items are overwritten, a tuple is decoded field by field, a set is cleared and filled from one item
that is moved from again and again.  `ScaleType.readInto` follows these loops over what the target
holds, and takes what the language leaves open as a parameter, the `Leftovers`.
-/

namespace ScaleCodec

/-! ### What an object holds before it is written -/

/-- `T{}` of an integral type. -/
def Integral.zero {β : Type} : Integral β → β
  | .bool => false
  | .int _ _ => 0

/-- `T{}`, which `emplace()`, `resize` and `make_shared` construct. -/
def ScaleType.valueInit : {α : Type} → ScaleType α → α
  | _, integral i => i.zero
  | _, enum i _ => i.zero
  | _, bigFixedWidthInteger _ => 0
  | _, compact _ => 0
  | _, optional _ => none
  | _, pair t u => (t.valueInit, u.valueInit)
  | _, tuple ts => fun i => (ts i).valueInit
  | _, variant (n := n) ts _ =>
    if h : 0 < n then .holds ⟨0, h⟩ (ts ⟨0, h⟩).valueInit else .valueless
  | _, pointer _ _ => .null
  | _, staticCollection n t => List.Vector.replicate n t.valueInit
  | _, resizeable cap _ => ⟨[], Nat.zero_le cap.maxSize, Nat.zero_le cap.available⟩
  | _, vectorBool cap => ⟨[], Nat.zero_le cap.maxSize, Nat.zero_le cap.available⟩
  | _, bitVec cap => ⟨[], Nat.zero_le cap.maxSize, Nat.zero_le cap.available⟩
  | _, extensibleBack cap _ => ⟨[], Nat.zero_le cap.maxSize, Nat.zero_le cap.available⟩
  | _, randomExtensible _ _ _ => .clear

/-- What the language and the standard library do not say about the objects a decoder makes. -/
structure Leftovers where
  /-- the local `val` of a variant, value-initialised for `std`, default-initialised for `boost` -/
  alternative : {α : Type} → ScaleType α → α
  /-- a default-initialised `value_type item` -/
  item : {α : Type} → ScaleType α → α
  /-- an object that was moved from -/
  movedFrom : {α : Type} → ScaleType α → α → α

/-! ### Loops over the target -/

section Loops

variable {α β : Type} {n : ℕ} {αs : Fin n → Type} {cap : Capacity}

/-- `for (auto &item : collection) { *this >> item; }` -/
def overwriteItems (d : α → Decoding α) : {n : ℕ} → List.Vector α n → Decoding (List.Vector α n)
  | 0, _ => pure .nil
  | _ + 1, items => do
    let x ← d items.head
    let xs ← overwriteItems d items.tail
    pure (x ::ᵥ xs)

/-- A vector of as many items as a container can have fits into it. -/
theorem admits_items {n : ℕ} (admits : PLift (cap.Admits n)) (items : List.Vector α n) :
    cap.Admits items.1.length := by
  rw [items.2]
  exact admits.down

/-- The items of a collection after `resize(n)`, which keeps the old ones as far as they go. -/
def resizedItems (collection : Collection cap α) (n : ℕ) (fill : α) : List.Vector α n :=
  ⟨collection.items.takeD n fill, List.takeD_length n collection.items fill⟩

/-- The loop over `collection[i]`, from `i` on. -/
def assignItems : {n : ℕ} → ℕ → ℕ → List.Vector Bool n → Decoding (List.Vector Bool n)
  | _, 0, _, collection => pure collection
  | n, k + 1, i, collection => do
    let item ← decodeBool
    if h : i < n then assignItems k (i + 1) (collection.set ⟨i, h⟩ item)
    else throw .outOfBounds

/-- The loop over the references to the bits of a `BitVec`, at bit `i`, with the last byte taken. -/
def overwriteBits : {n : ℕ} → ℕ → UInt8 → List.Vector Bool n → Decoding (List.Vector Bool n)
  | 0, _, _, _ => pure .nil
  | _ + 1, i, byte, bits => do
    let byte ← if i % 8 = 0 then nextByte else pure byte
    let rest ← overwriteBits (i + 1) byte bits.tail
    pure (((byte.toNat >>> (i % 8)) &&& 1 ≠ 0) ::ᵥ rest)

/-- `emplace_back()`. -/
def Collection.emplaceBack (collection : Collection cap α) (x : α) : Decoding (Collection cap α) :=
  if h : cap.Admits (collection.items.length + 1) then
    pure ⟨collection.items ++ [x], by rwa [List.length_append]⟩
  else throw .badAlloc

/-- `*this >> collection.back()`. -/
def Collection.overwriteBack (d : α → Decoding α) (collection : Collection cap α) :
    Decoding (Collection cap α) :=
  match collection.items.getLast? with
  | none => throw .outOfBounds
  | some item => do
    let x ← d item
    pure ⟨collection.items.set (collection.items.length - 1) x, by
      rw [List.length_set]; exact collection.admits⟩

/-- The loop of `ExtensibleBackCollection`: an item is put at the end and then decoded into. -/
def extendItems (fresh : α) (d : α → Decoding α) :
    ℕ → Collection cap α → Decoding (Collection cap α)
  | 0, collection => pure collection
  | k + 1, collection => do
    let collection ← collection.emplaceBack fresh
    let collection ← collection.overwriteBack d
    extendItems fresh d k collection

/-- The loop of `RandomExtensibleCollection`, through one `item` that is moved from. -/
def emplaceFrom {order : Compare α} (movedFrom : α → α) (d : α → Decoding α) :
    ℕ → α → OrderedCollection cap order → Decoding (OrderedCollection cap order)
  | 0, _, collection => pure collection
  | k + 1, item, collection => do
    let item ← d item
    let collection ← catchBadAlloc (collection.emplace item)
    -- the next item is decoded into what is left of this one
    emplaceFrom movedFrom d k (movedFrom item) collection

/-! ### The overloads of `operator>>` -/

theorem eq_bool (h : PLift (α = Bool)) : α = Bool :=
  h.down

/-- `operator>>` of `std::optional`: what it held is reset or replaced by a fresh value. -/
def readOptional (isBool : Option (PLift (α = Bool))) (fresh : α) (d : α → Decoding α) :
    Decoding (Option α) :=
  match isBool with
  | some h => do
    let v ← decodeOptionalBool
    pure (v.map (eq_bool h).mpr)
  | none => do
    let hasValue ← decodeBool
    if ¬ hasValue then pure none
    else do
      let x ← d fresh
      pure (some x)

/-- `operator>>` of `std::pair`. -/
def readPair (d : α → Decoding α) (d' : β → Decoding β) (p : α × β) : Decoding (α × β) := do
  let x ← d p.1
  let y ← d' p.2
  pure (x, y)

/-- `decodeElementOfTuple`, from the first element on. -/
def readElementsOfTuple : {n : ℕ} → {αs : Fin n → Type} → (∀ i, αs i → Decoding (αs i)) →
    (∀ i, αs i) → Decoding (∀ i, αs i)
  | 0, _, _, _ => pure fun i => i.elim0
  | _ + 1, _, d, v => do
    let x ← d 0 (v 0)
    let xs ← readElementsOfTuple (fun i => d i.succ) fun i => v i.succ
    pure (Fin.cons x xs)

/-- `operator>>` of `std::variant`, which decodes into a local `val` and assigns that. -/
def readVariant (val : ∀ i, αs i) (d : ∀ i, αs i → Decoding (αs i)) : Decoding (Variant αs) := do
  let typeIndex ← nextByte
  if h : typeIndex.toNat < n then do
    let x ← d ⟨typeIndex.toNat, h⟩ (val ⟨typeIndex.toNat, h⟩)
    pure (.holds ⟨typeIndex.toNat, h⟩ x)
  else
    raise (.decode .wrongTypeIndex)

/-- `operator>>` of `ResizeableCollection`. -/
def readResizeable (b : Build) (fresh : α) (d : α → Decoding α) (collection : Collection cap α) :
    Decoding (Collection cap α) := do
  let itemCount ← decodeLength b
  if itemCount > cap.maxSize then
    raise (.decode .tooManyItems)
  else do
    let admits ← catchBadAlloc (resize cap itemCount)
    -- the loop overwrites what `resize` has kept as well as what it has added
    let items ← overwriteItems d (resizedItems collection itemCount fresh)
    pure ⟨items.1, admits_items admits items⟩

/-- `operator>>` of `std::vector<bool>`. -/
def readVectorBool (b : Build) (collection : Collection cap Bool) :
    Decoding (Collection cap Bool) := do
  let itemCount ← decodeLength b
  if itemCount > cap.maxSize then
    raise (.decode .tooManyItems)
  else do
    let admits ← catchBadAlloc (resize cap itemCount)
    let items ← assignItems itemCount 0 (resizedItems collection itemCount false)
    pure ⟨items.1, admits_items admits items⟩

/-- `operator>>` of `BitVec`. -/
def readBitVec (b : Build) (v : BitVecValue cap) : Decoding (BitVecValue cap) := do
  let size ← decodeLength b
  if ¬ (← hasMore (((size + 7) % 2 ^ 64) / 8)) then
    raise (.decode .notEnoughData)
  else do
    let admits ← resize cap size
    let bits ← overwriteBits 0 0 (resizedItems v.bits size false)
    pure ⟨⟨bits.1, admits_items admits bits⟩⟩

/-- `operator>>` of `ExtensibleBackCollection`, after `clear()` and `reserve(item_count)`. -/
def readExtensibleBack (b : Build) (cap : Capacity) (fresh : α) (d : α → Decoding α) :
    Decoding (Collection cap α) := do
  let itemCount ← decodeLength b
  if itemCount > cap.maxSize then
    raise (.decode .tooManyItems)
  else do
    -- `reserve`
    let _ ← catchBadAlloc (resize cap itemCount)
    extendItems fresh d itemCount ⟨[], Nat.zero_le cap.maxSize, Nat.zero_le cap.available⟩

/-- `operator>>` of `RandomExtensibleCollection`, after `clear()`. -/
def readRandomExtensible (b : Build) (cap : Capacity) (order : Compare α) (item : α)
    (movedFrom : α → α) (d : α → Decoding α) : Decoding (OrderedCollection cap order) := do
  let itemCount ← decodeLength b
  if itemCount > cap.maxSize then
    raise (.decode .tooManyItems)
  else
    emplaceFrom movedFrom d itemCount item .clear

end Loops

/-- `operator>>` into a target that holds a value. -/
def ScaleType.readInto (b : Build) (left : Leftovers) :
    {α : Type} → ScaleType α → α → Decoding α
  | _, integral i, _ => decodeIntegral i
  | _, enum i traits, _ => decodeEnum i traits
  | _, bigFixedWidthInteger T, _ => decodeBigFixedWidthInteger T
  | _, compact T, _ => decodeCompact b T
  | _, optional t, _ => readOptional t.isBool? t.valueInit (t.readInto b left)
  | _, pair t u, v => readPair (t.readInto b left) (u.readInto b left) v
  | _, tuple ts, v => readElementsOfTuple (fun i => (ts i).readInto b left) v
  | _, variant ts _, _ =>
    readVariant (fun i => left.alternative (ts i)) fun i => (ts i).readInto b left
  | _, pointer _ t, _ => makePointer (t.readInto b left t.valueInit)
  | _, staticCollection _ t, v => overwriteItems (t.readInto b left) v
  | _, resizeable _ t, v => readResizeable b t.valueInit (t.readInto b left) v
  | _, vectorBool _, v => readVectorBool b v
  | _, bitVec _, v => readBitVec b v
  | _, extensibleBack cap t, _ => readExtensibleBack b cap t.valueInit (t.readInto b left)
  | _, randomExtensible cap order t, _ =>
    readRandomExtensible b cap order (left.item t) (left.movedFrom t) (t.readInto b left)

end ScaleCodec
