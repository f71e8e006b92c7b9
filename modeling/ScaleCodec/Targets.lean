import ScaleCodec.InPlace
import ScaleCodec.Lib.Focus

/-!
# What `operator>>` does to its target

`decode(s, t)` leaves its target `t` to the caller also when it fails, in whatever state the
overloads of `operator>>` have brought it.  `ScaleType.overwrite` follows them with the target as a
part of the state; objects that are decoded into before they are assigned, moved or emplaced are
`scratch`.

`CustomDecomposition` is the list of members of an object that `SCALE_CUSTOM_DECOMPOSITION` names,
of which alone the object is encoded and decoded.
-/

namespace ScaleCodec

open EStateM

/-- A computation that reads from the stream into a target, and may throw. -/
abbrev Overwriting (α : Type) := EStateM Exception (ScaleDecoderStream × α)

/-! ### Elements and items -/

section Loops

variable {α β : Type} {n : ℕ} {cap : Capacity}

/-- The first element of a tuple. -/
def headElement {αs : Fin (n + 1) → Type} : Lens (∀ i, αs i) (αs ⟨0, Nat.succ_pos n⟩) where
  get v := v ⟨0, Nat.succ_pos n⟩
  set x v := Fin.cons x fun i => v i.succ
  get_set _ _ := rfl
  set_get v := Fin.cons_self_tail v
  set_set _ _ _ := rfl

/-- The elements of a tuple behind the first one. -/
def tailElements {αs : Fin (n + 1) → Type} : Lens (∀ i, αs i) (∀ i : Fin n, αs i.succ) where
  get v i := v i.succ
  set xs v := Fin.cons (v ⟨0, Nat.succ_pos n⟩) xs
  get_set _ _ := rfl
  set_get v := Fin.cons_self_tail v
  set_set _ _ _ := rfl

/-- The first item. -/
def headItem : Lens (List.Vector α (n + 1)) α where
  get items := items.head
  set x items := x ::ᵥ items.tail
  get_set x items := List.Vector.head_cons x items.tail
  set_get items := List.Vector.cons_head_tail items
  set_set x y items := by rw [List.Vector.tail_cons]

/-- The items behind the first one. -/
def tailItems : Lens (List.Vector α (n + 1)) (List.Vector α n) where
  get items := items.tail
  set rest items := items.head ::ᵥ rest
  get_set rest items := List.Vector.tail_cons items.head rest
  set_get items := List.Vector.cons_head_tail items
  set_set rest rest' items := by rw [List.Vector.head_cons]

/-- `decodeElementOfTuple`, from the first element on. -/
def overwriteElements : {n : ℕ} → {αs : Fin n → Type} → (∀ i, Overwriting (αs i) Unit) →
    Overwriting (∀ i, αs i) Unit
  | 0, _, _ => pure ()
  | _ + 1, _, x => do
    focus headElement (x 0)
    focus tailElements (overwriteElements fun i => x i.succ)

/-- `for (auto &item : collection) { *this >> item; }` -/
def overwriteEach (x : Overwriting α Unit) : {n : ℕ} → Overwriting (List.Vector α n) Unit
  | 0 => pure ()
  | _ + 1 => do
    focus headItem x
    focus tailItems (overwriteEach x)

/-- The loop over `collection[i]`, from `i` on. -/
def assignEach : {n : ℕ} → ℕ → ℕ → Overwriting (List.Vector Bool n) Unit
  | _, 0, _ => pure ()
  | n, k + 1, i => do
    let item ← reading decodeBool
    if h : i < n then do
      let collection ← object
      setObject (collection.set ⟨i, h⟩ item)
      assignEach k (i + 1)
    else throw .outOfBounds

/-- The loop over the references to the bits of a `BitVec`, at bit `i`, with the last byte taken. -/
def overwriteEachBit : {n : ℕ} → ℕ → UInt8 → Overwriting (List.Vector Bool n) Unit
  | 0, _, _ => pure ()
  | _ + 1, i, byte => do
    let byte ← reading (if i % 8 = 0 then nextByte else pure byte)
    focus headItem (setObject ((byte.toNat >>> (i % 8)) &&& 1 ≠ 0))
    focus tailItems (overwriteEachBit (i + 1) byte)

/-- The loop of `decodeInteger` of `BigFixedWidthInteger`. -/
def overwriteLowBytes {w : ℕ} : ℕ → ℕ → Overwriting (BitVec w) Unit
  | 0, _ => pure ()
  | k + 1, i => do
    let byte ← reading nextByte
    let v ← object
    setObject (v ||| (BitVec.ofNat w byte.toNat <<< i))
    overwriteLowBytes k (i + 8)

theorem admits_concat {items : List α} (h : cap.Admits (items.length + 1)) (item : α) :
    cap.Admits (items ++ [item]).length := by
  rwa [List.length_append]

/-- The loop of `ExtensibleBackCollection`: `emplace_back()`, then `*this >> collection.back()`. -/
def extendEach (fresh : α) (x : Overwriting α Unit) : ℕ → Overwriting (Collection cap α) Unit
  | 0 => pure ()
  | k + 1 => do
    let collection ← object
    if h : cap.Admits (collection.items.length + 1) then do
      inside (fun item => ⟨collection.items ++ [item], admits_concat h item⟩) fresh x
      extendEach fresh x k
    else throw .badAlloc

/-- The loop of `RandomExtensibleCollection`, through one `item` that is moved from. -/
def emplaceEach {order : Compare α} (movedFrom : α → α) (x : Overwriting α Unit) :
    ℕ → α → Overwriting (OrderedCollection cap order) Unit
  | 0, _ => pure ()
  | k + 1, item => do
    let item ← reading (scratch item x)
    let collection ← object
    let collection ← reading (catchBadAlloc (collection.emplace item))
    setObject collection
    emplaceEach movedFrom x k (movedFrom item)

end Loops

/-! ### The overloads of `operator>>` -/

section Overloads

variable {α β : Type} {n : ℕ} {αs : Fin n → Type} {cap : Capacity}

/-- `operator>>` of `BigFixedWidthInteger`. -/
def overwriteBigFixedWidthInteger (T : BigFixedWidthInteger) :
    Overwriting (BitVec T.width) Unit := do
  setObject 0
  overwriteLowBytes T.bytes 0

/-- `operator>>` of `std::optional`. -/
def overwriteOptional (isBool : Option (PLift (α = Bool))) (fresh : α) (x : Overwriting α Unit) :
    Overwriting (Option α) Unit :=
  match isBool with
  | some h => store do
    let v ← decodeOptionalBool
    pure (v.map (eq_bool h).mpr)
  | none => do
    let hasValue ← reading decodeBool
    if ¬ hasValue then setObject none
    -- `v.emplace()`
    else inside some fresh x

/-- `operator>>` of `std::pair`. -/
def overwritePair (x : Overwriting α Unit) (y : Overwriting β Unit) : Overwriting (α × β) Unit := do
  focus Lens.fst x
  focus Lens.snd y

/-- `operator>>` of `std::variant`. -/
def overwriteVariant (val : ∀ i, αs i) (x : ∀ i, Overwriting (αs i) Unit) :
    Overwriting (Variant αs) Unit := do
  let typeIndex ← reading nextByte
  if h : typeIndex.toNat < n then do
    let val ← reading (scratch (val ⟨typeIndex.toNat, h⟩) (x ⟨typeIndex.toNat, h⟩))
    setObject (.holds ⟨typeIndex.toNat, h⟩ val)
  else
    raise (.decode .wrongTypeIndex)

/-- `operator>>` of the two pointers. -/
def overwritePointer {heap : Bool} (fresh : α) (x : Overwriting α Unit) :
    Overwriting (Pointer heap α) Unit :=
  if h : heap = true then inside (fun pointee => .to pointee h) fresh x
  else throw .badAlloc

/-- `operator>>` of `ResizeableCollection`, with `x` for its loop over the items. -/
def overwriteResized (b : Build) (fresh : α)
    (x : (itemCount : ℕ) → Overwriting (List.Vector α itemCount) Unit) :
    Overwriting (Collection cap α) Unit := do
  let itemCount ← reading (decodeLength b)
  if itemCount > cap.maxSize then
    raise (.decode .tooManyItems)
  else do
    let admits ← reading (catchBadAlloc (resize cap itemCount))
    let collection ← object
    inside (fun items => ⟨items.1, admits_items admits items⟩)
      (resizedItems collection itemCount fresh) (x itemCount)

/-- `operator>>` of `ResizeableCollection`. -/
def overwriteResizeable (b : Build) (fresh : α) (x : Overwriting α Unit) :
    Overwriting (Collection cap α) Unit :=
  overwriteResized b fresh fun _ => overwriteEach x

/-- `operator>>` of `std::vector<bool>`. -/
def overwriteVectorBool (b : Build) : Overwriting (Collection cap Bool) Unit :=
  overwriteResized b false fun itemCount => assignEach itemCount 0

/-- `operator>>` of `BitVec`. -/
def overwriteBitVec (b : Build) : Overwriting (BitVecValue cap) Unit := do
  let size ← reading (decodeLength b)
  let more ← reading (hasMore (((size + 7) % 2 ^ 64) / 8))
  if ¬ more then
    raise (.decode .notEnoughData)
  else do
    let admits ← reading (resize cap size)
    let v ← object
    inside (fun bits => ⟨⟨bits.1, admits_items admits bits⟩⟩) (resizedItems v.bits size false)
      (overwriteEachBit 0 0)

/-- `operator>>` of `ExtensibleBackCollection`. -/
def overwriteExtensibleBack (b : Build) (cap : Capacity) (fresh : α) (x : Overwriting α Unit) :
    Overwriting (Collection cap α) Unit := do
  let itemCount ← reading (decodeLength b)
  if itemCount > cap.maxSize then
    raise (.decode .tooManyItems)
  else do
    -- `clear()`, then `reserve`
    setObject ⟨[], cap.admits_zero⟩
    let _ ← reading (catchBadAlloc (resize cap itemCount))
    extendEach fresh x itemCount

/-- `operator>>` of `RandomExtensibleCollection`. -/
def overwriteRandomExtensible (b : Build) (cap : Capacity) (order : Compare α) (item : α)
    (movedFrom : α → α) (x : Overwriting α Unit) :
    Overwriting (OrderedCollection cap order) Unit := do
  let itemCount ← reading (decodeLength b)
  if itemCount > cap.maxSize then
    raise (.decode .tooManyItems)
  else do
    setObject .clear
    emplaceEach movedFrom x itemCount item

end Overloads

/-- `operator>>`, with the target as a part of the state. -/
def ScaleType.overwrite (b : Build) (left : Leftovers) :
    {α : Type} → ScaleType α → Overwriting α Unit
  | _, integral i => store (decodeIntegral i)
  | _, enum i traits => store (decodeEnum i traits)
  | _, bigFixedWidthInteger T => overwriteBigFixedWidthInteger T
  | _, compact T => store (decodeCompact b T)
  | _, optional t => overwriteOptional t.isBool? t.valueInit (t.overwrite b left)
  | _, pair t u => overwritePair (t.overwrite b left) (u.overwrite b left)
  | _, tuple ts => overwriteElements fun i => (ts i).overwrite b left
  | _, variant ts _ =>
    overwriteVariant (fun i => left.alternative (ts i)) fun i => (ts i).overwrite b left
  | _, pointer _ t => overwritePointer t.valueInit (t.overwrite b left)
  | _, staticCollection _ t => overwriteEach (t.overwrite b left)
  | _, resizeable _ t => overwriteResizeable b t.valueInit (t.overwrite b left)
  | _, vectorBool _ => overwriteVectorBool b
  | _, bitVec _ => overwriteBitVec b
  | _, extensibleBack cap t => overwriteExtensibleBack b cap t.valueInit (t.overwrite b left)
  | _, randomExtensible cap order t =>
    overwriteRandomExtensible b cap order (left.item t) (left.movedFrom t) (t.overwrite b left)

/-- `decode(s, t)`: its result, and how it leaves the stream and the target. -/
def decodeInto (b : Build) (left : Leftovers) {α : Type} (t : ScaleType α)
    (s : ScaleDecoderStream) (target : α) :
    Except Exception (Except ErrorCode Unit) × ScaleDecoderStream × α :=
  match t.overwrite b left (s, target) with
  | .ok _ q => (.ok (.ok ()), q)
  | .error (.systemError code) q => (.ok (.error code), q)
  | .error e q => (.error e, q)

/-- `decode<T>(s)`: decodes into `T t{}`, which is returned if that succeeds. -/
def decodeFrom (b : Build) (left : Leftovers) {α : Type} (t : ScaleType α)
    (s : ScaleDecoderStream) : Except Exception (Except ErrorCode α) × ScaleDecoderStream :=
  match decodeInto b left t s t.valueInit with
  | (result, s', v) => (result.map fun r => r.map fun _ => v, s')

/-- The overloads that assign to their target last. -/
def ScaleType.AssignsLast : {α : Type} → ScaleType α → Bool
  | _, integral _ => true
  | _, enum _ _ => true
  | _, compact _ => true
  | _, optional t => t.isBool?.isSome
  | _, variant _ _ => true
  | _, _ => false

/-- `v` has been written up to some part, where `e` was raised: the parts before are decoded one
after the other, that part is as `x` leaves it, and the parts behind are as they were. -/
def WrittenUpTo {n : ℕ} {αs : Fin n → Type} (x : ∀ i, Overwriting (αs i) Unit)
    (d : ∀ i, Decoding (αs i)) (v v' : ∀ i, αs i) (s s' : ScaleDecoderStream) (e : Exception) :
    Prop :=
  ∃ (k : Fin n) (p : ℕ → ScaleDecoderStream), p 0 = s ∧
    (∀ i < k, d i (p i) = .ok (v' i) (p (i + 1))) ∧
    x k (p k, v k) = .error e (s', v' k) ∧
    ∀ i, k < i → v' i = v i

/-! ### Custom decomposition -/

/-- A member of an object. -/
structure Member (ω : Type) where
  {α : Type}
  place : Lens ω α
  type : ScaleType α

/-- The members that `SCALE_CUSTOM_DECOMPOSITION` lists, each of them once. -/
structure CustomDecomposition (ω : Type) where
  members : List (Member ω)
  apart : members.Pairwise fun m m' => m.place.Apart m'.place

namespace CustomDecomposition

variable {ω : Type}

/-- `operator<<` of `CustomDecomposable`. -/
def toStream (b : Build) (D : CustomDecomposition ω) (v : ω) : Encoding Unit :=
  D.members.forM fun m => m.type.toStream b (m.place.get v)

/-- `operator>>` of `CustomDecomposable`. -/
def overwrite (b : Build) (left : Leftovers) (D : CustomDecomposition ω) : Overwriting ω Unit :=
  D.members.forM fun m => focus m.place (m.type.overwrite b left)

end CustomDecomposition

end ScaleCodec
