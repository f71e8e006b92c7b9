import ScaleCodec.Collections

/-!
# The types of the format

`ScaleType α` is the grammar of the types that can be encoded and decoded, over the type `α` of
their values.  The overloads of `operator<<` and `operator>>` are functions of the operators of the
parts; `ScaleType.toStream` and `ScaleType.fromStream` apply the one the type selects.  At the end
stand `outcomeCatch` and the convenience functions `encode` and `decode`.

Every overload of `operator>>` overwrites its whole target, so that decoding returns the new value.
-/

namespace ScaleCodec

/-- A type that can be encoded and decoded. -/
inductive ScaleType : Type → Type 1
  /-- `bool` and the builtin integers -/
  | integral {β : Type} (i : Integral β) : ScaleType β
  /-- an enum, by its underlying type -/
  | enum {β : Type} (i : Integral β) (traits : EnumTraits β) : ScaleType β
  | bigFixedWidthInteger (T : BigFixedWidthInteger) : ScaleType (BitVec T.width)
  | compact (T : CompactCompatible) : ScaleType (BitVec T.width)
  | optional {α : Type} (t : ScaleType α) : ScaleType (Option α)
  | pair {α β : Type} (t : ScaleType α) (u : ScaleType β) : ScaleType (α × β)
  /-- `std::tuple`, and the fields of an aggregate or of a custom decomposition -/
  | tuple {n : ℕ} {αs : Fin n → Type} (ts : ∀ i, ScaleType (αs i)) : ScaleType (∀ i, αs i)
  | variant {n : ℕ} {αs : Fin n → Type} (ts : ∀ i, ScaleType (αs i)) (hn : n ≤ 256) :
    ScaleType (Variant αs)
  /-- `std::shared_ptr` and `std::unique_ptr` -/
  | pointer (heap : Bool) {α : Type} (t : ScaleType α) : ScaleType (Pointer heap α)
  /-- `StaticCollection`: `std::array` -/
  | staticCollection (n : ℕ) {α : Type} (t : ScaleType α) : ScaleType (List.Vector α n)
  /-- `ResizeableCollection`: `std::vector`, `std::deque`, `std::string` -/
  | resizeable (cap : Capacity) {α : Type} (t : ScaleType α) : ScaleType (Collection cap α)
  /-- `std::vector<bool>` -/
  | vectorBool (cap : Capacity) : ScaleType (Collection cap Bool)
  | bitVec (cap : Capacity) : ScaleType (BitVecValue cap)
  /-- `ExtensibleBackCollection` -/
  | extensibleBack (cap : Capacity) {α : Type} (t : ScaleType α) : ScaleType (Collection cap α)
  /-- `RandomExtensibleCollection`: `std::set`, and `std::map` over the pairs of its entries -/
  | randomExtensible (cap : Capacity) {α : Type} (order : Compare α) (t : ScaleType α) :
    ScaleType (OrderedCollection cap order)

namespace ScaleType

/-- `std::set`. -/
abbrev set (cap : Capacity) {α : Type} (order : Compare α) (t : ScaleType α) :
    ScaleType (OrderedCollection cap order) :=
  randomExtensible cap order t

/-- `std::map`. -/
abbrev map (cap : Capacity) {κ α : Type} (order : Compare κ) (t : ScaleType κ) (u : ScaleType α) :
    ScaleType (OrderedCollection cap (order.onKey : Compare (κ × α))) :=
  randomExtensible cap order.onKey (pair t u)

/-- `std::is_same_v<T, bool>`. -/
def isBool? {α : Type} : ScaleType α → Option (PLift (α = Bool))
  | integral .bool => some ⟨rfl⟩
  | _ => none

end ScaleType

/-! ### Encoding -/

section Encoding

variable {α β : Type} {n : ℕ} {αs : Fin n → Type}

/-- `encodeOptionalBool`. -/
def encodeOptionalBool (v : Option Bool) : Encoding Unit :=
  match v with
  | none => putByte 0
  | some true => putByte 1
  | some false => putByte 2

/-- `operator<<` of `std::optional`, with its case for `bool`. -/
def encodeOptional (isBool : Option (PLift (α = Bool))) (e : α → Encoding Unit) (v : Option α) :
    Encoding Unit :=
  match isBool with
  | some h => encodeOptionalBool (v.map h.down.mp)
  | none =>
    match v with
    | none => putByte 0
    | some x => do
      putByte 1
      e x

/-- `operator<<` of `std::pair`. -/
def encodePair (e : α → Encoding Unit) (e' : β → Encoding Unit) (p : α × β) : Encoding Unit := do
  e p.1
  e' p.2

/-- `encodeElementOfTuple`, from the first element on. -/
def encodeElementsOfTuple : {n : ℕ} → {αs : Fin n → Type} → (∀ i, αs i → Encoding Unit) →
    (∀ i, αs i) → Encoding Unit
  | 0, _, _, _ => pure ()
  | _ + 1, _, e, v => do
    e 0 (v 0)
    encodeElementsOfTuple (fun i => e i.succ) (fun i => v i.succ)

/-- `tryEncodeAsOneOfVariant`: the recursion over the alternatives comes to the one held, if any. -/
def encodeVariant (e : ∀ i, αs i → Encoding Unit) : Variant αs → Encoding Unit
  | .valueless => pure ()
  | .holds i x => do
    putByte (UInt8.ofNat i)
    e i x

/-- `operator<<` of the two pointers. -/
def encodePointer {heap : Bool} (e : α → Encoding Unit) : Pointer heap α → Encoding Unit
  | .null => raise (.encode .derefNullpointer)
  | .to x _ => e x

/-- `encodeStaticCollection`. -/
def encodeStaticCollection (e : α → Encoding Unit) (items : List α) : Encoding Unit :=
  items.forM e

/-- `encodeDynamicCollection`. -/
def encodeDynamicCollection (b : Build) (e : α → Encoding Unit) (items : List α) :
    Encoding Unit := do
  encodeLength b items.length
  items.forM e

/-- The loop of `operator<<` of `BitVec` at bit `i`, with `byte` for the bits since the last byte
was put. -/
def encodeBits : List Bool → ℕ → UInt8 → Encoding Unit
  | [], i, byte => if i % 8 ≠ 0 then putByte byte else pure ()
  | bit :: bits, i, byte =>
    let byte := if bit then byte ||| UInt8.ofNat (1 <<< (i % 8)) else byte
    -- the byte is complete
    if (i + 1) % 8 = 0 then do
      putByte byte
      encodeBits bits (i + 1) 0
    else
      encodeBits bits (i + 1) byte

/-- `operator<<` of `BitVec`. -/
def encodeBitVec (b : Build) (bits : List Bool) : Encoding Unit := do
  encodeLength b bits.length
  encodeBits bits 0 0

end Encoding

/-- `operator<<`. -/
def ScaleType.toStream (b : Build) : {α : Type} → ScaleType α → α → Encoding Unit
  | _, integral i, v => encodeIntegral i v
  | _, enum i _, v => encodeIntegral i v
  | _, bigFixedWidthInteger T, v => encodeBigFixedWidthInteger T v
  | _, compact T, v => encodeCompact b T v
  | _, optional t, v => encodeOptional t.isBool? (t.toStream b) v
  | _, pair t u, v => encodePair (t.toStream b) (u.toStream b) v
  | _, tuple ts, v => encodeElementsOfTuple (fun i => (ts i).toStream b) v
  | _, variant ts _, v => encodeVariant (fun i => (ts i).toStream b) v
  | _, pointer _ t, v => encodePointer (t.toStream b) v
  | _, staticCollection _ t, v => encodeStaticCollection (t.toStream b) v.1
  | _, resizeable _ t, v => encodeDynamicCollection b (t.toStream b) v.items
  | _, vectorBool _, v => encodeDynamicCollection b (encodeIntegral .bool) v.items
  | _, bitVec _, v => encodeBitVec b v.bits.items
  | _, extensibleBack _ t, v => encodeDynamicCollection b (t.toStream b) v.items
  | _, randomExtensible _ _ t, v => encodeDynamicCollection b (t.toStream b) v.items

/-! ### Decoding -/

section Decoding

variable {α β : Type} {n : ℕ} {αs : Fin n → Type}

/-- `operator>>` of an enum. -/
def decodeEnum (i : Integral β) (traits : EnumTraits β) : Decoding β := do
  let value ← decodeIntegral i
  if isValidEnumValue i traits value then pure value
  else raise (.decode .invalidEnumValue)

/-- `decodeOptionalBool`. -/
def decodeOptionalBool : Decoding (Option Bool) := do
  let byte ← nextByte
  if byte = 0 then pure none
  else if byte = 2 then pure (some false)
  else if byte = 1 then pure (some true)
  else raise (.decode .unexpectedValue)

/-- `operator>>` of `std::optional`. -/
def decodeOptional (isBool : Option (PLift (α = Bool))) (d : Decoding α) : Decoding (Option α) :=
  match isBool with
  | some h => do
    -- special case for `std::optional<bool>`
    let v ← decodeOptionalBool
    pure (v.map h.down.mpr)
  | none => do
    -- check if the optional contains a value
    let hasValue ← decodeBool
    if ¬ hasValue then pure none
    else do
      let x ← d
      pure (some x)

/-- `operator>>` of `std::pair`. -/
def decodePair (d : Decoding α) (d' : Decoding β) : Decoding (α × β) := do
  let x ← d
  let y ← d'
  pure (x, y)

/-- `decodeElementOfTuple`, from the first element on. -/
def decodeElementsOfTuple : {n : ℕ} → {αs : Fin n → Type} → (∀ i, Decoding (αs i)) →
    Decoding (∀ i, αs i)
  | 0, _, _ => pure fun i => i.elim0
  | _ + 1, _, d => do
    let x ← d 0
    let xs ← decodeElementsOfTuple fun i => d i.succ
    pure (Fin.cons x xs)

/-- `operator>>` of `std::variant`, whose recursion comes to the alternative of the index. -/
def decodeVariant (d : ∀ i, Decoding (αs i)) : Decoding (Variant αs) := do
  -- first byte means type index
  let typeIndex ← nextByte
  if h : typeIndex.toNat < n then do
    let x ← d ⟨typeIndex.toNat, h⟩
    pure (.holds ⟨typeIndex.toNat, h⟩ x)
  else
    raise (.decode .wrongTypeIndex)

/-- The loop over the items of a collection. -/
def decodeItems (d : Decoding α) : (n : ℕ) → Decoding (List.Vector α n)
  | 0 => pure .nil
  | n + 1 => do
    let x ← d
    let xs ← decodeItems d n
    pure (x ::ᵥ xs)

/-- `operator>>` of a collection that is given its size (or the space for it) first, and then its
items one after the other. -/
def decodeSized (b : Build) (cap : Capacity) (d : Decoding α) : Decoding (Collection cap α) := do
  let itemCount ← decodeLength b
  if itemCount > cap.maxSize then
    raise (.decode .tooManyItems)
  else do
    let admits ← catchBadAlloc (resize cap itemCount)
    let items ← decodeItems d itemCount
    pure ⟨items.1, by rw [items.2]; exact admits.down⟩

/-- `operator>>` of `ResizeableCollection`: `resize`, then every item is overwritten. -/
def decodeResizeable (b : Build) (cap : Capacity) (d : Decoding α) : Decoding (Collection cap α) :=
  decodeSized b cap d

/-- `operator>>` of `std::vector<bool>`, through a `bool item`. -/
def decodeVectorBool (b : Build) (cap : Capacity) : Decoding (Collection cap Bool) :=
  decodeSized b cap decodeBool

/-- `operator>>` of `ExtensibleBackCollection`: `reserve`, then every item is put at the end. -/
def decodeExtensibleBack (b : Build) (cap : Capacity) (d : Decoding α) :
    Decoding (Collection cap α) :=
  decodeSized b cap d

/-- The loop of `operator>>` of `BitVec` at bit `i`, with the last byte taken. -/
def decodeBits : (n : ℕ) → ℕ → UInt8 → Decoding (List.Vector Bool n)
  | 0, _, _ => pure .nil
  | n + 1, i, byte => do
    -- every eighth bit starts a byte
    let byte ← if i % 8 = 0 then nextByte else pure byte
    let bits ← decodeBits n (i + 1) byte
    pure (((byte.toNat >>> (i % 8)) &&& 1 ≠ 0) ::ᵥ bits)

/-- `operator>>` of `BitVec`.  The sum `size + 7` is one of `size_t`, and `resize` is not inside a
`try` block. -/
def decodeBitVec (b : Build) (cap : Capacity) : Decoding (BitVecValue cap) := do
  let size ← decodeLength b
  if ¬ (← hasMore (((size + 7) % 2 ^ 64) / 8)) then
    raise (.decode .notEnoughData)
  else do
    let admits ← resize cap size
    let bits ← decodeBits size 0 0
    pure ⟨⟨bits.1, by rw [bits.2]; exact admits.down⟩⟩

/-- The loop of `operator>>` of `RandomExtensibleCollection`. -/
def emplaceItems {cap : Capacity} {order : Compare α} (d : Decoding α) :
    ℕ → OrderedCollection cap order → Decoding (OrderedCollection cap order)
  | 0, collection => pure collection
  | n + 1, collection => do
    let item ← d
    let collection ← catchBadAlloc (collection.emplace item)
    emplaceItems d n collection

/-- `operator>>` of `RandomExtensibleCollection`. -/
def decodeRandomExtensible (b : Build) (cap : Capacity) (order : Compare α) (d : Decoding α) :
    Decoding (OrderedCollection cap order) := do
  let itemCount ← decodeLength b
  if itemCount > cap.maxSize then
    raise (.decode .tooManyItems)
  else
    emplaceItems d itemCount .clear

end Decoding

/-- `operator>>`. -/
def ScaleType.fromStream (b : Build) : {α : Type} → ScaleType α → Decoding α
  | _, integral i => decodeIntegral i
  | _, enum i traits => decodeEnum i traits
  | _, bigFixedWidthInteger T => decodeBigFixedWidthInteger T
  | _, compact T => decodeCompact b T
  | _, optional t => decodeOptional t.isBool? (t.fromStream b)
  | _, pair t u => decodePair (t.fromStream b) (u.fromStream b)
  | _, tuple ts => decodeElementsOfTuple fun i => (ts i).fromStream b
  | _, variant ts _ => decodeVariant fun i => (ts i).fromStream b
  | _, pointer _ t => makePointer (t.fromStream b)
  | _, staticCollection n t => decodeItems (t.fromStream b) n
  | _, resizeable cap t => decodeResizeable b cap (t.fromStream b)
  | _, vectorBool cap => decodeVectorBool b cap
  | _, bitVec cap => decodeBitVec b cap
  | _, extensibleBack cap t => decodeExtensibleBack b cap (t.fromStream b)
  | _, randomExtensible cap order t => decodeRandomExtensible b cap order (t.fromStream b)

/-! ### `scale::encode` and `scale::decode` -/

/-- `outcomeCatch`: a `std::system_error` becomes a failure, every other exception escapes. -/
def outcomeCatch {σ α : Type} (f : EStateM Exception σ α) (s : σ) :
    Except Exception (Except ErrorCode (α × σ)) :=
  match f s with
  | .ok v s' => .ok (.ok (v, s'))
  | .error (.systemError code) _ => .ok (.error code)
  | .error e _ => .error e

/-- `scale::encode` of whatever `e` puts into a stream. -/
def encodeToVector (e : Encoding Unit) : Except Exception (Except ErrorCode (List UInt8)) := do
  let result ← outcomeCatch e {}
  pure (result.map fun r => r.2.toVector)

/-- `scale::encode`. -/
def encode (b : Build) {α : Type} (t : ScaleType α) (v : α) :
    Except Exception (Except ErrorCode (List UInt8)) :=
  encodeToVector (t.toStream b v)

theorem encodeToVector_eq {e : Encoding Unit} {p : List UInt8} (h : Writes e p) :
    encodeToVector e = .ok (.ok p) := by
  rw [encodeToVector, outcomeCatch, h {}]
  exact congrArg (fun bytes => Except.ok (Except.ok bytes))
    (ScaleEncoderStream.toVector_putBytes p)

/-- What `encode` returns is what is written. -/
theorem eq_of_encodeToVector {e : Encoding Unit} {p q : List UInt8} (h : Writes e p)
    (hq : encodeToVector e = .ok (.ok q)) : p = q :=
  Except.ok.inj (Except.ok.inj ((encodeToVector_eq h).symm.trans hq))

/-- `scale::decode`. -/
def decode (b : Build) {α : Type} (t : ScaleType α) (data : ConstSpanOfBytes) :
    Except Exception (Except ErrorCode α) := do
  let result ← outcomeCatch (t.fromStream b) (.ofSpan data)
  pure (result.map Prod.fst)

theorem decode_eq {b : Build} {α : Type} {t : ScaleType α} {p : List UInt8} {v : α}
    {data : ConstSpanOfBytes} (h : Reads (t.fromStream b) p v) (hp : p <+: data.bytes) :
    decode b t data = .ok (.ok v) := by
  rw [decode, outcomeCatch, h _ (ScaleDecoderStream.valid_ofSpan data) hp]
  rfl

end ScaleCodec
