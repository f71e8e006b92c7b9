import ScaleCodec.ScaleType

/-!
# `append_or_new_vec`

Appending an opaque value to the encoding of a vector of such values, in place: the length prefix is
replaced, and the payload is shifted where the new prefix is longer.  A vector of bytes can grow up
to its `max_size()`.
-/

namespace ScaleCodec

/-- `EncodeOpaqueValue`. -/
abbrev EncodeOpaqueValue := ConstSpanOfBytes

/-- `operator<<` of `EncodeOpaqueValue`: its bytes without a length. -/
def encodeOpaqueValue (value : EncodeOpaqueValue) : Encoding Unit :=
  value.bytes.forM putByte

/-- `scale::encode` of a `std::vector<EncodeOpaqueValue>`. -/
def encodeOpaqueValues (b : Build) (values : List EncodeOpaqueValue) :
    Except Exception (Except ErrorCode (List UInt8)) :=
  encodeToVector (encodeDynamicCollection b encodeOpaqueValue values)

/-- A computation over the vector `self_encoded`, which may throw. -/
abbrev Appending := EStateM Exception ByteVector

/-- A call of one of the convenience functions. -/
def call {α : Type} : Except Exception α → Appending α
  | .ok a => pure a
  | .error e => throw e

/-- `result.value()`, which throws the error of a failure as a `std::system_error`. -/
def value {α : Type} : Except ErrorCode α → Appending α
  | .ok a => pure a
  | .error code => raise code

/-! ### Operations of `std::vector<uint8_t>` -/

/-- `reserve(n)`. -/
def reserve (n : ℕ) : Appending Unit :=
  if n < 2 ^ 63 then pure () else throw .lengthError

/-- `self_encoded = std::move(bytes)`, for the bytes of another vector. -/
def assign (bytes : List UInt8) : Appending Unit :=
  if h : bytes.length < 2 ^ 63 then set (⟨bytes, h⟩ : ByteVector) else throw .lengthError

/-- `insert(end(), bytes.begin(), bytes.end())`. -/
def insertEnd (bytes : List UInt8) : Appending Unit := do
  let dest ← get
  assign (dest.bytes ++ bytes)

/-- `resize(size() + n)`. -/
def growBy (n : ℕ) : Appending Unit :=
  insertEnd (List.replicate n 0)

/-- `std::rotate(rbegin(), rbegin() + n, rend())`. -/
def rotateReversed (n : ℕ) : Appending Unit := do
  let dest ← get
  set (⟨(dest.bytes.reverse.rotate n).reverse, by
    rw [List.length_reverse, List.length_rotate, List.length_reverse]
    exact dest.size_lt⟩ : ByteVector)

/-- `std::move(bytes.begin(), bytes.end(), begin())`. -/
def overwrite (bytes : List UInt8) : Appending Unit := do
  let dest ← get
  if h : bytes.length ≤ dest.bytes.length then
    set (⟨bytes ++ dest.bytes.drop bytes.length, by
      have := dest.size_lt
      rw [List.length_append, List.length_drop]
      omega⟩ : ByteVector)
  else throw .outOfBounds

/-! ### The algorithm -/

/-- The `uint32_t` a count is. -/
abbrev Count := BitVec CompactCompatible.uint32.width

/-- The length of the prefix for a count, as a `uint32_t`. -/
def lengthOfPrefix {σ : Type} (b : Build) (count : Count) : EStateM Exception σ ℕ := do
  let length ← match b with
    | .jam => lengthOfEncodedJamCompactInteger .uint32 count
    | .default => lengthOfEncodedCompactInteger .uint32 count
  pure (length % 2 ^ 32)

/-- `extract_length_data`: the new count and the lengths of the two prefixes. -/
def extractLengthData (b : Build) (data : ByteVector) :
    Appending (Except ErrorCode (Count × ℕ × ℕ)) := do
  match ← call (decode b (.compact .uint32) data) with
  | .error code => pure (.error code)
  | .ok len => do
    let newLen := len + 1
    let encodedLen ← lengthOfPrefix b len
    let encodedNewLen ← lengthOfPrefix b newLen
    pure (.ok (newLen, encodedLen, encodedNewLen))

/-- The lambda `replace_len`. -/
def replaceLen (b : Build) (newLen : Count) : Appending Unit := do
  let result ← call (encodeToVector (encodeLength b newLen.toNat))
  let e ← value result
  overwrite e

/-- Both branches on the lengths of the prefixes: room is made for the new prefix where it is longer
than the old one.  These lengths are `uint32_t`, the sizes `size_t`. -/
def makeRoom (encodedLen encodedNewLen inputSize : ℕ) : Appending Unit := do
  let selfEncoded ← get
  if encodedLen ≠ encodedNewLen then do
    -- reserve place for new len, old vector and new vector
    let rest := (selfEncoded.size + 2 ^ 64 - encodedLen) % 2 ^ 64
    reserve ((encodedNewLen + rest + inputSize) % 2 ^ 64)
    -- shift the data bytes to give space for the new prefix
    let shiftSize := (encodedNewLen + 2 ^ 32 - encodedLen) % 2 ^ 32
    growBy shiftSize
    rotateReversed shiftSize
  else
    -- reserve place for existing and new vector
    reserve ((selfEncoded.size + inputSize) % 2 ^ 64)

/-- `append_or_new_vec`. -/
def appendOrNewVec (b : Build) (input : ConstSpanOfBytes) :
    Appending (Except ErrorCode Unit) := do
  let selfEncoded ← get
  -- no data present, just encode the given input data
  if selfEncoded.bytes.isEmpty then do
    let result ← call (encodeOpaqueValues b [input])
    let bytes ← value result
    assign bytes
    pure (.ok ())
  else
    match ← extractLengthData b selfEncoded with
    | .error code => pure (.error code)
    | .ok (newLen, encodedLen, encodedNewLen) => do
      makeRoom encodedLen encodedNewLen input.size
      replaceLen b newLen
      insertEnd input.bytes
      pure (.ok ())

/-- One call after the other, as long as they succeed. -/
def appendAll (b : Build) : List ConstSpanOfBytes → Appending (Except ErrorCode Unit)
  | [] => pure (.ok ())
  | input :: inputs => do
    match ← appendOrNewVec b input with
    | .error code => pure (.error code)
    | .ok () => appendAll b inputs

end ScaleCodec
