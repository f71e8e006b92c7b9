import ScaleCodec.ScaleType

/-!
# `boost::variant`

A `boost::variant` always holds one of its alternatives, and is asked for the type of what it holds
where a `std::variant` is asked for its index.  Types are told apart by their `typeid`s: `ids` lists
those of the alternatives, and `El` gives the values of each.
-/

namespace ScaleCodec

/-- `boost::variant`. -/
structure BoostVariant {ι : Type} (El : ι → Type) {n : ℕ} (ids : Fin n → ι) where
  /-- `which()` -/
  which : Fin n
  value : El (ids which)

namespace BoostVariant

variable {ι : Type} {El : ι → Type} {n : ℕ} {ids : Fin n → ι}

/-- `type()`. -/
def type (v : BoostVariant El ids) : ι := ids v.which

/-- `tryEncodeAsOneOfVariant`, with the alternatives from `I` on. -/
def tryEncodeAsOneOf [DecidableEq ι] (e : ∀ c, El c → Encoding Unit) (v : BoostVariant El ids) :
    List (Fin n) → Encoding Unit
  -- no alternative is left
  | [] => pure ()
  | i :: alternatives =>
    if h : v.type = ids i then do
      putByte (UInt8.ofNat i)
      e (ids i) (h ▸ v.value)
    else tryEncodeAsOneOf e v alternatives

/-- `operator<<`. -/
def encode [DecidableEq ι] (e : ∀ c, El c → Encoding Unit) (v : BoostVariant El ids) :
    Encoding Unit :=
  tryEncodeAsOneOf e v (List.finRange n)

/-- `tryDecodeAsOneOfVariant`, with the alternatives from `I` on, into `v`.  The assignment of what
was decoded is the one for variants whose alternatives have different types. -/
def tryDecodeAsOneOf (d : ∀ c, Decoding (El c)) (v : BoostVariant El ids) (typeIndex : ℕ) :
    List (Fin n) → Decoding (BoostVariant El ids)
  -- no alternative is left
  | [] => pure v
  | i :: alternatives =>
    if i = typeIndex then do
      let val ← d (ids i)
      pure ⟨i, val⟩
    else tryDecodeAsOneOf d v typeIndex alternatives

/-- `operator>>`, into `v`. -/
def decode (d : ∀ c, Decoding (El c)) (v : BoostVariant El ids) :
    Decoding (BoostVariant El ids) := do
  -- first byte means type index
  let typeIndex ← nextByte
  -- ensure that index is in [0, types_count)
  if typeIndex.toNat ≥ n then raise (.decode .wrongTypeIndex)
  else tryDecodeAsOneOf d v typeIndex.toNat (List.finRange n)

end BoostVariant

end ScaleCodec
