import ScaleCodec.ScaleType
import ScaleCodec.Lib.Locality

/-!
# Decoding and the end of the input

Every overload of `operator>>` is local: it returns the same value, having taken the same bytes,
from every input that continues the one it succeeded on, its other errors do not depend on what
follows either, and an input that ends too early makes it raise `NOT_ENOUGH_DATA`
(`fromStream_truncate`).  This holds whether or not there is memory for the containers: what
`resize` and `emplace` throw depends on the count and on the items.
-/

namespace ScaleCodec

variable {α β : Type} {n : ℕ} {αs : Fin n → Type} {b : Build}

/-- The exception that `DecodeError::NOT_ENOUGH_DATA` is raised as. -/
abbrev notEnoughData : Exception := .systemError (.decode .notEnoughData)

/-- `d` depends on the bytes it takes only, and never leaves the span. -/
abbrev Local (d : Decoding α) : Prop :=
  decoderSource.Local notEnoughData (· ≠ .outOfBounds) d

/-- The same, at two positions. -/
abbrev LocalAt (d : Decoding α) (t s : ScaleDecoderStream) : Prop :=
  decoderSource.LocalAt notEnoughData (· ≠ .outOfBounds) d t s

theorem local_pure (a : α) : Local (pure a) :=
  Source.local_pure a

theorem local_raise (code : ErrorCode) : Local (raise code : Decoding α) :=
  Source.local_throw (by simp)

theorem local_msb (v : ℕ) : Local (msb v) := by
  unfold msb
  split_ifs
  · exact Source.local_throw (by simp)
  · exact local_pure _

/-! ### Reads behind a guard -/

/-- `hasMore` is asked first, and `NOT_ENOUGH_DATA` raised if there is not enough. -/
theorem local_hasMore {k : Bool → Decoding α} {x : Decoding α} (hn : n < 2 ^ 63)
    (hfalse : k false = raise (.decode .notEnoughData)) (htrue : k true = x)
    (hx : ∀ t s, decoderSource.Truncates t s → n ≤ t.remaining.length → LocalAt x t s) :
    Local (hasMore n >>= k) := by
  apply Source.Local.guard (fun _ => rfl) ?_ hfalse
  · intro t s h ht
    rw [htrue]
    exact hx t s h ((ScaleDecoderStream.hasMore_iff h.valid_left hn).mp ht)
  · intro t s h ht
    have hle := (ScaleDecoderStream.hasMore_iff h.valid_left hn).mp ht
    exact (ScaleDecoderStream.hasMore_iff h.valid_right hn).mpr
      (Nat.le_trans hle h.isPrefix.length_le)

/-- Nothing needs to be known of the guard if what follows it is local. -/
theorem Local.hasMore {k : Bool → Decoding α} {x : Decoding α} (hx : Local x) (hn : n < 2 ^ 63)
    (hfalse : k false = raise (.decode .notEnoughData)) (htrue : k true = x) :
    Local (hasMore n >>= k) :=
  local_hasMore hn hfalse htrue fun t s h _ => hx t s h

theorem local_nextByte : Local nextByte := by
  intro t s h
  unfold Source.LocalAt
  cases ht : t.remaining with
  | nil =>
    rw [nextByte_nil h.valid_left ht]
    exact ⟨0, Nat.zero_le _, rfl, Or.inl rfl⟩
  | cons v bytes =>
    have hs : v :: bytes <+: s.remaining := by
      rw [← ht]
      exact h.isPrefix
    obtain ⟨tail, htail⟩ := hs
    rw [nextByte_cons h.valid_left ht]
    refine ⟨1, ?_, rfl, nextByte_cons h.valid_right htail.symm⟩
    show 1 ≤ t.remaining.length
    rw [ht]
    exact Nat.le_add_left 1 _

/-- The load reads as many bytes as were found to be there. -/
theorem localAt_endianLoad {t s : ScaleDecoderStream} (h : decoderSource.Truncates t s)
    (hn : n ≤ t.remaining.length) : LocalAt (endianLoad n) t s := by
  obtain ⟨tail, htail⟩ : t.remaining <+: s.remaining := h.isPrefix
  -- the longer input has the same bytes there
  have htake : s.remaining.take n = t.remaining.take n := by
    rw [← htail, List.take_append_of_le_length hn]
  have hlen : (t.remaining.take n).length = n := List.length_take_of_le hn
  unfold LocalAt Source.LocalAt
  rw [endianLoad, endianLoad, htake, if_pos hlen, if_pos hlen]
  exact ⟨n, hn, rfl, rfl⟩

/-! ### Integers -/

theorem local_decodeBool : Local decodeBool := by
  apply local_nextByte.bind
  intro v
  split_ifs
  · exact local_pure _
  · exact local_pure _
  · exact local_raise _

theorem local_decodeIntegral (i : Integral β) : Local (decodeIntegral i) := by
  cases i with
  | bool => exact local_decodeBool
  | int signed size =>
    rw [decodeIntegral]
    split_ifs
    · exact local_nextByte.bind fun _ => local_pure _
    · have hsize : size.bytes < 2 ^ 63 := by cases size <;> decide
      -- the load is behind the guard
      refine local_hasMore hsize rfl rfl fun t s h hn => ?_
      exact (localAt_endianLoad h hn).bind h fun _ => local_pure _

theorem local_takeLowBytes {w : ℕ} (k i : ℕ) (v : BitVec w) : Local (takeLowBytes k i v) := by
  induction k generalizing i v with
  | zero => exact local_pure _
  | succ k ih => exact local_nextByte.bind fun _ => ih _ _

theorem local_accumulateBytes (w k v multiplier : ℕ) :
    Local (accumulateBytes w k v multiplier) := by
  induction k generalizing v multiplier with
  | zero => exact local_pure _
  | succ k ih => exact local_nextByte.bind fun _ => ih _ _

theorem local_decodeCompactInteger : Local decodeCompactInteger := by
  apply local_nextByte.bind
  intro v
  have hcount : (v.toNat >>> 2) + 4 < 2 ^ 63 := by
    have := v.toNat_lt
    rw [Nat.shiftRight_eq_div_pow]
    omega
  dsimp only
  split_ifs
  · exact local_pure _
  · apply local_nextByte.bind
    intro v'
    split_ifs
    · exact local_raise _
    · exact local_pure _
  · refine Local.hasMore (local_accumulateBytes 64 3 v.toNat 256 |>.bind fun number => ?_)
      (by decide) rfl rfl
    split_ifs
    · exact local_raise _
    · exact local_pure _
  · refine Local.hasMore (local_accumulateBytes 1024 _ 0 1 |>.bind fun number => ?_)
      hcount rfl rfl
    split_ifs
    · exact local_raise _
    · apply (local_msb number).bind
      intro m
      split_ifs
      · exact local_raise _
      · exact local_pure _

theorem local_unpackJam (fuel i : ℕ) (st : JamState) : Local (unpackJam fuel i st) := by
  induction fuel generalizing i st with
  | zero => exact local_pure _
  | succ fuel ih =>
    unfold unpackJam
    dsimp only
    split_ifs
    · exact local_pure _
    · exact local_nextByte.bind fun _ => ih _ _

theorem local_decodeJamCompactInteger : Local decodeJamCompactInteger := by
  apply local_nextByte.bind
  intro v
  split_ifs
  · exact local_pure _
  · apply (local_unpackJam 8 0 _).bind
    intro st
    split_ifs
    · exact local_raise _
    · exact local_pure _

theorem local_decodeCompact (b : Build) (T : CompactCompatible) : Local (decodeCompact b T) := by
  have hnumber : Local (decodeCompactNumber b) := by
    cases b with
    | default => exact local_decodeCompactInteger
    | jam => exact local_decodeJamCompactInteger
  apply hnumber.bind
  intro v
  split_ifs
  · apply (local_msb v).bind
    intro m
    split_ifs
    · exact local_raise _
    · exact local_pure _
  · exact local_pure _

theorem local_decodeLength (b : Build) : Local (decodeLength b) :=
  (local_decodeCompact b .size).bind fun _ => local_pure _

theorem local_decodeEnum (i : Integral β) (traits : EnumTraits β) :
    Local (decodeEnum i traits) := by
  apply (local_decodeIntegral i).bind
  intro v
  split_ifs
  · exact local_pure _
  · exact local_raise _

/-! ### Optionals, products, variants and pointers -/

theorem local_decodeOptionalBool : Local decodeOptionalBool := by
  apply local_nextByte.bind
  intro v
  split_ifs
  · exact local_pure _
  · exact local_pure _
  · exact local_pure _
  · exact local_raise _

theorem local_optional (isBool : Option (PLift (α = Bool))) {d : Decoding α} (hd : Local d) :
    Local (decodeOptional isBool d) := by
  cases isBool with
  | some h => exact local_decodeOptionalBool.bind fun _ => local_pure _
  | none =>
    apply local_decodeBool.bind
    intro v
    cases v with
    | false => exact local_pure _
    | true => exact hd.bind fun _ => local_pure _

theorem local_pair {d : Decoding α} {d' : Decoding β} (hd : Local d) (hd' : Local d') :
    Local (decodePair d d') :=
  hd.bind fun _ => hd'.bind fun _ => local_pure _

theorem local_tuple {d : ∀ i, Decoding (αs i)} (hd : ∀ i, Local (d i)) :
    Local (decodeElementsOfTuple d) := by
  induction n with
  | zero => exact local_pure _
  | succ n ih =>
    apply (hd 0).bind
    intro x
    exact (ih fun i => hd i.succ).bind fun _ => local_pure _

theorem local_variant {d : ∀ i, Decoding (αs i)} (hd : ∀ i, Local (d i)) :
    Local (decodeVariant d) := by
  apply local_nextByte.bind
  intro index
  split_ifs with hi
  · exact (hd _).bind fun _ => local_pure _
  · exact local_raise _

theorem local_pointer {heap : Bool} {d : Decoding α} (hd : Local d) :
    Local (makePointer d : Decoding (Pointer heap α)) := by
  unfold makePointer
  split_ifs
  · exact hd.bind fun _ => local_pure _
  · exact Source.local_throw (by simp)

/-! ### Collections -/

theorem local_resize (cap : Capacity) (k : ℕ) : Local (resize cap k) := by
  unfold resize
  split_ifs
  · exact local_pure _
  · exact Source.local_throw (by simp)
  · exact Source.local_throw (by simp)

theorem local_catch_resize (cap : Capacity) (k : ℕ) : Local (catchBadAlloc (resize cap k)) := by
  unfold resize
  split_ifs
  · exact local_pure _
  · exact local_raise (.decode .tooManyItems)
  · exact Source.local_throw (show Exception.lengthError ≠ .outOfBounds by simp)

theorem local_catch_emplace {cap : Capacity} {order : Compare α} (c : OrderedCollection cap order)
    (x : α) : Local (catchBadAlloc (c.emplace x)) := by
  unfold OrderedCollection.emplace
  split_ifs
  · exact local_pure _
  · exact local_raise (.decode .tooManyItems)

theorem local_items {d : Decoding α} (hd : Local d) (k : ℕ) : Local (decodeItems d k) := by
  induction k with
  | zero => exact local_pure _
  | succ k ih => exact hd.bind fun _ => ih.bind fun _ => local_pure _

theorem local_sized {cap : Capacity} {d : Decoding α} (hd : Local d) :
    Local (decodeSized b cap d) := by
  apply (local_decodeLength b).bind
  intro k
  split_ifs
  · exact local_raise _
  · apply (local_catch_resize cap k).bind
    intro admits
    exact (local_items hd k).bind fun _ => local_pure _

theorem local_decodeBits (k i : ℕ) (byte : UInt8) : Local (decodeBits k i byte) := by
  induction k generalizing i byte with
  | zero => exact local_pure _
  | succ k ih =>
    unfold decodeBits
    split_ifs
    · exact local_nextByte.bind fun _ => (ih _ _).bind fun _ => local_pure _
    · exact (local_pure byte).bind fun _ => (ih _ _).bind fun _ => local_pure _

theorem local_decodeBitVec (cap : Capacity) : Local (decodeBitVec b cap) := by
  apply (local_decodeLength b).bind
  intro size
  -- the sum of the guard may wrap, but it is small for that very reason
  have hguard : ((size + 7) % 2 ^ 64) / 8 < 2 ^ 63 := by omega
  refine Local.hasMore ((local_resize cap size).bind fun admits => ?_) hguard rfl rfl
  exact (local_decodeBits size 0 0).bind fun _ => local_pure _

theorem local_emplaceItems {cap : Capacity} {order : Compare α} {d : Decoding α} (hd : Local d)
    (k : ℕ) (c : OrderedCollection cap order) : Local (emplaceItems d k c) := by
  induction k generalizing c with
  | zero => exact local_pure _
  | succ k ih => exact hd.bind fun x => (local_catch_emplace c x).bind fun c' => ih c'

theorem local_randomExtensible {cap : Capacity} {order : Compare α} {d : Decoding α}
    (hd : Local d) : Local (decodeRandomExtensible b cap order d) := by
  apply (local_decodeLength b).bind
  intro k
  split_ifs
  · exact local_raise _
  · exact local_emplaceItems hd k _

/-! ### The whole format -/

open ScaleType in
/-- What is decoded, and which error is raised, depends on the bytes taken only. -/
theorem local_fromStream (b : Build) (t : ScaleType α) : Local (t.fromStream b) := by
  induction t with
  | integral i => exact local_decodeIntegral i
  | enum i traits => exact local_decodeEnum i traits
  | bigFixedWidthInteger T => exact local_takeLowBytes _ _ _
  | compact T => exact local_decodeCompact b T
  | optional t ih => exact local_optional t.isBool? ih
  | pair t u iht ihu => exact local_pair iht ihu
  | tuple ts ih => exact local_tuple ih
  | variant ts hn ih => exact local_variant ih
  | pointer heap t ih => exact local_pointer ih
  | staticCollection n t ih => exact local_items ih n
  | resizeable cap t ih => exact local_sized ih
  | vectorBool cap => exact local_sized local_decodeBool
  | bitVec cap => exact local_decodeBitVec cap
  | extensibleBack cap t ih => exact local_sized ih
  | randomExtensible cap order t ih => exact local_randomExtensible ih

/-- A value decoded from some bytes is decoded from every input that continues them, and no proper
prefix of the bytes taken is enough for it; an error other than `NOT_ENOUGH_DATA` is raised for
every input that continues the bytes as well. -/
theorem fromStream_truncate (b : Build) (t : ScaleType α) (s s₂ : ScaleDecoderStream)
    (rest : List UInt8) (hs : s.Valid) (hs₂ : s₂.Valid)
    (hrest : s₂.remaining = s.remaining ++ rest) :
    (∀ v s', t.fromStream b s = .ok v s' → ∃ k ≤ s.remaining.length, s' = s.advance k ∧
      t.fromStream b s₂ = .ok v (s₂.advance k) ∧
      ∀ j < k, ∀ s₀ : ScaleDecoderStream, s₀.Valid → s₀.remaining = s.remaining.take j →
        ∃ s₁, t.fromStream b s₀ = .error notEnoughData s₁) ∧
    ∀ e s', t.fromStream b s = .error e s' → e ≠ notEnoughData →
      ∃ s₁, t.fromStream b s₂ = .error e s₁ := by
  have hlocal := local_fromStream b t
  have hlonger : decoderSource.Truncates s s₂ := by
    refine ⟨hs, hs₂, ?_⟩
    show s.remaining <+: s₂.remaining
    rw [hrest]
    exact List.prefix_append _ _
  constructor
  · intro v s' hok
    -- success: continued to `s₂`, and cut off before `k`
    obtain ⟨k, hk, rfl, hok₂⟩ := hlocal.ok_of_truncates hlonger hok
    refine ⟨k, hk, rfl, hok₂, fun j hj s₀ hs₀ htake => ?_⟩
    have hshorter : decoderSource.Truncates s₀ s := by
      refine ⟨hs₀, hs, ?_⟩
      show s₀.remaining <+: s.remaining
      rw [htake]
      exact List.take_prefix j _
    have hlen : s₀.remaining.length < k := by
      rw [htake, List.length_take]
      omega
    exact hlocal.short_of_truncates hshorter hok (fun m => ScaleDecoderStream.advance_injective)
      hlen
  · intro e s' herr he
    -- failure for another reason: continued to `s₂`
    exact hlocal.error_of_truncates hlonger herr he

/-- A vector of two integers, followed by another byte. -/
theorem fromStream_truncate_vector :
    ∃ k, (ScaleType.resizeable ⟨4, 4, by decide⟩ (.integral (.int false .two))).fromStream .default
        (.ofSpan ⟨[8, 1, 0, 2, 0, 9], by decide⟩) =
        .ok ⟨[1, 2], by decide⟩
          ((ScaleDecoderStream.ofSpan ⟨[8, 1, 0, 2, 0, 9], by decide⟩).advance k) ∧ k ≤ 5 := by
  obtain ⟨k, hk, _, hlonger, _⟩ := (fromStream_truncate .default
    (.resizeable ⟨4, 4, by decide⟩ (.integral (.int false .two)))
    (.ofSpan ⟨[8, 1, 0, 2, 0], by decide⟩) (.ofSpan ⟨[8, 1, 0, 2, 0, 9], by decide⟩) [9]
    (by decide) (by decide) (by decide)).1 ⟨[1, 2], by decide⟩
    ⟨⟨[8, 1, 0, 2, 0], by decide⟩, 5⟩ (by decide +kernel)
  exact ⟨k, hlonger, hk⟩

end ScaleCodec
