import ScaleCodec.FixedWidthInteger
import ScaleCodec.Equiv.CompactForm

/-!
# Correctness of fixed-width integers

A builtin integer is written as its little-endian bytes `integralBytes`, which are the only bytes
read back as it.  `decodeInteger` reads these bytes as well and does not store the value
(`decodeInteger_iff`).  One of Boost's types is written as its low `T.bytes` bytes, whatever its
width; these are all of its bytes for `uint128_t` only (`bytes_eq_iff`).
-/

namespace ScaleCodec

/-! ### Builtin types -/

/-- The bytes of a builtin value. -/
def integralBytes {β : Type} : Integral β → β → List UInt8
  | .bool, v => [if v then 1 else 0]
  | .int _ size, v => LittleEndian.bytes size.bytes v.toNat

theorem writes_encodeIntegral {β : Type} (i : Integral β) (v : β) :
    Writes (encodeIntegral i v) (integralBytes i v) := by
  cases i with
  | bool => exact writes_putByte _
  | int signed size =>
    rw [encodeIntegral, integralBytes]
    split_ifs with h1
    · rw [h1]
      exact writes_putByte _
    · exact writes_encodeInteger _ _

theorem decodeBool_eq_ok {s s' : ScaleDecoderStream} (hs : s.Valid) {v : Bool}
    (h : decodeBool s = .ok v s') : Consumed s [if v then 1 else 0] s' := by
  obtain ⟨b, s₁, hb, hrest⟩ := EStateM.bind_eq_ok.mp h
  have hcons := nextByte_eq_ok hs hb
  split_ifs at hrest with h0 h1
  · cases hrest
    rwa [h0] at hcons
  · cases hrest
    rwa [h1] at hcons
  · cases hrest

theorem reads_decodeBool (v : Bool) : Reads decodeBool [if v then 1 else 0] v := by
  refine (reads_nextByte _).bind_nil ?_
  cases v <;> exact Source.reads_pure _

theorem safeAt_decodeBool {s : ScaleDecoderStream} (hs : s.Valid) : SafeAt decodeBool s := by
  refine (safeAt_nextByte hs).bind hs fun b s' _ _ => ?_
  split_ifs
  · exact Source.safeAt_pure _ _
  · exact Source.safeAt_pure _ _
  · exact safeAt_raise _ _

/-- What `endian_load` loads where there are enough bytes. -/
theorem reads_endianLoad (bs : List UInt8) :
    Reads (endianLoad bs.length) bs (LittleEndian.value bs) := by
  rintro s _ ⟨tail, ht⟩
  change bs ++ tail = s.remaining at ht
  rw [endianLoad, ← ht, List.take_left, if_pos rfl]
  rfl

theorem IntSize.bytes_lt (size : IntSize) : size.bytes < 2 ^ 63 := by
  cases size <;> decide

theorem ofNat_value_bytes (size : IntSize) (v : BitVec size.bits) :
    BitVec.ofNat size.bits (LittleEndian.value (LittleEndian.bytes size.bytes v.toNat)) = v := by
  have hlt : v.toNat < 256 ^ size.bytes := by
    rw [LittleEndian.pow256_eq]
    exact v.isLt
  rw [LittleEndian.value_bytes_of_lt hlt, BitVec.ofNat_toNat, BitVec.setWidth_eq]

theorem reads_decodeIntegral {β : Type} (i : Integral β) (v : β) :
    Reads (decodeIntegral i) (integralBytes i v) v := by
  cases i with
  | bool => exact reads_decodeBool v
  | int signed size =>
    have hv := ofNat_value_bytes size v
    have hlen := LittleEndian.length_bytes size.bytes v.toNat
    rw [decodeIntegral, integralBytes]
    split_ifs with h1
    · rw [h1] at hv ⊢
      refine (reads_nextByte _).bind_nil ?_
      rw [LittleEndian.bytes, LittleEndian.bytes, LittleEndian.value_cons, LittleEndian.value_nil,
        Nat.mul_zero, Nat.add_zero] at hv
      rw [hv]
      exact Source.reads_pure v
    · refine Takes.hasMore (by rw [hlen]) ?_ size.bytes_lt
      simp only [not_true_eq_false, if_false]
      have hload := reads_endianLoad (LittleEndian.bytes size.bytes v.toNat)
      rw [hlen] at hload
      refine hload.bind_nil ?_
      rw [hv]
      exact Source.reads_pure v

/-- Where `hasMore` has found enough bytes, `endian_load` stays inside the span. -/
theorem endianLoad_of_hasMore {s : ScaleDecoderStream} (hs : s.Valid) {n : ℕ} (hn : n < 2 ^ 63)
    (h : s.hasMore n = true) : ∃ bs, bs.length = n ∧ Consumed s bs (s.advance n) ∧
      endianLoad n s = .ok (LittleEndian.value bs) (s.advance n) := by
  rw [ScaleDecoderStream.hasMore_iff hs hn] at h
  have hlen : (s.remaining.take n).length = n := by rw [List.length_take, min_eq_left h]
  refine ⟨s.remaining.take n, hlen, ⟨List.take_prefix n _, by rw [hlen]; rfl⟩, ?_⟩
  rw [endianLoad, if_pos hlen]

theorem decodeIntegral_eq_ok {β : Type} (i : Integral β) {s s' : ScaleDecoderStream}
    (hs : s.Valid) {v : β} (h : decodeIntegral i s = .ok v s') :
    Consumed s (integralBytes i v) s' := by
  cases i with
  | bool => exact decodeBool_eq_ok hs h
  | int signed size =>
    -- whichever way they are read, the bytes consumed are as many as the type has
    obtain ⟨bs, hlen, hcons, hv⟩ : ∃ bs, bs.length = size.bytes ∧ Consumed s bs s' ∧
        v = BitVec.ofNat size.bits (LittleEndian.value bs) := by
      rw [decodeIntegral] at h
      split_ifs at h with h1
      · obtain ⟨b, s₁, hb, hrest⟩ := EStateM.bind_eq_ok.mp h
        cases hrest
        refine ⟨[b], by rw [h1]; rfl, nextByte_eq_ok hs hb, ?_⟩
        rw [LittleEndian.value_cons, LittleEndian.value_nil, Nat.mul_zero, Nat.add_zero]
      · obtain ⟨more, s₁, hmore, hrest⟩ := EStateM.bind_eq_ok.mp h
        unfold hasMore at hmore
        cases hmore
        cases hm : s.hasMore size.bytes with
        | false => simp [hm, raise_apply] at hrest
        | true =>
          obtain ⟨bs, hlen, hcons, hload⟩ := endianLoad_of_hasMore hs size.bytes_lt hm
          rw [if_neg (by simp [hm]), EStateM.bind_ok hload] at hrest
          cases hrest
          exact ⟨bs, hlen, hcons, rfl⟩
    have hlt : LittleEndian.value bs < 2 ^ size.bits := by
      rw [IntSize.bits, ← LittleEndian.pow256_eq, ← hlen]
      exact LittleEndian.value_lt bs
    rw [integralBytes, hv, BitVec.toNat_ofNat, Nat.mod_eq_of_lt hlt, ← hlen,
      LittleEndian.bytes_value]
    exact hcons

theorem safeAt_decodeIntegral {β : Type} (i : Integral β) {s : ScaleDecoderStream}
    (hs : s.Valid) : SafeAt (decodeIntegral i) s := by
  cases i with
  | bool => exact safeAt_decodeBool hs
  | int signed size =>
    rw [decodeIntegral]
    split_ifs with h1
    · exact (safeAt_nextByte hs).bind hs fun _ _ _ _ => Source.safeAt_pure _ _
    · unfold SafeAt Source.SafeAt
      rw [EStateM.bind_ok (show hasMore size.bytes s = .ok (s.hasMore size.bytes) s from rfl)]
      cases hm : s.hasMore size.bytes with
      | false => exact ⟨_, rfl⟩
      | true =>
        obtain ⟨bs, _, hcons, hload⟩ := endianLoad_of_hasMore hs size.bytes_lt hm
        simp only [not_true_eq_false, if_false]
        rw [EStateM.bind_ok hload]
        exact ⟨bs, hcons⟩

/-! ### Builtin types, through a buffer -/

/-- A single byte comes through `operator>>` as it is. -/
theorem ofNat_toNat_byte (v : UInt8) :
    UInt8.ofNat (BitVec.ofNat IntSize.one.bits v.toNat).toNat = v := by
  have hlt : v.toNat < 2 ^ IntSize.one.bits := v.toNat_lt
  rw [BitVec.toNat_ofNat, Nat.mod_eq_of_lt hlt, UInt8.ofNat_toNat]

/-- The loop replaces the bytes of the buffer by those it reads. -/
theorem reads_readBuffer (bs : List UInt8) (i : ℕ) (buf : List UInt8)
    (hbuf : buf.length = i + bs.length) :
    Reads (readBuffer bs.length i buf) bs (buf.take i ++ bs) := by
  induction bs generalizing i buf with
  | nil =>
    have hall : buf.take i = buf := List.take_of_length_le (by simp [hbuf])
    rw [hall, List.append_nil]
    exact Source.reads_pure buf
  | cons v bs ih =>
    rw [List.length_cons] at hbuf
    have hset : (buf.set i v).take (i + 1) = buf.take i ++ [v] := take_succ_set (by omega) v
    have hrest := ih (i + 1) (buf.set i v) (by rw [List.length_set]; omega)
    rw [hset, List.append_assoc, List.singleton_append] at hrest
    have hbyte : Reads (decodeIntegral (.int false .one)) [v] (BitVec.ofNat _ v.toNat) :=
      (reads_nextByte v).bind_nil (Source.reads_pure _)
    refine hbyte.bind ?_
    rw [ofNat_toNat_byte]
    exact hrest

/-- The buffer is filled, and the target keeps what it held. -/
theorem reads_decodeInteger (size : IntSize) (value : BitVec size.bits) (bs : List UInt8)
    (hlen : bs.length = size.bytes) : Reads (decodeInteger size value) bs value := by
  have hbuf := reads_readBuffer bs 0 (LittleEndian.bytes size.bytes value.toNat)
    (by rw [LittleEndian.length_bytes, hlen, Nat.zero_add])
  rw [hlen] at hbuf
  exact hbuf.bind_nil (Source.reads_pure value)

/-- What `encodeInteger` has written is passed over, as `operator>>` does, but the value is not
stored: the target has it iff it had it before. -/
theorem decodeInteger_iff (signed : Bool) (size : IntSize) (v target : BitVec size.bits)
    (p : List UInt8) (s : ScaleDecoderStream) (hp : Writes (encodeInteger size.bytes v.toNat) p)
    (hs : s.Valid) (hrest : p <+: s.remaining) :
    (decodeInteger size target s = .ok v (s.advance size.bytes) ∧
      decodeInteger size target s = decodeIntegral (.int signed size) s) ↔ target = v := by
  obtain ⟨rfl, _⟩ := (writes_encodeInteger size.bytes v.toNat).unique hp
  have hlen := LittleEndian.length_bytes size.bytes v.toNat
  have hinteger := reads_decodeInteger size target _ hlen s hs hrest
  have hintegral := reads_decodeIntegral (.int signed size) v s hs hrest
  rw [integralBytes] at hintegral
  rw [hinteger, hintegral, hlen]
  constructor
  · rintro ⟨hstored, _⟩
    injection hstored
  · rintro rfl
    exact ⟨rfl, rfl⟩

theorem decodeInteger_iff_uint16 :
    decodeInteger .two 258 (.ofSpan ⟨[2, 1, 7], by decide⟩) =
        .ok 258 ((ScaleDecoderStream.ofSpan ⟨[2, 1, 7], by decide⟩).advance 2) ∧
      decodeInteger .two 258 (.ofSpan ⟨[2, 1, 7], by decide⟩) =
        decodeIntegral (.int false .two) (.ofSpan ⟨[2, 1, 7], by decide⟩) :=
  (decodeInteger_iff false .two 258 258 [2, 1] (.ofSpan ⟨[2, 1, 7], by decide⟩)
    (writes_encodeInteger 2 258) (by decide) (by decide)).mpr rfl

/-- A `uint16_t` of value one, into a target that holds zero. -/
theorem decodeInteger_not_stored :
    written (encodeInteger 2 1) = [1, 0] ∧
      decodeInteger .two 0 (.ofSpan ⟨[1, 0], by decide⟩) = .ok 0 ⟨⟨[1, 0], by decide⟩, 2⟩ ∧
      decodeIntegral (.int false .two) (.ofSpan ⟨[1, 0], by decide⟩) =
        .ok 1 ⟨⟨[1, 0], by decide⟩, 2⟩ := by
  decide +kernel

/-! ### Boost's types -/

/-- The loop of the encoder writes `n` bytes of the value from bit `i` on. -/
theorem writes_putLowBytes {w : ℕ} (hw : 8 ≤ w) (n i : ℕ) (v : BitVec w) :
    Writes (putLowBytes n i v) (LittleEndian.bytes n (v.toNat >>> i)) := by
  induction n generalizing i with
  | zero => exact writes_pure
  | succ n ih =>
    have hbyte : UInt8.ofNat ((v >>> i) &&& 0xff).toNat = UInt8.ofNat (v.toNat >>> i) := by
      apply UInt8.toNat_inj.mp
      have hff : (0xff : BitVec w).toNat = 0xff := by
        exact Nat.mod_eq_of_lt ((show 0xff < 2 ^ 8 by decide).trans_le
          (Nat.pow_le_pow_right (by omega) hw))
      rw [UInt8.toNat_ofNat', UInt8.toNat_ofNat', BitVec.toNat_and, BitVec.toNat_ushiftRight, hff,
        Nat.and_two_pow_sub_one_eq_mod _ 8, Nat.mod_mod]
    have hshift : (v.toNat >>> i) / 256 = v.toNat >>> (i + 8) := by
      rw [Nat.shiftRight_add, Nat.shiftRight_eq_div_pow _ 8]
    rw [putLowBytes, LittleEndian.bytes, hbyte, hshift]
    exact (writes_putByte _).bind (ih (i + 8))

/-- The loop of the decoder places the bytes it reads one above the other. -/
theorem reads_takeLowBytes {w : ℕ} (q : List UInt8) (k : ℕ) (v : BitVec w)
    (hv : v.toNat < 256 ^ k) (hw : 8 * (k + q.length) ≤ w) :
    Reads (takeLowBytes q.length (8 * k) v) q
      (BitVec.ofNat w (v.toNat + 256 ^ k * LittleEndian.value q)) := by
  induction q generalizing k v with
  | nil =>
    rw [LittleEndian.value_nil, Nat.mul_zero, Nat.add_zero, BitVec.ofNat_toNat, BitVec.setWidth_eq]
    exact Source.reads_pure v
  | cons b q ih =>
    rw [List.length_cons] at hw
    have hb := b.toNat_lt
    have hle : 256 ^ k * (b.toNat + 1) ≤ 256 ^ (k + 1) := by
      rw [pow_succ]
      exact Nat.mul_le_mul_left _ hb
    have hpow : 256 ^ (k + 1) ≤ 2 ^ w := by
      rw [LittleEndian.pow256_eq]
      exact Nat.pow_le_pow_right (by omega) (by omega)
    have hpos := Nat.pow_pos (n := k) (show 0 < 256 by omega)
    rw [Nat.mul_add, Nat.mul_one] at hle
    have h256 : 256 ≤ 2 ^ w := by
      refine le_trans ?_ (Nat.pow_le_pow_right (by omega) (show 8 ≤ w by omega))
      exact le_rfl
    have hor : (v ||| (BitVec.ofNat w b.toNat <<< (8 * k))).toNat =
        v.toNat + 256 ^ k * b.toNat := by
      rw [BitVec.toNat_or, BitVec.toNat_shiftLeft, BitVec.toNat_ofNat,
        Nat.mod_eq_of_lt (show b.toNat < 2 ^ w by omega)]
      exact LittleEndian.or_shiftLeft_mod hv (by omega)
    have hstep := ih (k + 1) (v ||| (BitVec.ofNat w b.toNat <<< (8 * k)))
      (by rw [hor]; omega) (by omega)
    have hvalue : v.toNat + 256 ^ k * b.toNat + 256 ^ (k + 1) * LittleEndian.value q =
        v.toNat + 256 ^ k * LittleEndian.value (b :: q) := by
      rw [LittleEndian.value_cons, pow_succ]
      ring
    rw [hor, hvalue] at hstep
    rw [List.length_cons, takeLowBytes]
    exact (reads_nextByte b).bind hstep

theorem takeLowBytes_eq_ok {w : ℕ} (n i : ℕ) (v : BitVec w) {s s' : ScaleDecoderStream}
    (hs : s.Valid) {x : BitVec w} (h : takeLowBytes n i v s = .ok x s') :
    ∃ q, q.length = n ∧ Consumed s q s' := by
  induction n generalizing i v s with
  | zero =>
    cases h
    exact ⟨[], rfl, Source.Consumed.refl _⟩
  | succ n ih =>
    obtain ⟨b, s₁, hb, hrest⟩ := EStateM.bind_eq_ok.mp h
    have hcons := nextByte_eq_ok hs hb
    obtain ⟨q, hq, hcons'⟩ := ih _ _ (hcons.valid hs) hrest
    exact ⟨b :: q, by rw [List.length_cons, hq], hcons.trans hcons'⟩

theorem safeAt_takeLowBytes {w : ℕ} (n i : ℕ) (v : BitVec w) {s : ScaleDecoderStream}
    (hs : s.Valid) : SafeAt (takeLowBytes n i v) s := by
  induction n generalizing i v s with
  | zero => exact Source.safeAt_pure _ _
  | succ n ih => exact (safeAt_nextByte hs).bind hs fun _ _ hs' _ => ih _ _ hs'

namespace BigFixedWidthInteger

/-- A value-initialised number has one limb in use. -/
theorem bytes_eq (T : BigFixedWidthInteger) : T.bytes = T.limbBytes := by
  have hzero : T.limbsInUse 0 = 1 := by
    have hnat : (0 : BitVec T.width).toNat = 0 := BitVec.toNat_zero
    rw [limbsInUse, hnat]
    cases T <;> rfl
  rw [bytes, hzero, Nat.one_mul]

/-- The number of bytes written is the one the width asks for in `uint128_t` only. -/
theorem bytes_eq_iff (T : BigFixedWidthInteger) : T.bytes = T.width / 8 ↔ T = .uint128 := by
  rw [bytes_eq]
  cases T <;> decide

theorem bytes_le_width (T : BigFixedWidthInteger) : 8 * T.bytes ≤ T.width := by
  rw [bytes_eq]
  cases T <;> decide

end BigFixedWidthInteger

theorem writes_encodeBigFixedWidthInteger (T : BigFixedWidthInteger) (v : BitVec T.width) :
    Writes (encodeBigFixedWidthInteger T v) (LittleEndian.bytes T.bytes v.toNat) :=
  writes_putLowBytes (by cases T <;> decide) T.bytes 0 v

theorem reads_decodeBigFixedWidthInteger (T : BigFixedWidthInteger) (q : List UInt8)
    (hq : q.length = T.bytes) :
    Reads (decodeBigFixedWidthInteger T) q (BitVec.ofNat T.width (LittleEndian.value q)) := by
  have hwidth := T.bytes_le_width
  have h := reads_takeLowBytes q 0 (0 : BitVec T.width) (by simp) (by omega)
  have hzero : (0 : BitVec T.width).toNat = 0 := BitVec.toNat_zero
  rw [hq, pow_zero, Nat.one_mul, hzero, Nat.zero_add] at h
  exact h

theorem decodeBigFixedWidthInteger_eq_ok (T : BigFixedWidthInteger) {s s' : ScaleDecoderStream}
    (hs : s.Valid) {v : BitVec T.width} (h : decodeBigFixedWidthInteger T s = .ok v s') :
    Consumed s (LittleEndian.bytes T.bytes v.toNat) s' := by
  obtain ⟨q, hq, hcons⟩ := takeLowBytes_eq_ok _ _ _ hs h
  have hrun := (reads_decodeBigFixedWidthInteger T q hq).run hs hcons
  have hv : v = BitVec.ofNat T.width (LittleEndian.value q) := by
    rw [h] at hrun
    cases hrun
    rfl
  have hlt : LittleEndian.value q < 2 ^ T.width := by
    refine (LittleEndian.value_lt q).trans_le ?_
    rw [hq, LittleEndian.pow256_eq]
    exact Nat.pow_le_pow_right (by omega) T.bytes_le_width
  rw [hv, BitVec.toNat_ofNat, Nat.mod_eq_of_lt hlt, ← hq, LittleEndian.bytes_value]
  exact hcons

theorem safeAt_decodeBigFixedWidthInteger (T : BigFixedWidthInteger) {s : ScaleDecoderStream}
    (hs : s.Valid) : SafeAt (decodeBigFixedWidthInteger T) s :=
  safeAt_takeLowBytes _ _ _ hs

/-- A value is read back if it fits into the bytes that are written. -/
theorem roundTrips_bigFixedWidthInteger {T : BigFixedWidthInteger} {v : BitVec T.width}
    (hv : v.toNat < 256 ^ T.bytes) :
    RoundTrips encoderSink decoderSource (encodeBigFixedWidthInteger T v)
      (decodeBigFixedWidthInteger T) v := by
  have hr := reads_decodeBigFixedWidthInteger T (LittleEndian.bytes T.bytes v.toNat)
    (LittleEndian.length_bytes _ _)
  rw [LittleEndian.value_bytes_of_lt hv, BitVec.ofNat_toNat, BitVec.setWidth_eq] at hr
  exact ⟨_, writes_encodeBigFixedWidthInteger T v, hr⟩

theorem toNat_lt_pow_bytes (v : BitVec BigFixedWidthInteger.uint128.width) :
    v.toNat < 256 ^ BigFixedWidthInteger.uint128.bytes := by
  rw [BigFixedWidthInteger.bytes_eq, LittleEndian.pow256_eq]
  exact v.isLt

/-- All the bytes of the declared width are written, the least significant one first, and the value
is read back from them. -/
def KeepsDeclaredWidth (T : BigFixedWidthInteger) (v : BitVec T.width) : Prop :=
  ∃ p, Writes (encodeBigFixedWidthInteger T v) p ∧ p.length = T.width / 8 ∧
    (∀ i < T.width / 8, p[i]? = some (UInt8.ofBitVec (v.extractLsb' (8 * i) 8))) ∧
    Reads (decodeBigFixedWidthInteger T) p v

/-- Of the four types, only `uint128_t` is encoded at its declared width. -/
theorem keepsDeclaredWidth_iff (T : BigFixedWidthInteger) (v : BitVec T.width) :
    KeepsDeclaredWidth T v ↔ T = .uint128 := by
  constructor
  · rintro ⟨p, hw, hlen, _⟩
    have heq := (hw.unique (writes_encodeBigFixedWidthInteger T v)).1
    rw [heq, LittleEndian.length_bytes] at hlen
    exact T.bytes_eq_iff.mp hlen
  · rintro rfl
    obtain ⟨p, hw, hr⟩ := roundTrips_bigFixedWidthInteger (toNat_lt_pow_bytes v)
    have heq := (hw.unique (writes_encodeBigFixedWidthInteger _ v)).1
    rw [(BigFixedWidthInteger.bytes_eq_iff _).mpr rfl] at heq
    refine ⟨p, hw, by rw [heq, LittleEndian.length_bytes], fun i hi => ?_, hr⟩
    rw [heq, LittleEndian.getElem?_bytes _ _ _ hi, LittleEndian.pow256_eq,
      ← Nat.shiftRight_eq_div_pow]
    rfl

/-- `2^64` as a `uint256_t` is written as eight zero bytes and read back as `0`. -/
theorem bigFixedWidthInteger_truncates :
    written (encodeBigFixedWidthInteger .uint256 (.ofNat _ (2 ^ 64))) =
        [0, 0, 0, 0, 0, 0, 0, 0] ∧
      decodeBigFixedWidthInteger .uint256 (.ofSpan ⟨[0, 0, 0, 0, 0, 0, 0, 0], by decide⟩) =
        .ok 0 ⟨⟨[0, 0, 0, 0, 0, 0, 0, 0], by decide⟩, 8⟩ ∧
      ¬ KeepsDeclaredWidth .uint256 (.ofNat _ (2 ^ 64)) := by
  have hwritten : written (encodeBigFixedWidthInteger .uint256 (.ofNat _ (2 ^ 64))) =
      [0, 0, 0, 0, 0, 0, 0, 0] := by decide +kernel
  refine ⟨hwritten, by decide +kernel, ?_⟩
  rintro ⟨p, hw, hlen, _⟩
  rw [← written_eq hw, hwritten] at hlen
  cases hlen

end ScaleCodec
