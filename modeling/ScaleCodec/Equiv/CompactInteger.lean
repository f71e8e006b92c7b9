import ScaleCodec.Compact
import ScaleCodec.Equiv.CompactForm

/-!
# Correctness of the default build's compact integers

`encodeCompactInteger` writes the compact form of every value below `2^30`, and of the values of
Boost's types up to `2^536`; for a builtin value from `2^30` on it announces as many bytes as the
value has bits (`writes_encodeCompactInteger_builtin`).  `decodeCompactInteger` accepts exactly the
compact forms: `takes_decodeCompactInteger` says what it does with any complete form, and
`decodeCompactInteger_of_tooShort` what it does with an incomplete one.
-/

namespace ScaleCodec

open ScaleDecoderStream

/-! ### Bit operations of the source, as arithmetic -/

theorem and_three (n : ℕ) : n &&& 0b11 = n % 4 :=
  Nat.and_two_pow_sub_one_eq_mod n 2

theorem and_ff (n : ℕ) : n &&& 0xff = n % 256 :=
  Nat.and_two_pow_sub_one_eq_mod n 8

/-- Setting the two mode bits of a shifted value. -/
theorem shl_two_or (n m : ℕ) (hm : m < 4) : (n <<< 2) ||| m = 4 * n + m := by
  rw [← Nat.shiftLeft_add_eq_or_of_lt (show m < 2 ^ 2 by omega), Nat.shiftLeft_eq]
  omega

/-- Clearing the two mode bits of a byte. -/
theorem and_fc {n : ℕ} (hn : n < 256) : n &&& 0b11111100 = 4 * (n / 4) := by
  have h : ∀ m : Fin 256, m.val &&& 0b11111100 = 4 * (m.val / 4) := by decide +kernel
  exact h ⟨n, hn⟩

/-! ### Encoding -/

/-- The loop writes the bytes of the value, without leading zeros. -/
theorem writes_emitBytes (fuel v : ℕ) (hv : v < 256 ^ fuel) :
    Writes (emitBytes fuel v) (LittleEndian.bytes (LittleEndian.length v) v) := by
  induction fuel generalizing v with
  | zero =>
    have h0 : v = 0 := by omega
    subst h0
    exact writes_pure
  | succ fuel ih =>
    by_cases h0 : v = 0
    · subst h0
      exact writes_pure
    · have hbyte : UInt8.ofNat (v &&& 0xff) = UInt8.ofNat v := by
        rw [and_ff]
        apply UInt8.toNat_inj.mp
        rw [UInt8.toNat_ofNat', UInt8.toNat_ofNat', Nat.mod_mod]
      have hshift : v >>> 8 = v / 256 := Nat.shiftRight_eq_div_pow v 8
      have hdiv : v / 256 < 256 ^ fuel := by
        rw [pow_succ] at hv
        omega
      rw [emitBytes, if_neg h0, hbyte, hshift, LittleEndian.length_div v h0, LittleEndian.bytes]
      exact (writes_putByte _).bind (ih _ hdiv)

/-- The fuel of the loop suffices for every value of the type. -/
theorem toNat_lt_pow_width (T : CompactCompatible) (v : BitVec T.width) :
    v.toNat < 256 ^ (T.width / 8) := by
  rw [LittleEndian.pow256_eq, T.width_div_mul]
  exact v.isLt

/-- Below `2^30` every type is encoded to the compact form. -/
theorem writes_encodeCompactInteger_of_lt {T : CompactCompatible} {v : BitVec T.width}
    (hv : v.toNat < 2 ^ 30) : Writes (encodeCompactInteger T v) (compactBytes v.toNat) := by
  rw [encodeCompactInteger, compactBytes, kMinUint16_eq, kMinUint32_eq, kMinBigInteger_eq,
    if_neg (Nat.not_lt_zero _)]
  split_ifs with h1 h2
  · rw [shl_two_or _ _ (by omega), Nat.mod_eq_of_lt (by omega), Nat.add_zero]
    exact writes_encodeInteger 1 _
  · rw [shl_two_or _ _ (by omega), Nat.mod_eq_of_lt (by omega)]
    exact writes_encodeInteger 2 _
  · rw [shl_two_or _ _ (by omega), Nat.mod_eq_of_lt (by omega)]
    exact writes_encodeInteger 4 _

/-- From `2^30` on the encoder writes a header and the bytes of the value. -/
theorem encodeCompactInteger_of_le {T : CompactCompatible} {v : BitVec T.width}
    (hv : 2 ^ 30 ≤ v.toNat) :
    encodeCompactInteger T v = (do
      let n ← significantBytes T v.toNat
      putByte (UInt8.ofNat (((n - 4) <<< 2) ||| 0b11))
      emitBytes (T.width / 8) v.toNat) := by
  rw [encodeCompactInteger, kMinUint16_eq, kMinUint32_eq, kMinBigInteger_eq,
    if_neg (Nat.not_lt_zero _), if_neg (by omega), if_neg (by omega), if_neg (by omega)]

/-- A builtin type computes the number of bits where the number of bytes is meant. -/
theorem writes_encodeCompactInteger_builtin {T : CompactCompatible} (hT : T.isIntegral)
    {v : BitVec T.width} (hv : 2 ^ 30 ≤ v.toNat) :
    Writes (encodeCompactInteger T v)
      (UInt8.ofNat (4 * (bitWidth v.toNat - 4) + 3) ::
        LittleEndian.bytes (LittleEndian.length v.toNat) v.toNat) := by
  have hn : significantBytes T v.toNat = pure (bitWidth v.toNat) := by
    rw [significantBytes, if_pos hT]
  rw [encodeCompactInteger_of_le hv, hn, ← shl_two_or _ _ (by omega)]
  exact (Sink.emits_pure _).bind
    ((writes_putByte _).bind (writes_emitBytes _ _ (toNat_lt_pow_width T v)))

theorem significantBytes_of_not_isIntegral {T : CompactCompatible} (hT : ¬ T.isIntegral)
    {v : ℕ} (hv : v ≠ 0) :
    significantBytes T v =
      if LittleEndian.length v > 67 then raise (.encode .compactIntegerTooBig)
      else pure (LittleEndian.length v) := by
  rw [significantBytes, if_neg hT, msb_of_ne_zero hv, LittleEndian.length, if_neg hv]
  rfl

/-- Boost's types are encoded to the compact form up to `2^536`. -/
theorem writes_encodeCompactInteger_big {T : CompactCompatible} (hT : ¬ T.isIntegral)
    {v : BitVec T.width} (hv : v.toNat < 2 ^ 536) :
    Writes (encodeCompactInteger T v) (compactBytes v.toNat) := by
  by_cases hlt : v.toNat < 2 ^ 30
  · exact writes_encodeCompactInteger_of_lt hlt
  · have hle : 2 ^ 30 ≤ v.toNat := by omega
    have h67 := (length_bounds hle).2.mpr hv
    rw [encodeCompactInteger_of_le hle, significantBytes_of_not_isIntegral hT (by omega),
      if_neg (by omega), compactBytes, if_neg (by omega), if_neg (by omega), if_neg hlt,
      ← shl_two_or _ _ (by omega)]
    exact (Sink.emits_pure _).bind
      ((writes_putByte _).bind (writes_emitBytes _ _ (toNat_lt_pow_width T v)))

/-- Above, they are refused before anything is written. -/
theorem encodeCompactInteger_too_big {T : CompactCompatible} (hT : ¬ T.isIntegral)
    {v : BitVec T.width} (hv : 2 ^ 536 ≤ v.toNat) :
    encoderSink.Emits (encodeCompactInteger T v) []
      (.error (.systemError (.encode .compactIntegerTooBig))) := by
  have hle : 2 ^ 30 ≤ v.toNat := le_trans (Nat.pow_le_pow_right (by omega) (by omega)) hv
  have h67 := (length_bounds hle).2
  rw [encodeCompactInteger_of_le hle, significantBytes_of_not_isIntegral hT (by omega),
    if_pos (by omega)]
  exact (emits_raise _).bind_error

/-! ### Decoding -/

/-- The accumulating loop adds up the bytes it reads, as long as the type is wide enough. -/
theorem reads_accumulateBytes (w : ℕ) (bs : List UInt8) (value multiplier : ℕ)
    (hv : value < multiplier) (hm : multiplier * 256 ^ bs.length < 2 ^ w) :
    Reads (accumulateBytes w bs.length value multiplier) bs
      (value + multiplier * LittleEndian.value bs) := by
  induction bs generalizing value multiplier with
  | nil => exact Source.reads_pure _
  | cons b bs ih =>
    have hb := b.toNat_lt
    rw [List.length_cons, pow_succ', ← Nat.mul_assoc] at hm
    have hpos : 0 < 256 ^ bs.length := Nat.pow_pos (by omega)
    have hm' : multiplier * 256 < 2 ^ w := lt_of_le_of_lt (Nat.le_mul_of_pos_right _ hpos) hm
    have hbyte : b.toNat * multiplier ≤ 255 * multiplier := Nat.mul_le_mul_right _ (by omega)
    have hsum : (value + b.toNat * multiplier) % 2 ^ w = value + b.toNat * multiplier :=
      Nat.mod_eq_of_lt (by omega)
    have hshift : (multiplier <<< 8) % 2 ^ w = multiplier * 256 := by
      rw [Nat.shiftLeft_eq, Nat.mod_eq_of_lt (by omega)]
    have hrest := ih (value + b.toNat * multiplier) (multiplier * 256) (by omega) hm
    have hval : value + multiplier * LittleEndian.value (b :: bs) =
        value + b.toNat * multiplier + multiplier * 256 * LittleEndian.value bs := by
      rw [LittleEndian.value_cons]
      ring
    rw [List.length_cons, accumulateBytes, hval]
    refine (reads_nextByte b).bind ?_
    rw [hsum, hshift]
    exact hrest

/-- What the decoder makes of a complete form: its number, unless a shorter form has it too. -/
def formResult (p : List UInt8) : Except Exception ℕ :=
  if (compactBytes (formValue p)).length < p.length then
    .error (.systemError (.decode .redundantCompactEncoding))
  else
    .ok (formValue p)

/-- The last step of every mode: refusing a redundant form. -/
theorem takes_formResult {p : List UInt8} {c : Prop} [Decidable c]
    (hc : c ↔ (compactBytes (formValue p)).length < p.length) :
    Takes (if c then raise (.decode .redundantCompactEncoding) else pure (formValue p) : Decoding ℕ)
      [] (formResult p) := by
  unfold formResult
  by_cases h : c
  · rw [if_pos h, if_pos (hc.mp h)]
    exact takes_raise _
  · rw [if_neg h, if_neg (fun hlt => h (hc.mpr hlt))]
    exact Source.reads_pure _

/-- The last check of the header mode, in one condition. -/
theorem checkBits_eq {σ : Type} (v n : ℕ) :
    (if v = 0 then raise (.decode .redundantCompactEncoding)
      else do
        let bits := (← msb v) + 1
        if bits ≤ 30 ∨ (bits + 7) / 8 < n then raise (.decode .redundantCompactEncoding)
        else pure v : EStateM Exception σ ℕ) =
      if v = 0 ∨ v.log2 + 1 ≤ 30 ∨ (v.log2 + 1 + 7) / 8 < n then
        raise (.decode .redundantCompactEncoding)
      else pure v := by
  by_cases h0 : v = 0
  · rw [if_pos h0, if_pos (Or.inl h0)]
  · rw [if_neg h0, msb_of_ne_zero h0]
    simp only [h0, false_or]
    rfl

/-- A form of one byte is never redundant. -/
theorem formValue_one {b : UInt8} (hb : b.toNat % 4 = 0) :
    formValue [b] = b.toNat >>> 2 ∧ (compactBytes (formValue [b])).length = 1 := by
  have hlt := b.toNat_lt
  have hval : formValue [b] = b.toNat >>> 2 := by
    rw [formValue, if_neg (by omega), LittleEndian.value_cons, LittleEndian.value_nil,
      Nat.shiftRight_eq_div_pow]
    omega
  refine ⟨hval, ?_⟩
  rw [hval, Nat.shiftRight_eq_div_pow, length_compactBytes_of_lt (by omega), if_pos (by omega)]

/-- A form of two bytes is redundant iff its number has six bits. -/
theorem formValue_two {b c : UInt8} (hb : b.toNat % 4 = 1) :
    ((b.toNat &&& 0b11111100) + c.toNat * 256) >>> 2 = formValue [b, c] ∧
      (formValue [b, c] >>> 6 = 0 ↔ (compactBytes (formValue [b, c])).length < [b, c].length) := by
  have hlt := b.toNat_lt
  have hlt' := c.toNat_lt
  have hval : formValue [b, c] = (b.toNat + 256 * c.toNat) / 4 := by
    rw [formValue, if_neg (by omega)]
    simp only [LittleEndian.value_cons, LittleEndian.value_nil]
    omega
  constructor
  · rw [hval, and_fc hlt, Nat.shiftRight_eq_div_pow]
    omega
  · rw [Nat.shiftRight_eq_div_pow, length_compactBytes_of_lt (by omega)]
    simp only [List.length_cons, List.length_nil]
    split_ifs <;> omega

/-- A form of four bytes is redundant iff its number has fourteen bits. -/
theorem formValue_four {b : UInt8} {q : List UInt8} (hb : b.toNat % 4 = 2) (hq : q.length = 3) :
    (b.toNat + 256 * LittleEndian.value q) >>> 2 = formValue (b :: q) ∧
      (formValue (b :: q) >>> 14 = 0 ↔
        (compactBytes (formValue (b :: q))).length < (b :: q).length) := by
  have hlt := LittleEndian.value_lt (b :: q)
  rw [List.length_cons, hq] at hlt
  have hval : formValue (b :: q) = LittleEndian.value (b :: q) / 4 := by
    rw [formValue, if_neg (by omega)]
  constructor
  · rw [hval, LittleEndian.value_cons, Nat.shiftRight_eq_div_pow]
  · rw [Nat.shiftRight_eq_div_pow, length_compactBytes_of_lt (by omega), List.length_cons, hq]
    split_ifs <;> omega

/-- A form with a header is redundant iff its number has thirty bits, or fits into fewer bytes. -/
theorem redundant_header_iff (v n : ℕ) (hn : 4 ≤ n) :
    v = 0 ∨ v.log2 + 1 ≤ 30 ∨ (v.log2 + 1 + 7) / 8 < n ↔ (compactBytes v).length < n + 1 := by
  by_cases h30 : v < 2 ^ 30
  · have hlog : v = 0 ∨ v.log2 + 1 ≤ 30 := by
      by_cases hv0 : v = 0
      · exact Or.inl hv0
      · exact Or.inr ((Nat.log2_lt hv0).mpr h30)
    rw [length_compactBytes_of_lt h30]
    split_ifs <;> omega
  · have hv0 : v ≠ 0 := by omega
    have hlog : ¬ v.log2 < 30 := fun h => h30 ((Nat.log2_lt hv0).mp h)
    rw [length_compactBytes_of_le (by omega), LittleEndian.length, if_neg hv0]
    omega

/-- The decoder takes any complete form, and refuses it iff it is redundant. -/
theorem takes_decodeCompactInteger {p : List UInt8} (hp : IsForm p) :
    Takes decodeCompactInteger p (formResult p) := by
  obtain ⟨b, q, rfl, hlen⟩ := hp
  have hb := b.toNat_lt
  refine (reads_nextByte b).bind ?_
  rw [List.length_cons, announcedLength] at hlen
  simp only [and_three]
  split_ifs at hlen ⊢ with h0 h1 h2
  · -- one byte
    obtain rfl : q = [] := List.length_eq_zero_iff.mp (by omega)
    obtain ⟨hval, hone⟩ := formValue_one h0
    rw [formResult, hone, if_neg (by simp), hval]
    exact Source.reads_pure _
  · -- two bytes
    obtain ⟨c, rfl⟩ := List.length_eq_one_iff.mp (show q.length = 1 by omega)
    obtain ⟨hval, hred⟩ := formValue_two (c := c) h1
    refine (reads_nextByte c).bind_nil ?_
    simp only [hval]
    exact takes_formResult hred
  · -- four bytes, accumulated in a `size_t`
    have hq : q.length = 3 := by omega
    obtain ⟨hval, hred⟩ := formValue_four h2 hq
    refine Takes.hasMore (by omega) ?_ (by omega)
    simp only [not_true_eq_false, if_false]
    rw [← hq]
    refine (reads_accumulateBytes 64 q b.toNat 256 (by omega) ?_).bind_nil ?_
    · rw [hq]
      norm_num
    · simp only [hval]
      exact takes_formResult hred
  · -- a header and `b / 4 + 4` bytes, accumulated in a `uint1024_t`
    have hn : b.toNat >>> 2 + 4 = q.length := by
      rw [Nat.shiftRight_eq_div_pow]
      omega
    have hval : 0 + 1 * LittleEndian.value q = formValue (b :: q) := by
      rw [formValue, if_pos (by omega), Nat.zero_add, Nat.one_mul]
    have hwide : 1 * 256 ^ q.length < 2 ^ 1024 := by
      rw [one_mul]
      exact LittleEndian.pow256_lt q.length 1024 (by omega)
    rw [hn]
    refine Takes.hasMore le_rfl ?_ (by omega)
    simp only [not_true_eq_false, if_false]
    refine (reads_accumulateBytes _ q 0 1 Nat.zero_lt_one hwide).bind_nil ?_
    rw [hval, checkBits_eq]
    exact takes_formResult (redundant_header_iff _ _ (by omega))

/-- The input is shorter than the form its first byte announces; an empty one announces nothing
and is too short for every form. -/
def TooShort (input : List UInt8) : Prop :=
  ∀ b q, input = b :: q → input.length < announcedLength b

/-- Two forms of one number, the other one shorter. -/
def Redundant (p : List UInt8) : Prop :=
  ∃ p', IsForm p' ∧ formValue p' = formValue p ∧ p'.length < p.length

/-- An input starts with a complete form unless it is too short. -/
theorem exists_isForm_of_not_tooShort {input : List UInt8} (h : ¬ TooShort input) :
    ∃ p, IsForm p ∧ p <+: input := by
  unfold TooShort at h
  push Not at h
  obtain ⟨b, q, rfl, hlen⟩ := h
  have hpos := announcedLength_pos b
  obtain ⟨n, hn⟩ : ∃ n, announcedLength b = n + 1 := ⟨announcedLength b - 1, by omega⟩
  refine ⟨(b :: q).take (announcedLength b), ⟨b, q.take n, ?_, ?_⟩, List.take_prefix _ _⟩
  · rw [hn, List.take_succ_cons]
  · rw [List.length_take, min_eq_left hlen]

theorem formValue_lt {p : List UInt8} (hp : IsForm p) : formValue p < 2 ^ 536 := by
  obtain ⟨b, q, rfl, hlen⟩ := hp
  have h68 := announcedLength_le b
  have hlt : LittleEndian.value (b :: q) < 256 ^ 68 :=
    lt_of_lt_of_le (LittleEndian.value_lt _) (Nat.pow_le_pow_right (by omega) (by omega))
  rw [List.length_cons] at hlen
  rw [formValue]
  split_ifs with h3
  · have hq : LittleEndian.length (LittleEndian.value q) ≤ 67 := by
      have := (LittleEndian.length_le_iff _ q.length).mpr (LittleEndian.value_lt q)
      omega
    rwa [LittleEndian.length_le_iff, LittleEndian.pow256_eq, show 8 * 67 = 536 by rfl] at hq
  · have h4 : (b :: q).length ≤ 4 := by
      rw [List.length_cons, hlen, announcedLength]
      split_ifs <;> omega
    have hsmall : LittleEndian.value (b :: q) < 256 ^ 4 :=
      lt_of_lt_of_le (LittleEndian.value_lt _) (Nat.pow_le_pow_right (by omega) h4)
    exact (Nat.div_le_self _ _).trans_lt
      (hsmall.trans (LittleEndian.pow256_lt 4 536 (by omega)))

theorem redundant_iff {p : List UInt8} (hp : IsForm p) :
    Redundant p ↔ (compactBytes (formValue p)).length < p.length := by
  constructor
  · rintro ⟨p', hp', hval, hlt⟩
    have := length_compactBytes_formValue_le hp'
    rw [hval] at this
    omega
  · intro hlt
    obtain ⟨hform, hval⟩ := isForm_compactBytes (formValue_lt hp)
    exact ⟨_, hform, hval, hlt⟩

/-- An input that is too short is refused for that reason, at whatever byte the decoder notices. -/
theorem decodeCompactInteger_of_tooShort {s : ScaleDecoderStream} (hs : s.Valid)
    (h : TooShort s.remaining) :
    ∃ s', decodeCompactInteger s = .error (.systemError (.decode .notEnoughData)) s' := by
  cases hr : s.remaining with
  | nil => exact ⟨s, EStateM.bind_error (nextByte_nil hs hr)⟩
  | cons b q =>
    have hb := b.toNat_lt
    have hlt := h b q hr
    rw [hr, List.length_cons, announcedLength] at hlt
    have hs1 : (s.advance 1).Valid := valid_advance hs (by rw [hr]; simp)
    have hr1 : (s.advance 1).remaining = q := by rw [remaining_advance, hr]; rfl
    -- a failed `hasMore` raises, whatever was to come after it
    have hfail : ∀ (n : ℕ) (k : Decoding ℕ), q.length < n → n < 2 ^ 63 →
        (do if ¬ (← hasMore n) then raise (.decode .notEnoughData) else k : Decoding ℕ)
          (s.advance 1) = .error (.systemError (.decode .notEnoughData)) (s.advance 1) := by
      intro n k hn h63
      have hfalse : (s.advance 1).hasMore n = false := by
        rw [← Bool.not_eq_true, hasMore_iff hs1 h63, hr1]
        omega
      rw [EStateM.bind_ok (show hasMore n (s.advance 1) = .ok false (s.advance 1) by
        rw [hasMore, hfalse])]
      rfl
    refine ⟨s.advance 1, ?_⟩
    rw [decodeCompactInteger, EStateM.bind_ok (nextByte_cons hs hr)]
    simp only [and_three]
    split_ifs at hlt ⊢ with h0 h1 h2
    · omega
    · have hq : q = [] := List.length_eq_zero_iff.mp (by omega)
      exact EStateM.bind_error (nextByte_nil hs1 (hr1.trans hq))
    · exact hfail 3 _ (by omega) (by omega)
    · rw [Nat.shiftRight_eq_div_pow]
      exact hfail _ _ (by omega) (by omega)

/-- What the decoder does with any input, at any position of a stream. -/
theorem decodeCompactInteger_cases {s : ScaleDecoderStream} (hs : s.Valid) :
    (TooShort s.remaining ∧
      ∃ s', decodeCompactInteger s = .error (.systemError (.decode .notEnoughData)) s') ∨
    ∃ p, IsForm p ∧ p <+: s.remaining ∧
      ((Redundant p ∧ decodeCompactInteger s =
          .error (.systemError (.decode .redundantCompactEncoding)) (s.advance p.length)) ∨
        (compactBytes (formValue p) = p ∧
          decodeCompactInteger s = .ok (formValue p) (s.advance p.length))) := by
  by_cases hshort : TooShort s.remaining
  · exact Or.inl ⟨hshort, decodeCompactInteger_of_tooShort hs hshort⟩
  · obtain ⟨p, hp, hpre⟩ := exists_isForm_of_not_tooShort hshort
    refine Or.inr ⟨p, hp, hpre, ?_⟩
    have htakes := takes_decodeCompactInteger hp
    unfold formResult at htakes
    by_cases hlt : (compactBytes (formValue p)).length < p.length
    · rw [if_pos hlt] at htakes
      exact Or.inl ⟨(redundant_iff hp).mpr hlt, htakes s hs hpre⟩
    · rw [if_neg hlt] at htakes
      exact Or.inr ⟨compactBytes_formValue hp (by omega), htakes s hs hpre⟩

/-- The compact form of a number is read back as that number. -/
theorem reads_compactBytes {v : ℕ} (hv : v < 2 ^ 536) :
    Reads decodeCompactInteger (compactBytes v) v := by
  obtain ⟨hform, hval⟩ := isForm_compactBytes hv
  have htakes := takes_decodeCompactInteger hform
  rwa [formResult, hval, if_neg (lt_irrefl _)] at htakes

/-- Only compact forms are accepted. -/
theorem decodeCompactInteger_eq_ok {s s' : ScaleDecoderStream} (hs : s.Valid) {x : ℕ}
    (h : decodeCompactInteger s = .ok x s') :
    Consumed s (compactBytes x) s' ∧ x < 2 ^ 536 := by
  rcases decodeCompactInteger_cases hs with ⟨_, e, he⟩ | ⟨p, hp, hpre, hres⟩
  · rw [he] at h; cases h
  · rcases hres with ⟨_, he⟩ | ⟨hcanon, hok⟩
    · rw [he] at h; cases h
    · rw [hok] at h
      injection h with h1 h2
      subst h1 h2
      rw [hcanon]
      exact ⟨⟨hpre, rfl⟩, formValue_lt hp⟩

/-- What was decoded is written as the bytes it was decoded from. -/
theorem rewrites_decodeCompactInteger {s s' : ScaleDecoderStream} (hs : s.Valid) {x : ℕ}
    (h : decodeCompactInteger s = .ok x s') :
    ∃ p, Consumed s p s' ∧ x < 2 ^ 536 ∧
      Writes (encodeCompactInteger .uint1024 (BitVec.ofNat _ x)) p := by
  obtain ⟨hcons, hlt⟩ := decodeCompactInteger_eq_ok hs h
  have hx : (BitVec.ofNat CompactCompatible.uint1024.width x).toNat = x := by
    rw [BitVec.toNat_ofNat]
    exact Nat.mod_eq_of_lt (hlt.trans_le (two_pow_le 536 _ (by decide)))
  have hw := writes_encodeCompactInteger_big (T := .uint1024) (by decide)
    (v := BitVec.ofNat _ x) (by rwa [hx])
  rw [hx] at hw
  exact ⟨compactBytes x, hcons, hlt, hw⟩

theorem decodeCompactInteger_notEnoughData_iff {s : ScaleDecoderStream} (hs : s.Valid) :
    (∃ s', decodeCompactInteger s = .error (.systemError (.decode .notEnoughData)) s') ↔
      TooShort s.remaining := by
  constructor
  · rintro ⟨s', h⟩
    rcases decodeCompactInteger_cases hs with ⟨hshort, _⟩ | ⟨p, _, _, ⟨_, h'⟩ | ⟨_, h'⟩⟩
    · exact hshort
    · rw [h'] at h; cases h
    · rw [h'] at h; cases h
  · exact decodeCompactInteger_of_tooShort hs

theorem decodeCompactInteger_redundant_iff {s : ScaleDecoderStream} (hs : s.Valid) :
    (∃ s', decodeCompactInteger s =
        .error (.systemError (.decode .redundantCompactEncoding)) s') ↔
      ∃ p, IsForm p ∧ p <+: s.remaining ∧ Redundant p := by
  constructor
  · rintro ⟨s', h⟩
    rcases decodeCompactInteger_cases hs with ⟨_, e, h'⟩ | ⟨p, hp, hpre, ⟨hred, _⟩ | ⟨_, h'⟩⟩
    · rw [h'] at h; cases h
    · exact ⟨p, hp, hpre, hred⟩
    · rw [h'] at h; cases h
  · rintro ⟨p, hp, hpre, hred⟩
    have htakes := takes_decodeCompactInteger hp
    rw [formResult, if_pos ((redundant_iff hp).mp hred)] at htakes
    exact ⟨_, htakes s hs hpre⟩

/-- There is no third reason to refuse an input. -/
theorem decodeCompactInteger_eq_error {s s' : ScaleDecoderStream} (hs : s.Valid) {e : Exception}
    (h : decodeCompactInteger s = .error e s') :
    e = .systemError (.decode .notEnoughData) ∨
      e = .systemError (.decode .redundantCompactEncoding) := by
  rcases decodeCompactInteger_cases hs with ⟨_, e', h'⟩ | ⟨p, _, _, ⟨_, h'⟩ | ⟨_, h'⟩⟩
  · rw [h'] at h
    injection h with h1 _
    exact Or.inl h1.symm
  · rw [h'] at h
    injection h with h1 _
    exact Or.inr h1.symm
  · rw [h'] at h; cases h

/-- On `uint1024_t` the encoder and the decoder are mutually inverse between the numbers below
`2^536` and the accepted byte strings.  Encoding and decoding return the number and take exactly
its encoding; encoding what was decoded gives the bytes consumed; larger numbers are refused with
nothing written; and the byte strings that are not accepted are the too short ones and those that
start with a redundant form, each refused for its reason. -/
theorem compactInteger_inverse :
    (∀ v : BitVec CompactCompatible.uint1024.width, v.toNat < 2 ^ 536 →
      ∃ p, Writes (encodeCompactInteger .uint1024 v) p ∧ Reads decodeCompactInteger p v.toNat) ∧
    (∀ s x s', s.Valid → decodeCompactInteger s = .ok x s' →
      ∃ p, Consumed s p s' ∧ x < 2 ^ 536 ∧
        Writes (encodeCompactInteger .uint1024 (BitVec.ofNat _ x)) p) ∧
    (∀ v : BitVec CompactCompatible.uint1024.width, 2 ^ 536 ≤ v.toNat → ∀ s,
      encodeCompactInteger .uint1024 v s =
        .error (.systemError (.encode .compactIntegerTooBig)) s) ∧
    (∀ s, s.Valid →
      ((∃ s', decodeCompactInteger s = .error (.systemError (.decode .notEnoughData)) s') ↔
        TooShort s.remaining)) ∧
    (∀ s, s.Valid →
      ((∃ s', decodeCompactInteger s =
          .error (.systemError (.decode .redundantCompactEncoding)) s') ↔
        ∃ p, IsForm p ∧ p <+: s.remaining ∧ Redundant p)) ∧
    (∀ s e s', s.Valid → decodeCompactInteger s = .error e s' →
      e = .systemError (.decode .notEnoughData) ∨
        e = .systemError (.decode .redundantCompactEncoding)) := by
  refine ⟨fun v hv => ?_, fun s x s' hs h => rewrites_decodeCompactInteger hs h, fun v hv s => ?_,
    fun s hs => decodeCompactInteger_notEnoughData_iff hs,
    fun s hs => decodeCompactInteger_redundant_iff hs,
    fun s e s' hs h => decodeCompactInteger_eq_error hs h⟩
  · exact ⟨_, writes_encodeCompactInteger_big (by decide) hv, reads_compactBytes hv⟩
  · have h := encodeCompactInteger_too_big (T := .uint1024) (by decide) hv s
    rwa [encoderSink.put_nil] at h

end ScaleCodec
