import ScaleCodec.Equiv.Compact

/-!
# The formulas for the length of a compact integer

`lengthOfEncodedCompactInteger` and `lengthOfEncodedJamCompactInteger` compute the length of an
encoding without making it.

* The former is right below `2^30` and wrong from there on: for a builtin type it adds the bits of
  the value to the header instead of its bytes, and for one of Boost's it leaves out the header
  (`lengthOfEncodedCompactInteger_iff`).
* The latter is right for a builtin type below `2^63`, where the last length class begins.  For one
  of Boost's types it takes the bits of the predecessor, so that it fails for zero, one, the powers
  of `2^7` at which a form becomes longer, and above `2^63`
  (`lengthOfEncodedJamCompactInteger_iff`).
-/

namespace ScaleCodec

variable {σ : Type} {T : CompactCompatible} {v : BitVec T.width}

/-- What an encoder puts has length `n`. -/
def PutsBytes (e : Encoding Unit) (n : ℕ) : Prop :=
  ∃ p, Writes e p ∧ p.length = n

theorem putsBytes_iff {e : Encoding Unit} {p : List UInt8} (hp : Writes e p) {n : ℕ} :
    PutsBytes e n ↔ p.length = n := by
  constructor
  · rintro ⟨q, hq, hlen⟩
    rwa [(hp.unique hq).1]
  · intro hlen
    exact ⟨p, hp, hlen⟩

/-! ### The default build -/

theorem lengthOfEncodedCompactInteger_of_lt (hv : v.toNat < 2 ^ 30) :
    (lengthOfEncodedCompactInteger T v : EStateM Exception σ ℕ) =
      pure (compactBytes v.toNat).length := by
  rw [lengthOfEncodedCompactInteger, kMinUint16_eq, kMinUint32_eq, kMinBigInteger_eq,
    length_compactBytes_of_lt hv]
  split_ifs <;> rfl

/-- The length computed for a large value of a builtin type counts its bits. -/
theorem lengthOfEncodedCompactInteger_builtin (hT : T.isIntegral) (hv : 2 ^ 30 ≤ v.toNat) :
    (lengthOfEncodedCompactInteger T v : EStateM Exception σ ℕ) =
      pure (1 + bitWidth v.toNat) := by
  rw [lengthOfEncodedCompactInteger, kMinUint16_eq, kMinUint32_eq, kMinBigInteger_eq,
    if_neg (by omega), if_neg (by omega), if_neg (by omega), if_pos hT]

/-- The length computed for a large value of one of Boost's types leaves out the header. -/
theorem lengthOfEncodedCompactInteger_big (hT : ¬ T.isIntegral) (hv : 2 ^ 30 ≤ v.toNat) :
    (lengthOfEncodedCompactInteger T v : EStateM Exception σ ℕ) =
      pure (LittleEndian.length v.toNat) := by
  have h0 : v.toNat ≠ 0 := by omega
  rw [lengthOfEncodedCompactInteger, kMinUint16_eq, kMinUint32_eq, kMinBigInteger_eq,
    if_neg (by omega), if_neg (by omega), if_neg (by omega), if_neg hT, msb_of_ne_zero h0,
    pure_bind, LittleEndian.length, if_neg h0, Nat.add_comm]

/-- The formula returns the number of bytes that are put into the stream, which is the number of
bytes taken when the compact form of the value is read, iff the value is below `2^30`. -/
theorem lengthOfEncodedCompactInteger_iff (T : CompactCompatible) (v : BitVec T.width)
    (hv : v.toNat < 2 ^ 536) :
    (∃ n, (lengthOfEncodedCompactInteger T v : Encoding ℕ) = pure n ∧
      PutsBytes (encodeCompactInteger T v) n ∧
      Reads decodeCompactInteger (compactBytes v.toNat) v.toNat ∧
      (compactBytes v.toNat).length = n) ↔ v.toNat < 2 ^ 30 := by
  constructor
  · rintro ⟨n, hformula, hputs, _, hreads⟩
    by_contra hlt
    have hle : 2 ^ 30 ≤ v.toNat := by omega
    rw [length_compactBytes_of_le hle] at hreads
    by_cases hT : T.isIntegral
    · -- a number has more bits than bytes
      rw [lengthOfEncodedCompactInteger_builtin hT hle] at hformula
      injection congrFun hformula {} with hn _
      rw [bitWidth, if_neg (by omega)] at hn
      rw [LittleEndian.length, if_neg (by omega)] at hreads
      have hlog : v.toNat.log2 ≥ 30 := (Nat.le_log2 (by omega)).mpr hle
      omega
    · -- the header has not been counted
      rw [lengthOfEncodedCompactInteger_big hT hle] at hformula
      injection congrFun hformula {} with hn _
      omega
  · intro hlt
    refine ⟨_, lengthOfEncodedCompactInteger_of_lt hlt, ?_, reads_compactBytes hv, rfl⟩
    exact ⟨_, writes_encodeCompactInteger_of_lt hlt, rfl⟩

theorem lengthOfEncodedCompactInteger_iff_uint32 :
    ∃ n, (lengthOfEncodedCompactInteger .uint32 16384 : Encoding ℕ) = pure n ∧
      PutsBytes (encodeCompactInteger .uint32 16384) n ∧
      Reads decodeCompactInteger (compactBytes 16384) 16384 ∧
      (compactBytes 16384).length = n :=
  (lengthOfEncodedCompactInteger_iff .uint32 16384 (by decide +kernel)).mpr (by decide)

/-- For `2^30` the formula returns 32 for a `uint64_t` and 4 for a `uint128_t`; five bytes are
put. -/
theorem lengthOfEncodedCompactInteger_wrong :
    lengthOfEncodedCompactInteger .uint64 (.ofNat _ (2 ^ 30)) () = .ok 32 () ∧
      (written (encodeCompactInteger .uint64 (.ofNat _ (2 ^ 30)))).length = 5 ∧
      lengthOfEncodedCompactInteger .uint128 (.ofNat _ (2 ^ 30)) () = .ok 4 () ∧
      (written (encodeCompactInteger .uint128 (.ofNat _ (2 ^ 30)))).length = 5 := by
  decide +kernel

/-! ### The JAM build -/

theorem lengthOfEncodedJamCompactInteger_builtin (hT : T.isIntegral) :
    (lengthOfEncodedJamCompactInteger T v : EStateM Exception σ ℕ) =
      pure (1 + v.toNat.log2 / 7) := by
  have hlength : (1 + (((bitWidth v.toNat : ℤ) - 1).tdiv 7)).toNat = 1 + v.toNat.log2 / 7 := by
    rcases Nat.eq_zero_or_pos v.toNat with h0 | hpos
    · rw [h0]
      rfl
    · have hcast : ((v.toNat.log2 + 1 : ℕ) : ℤ) - 1 = (v.toNat.log2 : ℤ) := by omega
      rw [bitWidth, if_neg (by omega), hcast, Int.tdiv_eq_ediv_of_nonneg (by omega)]
      omega
  rw [lengthOfEncodedJamCompactInteger, if_pos hT, hlength]

/-- Below `2^63` the quotient has not reached the class of nine bytes. -/
theorem log2_div_eq_jamTail_iff {x : ℕ} (hx : x < 2 ^ 64) :
    x.log2 / 7 = jamTail x ↔ x < 2 ^ 63 := by
  rcases Nat.eq_zero_or_pos x with rfl | hpos
  · simp [jamTail]
  · have h64 : x.log2 < 64 := (Nat.log2_lt (by omega)).mpr hx
    rw [jamTail, ← Nat.log2_lt (by omega)]
    omega

/-- The bits of the predecessor count `l` classes iff the number is at most the first one of the
class after. -/
theorem log2_pred_div_le_iff {x l : ℕ} (hx : 2 ≤ x) :
    (x - 1).log2 / 7 ≤ l ↔ x ≤ 2 ^ (7 * (l + 1)) := by
  have hlt := Nat.log2_lt (n := x - 1) (k := 7 * (l + 1)) (by omega)
  omega

/-- The numbers for which the formula for one of Boost's types is right. -/
def PredecessorHasLength (x : ℕ) : Prop :=
  2 ≤ x ∧ x ≤ 2 ^ 63 ∧ ∀ k, 1 ≤ k → k ≤ 8 → x ≠ 2 ^ (7 * k)

theorem log2_pred_div_eq_jamTail_iff {x : ℕ} (hx : 2 ≤ x) :
    (x - 1).log2 / 7 = jamTail x ↔ PredecessorHasLength x := by
  constructor
  · intro heq
    refine ⟨hx, ?_, fun k hk hk8 hpow => ?_⟩
    · have hle := (log2_pred_div_le_iff (l := 8) hx).mp (heq.trans_le (jamTail_le x))
      exact hle
    · -- the first number of a class is longer than its predecessor
      have hle := (log2_pred_div_le_iff (l := k - 1) hx).mpr (by
        rw [show k - 1 + 1 = k by omega]
        exact hpow.le)
      rw [heq, jamTail_le_iff, show k - 1 + 1 = k by omega] at hle
      omega
  · rintro ⟨_, hle, hpow⟩
    apply le_antisymm
    · rw [log2_pred_div_le_iff hx]
      rcases (jamTail_le_iff x (jamTail x)).mp le_rfl with h8 | hlt
      · have h : 2 ^ (7 * (8 + 1)) ≤ 2 ^ (7 * (jamTail x + 1)) := two_pow_le _ _ (by omega)
        exact hle.trans h
      · exact hlt.le
    · rw [jamTail_le_iff]
      have h := (log2_pred_div_le_iff (l := (x - 1).log2 / 7) hx).mp le_rfl
      have hne := hpow ((x - 1).log2 / 7 + 1) (by omega)
      omega

theorem toNat_one (T : CompactCompatible) : (1 : BitVec T.width).toNat = 1 := by
  have hwidth : T.width ≠ 0 := by cases T <;> decide
  exact Nat.mod_eq_of_lt (Nat.one_lt_two_pow hwidth)

theorem lengthOfEncodedJamCompactInteger_big (hT : ¬ T.isIntegral) (hv : 2 ≤ v.toNat) :
    (lengthOfEncodedJamCompactInteger T v : EStateM Exception σ ℕ) =
      pure (1 + (v.toNat - 1).log2 / 7) := by
  have hle : (1 : BitVec T.width) ≤ v := by
    rw [BitVec.le_def, toNat_one]
    omega
  have hpred : (v - 1).toNat = v.toNat - 1 := by
    rw [BitVec.toNat_sub_of_le hle, toNat_one]
  rw [lengthOfEncodedJamCompactInteger, if_neg hT, hpred, msb_of_ne_zero (by omega), pure_bind]

/-- Zero has no predecessor: the subtraction wraps, to a number of at least 128 bits. -/
theorem lengthOfEncodedJamCompactInteger_zero (hT : ¬ T.isIntegral) :
    ∃ n, (lengthOfEncodedJamCompactInteger T 0 : EStateM Exception σ ℕ) = pure n ∧ 19 ≤ n := by
  have hwidth := CompactCompatible.le_width_of_not_isIntegral hT
  have hpow : 2 ^ 128 ≤ 2 ^ T.width := two_pow_le _ _ hwidth
  have hwrap : (0 - 1 : BitVec T.width).toNat = 2 ^ T.width - 1 := by
    rw [BitVec.toNat_sub, toNat_one]
    show (2 ^ T.width - 1 + 0 % 2 ^ T.width) % 2 ^ T.width = 2 ^ T.width - 1
    rw [Nat.zero_mod, Nat.add_zero, Nat.mod_eq_of_lt (by omega)]
  -- all bits are set, of which there are at least 128
  have hlog : 127 ≤ (2 ^ T.width - 1).log2 := (Nat.le_log2 (by omega)).mpr (by omega)
  refine ⟨1 + (2 ^ T.width - 1).log2 / 7, ?_, by omega⟩
  rw [lengthOfEncodedJamCompactInteger, if_neg hT, hwrap, msb_of_ne_zero (by omega), pure_bind]

/-- One has the predecessor zero, of which `msb` throws. -/
theorem lengthOfEncodedJamCompactInteger_one (hT : ¬ T.isIntegral) :
    (lengthOfEncodedJamCompactInteger T 1 : EStateM Exception σ ℕ) = throw .rangeError := by
  have hzero : (1 - 1 : BitVec T.width).toNat = 0 := by
    rw [BitVec.sub_self]
    rfl
  rw [lengthOfEncodedJamCompactInteger, if_neg hT, hzero]
  rfl

/-- The formula for a value of one of Boost's types is right iff the value lies in the length class
of its predecessor. -/
theorem lengthOfEncodedJamCompactInteger_big_iff (hT : ¬ T.isIntegral) :
    (lengthOfEncodedJamCompactInteger T v : Encoding ℕ) = pure (1 + jamTail v.toNat) ↔
      PredecessorHasLength v.toNat := by
  by_cases h2 : 2 ≤ v.toNat
  · rw [lengthOfEncodedJamCompactInteger_big hT h2, ← log2_pred_div_eq_jamTail_iff h2]
    constructor
    · intro hformula
      injection congrFun hformula {} with hlog _
      omega
    · intro heq
      rw [heq]
  · refine ⟨fun hformula => ?_, fun h => absurd h.1 h2⟩
    have htail := jamTail_le v.toNat
    -- the two values that have no positive predecessor
    have h01 : v.toNat = 0 ∨ v.toNat = 1 := by omega
    rcases h01 with h0 | h1
    · have hzero : v = 0 := BitVec.eq_of_toNat_eq h0
      obtain ⟨n, hn, hle⟩ := lengthOfEncodedJamCompactInteger_zero (σ := ScaleEncoderStream) hT
      rw [hzero, hn] at hformula
      injection congrFun hformula {} with heq _
      rw [← hzero] at heq
      omega
    · have hone : v = 1 := BitVec.eq_of_toNat_eq (h1.trans (toNat_one T).symm)
      rw [hone, lengthOfEncodedJamCompactInteger_one hT] at hformula
      cases congrFun hformula {}

/-- The formula returns the number of bytes that are put into the stream iff a builtin value is
below `2^63`, and a value of one of Boost's types lies in the length class of its predecessor. -/
theorem lengthOfEncodedJamCompactInteger_iff (T : CompactCompatible) (v : BitVec T.width)
    (hv : v.toNat < 2 ^ 64) :
    (∃ n, (lengthOfEncodedJamCompactInteger T v : Encoding ℕ) = pure n ∧
      PutsBytes (encodeJamCompactInteger T v) n) ↔
    (T.isIntegral → v.toNat < 2 ^ 63) ∧ (¬ T.isIntegral → PredecessorHasLength v.toNat) := by
  have hputs : (∃ n, (lengthOfEncodedJamCompactInteger T v : Encoding ℕ) = pure n ∧
        PutsBytes (encodeJamCompactInteger T v) n) ↔
      (lengthOfEncodedJamCompactInteger T v : Encoding ℕ) = pure (1 + jamTail v.toNat) := by
    simp only [putsBytes_iff (writes_encodeJamCompactInteger hv), length_jamBytes]
    simp
  rw [hputs]
  by_cases hT : T.isIntegral
  · rw [lengthOfEncodedJamCompactInteger_builtin hT]
    have hlog := log2_div_eq_jamTail_iff hv
    constructor
    · intro hformula
      injection congrFun hformula {} with heq _
      exact ⟨fun _ => hlog.mp (by omega), fun h => absurd hT h⟩
    · intro h
      rw [hlog.mpr (h.1 hT)]
  · have hbig := lengthOfEncodedJamCompactInteger_big_iff (v := v) hT
    exact ⟨fun h => ⟨fun h' => absurd h' hT, fun _ => hbig.mp h⟩, fun h => hbig.mpr (h.2 hT)⟩

theorem lengthOfEncodedJamCompactInteger_iff_uint64 :
    ∃ n, (lengthOfEncodedJamCompactInteger .uint64 (.ofNat _ (2 ^ 62)) : Encoding ℕ) = pure n ∧
      PutsBytes (encodeJamCompactInteger .uint64 (.ofNat _ (2 ^ 62))) n :=
  (lengthOfEncodedJamCompactInteger_iff .uint64 (.ofNat _ (2 ^ 62)) (by decide +kernel)).mpr
    ⟨fun _ => by decide +kernel, fun h => absurd rfl h⟩

/-- For `2^63` as a `uint64_t` the formula returns ten, and nine bytes are put; of `uint128_t`s it
returns nineteen for zero, throws for one, and returns one for `2^7`, which takes two bytes. -/
theorem lengthOfEncodedJamCompactInteger_wrong :
    lengthOfEncodedJamCompactInteger .uint64 (.ofNat _ (2 ^ 63)) () = .ok 10 () ∧
      (written (encodeJamCompactInteger .uint64 (.ofNat _ (2 ^ 63)))).length = 9 ∧
      lengthOfEncodedJamCompactInteger .uint128 0 () = .ok 19 () ∧
      lengthOfEncodedJamCompactInteger .uint128 1 () = .error .rangeError () ∧
      lengthOfEncodedJamCompactInteger .uint128 128 () = .ok 1 () ∧
      (written (encodeJamCompactInteger .uint128 128)).length = 2 := by
  decide +kernel

end ScaleCodec
