import ScaleCodec.Compact
import ScaleCodec.Equiv.CompactForm
import ScaleCodec.Equiv.JamCompactForm

/-!
# Correctness of the JAM build's compact integers

`encodeJamCompactInteger` writes the shortest form of every value below `2^64`
(`writes_encodeJamCompactInteger`).  `decodeJamCompactInteger` takes any complete form and returns
its value unless `RefusedJam` holds (`takes_decodeJamCompactInteger`).  The refused forms are
longer than necessary; the other way round the mask of the check is one bit too narrow, so that
some forms that are longer than necessary are accepted (`JamSlip`).
-/

namespace ScaleCodec

open LittleEndian (bytes value)

/-! ### Encoding -/

/-- The prefix under construction after `k` rounds: `k` ones. -/
theorem leadByte_succ {k : ℕ} (hk : k < 8) :
    (leadByte k 0 >>> 1) ||| 0x80 = leadByte (k + 1) 0 := by
  interval_cases k <;> rfl

/-- What a prefix of `k` ones has room for. -/
theorem compl_leadByte_shr {k : ℕ} (hk : k < 8) :
    ((~~~leadByte k 0) >>> 1).toNat = 2 ^ (7 - k) - 1 := by
  interval_cases k <;> rfl

/-- Setting the value bits of a prefix. -/
theorem leadByte_or {k x : ℕ} (hk : k ≤ 8) (hx : x < 2 ^ (7 - k)) :
    leadByte k 0 ||| UInt8.ofNat x = leadByte k x := by
  have h : ∀ (k : Fin 9) (x : Fin 128), x.val < 2 ^ (7 - k.val) →
      leadByte k 0 ||| UInt8.ofNat x = leadByte k x := by decide +kernel
  have hx' : x < 128 := hx.trans_le (Nat.pow_le_pow_right (by omega) (by omega) : _ ≤ 2 ^ 7)
  exact h ⟨k, by omega⟩ ⟨x, hx'⟩ hx

/-- The loop of the encoder.  After `k` rounds the prefix has `k` ones, the `k` low bytes are
stored and the others are in `i`; it ends with the shortest form and pushes at most eight bytes. -/
theorem emits_packJam {v : ℕ} (hv : v < 2 ^ 64) (fuel k : ℕ) (hfuel : fuel + k = 8)
    (hk : k ≤ jamTail v) :
    encoderSink.Emits (packJam fuel (v / 256 ^ k) ⟨leadByte k 0, bytes k v⟩) []
      (.ok ⟨leadByte (jamTail v) (v / 256 ^ jamTail v), bytes (jamTail v) v⟩) := by
  induction fuel generalizing k with
  | zero =>
    have htail : jamTail v = k := by have := jamTail_le v; omega
    have hzero : v / 256 ^ k = 0 := by
      rw [show k = 8 by omega]
      omega
    rw [htail, hzero]
    exact Sink.emits_pure _
  | succ fuel ih =>
    rcases Nat.eq_or_lt_of_le hk with heq | hlt
    · -- the rest of the value fits into the prefix
      have hfit : v / 256 ^ k < 2 ^ (7 - k) := heq ▸ (isJamForm_jamBytes hv).lt
      have hor := leadByte_or (show k ≤ 8 by omega) hfit
      rw [← heq, packJam]
      by_cases hzero : v / 256 ^ k = 0
      · rw [if_pos hzero, hzero]
        exact Sink.emits_pure _
      · rw [if_neg hzero, compl_leadByte_shr (by omega), if_pos (by omega), hor]
        exact Sink.emits_pure _
    · -- it does not, and its low byte is pushed
      have hbig : ¬ v / 256 ^ k < 2 ^ (7 - k) := by
        rw [div_pow_lt_iff (by omega)]
        intro h
        have := (jamTail_le_iff v k).mpr (Or.inr h)
        omega
      have hpow := Nat.two_pow_pos (7 - k)
      have hbyte : UInt8.ofNat (v / 256 ^ k &&& 0xff) = UInt8.ofNat (v / 256 ^ k) := by
        apply UInt8.toNat_inj.mp
        rw [UInt8.toNat_ofNat', UInt8.toNat_ofNat', Nat.and_two_pow_sub_one_eq_mod _ 8, Nat.mod_mod]
      have hshift : (v / 256 ^ k) >>> 8 = v / 256 ^ (k + 1) := by
        rw [Nat.shiftRight_eq_div_pow, Nat.div_div_eq_div_mul, pow_succ 256 k]
      have hpush : JamScratch.push ⟨leadByte (k + 1) 0, bytes k v⟩ (UInt8.ofNat (v / 256 ^ k)) =
          pure ⟨leadByte (k + 1) 0, bytes (k + 1) v⟩ := by
        rw [JamScratch.push, JamScratch.len, LittleEndian.length_bytes, if_pos (by omega),
          LittleEndian.bytes_add k 1]
        rfl
      rw [packJam, if_neg (by omega), compl_leadByte_shr (by omega), if_neg (by omega)]
      simp only [leadByte_succ (show k < 8 by omega), hbyte, hshift, hpush]
      exact (Sink.emits_pure _).bind (ih (k + 1) (by omega) hlt)

/-- The conversion to `size_t` keeps every value that fits. -/
theorem jamValue_of_lt {T : CompactCompatible} {v : BitVec T.width} (hv : v.toNat < 2 ^ 64) :
    jamValue T v = pure v.toNat := by
  rw [jamValue, Nat.mod_eq_of_lt hv, if_neg (Nat.not_lt_zero _)]
  split_ifs with hT h0
  · rfl
  · rw [h0]
  · have hlog : v.toNat.log2 < 64 := (Nat.log2_lt h0).mpr hv
    rw [msb_of_ne_zero h0, pure_bind, if_neg (by omega)]

/-- Every value below `2^64` is encoded to its shortest form. -/
theorem writes_encodeJamCompactInteger {T : CompactCompatible} {v : BitVec T.width}
    (hv : v.toNat < 2 ^ 64) : Writes (encodeJamCompactInteger T v) (jamBytes v.toNat) := by
  rw [encodeJamCompactInteger, jamValue_of_lt hv, pure_bind]
  by_cases hlt : v.toNat < 0x80
  · have htail : jamTail v.toNat = 0 :=
      Nat.le_zero.mp ((jamTail_le_iff _ 0).mpr (Or.inr hlt))
    rw [if_pos hlt, jamBytes, htail, pow_zero, Nat.div_one, leadByte, bytes]
    rw [show 256 - 2 ^ (8 - 0) + v.toNat = v.toNat by omega]
    exact writes_putByte _
  · have hpack := emits_packJam hv 8 0 rfl (Nat.zero_le _)
    rw [pow_zero, Nat.div_one] at hpack
    rw [if_neg hlt]
    exact hpack.bind (writes_forM_putByte _)

/-- Larger values are refused before anything is written. -/
theorem encodeJamCompactInteger_too_big {T : CompactCompatible} {v : BitVec T.width}
    (hv : 2 ^ 64 ≤ v.toNat) :
    encoderSink.Emits (encodeJamCompactInteger T v) []
      (.error (.systemError (.encode .valueTooBigForCompactRepresentation))) := by
  have hT : ¬ T.isIntegral := by
    intro h
    have hpow : 2 ^ T.width ≤ 2 ^ 64 :=
      Nat.pow_le_pow_right (by omega) (CompactCompatible.width_le_of_isIntegral h)
    have hlt := v.isLt
    omega
  have h0 : v.toNat ≠ 0 := by omega
  have hlog : 64 ≤ v.toNat.log2 := (Nat.le_log2 h0).mpr hv
  have hvalue : jamValue T v = raise (.encode .valueTooBigForCompactRepresentation) := by
    rw [jamValue, if_neg hT, if_neg (Nat.not_lt_zero _), if_neg h0, msb_of_ne_zero h0, pure_bind,
      if_pos hlog]
  rw [encodeJamCompactInteger, hvalue]
  exact (emits_raise _).bind_error

/-! ### Decoding -/

/-- The masks of the decoder before round `i`, over the first byte `b`. -/
theorem valMask_shr {i : ℕ} (hi : i < 8) :
    UInt8.ofNat (2 ^ (8 - i) - 1) >>> 1 = UInt8.ofNat (2 ^ (7 - i) - 1) := by
  interval_cases i <;> rfl

theorem valBits_and (b : ℕ) {i : ℕ} (hi : i < 8) :
    UInt8.ofNat (b % 2 ^ (8 - i)) &&& UInt8.ofNat (2 ^ (7 - i) - 1) =
      UInt8.ofNat (b % 2 ^ (7 - i)) := by
  have hlt : 2 ^ (7 - i) < 2 ^ 8 := Nat.pow_lt_pow_right (by decide) (by omega)
  have hdvd : 2 ^ (7 - i) ∣ 2 ^ 8 := Nat.pow_dvd_pow 2 (by omega)
  have hdvd' : 2 ^ (7 - i) ∣ 2 ^ (8 - i) := Nat.pow_dvd_pow 2 (by omega)
  have hmod : b % 2 ^ (7 - i) < 2 ^ (7 - i) := Nat.mod_lt _ (Nat.two_pow_pos _)
  apply UInt8.toNat_inj.mp
  rw [UInt8.toNat_and, UInt8.toNat_ofNat', UInt8.toNat_ofNat', UInt8.toNat_ofNat',
    Nat.mod_eq_of_lt (show 2 ^ (7 - i) - 1 < 2 ^ 8 by omega), Nat.and_two_pow_sub_one_eq_mod,
    Nat.mod_mod_of_dvd _ hdvd, Nat.mod_mod_of_dvd _ hdvd', Nat.mod_eq_of_lt (hmod.trans hlt)]

theorem lenBits_shl (b i : ℕ) :
    UInt8.ofNat (b * 2 ^ i) <<< 1 = UInt8.ofNat (b * 2 ^ (i + 1)) := by
  have hdouble : b * 2 ^ (i + 1) = b * 2 ^ i * 2 := by rw [Nat.pow_succ, Nat.mul_assoc]
  apply UInt8.toNat_inj.mp
  rw [UInt8.toNat_shiftLeft, UInt8.toNat_ofNat', UInt8.toNat_ofNat', hdouble]
  show (b * 2 ^ i % 256) <<< 1 % 256 = b * 2 ^ i * 2 % 256
  rw [Nat.shiftLeft_eq]
  omega

/-- The length bits are used up after as many rounds as the first byte has leading ones. -/
theorem lenBits_and {l x i : ℕ} (hl : l ≤ 8) (hx : x < 2 ^ (7 - l)) (hi : i < 8) (hil : i ≤ l) :
    UInt8.ofNat ((leadByte l x).toNat * 2 ^ i) &&& 0x80 = 0 ↔ i = l := by
  have h : ∀ (l : Fin 9) (x : Fin 128) (i : Fin 8), x.val < 2 ^ (7 - l.val) → i.val ≤ l.val →
      (UInt8.ofNat ((leadByte l x).toNat * 2 ^ i.val) &&& 0x80 = 0 ↔ i.val = l.val) := by
    decide +kernel
  have hx' : x < 128 := hx.trans_le (Nat.pow_le_pow_right (by omega) (by omega) : _ ≤ 2 ^ 7)
  exact h ⟨l, by omega⟩ ⟨x, hx'⟩ ⟨i, hi⟩ hx hil

/-- What is left of the first byte when its leading ones are masked out. -/
theorem toNat_leadByte_mod {l x : ℕ} (hl : l ≤ 8) (hx : x < 2 ^ (7 - l)) :
    (leadByte l x).toNat % 2 ^ (7 - l) = x := by
  rw [toNat_leadByte hl hx]
  interval_cases l <;> simp at hx ⊢ <;> omega

/-- The state of the decoding loop before round `i`, over the first byte `b`. -/
def jamState (b : UInt8) (i : ℕ) (byte : UInt8) (value : ℕ) : JamState where
  lenBits := UInt8.ofNat (b.toNat * 2 ^ i)
  valBits := UInt8.ofNat (b.toNat % 2 ^ (8 - i))
  valMask := UInt8.ofNat (2 ^ (8 - i) - 1)
  byte := byte
  value := value

/-- One round, while length bits are left. -/
theorem unpackJam_step {l x i : ℕ} (hl : l ≤ 8) (hx : x < 2 ^ (7 - l)) (hi : i < l) (byte : UInt8)
    (v : ℕ) :
    unpackJam (8 - i) i (jamState (leadByte l x) i byte v) = (do
      let c ← nextByte
      unpackJam (8 - (i + 1)) (i + 1)
        (jamState (leadByte l x) (i + 1) c (v ||| (c.toNat <<< (8 * i)) % 2 ^ 64))) := by
  have h7 : i < 8 := by omega
  have h87 : 8 - (i + 1) = 7 - i := by omega
  rw [show 8 - i = 7 - i + 1 by omega, unpackJam]
  simp only [jamState, h87, valMask_shr h7, valBits_and _ h7, lenBits_shl,
    lenBits_and hl hx h7 hi.le, if_neg hi.ne]

/-- The loop ends when they are used up, or after eight rounds. -/
theorem unpackJam_stop {l x : ℕ} (hl : l ≤ 8) (hx : x < 2 ^ (7 - l)) (byte : UInt8) {v : ℕ}
    (hv : v < 256 ^ l) :
    unpackJam (8 - l) l (jamState (leadByte l x) l byte v) = pure
      { lenBits := UInt8.ofNat ((leadByte l x).toNat * 2 ^ l)
        valBits := UInt8.ofNat x
        valMask := UInt8.ofNat (2 ^ (7 - l) - 1)
        byte := byte
        value := v + 256 ^ l * x } := by
  rcases Nat.lt_or_ge l 8 with h7 | h8
  · -- the loop is left by its break, and adds the bits of the first byte on top
    have hmul : 256 ^ l * x < 2 ^ 64 := by
      have hlt : 256 ^ l * x < 256 ^ l * 2 ^ (7 - l) :=
        Nat.mul_lt_mul_of_pos_left hx (Nat.pow_pos (by omega))
      have hpow : 256 ^ l * 2 ^ (7 - l) ≤ 2 ^ 64 := by
        rw [LittleEndian.pow256_eq, ← pow_add]
        exact Nat.pow_le_pow_right (by omega) (by omega)
      omega
    have hx256 : x < 256 :=
      hx.trans_le (Nat.pow_le_pow_right (by omega) (by omega) : _ ≤ 2 ^ 8)
    rw [show 8 - l = 7 - l + 1 by omega, unpackJam]
    simp only [jamState, valMask_shr h7, valBits_and _ h7, toNat_leadByte_mod hl hx,
      lenBits_and hl hx h7 le_rfl, if_true, toNat_ofNat_of_lt hx256,
      LittleEndian.or_shiftLeft_mod hv hmul]
  · -- the loop has run out, and no bits are left in the first byte
    obtain rfl : l = 8 := by omega
    obtain rfl : x = 0 := by omega
    rfl

/-- The loop of the decoder takes the following bytes, and leaves the bits of the first byte that
belong to the value, the mask of these, the last byte read and the value. -/
theorem reads_unpackJam {l x : ℕ} (hl : l ≤ 8) (hx : x < 2 ^ (7 - l)) (q : List UInt8) (i : ℕ)
    (hi : i + q.length = l) (byte : UInt8) (v : ℕ) (hv : v < 256 ^ i) :
    Reads (unpackJam (8 - i) i (jamState (leadByte l x) i byte v)) q
      { lenBits := UInt8.ofNat ((leadByte l x).toNat * 2 ^ l)
        valBits := UInt8.ofNat x
        valMask := UInt8.ofNat (2 ^ (7 - l) - 1)
        byte := q.getLastD byte
        value := v + 256 ^ i * (value q + 256 ^ q.length * x) } := by
  induction q generalizing i byte v with
  | nil =>
    obtain rfl : i = l := by simpa using hi
    rw [unpackJam_stop hl hx byte hv, LittleEndian.value_nil, List.length_nil, pow_zero,
      Nat.one_mul, Nat.zero_add]
    exact Source.reads_pure _
  | cons c q ih =>
    rw [List.length_cons] at hi
    have hc := c.toNat_lt
    have hle : 256 ^ i * (c.toNat + 1) ≤ 256 ^ (i + 1) := by
      rw [pow_succ]
      exact Nat.mul_le_mul_left _ hc
    have hpow : 256 ^ (i + 1) ≤ 2 ^ 64 := by
      rw [LittleEndian.pow256_eq]
      exact Nat.pow_le_pow_right (by omega) (by omega)
    have hpos := Nat.pow_pos (n := i) (show 0 < 256 by omega)
    rw [Nat.mul_add, Nat.mul_one] at hle
    have hstep := ih (i + 1) (by omega) c (v + 256 ^ i * c.toNat) (by omega)
    have hvalue : v + 256 ^ i * c.toNat + 256 ^ (i + 1) * (value q + 256 ^ q.length * x) =
        v + 256 ^ i * (value (c :: q) + 256 ^ (c :: q).length * x) := by
      rw [LittleEndian.value_cons, List.length_cons, pow_succ 256 i, pow_succ 256 q.length]
      ring
    rw [hvalue] at hstep
    rw [unpackJam_step hl hx (by omega), List.getLastD_cons]
    refine (reads_nextByte c).bind ?_
    rw [LittleEndian.or_shiftLeft_mod hv (by omega)]
    exact hstep

/-- With fewer bytes than announced the loop runs into the end of the stream. -/
theorem unpackJam_of_short {l x : ℕ} (hl : l ≤ 8) (hx : x < 2 ^ (7 - l)) (q : List UInt8) (i : ℕ)
    (hi : i + q.length < l) (byte : UInt8) (v : ℕ) {s : ScaleDecoderStream} (hs : s.Valid)
    (hq : s.remaining = q) :
    ∃ s', unpackJam (8 - i) i (jamState (leadByte l x) i byte v) s =
      .error (.systemError (.decode .notEnoughData)) s' := by
  induction q generalizing i byte v s with
  | nil =>
    rw [unpackJam_step hl hx (by omega), EStateM.bind_error (nextByte_nil hs hq)]
    exact ⟨_, rfl⟩
  | cons c q ih =>
    rw [List.length_cons] at hi
    rw [unpackJam_step hl hx (by omega), EStateM.bind_ok (nextByte_cons hs hq)]
    refine ih (i + 1) (by omega) _ _ (ScaleDecoderStream.valid_advance hs ?_) ?_
    · rw [hq, List.length_cons]
      omega
    · rw [ScaleDecoderStream.remaining_advance, hq, List.drop_one, List.tail_cons]

/-- The forms the check for redundancy refuses. -/
def RefusedJam (l x : ℕ) (q : List UInt8) : Prop :=
  1 ≤ l ∧ x = 0 ∧ (lastByte q).toNat < 2 ^ (7 - l)

instance (l x : ℕ) (q : List UInt8) : Decidable (RefusedJam l x q) :=
  inferInstanceAs (Decidable (_ ∧ _ ∧ _))

/-- What becomes of a form. -/
def jamResult (l x : ℕ) (q : List UInt8) : Except Exception ℕ :=
  if RefusedJam l x q then .error (.systemError (.decode .redundantCompactEncoding))
  else .ok (jamFormValue l x q)

/-- The check compares the last byte read with the mask the loop left. -/
theorem and_compl_valMask {c l : ℕ} (hc : c < 256) (hl : l ≤ 8) :
    UInt8.ofNat c &&& ~~~UInt8.ofNat (2 ^ (7 - l) - 1) = 0 ↔ c < 2 ^ (7 - l) := by
  have h : ∀ (c : Fin 256) (l : Fin 9),
      UInt8.ofNat c.val &&& ~~~UInt8.ofNat (2 ^ (7 - l.val) - 1) = 0 ↔ c.val < 2 ^ (7 - l.val) := by
    decide +kernel
  exact h ⟨c, hc⟩ ⟨l, by omega⟩

/-- The decoder enters its loop with the first byte in every place. -/
theorem decodeJamCompactInteger_eq : decodeJamCompactInteger = (do
    let byte ← nextByte
    if byte = 0 then pure 0
    else do
      let st ← unpackJam (8 - 0) 0 (jamState byte 0 byte 0)
      if st.valBits = 0 ∧ st.byte &&& ~~~st.valMask = 0 then
        raise (.decode .redundantCompactEncoding)
      else
        pure st.value) := by
  have hstate : ∀ byte : UInt8, jamState byte 0 byte 0 =
      { lenBits := byte, valBits := byte, valMask := 0xff, byte := byte, value := 0 } := by
    intro byte
    have hb := byte.toNat_lt
    rw [jamState, pow_zero, Nat.mul_one, Nat.mod_eq_of_lt (by omega), UInt8.ofNat_toNat]
    rfl
  simp only [hstate]
  rfl

/-- The check after the loop refuses a form iff it is one of the refused ones. -/
theorem check_iff_refusedJam {l x : ℕ} {q : List UInt8} (h : IsJamForm l x q)
    (h0 : leadByte l x ≠ 0) :
    (UInt8.ofNat x = 0 ∧
      q.getLastD (leadByte l x) &&& ~~~UInt8.ofNat (2 ^ (7 - l) - 1) = 0) ↔ RefusedJam l x q := by
  have hlen := h.length_eq
  have hx256 : x < 256 := h.lt.trans_le (Nat.pow_le_pow_right (by omega) (by omega) : _ ≤ 2 ^ 8)
  have hvalBits : UInt8.ofNat x = 0 ↔ x = 0 := by
    rw [← UInt8.toNat_inj, toNat_ofNat_of_lt hx256, UInt8.toNat_zero]
  rw [hvalBits, RefusedJam]
  cases q with
  | nil =>
    -- the first byte itself is the last one read, and all of its bits belong to the value
    obtain rfl : l = 0 := by simpa using hlen.symm
    have hne : x ≠ 0 := by
      rintro rfl
      exact h0 rfl
    simp [hne]
  | cons c q =>
    rw [List.getLastD_cons, lastByte, List.getLastD_cons,
      ← and_compl_valMask (UInt8.toNat_lt _) h.le, UInt8.ofNat_toNat]
    rw [List.length_cons] at hlen
    exact ⟨fun h => ⟨by omega, h⟩, fun h => h.2⟩

/-- The decoder takes every complete form, and returns its value or refuses it. -/
theorem takes_decodeJamCompactInteger {l x : ℕ} {q : List UInt8} (h : IsJamForm l x q) :
    Takes decodeJamCompactInteger (leadByte l x :: q) (jamResult l x q) := by
  have hlen := h.length_eq
  rw [decodeJamCompactInteger_eq]
  refine (reads_nextByte _).bind ?_
  by_cases h0 : leadByte l x = 0
  · obtain ⟨rfl, rfl⟩ := (leadByte_eq_zero_iff h.le h.lt).mp h0
    obtain rfl : q = [] := List.length_eq_zero_iff.mp hlen
    rw [if_pos h0]
    exact Source.reads_pure _
  · have hloop := reads_unpackJam h.le h.lt q 0 (by omega) (leadByte l x) 0 (by omega)
    rw [pow_zero, Nat.one_mul, Nat.zero_add, hlen] at hloop
    rw [if_neg h0]
    refine hloop.bind_nil ?_
    simp only [check_iff_refusedJam h h0, jamResult]
    split_ifs
    · exact takes_raise _
    · exact Source.reads_pure _

/-- An input too short for the form it starts with. -/
def JamTooShort (rest : List UInt8) : Prop :=
  ∀ l x q, l ≤ 8 → x < 2 ^ (7 - l) → rest = leadByte l x :: q → q.length < l

/-- An input that is too short is refused for that reason. -/
theorem decodeJamCompactInteger_of_tooShort {s : ScaleDecoderStream} (hs : s.Valid)
    (h : JamTooShort s.remaining) :
    ∃ s', decodeJamCompactInteger s = .error (.systemError (.decode .notEnoughData)) s' := by
  cases hr : s.remaining with
  | nil => exact ⟨s, EStateM.bind_error (nextByte_nil hs hr)⟩
  | cons b q =>
    obtain ⟨l, x, hl, hx, rfl⟩ := exists_leadByte b
    have hlt := h l x q hl hx hr
    have hs1 : (s.advance 1).Valid := ScaleDecoderStream.valid_advance hs (by rw [hr]; simp)
    have hr1 : (s.advance 1).remaining = q := by
      rw [ScaleDecoderStream.remaining_advance, hr]; rfl
    obtain ⟨s', hs'⟩ := unpackJam_of_short hl hx q 0 (by omega) (leadByte l x) 0 hs1 hr1
    have h0 : leadByte l x ≠ 0 := by
      intro h0
      have hl0 := ((leadByte_eq_zero_iff hl hx).mp h0).1
      omega
    rw [decodeJamCompactInteger_eq, EStateM.bind_ok (nextByte_cons hs hr), if_neg h0]
    exact ⟨s', EStateM.bind_error hs'⟩

/-- What the decoder does with any input, at any position of a stream. -/
theorem decodeJamCompactInteger_cases {s : ScaleDecoderStream} (hs : s.Valid) :
    (∃ s', decodeJamCompactInteger s = .error (.systemError (.decode .notEnoughData)) s') ∨
    ∃ l x q, IsJamForm l x q ∧ leadByte l x :: q <+: s.remaining ∧
      ((RefusedJam l x q ∧ decodeJamCompactInteger s =
          .error (.systemError (.decode .redundantCompactEncoding)) (s.advance (1 + l))) ∨
        (¬ RefusedJam l x q ∧
          decodeJamCompactInteger s = .ok (jamFormValue l x q) (s.advance (1 + l)))) := by
  by_cases hshort : JamTooShort s.remaining
  · exact Or.inl (decodeJamCompactInteger_of_tooShort hs hshort)
  · unfold JamTooShort at hshort
    push Not at hshort
    obtain ⟨l, x, q, hl, hx, hr, hlen⟩ := hshort
    have hform : IsJamForm l x (q.take l) := ⟨hl, hx, by rw [List.length_take]; omega⟩
    have hpre : leadByte l x :: q.take l <+: s.remaining := by
      rw [hr]
      exact (List.prefix_cons_inj _).mpr (List.take_prefix l q)
    have htakes := takes_decodeJamCompactInteger hform
    have hsize : (leadByte l x :: q.take l).length = 1 + l := by
      rw [List.length_cons, hform.length_eq, Nat.add_comm]
    refine Or.inr ⟨l, x, q.take l, hform, hpre, ?_⟩
    unfold jamResult at htakes
    split_ifs at htakes with href
    · exact Or.inl ⟨href, by rw [htakes s hs hpre, ← hsize]; rfl⟩
    · exact Or.inr ⟨href, by rw [htakes s hs hpre, ← hsize]; rfl⟩

/-- Only numbers below `2^64` are returned. -/
theorem decodeJamCompactInteger_lt {s s' : ScaleDecoderStream} (hs : s.Valid) {v : ℕ}
    (h : decodeJamCompactInteger s = .ok v s') : v < 2 ^ 64 := by
  rcases decodeJamCompactInteger_cases hs with ⟨_, h'⟩ | ⟨l, x, q, hform, _, ⟨_, h'⟩ | ⟨_, h'⟩⟩
  · rw [h'] at h; cases h
  · rw [h'] at h; cases h
  · rw [h'] at h
    injection h with h1 _
    rw [← h1]
    exact jamFormValue_lt hform

/-! ### Encoding, then decoding -/

/-- Only forms that are longer than necessary are refused. -/
theorem RefusedJam.lt {l x : ℕ} {q : List UInt8} (hform : IsJamForm l x q)
    (h : RefusedJam l x q) : jamFormValue l x q < 2 ^ (7 * l) := by
  obtain ⟨hl, hx, hlast⟩ := h
  exact (jamFormValue_lt_iff hform hl).mpr
    ⟨hx, hlast.trans_le (Nat.pow_le_pow_right (by omega) (by omega))⟩

/-- The shortest form of a number is read back as that number. -/
theorem reads_jamBytes {v : ℕ} (hv : v < 2 ^ 64) :
    Reads decodeJamCompactInteger (jamBytes v) v := by
  have hform := isJamForm_jamBytes hv
  have htakes := takes_decodeJamCompactInteger hform
  have hnot : ¬ RefusedJam (jamTail v) (v / 256 ^ jamTail v) (bytes (jamTail v) v) := by
    intro href
    have hl := href.1
    have hlt := href.lt hform
    rw [jamFormValue_jamBytes] at hlt
    have hle := (jamTail_le_iff v (jamTail v - 1)).mpr
      (Or.inr (by rwa [show jamTail v - 1 + 1 = jamTail v by omega]))
    omega
  rwa [jamResult, if_neg hnot, jamFormValue_jamBytes] at htakes

/-- A value below `2^64`, of whatever type, is encoded in `1 + l` bytes for the least `l` that
suffices, without an access outside of the scratch array, and is read back; larger values are
refused with nothing written. -/
theorem jamCompactInteger_roundTrip (T : CompactCompatible) (v : BitVec T.width) :
    (v.toNat < 2 ^ 64 → ∃ l p, IsLeast {l | l = 8 ∨ v.toNat < 2 ^ (7 * (l + 1))} l ∧
      p.length = 1 + l ∧ Writes (encodeJamCompactInteger T v) p ∧
      Reads decodeJamCompactInteger p v.toNat) ∧
    (2 ^ 64 ≤ v.toNat → ∀ s, encodeJamCompactInteger T v s =
      .error (.systemError (.encode .valueTooBigForCompactRepresentation)) s) := by
  refine ⟨fun hv => ⟨jamTail v.toNat, jamBytes v.toNat, isLeast_jamTail _, length_jamBytes _,
    writes_encodeJamCompactInteger hv, reads_jamBytes hv⟩, fun hv s => ?_⟩
  have h := encodeJamCompactInteger_too_big hv s
  rwa [encoderSink.put_nil] at h

/-! ### Redundant forms -/

/-- Whatever is decoded at `s`, the bytes consumed are those the encoder writes for it. -/
def JamCanonicalAt (s : ScaleDecoderStream) : Prop :=
  ∀ v s', decodeJamCompactInteger s = .ok v s' →
    v < 2 ^ 64 ∧ ∃ p, Consumed s p s' ∧ ∀ (T : CompactCompatible) (n : BitVec T.width),
      n.toNat = v → Writes (encodeJamCompactInteger T n) p

/-- A form that is longer than necessary is refused at `s`. -/
def RefusesRedundantAt (s : ScaleDecoderStream) : Prop :=
  ∀ l x q, IsJamForm l x q → 1 ≤ l → jamFormValue l x q < 2 ^ (7 * l) →
    leadByte l x :: q <+: s.remaining →
    ∃ s', decodeJamCompactInteger s =
      .error (.systemError (.decode .redundantCompactEncoding)) s'

/-- The input starts with a form of at most seven following bytes whose first byte holds no bits of
the value, and whose last byte has exactly `8 - l` significant bits: the form with one following
byte fewer would do, but the mask of the check covers `7 - l` bits only. -/
def JamSlip (rest : List UInt8) : Prop :=
  ∃ l q, 1 ≤ l ∧ l ≤ 7 ∧ q.length = l ∧ leadByte l 0 :: q <+: rest ∧
    2 ^ (7 - l) ≤ (lastByte q).toNat ∧ (lastByte q).toNat < 2 ^ (8 - l)

/-- Outside of the slip, the forms that are longer than necessary are the refused ones. -/
theorem refusedJam_iff_of_not_slip {rest : List UInt8} (hslip : ¬ JamSlip rest) {l x : ℕ}
    {q : List UInt8} (h : IsJamForm l x q) (hp : leadByte l x :: q <+: rest) (hl : 1 ≤ l) :
    RefusedJam l x q ↔ jamFormValue l x q < 2 ^ (7 * l) := by
  refine ⟨fun href => href.lt h, fun hlt => ?_⟩
  obtain ⟨rfl, hlast⟩ := (jamFormValue_lt_iff h hl).mp hlt
  refine ⟨hl, rfl, ?_⟩
  by_contra hge
  rcases Nat.lt_or_ge l 8 with h7 | h8
  · exact hslip ⟨l, q, hl, by omega, h.length_eq, hp, by omega, hlast⟩
  · obtain rfl : l = 8 := by have := h.le; omega
    omega

/-- The slip is the only way past the check. -/
theorem refusesRedundantAt_iff {s : ScaleDecoderStream} (hs : s.Valid) :
    RefusesRedundantAt s ↔ ¬ JamSlip s.remaining := by
  constructor
  · rintro hrefuses ⟨l, q, hl, hl7, hlen, hp, hlo, hhi⟩
    have hform : IsJamForm l 0 q := ⟨by omega, Nat.two_pow_pos _, hlen⟩
    have hlt := (jamFormValue_lt_iff hform hl).mpr ⟨rfl, hhi⟩
    obtain ⟨s', herr⟩ := hrefuses l 0 q hform hl hlt hp
    have htakes := takes_decodeJamCompactInteger hform
    rw [jamResult, if_neg (fun h => by have := h.2.2; omega)] at htakes
    rw [htakes s hs hp] at herr
    cases herr
  · intro hslip l x q hform hl hlt hp
    have htakes := takes_decodeJamCompactInteger hform
    rw [jamResult, if_pos ((refusedJam_iff_of_not_slip hslip hform hp hl).mpr hlt)] at htakes
    exact ⟨_, htakes s hs hp⟩

/-- Outside of the slip, what is accepted is the shortest form of the value returned. -/
theorem jamCanonicalAt_of_not_slip {s : ScaleDecoderStream} (hs : s.Valid)
    (hslip : ¬ JamSlip s.remaining) : JamCanonicalAt s := by
  intro v s' hok
  refine ⟨decodeJamCompactInteger_lt hs hok, ?_⟩
  rcases decodeJamCompactInteger_cases hs with
    ⟨_, h'⟩ | ⟨l, x, q, hform, hp, ⟨_, h'⟩ | ⟨hnot, h'⟩⟩
  · rw [h'] at hok; cases hok
  · rw [h'] at hok; cases hok
  · rw [h'] at hok
    injection hok with h1 h2
    subst h1 h2
    have hshort : l = 0 ∨ 2 ^ (7 * l) ≤ jamFormValue l x q := by
      rcases Nat.eq_zero_or_pos l with h0 | hl
      · exact Or.inl h0
      · rw [refusedJam_iff_of_not_slip hslip hform hp hl] at hnot
        exact Or.inr (by omega)
    refine ⟨leadByte l x :: q, ⟨hp, ?_⟩, fun T n hn => ?_⟩
    · rw [List.length_cons, hform.length_eq, Nat.add_comm]
      rfl
    · have hw := writes_encodeJamCompactInteger (T := T) (v := n)
        (by rw [hn]; exact jamFormValue_lt hform)
      rwa [hn, jamBytes_formValue hform hshort] at hw

/-- At a position of a stream the decoder accepts only what the encoder writes, and refuses what is
longer than necessary, iff the input there is no slip. -/
theorem jamCompactInteger_canonical_iff {s : ScaleDecoderStream} (hs : s.Valid) :
    JamCanonicalAt s ∧ RefusesRedundantAt s ↔ ¬ JamSlip s.remaining := by
  rw [refusesRedundantAt_iff hs]
  exact ⟨fun h => h.2, fun hslip => ⟨jamCanonicalAt_of_not_slip hs hslip, hslip⟩⟩

/-- A stream over the canonical form of `300`, where nothing slips. -/
theorem jamCompactInteger_canonical_iff_300 :
    (ScaleDecoderStream.ofSpan ⟨[0x81, 0x2c], by decide⟩).Valid ∧
      (JamCanonicalAt (.ofSpan ⟨[0x81, 0x2c], by decide⟩) ∧
          RefusesRedundantAt (.ofSpan ⟨[0x81, 0x2c], by decide⟩) ↔
        ¬ JamSlip [0x81, 0x2c]) :=
  ⟨by decide, jamCompactInteger_canonical_iff (by decide)⟩

/-- `80 40` is accepted as `64`, which the encoder writes as `40`. -/
theorem jamCompactInteger_slip :
    decodeJamCompactInteger (.ofSpan ⟨[0x80, 0x40], by decide⟩) =
        .ok 64 ⟨⟨[0x80, 0x40], by decide⟩, 2⟩ ∧
      written (encodeJamCompactInteger .uint128 64) = [0x40] ∧
      ¬ (JamCanonicalAt (.ofSpan ⟨[0x80, 0x40], by decide⟩) ∧
        RefusesRedundantAt (.ofSpan ⟨[0x80, 0x40], by decide⟩)) := by
  refine ⟨by rfl, by rfl, fun h => ?_⟩
  have hform : IsJamForm 1 0 [0x40] := ⟨by decide, by decide, rfl⟩
  obtain ⟨s', herr⟩ := h.2 1 0 [0x40] hform le_rfl (by decide) ⟨[], rfl⟩
  cases herr

end ScaleCodec
