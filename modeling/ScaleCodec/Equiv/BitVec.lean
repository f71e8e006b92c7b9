import ScaleCodec.ScaleType
import ScaleCodec.Equiv.Compact
import ScaleCodec.Lib.BitPacking

/-!
# The bits of a `BitVec`

Encoder and decoder carry a byte from one round of their loops to the next.  The encoder's invariant
is that this byte holds the bits since the last byte was put (`writes_encodeBits`), the decoder's
that it is the last byte taken, so that the bits still to come are those of this byte and of the
remaining bytes (`decodeBits_eq`).
-/

namespace ScaleCodec

open BitPacking

variable {b : Build}

/-! ### Encoding -/

/-- The bits of a byte under construction: those it has, the next one, and none behind it. -/
theorem testBit_setBit {byte : UInt8} {r : ℕ} (hr : r < 8) (hbyte : byte.toNat < 2 ^ r) (bit : Bool)
    (m : ℕ) :
    (if bit then byte ||| UInt8.ofNat (1 <<< r) else byte).toNat.testBit m =
      if m < r then byte.toNat.testBit m else if m = r then bit else false := by
  have hpow : 2 ^ r ≤ 2 ^ 7 := Nat.pow_le_pow_right (by omega) (by omega)
  have hone : (UInt8.ofNat (1 <<< r)).toNat = 2 ^ r := by
    rw [UInt8.toNat_ofNat', Nat.one_shiftLeft, Nat.mod_eq_of_lt (by omega)]
  have hhigh : ∀ m, r ≤ m → byte.toNat.testBit m = false := fun m hm =>
    Nat.testBit_lt_two_pow (hbyte.trans_le (Nat.pow_le_pow_right (by omega) hm))
  cases bit with
  | false =>
    simp only [Bool.false_eq_true, if_false, ite_self]
    split_ifs with hm
    · rfl
    · exact hhigh m (by omega)
  | true =>
    rw [if_pos rfl, UInt8.toNat_or, hone, Nat.testBit_or, Nat.testBit_two_pow]
    split_ifs with hm hmr
    · simp [show r ≠ m by omega]
    · simp [hmr]
    · simp [hhigh m (by omega), show r ≠ m by omega]

/-- The encoder puts the bits it holds, `i % 8` of them, and those to come. -/
theorem writes_encodeBits (bits : List Bool) (i : ℕ) (byte : UInt8)
    (hbyte : byte.toNat < 2 ^ (i % 8)) :
    ∃ out, Writes (encodeBits bits i byte) out ∧ out.length = (i % 8 + bits.length + 7) / 8 ∧
      ∀ m, bitAt out m =
        if m < i % 8 then byte.toNat.testBit m else bits.getD (m - i % 8) false := by
  have hhigh : ∀ m, i % 8 ≤ m → byte.toNat.testBit m = false := fun m hm =>
    Nat.testBit_lt_two_pow (hbyte.trans_le (Nat.pow_le_pow_right (by omega) hm))
  induction bits generalizing i byte with
  | nil =>
    unfold encodeBits
    by_cases hi : i % 8 = 0
    · rw [if_neg (by omega)]
      refine ⟨[], writes_pure, by simp [hi], fun m => ?_⟩
      simp [hi]
    · rw [if_pos hi]
      refine ⟨[byte], writes_putByte byte, ?_, fun m => ?_⟩
      · simp only [List.length_singleton, List.length_nil]
        omega
      · rw [bitAt_cons, bitAt_nil, List.getD_nil]
        split_ifs with h8 hm
        · rfl
        · exact hhigh m (by omega)
        · omega
        · rfl
  | cons bit bits ih =>
    have hr : i % 8 < 8 := Nat.mod_lt _ (by omega)
    have hset := testBit_setBit hr hbyte bit
    have hnext : ∀ m, i % 8 < m → (bit :: bits).getD (m - i % 8) false =
        bits.getD (m - (i % 8 + 1)) false := by
      intro m hm
      have hsub : m - i % 8 = m - (i % 8 + 1) + 1 := by omega
      rw [hsub, List.getD_cons_succ]
    unfold encodeBits
    dsimp only
    by_cases hlast : (i + 1) % 8 = 0
    · -- the byte is complete, and the next one has no bits yet
      have hr7 : i % 8 = 7 := by omega
      obtain ⟨out, hw, hlen, hbit⟩ := ih (i + 1) 0 (by rw [hlast]; decide) (by simp)
      rw [if_pos hlast]
      refine ⟨_ :: out, (writes_putByte _).bind hw, ?_, fun m => ?_⟩
      · rw [List.length_cons, List.length_cons, hlen, hlast, hr7]
        omega
      · rw [bitAt_cons, hset, hbit, hlast]
        rcases Nat.lt_trichotomy m (i % 8) with hm | hm | hm
        · rw [if_pos (by omega), if_pos hm, if_pos hm]
        · rw [if_pos (by omega), if_neg (by omega), if_pos hm, if_neg (by omega), hm]
          simp
        · rw [if_neg (by omega), if_neg (by omega), if_neg (by omega), hnext m hm, hr7]
          rfl
    · have hr1 : (i + 1) % 8 = i % 8 + 1 := by omega
      have hset' : ∀ m, (i + 1) % 8 ≤ m → _ = false := fun m hm =>
        (hset m).trans (by rw [if_neg (by omega), if_neg (by omega)])
      obtain ⟨out, hw, hlen, hbit⟩ := ih (i + 1) _ (Nat.lt_pow_two_of_testBit _ hset') hset'
      rw [if_neg hlast]
      refine ⟨out, hw, ?_, fun m => ?_⟩
      · rw [hlen, hr1, List.length_cons]
        omega
      · rw [hbit, hset, hr1]
        rcases Nat.lt_trichotomy m (i % 8) with hm | hm | hm
        · rw [if_pos (by omega), if_pos hm, if_pos hm]
        · rw [if_pos (by omega), if_neg (by omega), if_pos hm, if_neg (by omega), hm]
          simp
        · rw [if_neg (by omega), if_neg (by omega), hnext m hm]

theorem packs_encodeBits (bits : List Bool) :
    ∃ body, Writes (encodeBits bits 0 0) body ∧ Packs bits body := by
  obtain ⟨body, hw, hlen, hbit⟩ := writes_encodeBits bits 0 0 (by decide)
  refine ⟨body, hw, ?_, fun j k hk => ?_⟩
  · rw [hlen]
    simp
  · rw [← bitAt_mul_add body j hk, hbit]
    simp

/-- The length prefix is always written, also where it is not read back. -/
theorem exists_writes_encodeLength (b : Build) (n : ℕ) : ∃ pre, Writes (encodeLength b n) pre := by
  have h64 := (BitVec.ofNat CompactCompatible.size.width n).isLt
  cases b with
  | jam => exact ⟨_, writes_encodeJamCompactInteger (T := .size) h64⟩
  | default =>
    by_cases h30 : (BitVec.ofNat CompactCompatible.size.width n).toNat < 2 ^ 30
    · exact ⟨_, writes_encodeCompactInteger_of_lt (T := .size) h30⟩
    · exact ⟨_, writes_encodeCompactInteger_builtin (T := .size) rfl (by omega)⟩

/-! ### Decoding -/

/-- The bytes that the bits from `i` on are taken from: those that remain, after the last byte taken
unless all of its bits have been used. -/
def bitSource (i : ℕ) (byte : UInt8) (s : ScaleDecoderStream) : List UInt8 :=
  if i % 8 = 0 then s.remaining else byte :: s.remaining

theorem decodeBits_succ (n i : ℕ) (byte : UInt8) :
    decodeBits (n + 1) i byte =
      (if i % 8 = 0 then nextByte else pure byte : Decoding UInt8) >>= fun next =>
        decodeBits n (i + 1) next >>= fun bits =>
          pure (decide (next.toNat >>> (i % 8) &&& 1 ≠ 0) ::ᵥ bits) := by
  show (if i % 8 = 0 then nextByte >>= _ else pure byte >>= _) = _
  split_ifs <;> rfl

/-- The byte a round uses is the first one of those the bits are taken from. -/
theorem bitSource_eq_cons {i : ℕ} {byte : UInt8} {s : ScaleDecoderStream} (hs : s.Valid)
    (hne : bitSource i byte s ≠ []) :
    ∃ next s', (if i % 8 = 0 then nextByte else pure byte : Decoding UInt8) s = .ok next s' ∧
      s'.Valid ∧ bitSource i byte s = next :: s'.remaining ∧
      s' = s.advance (if i % 8 = 0 then 1 else 0) := by
  unfold bitSource at hne ⊢
  split_ifs at hne ⊢ with hi
  · obtain ⟨next, rest, hrest⟩ := List.exists_cons_of_ne_nil hne
    have hone : 1 ≤ s.remaining.length := by
      rw [hrest]
      exact Nat.le_add_left 1 _
    refine ⟨next, s.advance 1, nextByte_cons hs hrest, ScaleDecoderStream.valid_advance hs hone, ?_,
      rfl⟩
    rw [hrest, ScaleDecoderStream.remaining_advance, hrest]
    rfl
  · exact ⟨byte, s, rfl, hs, rfl, rfl⟩

/-- In the next round the bits are taken from the same bytes, or from those behind the first. -/
theorem bitsFrom_bitSource_succ (next : UInt8) (s : ScaleDecoderStream) (i n : ℕ) :
    bitsFrom (bitSource (i + 1) next s) ((i + 1) % 8) n =
      bitsFrom (next :: s.remaining) (i % 8 + 1) n := by
  unfold bitSource
  split_ifs with hi
  · have hi8 : i % 8 + 1 = 0 + 8 := by omega
    rw [hi8, bitsFrom_cons_add, hi]
  · have hi1 : (i + 1) % 8 = i % 8 + 1 := by omega
    rw [hi1]

/-- The decoder yields the bits of the byte it holds and of the bytes that remain, and takes as many
bytes as the bits reach into. -/
theorem decodeBits_eq (n i : ℕ) (byte : UInt8) {s : ScaleDecoderStream} (hs : s.Valid)
    (hn : i % 8 + n ≤ 8 * (bitSource i byte s).length) :
    ∃ bits : List.Vector Bool n, bits.1 = bitsFrom (bitSource i byte s) (i % 8) n ∧
      decodeBits n i byte s = .ok bits (s.advance ((i + n + 7) / 8 - (i + 7) / 8)) := by
  induction n generalizing i byte s with
  | zero =>
    refine ⟨.nil, rfl, ?_⟩
    rw [Nat.add_zero, Nat.sub_self]
    rfl
  | succ n ih =>
    -- there is a byte for this round, as not all bits are used up
    have hne : bitSource i byte s ≠ [] := by
      intro hnil
      rw [hnil, List.length_nil] at hn
      omega
    obtain ⟨next, s', hnext, hs', hsource, hadvance⟩ := bitSource_eq_cons hs hne
    rw [hsource, List.length_cons] at hn
    -- and enough of them for the rounds to come
    have hn' : (i + 1) % 8 + n ≤ 8 * (bitSource (i + 1) next s').length := by
      unfold bitSource
      split_ifs
      · omega
      · rw [List.length_cons]
        omega
    obtain ⟨bits, hbits, hrun⟩ := ih (i + 1) next hs' hn'
    refine ⟨decide (next.toNat >>> (i % 8) &&& 1 ≠ 0) ::ᵥ bits, ?_, ?_⟩
    · show _ :: bits.1 = _
      rw [hbits, bitsFrom_bitSource_succ, hsource, bitsFrom, bitAt_cons,
        if_pos (Nat.mod_lt _ (by omega)), testBit_eq_shiftRight]
    · rw [decodeBits_succ, EStateM.bind_ok hnext, EStateM.bind_ok hrun, EStateM.pure_apply,
        hadvance, ScaleDecoderStream.advance_advance]
      congr 2
      split_ifs <;> omega

/-- As many bytes are taken as the bits reach into. -/
theorem consumed_decodeBits {n i : ℕ} {byte : UInt8} {s s' : ScaleDecoderStream} (hs : s.Valid)
    {bits : List.Vector Bool n} (h : decodeBits n i byte s = .ok bits s') :
    ∃ p, Consumed s p s' ∧ p.length = (i + n + 7) / 8 - (i + 7) / 8 := by
  induction n generalizing i byte s with
  | zero =>
    cases h
    refine ⟨[], Source.Consumed.refl _, ?_⟩
    rw [Nat.add_zero, Nat.sub_self]
    rfl
  | succ n ih =>
    rw [decodeBits_succ] at h
    obtain ⟨next, s₁, hnext, hrest⟩ := EStateM.bind_eq_ok.mp h
    obtain ⟨rest, s₂, hbits, hpure⟩ := EStateM.bind_eq_ok.mp hrest
    cases hpure
    split_ifs at hnext with hi
    · have hcons := nextByte_eq_ok hs hnext
      obtain ⟨p, hp, hlen⟩ := ih (hcons.valid hs) hbits
      refine ⟨[next] ++ p, hcons.trans hp, ?_⟩
      rw [List.length_append, List.length_singleton, hlen]
      omega
    · cases hnext
      obtain ⟨p, hp, hlen⟩ := ih hs hbits
      refine ⟨p, hp, ?_⟩
      rw [hlen]
      omega

/-- What the decoder returns after a length prefix that announces no more bits than there are. -/
theorem decodeBitVec_eq {cap : Capacity} {n : ℕ} {s s₁ : ScaleDecoderStream} (hs : s.Valid)
    (hlen : decodeLength b s = .ok n s₁) (hn : n ≤ 8 * s₁.remaining.length)
    (hcap : cap.Admits n) :
    ∃ v : BitVecValue cap, v.bits.items = bitsFrom s₁.remaining 0 n ∧
      decodeBitVec b cap s = .ok v (s₁.advance ((n + 7) / 8)) := by
  obtain ⟨bs, hbs⟩ := (safeAt_decodeLength b hs).consumed hlen
  have hs₁ : s₁.Valid := hbs.valid hs
  obtain ⟨bits, hbits, hrun⟩ := decodeBits_eq n 0 0 hs₁ (by simpa [bitSource] using hn)
  refine ⟨⟨⟨bits.1, by rw [bits.2]; exact hcap⟩⟩, by simpa [bitSource] using hbits, ?_⟩
  -- the check is passed also where the sum has wrapped
  have hmore : s₁.hasMore ((n + 7) % 2 ^ 64 / 8) = true := by
    have hmod : (n + 7) % 2 ^ 64 ≤ n + 7 := Nat.mod_le _ _
    have hlt : (n + 7) % 2 ^ 64 < 2 ^ 64 := Nat.mod_lt _ (by omega)
    rw [ScaleDecoderStream.hasMore_iff hs₁ (by omega)]
    omega
  have hask : hasMore ((n + 7) % 2 ^ 64 / 8) s₁ = .ok true s₁ := by
    rw [hasMore, hmore]
  have htake : s₁.advance ((n + 7) / 8) = s₁.advance ((0 + n + 7) / 8 - (0 + 7) / 8) := by
    simp
  rw [decodeBitVec, EStateM.bind_ok hlen, EStateM.bind_ok hask, resize_of_admits hcap, htake]
  exact EStateM.bind_ok hrun

/-! ### Both -/

/-- What is written after the prefix are the bits in order, packed.  What is read after a prefix
that announces no more bits than remain are the bits that remain: those behind the last one
announced have no influence, and they are zeros when the result is written again. -/
theorem bitVec_packing (b : Build) (cap : Capacity) :
    (∀ bits : List Bool, ∃ pre body, Writes (encodeLength b bits.length) pre ∧
      Writes (encodeBitVec b bits) (pre ++ body) ∧ Packs bits body) ∧
    ∀ (s : ScaleDecoderStream) (n : ℕ) (s₁ : ScaleDecoderStream), s.Valid →
      decodeLength b s = .ok n s₁ → n ≤ 8 * s₁.remaining.length → cap.Admits n →
      ∃ v : BitVecValue cap, decodeBitVec b cap s = .ok v (s₁.advance ((n + 7) / 8)) ∧
        v.bits.items.length = n ∧
        (∀ i < n, v.bits.items[i]? = some (bitAt s₁.remaining i)) ∧
        (∀ t t₁ : ScaleDecoderStream, t.Valid → decodeLength b t = .ok n t₁ →
          n ≤ 8 * t₁.remaining.length →
          (∀ i < n, bitAt t₁.remaining i = bitAt s₁.remaining i) →
          decodeBitVec b cap t = .ok v (t₁.advance ((n + 7) / 8))) ∧
        ∃ pre body, Writes (encodeLength b n) pre ∧
          Writes (encodeBitVec b v.bits.items) (pre ++ body) ∧ body.length = (n + 7) / 8 ∧
          ∀ j k, k < 8 → (body.getD j 0).toNat.testBit k =
            (decide (8 * j + k < n) && (s₁.remaining.getD j 0).toNat.testBit k) := by
  have hencode : ∀ bits : List Bool, ∃ pre body, Writes (encodeLength b bits.length) pre ∧
      Writes (encodeBitVec b bits) (pre ++ body) ∧ Packs bits body := by
    intro bits
    obtain ⟨pre, hpre⟩ := exists_writes_encodeLength b bits.length
    obtain ⟨body, hbody, hpacks⟩ := packs_encodeBits bits
    exact ⟨pre, body, hpre, hpre.bind hbody, hpacks⟩
  refine ⟨hencode, fun s n s₁ hs hlen hn hcap => ?_⟩
  obtain ⟨v, hv, hrun⟩ := decodeBitVec_eq hs hlen hn hcap
  have hlength : v.bits.items.length = n := by rw [hv, length_bitsFrom]
  have hget : ∀ i < n, v.bits.items[i]? = some (bitAt s₁.remaining i) := by
    intro i hi
    rw [hv, getElem?_bitsFrom _ _ hi, Nat.zero_add]
  refine ⟨v, hrun, hlength, hget, ?_, ?_⟩
  · -- the bits behind the last one have no influence
    intro t t₁ ht htlen htn hbits
    obtain ⟨v', hv', hrun'⟩ := decodeBitVec_eq ht htlen htn hcap
    have hitems : v'.bits.items = v.bits.items := by
      rw [hv, hv']
      apply bitsFrom_congr
      intro i hi
      rw [Nat.zero_add, hbits i hi]
    rw [hrun', BitVecValue.ext hitems]
  · obtain ⟨pre, body, hpre, hw, hpacks⟩ := hencode v.bits.items
    rw [hlength] at hpre
    refine ⟨pre, body, hpre, hw, by rw [hpacks.length_eq, hlength], fun j k hk => ?_⟩
    rw [hpacks.testBit_eq j k hk, List.getD_eq_getElem?_getD]
    by_cases hjk : 8 * j + k < n
    · rw [hget _ hjk, Option.getD_some, bitAt_mul_add _ _ hk]
      simp [hjk]
    · rw [List.getElem?_eq_none (by omega), Option.getD_none]
      simp [hjk]

/-- Three bits, of a byte with all eight set. -/
theorem bitVec_packing_three :
    ∃ v : BitVecValue ⟨4, 4, by decide⟩, decodeBitVec .default ⟨4, 4, by decide⟩
        (.ofSpan ⟨[12, 255], by decide⟩) = .ok v ⟨⟨[12, 255], by decide⟩, 2⟩ ∧
      v.bits.items.length = 3 ∧
      ∃ pre body, Writes (encodeBitVec .default v.bits.items) (pre ++ body) ∧ body.length = 1 ∧
        (body.getD 0 0).toNat.testBit 2 = true ∧ (body.getD 0 0).toNat.testBit 3 = false := by
  obtain ⟨v, hrun, hlen, _, _, pre, body, _, hw, hbody, hbit⟩ :=
    (bitVec_packing .default ⟨4, 4, by decide⟩).2 (.ofSpan ⟨[12, 255], by decide⟩) 3
      ⟨⟨[12, 255], by decide⟩, 1⟩ (by decide) (by decide +kernel) (by decide) (by decide)
  refine ⟨v, hrun, hlen, pre, body, hw, hbody, ?_, ?_⟩
  · rw [hbit 0 2 (by omega)]
    decide
  · rw [hbit 0 3 (by omega)]
    decide

end ScaleCodec
