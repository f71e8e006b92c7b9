import ScaleCodec.Equiv.CompactInteger
import ScaleCodec.Equiv.JamCompactInteger

/-!
# Correctness of `Compact<T>`

`decodeCompact` converts the decoded integer to the target type: a builtin target is checked for
overflow, one of Boost's is not (`decodeCompact_of_ok`), so that a form that announces more bytes
than the target has is truncated (`decodeCompact_exact_iff`).  Within `compactBound` what
`encodeCompact` writes is read back (`roundTrips_compact`); in the default build a builtin value
beyond it never is (`compactInteger_builtin_roundTrip_iff`).
-/

namespace ScaleCodec

open ScaleDecoderStream

/-! ### From the decoded integer to the target type -/

theorem decodeCompact_of_error {b : Build} {T : CompactCompatible} {s s' : ScaleDecoderStream}
    {e : Exception} (h : decodeCompactNumber b s = .error e s') :
    decodeCompact b T s = .error e s' :=
  EStateM.bind_error h

/-- Only a builtin target is checked for overflow. -/
theorem decodeCompact_of_ok {b : Build} {T : CompactCompatible} {s s' : ScaleDecoderStream}
    {x : ℕ} (h : decodeCompactNumber b s = .ok x s') :
    decodeCompact b T s =
      if T.isIntegral ∧ 2 ^ T.width ≤ x then
        .error (.systemError (.decode .decodedValueOverflowsTarget)) s'
      else .ok (BitVec.ofNat T.width x) s' := by
  rw [decodeCompact, EStateM.bind_ok h]
  by_cases hx : x = 0
  · have hlt : ¬ 2 ^ T.width ≤ x := by
      have := Nat.two_pow_pos T.width
      omega
    rw [if_neg (fun h => h.2 hx), if_neg (fun h => hlt h.2)]
    rfl
  · by_cases hT : T.isIntegral
    · rw [if_pos ⟨hT, hx⟩, msb_of_ne_zero hx, pure_bind]
      by_cases hlog : x.log2 ≥ T.width
      · rw [if_pos hlog, if_pos ⟨hT, (Nat.le_log2 hx).mp hlog⟩]
        rfl
      · rw [if_neg hlog, if_neg (fun h => hlog ((Nat.le_log2 hx).mpr h.2))]
        rfl
    · rw [if_neg (fun h => hT h.1), if_neg (fun h => hT h.1)]
      rfl

theorem decodeCompact_eq_ok {b : Build} {T : CompactCompatible} {s s' : ScaleDecoderStream}
    {v : BitVec T.width} (h : decodeCompact b T s = .ok v s') :
    ∃ x, decodeCompactNumber b s = .ok x s' ∧ v = BitVec.ofNat T.width x ∧
      (T.isIntegral → x < 2 ^ T.width) := by
  cases hx : decodeCompactNumber b s with
  | error e s'' => rw [decodeCompact_of_error hx] at h; cases h
  | ok x s'' =>
    rw [decodeCompact_of_ok hx] at h
    split_ifs at h with hc
    injection h with h1 h2
    subst h2
    exact ⟨x, rfl, h1.symm, fun hT => by by_contra hlt; exact hc ⟨hT, by omega⟩⟩

/-- A value of a builtin type is the number that was decoded. -/
theorem decodeCompact_builtin_eq_ok {b : Build} {T : CompactCompatible} {s s' : ScaleDecoderStream}
    {v : BitVec T.width} (hT : T.isIntegral) (h : decodeCompact b T s = .ok v s') :
    decodeCompactNumber b s = .ok v.toNat s' := by
  obtain ⟨x, hx, rfl, hlt⟩ := decodeCompact_eq_ok h
  rwa [BitVec.toNat_ofNat, Nat.mod_eq_of_lt (hlt hT)]

/-! ### Errors -/

theorem safeAt_decodeCompactNumber (b : Build) {s : ScaleDecoderStream} (hs : s.Valid) :
    SafeAt (decodeCompactNumber b) s := by
  unfold SafeAt Source.SafeAt
  cases b with
  | default =>
    rw [decodeCompactNumber]
    rcases decodeCompactInteger_cases hs with ⟨_, _, h⟩ | ⟨p, _, hp, ⟨_, h⟩ | ⟨_, h⟩⟩
    · rw [h]; exact ⟨_, rfl⟩
    · rw [h]; exact ⟨_, rfl⟩
    · rw [h]; exact ⟨p, hp, rfl⟩
  | jam =>
    rw [decodeCompactNumber]
    rcases decodeJamCompactInteger_cases hs with
      ⟨_, h⟩ | ⟨l, x, q, hform, hp, ⟨_, h⟩ | ⟨_, h⟩⟩
    · rw [h]; exact ⟨_, rfl⟩
    · rw [h]; exact ⟨_, rfl⟩
    · rw [h]
      refine ⟨leadByte l x :: q, hp, ?_⟩
      rw [List.length_cons, hform.length_eq, Nat.add_comm]
      rfl

/-- A compact integer is decoded, or refused with a `DecodeError`. -/
theorem safeAt_decodeCompact (b : Build) (T : CompactCompatible) {s : ScaleDecoderStream}
    (hs : s.Valid) : SafeAt (decodeCompact b T) s := by
  have hnum := safeAt_decodeCompactNumber b hs
  unfold SafeAt Source.SafeAt at hnum ⊢
  cases hx : decodeCompactNumber b s with
  | error e s' => rw [hx] at hnum; rw [decodeCompact_of_error hx]; exact hnum
  | ok x s' =>
    rw [hx] at hnum
    rw [decodeCompact_of_ok hx]
    split_ifs
    · exact ⟨_, rfl⟩
    · exact hnum

theorem safeAt_decodeLength (b : Build) {s : ScaleDecoderStream} (hs : s.Valid) :
    SafeAt (decodeLength b) s :=
  (safeAt_decodeCompact b .size hs).bind hs fun _ s' _ _ => Source.safeAt_pure _ s'

/-! ### Round trip -/

/-- The compact form of a build. -/
def compactForm : Build → ℕ → List UInt8
  | .default => compactBytes
  | .jam => jamBytes

/-- A larger number does not have a shorter compact form. -/
theorem length_compactForm_mono {b : Build} {m k : ℕ} (h : m ≤ k) :
    (compactForm b m).length ≤ (compactForm b k).length := by
  cases b with
  | jam =>
    show (jamBytes m).length ≤ (jamBytes k).length
    have htail : jamTail m ≤ jamTail k := by
      rw [jamTail_le_iff]
      exact ((jamTail_le_iff k (jamTail k)).mp le_rfl).imp_right h.trans_lt
    rw [length_jamBytes, length_jamBytes]
    omega
  | default =>
    show (compactBytes m).length ≤ (compactBytes k).length
    by_cases hk : k < 2 ^ 30
    · rw [length_compactBytes_of_lt hk, length_compactBytes_of_lt (h.trans_lt hk)]
      split_ifs <;> omega
    · have h4 := (length_bounds (Nat.not_lt.mp hk)).1
      rw [length_compactBytes_of_le (Nat.not_lt.mp hk)]
      by_cases hm : m < 2 ^ 30
      · rw [length_compactBytes_of_lt hm]
        split_ifs <;> omega
      · have hle : LittleEndian.length m ≤ LittleEndian.length k := by
          rw [LittleEndian.length_le_iff]
          exact h.trans_lt ((LittleEndian.length_le_iff k _).mp le_rfl)
        rw [length_compactBytes_of_le (Nat.not_lt.mp hm)]
        omega

/-- The values of a type that survive a compact encoding are those below the bound. -/
def compactBound (b : Build) (T : CompactCompatible) : ℕ :=
  match b with
  | .jam => 2 ^ 64
  | .default => if T.isIntegral then 2 ^ 30 else 2 ^ 536

theorem writes_encodeCompact {b : Build} {T : CompactCompatible} {v : BitVec T.width}
    (hv : v.toNat < compactBound b T) : Writes (encodeCompact b T v) (compactForm b v.toNat) := by
  cases b with
  | jam => exact writes_encodeJamCompactInteger hv
  | default =>
    unfold compactBound at hv
    split_ifs at hv with hT
    · exact writes_encodeCompactInteger_of_lt hv
    · exact writes_encodeCompactInteger_big hT hv

theorem reads_compactForm {b : Build} {T : CompactCompatible} {v : BitVec T.width}
    (hv : v.toNat < compactBound b T) : Reads (decodeCompact b T) (compactForm b v.toNat) v := by
  have hnum : Reads (decodeCompactNumber b) (compactForm b v.toNat) v.toNat := by
    cases b with
    | jam => exact reads_jamBytes hv
    | default =>
      unfold compactBound at hv
      split_ifs at hv
      · exact reads_compactBytes (hv.trans_le (two_pow_le 30 536 (by omega)))
      · exact reads_compactBytes hv
  intro s hs hp
  have hlt := v.isLt
  rw [decodeCompact_of_ok (hnum s hs hp), if_neg (by omega), BitVec.ofNat_toNat,
    BitVec.setWidth_eq]

/-- Within the bound, what is encoded is decoded. -/
theorem roundTrips_compact {b : Build} {T : CompactCompatible} {v : BitVec T.width}
    (hv : v.toNat < compactBound b T) :
    RoundTrips encoderSink decoderSource (encodeCompact b T v) (decodeCompact b T) v :=
  ⟨_, writes_encodeCompact hv, reads_compactForm hv⟩

theorem toNat_ofNat_size {b : Build} {n : ℕ} (hn : n < compactBound b .size) :
    (BitVec.ofNat CompactCompatible.size.width n).toNat = n := by
  have h64 : n < 2 ^ 64 := by
    cases b with
    | jam => exact hn
    | default => exact hn.trans (by decide)
  rw [BitVec.toNat_ofNat]
  exact Nat.mod_eq_of_lt h64

theorem writes_encodeLength {b : Build} {n : ℕ} (hn : n < compactBound b .size) :
    Writes (encodeLength b n) (compactForm b n) := by
  have hv := toNat_ofNat_size hn
  have hw := writes_encodeCompact (b := b) (T := .size)
    (v := BitVec.ofNat CompactCompatible.size.width n) (by rwa [hv])
  rwa [hv] at hw

theorem reads_decodeLength {b : Build} {n : ℕ} (hn : n < compactBound b .size) :
    Reads (decodeLength b) (compactForm b n) n := by
  have hv := toNat_ofNat_size hn
  have hr := reads_compactForm (b := b) (T := .size)
    (v := BitVec.ofNat CompactCompatible.size.width n) (by rwa [hv])
  rw [hv] at hr
  refine hr.bind_nil ?_
  rw [hv]
  exact Source.reads_pure n

/-- The sizes of collections a build can handle. -/
theorem roundTrips_length {b : Build} {n : ℕ} (hn : n < compactBound b .size) :
    RoundTrips encoderSink decoderSource (encodeLength b n) (decodeLength b) n :=
  ⟨_, writes_encodeLength hn, reads_decodeLength hn⟩

/-- Below `2^30` every build reads back what it writes. -/
theorem lt_compactBound {b : Build} {T : CompactCompatible} (hT : T.isIntegral) {n : ℕ}
    (hn : n < 2 ^ 30) : n < compactBound b T := by
  cases b with
  | jam =>
    rw [compactBound]
    omega
  | default => rwa [compactBound, if_pos hT]

/-- The header of a builtin value announces as many bytes as the value has bits. -/
theorem announcedLength_builtin {v : ℕ} (h30 : 2 ^ 30 ≤ v) (h64 : v < 2 ^ 64) :
    announcedLength (UInt8.ofNat (4 * (bitWidth v - 4) + 3)) = bitWidth v + 1 ∧
      31 ≤ bitWidth v := by
  have hv0 : v ≠ 0 := by omega
  have hlog : v.log2 < 64 := (Nat.log2_lt hv0).mpr h64
  have hlog30 : 30 ≤ v.log2 := (Nat.le_log2 hv0).mpr h30
  have hheader : (UInt8.ofNat (4 * (bitWidth v - 4) + 3)).toNat = 4 * (v.log2 - 3) + 3 := by
    rw [bitWidth, if_neg hv0, toNat_ofNat_of_lt (by omega)]
    omega
  rw [announcedLength, hheader, if_neg (by omega), if_neg (by omega), if_neg (by omega), bitWidth,
    if_neg hv0]
  omega

/-- The compact form of a builtin value has at most nine bytes. -/
theorem length_compactBytes_builtin_le {v : ℕ} (hv : v < 2 ^ 64) : (compactBytes v).length ≤ 9 := by
  by_cases h30 : v < 2 ^ 30
  · rw [length_compactBytes_of_lt h30]
    split_ifs <;> omega
  · have h8 : LittleEndian.length v ≤ 8 := (LittleEndian.length_le_iff v 8).mpr hv
    rw [length_compactBytes_of_le (by omega)]
    omega

/-- Nothing builtin is decoded from the encoding of a builtin value beyond `2^30`, whatever comes
behind it: no accepted form of a builtin value is as long as the header announces. -/
theorem decodeCompact_builtin_header {T : CompactCompatible} (hT : T.isIntegral) {v : ℕ}
    (h30 : 2 ^ 30 ≤ v) (h64 : v < 2 ^ 64) {q : List UInt8} {s : ScaleDecoderStream} (hs : s.Valid)
    (hp : UInt8.ofNat (4 * (bitWidth v - 4) + 3) :: q <+: s.remaining) (x : BitVec T.width)
    (s' : ScaleDecoderStream) : decodeCompact .default T s ≠ .ok x s' := by
  intro h
  obtain ⟨⟨hpre, _⟩, hlt536⟩ := decodeCompactInteger_eq_ok hs (decodeCompact_builtin_eq_ok hT h)
  obtain ⟨⟨c, r, hc, hlen⟩, _⟩ := isForm_compactBytes hlt536
  -- the accepted form starts with the header
  have hhead : c = UInt8.ofNat (4 * (bitWidth v - 4) + 3) := by
    obtain ⟨tail, htail⟩ := hp
    change compactBytes x.toNat <+: s.remaining at hpre
    rw [hc, ← htail] at hpre
    exact (List.cons_prefix_cons.mp hpre).1
  have hlt64 : x.toNat < 2 ^ 64 :=
    x.isLt.trans_le (two_pow_le _ _ (CompactCompatible.width_le_of_isIntegral hT))
  have hle := length_compactBytes_builtin_le hlt64
  obtain ⟨hannounced, h31⟩ := announcedLength_builtin h30 h64
  rw [hhead, hannounced] at hlen
  omega

/-- A builtin value is read back, wherever its encoding stands, iff it is below `2^30`.  Above, the
header announces as many bytes as the value has bits, and no accepted form is that long. -/
theorem compactInteger_builtin_roundTrip_iff {T : CompactCompatible} (hT : T.isIntegral)
    (v : BitVec T.width) :
    ∃ p, Writes (encodeCompactInteger T v) p ∧
      ∀ s rest, s.Valid → s.remaining = p ++ rest →
        (decodeCompact .default T s = .ok v (s.advance p.length) ↔ v.toNat < 2 ^ 30) := by
  by_cases hv : v.toNat < 2 ^ 30
  · have hbound : v.toNat < compactBound .default T := by rwa [compactBound, if_pos hT]
    refine ⟨compactBytes v.toNat, writes_encodeCompactInteger_of_lt hv, fun s rest hs hp => ?_⟩
    have hpre : compactBytes v.toNat <+: s.remaining := ⟨rest, hp.symm⟩
    exact ⟨fun _ => hv, fun _ => reads_compactForm hbound s hs hpre⟩
  · have hle : 2 ^ 30 ≤ v.toNat := by omega
    have h64 : v.toNat < 2 ^ 64 := v.isLt.trans_le
      (two_pow_le _ _ (CompactCompatible.width_le_of_isIntegral hT))
    refine ⟨_, writes_encodeCompactInteger_builtin hT hle, fun s rest hs hp => ?_⟩
    refine ⟨fun h => ?_, fun h => absurd h hv⟩
    exact absurd h (decodeCompact_builtin_header hT hle h64 hs ⟨rest, hp.symm⟩ _ _)

/-- A value of the type of collection sizes, small enough to be read back. -/
theorem compactInteger_builtin_roundTrip_iff_size :
    CompactCompatible.size.isIntegral = true ∧
      ∃ p, Writes (encodeCompactInteger .size 1000) p ∧
        ∀ s rest, s.Valid → s.remaining = p ++ rest →
          (decodeCompact .default .size s = .ok 1000 (s.advance p.length) ↔
            (1000 : BitVec 64).toNat < 2 ^ 30) :=
  ⟨rfl, compactInteger_builtin_roundTrip_iff rfl 1000⟩

/-- The encoding of `2^30` as a `uint64_t` announces 31 bytes and has four. -/
theorem compactInteger_builtin_not_decoded :
    written (encodeCompactInteger .uint64 (.ofNat _ (2 ^ 30))) = [0x6f, 0, 0, 0, 0x40] ∧
      decodeCompact .default .uint64 (.ofSpan ⟨[0x6f, 0, 0, 0, 0x40], by decide⟩) =
        .error (.systemError (.decode .notEnoughData))
          ⟨⟨[0x6f, 0, 0, 0, 0x40], by decide⟩, 1⟩ :=
  ⟨by rfl, by rfl⟩

/-! ### Targets that are too narrow -/

/-- The compact integer at the start of the input announces more bytes than `T` has. -/
def AnnouncesMoreThan (T : CompactCompatible) : List UInt8 → Prop
  | [] => False
  | b :: _ => b.toNat % 4 = 3 ∧ T.width / 8 < b.toNat / 4 + 4

instance (T : CompactCompatible) : (input : List UInt8) → Decidable (AnnouncesMoreThan T input)
  | [] => inferInstanceAs (Decidable False)
  | _ :: _ => inferInstanceAs (Decidable (_ ∧ _))

/-- What was decoded fits into one of Boost's types unless more bytes than it has were announced. -/
theorem pow_width_le_iff {T : CompactCompatible} (hT : ¬ T.isIntegral) {s s' : ScaleDecoderStream}
    (hs : s.Valid) {x : ℕ} (hx : decodeCompactInteger s = .ok x s') :
    2 ^ T.width ≤ x ↔ AnnouncesMoreThan T s.remaining := by
  obtain ⟨⟨hpre, _⟩, hlt⟩ := decodeCompactInteger_eq_ok hs hx
  obtain ⟨⟨c, q, hc, hlen⟩, _⟩ := isForm_compactBytes hlt
  have hwidth := CompactCompatible.le_width_of_not_isIntegral hT
  have hpow : 2 ^ T.width = 256 ^ (T.width / 8) := by
    rw [LittleEndian.pow256_eq, T.width_div_mul]
  obtain ⟨tail, hr⟩ := hpre
  change compactBytes x ++ tail = s.remaining at hr
  have hmore : AnnouncesMoreThan T s.remaining ↔
      c.toNat % 4 = 3 ∧ T.width / 8 < c.toNat / 4 + 4 := by
    rw [← hr, hc, List.cons_append]
    rfl
  rw [hmore, hpow, ← Nat.not_lt, ← LittleEndian.length_le_iff]
  have hcb := c.toNat_lt
  by_cases h30 : x < 2 ^ 30
  · have hsmall : LittleEndian.length x ≤ 4 := (LittleEndian.length_le_iff x 4).mpr (by omega)
    rw [length_compactBytes_of_lt h30, announcedLength] at hlen
    split_ifs at hlen <;> omega
  · have h4 := (length_bounds (show 2 ^ 30 ≤ x by omega)).1
    rw [length_compactBytes_of_le (by omega), announcedLength] at hlen
    split_ifs at hlen <;> omega

/-- The decoded integer `x` reaches the target without a change, or is refused for overflowing
it. -/
def ConvertsExactly (b : Build) (T : CompactCompatible) (x : ℕ) (s s' : ScaleDecoderStream) :
    Prop :=
  (x < 2 ^ T.width → ∃ v, decodeCompact b T s = .ok v s' ∧ v.toNat = x) ∧
  (2 ^ T.width ≤ x → ∃ s'', decodeCompact b T s =
    .error (.systemError (.decode .decodedValueOverflowsTarget)) s'') ∧
  (∀ v s'', decodeCompact b T s = .ok v s'' → v.toNat = x)

/-- Only the targets that are checked, and those that are wide enough, are converted to exactly. -/
theorem convertsExactly_iff {b : Build} {T : CompactCompatible} {s s' : ScaleDecoderStream} {x : ℕ}
    (hx : decodeCompactNumber b s = .ok x s') :
    ConvertsExactly b T x s s' ↔ T.isIntegral ∨ x < 2 ^ T.width := by
  have hexact : x < 2 ^ T.width → (BitVec.ofNat T.width x).toNat = x := by
    intro hlt
    rw [BitVec.toNat_ofNat, Nat.mod_eq_of_lt hlt]
  rw [ConvertsExactly, decodeCompact_of_ok hx]
  constructor
  · rintro ⟨_, hover, _⟩
    by_contra hcond
    push Not at hcond
    obtain ⟨hT, hle⟩ := hcond
    -- nothing refuses the integer
    obtain ⟨s'', h⟩ := hover hle
    rw [if_neg (fun h => hT h.1)] at h
    cases h
  · intro hfits
    refine ⟨fun hlt => ⟨_, by rw [if_neg (by omega)], hexact hlt⟩, fun hle => ⟨s', ?_⟩,
      fun v s'' h => ?_⟩
    · rcases hfits with hT | hlt
      · rw [if_pos ⟨hT, hle⟩]
      · omega
    · split_ifs at h with hc
      injection h with h1 _
      rw [← h1]
      refine hexact (hfits.elim (fun hT => ?_) id)
      by_contra hle
      exact hc ⟨hT, by omega⟩

/-- A decoded integer is converted exactly iff the target is builtin, the build is the JAM one, or
no more bytes are announced than the target has. -/
theorem decodeCompact_exact_iff {b : Build} {T : CompactCompatible} {s s' : ScaleDecoderStream}
    {x : ℕ} (hs : s.Valid) (hx : decodeCompactNumber b s = .ok x s') :
    ConvertsExactly b T x s s' ↔
      T.isIntegral ∨ b = .jam ∨ ¬ AnnouncesMoreThan T s.remaining := by
  rw [convertsExactly_iff hx]
  by_cases hT : T.isIntegral
  · exact ⟨fun _ => Or.inl hT, fun _ => Or.inl hT⟩
  · cases b with
    | jam =>
      -- what the JAM decoder returns fits into every one of Boost's types
      have hwidth := CompactCompatible.le_width_of_not_isIntegral hT
      have hwide : 2 ^ 64 ≤ 2 ^ T.width := Nat.pow_le_pow_right (by omega) (by omega)
      have hlt : x < 2 ^ T.width := (decodeJamCompactInteger_lt hs hx).trans_le hwide
      exact ⟨fun _ => Or.inr (Or.inl rfl), fun _ => Or.inr hlt⟩
    | default =>
      rw [← pow_width_le_iff hT hs hx]
      simp [hT]

/-- `2^128 + 5` in its compact form, from the first byte on. -/
def oversizedCompact : ConstSpanOfBytes :=
  ⟨[0x37, 5, 0, 0, 0, 0, 0, 0, 0, 0, 0, 0, 0, 0, 0, 0, 0, 1], by decide⟩

theorem decodeCompact_exact_iff_uint256 :
    (ScaleDecoderStream.ofSpan oversizedCompact).Valid ∧
      decodeCompactNumber .default (.ofSpan oversizedCompact) =
        .ok (2 ^ 128 + 5) ⟨oversizedCompact, 18⟩ ∧
      (ConvertsExactly .default .uint256 (2 ^ 128 + 5) (.ofSpan oversizedCompact)
          ⟨oversizedCompact, 18⟩ ↔
        CompactCompatible.uint256.isIntegral ∨ Build.default = .jam ∨
          ¬ AnnouncesMoreThan .uint256 oversizedCompact.bytes) :=
  ⟨by decide, by decide +kernel, decodeCompact_exact_iff (by decide) (by decide +kernel)⟩

/-- `2^128 + 5` is decoded into a `uint128_t` as `5`. -/
theorem decodeCompact_truncates :
    decodeCompactNumber .default (.ofSpan oversizedCompact) =
        .ok (2 ^ 128 + 5) ⟨oversizedCompact, 18⟩ ∧
      decodeCompact .default .uint128 (.ofSpan oversizedCompact) = .ok 5 ⟨oversizedCompact, 18⟩ ∧
      ¬ ConvertsExactly .default .uint128 (2 ^ 128 + 5) (.ofSpan oversizedCompact)
        ⟨oversizedCompact, 18⟩ := by
  have h5 : decodeCompact .default .uint128 (.ofSpan oversizedCompact) =
      .ok 5 ⟨oversizedCompact, 18⟩ := by decide +kernel
  refine ⟨by decide +kernel, h5, fun h => ?_⟩
  have heq := h.2.2 _ _ h5
  cases heq

end ScaleCodec
