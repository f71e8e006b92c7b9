import ScaleCodec.Equiv.EncodeAppend

/-!
# `append_or_new_vec` at the limits of a count

What a call does to a buffer that starts with any count, or with none.

* A call that returns has replaced the prefix and inserted the input, or has failed to decode a
  count and left the buffer (`appendOrNewVec_eq_ok`); so a failure is returned iff no count is
  decoded (`appendOrNewVec_failure_iff`), and never because the count cannot be incremented.
* The count is incremented and the payload kept iff the formulas for the lengths of the prefixes are
  right (`appendOrNewVec_count_iff`): the default build stops at `2^30`, and the JAM build fails for
  the prefixes that are longer than necessary and yet accepted.
-/

namespace ScaleCodec

variable {b : Build} {s s' : ByteVector} {input : EncodeOpaqueValue}

/-! ### What a call that returns has done -/

theorem length_assign {bytes : List UInt8} (h : assign bytes s = .ok () s') :
    s'.bytes = bytes := by
  unfold assign at h
  split_ifs at h
  · cases h
    rfl
  · cases h

theorem insertEnd_eq_ok {bytes : List UInt8} (h : insertEnd bytes s = .ok () s') :
    s'.bytes = s.bytes ++ bytes := by
  rw [insertEnd, EStateM.bind_ok (get_ok s)] at h
  exact length_assign h

theorem reserve_eq_ok {n : ℕ} (h : reserve n s = .ok () s') : s' = s := by
  unfold reserve at h
  split_ifs at h
  · cases h
    rfl
  · cases h

theorem length_rotateReversed {n : ℕ} (h : rotateReversed n s = .ok () s') :
    s'.bytes.length = s.bytes.length := by
  rw [rotateReversed, EStateM.bind_ok (get_ok s)] at h
  cases h
  show (s.bytes.reverse.rotate n).reverse.length = s.bytes.length
  rw [List.length_reverse, List.length_rotate, List.length_reverse]

theorem overwrite_eq_ok {bytes : List UInt8} (h : overwrite bytes s = .ok () s') :
    ∃ rest, s'.bytes = bytes ++ rest ∧ s'.bytes.length = s.bytes.length := by
  rw [overwrite, EStateM.bind_ok (get_ok s)] at h
  split_ifs at h with hle
  · cases h
    refine ⟨s.bytes.drop bytes.length, rfl, ?_⟩
    show (bytes ++ s.bytes.drop bytes.length).length = s.bytes.length
    rw [List.length_append, List.length_drop]
    omega
  · cases h

theorem call_eq_ok {α : Type} {r : Except Exception α} {a : α} (h : call r s = .ok a s') :
    r = .ok a ∧ s' = s := by
  cases r with
  | ok x => cases h; exact ⟨rfl, rfl⟩
  | error e => cases h

theorem value_eq_ok {α : Type} {r : Except ErrorCode α} {a : α} (h : value r s = .ok a s') :
    r = .ok a ∧ s' = s := by
  cases r with
  | ok x => cases h; exact ⟨rfl, rfl⟩
  | error code => cases h

theorem replaceLen_eq_ok {newLen : Count} (h : replaceLen b newLen s = .ok () s') :
    ∃ e rest, encodeToVector (encodeLength b newLen.toNat) = .ok (.ok e) ∧
      s'.bytes = e ++ rest ∧ s'.bytes.length = s.bytes.length := by
  obtain ⟨result, s₁, hcall, hrest⟩ := EStateM.bind_eq_ok.mp h
  obtain ⟨e, s₂, hvalue, hoverwrite⟩ := EStateM.bind_eq_ok.mp hrest
  obtain ⟨hencode, rfl⟩ := call_eq_ok hcall
  obtain ⟨rfl, rfl⟩ := value_eq_ok hvalue
  obtain ⟨rest, hbytes, hlen⟩ := overwrite_eq_ok hoverwrite
  exact ⟨e, rest, hencode, hbytes, hlen⟩

/-- The room made is the difference of the lengths, as a `uint32_t`. -/
theorem length_makeRoom {encodedLen encodedNewLen inputSize : ℕ}
    (h : makeRoom encodedLen encodedNewLen inputSize s = .ok () s') :
    s'.bytes.length = s.bytes.length +
      if encodedLen ≠ encodedNewLen then (encodedNewLen + 2 ^ 32 - encodedLen) % 2 ^ 32 else 0 := by
  rw [makeRoom, EStateM.bind_ok (get_ok s)] at h
  split_ifs at h ⊢ with hne
  · obtain ⟨_, s₁, hreserve, h⟩ := EStateM.bind_eq_ok.mp h
    -- zeros are appended, and rotated to the front
    obtain ⟨_, s₂, hgrow, hrotate⟩ := EStateM.bind_eq_ok.mp h
    rw [length_rotateReversed hrotate, insertEnd_eq_ok hgrow, reserve_eq_ok hreserve,
      List.length_append, List.length_replicate]
  · rw [reserve_eq_ok h, Nat.add_zero]

/-- The length of the prefix for a `uint32_t` is computed without an exception. -/
theorem exists_lengthOfPrefix (b : Build) (count : Count) :
    ∃ k, (lengthOfPrefix b count : Appending ℕ) = pure k := by
  cases b with
  | jam =>
    rw [lengthOfPrefix.eq_def]
    dsimp only
    rw [lengthOfEncodedJamCompactInteger_builtin rfl, pure_bind]
    exact ⟨_, rfl⟩
  | default =>
    rw [lengthOfPrefix.eq_def]
    dsimp only
    by_cases hlt : count.toNat < 2 ^ 30
    · rw [lengthOfEncodedCompactInteger_of_lt hlt, pure_bind]
      exact ⟨_, rfl⟩
    · rw [lengthOfEncodedCompactInteger_builtin rfl (by omega), pure_bind]
      exact ⟨_, rfl⟩

theorem extractLengthData_eq_ok {data : ByteVector} {r : Except ErrorCode (Count × ℕ × ℕ)}
    (h : extractLengthData b data s = .ok r s') :
    s' = s ∧ ((∃ code, decode b (.compact .uint32) data = .ok (.error code) ∧ r = .error code) ∨
      ∃ len k k', decode b (.compact .uint32) data = .ok (.ok len) ∧ r = .ok (len + 1, k, k') ∧
        (lengthOfPrefix b len : Appending ℕ) = pure k ∧
        (lengthOfPrefix b (len + 1) : Appending ℕ) = pure k') := by
  obtain ⟨result, s₁, hcall, hrest⟩ := EStateM.bind_eq_ok.mp h
  obtain ⟨hdecode, rfl⟩ := call_eq_ok hcall
  cases result with
  | error code =>
    cases hrest
    exact ⟨rfl, Or.inl ⟨code, hdecode, rfl⟩⟩
  | ok len =>
    obtain ⟨k, hk⟩ := exists_lengthOfPrefix b len
    obtain ⟨k', hk'⟩ := exists_lengthOfPrefix b (len + 1)
    dsimp only at hrest
    rw [hk, hk', pure_bind, pure_bind] at hrest
    cases hrest
    exact ⟨rfl, Or.inr ⟨len, k, k', hdecode, rfl, hk, hk'⟩⟩

/-- A call on a buffer that is not empty either finds no count and leaves the buffer, or puts the
encoding of the next count in front and the input at the end. -/
theorem appendOrNewVec_eq_ok {r : Except ErrorCode Unit} (hne : s.bytes ≠ [])
    (h : appendOrNewVec b input s = .ok r s') :
    (∃ code, decode b (.compact .uint32) s = .ok (.error code) ∧ r = .error code ∧ s' = s) ∨
    ∃ len k k' e rest, decode b (.compact .uint32) s = .ok (.ok len) ∧ r = .ok () ∧
      (lengthOfPrefix b len : Appending ℕ) = pure k ∧
      (lengthOfPrefix b (len + 1) : Appending ℕ) = pure k' ∧
      encodeToVector (encodeLength b (len + 1).toNat) = .ok (.ok e) ∧ s'.bytes = e ++ rest ∧
      s'.bytes.length = s.bytes.length +
        (if k ≠ k' then (k' + 2 ^ 32 - k) % 2 ^ 32 else 0) + input.bytes.length := by
  have hempty : ¬ s.bytes.isEmpty := by
    rw [List.isEmpty_iff]
    exact hne
  rw [appendOrNewVec, EStateM.bind_ok (get_ok s), if_neg hempty] at h
  obtain ⟨extracted, s₁, hextract, hrest⟩ := EStateM.bind_eq_ok.mp h
  obtain ⟨rfl, ⟨code, hdecode, rfl⟩ | ⟨len, k, k', hdecode, rfl, hk, hk'⟩⟩ :=
    extractLengthData_eq_ok hextract
  · cases hrest
    -- nothing has been written yet
    exact Or.inl ⟨code, hdecode, rfl, rfl⟩
  · obtain ⟨_, s₂, hroom, hrest⟩ := EStateM.bind_eq_ok.mp hrest
    obtain ⟨_, s₃, hreplace, hrest⟩ := EStateM.bind_eq_ok.mp hrest
    obtain ⟨_, s₄, hinsert, hpure⟩ := EStateM.bind_eq_ok.mp hrest
    cases hpure
    obtain ⟨e, rest, hencode, hbytes, hlen⟩ := replaceLen_eq_ok hreplace
    have hend := insertEnd_eq_ok hinsert
    -- the prefix is overwritten where there is room for it, and the input put at the end
    refine Or.inr ⟨len, k, k', e, rest ++ input.bytes, hdecode, rfl, hk, hk', hencode, ?_, ?_⟩
    · rw [hend, hbytes, List.append_assoc]
    · rw [hend, List.length_append, hlen, length_makeRoom hroom]

/-! ### The error path -/

/-- `scale::decode` of a compact integer fails with the error raised. -/
theorem decode_compact_of_error {T : CompactCompatible} {data : ConstSpanOfBytes} {e : Exception}
    {t : ScaleDecoderStream} (h : decodeCompact b T (.ofSpan data) = .error e t) :
    ∃ code, decode b (.compact T) data = .ok (.error code) := by
  have hsafe := safeAt_decodeCompact b T (ScaleDecoderStream.valid_ofSpan data)
  obtain ⟨code, rfl⟩ := hsafe.raised h
  refine ⟨.decode code, ?_⟩
  show (do
    let result ← outcomeCatch (decodeCompact b T) (.ofSpan data)
    pure (result.map Prod.fst)) = _
  rw [outcomeCatch, h]
  rfl

theorem decode_compact_of_ok {T : CompactCompatible} {data : ConstSpanOfBytes}
    {v : BitVec T.width} {t : ScaleDecoderStream}
    (h : decodeCompact b T (.ofSpan data) = .ok v t) :
    decode b (.compact T) data = .ok (.ok v) := by
  show (do
    let result ← outcomeCatch (decodeCompact b T) (.ofSpan data)
    pure (result.map Prod.fst)) = _
  rw [outcomeCatch, h]
  rfl

/-- A call on a buffer that is not empty returns a failure, and leaves the buffer, iff no count is
decoded from the buffer: a count that cannot be incremented is no reason to. -/
theorem appendOrNewVec_failure_iff (b : Build) (buffer : ByteVector) (input : EncodeOpaqueValue)
    (hne : buffer.bytes ≠ []) :
    (∃ code, appendOrNewVec b input buffer = .ok (.error code) buffer) ↔
      ∀ n t, decodeCompact b .uint32 (.ofSpan buffer) ≠ .ok n t := by
  constructor
  · rintro ⟨code, hcall⟩ n t hdecode
    rcases appendOrNewVec_eq_ok hne hcall with ⟨_, hfails, _⟩ | ⟨_, _, _, _, _, _, hr, _⟩
    · rw [decode_compact_of_ok hdecode] at hfails
      cases hfails
    · cases hr
  · intro hdecode
    cases hrun : decodeCompact b .uint32 (.ofSpan buffer) with
    | ok n t => exact absurd hrun (hdecode n t)
    | error e t =>
      obtain ⟨code, hfails⟩ := decode_compact_of_error hrun
      refine ⟨code, ?_⟩
      have hempty : ¬ buffer.bytes.isEmpty := by
        rw [List.isEmpty_iff]
        exact hne
      rw [appendOrNewVec, EStateM.bind_ok (get_ok buffer), if_neg hempty, extractLengthData, hfails]
      rfl

/-- A redundant prefix. -/
theorem appendOrNewVec_failure_iff_redundant :
    ∃ code, appendOrNewVec .default ⟨[7], by decide⟩ ⟨[0x01, 0x00], by decide⟩ =
      .ok (.error code) ⟨[0x01, 0x00], by decide⟩ :=
  (appendOrNewVec_failure_iff .default ⟨[0x01, 0x00], by decide⟩ ⟨[7], by decide⟩
    (by decide)).mpr fun n t h => by
      have hrun : decodeCompact .default .uint32 (.ofSpan ⟨[0x01, 0x00], by decide⟩) =
        .error (.systemError (.decode .redundantCompactEncoding))
          ⟨⟨[0x01, 0x00], by decide⟩, 2⟩ := by rfl
      rw [hrun] at h
      cases h

/-- A buffer of `2^32 - 1` values: `std::length_error` is thrown. -/
theorem appendOrNewVec_last_count :
    decode .default (.compact .uint32) ⟨[0x03, 0xff, 0xff, 0xff, 0xff], by decide⟩ =
        .ok (.ok (.ofNat _ (2 ^ 32 - 1))) ∧
      appendOrNewVec .default ⟨[], by decide⟩ ⟨[0x03, 0xff, 0xff, 0xff, 0xff], by decide⟩ =
        .error .lengthError ⟨[0x03, 0xff, 0xff, 0xff, 0xff], by decide⟩ := by
  decide +kernel

/-! ### The prefix of a count -/

/-- Outside of the slip a count is decoded from its compact form only. -/
theorem consumed_count {t t' : ScaleDecoderStream} {n : Count} (ht : t.Valid)
    (h : decodeCompact b .uint32 t = .ok n t') (hslip : b = .jam → ¬ JamSlip t.remaining) :
    Consumed t (compactForm b n.toNat) t' := by
  have hnumber := decodeCompact_builtin_eq_ok rfl h
  cases b with
  | default => exact (decodeCompactInteger_eq_ok ht hnumber).1
  | jam =>
    obtain ⟨_, p, hp, hwrites⟩ := jamCanonicalAt_of_not_slip ht (hslip rfl) n.toNat t' hnumber
    have hlt64 : n.toNat < 2 ^ 64 := n.isLt.trans (by decide)
    have hw := hwrites .uint32 n rfl
    rw [(hw.unique (writes_encodeJamCompactInteger hlt64)).1] at hp
    exact hp

/-- A slip is longer than the compact form of the count decoded from it. -/
theorem length_slip {t t' : ScaleDecoderStream} {n : Count} (ht : t.Valid)
    (h : decodeCompact .jam .uint32 t = .ok n t') (hslip : JamSlip t.remaining) {p : List UInt8}
    (ht' : t' = t.advance p.length) : (jamBytes n.toNat).length < p.length := by
  obtain ⟨l, q, hl, hl7, hlen, hp, hlo, hhi⟩ := hslip
  have hnumber := decodeCompact_builtin_eq_ok rfl h
  have hform : IsJamForm l 0 q := ⟨by omega, Nat.two_pow_pos _, hlen⟩
  have htakes := takes_decodeJamCompactInteger hform
  rw [jamResult, if_neg (fun href => by have := href.2.2; omega)] at htakes
  have hrun := htakes t ht hp
  rw [decodeCompactNumber, hrun] at hnumber
  injection hnumber with hvalue hadvance
  have hplen : (leadByte l 0 :: q).length = p.length :=
    ScaleDecoderStream.advance_injective (hadvance.trans ht')
  -- no bits in the prefix and few in the last byte: the value belongs to the class before
  have hsmall := (jamFormValue_lt_iff hform hl).mpr ⟨rfl, hhi⟩
  have htail : jamTail n.toNat ≤ l - 1 := by
    rw [jamTail_le_iff, show l - 1 + 1 = l by omega, ← hvalue]
    exact Or.inr hsmall
  rw [List.length_cons, hlen] at hplen
  rw [length_jamBytes]
  omega

/-! ### Every representable count -/

/-- The counts and buffers for which a call increments the count rightly. -/
def KeepsCount (b : Build) (buffer : ByteVector) (n : Count) : Prop :=
  match b with
  | .default => n.toNat + 1 < 2 ^ 30
  | .jam => ¬ JamSlip buffer.bytes

/-- What is promised of a call on a buffer with the count `n` and the payload `q`. -/
def IncrementsCount (b : Build) (buffer : ByteVector) (input : EncodeOpaqueValue) (n : Count)
    (q : List UInt8) : Prop :=
  ∃ buffer' p', appendOrNewVec b input buffer = .ok (.ok ()) buffer' ∧
    buffer'.bytes = p' ++ (q ++ input.bytes) ∧
    decodeCompact b .uint32 (.ofSpan buffer') =
      .ok (n + 1) ((ScaleDecoderStream.ofSpan buffer').advance p'.length)

theorem toNat_succ_count {n : Count} (hn : n.toNat < 2 ^ 32 - 1) : (n + 1).toNat = n.toNat + 1 := by
  show (n.toNat + 1) % 2 ^ 32 = n.toNat + 1
  exact Nat.mod_eq_of_lt (by omega)

theorem ofNat_toNat_count (n : Count) : (BitVec.ofNat _ n.toNat : Count) = n := by
  rw [BitVec.ofNat_toNat, BitVec.setWidth_eq]

theorem ofNat_succ_count {n : Count} (hn : n.toNat < 2 ^ 32 - 1) :
    (BitVec.ofNat _ (n.toNat + 1) : Count) = n + 1 := by
  rw [← toNat_succ_count hn, ofNat_toNat_count]

/-- The default build alone has a bound below the largest count. -/
theorem succ_lt_countBound {n : Count} (hn : n.toNat < 2 ^ 32 - 1)
    (h30 : b = .default → n.toNat + 1 < 2 ^ 30) : n.toNat + 1 < countBound b := by
  cases b with
  | default => exact h30 rfl
  | jam =>
    show n.toNat + 1 < 2 ^ 32
    omega

/-- Where the prefixes have the lengths computed for them, the call increments the count. -/
theorem incrementsCount_of_keeps {n : Count} {p q : List UInt8} (hbuffer : s.bytes = p ++ q)
    (hdecode : decodeCompact b .uint32 (.ofSpan s) =
      .ok n ((ScaleDecoderStream.ofSpan s).advance p.length))
    (hn : n.toNat < 2 ^ 32 - 1) (hkeeps : KeepsCount b s n)
    (hmax : (compactForm b (n.toNat + 1) ++ (q ++ input.bytes)).length < 2 ^ 63) :
    IncrementsCount b s input n q := by
  have hbound : n.toNat + 1 < countBound b :=
    succ_lt_countBound hn (by rintro rfl; exact hkeeps)
  have hcount := consumed_count (ScaleDecoderStream.valid_ofSpan s) hdecode
    (by rintro rfl; exact hkeeps)
  have hlen : p.length = (compactForm b n.toNat).length :=
    ScaleDecoderStream.advance_injective hcount.2
  have hdecode' : decode b (.compact .uint32) s = .ok (.ok (BitVec.ofNat _ n.toNat)) := by
    rw [decode_compact_of_ok hdecode, ofNat_toNat_count]
  obtain ⟨s', hcall, hbytes⟩ := appendOrNewVec_count hbound hdecode' hbuffer hlen hmax
  refine ⟨s', _, hcall, hbytes, ?_⟩
  rw [← ofNat_succ_count hn]
  exact reads_count hbound _ (ScaleDecoderStream.valid_ofSpan s') ⟨_, hbytes.symm⟩

/-- Where the default build increments a count, the next one is below `2^30`. -/
theorem keepsCount_default {n : Count} (hn : n.toNat < 2 ^ 32 - 1) {e rest : List UInt8}
    (hencode : encodeToVector (encodeLength .default (n + 1).toNat) = .ok (.ok e))
    (hbytes : s'.bytes = e ++ rest) {t : ScaleDecoderStream}
    (hdecode : decodeCompact .default .uint32 (.ofSpan s') = .ok (n + 1) t) :
    n.toNat + 1 < 2 ^ 30 := by
  by_contra hge
  have hsize : (BitVec.ofNat CompactCompatible.size.width (n + 1).toNat).toNat = n.toNat + 1 := by
    rw [BitVec.toNat_ofNat, toNat_succ_count hn]
    exact Nat.mod_eq_of_lt (show n.toNat + 1 < 2 ^ 64 by omega)
  have hwrites := writes_encodeCompactInteger_builtin (T := .size) rfl
    (v := BitVec.ofNat _ (n + 1).toNat) (by rw [hsize]; omega)
  rw [← eq_of_encodeToVector hwrites hencode, hsize, List.cons_append] at hbytes
  -- the new prefix starts with a header that no accepted form has
  exact decodeCompact_builtin_header (v := n.toNat + 1) rfl (by omega) (by omega)
    (ScaleDecoderStream.valid_ofSpan s') ⟨[], by rw [List.append_nil]; exact hbytes.symm⟩
    _ _ hdecode

/-- Below the bound the new count is decoded from the new prefix. -/
theorem length_newPrefix {n : Count} (hn : n.toNat < 2 ^ 32 - 1)
    (hbound : n.toNat + 1 < countBound b) {e rest p' : List UInt8}
    (hencode : encodeToVector (encodeLength b (n + 1).toNat) = .ok (.ok e))
    (hbytes : s'.bytes = e ++ rest)
    (hdecode : decodeCompact b .uint32 (.ofSpan s') =
      .ok (n + 1) ((ScaleDecoderStream.ofSpan s').advance p'.length)) :
    p'.length = (compactForm b (n.toNat + 1)).length := by
  have hsize : n.toNat + 1 < compactBound b .size :=
    hbound.trans_le (countBound_le_compactBound rfl)
  rw [toNat_succ_count hn] at hencode
  rw [← eq_of_encodeToVector (writes_encodeLength hsize) hencode] at hbytes
  have hreads := reads_count hbound _ (ScaleDecoderStream.valid_ofSpan s') ⟨_, hbytes.symm⟩
  rw [ofNat_succ_count hn, hdecode] at hreads
  injection hreads with _ hadvance
  exact ScaleDecoderStream.advance_injective hadvance

theorem lengthOfPrefix_eq_pure {n : ℕ} (hn : n < countBound b) {k : ℕ}
    (h : (lengthOfPrefix b (BitVec.ofNat _ n) : Appending ℕ) = pure k) :
    k = (compactForm b n).length := by
  rw [lengthOfPrefix_eq hn] at h
  injection congrFun h ⟨[], by decide⟩ with hk _
  exact hk.symm

/-- Where the JAM build increments a count, its prefix is no slip: the last byte of a longer prefix
would be left in front of the payload. -/
theorem keepsCount_jam {n : Count} (hn : n.toNat < 2 ^ 32 - 1) {p q p' : List UInt8}
    (hbuffer : s.bytes = p ++ q)
    (hdecode : decodeCompact .jam .uint32 (.ofSpan s) =
      .ok n ((ScaleDecoderStream.ofSpan s).advance p.length))
    {k k' : ℕ} (hk : (lengthOfPrefix .jam n : Appending ℕ) = pure k)
    (hk' : (lengthOfPrefix .jam (n + 1) : Appending ℕ) = pure k')
    (hsize : s'.bytes.length = s.bytes.length +
      (if k ≠ k' then (k' + 2 ^ 32 - k) % 2 ^ 32 else 0) + input.bytes.length)
    (hbytes : s'.bytes = p' ++ (q ++ input.bytes))
    (hp' : p'.length = (compactForm .jam (n.toNat + 1)).length) : ¬ JamSlip s.bytes := by
  intro hslip
  have hshort := length_slip (ScaleDecoderStream.valid_ofSpan s) hdecode hslip rfl
  have hbound : n.toNat + 1 < countBound .jam := succ_lt_countBound hn (by rintro ⟨⟩)
  rw [← ofNat_toNat_count n] at hk
  rw [← ofNat_succ_count hn] at hk'
  have hkeq := lengthOfPrefix_eq_pure (by omega) hk
  have hkeq' := lengthOfPrefix_eq_pure hbound hk'
  have hmono := length_compactForm_mono (b := .jam) (Nat.le_succ n.toNat)
  have hle := length_compactForm_le hbound
  change k = (jamBytes n.toNat).length at hkeq
  rw [hbuffer, hbytes] at hsize
  -- the buffer has grown by the difference of the computed lengths, so that the old prefix would
  -- have the length computed for it
  simp only [List.length_append] at hsize
  split_ifs at hsize <;> omega

/-- A call on a buffer that is not empty and starts with a count below `2^32 - 1` increments the
count, and keeps the payload in front of the input, iff the build handles that count and prefix, and
the new buffer is not larger than a vector can be. -/
theorem appendOrNewVec_count_iff (b : Build) (buffer : ByteVector) (input : EncodeOpaqueValue)
    (n : Count) (p q : List UInt8) (hne : buffer.bytes ≠ []) (hbuffer : buffer.bytes = p ++ q)
    (hdecode : decodeCompact b .uint32 (.ofSpan buffer) =
      .ok n ((ScaleDecoderStream.ofSpan buffer).advance p.length))
    (hn : n.toNat < 2 ^ 32 - 1) :
    IncrementsCount b buffer input n q ↔
      KeepsCount b buffer n ∧
        (compactForm b (n.toNat + 1) ++ (q ++ input.bytes)).length < 2 ^ 63 := by
  refine ⟨?_, fun h => incrementsCount_of_keeps hbuffer hdecode hn h.1 h.2⟩
  rintro ⟨buffer', p', hcall, hbytes', hdecode'⟩
  rcases appendOrNewVec_eq_ok hne hcall with
    ⟨_, _, hr, _⟩ | ⟨len, k, k', e, rest, hlen, _, hk, hk', hencode, hbytes, hsize⟩
  · cases hr
  · rw [decode_compact_of_ok hdecode] at hlen
    injection hlen with hlen
    injection hlen with hlen
    -- the call has found the same count
    subst hlen
    have hbound : n.toNat + 1 < countBound b :=
      succ_lt_countBound hn (by rintro rfl; exact keepsCount_default hn hencode hbytes hdecode')
    have hp' := length_newPrefix hn hbound hencode hbytes hdecode'
    constructor
    · cases b with
      | default => exact hbound
      | jam => exact keepsCount_jam hn hbuffer hdecode hk hk' hsize hbytes' hp'
    · have hsize' := buffer'.size_lt
      rw [hbytes', List.length_append] at hsize'
      rwa [List.length_append, ← hp']

/-- Sixty-three values and one more, in the default build. -/
theorem appendOrNewVec_count_iff_sixtyFour :
    IncrementsCount .default ⟨[0xfc, 7], by decide⟩ ⟨[8], by decide⟩ 63 [7] :=
  (appendOrNewVec_count_iff .default ⟨[0xfc, 7], by decide⟩ ⟨[8], by decide⟩ 63 [0xfc] [7]
    (by decide) rfl (by decide +kernel) (by decide)).mpr
    ⟨show (63 : Count).toNat + 1 < 2 ^ 30 by decide, by decide +kernel⟩

/-- A buffer of `2^30 - 1` values in the default build, and the prefix `80 40` of 64 values in the
JAM build.  After the former is appended to, no count is decoded from it; after the latter, a byte
of its prefix has become the first one of the payload. -/
theorem appendOrNewVec_count_wrong :
    appendOrNewVec .default ⟨[9], by decide⟩ ⟨[0xfe, 0xff, 0xff, 0xff], by decide⟩ =
        .ok (.ok ()) ⟨[0x6f, 0, 0, 0, 0x40] ++ List.replicate 23 0 ++ [0xfe, 0xff, 0xff, 0xff, 9],
          by decide⟩ ∧
      decode .default (.compact .uint32)
        ⟨[0x6f, 0, 0, 0, 0x40] ++ List.replicate 23 0 ++ [0xfe, 0xff, 0xff, 0xff, 9], by decide⟩ =
        .ok (.error (.decode .decodedValueOverflowsTarget)) ∧
      appendOrNewVec .jam ⟨[9], by decide⟩ ⟨[0x80, 0x40], by decide⟩ =
        .ok (.ok ()) ⟨[0x41, 0x40, 9], by decide⟩ := by
  refine ⟨by decide +kernel, by decide +kernel, by decide +kernel⟩

end ScaleCodec
