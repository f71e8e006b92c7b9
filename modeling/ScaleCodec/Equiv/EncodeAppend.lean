import ScaleCodec.EncodeAppend
import ScaleCodec.Equiv.LengthFormulas

/-!
# Correctness of `append_or_new_vec`

The buffer represents a list of opaque values when it holds `opaqueBytes` of it, or nothing for the
empty list (`Represents`).  A call appends a value to the list represented
(`appendOrNewVec_represents`), and so does a run of calls (`appendAll_represents`).
-/

namespace ScaleCodec

variable {b : Build}

/-! ### Counts -/

/-- The counts whose prefixes are written as they are read, and have the length that is computed for
them: every `uint32_t` in the JAM build, and those below `2^30` in the default build. -/
def countBound : Build → ℕ
  | .default => 2 ^ 30
  | .jam => 2 ^ 32

theorem lt_countBound {n : ℕ} (hn : n < 2 ^ 30) : n < countBound b := by
  cases b with
  | default => exact hn
  | jam => exact hn.trans_le (two_pow_le 30 32 (by omega))

theorem countBound_le : countBound b ≤ 2 ^ 32 := by
  cases b with
  | default => exact two_pow_le 30 32 (by omega)
  | jam => exact le_rfl

/-- A count is below the bounds of the two types it has. -/
theorem countBound_le_compactBound {T : CompactCompatible} (hT : T.isIntegral) :
    countBound b ≤ compactBound b T := by
  cases b with
  | default => rw [countBound, compactBound, if_pos hT]
  | jam => exact two_pow_le 32 64 (by omega)

/-- A count below the bound is a `uint32_t`. -/
theorem toNat_count {n : ℕ} (hn : n < countBound b) : (BitVec.ofNat _ n : Count).toNat = n := by
  rw [BitVec.toNat_ofNat]
  exact Nat.mod_eq_of_lt (hn.trans_le countBound_le)

/-! ### The direct encoding -/

/-- The prefix for the number of values, and the bytes of all of them. -/
def opaqueBytes (b : Build) (values : List EncodeOpaqueValue) : List UInt8 :=
  compactForm b values.length ++ values.flatMap ByteBlock.bytes

theorem writes_opaqueValues {values : List EncodeOpaqueValue} (hn : values.length < 2 ^ 30) :
    Writes (encodeDynamicCollection b encodeOpaqueValue values) (opaqueBytes b values) := by
  have hitems : Writes (values.forM encodeOpaqueValue) (values.flatMap ByteBlock.bytes) := by
    clear hn
    induction values with
    | nil => exact writes_pure
    | cons v values ih => exact (writes_forM_putByte v.bytes).bind ih
  exact (writes_encodeLength (lt_compactBound rfl hn)).bind hitems

theorem encodeOpaqueValues_eq {values : List EncodeOpaqueValue} (hn : values.length < 2 ^ 30) :
    encodeOpaqueValues b values = .ok (.ok (opaqueBytes b values)) :=
  encodeToVector_eq (writes_opaqueValues hn)

theorem opaqueBytes_append (values : List EncodeOpaqueValue) (input : EncodeOpaqueValue) :
    opaqueBytes b (values ++ [input]) =
      compactForm b (values.length + 1) ++ (values.flatMap ByteBlock.bytes ++ input.bytes) := by
  rw [opaqueBytes, List.length_append, List.length_singleton, List.flatMap_append,
    List.flatMap_singleton]

/-! ### The lengths of the prefixes -/

theorem length_compactForm_le {n : ℕ} (hn : n < countBound b) : (compactForm b n).length ≤ 9 := by
  cases b with
  | default =>
    rw [compactForm, length_compactBytes_of_lt hn]
    split_ifs <;> omega
  | jam =>
    have := jamTail_le n
    rw [compactForm, length_jamBytes]
    omega

theorem length_compactForm_pos {n : ℕ} (hn : n < countBound b) :
    0 < (compactForm b n).length := by
  cases b with
  | default =>
    rw [compactForm, length_compactBytes_of_lt hn]
    split_ifs <;> omega
  | jam =>
    rw [compactForm, length_jamBytes]
    omega

/-- Below the bound the formulas for the length of a prefix are right. -/
theorem lengthOfPrefix_eq {σ : Type} {n : ℕ} (hn : n < countBound b) :
    (lengthOfPrefix b (BitVec.ofNat _ n) : EStateM Exception σ ℕ) =
      pure (compactForm b n).length := by
  have hle := length_compactForm_le hn
  have hv := toNat_count hn
  cases b with
  | default =>
    have hlt : (BitVec.ofNat _ n : Count).toNat < 2 ^ 30 := by rwa [hv]
    rw [compactForm] at hle ⊢
    rw [lengthOfPrefix.eq_def]
    dsimp only
    rw [lengthOfEncodedCompactInteger_of_lt hlt, hv, pure_bind, Nat.mod_eq_of_lt (by omega)]
  | jam =>
    have htail : n.log2 / 7 = jamTail n := by
      have hlt : n < 2 ^ 32 := hn
      exact (log2_div_eq_jamTail_iff (by omega)).mpr (by omega)
    rw [compactForm, length_jamBytes] at hle ⊢
    rw [lengthOfPrefix.eq_def]
    dsimp only
    rw [lengthOfEncodedJamCompactInteger_builtin rfl, hv, htail, pure_bind,
      Nat.mod_eq_of_lt (by omega)]

/-! ### What the operations of the vector do -/

theorem get_ok (s : ByteVector) : (get : Appending ByteVector) s = .ok s s := rfl

theorem reserve_ok {n : ℕ} {s : ByteVector} (hn : n < 2 ^ 63) : reserve n s = .ok () s := by
  rw [reserve, if_pos hn]
  rfl

theorem assign_ok {bytes : List UInt8} {s : ByteVector} (h : bytes.length < 2 ^ 63) :
    assign bytes s = .ok () ⟨bytes, h⟩ := by
  rw [assign, dif_pos h]
  rfl

theorem insertEnd_ok {bytes : List UInt8} {s : ByteVector}
    (h : (s.bytes ++ bytes).length < 2 ^ 63) :
    insertEnd bytes s = .ok () ⟨s.bytes ++ bytes, h⟩ := by
  rw [insertEnd, EStateM.bind_ok (get_ok s), assign_ok h]

/-- Rotating the reversed vector brings its last items to the front. -/
theorem rotateReversed_ok {s : ByteVector} {front back : List UInt8}
    (hs : s.bytes = front ++ back) :
    ∃ s', rotateReversed back.length s = .ok () s' ∧ s'.bytes = back ++ front := by
  refine ⟨_, rfl, ?_⟩
  show (s.bytes.reverse.rotate back.length).reverse = back ++ front
  have hrotate := List.rotate_append_length_eq back.reverse front.reverse
  rw [List.length_reverse] at hrotate
  rw [hs, List.reverse_append, hrotate, List.reverse_append, List.reverse_reverse,
    List.reverse_reverse]

theorem overwrite_ok {s : ByteVector} {bytes old rest : List UInt8} (hs : s.bytes = old ++ rest)
    (hlen : bytes.length = old.length) :
    ∃ s', overwrite bytes s = .ok () s' ∧ s'.bytes = bytes ++ rest := by
  have hle : bytes.length ≤ s.bytes.length := by
    rw [hs, List.length_append, hlen]
    omega
  refine ⟨⟨bytes ++ s.bytes.drop bytes.length, ?_⟩, ?_, ?_⟩
  · have := s.size_lt
    rw [List.length_append, List.length_drop]
    omega
  · rw [overwrite, EStateM.bind_ok (get_ok s),
      dif_pos hle]
    rfl
  · show bytes ++ s.bytes.drop bytes.length = bytes ++ rest
    rw [hs, hlen, List.drop_left]

/-! ### One call -/

/-- A prefix of a count is decoded. -/
theorem reads_count {n : ℕ} (hn : n < countBound b) :
    Reads (decodeCompact b .uint32) (compactForm b n) (BitVec.ofNat _ n) := by
  have hv := toNat_count hn
  have hreads := reads_compactForm (b := b) (T := .uint32) (v := BitVec.ofNat _ n)
    (by rw [hv]; exact hn.trans_le (countBound_le_compactBound rfl))
  rwa [hv] at hreads

theorem extractLengthData_ok {n : ℕ} (hn : n + 1 < countBound b) {data s : ByteVector}
    (hdecode : decode b (.compact .uint32) data = .ok (.ok (BitVec.ofNat _ n))) :
    extractLengthData b data s = .ok (.ok (BitVec.ofNat _ (n + 1), (compactForm b n).length,
      (compactForm b (n + 1)).length)) s := by
  have hnew : (BitVec.ofNat _ n + 1 : Count) = BitVec.ofNat _ (n + 1) :=
    (BitVec.ofNat_add n 1).symm
  rw [extractLengthData, hdecode, call, pure_bind]
  dsimp only
  rw [hnew, lengthOfPrefix_eq (by omega), lengthOfPrefix_eq hn]
  rfl

theorem replaceLen_ok {n : ℕ} (hn : n < countBound b) {s : ByteVector} {old rest : List UInt8}
    (hs : s.bytes = old ++ rest) (hlen : (compactForm b n).length = old.length) :
    ∃ s', replaceLen b (BitVec.ofNat _ n) s = .ok () s' ∧ s'.bytes = compactForm b n ++ rest := by
  have hbound : n < compactBound b .size := hn.trans_le (countBound_le_compactBound rfl)
  rw [replaceLen, toNat_count hn, encodeToVector_eq (writes_encodeLength hbound), call, pure_bind,
    value, pure_bind]
  exact overwrite_ok hs hlen

/-- After room is made, something as long as the new prefix stands in front of the payload. -/
theorem makeRoom_ok {s : ByteVector} {pre payload : List UInt8} {newLen inputSize : ℕ}
    (hs : s.bytes = pre ++ payload) (hpre : pre.length ≤ newLen) (hnew : newLen < 2 ^ 32)
    (hmax : newLen + payload.length + inputSize < 2 ^ 63) :
    ∃ s' old, makeRoom pre.length newLen inputSize s = .ok () s' ∧
      s'.bytes = old ++ payload ∧ newLen = old.length := by
  have hsize : s.size = pre.length + payload.length := by
    rw [ByteBlock.size, hs, List.length_append]
  rw [makeRoom, EStateM.bind_ok (get_ok s)]
  by_cases heq : pre.length = newLen
  · -- the new prefix is as long as the old one
    have hreserve : (s.size + inputSize) % 2 ^ 64 = newLen + payload.length + inputSize := by
      rw [Nat.mod_eq_of_lt (by omega)]
      omega
    rw [if_neg (by omega), hreserve, reserve_ok hmax]
    exact ⟨s, pre, rfl, hs, heq.symm⟩
  · have hrest : (s.size + 2 ^ 64 - pre.length) % 2 ^ 64 = payload.length := by omega
    have hreserve : (newLen + payload.length + inputSize) % 2 ^ 64 =
        newLen + payload.length + inputSize := Nat.mod_eq_of_lt (by omega)
    have hshift : (newLen + 2 ^ 32 - pre.length) % 2 ^ 32 = newLen - pre.length := by omega
    have hgrown : (s.bytes ++ List.replicate (newLen - pre.length) 0).length =
        newLen + payload.length := by
      rw [hs, List.length_append, List.length_append, List.length_replicate]
      omega
    rw [if_pos heq]
    dsimp only
    rw [hrest, hreserve, hshift, EStateM.bind_ok (reserve_ok hmax), growBy,
      EStateM.bind_ok (insertEnd_ok (by omega))]
    -- what was put behind the payload comes to stand in front of the old prefix
    let grown : ByteVector := ⟨s.bytes ++ List.replicate (newLen - pre.length) 0, by omega⟩
    have hbytes : grown.bytes = s.bytes ++ List.replicate (newLen - pre.length) 0 := rfl
    obtain ⟨s', hrotate, hs'⟩ := rotateReversed_ok hbytes
    rw [List.length_replicate] at hrotate
    refine ⟨s', List.replicate (newLen - pre.length) 0 ++ pre, hrotate, ?_, ?_⟩
    · rw [hs', hs, List.append_assoc]
    · rw [List.length_append, List.length_replicate]
      omega

/-- What the buffer stands for: its bytes are the direct encoding, or there are none yet. -/
def Represents (b : Build) (values : List EncodeOpaqueValue) (buffer : ByteVector) : Prop :=
  buffer.bytes = opaqueBytes b values ∨ values = [] ∧ buffer.bytes = []

/-- A call on an empty buffer encodes the vector of the one value. -/
theorem appendOrNewVec_empty {input : EncodeOpaqueValue} {s : ByteVector} (hs : s.bytes = [])
    (hmax : (opaqueBytes b [input]).length < 2 ^ 63) :
    ∃ s', appendOrNewVec b input s = .ok (.ok ()) s' ∧ s'.bytes = opaqueBytes b [input] := by
  refine ⟨⟨opaqueBytes b [input], hmax⟩, ?_, rfl⟩
  have hone : [input].length < 2 ^ 30 := by
    rw [List.length_singleton]
    omega
  rw [appendOrNewVec, EStateM.bind_ok (get_ok s), if_pos (by rw [hs]; rfl),
    encodeOpaqueValues_eq hone, call, pure_bind, value, pure_bind, EStateM.bind_ok (assign_ok hmax)]
  rfl

/-- A call on a buffer that starts with a count: what is as long as the prefix for it is replaced by
the prefix for one more, and the input comes behind the rest. -/
theorem appendOrNewVec_count {n : ℕ} (hn : n + 1 < countBound b) {s : ByteVector}
    {pre payload : List UInt8} {input : EncodeOpaqueValue}
    (hdecode : decode b (.compact .uint32) s = .ok (.ok (BitVec.ofNat _ n)))
    (hs : s.bytes = pre ++ payload) (hpre : pre.length = (compactForm b n).length)
    (hmax : (compactForm b (n + 1) ++ (payload ++ input.bytes)).length < 2 ^ 63) :
    ∃ s', appendOrNewVec b input s = .ok (.ok ()) s' ∧
      s'.bytes = compactForm b (n + 1) ++ (payload ++ input.bytes) := by
  have hpos := length_compactForm_pos (b := b) (n := n) (by omega)
  have hmono : pre.length ≤ (compactForm b (n + 1)).length :=
    hpre.trans_le (length_compactForm_mono (Nat.le_succ n))
  have hle := length_compactForm_le hn
  have hinput : input.size = input.bytes.length := rfl
  have hne : ¬ s.bytes.isEmpty := by
    rw [List.isEmpty_iff, hs, ← List.length_eq_zero_iff, List.length_append]
    omega
  rw [List.length_append, List.length_append] at hmax
  obtain ⟨s₁, old, hroom, hs₁, hold⟩ := makeRoom_ok (s := s) hs hmono (by omega)
    (show _ + _ + input.size < 2 ^ 63 by omega)
  obtain ⟨s₂, hreplace, hs₂⟩ := replaceLen_ok hn hs₁ hold
  have hlen : (s₂.bytes ++ input.bytes).length < 2 ^ 63 := by
    rw [hs₂, List.length_append, List.length_append]
    omega
  refine ⟨⟨s₂.bytes ++ input.bytes, hlen⟩, ?_, ?_⟩
  · rw [appendOrNewVec, EStateM.bind_ok (get_ok s), if_neg hne,
      EStateM.bind_ok (extractLengthData_ok hn hdecode)]
    dsimp only
    rw [← hpre, EStateM.bind_ok hroom, EStateM.bind_ok hreplace,
      EStateM.bind_ok (insertEnd_ok hlen)]
    rfl
  · show s₂.bytes ++ input.bytes = _
    rw [hs₂, List.append_assoc]

/-- A call on the direct encoding of values adds one to them. -/
theorem appendOrNewVec_nonempty {values : List EncodeOpaqueValue} {input : EncodeOpaqueValue}
    {s : ByteVector} (hn : values.length + 1 < countBound b) (hs : s.bytes = opaqueBytes b values)
    (hmax : (opaqueBytes b (values ++ [input])).length < 2 ^ 63) :
    ∃ s', appendOrNewVec b input s = .ok (.ok ()) s' ∧
      s'.bytes = opaqueBytes b (values ++ [input]) := by
  have hdecode : decode b (.compact .uint32) s = .ok (.ok (BitVec.ofNat _ values.length)) :=
    decode_eq (t := .compact .uint32) (reads_count (by omega))
      (hs ▸ List.prefix_append _ _)
  rw [opaqueBytes_append] at hmax ⊢
  exact appendOrNewVec_count hn hdecode hs rfl hmax

/-- One step: whatever the buffer stands for, a call adds the value to it. -/
theorem appendOrNewVec_represents {values : List EncodeOpaqueValue} {input : EncodeOpaqueValue}
    {s : ByteVector} (hn : values.length + 1 < countBound b) (hs : Represents b values s)
    (hmax : (opaqueBytes b (values ++ [input])).length < 2 ^ 63) :
    ∃ s', appendOrNewVec b input s = .ok (.ok ()) s' ∧
      s'.bytes = opaqueBytes b (values ++ [input]) := by
  rcases hs with hs | ⟨rfl, hs⟩
  · exact appendOrNewVec_nonempty hn hs hmax
  · exact appendOrNewVec_empty hs hmax

/-! ### A run of calls -/

/-- The encoding of fewer values is not longer. -/
theorem length_opaqueBytes_le_append (values more : List EncodeOpaqueValue) :
    (opaqueBytes b values).length ≤ (opaqueBytes b (values ++ more)).length := by
  have hle : values.length ≤ (values ++ more).length := by
    rw [List.length_append]
    omega
  have hmono := length_compactForm_mono (b := b) hle
  rw [opaqueBytes, opaqueBytes, List.flatMap_append]
  simp only [List.length_append] at hmono ⊢
  omega

/-- A run of calls adds its inputs to what the buffer stands for. -/
theorem appendAll_represents {inputs : List EncodeOpaqueValue} :
    ∀ {values : List EncodeOpaqueValue} {s : ByteVector}, (values ++ inputs).length < countBound b →
      Represents b values s → (opaqueBytes b (values ++ inputs)).length < 2 ^ 63 →
        ∃ s', appendAll b inputs s = .ok (.ok ()) s' ∧ Represents b (values ++ inputs) s' := by
  induction inputs with
  | nil =>
    intro values s _ hs _
    rw [List.append_nil]
    exact ⟨s, rfl, hs⟩
  | cons input inputs ih =>
    intro values s hn hs hmax
    rw [List.append_cons] at hn hmax ⊢
    have hcount : values.length + 1 < countBound b := by
      rw [List.length_append, List.length_append, List.length_singleton] at hn
      omega
    obtain ⟨s₁, hcall, hs₁⟩ := appendOrNewVec_represents hcount hs
      ((length_opaqueBytes_le_append _ inputs).trans_lt hmax)
    obtain ⟨s', hrun, hs'⟩ := ih hn (.inl hs₁) hmax
    refine ⟨s', ?_, hs'⟩
    rw [appendAll, EStateM.bind_ok hcall]
    exact hrun

/-- A run ends with the direct encoding, unless the buffer was empty and nothing is appended. -/
theorem appendAll_direct {values inputs : List EncodeOpaqueValue} {s : ByteVector}
    (hn : (values ++ inputs).length < countBound b) (hs : Represents b values s)
    (hne : s.bytes = opaqueBytes b values ∨ inputs ≠ [])
    (hmax : (opaqueBytes b (values ++ inputs)).length < 2 ^ 63) :
    ∃ s', appendAll b inputs s = .ok (.ok ()) s' ∧
      s'.bytes = opaqueBytes b (values ++ inputs) := by
  obtain ⟨s', hrun, hbytes | ⟨hnil, _⟩⟩ := appendAll_represents hn hs hmax
  · exact ⟨s', hrun, hbytes⟩
  · obtain ⟨rfl, rfl⟩ := List.append_eq_nil_iff.mp hnil
    exact ⟨s, rfl, hne.resolve_right fun h => h rfl⟩

/-- `append_or_new_vec` refines appending to a vector: from the direct encoding of `items`, or from
an empty buffer for none, every call succeeds and leaves the direct encoding of the list so far.
The one for the whole list is a vector `direct` that exists. -/
theorem appendAll_refines {items inputs : List EncodeOpaqueValue} {buffer direct : ByteVector}
    (hn : items.length + inputs.length < 2 ^ 30)
    (hbuffer : encodeOpaqueValues b items = .ok (.ok buffer.bytes) ∨
      items = [] ∧ buffer.bytes = [])
    (hdirect : encodeOpaqueValues b (items ++ inputs) = .ok (.ok direct.bytes)) {k : ℕ}
    (hpos : 0 < k) (hk : k ≤ inputs.length) :
    ∃ buffer', appendAll b (inputs.take k) buffer = .ok (.ok ()) buffer' ∧
      encodeOpaqueValues b (items ++ inputs.take k) = .ok (.ok buffer'.bytes) ∧
      buffer'.bytes = opaqueBytes b (items ++ inputs.take k) := by
  have hall : (items ++ inputs).length < 2 ^ 30 := by rwa [List.length_append]
  -- the calls made so far, and those to come
  have hsplit : items ++ inputs = items ++ inputs.take k ++ inputs.drop k := by
    rw [List.append_assoc, List.take_append_drop]
  have hsofar : (items ++ inputs.take k).length < 2 ^ 30 := by
    rw [List.length_append, List.length_take]
    omega
  have hdirect' : opaqueBytes b (items ++ inputs) = direct.bytes :=
    eq_of_encodeToVector (writes_opaqueValues hall) hdirect
  have hstart : Represents b items buffer :=
    hbuffer.imp_left fun h => (eq_of_encodeToVector (writes_opaqueValues (by omega)) h).symm
  have hmax : (opaqueBytes b (items ++ inputs.take k)).length < 2 ^ 63 := by
    refine lt_of_le_of_lt ?_ direct.size_lt
    rw [← hdirect', hsplit]
    exact length_opaqueBytes_le_append _ _
  -- at least one call is made
  have hne : inputs.take k ≠ [] := by
    rw [← List.length_pos_iff, List.length_take]
    omega
  obtain ⟨buffer', hrun, hbytes⟩ := appendAll_direct (lt_countBound hsofar) hstart (Or.inr hne) hmax
  exact ⟨buffer', hrun, by rw [encodeOpaqueValues_eq hsofar, hbytes], hbytes⟩

/-- Sixty-three values and two more, one of them empty: the prefix becomes longer on the way. -/
theorem appendAll_refines_prefix_grows :
    ∃ buffer', appendAll .default ([⟨[7, 8], by decide⟩, ⟨[], by decide⟩].take 2)
        ⟨[0xfc] ++ List.replicate 63 5, by decide⟩ = .ok (.ok ()) buffer' ∧
      encodeOpaqueValues .default (List.replicate 63 ⟨[5], by decide⟩ ++
        [⟨[7, 8], by decide⟩, ⟨[], by decide⟩].take 2) = .ok (.ok buffer'.bytes) ∧
      buffer'.bytes = opaqueBytes .default (List.replicate 63 ⟨[5], by decide⟩ ++
        [⟨[7, 8], by decide⟩, ⟨[], by decide⟩].take 2) :=
  let direct : ByteVector := ⟨[0x05, 0x01] ++ List.replicate 63 5 ++ [7, 8], by decide⟩
  have hdirect : encodeOpaqueValues .default (List.replicate 63 ⟨[5], by decide⟩ ++
      [⟨[7, 8], by decide⟩, ⟨[], by decide⟩]) = .ok (.ok direct.bytes) := by
    decide +kernel
  appendAll_refines (by decide) (.inl (by decide +kernel)) hdirect (by decide) (by decide)

end ScaleCodec
