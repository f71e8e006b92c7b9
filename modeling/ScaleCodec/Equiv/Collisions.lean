import ScaleCodec.Equiv.Outputs

/-!
# Encodings that do not collide

Some values that `encode` accepts cannot be read back: the default build announces too many bytes
for builtin numbers from `2^30` on.  Their bytes are of one value only nevertheless.  The outputs of
a type tell its values apart, whatever follows (`tellsApart_output`, by induction over the type), so
that no encoding begins the one of another value (`encode_isPrefix_iff`).

This is about the values that are `WrittenWhole`.  Of the other ones a part is not written: the
upper limbs of a big integer, or that a variant is valueless.
-/

namespace ScaleCodec

open BitPacking Emission

variable {α β : Type} {n : ℕ} {αs : Fin n → Type} {b : Build}

/-- No variant is valueless, and no big integer has more bytes than are written. -/
def ScaleType.WrittenWhole : {α : Type} → ScaleType α → α → Prop
  | _, integral _, _ => True
  | _, enum _ _, _ => True
  | _, bigFixedWidthInteger T, v => v.toNat < 256 ^ T.bytes
  | _, compact _, _ => True
  | _, optional t, v => ∀ x ∈ v, t.WrittenWhole x
  | _, pair t u, v => t.WrittenWhole v.1 ∧ u.WrittenWhole v.2
  | _, tuple ts, v => ∀ i, (ts i).WrittenWhole (v i)
  | _, variant ts _, v => ∃ i x, v = .holds i x ∧ (ts i).WrittenWhole x
  | _, pointer _ t, v => ∀ x allocated, v = .to x allocated → t.WrittenWhole x
  | _, staticCollection _ t, v => ∀ x ∈ v.1, t.WrittenWhole x
  | _, resizeable _ t, v => ∀ x ∈ v.items, t.WrittenWhole x
  | _, vectorBool _, _ => True
  | _, bitVec _, _ => True
  | _, extensibleBack _ t, v => ∀ x ∈ v.items, t.WrittenWhole x
  | _, randomExtensible _ _ t, v => ∀ x ∈ v.items, t.WrittenWhole x

/-! ### Numbers -/

/-- What is read back is told apart. -/
theorem tellsApart_of_reads {P : α → Prop} {d : Decoding α} {word : α → List UInt8}
    (hlen : ∀ x, P x → (word x).length < 2 ^ 63) (h : ∀ x, P x → Reads d (word x) x) :
    TellsApart P fun x => (put (word x) : Output) := by
  -- both words come first in the longer one
  have hpre : ∀ x y, P x → P y → word x <+: word y → x = y := by
    intro x y hx hy hpre
    have hs := ScaleDecoderStream.valid_ofSpan ⟨word y, hlen y hy⟩
    have hrun := h x hx _ hs hpre
    rw [h y hy _ hs List.prefix_rfl] at hrun
    injection hrun with hvalue _
    exact hvalue.symm
  intro x y hx hy _ _ as bs heq
  simp only [symbols_put] at heq
  rcases List.prefix_or_prefix_of_prefix (List.prefix_append (word x) as)
    (heq ▸ List.prefix_append (word y) bs) with hxy | hyx
  · exact hpre x y hx hy hxy
  · exact (hpre y x hy hx hyx).symm

/-- What the default build puts for a builtin number. -/
def builtinBytes (v : ℕ) : List UInt8 :=
  if v < 2 ^ 30 then compactBytes v
  else UInt8.ofNat (4 * (bitWidth v - 4) + 3) :: LittleEndian.bytes (LittleEndian.length v) v

/-- The short forms do not begin as a header does. -/
theorem exists_compactBytes_of_lt {v : ℕ} (hv : v < 2 ^ 30) :
    ∃ c q, compactBytes v = c :: q ∧ c.toNat % 4 ≠ 3 := by
  unfold compactBytes
  split_ifs <;> exact ⟨_, _, rfl, by rw [UInt8.toNat_ofNat']; omega⟩

theorem bitWidth_le {v : ℕ} (hv : v < 2 ^ 64) : bitWidth v ≤ 64 := by
  unfold bitWidth
  split_ifs with h0
  · omega
  · have hlog := (Nat.log2_lt h0).mpr hv
    omega

theorem toNat_builtinHeader {v : ℕ} (hv : v < 2 ^ 64) :
    (UInt8.ofNat (4 * (bitWidth v - 4) + 3)).toNat = 4 * (bitWidth v - 4) + 3 := by
  have hwidth := bitWidth_le hv
  exact toNat_ofNat_of_lt (by omega)

/-- The number of bits tells the number of bytes. -/
theorem length_of_bitWidth {v : ℕ} (hv : 2 ^ 30 ≤ v) :
    30 < bitWidth v ∧ LittleEndian.length v = (bitWidth v - 1) / 8 + 1 := by
  have h0 : v ≠ 0 := by omega
  have hlog : ¬ v.log2 < 30 := fun h => by
    have hlt := (Nat.log2_lt h0).mp h
    omega
  rw [bitWidth, if_neg h0, LittleEndian.length, if_neg h0]
  exact ⟨by omega, rfl⟩

theorem length_compactBytes_lt_span {v : ℕ} (hv : v < 2 ^ 536) :
    (compactBytes v).length < 2 ^ 63 := by
  rcases Nat.lt_or_ge v (2 ^ 30) with hlt | hge
  · rw [length_compactBytes_of_lt hlt]
    split_ifs <;> omega
  · have hbound := (length_bounds hge).2.mpr hv
    rw [length_compactBytes_of_le hge]
    omega

theorem tellsApart_compactBytes :
    TellsApart (fun v => v < 2 ^ 536) fun v => (put (compactBytes v) : Output) :=
  tellsApart_of_reads (fun _ => length_compactBytes_lt_span) fun _ => reads_compactBytes

theorem tellsApart_jamBytes :
    TellsApart (fun v => v < 2 ^ 64) fun v => (put (jamBytes v) : Output) := by
  refine tellsApart_of_reads (fun v _ => ?_) fun v hv => reads_jamBytes hv
  have hle := jamTail_le v
  rw [length_jamBytes]
  omega

/-- The header is wrong, but tells how many bytes there are. -/
theorem tellsApart_builtinBytes :
    TellsApart (fun v => v < 2 ^ 64) fun v => (put (builtinBytes v) : Output) := by
  have hmixed : ∀ v w as bs, v < 2 ^ 30 → 2 ^ 30 ≤ w → w < 2 ^ 64 →
      builtinBytes v ++ as ≠ builtinBytes w ++ bs := by
    intro v w as bs hv hw hw64 heq
    obtain ⟨c, q, hbytes, hc⟩ := exists_compactBytes_of_lt hv
    rw [builtinBytes, builtinBytes, if_pos hv, if_neg (by omega), hbytes] at heq
    injection heq with hhead _
    rw [hhead, toNat_builtinHeader hw64] at hc
    omega
  intro v w hv hw _ _ as bs heq
  simp only [symbols_put] at heq
  rcases Nat.lt_or_ge v (2 ^ 30) with hv30 | hv30
  · rcases Nat.lt_or_ge w (2 ^ 30) with hw30 | hw30
    · rw [builtinBytes, builtinBytes, if_pos hv30, if_pos hw30] at heq
      have h536 := two_pow_le 30 536 (by omega)
      exact tellsApart_compactBytes v w (hv30.trans_le h536) (hw30.trans_le h536) rfl rfl as bs heq
    · exact absurd heq (hmixed v w as bs hv30 hw30 hw)
  · rcases Nat.lt_or_ge w (2 ^ 30) with hw30 | hw30
    · exact absurd heq.symm (hmixed w v bs as hw30 hv30 hv)
    · rw [builtinBytes, builtinBytes, if_neg (by omega), if_neg (by omega)] at heq
      injection heq with hhead htail
      have hheader := congrArg UInt8.toNat hhead
      rw [toNat_builtinHeader hv, toNat_builtinHeader hw] at hheader
      obtain ⟨hv31, hvlen⟩ := length_of_bitWidth hv30
      obtain ⟨hw31, hwlen⟩ := length_of_bitWidth hw30
      have hlen : LittleEndian.length v = LittleEndian.length w := by omega
      have hbytes := List.append_inj_left htail (by simpa using hlen)
      rw [← LittleEndian.value_bytes_of_lt (LittleEndian.lt_pow_length v), hbytes,
        LittleEndian.value_bytes_of_lt (LittleEndian.lt_pow_length w)]

/-- No compact integer begins as another one, also those that cannot be read back. -/
theorem tellsApart_compactOutput (b : Build) (T : CompactCompatible) :
    TellsApart (fun v => v < 2 ^ T.width) (compactOutput b T) := by
  cases b with
  | jam =>
    refine tellsApart_jamBytes.of_eq fun v _ hok => ?_
    have hv : v < 2 ^ 64 := refused_ite.mp hok
    exact ⟨hv, if_pos hv⟩
  | default =>
    by_cases hT : T.isIntegral
    · refine tellsApart_builtinBytes.of_eq fun v hv _ => ?_
      refine ⟨hv.trans_le (two_pow_le _ _ (CompactCompatible.width_le_of_isIntegral hT)), ?_⟩
      simp only [compactOutput, builtinBytes, if_pos hT]
      split_ifs <;> rfl
    · refine tellsApart_compactBytes.of_eq fun v hv hok => ?_
      have hbound := (refused_compactOutput .default T hv).mp hok
      rw [acceptBound, if_neg hT] at hbound
      refine ⟨hbound, ?_⟩
      simp only [compactOutput, if_neg hT, if_pos hbound, ite_self]

/-! ### Composite values -/

theorem tellsApart_integral (i : Integral β) :
    TellsApart (fun _ => True) fun v => (put (integralBytes i v) : Output) := by
  refine tellsApart_of_reads (fun v _ => ?_) fun v _ => reads_decodeIntegral i v
  cases i with
  | bool => exact (by omega : 1 < 2 ^ 63)
  | int signed size =>
    rw [integralBytes, LittleEndian.length_bytes]
    cases size <;> decide

theorem tellsApart_bigFixedWidthInteger (T : BigFixedWidthInteger) :
    TellsApart (fun v : BitVec T.width => v.toNat < 256 ^ T.bytes)
      fun v => (put (LittleEndian.bytes T.bytes v.toNat) : Output) := by
  refine tellsApart_put (fun v w _ _ => ?_) fun v w hv hw heq => ?_
  · rw [LittleEndian.length_bytes, LittleEndian.length_bytes]
  · apply BitVec.eq_of_toNat_eq
    rw [← LittleEndian.value_bytes_of_lt hv, heq, LittleEndian.value_bytes_of_lt hw]

theorem tellsApart_optional {P : α → Prop} {o : α → Output} (h : TellsApart P o)
    (isBool : Option (PLift (α = Bool))) :
    TellsApart (fun v : Option α => ∀ x ∈ v, P x) (optionalOutput isBool o) := by
  rcases isBool with _ | ⟨⟨rfl⟩⟩
  · intro v w hv hw hok hok' as bs heq
    cases v with
    | none =>
      cases w with
      | none => rfl
      | some y => cases heq
    | some x =>
      cases w with
      | none => cases heq
      | some y =>
        injection heq with _ htail
        rw [h x y (hv x rfl) (hw y rfl) hok hok' as bs htail]
  · rintro (_ | _ | _) (_ | _ | _) _ _ _ _ as bs heq <;> first | rfl | cases heq

theorem tellsApart_pair {P : α → Prop} {Q : β → Prop} {o : α → Output} {o' : β → Output}
    (h : TellsApart P o) (h' : TellsApart Q o') :
    TellsApart (fun v : α × β => P v.1 ∧ Q v.2) fun v => o v.1 * o' v.2 :=
  h.mul (fun _ hv => hv.1) fun _ =>
    h'.comap Prod.snd (fun _ hv => hv.1.2) fun _ _ hv hw heq => Prod.ext (hv.2.trans hw.2.symm) heq

theorem tellsApart_variant {P : ∀ i, αs i → Prop} {o : ∀ i, αs i → Output} (hn : n ≤ 256)
    (h : ∀ i, TellsApart (P i) (o i)) :
    TellsApart (fun v : Variant αs => ∃ i x, v = .holds i x ∧ P i x) (variantOutput o) := by
  rintro _ _ ⟨i, x, rfl, hx⟩ ⟨j, y, rfl, hy⟩ hok hok' as bs heq
  injection heq with hhead htail
  have hij := congrArg UInt8.toNat hhead
  rw [toNat_ofNat_of_lt (by omega), toNat_ofNat_of_lt (by omega)] at hij
  obtain rfl := Fin.ext hij
  rw [h i x y hx hy hok hok' as bs htail]

theorem tellsApart_pointer {heap : Bool} {P : α → Prop} {o : α → Output} (h : TellsApart P o) :
    TellsApart (fun v : Pointer heap α => ∀ x allocated, v = .to x allocated → P x)
      (pointerOutput o) := by
  rintro (_ | ⟨x, allocated⟩) (_ | ⟨y, allocated'⟩) hv hw hok hok' as bs heq
  · rfl
  · cases hok
  · cases hok'
  · rw [h x y (hv x _ rfl) (hw y _ rfl) hok hok' as bs heq]

/-- The number of items tells how many there are to be told apart. -/
theorem tellsApart_counted {f : α → ℕ} {P : α → Prop} {o : α → Output}
    (hf : ∀ x, P x → f x < 2 ^ 64) (h : ∀ k, TellsApart (fun x => P x ∧ f x = k) o) :
    TellsApart P fun x => compactOutput b .size (f x % 2 ^ 64) * o x := by
  refine ((tellsApart_compactOutput b .size).of_eq (P := fun k => k < 2 ^ 64)
    (o := fun k => compactOutput b .size (k % 2 ^ 64)) fun k hk _ => ?_).mul hf h
  rw [Nat.mod_eq_of_lt hk]
  exact ⟨hk, rfl⟩

theorem tellsApart_collection {P : α → Prop} {o : α → Output} (h : TellsApart P o) :
    TellsApart (fun items : List α => items.length < 2 ^ 64 ∧ ∀ x ∈ items, P x)
      (collectionOutput b o) :=
  tellsApart_counted (fun _ hitems => hitems.1) fun k =>
    (h.prod_map k).mono fun _ hitems => ⟨hitems.2, hitems.1.2⟩

theorem tellsApart_packedBytes (k : ℕ) :
    TellsApart (fun bits : List Bool => bits.length = k)
      fun bits => (put (packedBytes bits) : Output) := by
  refine tellsApart_put (fun bits bits' hlen hlen' => ?_) fun bits bits' hlen hlen' heq => ?_
  · rw [packedBytes, packedBytes, List.length_map, List.length_map, hlen, hlen']
  · have hpacks : ∀ bits, Packs bits (packedBytes bits) := fun bits => by
      obtain ⟨body, _, hbody⟩ := packs_encodeBits bits
      rwa [hbody.eq_packedBytes] at hbody
    rw [← (hpacks bits).bitsFrom_eq List.prefix_rfl, ← (hpacks bits').bitsFrom_eq List.prefix_rfl,
      hlen, hlen', heq]

open ScaleType in
/-- What is put for a value that is written whole is put for no other one, nor does it begin what is
put for another one. -/
theorem tellsApart_output (b : Build) (t : ScaleType α) :
    TellsApart t.WrittenWhole (t.output b) := by
  induction t with
  | integral i => exact tellsApart_integral i
  | enum i traits => exact tellsApart_integral i
  | bigFixedWidthInteger T => exact tellsApart_bigFixedWidthInteger T
  | compact T =>
    exact (tellsApart_compactOutput b T).comap BitVec.toNat (fun v _ => v.isLt) fun v w _ _ =>
      BitVec.eq_of_toNat_eq
  | optional t ih => exact tellsApart_optional ih t.isBool?
  | pair t u iht ihu => exact tellsApart_pair iht ihu
  | tuple ts ih => exact tellsApart_prod_ofFn ih
  | variant ts hn ih => exact tellsApart_variant hn ih
  | pointer heap t ih => exact tellsApart_pointer ih
  | staticCollection n t ih =>
    exact (ih.prod_map n).comap Subtype.val (fun v hv => ⟨v.2, hv⟩) fun v w _ _ => Subtype.ext
  | resizeable cap t ih =>
    exact (tellsApart_collection ih).comap Collection.items (fun v hv => ⟨v.admits.lt, hv⟩)
      fun v w _ _ => Collection.ext
  | vectorBool cap =>
    exact (tellsApart_collection (tellsApart_integral .bool)).comap Collection.items
      (fun v _ => ⟨v.admits.lt, fun _ _ => trivial⟩) fun v w _ _ => Collection.ext
  | bitVec cap =>
    have hbits : TellsApart (fun bits : List Bool => bits.length < 2 ^ 64) fun bits =>
        compactOutput b .size (bits.length % 2 ^ 64) * put (packedBytes bits) :=
      tellsApart_counted (fun _ h => h) fun k => (tellsApart_packedBytes k).mono fun _ h => h.2
    exact hbits.comap (fun v : BitVecValue cap => v.bits.items) (fun v _ => v.bits.admits.lt)
      fun v w _ _ => BitVecValue.ext
  | extensibleBack cap t ih =>
    exact (tellsApart_collection ih).comap Collection.items (fun v hv => ⟨v.admits.lt, hv⟩)
      fun v w _ _ => Collection.ext
  | randomExtensible cap order t ih =>
    exact (tellsApart_collection ih).comap OrderedCollection.items (fun v hv => ⟨v.admits.lt, hv⟩)
      fun v w _ _ => OrderedCollection.ext

theorem encode_eq_ok {t : ScaleType α} {v : α} {p : List UInt8}
    (h : encode b t v = .ok (.ok p)) :
    (t.output b v).refused = none ∧ (t.output b v).symbols = p := by
  rw [encode, encodeToVector_of_puts (puts_output b t v)] at h
  cases ho : (t.output b v).refused with
  | none =>
    rw [ho] at h
    cases h
    exact ⟨rfl, rfl⟩
  | some e =>
    rw [ho] at h
    cases h

/-- Of the values of a type that are written whole, no two have the same encoding, and none has one
that begins the encoding of another value, whether they can be read back or not. -/
theorem encode_isPrefix_iff {t : ScaleType α} {v w : α} (hv : t.WrittenWhole v)
    (hw : t.WrittenWhole w) {p q : List UInt8} (hp : encode b t v = .ok (.ok p))
    (hq : encode b t w = .ok (.ok q)) : p <+: q ↔ v = w := by
  constructor
  · rintro ⟨rest, rfl⟩
    obtain ⟨hok, rfl⟩ := encode_eq_ok hp
    obtain ⟨hok', hsymbols⟩ := encode_eq_ok hq
    refine tellsApart_output b t v w hv hw hok hok' rest [] ?_
    rw [hsymbols, List.append_nil]
  · rintro rfl
    rw [hp] at hq
    cases hq
    exact List.prefix_rfl

/-- Two numbers that the default build cannot read back. -/
theorem encode_isPrefix_iff_size :
    ([0x6f, 0, 0, 0, 0x40] : List UInt8) <+: [0x6f, 1, 0, 0, 0x40] ↔
      BitVec.ofNat 64 (2 ^ 30) = BitVec.ofNat 64 (2 ^ 30 + 1) :=
  encode_isPrefix_iff (b := .default) (t := .compact .size) trivial trivial (by decide) (by decide)

/-- The upper limbs of a big integer are not written. -/
example (b : Build) : encode b (.bigFixedWidthInteger .uint256) (.ofNat _ 0) =
    encode b (.bigFixedWidthInteger .uint256) (.ofNat _ (2 ^ 64)) := by
  cases b <;> decide +kernel

end ScaleCodec
