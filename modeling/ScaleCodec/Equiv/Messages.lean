import ScaleCodec.Equiv.EncodeAppend
import ScaleCodec.Equiv.Outputs
import ScaleCodec.Equiv.Targets
import ScaleCodec.Messages

/-!
# Messages are read back value by value

What several values are written as is what each of them is written as, one after the other
(`writes_encodeArgs`), so that each is found where the encoder stood when it was written
(`encodeInto_decodeFrom`).  A vector in a buffer grows by the encodings of its items
(`appendAll_encodes`).
-/

namespace ScaleCodec

variable {α : Type} {b : Build}

/-! ### One value after the other -/

/-- The value is written as the bytes, and read back from them. -/
def EncodedAs (b : Build) (v : TypedValue) (p : List UInt8) : Prop :=
  Writes (v.call b) p ∧ Reads (v.type.fromStream b) p v.value

theorem exists_encodedAs {args : List TypedValue} (h : ∀ v ∈ args, v.type.Encodable b v.value) :
    ∃ ps, List.Forall₂ (EncodedAs b) args ps := by
  induction args with
  | nil => exact ⟨[], .nil⟩
  | cons v args ih =>
    obtain ⟨p, hp⟩ := roundTrip_of_encodable v.type v.value (h v List.mem_cons_self)
    obtain ⟨ps, hps⟩ := ih fun w hw => h w (List.mem_cons_of_mem v hw)
    exact ⟨p :: ps, .cons hp hps⟩

theorem writes_encodeArgs {args : List TypedValue} {ps : List (List UInt8)}
    (h : List.Forall₂ (EncodedAs b) args ps) : Writes (encodeArgs b args) ps.flatten := by
  induction h with
  | nil => exact writes_pure
  | cons hp _ ih => exact hp.1.bind ih

theorem encodeInto_of_writes {s : ScaleEncoderStream} {args : List TypedValue} {p : List UInt8}
    (h : Writes (encodeArgs b args) p) : encodeInto b s args = (.ok (.ok ()), s.putBytes p) := by
  rw [encodeInto, h s]
  rfl

/-- Values that are written to a stream are read back from it one by one: each is found where the
encoder stood before it was written, and read up to where the encoder stood after that, whatever
comes behind the last one. -/
theorem encodeInto_decodeFrom (b : Build) (left : Leftovers) (args : List TypedValue)
    (h : ∀ v ∈ args, v.type.Encodable b v.value) :
    ∃ s', encodeInto b {} args = (.ok (.ok ()), s') ∧
      ∀ before v after, args = before ++ v :: after → ∃ s₀ s₁,
        encodeInto b {} before = (.ok (.ok ()), s₀) ∧
        encodeInto b s₀ [v] = (.ok (.ok ()), s₁) ∧
        ∀ data : ConstSpanOfBytes, s'.toVector <+: data.bytes →
          decodeFrom b left v.type ⟨data, s₀.size⟩ = (.ok (.ok v.value), ⟨data, s₁.size⟩) := by
  obtain ⟨ps, hps⟩ := exists_encodedAs h
  have hall := writes_encodeArgs hps
  refine ⟨_, encodeInto_of_writes hall, ?_⟩
  rintro before v after rfl
  obtain ⟨before', hbefore⟩ := exists_encodedAs fun w hw => h w (List.mem_append_left _ hw)
  obtain ⟨p, hv⟩ := roundTrip_of_encodable v.type v.value
    (h v (List.mem_append_right _ List.mem_cons_self))
  obtain ⟨after', hafter⟩ := exists_encodedAs fun w hw =>
    h w (List.mem_append_right _ (List.mem_cons_of_mem v hw))
  -- the bytes of the whole are those of its parts
  have hsplit : ps.flatten = before'.flatten ++ (p ++ after'.flatten) := by
    have hparts := writes_encodeArgs (List.rel_append hbefore (.cons hv hafter))
    rw [(hall.unique hparts).1, List.flatten_append, List.flatten_cons]
  have hone : Writes (encodeArgs b [v]) p := by
    have hflat := writes_encodeArgs (List.Forall₂.cons hv List.Forall₂.nil)
    rwa [List.flatten_singleton] at hflat
  refine ⟨_, _, encodeInto_of_writes (writes_encodeArgs hbefore), encodeInto_of_writes hone,
    fun data hdata => ?_⟩
  rw [ScaleEncoderStream.toVector_putBytes, hsplit] at hdata
  obtain ⟨tail, htail⟩ := hdata
  -- the decoder stands where the encoder stood
  have hsize : ∀ q : List UInt8, (ScaleEncoderStream.putBytes {} q).size = q.length := fun q =>
    Nat.zero_add q.length
  let s₀ : ScaleDecoderStream := ⟨data, before'.flatten.length⟩
  have hremaining : s₀.remaining = p ++ (after'.flatten ++ tail) := by
    show data.bytes.drop before'.flatten.length = _
    rw [← htail, List.append_assoc, List.drop_left, List.append_assoc]
  have hvalid : s₀.Valid := by
    show before'.flatten.length ≤ data.bytes.length
    rw [← htail, List.length_append, List.length_append]
    omega
  have hrun := hv.2 s₀ hvalid ⟨_, hremaining.symm⟩
  rw [ScaleEncoderStream.putBytes_append, hsize, hsize, List.length_append]
  exact decodeFrom_of_ok left hrun

/-- A flag, and then a string of two letters. -/
theorem encodeInto_decodeFrom_two :
    ∃ s', encodeInto .default {} [⟨.integral .bool, true⟩,
        ⟨.resizeable ⟨4, 4, by decide⟩ (.integral (.int false .one)), ⟨[104, 105], by decide⟩⟩] =
          (.ok (.ok ()), s') ∧
      ∃ s₀ s₁, encodeInto .default {} [⟨.integral .bool, true⟩] = (.ok (.ok ()), s₀) ∧
        encodeInto .default s₀
            [⟨.resizeable ⟨4, 4, by decide⟩ (.integral (.int false .one)),
              ⟨[104, 105], by decide⟩⟩] = (.ok (.ok ()), s₁) ∧
        ∀ data : ConstSpanOfBytes, s'.toVector <+: data.bytes →
          decodeFrom .default ⟨ScaleType.valueInit, ScaleType.valueInit, fun _ v => v⟩
              (.resizeable ⟨4, 4, by decide⟩ (.integral (.int false .one))) ⟨data, s₀.size⟩ =
            (.ok (.ok ⟨[104, 105], by decide⟩), ⟨data, s₁.size⟩) := by
  obtain ⟨s', hall, hparts⟩ := encodeInto_decodeFrom .default
    ⟨ScaleType.valueInit, ScaleType.valueInit, fun _ v => v⟩
    [⟨.integral .bool, true⟩,
      ⟨.resizeable ⟨4, 4, by decide⟩ (.integral (.int false .one)), ⟨[104, 105], by decide⟩⟩]
    (by simp [ScaleType.Encodable, compactBound, CompactCompatible.isIntegral])
  exact ⟨s', hall, hparts [⟨.integral .bool, true⟩] _ [] rfl⟩

/-! ### Values that are appended to a vector -/

/-- The bytes that `encode` returns are those that are written and read back. -/
theorem encodable_roundTrip {t : ScaleType α} {v : α} {p : List UInt8} (hv : t.Encodable b v)
    (hp : encode b t v = .ok (.ok p)) :
    Writes (t.toStream b v) p ∧ Reads (t.fromStream b) p v := by
  obtain ⟨p', hw, hr⟩ := roundTrip_of_encodable t v hv
  obtain rfl := eq_of_encodeToVector hw hp
  exact ⟨hw, hr⟩

section Append

variable {cap : Capacity} {t : ScaleType α}

/-- The opaque value holds what is written of the item. -/
def WrittenIn (b : Build) (t : ScaleType α) (x : α) (value : EncodeOpaqueValue) : Prop :=
  Writes (t.toStream b x) value.bytes

theorem writes_items {items : List α} {values : List EncodeOpaqueValue}
    (h : List.Forall₂ (WrittenIn b t) items values) :
    Writes (items.forM (t.toStream b)) (values.flatMap ByteBlock.bytes) := by
  induction h with
  | nil => exact writes_pure
  | cons hx _ ih => exact Sink.Emits.bind hx ih

/-- Items of which not too much is written are written in opaque values. -/
theorem exists_writtenIn_items {items : List α} (h : ∀ x ∈ items, t.Encodable b x) {q : List UInt8}
    (hw : Writes (items.forM (t.toStream b)) q) (hq : q.length < 2 ^ 63) :
    ∃ values, List.Forall₂ (WrittenIn b t) items values := by
  induction items generalizing q with
  | nil => exact ⟨[], .nil⟩
  | cons x items ih =>
    have hrest : ∀ y ∈ items, t.Encodable b y := fun y hy => h y (List.mem_cons_of_mem x hy)
    obtain ⟨p, hx, _⟩ := roundTrip_of_encodable t x (h x List.mem_cons_self)
    obtain ⟨q', hq', _⟩ := roundTrip_items items fun y hy =>
      roundTrip_of_encodable t y (hrest y hy)
    have hsplit : q = p ++ q' := (hw.unique (Sink.Emits.bind hx hq')).1
    rw [hsplit, List.length_append] at hq
    obtain ⟨values, hvalues⟩ := ih hrest hq' (by omega)
    exact ⟨⟨p, by omega⟩ :: values, .cons hx hvalues⟩

theorem writes_resizeable {c : Collection cap α} (hn : c.items.length < compactBound b .size)
    {values : List EncodeOpaqueValue} (h : List.Forall₂ (WrittenIn b t) c.items values) :
    Writes ((ScaleType.resizeable cap t).toStream b c) (opaqueBytes b values) := by
  rw [opaqueBytes, ← h.length_eq]
  exact (writes_encodeLength hn).bind (writes_items h)

/-- The items of a vector whose encoding exists are written in opaque values. -/
theorem exists_writtenIn {c : Collection cap α} (hc : (ScaleType.resizeable cap t).Encodable b c)
    {direct : ByteVector} (hdirect : encode b (.resizeable cap t) c = .ok (.ok direct.bytes)) :
    ∃ values, List.Forall₂ (WrittenIn b t) c.items values := by
  obtain ⟨q, hq, _⟩ := roundTrip_items c.items fun x hx => roundTrip_of_encodable t x (hc.2 x hx)
  have hwhole : Writes ((ScaleType.resizeable cap t).toStream b c)
      (compactForm b c.items.length ++ q) :=
    (writes_encodeLength hc.1).bind hq
  have hlt := direct.size_lt
  rw [← eq_of_encodeToVector hwhole hdirect, List.length_append] at hlt
  exact exists_writtenIn_items hc.2 hq (by omega)

/-- A size that is encoded and is a `uint32_t` can be counted by the calls. -/
theorem lt_countBound_of_size {n : ℕ} (hn : n < compactBound b .size) (hcount : n < 2 ^ 32) :
    n < countBound b := by
  cases b with
  | default => exact hn
  | jam => exact hcount

/-- The encoding of a vector that begins another one. -/
theorem bytes_of_encode {c₀ c : Collection cap α} {xs : List α}
    (hn : c.items.length < compactBound b .size) (hitems : c.items = c₀.items ++ xs)
    {values : List EncodeOpaqueValue} (h : List.Forall₂ (WrittenIn b t) c₀.items values)
    {p : List UInt8} (hp : encode b (.resizeable cap t) c₀ = .ok (.ok p)) :
    p = opaqueBytes b values := by
  rw [hitems, List.length_append] at hn
  exact (eq_of_encodeToVector (writes_resizeable (by omega) h) hp).symm

/-- Encodings of items that are appended one after the other to the encoding of a vector, or to
nothing, make the encoding of the vector with these items, which is decoded as such. -/
theorem appendAll_encodes (c₀ c : Collection cap α) (xs : List α)
    {inputs : List EncodeOpaqueValue} {buffer direct : ByteVector}
    (hc : (ScaleType.resizeable cap t).Encodable b c) (hn : c.items.length < 2 ^ 32)
    (hitems : c.items = c₀.items ++ xs)
    (hbuffer : encode b (.resizeable cap t) c₀ = .ok (.ok buffer.bytes) ∨
      c₀.items = [] ∧ buffer.bytes = [] ∧ xs ≠ [])
    (hinputs : List.Forall₂ (fun x input => encode b t x = .ok (.ok input.bytes)) xs inputs)
    (hdirect : encode b (.resizeable cap t) c = .ok (.ok direct.bytes)) :
    appendAll b inputs buffer = .ok (.ok ()) direct ∧
      decode b (.resizeable cap t) direct = .ok (.ok c) := by
  have hdecode : decode b (.resizeable cap t) direct = .ok (.ok c) :=
    decode_eq (encodable_roundTrip hc hdirect).2 List.prefix_rfl
  refine ⟨?_, hdecode⟩
  -- the items in opaque values, those of the old vector first
  obtain ⟨all, hwritten⟩ := exists_writtenIn hc hdirect
  rw [hitems] at hwritten
  obtain ⟨old, hold⟩ : ∃ old, List.Forall₂ (WrittenIn b t) c₀.items old :=
    ⟨_, (List.forall₂_take_append all c₀.items xs hwritten.flip).flip⟩
  have hnew : List.Forall₂ (WrittenIn b t) xs inputs := by
    have hitem : ∀ x ∈ xs, t.Encodable b x := fun x hx =>
      hc.2 x (hitems ▸ List.mem_append_right c₀.items hx)
    exact ((List.forall₂_and_left xs inputs).mpr ⟨hitem, hinputs⟩).imp fun x input h =>
      (encodable_roundTrip h.1 h.2).1
  have happend : List.Forall₂ (WrittenIn b t) c.items (old ++ inputs) := by
    rw [hitems]
    exact List.rel_append hold hnew
  have hvector : opaqueBytes b (old ++ inputs) = direct.bytes :=
    eq_of_encodeToVector (writes_resizeable hc.1 happend) hdirect
  have hcount : (old ++ inputs).length < countBound b := by
    rw [← happend.length_eq]
    exact lt_countBound_of_size hc.1 hn
  have hstart := hbuffer.imp_left (bytes_of_encode hc.1 hitems hold)
  have hrepresents : Represents b old buffer :=
    hstart.imp_right fun h => ⟨List.forall₂_nil_left_iff.mp (h.1 ▸ hold), h.2.1⟩
  obtain ⟨buffer', hrun, hbytes⟩ := appendAll_direct hcount hrepresents
    (hstart.imp_right fun h => fun hnil => h.2.2 (List.forall₂_nil_right_iff.mp (hnil ▸ hnew)))
    (hvector ▸ direct.size_lt)
  have hend : buffer' = direct := by
    cases buffer'
    cases direct
    cases hbytes.trans hvector
    rfl
  rw [hrun, hend]

/-- Two numbers, of which the second one is appended. -/
theorem appendAll_encodes_two :
    appendAll .default [⟨[2, 0], by decide⟩] ⟨[4, 1, 0], by decide⟩ =
        .ok (.ok ()) ⟨[8, 1, 0, 2, 0], by decide⟩ ∧
      decode .default (.resizeable ⟨4, 4, by decide⟩ (.integral (.int false .two)))
          ⟨[8, 1, 0, 2, 0], by decide⟩ = .ok (.ok ⟨[1, 2], by decide⟩) :=
  appendAll_encodes ⟨[1], by decide⟩ ⟨[1, 2], by decide⟩ [2]
    (by simp [ScaleType.Encodable, compactBound, CompactCompatible.isIntegral]) (by decide) rfl
    (Or.inl (by decide +kernel)) (.cons (by decide +kernel) .nil) (by decide +kernel)

end Append

end ScaleCodec
