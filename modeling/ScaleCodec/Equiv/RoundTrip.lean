import ScaleCodec.Equiv.FixedWidthInteger
import ScaleCodec.Equiv.BitVec

/-!
# The round trip of the whole format

Each overload of `operator<<` is undone by the one of `operator>>`, given that those of the parts
are; from these lemmas `roundTrip_of_encodable` follows by induction on the type.  The values meant
are the `Encodable` ones: enum values valid for their traits, pointers not null, variants that hold
a value, sizes and compact integers below the bounds of the build.
-/

namespace ScaleCodec

/-- What `e` writes, `d` reads back as `a`. -/
abbrev RoundTrip {α : Type} (e : Encoding Unit) (d : Decoding α) (a : α) : Prop :=
  RoundTrips encoderSink decoderSource e d a

variable {α β : Type} {n : ℕ} {αs : Fin n → Type} {b : Build}

/-! ### Values without parts -/

theorem roundTrip_byte (v : UInt8) : RoundTrip (putByte v) nextByte v :=
  ⟨_, writes_putByte v, reads_nextByte v⟩

theorem roundTrip_integral (i : Integral β) (v : β) :
    RoundTrip (encodeIntegral i v) (decodeIntegral i) v :=
  ⟨_, writes_encodeIntegral i v, reads_decodeIntegral i v⟩

theorem roundTrip_enum {i : Integral β} {traits : EnumTraits β} {v : β}
    (hv : isValidEnumValue i traits v) :
    RoundTrip (encodeIntegral i v) (decodeEnum i traits) v :=
  (roundTrip_integral i v).bind_pure (if_pos hv)

theorem roundTrip_optionalBool (v : Option Bool) :
    RoundTrip (encodeOptionalBool v) decodeOptionalBool v := by
  rcases v with _ | _ | _
  · exact (roundTrip_byte 0).bind_pure rfl
  · exact (roundTrip_byte 2).bind_pure rfl
  · exact (roundTrip_byte 1).bind_pure rfl

/-! ### Optionals, products, variants and pointers -/

theorem roundTrip_optional (isBool : Option (PLift (α = Bool))) {e : α → Encoding Unit}
    {d : Decoding α} {v : Option α} (h : ∀ x ∈ v, RoundTrip (e x) d x) :
    RoundTrip (encodeOptional isBool e v) (decodeOptional isBool d) v := by
  rcases isBool with _ | ⟨⟨rfl⟩⟩
  · cases v with
    | none => exact (roundTrip_integral .bool false).bind_pure rfl
    | some x => exact (roundTrip_integral .bool true).bind ((h x rfl).bind_pure rfl)
  · have hv := roundTrip_optionalBool v
    rw [encodeOptional, decodeOptional]
    cases v <;> exact hv.bind_pure rfl

theorem roundTrip_pair {e : α → Encoding Unit} {e' : β → Encoding Unit} {d : Decoding α}
    {d' : Decoding β} {p : α × β} (h : RoundTrip (e p.1) d p.1) (h' : RoundTrip (e' p.2) d' p.2) :
    RoundTrip (encodePair e e' p) (decodePair d d') p :=
  h.bind (h'.bind_pure rfl)

theorem roundTrip_tuple {e : ∀ i, αs i → Encoding Unit} {d : ∀ i, Decoding (αs i)}
    {v : ∀ i, αs i} (h : ∀ i, RoundTrip (e i (v i)) (d i) (v i)) :
    RoundTrip (encodeElementsOfTuple e v) (decodeElementsOfTuple d) v := by
  induction n with
  | zero =>
    have hv : v = fun i => i.elim0 := funext fun i => i.elim0
    rw [hv]
    exact roundTrips_pure _
  | succ n ih =>
    refine (h 0).bind ((ih fun i => h i.succ).bind_pure ?_)
    rw [← Fin.cons_self_tail v]
    rfl

/-- The index byte of an alternative selects that alternative. -/
theorem decodeVariant_index (hn : n ≤ 256) (d : ∀ i, Decoding (αs i)) (i : Fin n) :
    (if h : (UInt8.ofNat i).toNat < n then do
        let x ← d ⟨(UInt8.ofNat i).toNat, h⟩
        pure (.holds ⟨(UInt8.ofNat i).toNat, h⟩ x)
      else raise (.decode .wrongTypeIndex) : Decoding (Variant αs)) =
      d i >>= fun x => pure (.holds i x) := by
  have hi : (UInt8.ofNat i).toNat = i := toNat_ofNat_of_lt (by omega)
  have hlt : (UInt8.ofNat i).toNat < n := by omega
  have hfin : (⟨(UInt8.ofNat i).toNat, hlt⟩ : Fin n) = i := Fin.ext hi
  rw [dif_pos hlt, hfin]

theorem roundTrip_variant {e : ∀ i, αs i → Encoding Unit} {d : ∀ i, Decoding (αs i)} (hn : n ≤ 256)
    (i : Fin n) (x : αs i) (h : RoundTrip (e i x) (d i) x) :
    RoundTrip (encodeVariant e (.holds i x)) (decodeVariant d) (.holds i x) := by
  refine (roundTrip_byte (UInt8.ofNat i)).bind ?_
  rw [decodeVariant_index hn]
  exact h.bind_pure rfl

theorem roundTrip_pointer {heap : Bool} {e : α → Encoding Unit} {d : Decoding α} {x : α}
    (allocated : heap = true) (h : RoundTrip (e x) d x) :
    RoundTrip (encodePointer e (.to x allocated)) (makePointer d : Decoding (Pointer heap α))
      (.to x allocated) := by
  rw [makePointer, dif_pos allocated]
  exact h.bind_pure rfl

/-! ### Collections -/

theorem roundTrip_items {e : α → Encoding Unit} {d : Decoding α} (items : List α)
    (h : ∀ x ∈ items, RoundTrip (e x) d x) :
    RoundTrip (items.forM e) (decodeItems d items.length) ⟨items, rfl⟩ := by
  induction items with
  | nil => exact roundTrips_pure _
  | cons x items ih =>
    exact (h x List.mem_cons_self).bind
      ((ih fun y hy => h y (List.mem_cons_of_mem x hy)).bind_pure rfl)

theorem catchBadAlloc_of_ok {x : Decoding α} {a : α} (h : x = pure a) :
    catchBadAlloc x = pure a := by
  rw [h]
  rfl

theorem catchBadAlloc_eq_ok {x : Decoding α} {a : α} {s s' : ScaleDecoderStream} :
    catchBadAlloc x s = .ok a s' ↔ x s = .ok a s' := by
  change (EStateM.tryCatch x _ s = _) ↔ _
  unfold EStateM.tryCatch
  cases hx : x s with
  | ok a' s'' => rfl
  | error e s'' =>
    constructor
    · intro h
      dsimp only at h
      split_ifs at h
      · cases h
      · cases h
    · intro h
      cases h

theorem roundTrip_sized {cap : Capacity} {e : α → Encoding Unit} {d : Decoding α}
    (c : Collection cap α) (hn : c.items.length < compactBound b .size)
    (h : ∀ x ∈ c.items, RoundTrip (e x) d x) :
    RoundTrip (encodeDynamicCollection b e c.items) (decodeSized b cap d) c := by
  refine (roundTrips_length hn).bind ?_
  have hmax := c.admits.1
  rw [if_neg (by omega), catchBadAlloc_of_ok (resize_of_admits c.admits)]
  exact (roundTrip_items c.items h).bind_pure rfl

/-! ### Bits -/

/-- The loops over the bits. -/
theorem roundTrip_bits (bits : List Bool) :
    ∃ q, q.length = (bits.length + 7) / 8 ∧ Writes (encodeBits bits 0 0) q ∧
      Reads (decodeBits bits.length 0 0) q ⟨bits, rfl⟩ := by
  obtain ⟨q, hw, hpacks⟩ := packs_encodeBits bits
  have hlen := hpacks.length_eq
  refine ⟨q, hlen, hw, fun s hs hq => ?_⟩
  have hle : q.length ≤ s.remaining.length := List.IsPrefix.length_le hq
  obtain ⟨bits', hbits, hrun⟩ := decodeBits_eq bits.length 0 0 hs
    (show 0 + bits.length ≤ 8 * s.remaining.length by omega)
  have heq : bits' = ⟨bits, rfl⟩ := Subtype.ext (hbits.trans (hpacks.bitsFrom_eq hq))
  rw [hrun, heq, Nat.zero_add, ← hlen]
  rfl

/-- What `operator<<` and `operator>>` of `BitVec` do after the length. -/
theorem roundTrip_bitVec_body {cap : Capacity} (v : BitVecValue cap) :
    ∃ q, q.length = (v.bits.items.length + 7) / 8 ∧ Writes (encodeBits v.bits.items 0 0) q ∧
      Reads (hasMore (((v.bits.items.length + 7) % 2 ^ 64) / 8) >>= fun more =>
        if ¬ more then raise (.decode .notEnoughData)
        else do
          let admits ← resize cap v.bits.items.length
          let bits ← decodeBits v.bits.items.length 0 0
          pure ⟨⟨bits.1, by rw [bits.2]; exact admits.down⟩⟩) q v := by
  obtain ⟨q, hlen, hw, hr⟩ := roundTrip_bits v.bits.items
  have h64 := v.bits.admits.lt
  refine ⟨q, hlen, hw, Takes.hasMore ?_ ?_ (by omega)⟩
  · -- the bytes of the bits are there, also if the sum in the guard wraps
    have := Nat.mod_le (v.bits.items.length + 7) (2 ^ 64)
    omega
  · simp only [not_true_eq_false, if_false]
    rw [resize_of_admits v.bits.admits, pure_bind]
    exact hr.bind_nil (Source.reads_pure _)

theorem roundTrip_bitVec {cap : Capacity} (v : BitVecValue cap)
    (hn : v.bits.items.length < compactBound b .size) :
    RoundTrip (encodeBitVec b v.bits.items) (decodeBitVec b cap) v := by
  obtain ⟨q, _, hw, hr⟩ := roundTrip_bitVec_body v
  exact (roundTrips_length hn).bind ⟨q, hw, hr⟩

/-! ### Ordered containers -/

/-- The next one of items that come in order is put behind the others. -/
theorem emplace_next {cap : Capacity} {order : Compare α} {c c' : OrderedCollection cap order}
    {x : α} {items : List α} (hc : c'.items = c.items ++ x :: items) :
    ∃ c₁, c.emplace x = pure c₁ ∧ c'.items = c₁.items ++ items := by
  have hsorted := c'.sorted
  have hadmits := c'.admits
  rw [hc] at hsorted hadmits
  -- the items so far are all less than the next one
  have hless : ∀ y ∈ c.items, order.less y x = true := fun y hy =>
    (List.pairwise_append.mp hsorted).2.2 y hy x List.mem_cons_self
  have hroom : cap.Admits (c.items.length + 1) := hadmits.mono (by simp)
  refine ⟨⟨order.insert x c.items, Compare.pairwise_insert c.sorted,
    hroom.mono (Compare.length_insert_le x c.items)⟩, ?_, ?_⟩
  · rw [OrderedCollection.emplace, dif_pos hroom]
  · show c'.items = order.insert x c.items ++ items
    rw [hc, Compare.insert_of_forall_less hless, List.append_assoc, List.singleton_append]

theorem roundTrip_emplaceItems {cap : Capacity} {order : Compare α} {e : α → Encoding Unit}
    {d : Decoding α} (items : List α) (c c' : OrderedCollection cap order)
    (hc : c'.items = c.items ++ items) (h : ∀ x ∈ items, RoundTrip (e x) d x) :
    RoundTrip (items.forM e) (emplaceItems d items.length c) c' := by
  induction items generalizing c with
  | nil =>
    have heq : c' = c := OrderedCollection.ext (by rw [hc, List.append_nil])
    rw [heq]
    exact roundTrips_pure _
  | cons x items ih =>
    obtain ⟨c₁, hemplace, hc₁⟩ := emplace_next hc
    refine (h x List.mem_cons_self).bind ?_
    rw [catchBadAlloc_of_ok hemplace, pure_bind]
    exact ih c₁ hc₁ fun y hy => h y (List.mem_cons_of_mem x hy)

theorem roundTrip_randomExtensible {cap : Capacity} {order : Compare α} {e : α → Encoding Unit}
    {d : Decoding α} (c : OrderedCollection cap order)
    (hn : c.items.length < compactBound b .size) (h : ∀ x ∈ c.items, RoundTrip (e x) d x) :
    RoundTrip (encodeDynamicCollection b e c.items) (decodeRandomExtensible b cap order d) c := by
  refine (roundTrips_length hn).bind ?_
  have hmax := c.admits.1
  rw [if_neg (by omega)]
  exact roundTrip_emplaceItems c.items .clear c rfl h

/-! ### The whole format -/

/-- The values the encoder accepts, within the bounds of the build. -/
def ScaleType.Encodable (b : Build) : {α : Type} → ScaleType α → α → Prop
  | _, integral _, _ => True
  | _, enum i traits, v => isValidEnumValue i traits v
  | _, bigFixedWidthInteger T, v => v.toNat < 256 ^ T.bytes
  | _, compact T, v => v.toNat < compactBound b T
  | _, optional t, v => ∀ x ∈ v, t.Encodable b x
  | _, pair t u, v => t.Encodable b v.1 ∧ u.Encodable b v.2
  | _, tuple ts, v => ∀ i, (ts i).Encodable b (v i)
  | _, variant ts _, v => ∃ i x, v = .holds i x ∧ (ts i).Encodable b x
  | _, pointer _ t, v => ∃ x allocated, v = .to x allocated ∧ t.Encodable b x
  | _, staticCollection _ t, v => ∀ x ∈ v.1, t.Encodable b x
  | _, resizeable _ t, v => v.items.length < compactBound b .size ∧ ∀ x ∈ v.items, t.Encodable b x
  | _, vectorBool _, v => v.items.length < compactBound b .size
  | _, bitVec _, v => v.bits.items.length < compactBound b .size
  | _, extensibleBack _ t, v =>
    v.items.length < compactBound b .size ∧ ∀ x ∈ v.items, t.Encodable b x
  | _, randomExtensible _ _ t, v =>
    v.items.length < compactBound b .size ∧ ∀ x ∈ v.items, t.Encodable b x

open ScaleType in
/-- What `operator<<` of a type writes for an encodable value, `operator>>` reads back. -/
theorem roundTrip_of_encodable (t : ScaleType α) (v : α) (h : t.Encodable b v) :
    RoundTrip (t.toStream b v) (t.fromStream b) v := by
  induction t with
  | integral i => exact roundTrip_integral i v
  | enum i traits => exact roundTrip_enum h
  | bigFixedWidthInteger T => exact roundTrips_bigFixedWidthInteger h
  | compact T => exact roundTrips_compact h
  | optional t ih => exact roundTrip_optional t.isBool? fun x hx => ih x (h x hx)
  | pair t u iht ihu => exact roundTrip_pair (iht v.1 h.1) (ihu v.2 h.2)
  | tuple ts ih => exact roundTrip_tuple fun i => ih i (v i) (h i)
  | variant ts hn ih =>
    obtain ⟨i, x, rfl, hx⟩ := h
    exact roundTrip_variant hn i x (ih i x hx)
  | pointer heap t ih =>
    obtain ⟨x, allocated, rfl, hx⟩ := h
    exact roundTrip_pointer allocated (ih x hx)
  | staticCollection n t ih =>
    obtain ⟨items, rfl⟩ := v
    exact roundTrip_items items fun x hx => ih x (h x hx)
  | resizeable cap t ih => exact roundTrip_sized v h.1 fun x hx => ih x (h.2 x hx)
  | vectorBool cap => exact roundTrip_sized v h fun x _ => roundTrip_integral .bool x
  | bitVec cap => exact roundTrip_bitVec v h
  | extensibleBack cap t ih => exact roundTrip_sized v h.1 fun x hx => ih x (h.2 x hx)
  | randomExtensible cap order t ih =>
    exact roundTrip_randomExtensible v h.1 fun x hx => ih x (h.2 x hx)

/-- `scale::encode` of an encodable value succeeds, and wherever the bytes it returns stand,
decoding the type there yields the value and stops right behind them. -/
theorem fromStream_encode {t : ScaleType α} {v : α} (h : t.Encodable b v) :
    ∃ p, encode b t v = .ok (.ok p) ∧
      ∀ s rest, s.Valid → s.remaining = p ++ rest →
        ∃ s', t.fromStream b s = .ok v s' ∧ Consumed s p s' ∧ s'.remaining = rest := by
  obtain ⟨p, hw, hr⟩ := roundTrip_of_encodable t v h
  refine ⟨p, encodeToVector_eq hw, fun s rest hs hp => ?_⟩
  have hcons : Consumed s p (s.advance p.length) := ⟨⟨rest, hp.symm⟩, rfl⟩
  refine ⟨s.advance p.length, hr.run hs hcons, hcons, ?_⟩
  have hrest : s.remaining = p ++ (s.advance p.length).remaining := hcons.rest_eq
  rw [hp] at hrest
  exact (List.append_cancel_left hrest).symm

/-- An optional flag beside a set of two numbers. -/
theorem fromStream_encode_set :
    ∃ p, encode .default
        (.pair (.optional (.integral .bool))
          (.set ⟨2 ^ 60, 2 ^ 60, by decide⟩ .ofUnsigned (.integral (.int false .two))))
        (some false, ⟨[1, 300], by decide, by decide⟩) = .ok (.ok p) ∧
      ∀ s rest, s.Valid → s.remaining = p ++ rest →
        ∃ s', ScaleType.fromStream .default
            (.pair (.optional (.integral .bool))
              (.set ⟨2 ^ 60, 2 ^ 60, by decide⟩ .ofUnsigned (.integral (.int false .two)))) s =
            .ok (some false, ⟨[1, 300], by decide, by decide⟩) s' ∧
          Consumed s p s' ∧ s'.remaining = rest :=
  fromStream_encode ⟨fun _ _ => trivial, by decide, fun _ _ => trivial⟩

end ScaleCodec
