import ScaleCodec.Sessions
import ScaleCodec.Equiv.Locality

/-!
# What a session leaves of a stream

* `decoderSession_inBounds`: whatever is called on a decoder stream, and whatever it raises, the
  index only grows, stays within the span, and no access leaves the span.
* `decoderSession_hasMore_iff`: at the states reached so, `hasMore` is exact unless its sum wraps.
* `encoderSession_agree`: a stream that counts and a stream that stores raise at the same values and
  have the same size after each of them.

The former follows from the locality of the operations, the latter from their being emitters: what
an encoder puts does not depend on the stream.
-/

namespace ScaleCodec

variable {α β : Type} {n : ℕ} {αs : Fin n → Type} {b : Build}

/-! ### The decoder stream -/

/-- What holds of a decoder stream over `data` between two calls. -/
structure InBounds (data : ConstSpanOfBytes) (s : ScaleDecoderStream) : Prop where
  span_eq : s.span = data
  index_le : s.currentIndex ≤ data.size

theorem inBounds_ofSpan (data : ConstSpanOfBytes) : InBounds data (.ofSpan data) :=
  ⟨rfl, Nat.zero_le _⟩

theorem InBounds.valid {data : ConstSpanOfBytes} {s : ScaleDecoderStream} (h : InBounds data s) :
    s.Valid := by
  show s.currentIndex ≤ s.span.size
  rw [h.span_eq]
  exact h.index_le

theorem InBounds.advance {data : ConstSpanOfBytes} {s : ScaleDecoderStream} (h : InBounds data s)
    {k : ℕ} (hk : k ≤ s.remaining.length) : InBounds data (s.advance k) := by
  have hvalid : (s.advance k).Valid := ScaleDecoderStream.valid_advance h.valid hk
  refine ⟨h.span_eq, ?_⟩
  rw [← h.span_eq]
  exact hvalid

/-- A call of a local operation moves the index forward within the span. -/
theorem InBounds.call {d : Decoding α} {data : ConstSpanOfBytes} {s : ScaleDecoderStream}
    (hd : Local d) (h : InBounds data s) :
    (d s).raised ≠ some .outOfBounds ∧ InBounds data (d s).state ∧
      s.currentIndex ≤ (d s).state.currentIndex := by
  cases hrun : d s with
  | ok a s' =>
    obtain ⟨k, hk, rfl⟩ := hd.ok_forward h.valid hrun
    exact ⟨by simp, h.advance hk, Nat.le_add_right _ _⟩
  | error e s' =>
    obtain ⟨he, k, hk, rfl⟩ := hd.error_forward (by simp) h.valid hrun
    exact ⟨by simpa using he, h.advance hk, Nat.le_add_right _ _⟩

/-- The same for every public operation. -/
theorem InBounds.operation {data : ConstSpanOfBytes} {s : ScaleDecoderStream}
    (operation : DecoderOperation) (h : InBounds data s) :
    (operation.call b s).raised ≠ some .outOfBounds ∧ InBounds data (operation.call b s).state ∧
      s.currentIndex ≤ (operation.call b s).state.currentIndex := by
  cases operation with
  | nextByte => exact h.call (local_nextByte.bind fun _ => local_pure ())
  | hasMore n =>
    -- a question, which leaves the stream as it is
    refine ⟨?_, h, le_rfl⟩
    show none ≠ some Exception.outOfBounds
    simp
  | extract t => exact h.call ((local_fromStream b t).bind fun _ => local_pure ())
  | decodeCompact T => exact h.call ((local_decodeCompact b T).bind fun _ => local_pure ())

/-- The invariant holds after every call of a session. -/
theorem inBounds_decoderSession (b : Build) (data : ConstSpanOfBytes)
    (operations : List DecoderOperation) :
    ∀ p ∈ decoderSession b data operations, p.1 ≠ some .outOfBounds ∧ InBounds data p.2 := by
  apply Session.invariant (P := fun raised => raised ≠ some Exception.outOfBounds) ?_
    (inBounds_ofSpan data)
  intro call hcall s hs
  obtain ⟨operation, _, rfl⟩ := List.mem_map.mp hcall
  exact ⟨(hs.operation operation).1, (hs.operation operation).2.1⟩

/-- Whatever is called on a stream, also after exceptions: no access leaves the span, the index
stays within it, and the index never decreases. -/
theorem decoderSession_inBounds (b : Build) (data : ConstSpanOfBytes)
    (operations : List DecoderOperation) :
    (∀ p ∈ decoderSession b data operations,
      p.1 ≠ some .outOfBounds ∧ p.2.span = data ∧ p.2.currentIndex ≤ data.size) ∧
    (ScaleDecoderStream.ofSpan data ::
        (decoderSession b data operations).map Prod.snd).Pairwise
      fun s s' => s.currentIndex ≤ s'.currentIndex := by
  constructor
  · -- the invariant holds between any two calls
    intro p hp
    obtain ⟨hraised, hbounds⟩ := inBounds_decoderSession b data operations p hp
    exact ⟨hraised, hbounds.span_eq, hbounds.index_le⟩
  · -- and under it no call moves the index back
    apply Session.pairwise (I := InBounds data) (R := fun s s' => s.currentIndex ≤ s'.currentIndex)
      (fun _ _ _ => Nat.le_trans) ?_ (inBounds_ofSpan data)
    intro call hcall s hs
    obtain ⟨operation, _, rfl⟩ := List.mem_map.mp hcall
    exact (hs.operation operation).2

/-- As many calls of `nextByte` succeed as there are bytes. -/
theorem run_nextByte {n : ℕ} {s : ScaleDecoderStream} (hs : s.Valid)
    (hn : n ≤ s.remaining.length) :
    ∀ p ∈ Session.run (List.replicate n (DecoderOperation.nextByte.call b)) s, p.1 = none := by
  induction n generalizing s with
  | zero =>
    intro p hp
    cases hp
  | succ n ih =>
    obtain ⟨v, bytes, hbytes⟩ := List.exists_cons_of_length_pos (Nat.lt_of_lt_of_le n.succ_pos hn)
    have hcall : DecoderOperation.nextByte.call b s = .ok () (s.advance 1) :=
      EStateM.bind_ok (nextByte_cons hs hbytes)
    have hone : 1 ≤ s.remaining.length := by omega
    have htail : n ≤ (s.advance 1).remaining.length := by
      rw [ScaleDecoderStream.remaining_advance, List.length_drop]
      omega
    intro p hp
    rw [List.replicate_succ, Session.run, hcall] at hp
    rcases List.mem_cons.mp hp with rfl | hp'
    · rfl
    · exact ih (ScaleDecoderStream.valid_advance hs hone) htail p hp'

/-- At every state of a session `hasMore n` says whether `n` more bytes are there, and `nextByte`
then succeeds as many times, iff the sum of the index and `n` does not wrap. -/
theorem decoderSession_hasMore_iff (b : Build) (data : ConstSpanOfBytes)
    (operations : List DecoderOperation) (n : UInt64) (s : ScaleDecoderStream)
    (hs : s ∈ ScaleDecoderStream.ofSpan data ::
      (decoderSession b data operations).map Prod.snd) :
    ((s.hasMore n.toNat = true ↔ (n.toNat : ℤ) ≤ (data.size : ℤ) - s.currentIndex) ∧
        (s.hasMore n.toNat = true → ∀ p ∈ Session.run
          (List.replicate n.toNat (DecoderOperation.nextByte.call b)) s, p.1 = none)) ↔
      s.currentIndex + n.toNat < 2 ^ 64 := by
  have hbounds : InBounds data s := by
    rcases List.mem_cons.mp hs with rfl | hs'
    · exact inBounds_ofSpan data
    · obtain ⟨p, hp, rfl⟩ := List.mem_map.mp hs'
      exact (inBounds_decoderSession b data operations p hp).2
  have hexact := ScaleDecoderStream.hasMore_exact_iff hbounds.valid n.toNat_lt
  rw [hbounds.span_eq] at hexact
  refine ⟨fun h => hexact.mp h.1, fun hlt => ⟨hexact.mpr hlt, fun hmore => ?_⟩⟩
  apply run_nextByte hbounds.valid
  have hle := (hexact.mpr hlt).mp hmore
  rw [ScaleDecoderStream.length_remaining, hbounds.span_eq]
  omega

/-- After one byte of two, `hasMore(1)` is right. -/
theorem decoderSession_hasMore_iff_one :
    ((⟨⟨[7, 8], by decide⟩, 1⟩ : ScaleDecoderStream).hasMore 1 = true ↔
        ((1 : ℕ) : ℤ) ≤ ((2 : ℕ) : ℤ) - (1 : ℕ)) ∧
      ((⟨⟨[7, 8], by decide⟩, 1⟩ : ScaleDecoderStream).hasMore 1 = true →
        ∀ p ∈ Session.run (List.replicate 1 (DecoderOperation.nextByte.call .default))
          ⟨⟨[7, 8], by decide⟩, 1⟩, p.1 = none) :=
  (decoderSession_hasMore_iff .default ⟨[7, 8], by decide⟩ [.nextByte] 1
    ⟨⟨[7, 8], by decide⟩, 1⟩ (List.mem_cons_of_mem _ List.mem_cons_self)).mpr (by decide)

/-- After the only byte `hasMore(2^64 - 1)` holds, and the next call of `nextByte` raises. -/
theorem decoderSession_hasMore_wraps :
    decoderSession .default ⟨[7], by decide⟩ [.nextByte] =
        [(none, ⟨⟨[7], by decide⟩, 1⟩)] ∧
      (⟨⟨[7], by decide⟩, 1⟩ : ScaleDecoderStream).hasMore (2 ^ 64 - 1) = true ∧
      nextByte ⟨⟨[7], by decide⟩, 1⟩ =
        .error (.systemError (.decode .notEnoughData)) ⟨⟨[7], by decide⟩, 1⟩ := by
  refine ⟨rfl, by decide +kernel, by decide +kernel⟩

/-! ### Encoders put the same bytes into every stream -/

/-- `e` puts the same bytes into every stream, and then returns or raises the same. -/
abbrev Emitter (e : Encoding α) : Prop :=
  encoderSink.Emitter e

theorem emitter_pure (a : α) : Emitter (pure a) :=
  Sink.emitter_pure a

theorem emitter_raise (code : ErrorCode) : Emitter (raise code : Encoding α) :=
  Sink.emitter_throw _

theorem emitter_putByte (v : UInt8) : Emitter (putByte v) :=
  ⟨[v], .ok (), writes_putByte v⟩

theorem emitter_encodeInteger (size value : ℕ) : Emitter (encodeInteger size value) :=
  ⟨_, .ok (), writes_encodeInteger size value⟩

theorem emitter_msb (v : ℕ) : Emitter (msb v) := by
  unfold msb
  split_ifs
  · exact Sink.emitter_throw _
  · exact emitter_pure _

theorem emitter_encodeIntegral (i : Integral β) (v : β) : Emitter (encodeIntegral i v) := by
  cases i with
  | bool => exact emitter_putByte _
  | int signed size =>
    rw [encodeIntegral]
    split_ifs
    · exact emitter_putByte _
    · exact emitter_encodeInteger _ _

theorem emitter_putLowBytes {w : ℕ} (k i : ℕ) (v : BitVec w) : Emitter (putLowBytes k i v) := by
  induction k generalizing i with
  | zero => exact emitter_pure ()
  | succ k ih => exact (emitter_putByte _).bind fun _ => ih _

/-! ### Compact integers -/

theorem emitter_emitBytes (fuel v : ℕ) : Emitter (emitBytes fuel v) := by
  induction fuel generalizing v with
  | zero => exact emitter_pure ()
  | succ fuel ih =>
    unfold emitBytes
    split_ifs
    · exact emitter_pure ()
    · exact (emitter_putByte _).bind fun _ => ih _

theorem emitter_significantBytes (T : CompactCompatible) (v : ℕ) :
    Emitter (significantBytes T v) := by
  unfold significantBytes
  split_ifs
  · exact emitter_pure _
  · apply (emitter_msb v).bind
    intro m
    dsimp only
    split_ifs
    · exact emitter_raise _
    · exact emitter_pure _

theorem emitter_encodeCompactInteger (T : CompactCompatible) (v : BitVec T.width) :
    Emitter (encodeCompactInteger T v) := by
  unfold encodeCompactInteger
  dsimp only
  split_ifs
  · exact emitter_raise _
  · exact emitter_encodeInteger _ _
  · exact emitter_encodeInteger _ _
  · exact emitter_encodeInteger _ _
  · exact (emitter_significantBytes T _).bind fun _ => (emitter_putByte _).bind fun _ =>
      emitter_emitBytes _ _

theorem emitter_jamValue (T : CompactCompatible) (v : BitVec T.width) :
    Emitter (jamValue T v) := by
  unfold jamValue
  split_ifs
  · exact emitter_pure _
  · exact emitter_raise _
  · exact emitter_pure _
  · apply (emitter_msb v.toNat).bind
    intro m
    split_ifs
    · exact emitter_raise _
    · exact emitter_pure _

theorem emitter_packJam (fuel i : ℕ) (scratch : JamScratch) : Emitter (packJam fuel i scratch) := by
  induction fuel generalizing i scratch with
  | zero => exact emitter_pure _
  | succ fuel ih =>
    unfold packJam
    dsimp only
    split_ifs
    · exact emitter_pure _
    · exact emitter_pure _
    · -- a full scratch array depends on the value only, not on the stream
      refine Sink.Emitter.bind ?_ fun scratch => ih _ scratch
      unfold JamScratch.push
      split_ifs
      · exact emitter_pure _
      · exact Sink.emitter_throw _

theorem emitter_encodeJamCompactInteger (T : CompactCompatible) (v : BitVec T.width) :
    Emitter (encodeJamCompactInteger T v) := by
  apply (emitter_jamValue T v).bind
  intro value
  split_ifs
  · exact emitter_putByte _
  · apply (emitter_packJam 8 value _).bind
    intro scratch
    exact Sink.Emitter.forM _ fun v _ => emitter_putByte v

theorem emitter_encodeCompact (b : Build) (T : CompactCompatible) (v : BitVec T.width) :
    Emitter (encodeCompact b T v) := by
  cases b with
  | default => exact emitter_encodeCompactInteger T v
  | jam => exact emitter_encodeJamCompactInteger T v

/-! ### Composite types -/

theorem emitter_optional (isBool : Option (PLift (α = Bool))) {e : α → Encoding Unit}
    (he : ∀ x, Emitter (e x)) (v : Option α) : Emitter (encodeOptional isBool e v) := by
  cases isBool with
  | some h =>
    unfold encodeOptional encodeOptionalBool
    dsimp only
    split
    · exact emitter_putByte _
    · exact emitter_putByte _
    · exact emitter_putByte _
  | none =>
    cases v with
    | none => exact emitter_putByte _
    | some x => exact (emitter_putByte 1).bind fun _ => he x

theorem emitter_tuple {e : ∀ i, αs i → Encoding Unit} (he : ∀ i x, Emitter (e i x))
    (v : ∀ i, αs i) : Emitter (encodeElementsOfTuple e v) := by
  induction n with
  | zero => exact emitter_pure ()
  | succ n ih => exact (he 0 (v 0)).bind fun _ => ih (fun i => he i.succ) fun i => v i.succ

theorem emitter_variant {e : ∀ i, αs i → Encoding Unit} (he : ∀ i x, Emitter (e i x))
    (v : Variant αs) : Emitter (encodeVariant e v) := by
  cases v with
  | valueless => exact emitter_pure ()
  | holds i x => exact (emitter_putByte _).bind fun _ => he i x

theorem emitter_pointer {heap : Bool} {e : α → Encoding Unit} (he : ∀ x, Emitter (e x))
    (v : Pointer heap α) : Emitter (encodePointer e v) := by
  rcases v with _ | ⟨x, allocated⟩
  · exact emitter_raise _
  · exact he x

theorem emitter_dynamicCollection {e : α → Encoding Unit} (he : ∀ x, Emitter (e x))
    (items : List α) : Emitter (encodeDynamicCollection b e items) :=
  (emitter_encodeCompact b .size _).bind fun _ => Sink.Emitter.forM items fun x _ => he x

theorem emitter_encodeBits (bits : List Bool) (i : ℕ) (byte : UInt8) :
    Emitter (encodeBits bits i byte) := by
  induction bits generalizing i byte with
  | nil =>
    unfold encodeBits
    split_ifs
    · exact emitter_putByte byte
    · exact emitter_pure ()
  | cons bit bits ih =>
    unfold encodeBits
    dsimp only
    split_ifs
    · exact (emitter_putByte _).bind fun _ => ih _ _
    · exact (emitter_putByte _).bind fun _ => ih _ _
    · exact ih _ _
    · exact ih _ _

open ScaleType in
/-- What a value puts into a stream, and what it raises, does not depend on the stream. -/
theorem emitter_toStream (b : Build) (t : ScaleType α) (v : α) : Emitter (t.toStream b v) := by
  induction t with
  | integral i => exact emitter_encodeIntegral i v
  | enum i traits => exact emitter_encodeIntegral i v
  | bigFixedWidthInteger T => exact emitter_putLowBytes _ _ v
  | compact T => exact emitter_encodeCompact b T v
  | optional t ih => exact emitter_optional t.isBool? ih v
  | pair t u iht ihu => exact (iht v.1).bind fun _ => ihu v.2
  | tuple ts ih => exact emitter_tuple ih v
  | variant ts hn ih => exact emitter_variant ih v
  | pointer heap t ih => exact emitter_pointer ih v
  | staticCollection n t ih => exact Sink.Emitter.forM v.1 fun x _ => ih x
  | resizeable cap t ih => exact emitter_dynamicCollection ih v.items
  | vectorBool cap => exact emitter_dynamicCollection (emitter_encodeIntegral .bool) v.items
  | bitVec cap =>
    exact (emitter_encodeCompact b .size _).bind fun _ => emitter_encodeBits v.bits.items 0 0
  | extensibleBack cap t ih => exact emitter_dynamicCollection ih v.items
  | randomExtensible cap order t ih => exact emitter_dynamicCollection ih v.items

/-! ### The encoder streams -/

/-- What holds between a stream that stores and a stream that counts after the same writes. -/
structure Counts (storing counting : ScaleEncoderStream) : Prop where
  stores : storing.dropData = false
  drops : counting.dropData = true
  size_eq : storing.size = counting.size
  size_eq_length : storing.size = storing.toVector.length
  empty : counting.toVector = []

theorem Counts.putBytes {storing counting : ScaleEncoderStream} (h : Counts storing counting)
    (bs : List UInt8) : Counts (storing.putBytes bs) (counting.putBytes bs) where
  stores := h.stores
  drops := h.drops
  size_eq := congrArg (· + bs.length) h.size_eq
  size_eq_length := by
    have hlen : storing.bytesWritten = storing.stream.length := h.size_eq_length
    simp [ScaleEncoderStream.putBytes, ScaleEncoderStream.size, ScaleEncoderStream.toVector,
      h.stores, hlen]
  empty := by
    have hempty : counting.stream = [] := h.empty
    simp [ScaleEncoderStream.putBytes, ScaleEncoderStream.toVector, h.drops, hempty]

/-- A write raises the same in both streams, and puts the same number of bytes. -/
theorem Counts.write {storing counting : ScaleEncoderStream} {e : Encoding Unit} (he : Emitter e)
    (h : Counts storing counting) :
    (e storing).raised = (e counting).raised ∧ Counts (e storing).state (e counting).state := by
  obtain ⟨bs, r, he⟩ := he
  cases r with
  | ok a =>
    rw [he storing, he counting]
    exact ⟨rfl, h.putBytes bs⟩
  | error x =>
    rw [he storing, he counting]
    exact ⟨rfl, h.putBytes bs⟩

/-- A write to a stream that stores appends to what is there. -/
theorem prefix_write {s : ScaleEncoderStream} {e : Encoding Unit} (he : Emitter e)
    (hs : s.dropData = false) :
    (e s).state.dropData = false ∧ s.toVector <+: (e s).state.toVector := by
  obtain ⟨bs, r, he⟩ := he
  have hput : s.toVector <+: (s.putBytes bs).toVector := by
    simp [ScaleEncoderStream.putBytes, ScaleEncoderStream.toVector, hs]
  cases r with
  | ok a =>
    rw [he s]
    exact ⟨hs, hput⟩
  | error x =>
    rw [he s]
    exact ⟨hs, hput⟩

/-- Writing any values to a stream that stores and to one that counts: both raise at the same
values, with the same exceptions, and have the same size after each value, which is the length of
what is stored; what is stored only grows at its end, and the stream that counts stores nothing. -/
theorem encoderSession_agree (b : Build) (values : List TypedValue) :
    List.Forall₂ (fun p q => p.1 = q.1 ∧ p.2.size = q.2.size ∧
        p.2.size = p.2.toVector.length ∧ q.2.toVector = [])
      (encoderSession b false values) (encoderSession b true values) ∧
    (([] : List UInt8) :: (encoderSession b false values).map fun p => p.2.toVector).Pairwise
      (· <+: ·) := by
  have hemitter : ∀ call ∈ values.map (TypedValue.call b), Emitter call := by
    intro call hcall
    obtain ⟨v, _, rfl⟩ := List.mem_map.mp hcall
    exact emitter_toStream b v.type v.value
  constructor
  · -- the two streams side by side
    have hstart : Counts { dropData := false } { dropData := true } :=
      ⟨rfl, rfl, rfl, rfl, rfl⟩
    have hagree := Session.agree (fun call hcall s t h => h.write (hemitter call hcall)) hstart
    refine hagree.imp fun p q h => ?_
    exact ⟨h.1, h.2.size_eq, h.2.size_eq_length, h.2.empty⟩
  · -- the stream that stores, on its own
    have hgrow := Session.pairwise (I := fun s => s.dropData = false)
      (R := fun s s' => s.toVector <+: s'.toVector) (s := { dropData := false })
      (fun _ _ _ => List.IsPrefix.trans)
      (fun call hcall s hs => prefix_write (hemitter call hcall) hs) rfl
    have hmap := List.pairwise_map.mpr hgrow
    rwa [Session.states, List.map_cons, List.map_map] at hmap

end ScaleCodec
