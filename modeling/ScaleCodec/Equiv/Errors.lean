import ScaleCodec.Equiv.FixedWidthInteger
import ScaleCodec.Equiv.Compact
import ScaleCodec.Equiv.Reaches

/-!
# The exceptions of a decoding run

Every exception a decoder raises becomes a failure that carries a `DecodeError`, but for those of
two calls that nothing guards (`unguarded`): the `std::length_error` of a `BitVec`, where the sum of
the guard wraps around, so that `resize` is called for a count that is too large, and the
`std::bad_alloc` of `std::make_shared` and `std::make_unique`, where there is no memory for a
pointee.  `LeavesAt d s R` says that `d` is safe at `s`, or lets an exception escape in case of `R`;
from the lemmas for the overloads follows `decode_total_iff`.
-/

namespace ScaleCodec

variable {α β γ : Type} {n N : ℕ} {αs : Fin n → Type} {s : ScaleDecoderStream} {R R' : Prop}
  {b : Build}

/-! ### Positions of an input of bounded size -/

/-- A position of a stream with at most `N` bytes to come. -/
def Within (N : ℕ) (s : ScaleDecoderStream) : Prop :=
  s.Valid ∧ s.remaining.length ≤ N

theorem Within.of_consumed {s' : ScaleDecoderStream} {p : List UInt8} (hs : Within N s)
    (hp : Consumed s p s') : Within N s' := by
  refine ⟨hp.valid hs.1, ?_⟩
  have hrest : s.remaining = p ++ s'.remaining := hp.rest_eq
  have hle := hs.2
  rw [hrest, List.length_append] at hle
  omega

/-- `outcomeCatch` does not catch the exception. -/
def Escapes (e : Exception) : Prop :=
  ∀ code, e ≠ .systemError code

/-- At `s`, `d` is safe, or lets an exception escape if `R`. -/
def LeavesAt (d : Decoding α) (s : ScaleDecoderStream) (R : Prop) : Prop :=
  (¬ R → SafeAt d s) ∧ (R → ∃ e s', d s = .error e s' ∧ Escapes e)

theorem LeavesAt.of_safe {d : Decoding α} (h : SafeAt d s) : LeavesAt d s False :=
  ⟨fun _ => h, False.elim⟩

theorem leavesAt_pure (a : α) : LeavesAt (pure a) s False :=
  .of_safe (Source.safeAt_pure a s)

theorem leavesAt_raise (e : DecodeError) : LeavesAt (raise (.decode e) : Decoding α) s False :=
  .of_safe (safeAt_raise e s)

theorem LeavesAt.congr {d : Decoding α} (h : LeavesAt d s R) (hR : R ↔ R') : LeavesAt d s R' := by
  rwa [propext hR] at h

/-- A decoder that returns has only moved forward. -/
theorem LeavesAt.consumed {d : Decoding α} (h : LeavesAt d s R) {x : α} {s' : ScaleDecoderStream}
    (hx : d s = .ok x s') : ∃ p, Consumed s p s' := by
  by_cases hR : R
  · obtain ⟨_, _, herr, _⟩ := h.2 hR
    cases hx.symm.trans herr
  · exact (h.1 hR).consumed hx

theorem LeavesAt.bind {d : Decoding α} {f : α → Decoding β} {Q : α → ScaleDecoderStream → Prop}
    (hs : Within N s) (hd : LeavesAt d s R)
    (hf : ∀ x s', Within N s' → d s = .ok x s' → LeavesAt (f x) s' (Q x s')) :
    LeavesAt (d >>= f) s (R ∨ ∃ x s', d s = .ok x s' ∧ Q x s') := by
  constructor
  · intro hR
    refine (hd.1 fun h => hR (Or.inl h)).bind hs.1 fun x s' _ hx => ?_
    obtain ⟨p, hp⟩ := hd.consumed hx
    exact (hf x s' (hs.of_consumed hp) hx).1 fun h => hR (Or.inr ⟨x, s', hx, h⟩)
  · rintro (hR | ⟨x, s', hx, hQ⟩)
    · obtain ⟨e, s', herr, hesc⟩ := hd.2 hR
      exact ⟨e, s', EStateM.bind_error herr, hesc⟩
    · obtain ⟨p, hp⟩ := hd.consumed hx
      obtain ⟨e, s'', herr, hesc⟩ := (hf x s' (hs.of_consumed hp) hx).2 hQ
      exact ⟨e, s'', by rw [EStateM.bind_ok hx, herr], hesc⟩

/-- What comes behind a decoder without events of its own. -/
theorem LeavesAt.bind_safe {d : Decoding α} {f : α → Decoding β}
    {Q : α → ScaleDecoderStream → Prop} (hs : Within N s) (hd : SafeAt d s)
    (hf : ∀ x s', Within N s' → d s = .ok x s' → LeavesAt (f x) s' (Q x s')) :
    LeavesAt (d >>= f) s (∃ x s', d s = .ok x s' ∧ Q x s') :=
  (LeavesAt.bind hs (.of_safe hd) hf).congr (by rw [false_or])

/-- What comes before an end without events. -/
theorem LeavesAt.bind_pure {d : Decoding α} {f : α → β} (hs : Within N s) (hd : LeavesAt d s R) :
    LeavesAt (d >>= fun x => pure (f x)) s R :=
  (LeavesAt.bind (Q := fun _ _ => False) hs hd fun x s' _ _ => leavesAt_pure _).congr (by simp)

/-! ### Values without parts -/

theorem safeAt_decodeEnum (i : Integral β) (traits : EnumTraits β) (hs : s.Valid) :
    SafeAt (decodeEnum i traits) s := by
  refine (safeAt_decodeIntegral i hs).bind hs fun v s' _ _ => ?_
  split_ifs
  · exact Source.safeAt_pure _ _
  · exact safeAt_raise _ _

theorem safeAt_decodeOptionalBool (hs : s.Valid) : SafeAt decodeOptionalBool s := by
  refine (safeAt_nextByte hs).bind hs fun v s' _ _ => ?_
  split_ifs
  · exact Source.safeAt_pure _ _
  · exact Source.safeAt_pure _ _
  · exact Source.safeAt_pure _ _
  · exact safeAt_raise _ _

/-! ### Optionals, products, variants and pointers -/

theorem leavesAt_optional (isBool : Option (PLift (α = Bool))) {d : Decoding α}
    {Q : ScaleDecoderStream → Prop} (hs : Within N s)
    (hd : ∀ s', Within N s' → LeavesAt d s' (Q s')) :
    LeavesAt (decodeOptional isBool d) s
      (isBool = none ∧ ∃ s', decodeBool s = .ok true s' ∧ Q s') := by
  rcases isBool with _ | ⟨⟨rfl⟩⟩
  · refine (LeavesAt.bind_safe (Q := fun v s' => v = true ∧ Q s') hs (safeAt_decodeBool hs.1)
      fun v s' hs' _ => ?_).congr ?_
    · cases v with
      | false => exact (leavesAt_pure _).congr (by simp)
      | true => exact (LeavesAt.bind_pure hs' (hd s' hs')).congr (by simp)
    · simp
  · exact (LeavesAt.bind_pure hs (.of_safe (safeAt_decodeOptionalBool hs.1))).congr (by simp)

theorem leavesAt_pair {d : Decoding α} {d' : Decoding β} {Q Q' : ScaleDecoderStream → Prop}
    (hs : Within N s) (hd : LeavesAt d s (Q s))
    (hd' : ∀ s', Within N s' → LeavesAt d' s' (Q' s')) :
    LeavesAt (decodePair d d') s (Q s ∨ ∃ x s', d s = .ok x s' ∧ Q' s') :=
  LeavesAt.bind hs hd fun _ s' hs' _ => LeavesAt.bind_pure hs' (hd' s' hs')

theorem leavesAt_tuple {d : ∀ i, Decoding (αs i)} {Q : Fin n → ScaleDecoderStream → Prop}
    (hs : Within N s) (hd : ∀ i s', Within N s' → LeavesAt (d i) s' (Q i s')) :
    LeavesAt (decodeElementsOfTuple d) s (ElementReached d Q s) := by
  induction n generalizing s with
  | zero => exact leavesAt_pure _
  | succ n ih =>
    exact LeavesAt.bind hs (hd 0 s hs) fun x s' hs' _ =>
      LeavesAt.bind_pure hs' (ih hs' fun i => hd i.succ)

theorem leavesAt_variant {d : ∀ i, Decoding (αs i)} {Q : Fin n → ScaleDecoderStream → Prop}
    (hs : Within N s) (hd : ∀ i s', Within N s' → LeavesAt (d i) s' (Q i s')) :
    LeavesAt (decodeVariant d) s
      (∃ i s', nextByte s = .ok i s' ∧ ∃ h : i.toNat < n, Q ⟨i.toNat, h⟩ s') := by
  refine LeavesAt.bind_safe hs (safeAt_nextByte hs.1) fun i s' hs' _ => ?_
  by_cases hi : i.toNat < n
  · rw [dif_pos hi]
    exact (LeavesAt.bind_pure hs' (hd ⟨i.toNat, hi⟩ s' hs')).congr (by simp [hi])
  · rw [dif_neg hi]
    exact (leavesAt_raise _).congr (by simp [hi])

/-- Neither the call that makes a pointee nor `outcomeCatch` catches the exception of the
allocation. -/
theorem leavesAt_pointer {heap : Bool} {d : Decoding α} {Q : ScaleDecoderStream → Prop}
    (hs : Within N s) (hd : LeavesAt d s (Q s)) :
    LeavesAt (makePointer d : Decoding (Pointer heap α)) s
      (heap = false ∨ heap = true ∧ Q s) := by
  cases heap with
  | false =>
    have hthrow : (makePointer d : Decoding (Pointer false α)) s = .error .badAlloc s := by
      rw [makePointer, dif_neg Bool.false_ne_true]
      rfl
    exact ⟨fun h => absurd (Or.inl rfl) h, fun _ => ⟨_, s, hthrow, fun _ => nofun⟩⟩
  | true =>
    rw [makePointer, dif_pos rfl]
    exact (LeavesAt.bind_pure hs hd).congr (by simp)

/-! ### Collections -/

theorem safeAt_catch_emplace {cap : Capacity} {order : Compare α} (c : OrderedCollection cap order)
    (x : α) : SafeAt (catchBadAlloc (c.emplace x)) s := by
  unfold OrderedCollection.emplace
  split_ifs
  · exact Source.safeAt_pure _ s
  · exact safeAt_raise .tooManyItems s

theorem leavesAt_items {d : Decoding α} {Q : ScaleDecoderStream → Prop} (k : ℕ) (hs : Within N s)
    (hd : ∀ s', Within N s' → LeavesAt d s' (Q s')) :
    LeavesAt (decodeItems d k) s (ItemReached d Q k s) := by
  induction k generalizing s with
  | zero => exact leavesAt_pure _
  | succ k ih =>
    exact LeavesAt.bind hs (hd s hs) fun x s' hs' _ => LeavesAt.bind_pure hs' (ih hs')

theorem leavesAt_sized {cap : Capacity} {d : Decoding α} {Q : ScaleDecoderStream → Prop}
    (hs : Within N s) (hd : ∀ s', Within N s' → LeavesAt d s' (Q s')) :
    LeavesAt (decodeSized b cap d) s (SizedReached b cap d Q s) := by
  refine LeavesAt.bind_safe hs (safeAt_decodeLength b hs.1) fun k s' hs' _ => ?_
  by_cases hmax : k > cap.maxSize
  · rw [if_pos hmax]
    refine (leavesAt_raise _).congr ⟨False.elim, fun h => ?_⟩
    have := h.1.1
    omega
  · have hle : k ≤ cap.maxSize := by omega
    rw [if_neg hmax]
    by_cases hmem : k ≤ cap.available
    · rw [resize, dif_pos hle, dif_pos hmem]
      refine (LeavesAt.bind_pure hs' (leavesAt_items k hs' hd)).congr ?_
      simp [Capacity.Admits, hle, hmem]
    · rw [resize, dif_pos hle, dif_neg hmem]
      refine (LeavesAt.of_safe (safeAt_raise .tooManyItems s')).congr ⟨False.elim, fun h => ?_⟩
      exact hmem h.1.2

theorem leavesAt_emplaceItems {cap : Capacity} {order : Compare α} {d : Decoding α}
    {Q : ScaleDecoderStream → Prop} (k : ℕ) (c : OrderedCollection cap order) (hs : Within N s)
    (hd : ∀ s', Within N s' → LeavesAt d s' (Q s')) :
    LeavesAt (emplaceItems d k c) s (EmplacedReached d Q k c s) := by
  induction k generalizing s c with
  | zero => exact leavesAt_pure _
  | succ k ih =>
    refine (LeavesAt.bind hs (hd s hs) fun x s' hs' _ =>
      LeavesAt.bind_safe hs' (safeAt_catch_emplace c x) fun c' s'' hs'' _ =>
        ih c' hs'').congr ?_
    simp only [EmplacedReached]
    constructor
    · rintro (h | ⟨x, s', hx, c', s'', hc, h⟩)
      · exact Or.inl h
      · exact Or.inr ⟨x, s', c', s'', hx, hc, h⟩
    · rintro (h | ⟨x, s', c', s'', hx, hc, h⟩)
      · exact Or.inl h
      · exact Or.inr ⟨x, s', hx, c', s'', hc, h⟩

theorem leavesAt_randomExtensible {cap : Capacity} {order : Compare α} {d : Decoding α}
    {Q : ScaleDecoderStream → Prop} (hs : Within N s)
    (hd : ∀ s', Within N s' → LeavesAt d s' (Q s')) :
    LeavesAt (decodeRandomExtensible b cap order d) s
      (∃ k s', decodeLength b s = .ok k s' ∧ k ≤ cap.maxSize ∧
        EmplacedReached d Q k (.clear : OrderedCollection cap order) s') := by
  refine LeavesAt.bind_safe hs (safeAt_decodeLength b hs.1) fun k s' hs' _ => ?_
  by_cases hmax : k > cap.maxSize
  · rw [if_pos hmax]
    refine (leavesAt_raise _).congr ⟨False.elim, fun h => ?_⟩
    have := h.1
    omega
  · rw [if_neg hmax]
    refine (leavesAt_emplaceItems k .clear hs' hd).congr ⟨fun h => ⟨by omega, h⟩, fun h => h.2⟩

/-! ### `BitVec` -/

/-- A `BitVec` is read whose count exceeds `max_size()` and passes the guard of the decoder: the
remaining bytes would do for the count, or for what is left of it after the sum has wrapped.  Or a
pointee is made that there is no memory for. -/
def unguarded (b : Build) : Event where
  bitVec cap s := ∃ k s', decodeLength b s = .ok k s' ∧ cap.maxSize < k ∧
    s'.hasMore (((k + 7) % 2 ^ 64) / 8)
  pointer heap := heap = false

theorem safeAt_decodeBits (k i : ℕ) (byte : UInt8) (hs : s.Valid) :
    SafeAt (decodeBits k i byte) s := by
  induction k generalizing i byte s with
  | zero => exact Source.safeAt_pure _ _
  | succ k ih =>
    unfold decodeBits
    split_ifs
    · exact (safeAt_nextByte hs).bind hs fun _ s' hs' _ => (ih _ _ hs').bind hs' fun _ _ _ _ =>
        Source.safeAt_pure _ _
    · rw [pure_bind]
      exact (ih _ _ hs).bind hs fun _ _ _ _ => Source.safeAt_pure _ _

/-- A `BitVec` is decoded safely unless its count overflows, if there is memory for as many bits as
the input has. -/
theorem leavesAt_bitVec {cap : Capacity} (hs : Within N s) (hmax : cap.maxSize < 2 ^ 63)
    (hmem : ∀ k, k ≤ 8 * N → k ≤ cap.available) :
    LeavesAt (decodeBitVec b cap) s ((unguarded b).bitVec cap s) := by
  refine LeavesAt.bind_safe hs (safeAt_decodeLength b hs.1) fun k s' hs' _ => ?_
  have hguard : hasMore (((k + 7) % 2 ^ 64) / 8) s' =
      .ok (s'.hasMore (((k + 7) % 2 ^ 64) / 8)) s' := rfl
  cases hm : s'.hasMore (((k + 7) % 2 ^ 64) / 8) with
  | false =>
    refine LeavesAt.congr (R := False) ⟨fun _ => ?_, False.elim⟩ (by simp)
    unfold SafeAt Source.SafeAt
    rw [EStateM.bind_ok hguard, hm]
    exact ⟨_, rfl⟩
  | true =>
    by_cases hover : cap.maxSize < k
    · refine LeavesAt.congr (R := True) ⟨fun h => absurd trivial h,
        fun _ => ⟨.lengthError, s', ?_, fun _ => nofun⟩⟩ (by simp [hover])
      rw [EStateM.bind_ok hguard, hm]
      simp only [not_true_eq_false, if_false]
      rw [resize, dif_neg (by omega)]
      rfl
    · refine LeavesAt.congr (R := False) ⟨fun _ => ?_, False.elim⟩ (by simp [hover])
      -- the sum has not wrapped, and the bits are no more than the input has
      have hadmits : cap.Admits k := by
        have hm' := hm
        have hle := hs'.2
        rw [Nat.mod_eq_of_lt (by omega), ScaleDecoderStream.hasMore_iff hs'.1 (by omega)] at hm'
        exact ⟨by omega, hmem k (by omega)⟩
      unfold SafeAt Source.SafeAt
      rw [EStateM.bind_ok hguard, hm]
      simp only [not_true_eq_false, if_false]
      rw [resize_of_admits hadmits, pure_bind]
      exact (safeAt_decodeBits k 0 0 hs'.1).bind hs'.1 fun _ _ _ _ => Source.safeAt_pure _ _

/-! ### The whole format -/

/-- What is assumed of the standard library for an input of `N` bytes: `std::vector<bool>` has room
for fewer than `2^63` bits, and there is memory for as many of them as the input has. -/
def ScaleType.Allocates (N : ℕ) : {α : Type} → ScaleType α → Prop
  | _, optional t => t.Allocates N
  | _, pair t u => t.Allocates N ∧ u.Allocates N
  | _, tuple ts => ∀ i, (ts i).Allocates N
  | _, variant ts _ => ∀ i, (ts i).Allocates N
  | _, pointer _ t => t.Allocates N
  | _, staticCollection _ t => t.Allocates N
  | _, resizeable _ t => t.Allocates N
  | _, bitVec cap => cap.maxSize < 2 ^ 63 ∧ ∀ k, k ≤ 8 * N → k ≤ cap.available
  | _, extensibleBack _ t => t.Allocates N
  | _, randomExtensible _ _ t => t.Allocates N
  | _, _ => True

open ScaleType in
/-- Decoding is safe at every position from which nothing unguarded is reached, and lets an
exception escape from the others. -/
theorem leavesAt_fromStream (t : ScaleType α) (ht : t.Allocates N) (hs : Within N s) :
    LeavesAt (t.fromStream b) s (t.Reaches b (unguarded b) s) := by
  induction t generalizing s with
  | integral i => exact .of_safe (safeAt_decodeIntegral i hs.1)
  | enum i traits => exact .of_safe (safeAt_decodeEnum i traits hs.1)
  | bigFixedWidthInteger T => exact .of_safe (safeAt_decodeBigFixedWidthInteger T hs.1)
  | compact T => exact .of_safe (safeAt_decodeCompact b T hs.1)
  | optional t ih => exact leavesAt_optional t.isBool? hs fun s' hs' => ih ht hs'
  | pair t u iht ihu => exact leavesAt_pair hs (iht ht.1 hs) fun s' hs' => ihu ht.2 hs'
  | tuple ts ih => exact leavesAt_tuple hs fun i s' hs' => ih i (ht i) hs'
  | variant ts hn ih => exact leavesAt_variant hs fun i s' hs' => ih i (ht i) hs'
  | pointer heap t ih => exact leavesAt_pointer hs (ih ht hs)
  | staticCollection n t ih => exact leavesAt_items n hs fun s' hs' => ih ht hs'
  | resizeable cap t ih => exact leavesAt_sized hs fun s' hs' => ih ht hs'
  | vectorBool cap =>
    refine (leavesAt_sized (Q := fun _ => False) hs fun s' hs' =>
      .of_safe (safeAt_decodeBool hs'.1)).congr ⟨?_, False.elim⟩
    rintro ⟨k, s', _, _, hreached⟩
    exact not_itemReached hreached
  | bitVec cap => exact leavesAt_bitVec hs ht.1 ht.2
  | extensibleBack cap t ih => exact leavesAt_sized hs fun s' hs' => ih ht hs'
  | randomExtensible cap order t ih => exact leavesAt_randomExtensible hs fun s' hs' => ih ht hs'

/-- The failure, if it is one, carries a `DecodeError`. -/
def FailsWithDecodeError (r : Except ErrorCode α) : Prop :=
  ∀ code, r = .error code → ∃ e, code = .decode e

/-- `scale::decode` returns a value or a failure that carries a `DecodeError` iff the run comes to
no `BitVec` whose count overflows and to no pointee that cannot be allocated; otherwise another
exception escapes. -/
theorem decode_total_iff {t : ScaleType α} {data : ConstSpanOfBytes}
    (ht : t.Allocates data.size) :
    (∃ r, decode b t data = .ok r ∧ FailsWithDecodeError r) ↔
      ¬ t.Reaches b (unguarded b) (.ofSpan data) := by
  have hs : Within data.size (.ofSpan data) :=
    ⟨ScaleDecoderStream.valid_ofSpan data, le_rfl⟩
  obtain ⟨hsafe, hthrows⟩ := leavesAt_fromStream (b := b) t ht hs
  constructor
  · rintro ⟨r, hr, _⟩ hR
    obtain ⟨e, s', herr, hesc⟩ := hthrows hR
    rw [decode, outcomeCatch, herr] at hr
    cases e with
    | systemError code => exact hesc code rfl
    | _ => cases hr
  · intro hR
    have h := hsafe hR
    cases hrun : t.fromStream b (.ofSpan data) with
    | ok v s' =>
      refine ⟨.ok v, by rw [decode, outcomeCatch, hrun]; rfl, ?_⟩
      intro code hcode
      cases hcode
    | error e s' =>
      obtain ⟨c, rfl⟩ := h.raised hrun
      refine ⟨.error (.decode c), by rw [decode, outcomeCatch, hrun]; rfl, ?_⟩
      intro code hcode
      cases hcode
      exact ⟨c, rfl⟩

theorem decode_total_iff_bitVec :
    (ScaleType.bitVec ⟨2 ^ 63 - 64, 2 ^ 40, by decide⟩).Allocates 2 ∧
      ((∃ r, decode .default (.bitVec ⟨2 ^ 63 - 64, 2 ^ 40, by decide⟩) ⟨[0x0c, 5], by decide⟩ =
          .ok r ∧ FailsWithDecodeError r) ↔
        ¬ (ScaleType.bitVec ⟨2 ^ 63 - 64, 2 ^ 40, by decide⟩).Reaches .default
          (unguarded .default) (.ofSpan ⟨[0x0c, 5], by decide⟩)) :=
  have ht : (ScaleType.bitVec ⟨2 ^ 63 - 64, 2 ^ 40, by decide⟩).Allocates 2 :=
    ⟨by decide, fun k hk => hk.trans (by decide)⟩
  ⟨ht, decode_total_iff ht⟩

/-- For a `BitVec` of `2^64 - 1` bits, `scale::decode` lets a `std::length_error` escape. -/
theorem decode_bitVec_throws :
    decode .default (.bitVec ⟨2 ^ 63 - 64, 2 ^ 40, by decide⟩)
        ⟨[0x13, 0xff, 0xff, 0xff, 0xff, 0xff, 0xff, 0xff, 0xff], by decide⟩ =
      .error .lengthError := by
  decide +kernel

example : decode .default (.pointer false (.integral .bool)) ⟨[1], by decide⟩ = .error .badAlloc :=
  rfl

end ScaleCodec
