import ScaleCodec.Equiv.FixedWidthInteger
import ScaleCodec.Equiv.Compact
import ScaleCodec.Equiv.Reaches

/-!
# Decoding, then encoding again, in the default build

`RewritesAt e s s' R` says that `e` writes the bytes between two positions again, or fewer bytes in
case of `R`.  It holds of every overload when it holds of its parts, with `R` for a truncated
compact integer (`truncation`) among the parts decoded: a decoded value is written as the bytes it
was decoded from iff nothing was truncated (`toStream_fromStream_iff`).
-/

namespace ScaleCodec

variable {α β : Type} {n : ℕ} {αs : Fin n → Type} {s s' s'' : ScaleDecoderStream} {R R' : Prop}

/-- `e` writes the bytes between `s` and `s'`, or fewer if `R`. -/
def RewritesAt (e : Encoding Unit) (s s' : ScaleDecoderStream) (R : Prop) : Prop :=
  ∃ p q, Consumed s p s' ∧ Writes e q ∧ (R → q.length < p.length) ∧ (¬ R → q = p)

theorem RewritesAt.of_consumed {e : Encoding Unit} {p : List UInt8} (hp : Consumed s p s')
    (hw : Writes e p) : RewritesAt e s s' False :=
  ⟨p, p, hp, hw, False.elim, fun _ => rfl⟩

theorem rewritesAt_pure : RewritesAt (pure ()) s s False :=
  .of_consumed (Source.Consumed.refl s) writes_pure

theorem RewritesAt.bind {e : Encoding Unit} {f : Unit → Encoding Unit}
    (h : RewritesAt e s s' R) (h' : RewritesAt (f ()) s' s'' R') :
    RewritesAt (e >>= f) s s'' (R ∨ R') := by
  obtain ⟨p, q, hp, hw, hlt, heq⟩ := h
  obtain ⟨p', q', hp', hw', hlt', heq'⟩ := h'
  refine ⟨p ++ p', q ++ q', hp.trans hp', hw.bind hw', fun hR => ?_, fun hR => ?_⟩
  · -- neither part ever grows
    have hle : q.length ≤ p.length := by
      by_cases hR₁ : R
      · exact (hlt hR₁).le
      · rw [heq hR₁]
    have hle' : q'.length ≤ p'.length := by
      by_cases hR₂ : R'
      · exact (hlt' hR₂).le
      · rw [heq' hR₂]
    rw [List.length_append, List.length_append]
    rcases hR with hR₁ | hR₂
    · have := hlt hR₁
      omega
    · have := hlt' hR₂
      omega
  · rw [heq fun hR₁ => hR (Or.inl hR₁), heq' fun hR₂ => hR (Or.inr hR₂)]

theorem RewritesAt.valid {e : Encoding Unit} (h : RewritesAt e s s' R) (hs : s.Valid) :
    s'.Valid := by
  obtain ⟨p, _, hp, _⟩ := h
  exact hp.valid hs

theorem RewritesAt.congr {e : Encoding Unit} (h : RewritesAt e s s' R) (hR : R ↔ R') :
    RewritesAt e s s' R' := by
  rwa [propext hR] at h

/-- The bytes are written again iff there are not fewer. -/
theorem RewritesAt.iff {e : Encoding Unit} (h : RewritesAt e s s' R) :
    (∃ p, Consumed s p s' ∧ Writes e p) ↔ ¬ R := by
  obtain ⟨p, q, hp, hw, hlt, heq⟩ := h
  constructor
  · rintro ⟨p', hp', hw'⟩ hR
    have hlen := hlt hR
    rw [hp.unique hp', (hw.unique hw').1] at hlen
    exact absurd hlen (lt_irrefl _)
  · intro hR
    exact ⟨p, hp, heq hR ▸ hw⟩

/-! ### The part of the format without `BitVec` and ordered containers -/

/-- The types whose decoding is meant to be unique. -/
def ScaleType.IsUnique : {α : Type} → ScaleType α → Prop
  | _, optional t => t.IsUnique
  | _, pair t u => t.IsUnique ∧ u.IsUnique
  | _, tuple ts => ∀ i, (ts i).IsUnique
  | _, variant ts _ => ∀ i, (ts i).IsUnique
  | _, pointer _ t => t.IsUnique
  | _, staticCollection _ t => t.IsUnique
  | _, resizeable _ t => t.IsUnique
  | _, extensibleBack _ t => t.IsUnique
  | _, bitVec _ => False
  | _, randomExtensible _ _ _ => False
  | _, _ => True

/-- The collection sizes and the compact integers of builtin type inside a value are below
`2^30`. -/
def ScaleType.Below30 : {α : Type} → ScaleType α → α → Prop
  | _, compact T, v => T.isIntegral → v.toNat < 2 ^ 30
  | _, optional t, v => ∀ x ∈ v, t.Below30 x
  | _, pair t u, v => t.Below30 v.1 ∧ u.Below30 v.2
  | _, tuple ts, v => ∀ i, (ts i).Below30 (v i)
  | _, variant ts _, v => ∀ i x, v = .holds i x → (ts i).Below30 x
  | _, pointer _ t, v => ∀ x allocated, v = .to x allocated → t.Below30 x
  | _, staticCollection _ t, v => ∀ x ∈ v.1, t.Below30 x
  | _, resizeable _ t, v => v.items.length < 2 ^ 30 ∧ ∀ x ∈ v.items, t.Below30 x
  | _, vectorBool _, v => v.items.length < 2 ^ 30
  | _, bitVec _, v => v.bits.items.length < 2 ^ 30
  | _, extensibleBack _ t, v => v.items.length < 2 ^ 30 ∧ ∀ x ∈ v.items, t.Below30 x
  | _, randomExtensible _ _ t, v => v.items.length < 2 ^ 30 ∧ ∀ x ∈ v.items, t.Below30 x
  | _, _, _ => True

/-- A compact integer of one of Boost's types announces more bytes than the type has. -/
def truncation : Event where
  compact T s := ¬ T.isIntegral ∧ AnnouncesMoreThan T s.remaining

/-! ### Values without parts -/

theorem rewritesAt_integral (i : Integral β) (hs : s.Valid) {v : β}
    (h : decodeIntegral i s = .ok v s') : RewritesAt (encodeIntegral i v) s s' False :=
  .of_consumed (decodeIntegral_eq_ok i hs h) (writes_encodeIntegral i v)

theorem rewritesAt_enum {i : Integral β} {traits : EnumTraits β} (hs : s.Valid) {v : β}
    (h : decodeEnum i traits s = .ok v s') : RewritesAt (encodeIntegral i v) s s' False := by
  obtain ⟨x, s₁, hx, hrest⟩ := EStateM.bind_eq_ok.mp h
  split_ifs at hrest
  · cases hrest
    exact rewritesAt_integral i hs hx
  · cases hrest

theorem rewritesAt_bigFixedWidthInteger {T : BigFixedWidthInteger} (hs : s.Valid)
    {v : BitVec T.width} (h : decodeBigFixedWidthInteger T s = .ok v s') :
    RewritesAt (encodeBigFixedWidthInteger T v) s s' False :=
  .of_consumed (decodeBigFixedWidthInteger_eq_ok T hs h) (writes_encodeBigFixedWidthInteger T v)

/-- The compact form of a number that is truncated to `n` bytes is longer than that of what is left
of it. -/
theorem length_compactBytes_lt {x y n : ℕ} (hn : 4 ≤ n) (hx : x < 256 ^ n) (hy : 256 ^ n ≤ y) :
    (compactBytes x).length < (compactBytes y).length := by
  have hpow : 256 ^ 4 ≤ 256 ^ n := Nat.pow_le_pow_right (by omega) hn
  have hy30 : 2 ^ 30 ≤ y := le_trans (by decide) (hpow.trans hy)
  have hxn := (LittleEndian.length_le_iff x n).mpr hx
  have hyn : ¬ LittleEndian.length y ≤ n := by
    rw [LittleEndian.length_le_iff]
    omega
  rw [length_compactBytes_of_le hy30]
  by_cases hx30 : x < 2 ^ 30
  · rw [length_compactBytes_of_lt hx30]
    split_ifs <;> omega
  · rw [length_compactBytes_of_le (by omega)]
    omega

theorem rewritesAt_compact {T : CompactCompatible} (hs : s.Valid) {v : BitVec T.width}
    (h : decodeCompact .default T s = .ok v s') (hv : T.isIntegral → v.toNat < 2 ^ 30) :
    RewritesAt (encodeCompact .default T v) s s' (truncation.compact T s) := by
  obtain ⟨x, hx, rfl, hfits⟩ := decodeCompact_eq_ok h
  obtain ⟨hcons, hlt⟩ := decodeCompactInteger_eq_ok hs hx
  have hnat : (BitVec.ofNat T.width x).toNat = x % 2 ^ T.width := BitVec.toNat_ofNat _ _
  by_cases hT : T.isIntegral
  · -- a builtin target was checked, so that nothing is lost
    have hw := writes_encodeCompactInteger_of_lt (hv hT)
    rw [hnat, Nat.mod_eq_of_lt (hfits hT)] at hw
    exact (RewritesAt.of_consumed hcons hw).congr ⟨False.elim, fun h => h.1 hT⟩
  · -- the low bits are kept, which are all of them unless too many bytes were announced
    have hmore := pow_width_le_iff hT hs hx
    have hle := Nat.mod_le x (2 ^ T.width)
    have hw := writes_encodeCompactInteger_big hT (v := BitVec.ofNat T.width x)
      (by rw [hnat]; omega)
    rw [hnat] at hw
    refine ⟨_, _, hcons, hw, fun hR => ?_, fun hR => ?_⟩
    · have hwidth := CompactCompatible.le_width_of_not_isIntegral hT
      have hpow : 2 ^ T.width = 256 ^ (T.width / 8) := by
        rw [LittleEndian.pow256_eq, T.width_div_mul]
      have hbig := hmore.mpr hR.2
      rw [hpow] at hbig ⊢
      exact length_compactBytes_lt (by omega) (Nat.mod_lt _ (Nat.pow_pos (by omega))) hbig
    · have hsmall : ¬ 2 ^ T.width ≤ x := fun hbig => hR ⟨hT, hmore.mp hbig⟩
      rw [Nat.mod_eq_of_lt (by omega)]

theorem rewritesAt_length {k : ℕ} (hs : s.Valid) (h : decodeLength .default s = .ok k s')
    (hk : k < 2 ^ 30) : RewritesAt (encodeLength .default k) s s' False := by
  obtain ⟨v, s₁, hv, hrest⟩ := EStateM.bind_eq_ok.mp h
  cases hrest
  have hrw := rewritesAt_compact hs hv fun _ => hk
  rw [encodeLength, BitVec.ofNat_toNat, BitVec.setWidth_eq]
  exact hrw.congr ⟨fun h => h.1 rfl, False.elim⟩

theorem rewritesAt_optionalBool (hs : s.Valid) {v : Option Bool}
    (h : decodeOptionalBool s = .ok v s') : RewritesAt (encodeOptionalBool v) s s' False := by
  obtain ⟨x, s₁, hx, hrest⟩ := EStateM.bind_eq_ok.mp h
  have hcons := nextByte_eq_ok hs hx
  split_ifs at hrest with h0 h2 h1
  · cases hrest
    exact .of_consumed (h0 ▸ hcons) (writes_putByte 0)
  · cases hrest
    exact .of_consumed (h2 ▸ hcons) (writes_putByte 2)
  · cases hrest
    exact .of_consumed (h1 ▸ hcons) (writes_putByte 1)
  · cases hrest

/-! ### Optionals, products, variants and pointers -/

theorem rewritesAt_optional (isBool : Option (PLift (α = Bool))) {e : α → Encoding Unit}
    {d : Decoding α} {Q : ScaleDecoderStream → Prop} (hs : s.Valid) {v : Option α}
    (h : decodeOptional isBool d s = .ok v s')
    (hd : ∀ x ∈ v, ∀ s₁, s₁.Valid → d s₁ = .ok x s' → RewritesAt (e x) s₁ s' (Q s₁)) :
    RewritesAt (encodeOptional isBool e v) s s'
      (isBool = none ∧ ∃ s₁, decodeBool s = .ok true s₁ ∧ Q s₁) := by
  rcases isBool with _ | ⟨⟨rfl⟩⟩
  · obtain ⟨hasValue, s₁, hbool, hrest⟩ := EStateM.bind_eq_ok.mp h
    have hflag := rewritesAt_integral .bool hs hbool
    cases hasValue with
    | false =>
      cases hrest
      refine hflag.congr ⟨False.elim, ?_⟩
      rintro ⟨_, s₁, htrue, _⟩
      cases hbool.symm.trans htrue
    | true =>
      obtain ⟨x, s₂, hx, hpure⟩ := EStateM.bind_eq_ok.mp hrest
      cases hpure
      have hcons := decodeBool_eq_ok hs hbool
      refine (hflag.bind (f := fun _ => e x) (hd x rfl s₁ (hcons.valid hs) hx)).congr ?_
      rw [false_or, hbool]
      simp
  · obtain ⟨w, s₁, hw, hrest⟩ := EStateM.bind_eq_ok.mp h
    cases hrest
    have hrw := rewritesAt_optionalBool hs hw
    unfold encodeOptional
    cases w <;> exact hrw.congr ⟨False.elim, fun h => nomatch h.1⟩

theorem rewritesAt_pair {e : α → Encoding Unit} {e' : β → Encoding Unit} {d : Decoding α}
    {d' : Decoding β} {Q Q₂ : ScaleDecoderStream → Prop} (hs : s.Valid) {v : α × β}
    (h : decodePair d d' s = .ok v s')
    (hd : ∀ s₁, d s = .ok v.1 s₁ → RewritesAt (e v.1) s s₁ (Q s))
    (hd' : ∀ s₁, s₁.Valid → d' s₁ = .ok v.2 s' → RewritesAt (e' v.2) s₁ s' (Q₂ s₁)) :
    RewritesAt (encodePair e e' v) s s' (Q s ∨ ∃ x s₁, d s = .ok x s₁ ∧ Q₂ s₁) := by
  obtain ⟨x, s₁, hx, hrest⟩ := EStateM.bind_eq_ok.mp h
  obtain ⟨y, s₂, hy, hpure⟩ := EStateM.bind_eq_ok.mp hrest
  cases hpure
  have hfirst := hd s₁ hx
  refine (hfirst.bind (f := fun _ => e' y) (hd' s₁ (hfirst.valid hs) hy)).congr ?_
  rw [hx]
  simp

theorem rewritesAt_tuple {e : ∀ i, αs i → Encoding Unit} {d : ∀ i, Decoding (αs i)}
    {Q : Fin n → ScaleDecoderStream → Prop} (hs : s.Valid) {v : ∀ i, αs i}
    (h : decodeElementsOfTuple d s = .ok v s')
    (hd : ∀ i s₁ s₂, s₁.Valid → d i s₁ = .ok (v i) s₂ → RewritesAt (e i (v i)) s₁ s₂ (Q i s₁)) :
    RewritesAt (encodeElementsOfTuple e v) s s' (ElementReached d Q s) := by
  induction n generalizing s with
  | zero =>
    cases h
    exact rewritesAt_pure
  | succ n ih =>
    obtain ⟨x, s₁, hx, hrest⟩ := EStateM.bind_eq_ok.mp h
    obtain ⟨xs, s₂, hxs, hpure⟩ := EStateM.bind_eq_ok.mp hrest
    cases hpure
    have hfirst := hd 0 s s₁ hs hx
    have htail := ih (e := fun i => e i.succ) (Q := fun i => Q i.succ) (hfirst.valid hs) hxs
      fun i => hd i.succ
    refine (hfirst.bind (f := fun _ => encodeElementsOfTuple (fun i => e i.succ) xs)
      htail).congr ?_
    rw [elementReached_succ, hx]
    simp

theorem rewritesAt_variant {e : ∀ i, αs i → Encoding Unit} {d : ∀ i, Decoding (αs i)}
    {Q : Fin n → ScaleDecoderStream → Prop} (hs : s.Valid) {v : Variant αs}
    (h : decodeVariant d s = .ok v s')
    (hd : ∀ i x, v = .holds i x → ∀ s₁, s₁.Valid → d i s₁ = .ok x s' →
      RewritesAt (e i x) s₁ s' (Q i s₁)) :
    RewritesAt (encodeVariant e v) s s'
      (∃ i s₁, nextByte s = .ok i s₁ ∧ ∃ h : i.toNat < n, Q ⟨i.toNat, h⟩ s₁) := by
  obtain ⟨i, s₁, hi, hrest⟩ := EStateM.bind_eq_ok.mp h
  have hcons := nextByte_eq_ok hs hi
  split_ifs at hrest with hlt
  · obtain ⟨x, s₂, hx, hpure⟩ := EStateM.bind_eq_ok.mp hrest
    cases hpure
    have hindex : RewritesAt (putByte (UInt8.ofNat i.toNat)) s s₁ False := by
      rw [UInt8.ofNat_toNat]
      exact .of_consumed hcons (writes_putByte i)
    refine (hindex.bind (f := fun _ => e ⟨i.toNat, hlt⟩ x)
      (hd _ x rfl s₁ (hcons.valid hs) hx)).congr ?_
    rw [false_or, hi]
    constructor
    · exact fun hR => ⟨i, s₁, rfl, hlt, hR⟩
    · rintro ⟨_, _, heq, _, hR⟩
      cases heq
      exact hR
  · cases hrest

theorem rewritesAt_pointer {heap : Bool} {e : α → Encoding Unit} {d : Decoding α}
    {Q : ScaleDecoderStream → Prop} {v : Pointer heap α}
    (h : makePointer d s = .ok v s')
    (hd : ∀ x allocated, v = .to x allocated → d s = .ok x s' → RewritesAt (e x) s s' (Q s)) :
    RewritesAt (encodePointer e v) s s' (False ∨ heap = true ∧ Q s) := by
  unfold makePointer at h
  split_ifs at h with hheap
  · obtain ⟨x, s₁, hx, hpure⟩ := EStateM.bind_eq_ok.mp h
    cases hpure
    refine (hd x hheap rfl hx).congr ?_
    simp [hheap]
  · cases h

/-! ### Collections -/

theorem rewritesAt_items {e : α → Encoding Unit} {d : Decoding α}
    {Q : ScaleDecoderStream → Prop} (k : ℕ) (hs : s.Valid) {v : List.Vector α k}
    (h : decodeItems d k s = .ok v s')
    (hd : ∀ x ∈ v.1, ∀ s₁ s₂, s₁.Valid → d s₁ = .ok x s₂ → RewritesAt (e x) s₁ s₂ (Q s₁)) :
    RewritesAt (v.1.forM e) s s' (ItemReached d Q k s) := by
  induction k generalizing s with
  | zero =>
    cases h
    exact rewritesAt_pure
  | succ k ih =>
    obtain ⟨x, s₁, hx, hrest⟩ := EStateM.bind_eq_ok.mp h
    obtain ⟨xs, s₂, hxs, hpure⟩ := EStateM.bind_eq_ok.mp hrest
    cases hpure
    have hmem : (x ::ᵥ xs).1 = x :: xs.1 := rfl
    rw [hmem] at hd ⊢
    have hfirst := hd x List.mem_cons_self s s₁ hs hx
    have htail := ih (hfirst.valid hs) hxs fun y hy => hd y (List.mem_cons_of_mem x hy)
    refine (hfirst.bind (f := fun _ => xs.1.forM e) htail).congr ?_
    rw [ItemReached, hx]
    simp

/-- A collection that was decoded was given its size, which it could have. -/
theorem decodeSized_eq_ok {b : Build} {cap : Capacity} {d : Decoding α} {v : Collection cap α}
    (h : decodeSized b cap d s = .ok v s') :
    ∃ k s₁ items, decodeLength b s = .ok k s₁ ∧ cap.Admits k ∧
      decodeItems d k s₁ = .ok items s' ∧ v.items = items.1 := by
  obtain ⟨k, s₁, hk, hrest⟩ := EStateM.bind_eq_ok.mp h
  split_ifs at hrest with hmax
  · cases hrest
  · obtain ⟨admits, s₂, hresize, hrest⟩ := EStateM.bind_eq_ok.mp hrest
    obtain ⟨items, s₃, hitems, hpure⟩ := EStateM.bind_eq_ok.mp hrest
    cases hpure
    rw [resize, dif_pos admits.down.1, dif_pos admits.down.2] at hresize
    cases hresize
    exact ⟨k, s₁, items, hk, admits.down, hitems, rfl⟩

theorem rewritesAt_sized {cap : Capacity} {e : α → Encoding Unit} {d : Decoding α}
    {Q : ScaleDecoderStream → Prop} (hs : s.Valid) {v : Collection cap α}
    (h : decodeSized .default cap d s = .ok v s') (hlen : v.items.length < 2 ^ 30)
    (hd : ∀ x ∈ v.items, ∀ s₁ s₂, s₁.Valid → d s₁ = .ok x s₂ → RewritesAt (e x) s₁ s₂ (Q s₁)) :
    RewritesAt (encodeDynamicCollection .default e v.items) s s'
      (SizedReached .default cap d Q s) := by
  obtain ⟨k, s₁, items, hk, hadmits, hitems, hv⟩ := decodeSized_eq_ok h
  rw [hv] at hlen hd ⊢
  have hsize := items.2
  rw [hsize] at hlen
  have hcount := rewritesAt_length hs hk hlen
  rw [encodeDynamicCollection, hsize]
  refine (hcount.bind (f := fun _ => items.1.forM e)
    (rewritesAt_items k (hcount.valid hs) hitems hd)).congr ?_
  rw [false_or, SizedReached, hk]
  simp [hadmits]

/-! ### The whole format -/

open ScaleType in
/-- A decoded value is written as the bytes it was decoded from, or as fewer if a compact integer
was truncated on the way. -/
theorem rewritesAt_toStream (t : ScaleType α) (ht : t.IsUnique) {v : α} (hs : s.Valid)
    (h : t.fromStream .default s = .ok v s') (hv : t.Below30 v) :
    RewritesAt (t.toStream .default v) s s' (t.Reaches .default truncation s) := by
  induction t generalizing s s' with
  | integral i => exact rewritesAt_integral i hs h
  | enum i traits => exact rewritesAt_enum hs h
  | bigFixedWidthInteger T => exact rewritesAt_bigFixedWidthInteger hs h
  | compact T => exact rewritesAt_compact hs h hv
  | optional t ih =>
    exact rewritesAt_optional t.isBool? hs h fun x hx s₁ hs₁ hd => ih ht hs₁ hd (hv x hx)
  | pair t u iht ihu =>
    exact rewritesAt_pair hs h (fun s₁ hd => iht ht.1 hs hd hv.1)
      fun s₁ hs₁ hd => ihu ht.2 hs₁ hd hv.2
  | tuple ts ih => exact rewritesAt_tuple hs h fun i s₁ s₂ hs₁ hd => ih i (ht i) hs₁ hd (hv i)
  | variant ts hn ih =>
    exact rewritesAt_variant hs h fun i x hx s₁ hs₁ hd => ih i (ht i) hs₁ hd (hv i x hx)
  | pointer heap t ih =>
    exact rewritesAt_pointer h fun x allocated hx hd => ih ht hs hd (hv x allocated hx)
  | staticCollection n t ih =>
    exact rewritesAt_items n hs h fun x hx s₁ s₂ hs₁ hd => ih ht hs₁ hd (hv x hx)
  | resizeable cap t ih =>
    exact rewritesAt_sized hs h hv.1 fun x hx s₁ s₂ hs₁ hd => ih ht hs₁ hd (hv.2 x hx)
  | vectorBool cap =>
    refine (rewritesAt_sized (Q := fun _ => False) hs h hv
      fun x _ s₁ s₂ hs₁ hd => rewritesAt_integral .bool hs₁ hd).congr ⟨?_, False.elim⟩
    rintro ⟨k, s₁, _, _, hreached⟩
    exact not_itemReached hreached
  | bitVec cap => exact ht.elim
  | extensibleBack cap t ih =>
    exact rewritesAt_sized hs h hv.1 fun x hx s₁ s₂ hs₁ hd => ih ht hs₁ hd (hv.2 x hx)
  | randomExtensible cap order t ih => exact ht.elim

/-- In the default build a value that was decoded is written as exactly the bytes it was decoded
from iff no compact integer of one of Boost's types announced more bytes than its type has; hence
two different byte strings are never decoded to one value without such an integer in them. -/
theorem toStream_fromStream_iff {t : ScaleType α} (ht : t.IsUnique) {v : α} (hs : s.Valid)
    (h : t.fromStream .default s = .ok v s') (hv : t.Below30 v) :
    ((∃ p, Consumed s p s' ∧ Writes (t.toStream .default v) p) ↔
      ¬ t.Reaches .default truncation s) ∧
    (¬ t.Reaches .default truncation s → ∀ s₂ s₂', s₂.Valid →
      t.fromStream .default s₂ = .ok v s₂' → ¬ t.Reaches .default truncation s₂ →
      ∀ p p₂, Consumed s p s' → Consumed s₂ p₂ s₂' → p = p₂) := by
  have hrw := rewritesAt_toStream t ht hs h hv
  refine ⟨hrw.iff, fun hR s₂ s₂' hs₂ h₂ hR₂ p p₂ hp hp₂ => ?_⟩
  obtain ⟨q, hq, hw⟩ := hrw.iff.mpr hR
  obtain ⟨q₂, hq₂, hw₂⟩ := (rewritesAt_toStream t ht hs₂ h₂ hv).iff.mpr hR₂
  rw [hp.unique hq, hp₂.unique hq₂]
  exact (hw.unique hw₂).1

/-- A pair of a flag and a compact integer that fits into its type. -/
theorem toStream_fromStream_iff_pair :
    ∃ s', (ScaleType.pair (.integral .bool) (.compact .uint128)).fromStream .default
        (.ofSpan ⟨[1, 0x14], by decide⟩) = .ok (true, 5) s' ∧
      ((∃ p, Consumed (.ofSpan ⟨[1, 0x14], by decide⟩) p s' ∧
          Writes ((ScaleType.pair (.integral .bool) (.compact .uint128)).toStream .default
            (true, 5)) p) ↔
        ¬ (ScaleType.pair (.integral .bool) (.compact .uint128)).Reaches .default truncation
          (.ofSpan ⟨[1, 0x14], by decide⟩)) :=
  have hrun : (ScaleType.pair (.integral .bool) (.compact .uint128)).fromStream .default
      (.ofSpan ⟨[1, 0x14], by decide⟩) = .ok (true, 5) ⟨⟨[1, 0x14], by decide⟩, 2⟩ := by
    decide +kernel
  ⟨_, hrun, (toStream_fromStream_iff
    (t := .pair (.integral .bool) (.compact .uint128)) ⟨trivial, trivial⟩ (by decide) hrun
    ⟨trivial, fun h => nomatch h⟩).1⟩

/-- `2^128` in its compact form. -/
def oversizedBalance : ConstSpanOfBytes :=
  ⟨[0x37, 0, 0, 0, 0, 0, 0, 0, 0, 0, 0, 0, 0, 0, 0, 0, 0, 1], by decide⟩

/-- `2^128` is decoded as a `Compact<uint128_t>` of value `0`, which is written as one byte. -/
theorem toStream_fromStream_oversized :
    (ScaleType.compact .uint128).fromStream .default (.ofSpan oversizedBalance) =
        .ok 0 ⟨oversizedBalance, 18⟩ ∧
      written ((ScaleType.compact .uint128).toStream .default 0) = [0] ∧
      ¬ ∃ p, Consumed (.ofSpan oversizedBalance) p ⟨oversizedBalance, 18⟩ ∧
        Writes ((ScaleType.compact .uint128).toStream .default 0) p := by
  have hwritten : written ((ScaleType.compact .uint128).toStream .default 0) = [0] := by
    decide +kernel
  refine ⟨by decide +kernel, hwritten, ?_⟩
  rintro ⟨p, hp, hw⟩
  have hone : p = [0] := by rw [← written_eq hw, hwritten]
  have hlen := congrArg ScaleDecoderStream.currentIndex hp.2
  rw [hone] at hlen
  cases hlen

end ScaleCodec
