import ScaleCodec.Lib.Reread
import ScaleCodec.Equiv.RoundTrip
import ScaleCodec.Equiv.Canonical
import ScaleCodec.Equiv.BitVec
import ScaleCodec.DynamicCollections

/-!
# Encoding what was decoded, and decoding it again

`RereadsAt e d a s s' G` says that `e` writes no more bytes than lie between two positions, and
that `d` reads them back as `a` if `G` and refuses them otherwise.  It holds of every overload when
it holds of its parts, with `Below30` for `G` in the default build, whose headers of larger builtin
integers announce too many bytes (`rereadsAt_compact_le`): every decoded value is read back or
refused, and it is known which (`readsBack_iff`).
-/

namespace ScaleCodec

variable {α β γ : Type} {n : ℕ} {αs : Fin n → Type} {b : Build}
  {s s' s'' : ScaleDecoderStream} {G G' : Prop}

/-- The bytes between `s` and `s'` were decoded; `e` writes no more bytes than these, which `d`
reads back as `a` if `G`, and refuses otherwise. -/
def RereadsAt (e : Encoding Unit) (d : Decoding α) (a : α) (s s' : ScaleDecoderStream)
    (G : Prop) : Prop :=
  ∃ p q, Consumed s p s' ∧ q.length ≤ p.length ∧ Rereads encoderSink decoderSource e d a G q

theorem RereadsAt.of_consumed {e : Encoding Unit} {d : Decoding α} {a : α} {p : List UInt8}
    (hp : Consumed s p s') (hw : Writes e p) (hr : Reads d p a) : RereadsAt e d a s s' True :=
  ⟨p, p, hp, le_rfl, .of_reads hw hr trivial⟩

theorem rereadsAt_pure (a : α) : RereadsAt (pure ()) (pure a) a s s True :=
  .of_consumed (Source.Consumed.refl s) writes_pure (Source.reads_pure a)

theorem RereadsAt.bind {e : Encoding Unit} {g : Unit → Encoding Unit} {d : Decoding α}
    {f : α → Decoding γ} {a : α} {c : γ} (h : RereadsAt e d a s s' G)
    (h' : RereadsAt (g ()) (f a) c s' s'' G') :
    RereadsAt (e >>= g) (d >>= f) c s s'' (G ∧ G') := by
  obtain ⟨p, q, hp, hlen, hq⟩ := h
  obtain ⟨p', q', hp', hlen', hq'⟩ := h'
  refine ⟨p ++ p', q ++ q', hp.trans hp', ?_, hq.bind hq'⟩
  rw [List.length_append, List.length_append]
  omega

theorem RereadsAt.bind_pure {e : Encoding Unit} {d : Decoding α} {f : α → Decoding γ} {a : α}
    {c : γ} (h : RereadsAt e d a s s' G) (hf : f a = pure c) :
    RereadsAt e (d >>= f) c s s' G := by
  obtain ⟨p, q, hp, hlen, hq⟩ := h
  exact ⟨p, q, hp, hlen, hq.bind_pure hf⟩

theorem RereadsAt.congr {e : Encoding Unit} {d : Decoding α} {a : α}
    (h : RereadsAt e d a s s' G) (hG : G ↔ G') : RereadsAt e d a s s' G' := by
  rwa [propext hG] at h

theorem RereadsAt.valid {e : Encoding Unit} {d : Decoding α} {a : α}
    (h : RereadsAt e d a s s' G) (hs : s.Valid) : s'.Valid := by
  obtain ⟨p, _, hp, _⟩ := h
  exact hp.valid hs

/-! ### Values without parts -/

theorem rereadsAt_integral (i : Integral β) (hs : s.Valid) {v : β}
    (h : decodeIntegral i s = .ok v s') :
    RereadsAt (encodeIntegral i v) (decodeIntegral i) v s s' True :=
  .of_consumed (decodeIntegral_eq_ok i hs h) (writes_encodeIntegral i v) (reads_decodeIntegral i v)

theorem rereadsAt_enum {i : Integral β} {traits : EnumTraits β} (hs : s.Valid) {v : β}
    (h : decodeEnum i traits s = .ok v s') :
    RereadsAt (encodeIntegral i v) (decodeEnum i traits) v s s' True := by
  obtain ⟨x, s₁, hx, hrest⟩ := EStateM.bind_eq_ok.mp h
  split_ifs at hrest with hvalid
  · cases hrest
    exact (rereadsAt_integral i hs hx).bind_pure (if_pos hvalid)
  · cases hrest

theorem rereadsAt_bigFixedWidthInteger {T : BigFixedWidthInteger} (hs : s.Valid)
    {v : BitVec T.width} (h : decodeBigFixedWidthInteger T s = .ok v s') :
    RereadsAt (encodeBigFixedWidthInteger T v) (decodeBigFixedWidthInteger T) v s s' True := by
  have hcons := decodeBigFixedWidthInteger_eq_ok T hs h
  have hr := reads_decodeBigFixedWidthInteger T _ (LittleEndian.length_bytes T.bytes v.toNat)
  -- the value read from these bytes is `v`, as it was before
  have hrun := hr.run hs hcons
  rw [h] at hrun
  injection hrun with hv _
  rw [← hv] at hr
  exact .of_consumed hcons (writes_encodeBigFixedWidthInteger T v) hr

/-- The numbers that are decoded lie below a bound, and no compact form of them or of smaller ones
is longer than what was decoded. -/
theorem decodeCompactNumber_eq_ok {x : ℕ} (hs : s.Valid)
    (h : decodeCompactNumber b s = .ok x s') :
    x < (match b with | .jam => 2 ^ 64 | .default => 2 ^ 536) ∧
      ∃ p, Consumed s p s' ∧ ∀ y ≤ x, (compactForm b y).length ≤ p.length := by
  cases b with
  | jam =>
    refine ⟨decodeJamCompactInteger_lt hs h, ?_⟩
    change decodeJamCompactInteger s = _ at h
    rcases decodeJamCompactInteger_cases hs with
      ⟨_, h'⟩ | ⟨l, c, q, hform, hp, ⟨_, h'⟩ | ⟨_, h'⟩⟩
    · rw [h'] at h; cases h
    · rw [h'] at h; cases h
    · rw [h'] at h
      injection h with hx hs'
      have hlen : (leadByte l c :: q).length = 1 + l := by
        rw [List.length_cons, hform.length_eq, Nat.add_comm]
      refine ⟨leadByte l c :: q, ⟨hp, by rw [hlen]; exact hs'.symm⟩, fun y hy => ?_⟩
      have hmono : (compactForm .jam y).length ≤ (jamBytes x).length := length_compactForm_mono hy
      -- the form may be longer than the compact one, and is never shorter
      have htail := jamTail_formValue_le hform
      rw [length_jamBytes, ← hx] at hmono
      omega
  | default =>
    obtain ⟨hcons, hlt⟩ := decodeCompactInteger_eq_ok hs h
    exact ⟨hlt, _, hcons, fun y hy => length_compactForm_mono hy⟩

/-- A value that is not larger than a decoded one: the default build refuses what it wrote for a
builtin one of `2^30` or more. -/
theorem rereadsAt_compact_le {T : CompactCompatible} (hs : s.Valid) {v w : BitVec T.width}
    (h : decodeCompact b T s = .ok v s') (hw : w.toNat ≤ v.toNat) :
    RereadsAt (encodeCompact b T w) (decodeCompact b T) w s s'
      (b = .default → T.isIntegral → w.toNat < 2 ^ 30) := by
  obtain ⟨x, hx, rfl, _⟩ := decodeCompact_eq_ok h
  obtain ⟨hlt, p, hp, hlen⟩ := decodeCompactNumber_eq_ok hs hx
  have hwx : w.toNat ≤ x := by
    rw [BitVec.toNat_ofNat] at hw
    exact hw.trans (Nat.mod_le _ _)
  by_cases hbound : w.toNat < compactBound b T
  · refine ⟨p, _, hp, hlen _ hwx, .of_reads (writes_encodeCompact hbound)
      (reads_compactForm hbound) ?_⟩
    rintro rfl hT
    rwa [compactBound, if_pos hT] at hbound
  · -- only builtin values of the default build come to their bound
    have hcond : b = .default ∧ T.isIntegral := by
      unfold compactBound at hbound
      cases b with
      | jam => exact absurd (hwx.trans_lt hlt) hbound
      | default =>
        split_ifs at hbound with hT
        · exact ⟨rfl, hT⟩
        · exact absurd (hwx.trans_lt hlt) hbound
    obtain ⟨rfl, hT⟩ := hcond
    have h30 : 2 ^ 30 ≤ w.toNat := by
      rw [compactBound, if_pos hT] at hbound
      exact Nat.not_lt.mp hbound
    have h64 : w.toNat < 2 ^ 64 := w.isLt.trans_le
      (two_pow_le _ _ (CompactCompatible.width_le_of_isIntegral hT))
    -- the header announces more bytes than are written, of which there are not too many
    refine ⟨p, _, hp, ?_, .of_refuses (writes_encodeCompactInteger_builtin hT h30) ?_
      (fun hG => absurd (hG rfl hT) (Nat.not_lt.mpr h30)) w⟩
    · have hle : (compactBytes w.toNat).length ≤ p.length := hlen _ hwx
      rw [length_compactBytes_of_le h30] at hle
      rwa [List.length_cons, LittleEndian.length_bytes]
    · intro t ht hpre a t'
      have hhead : [UInt8.ofNat (4 * (bitWidth w.toNat - 4) + 3)] ++
          LittleEndian.bytes (LittleEndian.length w.toNat) w.toNat <+: t.remaining := hpre
      exact decodeCompact_builtin_header hT h30 h64 ht hhead a t'

/-- A collection that has lost items is given a smaller length than the decoded one. -/
theorem rereadsAt_length {m k : ℕ} (hs : s.Valid) (h : decodeLength b s = .ok k s')
    (hm : m ≤ k) :
    RereadsAt (encodeLength b m) (decodeLength b) m s s' (b = .default → m < 2 ^ 30) := by
  obtain ⟨v, s₁, hv, hrest⟩ := EStateM.bind_eq_ok.mp h
  cases hrest
  have hw : (BitVec.ofNat CompactCompatible.size.width m).toNat = m := by
    rw [BitVec.toNat_ofNat]
    exact Nat.mod_eq_of_lt (hm.trans_lt v.isLt)
  have hre := rereadsAt_compact_le hs hv (w := BitVec.ofNat CompactCompatible.size.width m)
    (hw.trans_le hm)
  rw [hw] at hre
  refine (hre.bind_pure (f := fun x => pure x.toNat) (c := m) (by rw [hw])).congr ?_
  exact ⟨fun hG hb => hG hb rfl, fun hG hb _ => hG hb⟩

theorem rereadsAt_byte {v : UInt8} (hcons : Consumed s [v] s') :
    RereadsAt (putByte v) nextByte v s s' True :=
  .of_consumed hcons (writes_putByte v) (reads_nextByte v)

theorem rereadsAt_optionalBool (hs : s.Valid) {v : Option Bool}
    (h : decodeOptionalBool s = .ok v s') :
    RereadsAt (encodeOptionalBool v) decodeOptionalBool v s s' True := by
  obtain ⟨x, s₁, hx, hrest⟩ := EStateM.bind_eq_ok.mp h
  have hbyte := rereadsAt_byte (nextByte_eq_ok hs hx)
  split_ifs at hrest with h0 h2 h1
  · cases hrest
    rw [h0] at hbyte
    exact hbyte.bind_pure rfl
  · cases hrest
    rw [h2] at hbyte
    exact hbyte.bind_pure rfl
  · cases hrest
    rw [h1] at hbyte
    exact hbyte.bind_pure rfl
  · cases hrest

/-! ### Optionals, products, variants and pointers -/

theorem rereadsAt_optional (isBool : Option (PLift (α = Bool))) {e : α → Encoding Unit}
    {d : Decoding α} {Q : α → Prop} (hs : s.Valid) {v : Option α}
    (h : decodeOptional isBool d s = .ok v s')
    (hd : ∀ x ∈ v, ∀ s₁, s₁.Valid → d s₁ = .ok x s' → RereadsAt (e x) d x s₁ s' (Q x))
    (hQ : ∀ x, isBool ≠ none → Q x) :
    RereadsAt (encodeOptional isBool e v) (decodeOptional isBool d) v s s' (∀ x ∈ v, Q x) := by
  rcases isBool with _ | ⟨⟨rfl⟩⟩
  · obtain ⟨hasValue, s₁, hbool, hrest⟩ := EStateM.bind_eq_ok.mp h
    have hflag := rereadsAt_integral .bool hs hbool
    cases hasValue with
    | false =>
      cases hrest
      refine RereadsAt.congr (G := True) ?_ (by simp)
      exact hflag.bind_pure rfl
    | true =>
      obtain ⟨x, s₂, hx, hpure⟩ := EStateM.bind_eq_ok.mp hrest
      cases hpure
      have hvalue := (hd x rfl s₁ (hflag.valid hs) hx).bind_pure (f := fun x => pure (some x)) rfl
      exact (hflag.bind (g := fun _ => e x) hvalue).congr (by simp)
  · obtain ⟨w, s₁, hw, hrest⟩ := EStateM.bind_eq_ok.mp h
    cases hrest
    rw [encodeOptional, decodeOptional]
    have hre := rereadsAt_optionalBool hs hw
    cases w with
    | none =>
      refine RereadsAt.congr (G := True) ?_ (by simp)
      exact hre.bind_pure rfl
    | some x =>
      refine RereadsAt.congr (G := True) ?_ (by simp [hQ])
      exact hre.bind_pure rfl

theorem rereadsAt_pair {e : α → Encoding Unit} {e' : β → Encoding Unit} {d : Decoding α}
    {d' : Decoding β} {Q : α → Prop} {Q' : β → Prop} (hs : s.Valid) {v : α × β}
    (h : decodePair d d' s = .ok v s')
    (hd : ∀ s₁, d s = .ok v.1 s₁ → RereadsAt (e v.1) d v.1 s s₁ (Q v.1))
    (hd' : ∀ s₁, s₁.Valid → d' s₁ = .ok v.2 s' → RereadsAt (e' v.2) d' v.2 s₁ s' (Q' v.2)) :
    RereadsAt (encodePair e e' v) (decodePair d d') v s s' (Q v.1 ∧ Q' v.2) := by
  obtain ⟨x, s₁, hx, hrest⟩ := EStateM.bind_eq_ok.mp h
  obtain ⟨y, s₂, hy, hpure⟩ := EStateM.bind_eq_ok.mp hrest
  cases hpure
  have hfirst := hd s₁ hx
  have hsecond := (hd' s₁ (hfirst.valid hs) hy).bind_pure (f := fun y => pure (x, y)) rfl
  exact hfirst.bind (g := fun _ => e' y) hsecond

theorem rereadsAt_tuple {e : ∀ i, αs i → Encoding Unit} {d : ∀ i, Decoding (αs i)}
    {Q : ∀ i, αs i → Prop} (hs : s.Valid) {v : ∀ i, αs i}
    (h : decodeElementsOfTuple d s = .ok v s')
    (hd : ∀ i s₁ s₂, s₁.Valid → d i s₁ = .ok (v i) s₂ →
      RereadsAt (e i (v i)) (d i) (v i) s₁ s₂ (Q i (v i))) :
    RereadsAt (encodeElementsOfTuple e v) (decodeElementsOfTuple d) v s s'
      (∀ i, Q i (v i)) := by
  induction n generalizing s with
  | zero =>
    cases h
    exact (rereadsAt_pure _).congr (by simp)
  | succ n ih =>
    obtain ⟨x, s₁, hx, hrest⟩ := EStateM.bind_eq_ok.mp h
    obtain ⟨xs, s₂, hxs, hpure⟩ := EStateM.bind_eq_ok.mp hrest
    cases hpure
    have hfirst := hd 0 s s₁ hs hx
    have htail := ih (e := fun i => e i.succ) (Q := fun i => Q i.succ) (hfirst.valid hs) hxs
      fun i => hd i.succ
    refine (hfirst.bind (g := fun _ => encodeElementsOfTuple (fun i => e i.succ) xs)
      (htail.bind_pure (f := fun xs => pure (Fin.cons x xs)) rfl)).congr ?_
    rw [Fin.forall_fin_succ]
    rfl

theorem rereadsAt_variant {e : ∀ i, αs i → Encoding Unit} {d : ∀ i, Decoding (αs i)}
    {Q : ∀ i, αs i → Prop} (hs : s.Valid) {v : Variant αs}
    (h : decodeVariant d s = .ok v s')
    (hd : ∀ i x, v = .holds i x → ∀ s₁, s₁.Valid → d i s₁ = .ok x s' →
      RereadsAt (e i x) (d i) x s₁ s' (Q i x)) :
    RereadsAt (encodeVariant e v) (decodeVariant d) v s s' (∀ i x, v = .holds i x → Q i x) := by
  obtain ⟨i, s₁, hi, hrest⟩ := EStateM.bind_eq_ok.mp h
  have hindex := rereadsAt_byte (nextByte_eq_ok hs hi)
  split_ifs at hrest with hlt
  · obtain ⟨x, s₂, hx, hpure⟩ := EStateM.bind_eq_ok.mp hrest
    cases hpure
    have hvalue := (hd _ x rfl s₁ (hindex.valid hs) hx).bind_pure
      (f := fun x => pure (Variant.holds ⟨i.toNat, hlt⟩ x)) rfl
    have hwhole := hindex.bind (g := fun _ => e ⟨i.toNat, hlt⟩ x)
      (f := fun typeIndex => if h : typeIndex.toNat < n then
          d ⟨typeIndex.toNat, h⟩ >>= fun x => pure (Variant.holds ⟨typeIndex.toNat, h⟩ x)
        else raise (.decode .wrongTypeIndex)) (by rw [dif_pos hlt]; exact hvalue)
    rw [encodeVariant, UInt8.ofNat_toNat]
    refine hwhole.congr ⟨?_, fun hQ => ⟨trivial, hQ _ x rfl⟩⟩
    rintro ⟨_, hQ⟩ j y heq
    cases heq
    exact hQ
  · cases hrest

theorem rereadsAt_pointer {heap : Bool} {e : α → Encoding Unit} {d : Decoding α}
    {Q : α → Prop} {v : Pointer heap α} (h : makePointer d s = .ok v s')
    (hd : ∀ x allocated, v = .to x allocated → d s = .ok x s' → RereadsAt (e x) d x s s' (Q x)) :
    RereadsAt (encodePointer e v) (makePointer d) v s s'
      (∀ x allocated, v = .to x allocated → Q x) := by
  unfold makePointer at h ⊢
  split_ifs at h ⊢ with hheap
  · obtain ⟨x, s₁, hx, hpure⟩ := EStateM.bind_eq_ok.mp h
    cases hpure
    have hvalue := (hd x hheap rfl hx).bind_pure (f := fun x => pure (Pointer.to x hheap)) rfl
    refine hvalue.congr ⟨?_, fun hQ => hQ x hheap rfl⟩
    intro hQ y allocated heq
    cases heq
    exact hQ
  · cases h

/-! ### Collections -/

theorem rereadsAt_items {e : α → Encoding Unit} {d : Decoding α} {Q : α → Prop} (k : ℕ)
    (hs : s.Valid) {v : List.Vector α k} (h : decodeItems d k s = .ok v s')
    (hd : ∀ x ∈ v.1, ∀ s₁ s₂, s₁.Valid → d s₁ = .ok x s₂ → RereadsAt (e x) d x s₁ s₂ (Q x)) :
    RereadsAt (v.1.forM e) (decodeItems d k) v s s' (∀ x ∈ v.1, Q x) := by
  induction k generalizing s with
  | zero =>
    cases h
    exact (rereadsAt_pure _).congr ⟨fun _ x hx => (nomatch hx), fun _ => trivial⟩
  | succ k ih =>
    obtain ⟨x, s₁, hx, hrest⟩ := EStateM.bind_eq_ok.mp h
    obtain ⟨xs, s₂, hxs, hpure⟩ := EStateM.bind_eq_ok.mp hrest
    cases hpure
    have hmem : (x ::ᵥ xs).1 = x :: xs.1 := rfl
    rw [hmem] at hd ⊢
    have hfirst := hd x List.mem_cons_self s s₁ hs hx
    have htail := ih (hfirst.valid hs) hxs fun y hy => hd y (List.mem_cons_of_mem x hy)
    refine (hfirst.bind (g := fun _ => xs.1.forM e)
      (htail.bind_pure (f := fun xs => pure (x ::ᵥ xs)) rfl)).congr ?_
    rw [List.forall_mem_cons]

theorem rereadsAt_sized {cap : Capacity} {e : α → Encoding Unit} {d : Decoding α}
    {Q : α → Prop} (hs : s.Valid) {v : Collection cap α}
    (h : decodeSized b cap d s = .ok v s')
    (hd : ∀ x ∈ v.items, ∀ s₁ s₂, s₁.Valid → d s₁ = .ok x s₂ →
      RereadsAt (e x) d x s₁ s₂ (Q x)) :
    RereadsAt (encodeDynamicCollection b e v.items) (decodeSized b cap d) v s s'
      ((b = .default → v.items.length < 2 ^ 30) ∧ ∀ x ∈ v.items, Q x) := by
  obtain ⟨k, s₁, ⟨items, rfl⟩, hk, hadmits, hitems, hv⟩ := decodeSized_eq_ok h
  obtain ⟨vitems, hadm⟩ := v
  subst hv
  have hcount := rereadsAt_length hs hk le_rfl
  refine hcount.bind ?_
  rw [if_neg (Nat.not_lt.mpr hadm.1), catchBadAlloc_of_ok (resize_of_admits hadm), pure_bind]
  exact (rereadsAt_items _ (hcount.valid hs) hitems hd).bind_pure rfl

theorem rereadsAt_bitVec {cap : Capacity} (hs : s.Valid) {v : BitVecValue cap}
    (h : decodeBitVec b cap s = .ok v s') :
    RereadsAt (encodeBitVec b v.bits.items) (decodeBitVec b cap) v s s'
      (b = .default → v.bits.items.length < 2 ^ 30) := by
  obtain ⟨k, s₁, hk, hrest⟩ := EStateM.bind_eq_ok.mp h
  obtain ⟨more, s₂, hmore, hrest⟩ := EStateM.bind_eq_ok.mp hrest
  cases hmore
  split_ifs at hrest
  · obtain ⟨admits, s₃, hresize, hrest⟩ := EStateM.bind_eq_ok.mp hrest
    rw [resize_of_admits admits.down] at hresize
    cases hresize
    obtain ⟨⟨bits, rfl⟩, s₄, hbits, hpure⟩ := EStateM.bind_eq_ok.mp hrest
    cases hpure
    have hcount := rereadsAt_length hs hk le_rfl
    -- the unused bits may change, the number of bytes does not
    obtain ⟨p, hp, hlen⟩ := consumed_decodeBits (hcount.valid hs) hbits
    obtain ⟨q, hq, hw, hr⟩ := roundTrip_bitVec_body (⟨⟨bits, admits.down⟩⟩ : BitVecValue cap)
    have hbody : RereadsAt _ _ _ s₁ s' True :=
      ⟨p, q, hp, by simp only [hq, hlen]; omega, .of_reads hw hr trivial⟩
    exact (hcount.bind (g := fun _ => encodeBits bits 0 0) hbody).congr (by simp)
  · cases hrest

/-! ### Ordered containers -/

/-- How many bytes the items are written as. -/
def putLength (e : α → Encoding Unit) (items : List α) : ℕ :=
  (items.map fun x => (written (e x)).length).sum

theorem putLength_cons (e : α → Encoding Unit) (x : α) (items : List α) :
    putLength e (x :: items) = (written (e x)).length + putLength e items := rfl

theorem putLength_insert_le (e : α → Encoding Unit) (order : Compare α) (x : α) (ys : List α) :
    putLength e (order.insert x ys) ≤ putLength e ys + (written (e x)).length := by
  induction ys with
  | nil => simp [putLength, Compare.insert]
  | cons y ys ih =>
    unfold Compare.insert
    split_ifs
    · rw [putLength_cons, putLength_cons]
      omega
    · rw [putLength_cons]
      omega
    · omega

theorem emplace_eq_ok {cap : Capacity} {order : Compare α} {c c' : OrderedCollection cap order}
    {x : α} (h : c.emplace x s = .ok c' s') : s' = s ∧ c'.items = order.insert x c.items := by
  unfold OrderedCollection.emplace at h
  split_ifs at h
  · cases h
    exact ⟨rfl, rfl⟩
  · cases h

/-- The items that were kept can be written, with no more bytes than all items were decoded from. -/
theorem emplaceItems_eq_ok {cap : Capacity} {order : Compare α} {e : α → Encoding Unit}
    {d : Decoding α} {Q : α → Prop} {k : ℕ} {c c' : OrderedCollection cap order} (hs : s.Valid)
    (h : emplaceItems d k c s = .ok c' s')
    (hc : ∀ x ∈ c.items, ∃ q, Rereads encoderSink decoderSource (e x) d x (Q x) q)
    (hd : ∀ x s₁ s₂, s₁.Valid → d s₁ = .ok x s₂ → RereadsAt (e x) d x s₁ s₂ (Q x)) :
    (∀ x ∈ c'.items, ∃ q, Rereads encoderSink decoderSource (e x) d x (Q x) q) ∧
      c'.items.length ≤ c.items.length + k ∧
      ∃ p, Consumed s p s' ∧ putLength e c'.items ≤ putLength e c.items + p.length := by
  induction k generalizing c s with
  | zero =>
    cases h
    exact ⟨hc, le_rfl, [], Source.Consumed.refl _, le_rfl⟩
  | succ k ih =>
    obtain ⟨x, s₁, hx, hrest⟩ := EStateM.bind_eq_ok.mp h
    obtain ⟨c₁, s₂, hc₁, hloop⟩ := EStateM.bind_eq_ok.mp hrest
    obtain ⟨rfl, hinsert⟩ := emplace_eq_ok (catchBadAlloc_eq_ok.mp hc₁)
    -- `x` is kept or dropped; if it is kept, it can be written
    obtain ⟨p, q, hp, hlen, hq⟩ := hd x s _ hs hx
    have hitems : ∀ y ∈ c₁.items, ∃ q, Rereads encoderSink decoderSource (e y) d y (Q y) q := by
      intro y hy
      rw [hinsert] at hy
      rcases Compare.mem_of_mem_insert hy with rfl | hy'
      · exact ⟨q, hq⟩
      · exact hc y hy'
    obtain ⟨hall, hcount, p', hp', hput⟩ := ih (hp.valid hs) hloop hitems
    have hsize : (order.insert x c.items).length ≤ c.items.length + 1 :=
      Compare.length_insert_le x c.items
    have hweight := putLength_insert_le e order x c.items
    rw [hinsert] at hcount hput
    rw [written_eq hq.writes] at hweight
    refine ⟨hall, by omega, p ++ p', hp.trans hp', ?_⟩
    rw [List.length_append]
    omega

/-- Items that come in order, and can be written, are read back if all of them are. -/
theorem rereads_emplaceItems {cap : Capacity} {order : Compare α} {e : α → Encoding Unit}
    {d : Decoding α} {Q : α → Prop} (items : List α) (c c' : OrderedCollection cap order)
    (hc : c'.items = c.items ++ items)
    (h : ∀ x ∈ items, ∃ q, Rereads encoderSink decoderSource (e x) d x (Q x) q) :
    ∃ q, q.length = putLength e items ∧ Rereads encoderSink decoderSource (items.forM e)
      (emplaceItems d items.length c) c' (∀ x ∈ items, Q x) q := by
  induction items generalizing c with
  | nil =>
    have heq : c' = c := OrderedCollection.ext (by rw [hc, List.append_nil])
    rw [heq]
    exact ⟨[], rfl, .of_reads writes_pure (Source.reads_pure c) fun x hx => nomatch hx⟩
  | cons x items ih =>
    obtain ⟨q, hq⟩ := h x List.mem_cons_self
    obtain ⟨c₁, hemplace, hc₁⟩ := emplace_next hc
    obtain ⟨q', hlen, hq'⟩ := ih c₁ hc₁ fun y hy => h y (List.mem_cons_of_mem x hy)
    refine ⟨q ++ q', ?_, ?_⟩
    · rw [List.length_append, hlen, putLength_cons, written_eq hq.writes]
    · refine (hq.bind (g := fun _ => items.forM e) ?_).congr List.forall_mem_cons.symm
      rw [catchBadAlloc_of_ok hemplace, pure_bind]
      exact hq'

theorem rereadsAt_randomExtensible {cap : Capacity} {order : Compare α} {e : α → Encoding Unit}
    {d : Decoding α} {Q : α → Prop} (hs : s.Valid) {v : OrderedCollection cap order}
    (h : decodeRandomExtensible b cap order d s = .ok v s')
    (hd : ∀ x s₁ s₂, s₁.Valid → d s₁ = .ok x s₂ → RereadsAt (e x) d x s₁ s₂ (Q x)) :
    RereadsAt (encodeDynamicCollection b e v.items) (decodeRandomExtensible b cap order d) v s s'
      ((b = .default → v.items.length < 2 ^ 30) ∧ ∀ x ∈ v.items, Q x) := by
  obtain ⟨k, s₁, hk, hrest⟩ := EStateM.bind_eq_ok.mp h
  split_ifs at hrest
  · cases hrest
  · obtain ⟨bs, hbs⟩ := (safeAt_decodeLength b hs).consumed hk
    obtain ⟨hitems, hsize, p, hp, hput⟩ := emplaceItems_eq_ok (c := .clear) (hbs.valid hs) hrest
      (fun x hx => nomatch hx) hd
    have hle : v.items.length ≤ k := by simpa [OrderedCollection.clear] using hsize
    have hcount := rereadsAt_length hs hk hle
    refine hcount.bind ?_
    obtain ⟨q, hlen, hq⟩ := rereads_emplaceItems v.items .clear v rfl hitems
    rw [if_neg (Nat.not_lt.mpr v.admits.1)]
    refine ⟨p, q, hp, ?_, hq⟩
    simpa [putLength, OrderedCollection.clear, hlen] using hput

/-! ### The whole format -/

/-- What the build needs of a value to read it back: nothing in the JAM build. -/
def ScaleType.Rereadable (b : Build) (t : ScaleType α) (v : α) : Prop :=
  b = .default → t.Below30 v

theorem rereadable_of_isBool {t : ScaleType α} (h : t.isBool? ≠ none) (v : α) :
    t.Rereadable b v := by
  intro _
  unfold ScaleType.isBool? at h
  split at h
  · trivial
  · exact absurd rfl h

/-- The condition on a collection is one on its size and one on each of its items. -/
theorem rereadable_items_iff {t : ScaleType α} {items : List α} :
    ((b = .default → items.length < 2 ^ 30) ∧ ∀ x ∈ items, t.Rereadable b x) ↔
      (b = .default → items.length < 2 ^ 30 ∧ ∀ x ∈ items, t.Below30 x) := by
  constructor
  · intro hG hb
    exact ⟨hG.1 hb, fun x hx => hG.2 x hx hb⟩
  · intro hG
    exact ⟨fun hb => (hG hb).1, fun x hx hb => (hG hb).2 x hx⟩

open ScaleType in
/-- A decoded value is written as no more bytes than it was decoded from, which are read back or
refused. -/
theorem rereadsAt_toStream (t : ScaleType α) {v : α} (hs : s.Valid)
    (h : t.fromStream b s = .ok v s') :
    RereadsAt (t.toStream b v) (t.fromStream b) v s s' (t.Rereadable b v) := by
  induction t generalizing s s' with
  | integral i => exact (rereadsAt_integral i hs h).congr (by simp [Rereadable, Below30])
  | enum i traits => exact (rereadsAt_enum hs h).congr (by simp [Rereadable, Below30])
  | bigFixedWidthInteger T =>
    exact (rereadsAt_bigFixedWidthInteger hs h).congr (by simp [Rereadable, Below30])
  | compact T => exact rereadsAt_compact_le hs h le_rfl
  | optional t ih =>
    refine (rereadsAt_optional t.isBool? hs h (fun x _ s₁ hs₁ hd => ih hs₁ hd)
      fun x hx => rereadable_of_isBool hx x).congr ?_
    exact ⟨fun hG hb x hx => hG x hx hb, fun hG x hx hb => hG hb x hx⟩
  | pair t u iht ihu =>
    refine (rereadsAt_pair hs h (fun s₁ hd => iht hs hd) fun s₁ hs₁ hd => ihu hs₁ hd).congr ?_
    exact ⟨fun hG hb => ⟨hG.1 hb, hG.2 hb⟩, fun hG => ⟨fun hb => (hG hb).1, fun hb => (hG hb).2⟩⟩
  | tuple ts ih =>
    refine (rereadsAt_tuple hs h fun i s₁ s₂ hs₁ hd => ih i hs₁ hd).congr ?_
    exact ⟨fun hG hb i => hG i hb, fun hG i hb => hG hb i⟩
  | variant ts hn ih =>
    refine (rereadsAt_variant hs h fun i x _ s₁ hs₁ hd => ih i hs₁ hd).congr ?_
    exact ⟨fun hG hb i x hx => hG i x hx hb, fun hG i x hx hb => hG hb i x hx⟩
  | pointer heap t ih =>
    refine (rereadsAt_pointer h fun x allocated _ hd => ih hs hd).congr ?_
    exact ⟨fun hG hb x ha hx => hG x ha hx hb, fun hG x ha hx hb => hG hb x ha hx⟩
  | staticCollection n t ih =>
    refine (rereadsAt_items n hs h fun x _ s₁ s₂ hs₁ hd => ih hs₁ hd).congr ?_
    exact ⟨fun hG hb x hx => hG x hx hb, fun hG x hx hb => hG hb x hx⟩
  | resizeable cap t ih =>
    exact (rereadsAt_sized hs h fun x _ s₁ s₂ hs₁ hd => ih hs₁ hd).congr rereadable_items_iff
  | vectorBool cap =>
    refine (rereadsAt_sized hs h fun x _ s₁ s₂ hs₁ hd => rereadsAt_integral .bool hs₁ hd).congr ?_
    simp [Rereadable, Below30]
  | bitVec cap => exact rereadsAt_bitVec hs h
  | extensibleBack cap t ih =>
    exact (rereadsAt_sized hs h fun x _ s₁ s₂ hs₁ hd => ih hs₁ hd).congr rereadable_items_iff
  | randomExtensible cap order t ih =>
    exact (rereadsAt_randomExtensible hs h fun x s₁ s₂ hs₁ hd => ih hs₁ hd).congr
      rereadable_items_iff

/-- Reading a decoded value back, wherever it was written to. -/
theorem readsBack_iff (t : ScaleType α) {v : α} (hs : s.Valid) (h : t.fromStream b s = .ok v s') :
    t.ReadsBack b v ↔ t.Rereadable b v := by
  obtain ⟨p, q, hp, hlen, hq⟩ := rereadsAt_toStream t hs h
  have hsize : q.length < 2 ^ 63 := by
    have hle : p.length ≤ s.remaining.length := hp.1.length_le
    have hspan : s.span.size < 2 ^ 63 := s.span.size_lt
    rw [ScaleDecoderStream.length_remaining] at hle
    omega
  constructor
  · rintro ⟨q', _, hw, hr⟩
    -- only one encoding is written, and if it is refused it is not read
    rw [(hw.unique hq.writes).1] at hr
    by_contra hG
    exact (hq.refuses hG).not_reads (ScaleDecoderStream.valid_ofSpan ⟨q, hsize⟩)
      List.prefix_rfl v hr
  · intro hG
    exact ⟨q, hsize, hq.writes, hq.reads hG⟩

end ScaleCodec
