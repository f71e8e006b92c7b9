import ScaleCodec.Lib.Grammar
import ScaleCodec.Lib.PrefixCode
import ScaleCodec.Equiv.ReadBack
import ScaleCodec.Equiv.Targets

/-!
# The grammar of the format

`ScaleType.Spells` says which byte strings spell a value of a type, by the spellings of its parts
and without a stream.  Numbers are spelled by the forms the build accepts, the unused bits of a
`BitVec` may be anything, and the items of an ordered container come in any order and repeatedly.

`operator>>` is sound and complete for this grammar (`parses_fromStream`, by induction over the
type), so that `decode` succeeds iff the input begins with a spelling (`decodeFrom_iff_spells`).
The spellings of a type are uniquely decodable (`spellings_uniquelyDecodable`), and `encode` chooses
a shortest one (`encode_shortest`).
-/

namespace ScaleCodec

open Grammar BitPacking Source

variable {α β : Type} {n : ℕ} {αs : Fin n → Type} {b : Build} {cap : Capacity}

/-! ### Spellings -/

/-- The forms of a number that the build accepts. -/
def numberGrammar : Build → Grammar UInt8 ℕ
  | .default, x, bs => x < 2 ^ 536 ∧ bs = compactBytes x
  | .jam, x, bs => ∃ l y q, IsJamForm l y q ∧ ¬ RefusedJam l y q ∧ x = jamFormValue l y q ∧
    bs = leadByte l y :: q

/-- A compact integer: Boost's types keep the low bits of the number. -/
def compactGrammar (b : Build) (T : CompactCompatible) : Grammar UInt8 (BitVec T.width) :=
  fun v bs => ∃ x, numberGrammar b x bs ∧ v = BitVec.ofNat T.width x ∧
    (T.isIntegral → x < 2 ^ T.width)

/-- A `size_t`. -/
def lengthGrammar (b : Build) : Grammar UInt8 ℕ := fun k bs =>
  k < 2 ^ 64 ∧ numberGrammar b k bs

/-- A flag, and the value there is. -/
def optionalGrammar (isBool : Option (PLift (α = Bool))) (G : Grammar UInt8 α) :
    Grammar UInt8 (Option α)
  | none, bs => bs = [0]
  | some x, bs =>
    match isBool with
    | some h => bs = [if (eq_bool h).mp x then 1 else 2]
    | none => ∃ q, G x q ∧ bs = 1 :: q

/-- The number of items, and the items. -/
def countedGrammar (b : Build) (G : Grammar UInt8 α) : Grammar UInt8 (List α) := fun items bs =>
  ∃ p q, lengthGrammar b items.length p ∧ each G items q ∧ bs = p ++ q

/-- The number of bits, and bytes that have these bits. -/
def bitsGrammar (b : Build) : Grammar UInt8 (List Bool) := fun bits bs =>
  ∃ p q, lengthGrammar b bits.length p ∧ q.length = (bits.length + 7) / 8 ∧
    bits = bitsFrom q 0 bits.length ∧ bs = p ++ q

/-- An ordered container that holds `ys`, after `items` have been emplaced one by one. -/
def Compare.insertAll (order : Compare α) (items ys : List α) : List α :=
  items.foldl (fun ys x => order.insert x ys) ys

/-- There is memory for each of `items`, also for one that is then dropped. -/
def MemoryFor (cap : Capacity) (order : Compare α) (items ys : List α) : Prop :=
  ∀ xs x, xs ++ [x] <+: items → (order.insertAll xs ys).length < cap.available

/-- The strings that spell a value of the type. -/
def ScaleType.Spells (b : Build) : {α : Type} → ScaleType α → Grammar UInt8 α
  | _, integral i, v, bs => bs = integralBytes i v
  | _, enum i traits, v, bs => isValidEnumValue i traits v ∧ bs = integralBytes i v
  | _, bigFixedWidthInteger T, v, bs =>
    bs.length = T.bytes ∧ v = BitVec.ofNat T.width (LittleEndian.value bs)
  | _, compact T, v, bs => compactGrammar b T v bs
  | _, optional t, v, bs => optionalGrammar t.isBool? (t.Spells b) v bs
  | _, pair t u, v, bs => ∃ p q, t.Spells b v.1 p ∧ u.Spells b v.2 q ∧ bs = p ++ q
  | _, tuple ts, v, bs => product (fun i => (ts i).Spells b) v bs
  | _, variant ts _, v, bs =>
    ∃ i x q, v = .holds i x ∧ (ts i).Spells b x q ∧ bs = UInt8.ofNat i :: q
  | _, pointer _ t, v, bs => ∃ x allocated, v = .to x allocated ∧ t.Spells b x bs
  | _, staticCollection _ t, v, bs => each (t.Spells b) v.1 bs
  | _, resizeable _ t, v, bs => countedGrammar b (t.Spells b) v.items bs
  | _, vectorBool _, v, bs =>
    countedGrammar b (fun x bs => bs = integralBytes .bool x) v.items bs
  | _, bitVec _, v, bs => bitsGrammar b v.bits.items bs
  | _, extensibleBack _ t, v, bs => countedGrammar b (t.Spells b) v.items bs
  | _, randomExtensible cap order t, v, bs =>
    ∃ items, countedGrammar b (t.Spells b) items bs ∧ items.length ≤ cap.maxSize ∧
      MemoryFor cap order items [] ∧ v.items = order.insertAll items []

/-! ### Values without parts -/

/-- The reader returns what the grammar says. -/
abbrev Parses (d : Decoding α) (G : Grammar UInt8 α) : Prop :=
  decoderSource.Parses d G

theorem parses_raise (code : ErrorCode) : Parses (raise code : Decoding α) fun _ _ => False :=
  parses_throw _

theorem parses_integral (i : Integral β) :
    Parses (decodeIntegral i) fun v bs => bs = integralBytes i v := by
  refine .of_reads ?_ fun s v s' hs h => ⟨_, decodeIntegral_eq_ok i hs h, rfl⟩
  rintro v _ rfl
  exact reads_decodeIntegral i v

theorem parses_enum (i : Integral β) (traits : EnumTraits β) :
    Parses (decodeEnum i traits) fun v bs =>
      isValidEnumValue i traits v ∧ bs = integralBytes i v :=
  (parses_integral i).check _

theorem parses_bigFixedWidthInteger (T : BigFixedWidthInteger) :
    Parses (decodeBigFixedWidthInteger T) fun v bs =>
      bs.length = T.bytes ∧ v = BitVec.ofNat T.width (LittleEndian.value bs) := by
  refine .of_reads ?_ ?_
  · rintro _ bs ⟨hlen, rfl⟩
    exact reads_decodeBigFixedWidthInteger T bs hlen
  · intro s v s' hs h
    obtain ⟨bs, hlen, hbs⟩ := takeLowBytes_eq_ok _ _ _ hs h
    have hrun := (reads_decodeBigFixedWidthInteger T bs hlen).run hs hbs
    rw [h] at hrun
    injection hrun with hv _
    exact ⟨bs, hbs, hlen, hv⟩

theorem parses_number (b : Build) : Parses (decodeCompactNumber b) (numberGrammar b) := by
  cases b with
  | default =>
    refine .of_reads ?_ ?_
    · rintro x _ ⟨hx, rfl⟩
      exact reads_compactBytes hx
    · intro s x s' hs h
      obtain ⟨hbs, hx⟩ := decodeCompactInteger_eq_ok hs h
      exact ⟨_, hbs, hx, rfl⟩
  | jam =>
    refine .of_reads ?_ ?_
    · rintro _ _ ⟨l, y, q, hform, haccepted, rfl, rfl⟩
      have htakes := takes_decodeJamCompactInteger hform
      rwa [jamResult, if_neg haccepted] at htakes
    · intro s x s' hs h
      change decodeJamCompactInteger s = _ at h
      rcases decodeJamCompactInteger_cases hs with
        ⟨_, h'⟩ | ⟨l, y, q, hform, hp, ⟨_, h'⟩ | ⟨haccepted, h'⟩⟩
      · rw [h'] at h
        cases h
      · rw [h'] at h
        cases h
      · rw [h'] at h
        injection h with hx hs'
        refine ⟨leadByte l y :: q, ⟨hp, ?_⟩, l, y, q, hform, haccepted, hx.symm, rfl⟩
        rw [List.length_cons, hform.length_eq, Nat.add_comm]
        exact hs'.symm

theorem parses_compact (b : Build) (T : CompactCompatible) :
    Parses (decodeCompact b T) (compactGrammar b T) := by
  have hnumber := parses_number b
  refine fun s v s' hs => ⟨fun h => ?_, ?_⟩
  · obtain ⟨x, hx, hv, hlt⟩ := decodeCompact_eq_ok h
    obtain ⟨bs, hbs, hG⟩ := (hnumber s x s' hs).mp hx
    exact ⟨bs, hbs, x, hG, hv, hlt⟩
  · rintro ⟨bs, hbs, x, hG, rfl, hlt⟩
    rw [decodeCompact_of_ok ((hnumber s x s' hs).mpr ⟨bs, hbs, hG⟩)]
    exact if_neg fun h => Nat.not_le.mpr (hlt h.1) h.2

theorem parses_length (b : Build) : Parses (decodeLength b) (lengthGrammar b) := by
  refine ((parses_compact b .size).map BitVec.toNat).congr fun k bs => ?_
  constructor
  · rintro ⟨_, ⟨x, hx, rfl, hlt⟩, rfl⟩
    have hx64 : x < 2 ^ 64 := hlt rfl
    have hmod : (BitVec.ofNat CompactCompatible.size.width x).toNat = x :=
      (BitVec.toNat_ofNat x _).trans (Nat.mod_eq_of_lt hx64)
    rw [hmod]
    exact ⟨hx64, hx⟩
  · rintro ⟨hk, hG⟩
    refine ⟨BitVec.ofNat _ k, ⟨k, hG, rfl, fun _ => hk⟩, ?_⟩
    exact ((BitVec.toNat_ofNat k _).trans (Nat.mod_eq_of_lt hk)).symm

/-! ### Optionals, products, variants and pointers -/

theorem parses_optionalBool : Parses decodeOptionalBool fun v bs =>
    bs = [match v with | none => 0 | some true => 1 | some false => 2] := by
  refine .of_reads ?_ ?_
  · rintro v _ rfl
    refine (reads_nextByte _).bind_nil ?_
    rcases v with _ | _ | _ <;> exact reads_pure _
  · intro s v s' hs h
    obtain ⟨byte, s₁, hbyte, hrest⟩ := EStateM.bind_eq_ok.mp h
    have hcons := nextByte_eq_ok hs hbyte
    split_ifs at hrest with h0 h2 h1
    all_goals cases hrest
    · exact ⟨[byte], hcons, by rw [h0]⟩
    · exact ⟨[byte], hcons, by rw [h2]⟩
    · exact ⟨[byte], hcons, by rw [h1]⟩

theorem parses_optional (isBool : Option (PLift (α = Bool))) {d : Decoding α}
    {G : Grammar UInt8 α} (hd : Parses d G) :
    Parses (decodeOptional isBool d) (optionalGrammar isBool G) := by
  rcases isBool with _ | ⟨⟨rfl⟩⟩
  · refine ((parses_integral .bool).bind (f := fun hasValue : Bool =>
      if ¬ hasValue then pure none else d >>= fun x => pure (some x))
      (H := fun hasValue v bs =>
        if hasValue then ∃ x, G x bs ∧ v = some x else v = none ∧ bs = [])
      fun hasValue => ?_).congr fun v bs => ?_
    · cases hasValue with
      | false => exact parses_pure none
      | true => exact hd.map some
    · cases v <;> simp [andThen, optionalGrammar, integralBytes]
  · refine (parses_optionalBool.map fun v => v.map id).congr fun v bs => ?_
    rcases v with _ | _ | _ <;> simp [optionalGrammar]

theorem parses_pair {d : Decoding α} {d' : Decoding β} {G : Grammar UInt8 α}
    {G' : Grammar UInt8 β} (hd : Parses d G) (hd' : Parses d' G') :
    Parses (decodePair d d') fun v bs => ∃ p q, G v.1 p ∧ G' v.2 q ∧ bs = p ++ q := by
  refine (hd.bind fun x => hd'.map fun y => (x, y)).congr fun v bs => ?_
  constructor
  · rintro ⟨x, p, q, hx, ⟨y, hy, rfl⟩, rfl⟩
    exact ⟨p, q, hx, hy, rfl⟩
  · rintro ⟨p, q, hx, hy, rfl⟩
    exact ⟨v.1, p, q, hx, ⟨v.2, hy, rfl⟩, rfl⟩

theorem parses_tuple {d : ∀ i, Decoding (αs i)} {G : ∀ i, Grammar UInt8 (αs i)}
    (hd : ∀ i, Parses (d i) (G i)) : Parses (decodeElementsOfTuple d) (product G) := by
  induction n with
  | zero =>
    refine (parses_pure fun i : Fin 0 => i.elim0).congr fun v bs => ?_
    rw [product_zero]
    exact and_iff_right (funext fun i => i.elim0)
  | succ n ih =>
    refine ((hd 0).bind fun x => (ih fun i => hd i.succ).map (Fin.cons x)).congr fun v bs => ?_
    rw [product_succ]
    constructor
    · rintro ⟨x, p, q, hx, ⟨xs, hxs, rfl⟩, rfl⟩
      exact ⟨p, q, hx, hxs, rfl⟩
    · rintro ⟨p, q, hx, hxs, rfl⟩
      exact ⟨v 0, p, q, hx, ⟨_, hxs, (Fin.cons_self_tail v).symm⟩, rfl⟩

theorem parses_variant (hn : n ≤ 256) {d : ∀ i, Decoding (αs i)} {G : ∀ i, Grammar UInt8 (αs i)}
    (hd : ∀ i, Parses (d i) (G i)) : Parses (decodeVariant d) fun v bs =>
      ∃ i x q, v = .holds i x ∧ G i x q ∧ bs = UInt8.ofNat i :: q := by
  refine .of_reads ?_ ?_
  · rintro _ _ ⟨i, x, q, rfl, hx, rfl⟩
    refine (reads_nextByte (UInt8.ofNat i)).bind ?_
    rw [decodeVariant_index hn d i]
    exact ((hd i).reads hx).bind_nil (reads_pure _)
  · intro s v s' hs h
    obtain ⟨typeIndex, s₁, hindex, hrest⟩ := EStateM.bind_eq_ok.mp h
    have hcons := nextByte_eq_ok hs hindex
    split_ifs at hrest with hlt
    · obtain ⟨x, s₂, hx, hpure⟩ := EStateM.bind_eq_ok.mp hrest
      cases hpure
      obtain ⟨q, hq, hG⟩ := (hd _ s₁ x s' (hcons.valid hs)).mp hx
      refine ⟨[typeIndex] ++ q, hcons.trans hq, ⟨typeIndex.toNat, hlt⟩, x, q, rfl, hG, ?_⟩
      rw [UInt8.ofNat_toNat]
      rfl
    · cases hrest

theorem parses_pointer {heap : Bool} {d : Decoding α} {G : Grammar UInt8 α} (hd : Parses d G) :
    Parses (makePointer d : Decoding (Pointer heap α)) fun v bs =>
      ∃ x allocated, v = .to x allocated ∧ G x bs := by
  unfold makePointer
  split_ifs with hheap
  · refine (hd.map fun x => Pointer.to x hheap).congr fun v bs => ?_
    constructor
    · rintro ⟨x, hx, rfl⟩
      exact ⟨x, hheap, rfl, hx⟩
    · rintro ⟨x, _, rfl, hx⟩
      exact ⟨x, hx, rfl⟩
  · refine (parses_throw _).congr fun v bs => ?_
    constructor
    · exact False.elim
    · rintro ⟨x, hheap', _⟩
      exact hheap hheap'

/-! ### Collections -/

theorem parses_items {d : Decoding α} {G : Grammar UInt8 α} (hd : Parses d G) (k : ℕ) :
    Parses (decodeItems d k) fun items bs => each G items.1 bs := by
  induction k with
  | zero =>
    refine (parses_pure List.Vector.nil).congr fun items bs => ?_
    rw [items.eq_nil, List.Vector.nil, each_nil]
    exact and_iff_right rfl
  | succ k ih =>
    refine (hd.bind fun x => ih.map fun xs => x ::ᵥ xs).congr fun items bs => ?_
    obtain ⟨x, xs, rfl⟩ := items.exists_eq_cons
    show _ ↔ each G (x :: xs.1) bs
    rw [each_cons]
    constructor
    · rintro ⟨y, p, q, hy, ⟨ys, hys, heq⟩, rfl⟩
      have hhead : x = y := congrArg List.Vector.head heq
      have htail : xs = ys := congrArg List.Vector.tail heq
      rw [hhead, htail]
      exact ⟨p, q, hy, hys, rfl⟩
    · rintro ⟨p, q, hx, hxs, rfl⟩
      exact ⟨x, p, q, hx, ⟨xs, hxs, rfl⟩, rfl⟩

theorem parses_sized {d : Decoding α} {G : Grammar UInt8 α} (hd : Parses d G) :
    Parses (decodeSized b cap d) fun c bs => countedGrammar b G c.items bs := by
  refine .of_reads ?_ ?_
  · rintro ⟨items, hadmits⟩ _ ⟨p, q, hp, hq, rfl⟩
    refine ((parses_length b).reads hp).bind ?_
    rw [if_neg (Nat.not_lt.mpr hadmits.1), catchBadAlloc_of_ok (resize_of_admits hadmits)]
    have hitems := (parses_items hd items.length).reads (a := ⟨items, rfl⟩) hq
    exact hitems.bind_nil (reads_pure _)
  · intro s c s' hs h
    obtain ⟨k, s₁, items, hk, _, hitems, hc⟩ := decodeSized_eq_ok h
    obtain ⟨p, hp, hlength⟩ := (parses_length b s k s₁ hs).mp hk
    obtain ⟨q, hq, heach⟩ := (parses_items hd k s₁ items s' (hp.valid hs)).mp hitems
    refine ⟨p ++ q, hp.trans hq, p, q, ?_, ?_, rfl⟩
    · rwa [hc, items.2]
    · rwa [hc]

/-- Bits are taken from the bytes they reach into. -/
theorem bitsFrom_of_isPrefix {q rest : List UInt8} (h : q <+: rest) {k : ℕ}
    (hk : k ≤ 8 * q.length) : bitsFrom rest 0 k = bitsFrom q 0 k := by
  obtain ⟨tail, rfl⟩ := h
  refine bitsFrom_congr fun m hm => ?_
  have hlt : (0 + m) / 8 < q.length := by omega
  rw [bitAt, bitAt, List.getD_append _ _ _ _ hlt]

/-- The decoder takes as many bytes as the bits reach into, and returns their bits. -/
theorem decodeBits_eq_ok {k : ℕ} {s s' : ScaleDecoderStream} (hs : s.Valid)
    {bits : List.Vector Bool k} (h : decodeBits k 0 0 s = .ok bits s') :
    ∃ q, Consumed s q s' ∧ q.length = (k + 7) / 8 ∧ bits.1 = bitsFrom q 0 k := by
  obtain ⟨q, hq, hlen⟩ := consumed_decodeBits hs h
  rw [Nat.zero_add] at hlen
  have hpre : q <+: s.remaining := hq.1
  have hle := hpre.length_le
  obtain ⟨bits', hbits', hrun⟩ := decodeBits_eq k 0 0 hs (by simp [bitSource]; omega)
  rw [h] at hrun
  injection hrun with hsame _
  refine ⟨q, hq, hlen, ?_⟩
  rw [hsame, hbits', ← bitsFrom_of_isPrefix hpre (by omega)]
  rfl

theorem decodeBitVec_eq_ok {s s' : ScaleDecoderStream} {v : BitVecValue cap}
    (h : decodeBitVec b cap s = .ok v s') : ∃ k s₁ bits, decodeLength b s = .ok k s₁ ∧
      decodeBits k 0 0 s₁ = .ok bits s' ∧ v.bits.items = bits.1 := by
  obtain ⟨k, s₁, hk, hrest⟩ := EStateM.bind_eq_ok.mp h
  obtain ⟨more, s₂, hmore, hrest⟩ := EStateM.bind_eq_ok.mp hrest
  cases hmore
  split_ifs at hrest
  · obtain ⟨admits, s₃, hresize, hrest⟩ := EStateM.bind_eq_ok.mp hrest
    rw [resize_of_admits admits.down] at hresize
    cases hresize
    obtain ⟨bits, s₄, hbits, hpure⟩ := EStateM.bind_eq_ok.mp hrest
    cases hpure
    exact ⟨k, s₁, bits, hk, hbits, rfl⟩
  · cases hrest

theorem parses_bitVec : Parses (decodeBitVec b cap) fun v bs => bitsGrammar b v.bits.items bs := by
  refine .of_reads ?_ ?_
  · rintro v _ ⟨p, q, hp, hlen, hbits, rfl⟩ s hs hpre
    obtain ⟨hp', hq⟩ := prefix_rest_advance hpre
    have hlength : decodeLength b s = .ok _ (s.advance p.length) :=
      (parses_length b).reads hp s hs hp'
    have hq' : q <+: (s.advance p.length).remaining := hq
    have hle := hq'.length_le
    obtain ⟨v', hv', hrun⟩ := decodeBitVec_eq hs hlength (by omega) v.bits.admits
    have hsame : v' = v := by
      apply BitVecValue.ext
      rw [hv', bitsFrom_of_isPrefix hq' (by omega), ← hbits]
    rw [hrun, hsame, ← hlen, ScaleDecoderStream.advance_advance, List.length_append]
    rfl
  · intro s v s' hs h
    obtain ⟨k, s₁, bits, hk, hbits, hv⟩ := decodeBitVec_eq_ok h
    obtain ⟨p, hp, hlength⟩ := (parses_length b s k s₁ hs).mp hk
    obtain ⟨q, hq, hlen, hitems⟩ := decodeBits_eq_ok (hp.valid hs) hbits
    refine ⟨p ++ q, hp.trans hq, p, q, ?_, ?_, ?_, rfl⟩
    · rwa [hv, bits.2]
    · rw [hlen, hv, bits.2]
    · rw [hv, bits.2, hitems]

/-! ### Ordered containers -/

theorem memoryFor_nil {order : Compare α} {ys : List α} : MemoryFor cap order [] ys := by
  intro xs x h
  cases xs <;> cases List.prefix_nil.mp h

theorem memoryFor_cons {order : Compare α} {x : α} {items ys : List α} :
    MemoryFor cap order (x :: items) ys ↔
      ys.length < cap.available ∧ MemoryFor cap order items (order.insert x ys) := by
  constructor
  · intro h
    refine ⟨h [] x ⟨items, rfl⟩, fun xs y hpre => ?_⟩
    exact h (x :: xs) y ((List.prefix_cons_inj x).mpr hpre)
  · rintro ⟨hfirst, hrest⟩ xs y hpre
    cases xs with
    | nil => exact hfirst
    | cons x' xs =>
      obtain ⟨rfl, htail⟩ := List.cons_prefix_cons.mp hpre
      exact hrest xs y htail

theorem parses_emplaceItems {order : Compare α} {d : Decoding α} {G : Grammar UInt8 α}
    (hd : Parses d G) (k : ℕ) (c : OrderedCollection cap order)
    (hmax : c.items.length + k ≤ cap.maxSize) :
    Parses (emplaceItems d k c) fun c' bs => ∃ items, items.length = k ∧ each G items bs ∧
      MemoryFor cap order items c.items ∧ c'.items = order.insertAll items c.items := by
  induction k generalizing c with
  | zero =>
    refine (parses_pure c).congr fun c' bs => ?_
    constructor
    · rintro ⟨rfl, rfl⟩
      exact ⟨[], rfl, each_nil.mpr rfl, memoryFor_nil, rfl⟩
    · rintro ⟨items, hlen, heach, _, hc'⟩
      obtain rfl := List.length_eq_zero_iff.mp hlen
      exact ⟨OrderedCollection.ext hc', each_nil.mp heach⟩
  | succ k ih =>
    refine (hd.bind (H := fun x c' bs => ∃ items, items.length = k ∧ each G items bs ∧
      MemoryFor cap order (x :: items) c.items ∧
      c'.items = order.insertAll items (order.insert x c.items)) fun x => ?_).congr fun c' bs => ?_
    · by_cases hroom : c.items.length < cap.available
      · have hadmits : cap.Admits (c.items.length + 1) := ⟨by omega, hroom⟩
        have hemplace : c.emplace x = pure ⟨order.insert x c.items,
            Compare.pairwise_insert c.sorted, hadmits.mono (Compare.length_insert_le x c.items)⟩ :=
          dif_pos hadmits
        have hsize : (order.insert x c.items).length ≤ c.items.length + 1 :=
          Compare.length_insert_le x c.items
        rw [catchBadAlloc_of_ok hemplace, pure_bind]
        refine (ih _ (by dsimp only; omega)).congr fun c' bs => ?_
        simp only [memoryFor_cons, hroom, true_and]
      · have hemplace : c.emplace x = throw .badAlloc := dif_neg fun h => hroom h.2
        rw [hemplace]
        refine (parses_throw _).congr fun c' bs => ?_
        simp only [memoryFor_cons, hroom, false_and, and_false, exists_false]
    · constructor
      · rintro ⟨x, p, q, hx, ⟨items, hlen, heach, hmemory, hc'⟩, rfl⟩
        exact ⟨x :: items, by rw [List.length_cons, hlen], each_cons.mpr ⟨p, q, hx, heach, rfl⟩,
          hmemory, hc'⟩
      · rintro ⟨items, hlen, heach, hmemory, hc'⟩
        obtain ⟨x, items, rfl⟩ := List.exists_cons_of_length_eq_add_one hlen
        obtain ⟨p, q, hx, hrest, rfl⟩ := each_cons.mp heach
        exact ⟨x, p, q, hx, ⟨items, Nat.succ_injective hlen, hrest, hmemory, hc'⟩, rfl⟩

theorem parses_randomExtensible {order : Compare α} {d : Decoding α} {G : Grammar UInt8 α}
    (hd : Parses d G) : Parses (decodeRandomExtensible b cap order d) fun c bs =>
      ∃ items, countedGrammar b G items bs ∧ items.length ≤ cap.maxSize ∧
        MemoryFor cap order items [] ∧ c.items = order.insertAll items [] := by
  refine ((parses_length b).bind (H := fun k c bs => ∃ items, items.length = k ∧
    each G items bs ∧ items.length ≤ cap.maxSize ∧ MemoryFor cap order items [] ∧
    c.items = order.insertAll items []) fun k => ?_).congr fun c bs => ?_
  · split_ifs with hmax
    · refine (parses_raise _).congr fun c bs => ⟨False.elim, ?_⟩
      rintro ⟨items, hlen, _, hle, _⟩
      omega
    · have hle : k ≤ cap.maxSize := Nat.not_lt.mp hmax
      refine (parses_emplaceItems hd k .clear (by simpa [OrderedCollection.clear])).congr
        fun c bs => ⟨?_, ?_⟩
      · rintro ⟨items, hlen, heach, hrest⟩
        exact ⟨items, hlen, heach, hlen ▸ hle, hrest⟩
      · rintro ⟨items, hlen, heach, _, hrest⟩
        exact ⟨items, hlen, heach, hrest⟩
  · constructor
    · rintro ⟨_, p, q, hp, ⟨items, rfl, heach, hrest⟩, rfl⟩
      exact ⟨items, ⟨p, q, hp, heach, rfl⟩, hrest⟩
    · rintro ⟨items, ⟨p, q, hp, heach, rfl⟩, hrest⟩
      exact ⟨_, p, q, hp, ⟨items, rfl, heach, hrest⟩, rfl⟩

/-! ### The whole format -/

open ScaleType in
/-- `operator>>` is sound and complete for the grammar of the type. -/
theorem parses_fromStream (b : Build) (t : ScaleType α) : Parses (t.fromStream b) (t.Spells b) := by
  induction t with
  | integral i => exact parses_integral i
  | enum i traits => exact parses_enum i traits
  | bigFixedWidthInteger T => exact parses_bigFixedWidthInteger T
  | compact T => exact parses_compact b T
  | optional t ih => exact parses_optional t.isBool? ih
  | pair t u iht ihu => exact parses_pair iht ihu
  | tuple ts ih => exact parses_tuple ih
  | variant ts hn ih => exact parses_variant hn ih
  | pointer heap t ih => exact parses_pointer ih
  | staticCollection n t ih => exact parses_items ih n
  | resizeable cap t ih => exact parses_sized ih
  | vectorBool cap => exact parses_sized (parses_integral .bool)
  | bitVec cap => exact parses_bitVec
  | extensibleBack cap t ih => exact parses_sized ih
  | randomExtensible cap order t ih => exact parses_randomExtensible ih

/-- `decode<T>(s)` returns a value and leaves the stream at a position iff the bytes in between
spell that value. -/
theorem decodeFrom_iff_spells (b : Build) (left : Leftovers) (t : ScaleType α)
    {s : ScaleDecoderStream} (hs : s.Valid) (v : α) (s' : ScaleDecoderStream) :
    decodeFrom b left t s = (.ok (.ok v), s') ↔ ∃ p, Consumed s p s' ∧ t.Spells b v p := by
  rw [← parses_fromStream b t s v s' hs]
  constructor
  · intro h
    obtain ⟨_, _, _, _, hfrom⟩ := decodeInto_refines b left t s t.valueInit
    rw [h, outcomeCatch] at hfrom
    cases hrun : t.fromStream b s with
    | ok v' s'' =>
      rw [hrun] at hfrom
      cases hfrom
      rfl
    | error e s'' =>
      rw [hrun] at hfrom
      cases e <;> cases hfrom
  · exact decodeFrom_of_ok left

/-- A flag and a number, in front of another byte. -/
theorem decodeFrom_iff_spells_pair :
    decodeFrom .jam ⟨ScaleType.valueInit, ScaleType.valueInit, fun _ v => v⟩
        (.pair (.integral .bool) (.integral (.int false .two)))
        (.ofSpan ⟨[1, 5, 0, 9], by decide⟩) =
      (.ok (.ok (true, 5)), ⟨⟨[1, 5, 0, 9], by decide⟩, 3⟩) :=
  (decodeFrom_iff_spells .jam ⟨ScaleType.valueInit, ScaleType.valueInit, fun _ v => v⟩ _
    (by decide) (true, 5) _).mpr
    ⟨[1, 5, 0], ⟨⟨[9], rfl⟩, rfl⟩, [1], [5, 0], rfl, by simp [ScaleType.Spells]; decide, rfl⟩

/-! ### The spellings of a type as a code -/

variable {t : ScaleType α}

theorem iff_reads_of_parses {d : Decoding α} {G : Grammar UInt8 α} (hd : Parses d G) {v : α}
    {p : List UInt8} (hlt : p.length < 2 ^ 63) : G v p ↔ Reads d p v := by
  refine ⟨fun h => hd.reads h, fun h => ?_⟩
  have hs := ScaleDecoderStream.valid_ofSpan ⟨p, hlt⟩
  obtain ⟨bs, hbs, hG⟩ := (hd _ v _ hs).mp (h _ hs List.prefix_rfl)
  have hp : Consumed (.ofSpan ⟨p, hlt⟩) p (decoderSource.advance (.ofSpan ⟨p, hlt⟩) p.length) :=
    ⟨List.prefix_rfl, rfl⟩
  rwa [hp.unique hbs]

theorem spells_iff_reads {v : α} {p : List UInt8} (hlt : p.length < 2 ^ 63) :
    t.Spells b v p ↔ Reads (t.fromStream b) p v :=
  iff_reads_of_parses (parses_fromStream b t) hlt

/-- The spellings of a type that fit into an object. -/
def spellings (b : Build) (t : ScaleType α) : Set (List UInt8) :=
  {p | p.length < 2 ^ 63 ∧ ∃ v, t.Spells b v p}

/-- Where one spelling begins another one, both are the same, and of the same value. -/
theorem eq_of_isPrefix_spelling {v v' : α} {p p' : List UInt8} (hp : t.Spells b v p)
    (hp' : t.Spells b v' p') (hlt : p'.length < 2 ^ 63) (hpre : p <+: p') : p = p' ∧ v = v' := by
  have hs := ScaleDecoderStream.valid_ofSpan ⟨p', hlt⟩
  obtain ⟨hv, hend⟩ :=
    (parses_fromStream b t).unambiguous hs hp hp' hpre List.prefix_rfl
  exact ⟨hpre.eq_of_length (ScaleDecoderStream.advance_injective hend), hv⟩

theorem prefixFree_spellings (b : Build) (t : ScaleType α) : PrefixFree (spellings b t) := by
  rintro p ⟨_, v, hv⟩ p' ⟨hlt, v', hv'⟩ hpre
  exact (eq_of_isPrefix_spelling hv hv' hlt hpre).1

/-- No spelling begins another one.  What is accepted for a type can be told apart also where it
stands one after the other: the spellings are uniquely decodable, but for the empty one, and each of
them is of one value only. -/
theorem spellings_uniquelyDecodable (b : Build) (t : ScaleType α) :
    PrefixFree (spellings b t) ∧ InformationTheory.UniquelyDecodable (spellings b t \ {[]}) ∧
      ∀ p ∈ spellings b t, ∃! v, t.Spells b v p := by
  refine ⟨prefixFree_spellings b t, ?_, ?_⟩
  · have hfree : PrefixFree (spellings b t \ {[]}) := fun p hp q hq =>
      prefixFree_spellings b t p hp.1 q hq.1
    exact hfree.uniquelyDecodable fun h => h.2 rfl
  · rintro p ⟨hlt, v, hv⟩
    exact ⟨v, hv, fun v' hv' => (eq_of_isPrefix_spelling hv' hv hlt List.prefix_rfl).2⟩

/-- What is written of a spelled value, in no more bytes than it is spelled in. -/
theorem exists_rereads {v : α} {p : List UInt8} (hp : t.Spells b v p) (hlt : p.length < 2 ^ 63) :
    ∃ q, q.length ≤ p.length ∧ Rereads encoderSink decoderSource (t.toStream b v) (t.fromStream b) v
      (t.Rereadable b v) q := by
  have hs := ScaleDecoderStream.valid_ofSpan ⟨p, hlt⟩
  have hrun := (spells_iff_reads hlt).mp hp _ hs List.prefix_rfl
  obtain ⟨p', q, hp', hlen, hq⟩ := rereadsAt_toStream t hs hrun
  have hwhole : Consumed (.ofSpan ⟨p, hlt⟩) p (decoderSource.advance (.ofSpan ⟨p, hlt⟩) p.length) :=
    ⟨List.prefix_rfl, rfl⟩
  exact ⟨q, hwhole.unique hp' ▸ hlen, hq⟩

/-- What is spelled can be encoded, in no more bytes than any of its spellings has.  The encoding is
a spelling itself in the JAM build, and in the default build if the sizes and the compact integers
of builtin types in the value are below `2^30`. -/
theorem encode_shortest {v : α} {p : List UInt8} (hp : t.Spells b v p) (hlt : p.length < 2 ^ 63) :
    ∃ q, encode b t v = .ok (.ok q) ∧ (∀ p', t.Spells b v p' → q.length ≤ p'.length) ∧
      (t.Spells b v q ↔ t.Rereadable b v) := by
  obtain ⟨q, hlen, hq⟩ := exists_rereads hp hlt
  refine ⟨q, encodeToVector_eq hq.writes, fun p' hp' => ?_, ?_⟩
  · rcases Nat.lt_or_ge p'.length (2 ^ 63) with hlt' | hge
    · obtain ⟨q', hlen', hq'⟩ := exists_rereads hp' hlt'
      rwa [(hq.writes.unique hq'.writes).1]
    · omega
  · rw [spells_iff_reads (by omega)]
    constructor
    · intro hreads
      by_contra hG
      exact (hq.refuses hG).not_reads (ScaleDecoderStream.valid_ofSpan ⟨q, by omega⟩)
        List.prefix_rfl v hreads
    · exact hq.reads

/-- A set, spelled with an item that comes twice. -/
theorem encode_shortest_set :
    ∃ q, encode .default
        (.set ⟨4, 4, by decide⟩ (Compare.ofUnsigned (w := 8)) (.integral (.int false .one)))
        ⟨[1, 2], by decide, by decide⟩ = .ok (.ok q) ∧
      (∀ p', (ScaleType.set ⟨4, 4, by decide⟩ (Compare.ofUnsigned (w := 8))
        (.integral (.int false .one))).Spells .default ⟨[1, 2], by decide, by decide⟩ p' →
        q.length ≤ p'.length) ∧
      ((ScaleType.set ⟨4, 4, by decide⟩ (Compare.ofUnsigned (w := 8))
          (.integral (.int false .one))).Spells .default ⟨[1, 2], by decide, by decide⟩ q ↔
        (ScaleType.set ⟨4, 4, by decide⟩ (Compare.ofUnsigned (w := 8))
          (.integral (.int false .one))).Rereadable .default ⟨[1, 2], by decide, by decide⟩) := by
  have h64 : 3 < 2 ^ 64 := by decide
  have hthree : lengthGrammar .default 3 [12] :=
    ⟨h64, h64.trans_le (two_pow_le 64 536 (by decide)), by decide⟩
  have hitems : each (fun (v : BitVec 8) bs => bs = integralBytes (.int false .one) v) [2, 1, 2]
      [2, 1, 2] := ⟨[[2], [1], [2]], by simp [integralBytes]; decide, rfl⟩
  have hmemory : MemoryFor ⟨4, 4, by decide⟩ (Compare.ofUnsigned (w := 8)) [2, 1, 2] [] :=
    memoryFor_cons.mpr ⟨by decide, memoryFor_cons.mpr ⟨by decide,
      memoryFor_cons.mpr ⟨by decide, memoryFor_nil⟩⟩⟩
  exact encode_shortest (p := [12, 2, 1, 2])
    ⟨[2, 1, 2], ⟨[12], [2, 1, 2], hthree, hitems, rfl⟩, by decide, hmemory, by decide⟩ (by decide)

end ScaleCodec
