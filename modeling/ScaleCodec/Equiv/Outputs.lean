import ScaleCodec.Equiv.RoundTrip
import ScaleCodec.Lib.Emission
import ScaleCodec.Messages

/-!
# What is put for a value

`ScaleType.output` is the meaning of a type as a format: the bytes of a value by its parts, and the
refusal of the first part, in the order of writing, that has no encoding.  `operator<<` puts exactly
this (`puts_output`, by induction over the type), so that `encode` is a function of it
(`encode_eq_output`), and succeeds for exactly the values all parts of which are accepted
(`encode_iff_accepts`).
-/

namespace ScaleCodec

open BitPacking Emission

variable {α β : Type} {n : ℕ} {αs : Fin n → Type} {b : Build}

/-! ### The format -/

/-- Bytes, and the error of a value that has no encoding. -/
abbrev Output := Emission EncodeError UInt8

/-- The compact form of a number, which the JAM build has up to `2^64` and the default build up to
`2^536`.  For a builtin type the default build announces as many bytes as the number has bits. -/
def compactOutput (b : Build) (T : CompactCompatible) (v : ℕ) : Output :=
  match b with
  | .jam =>
    if v < 2 ^ 64 then put (jamBytes v)
    else refuse .valueTooBigForCompactRepresentation
  | .default =>
    if v < 2 ^ 30 then put (compactBytes v)
    else if T.isIntegral then
      put (UInt8.ofNat (4 * (bitWidth v - 4) + 3) ::
        LittleEndian.bytes (LittleEndian.length v) v)
    else if v < 2 ^ 536 then put (compactBytes v)
    else refuse .compactIntegerTooBig

/-- A flag, and the value there is. -/
def optionalOutput (isBool : Option (PLift (α = Bool))) (o : α → Output) (v : Option α) : Output :=
  match isBool, v with
  | _, none => put [0]
  | some h, some x => put [if (eq_bool h).mp x then 1 else 2]
  | none, some x => put [1] * o x

/-- The index of an alternative, and its value. -/
def variantOutput (o : ∀ i, αs i → Output) : Variant αs → Output
  | .valueless => 1
  | .holds i x => put [UInt8.ofNat i] * o i x

/-- The pointee. -/
def pointerOutput {heap : Bool} (o : α → Output) : Pointer heap α → Output
  | .null => refuse .derefNullpointer
  | .to x _ => o x

/-- The number of items, and the items. -/
def collectionOutput (b : Build) (o : α → Output) (items : List α) : Output :=
  compactOutput b .size (items.length % 2 ^ 64) * (items.map o).prod

/-- What is put for a value of the type. -/
def ScaleType.output (b : Build) : {α : Type} → ScaleType α → α → Output
  | _, integral i, v => put (integralBytes i v)
  | _, enum i _, v => put (integralBytes i v)
  | _, bigFixedWidthInteger T, v => put (LittleEndian.bytes T.bytes v.toNat)
  | _, compact T, v => compactOutput b T v.toNat
  | _, optional t, v => optionalOutput t.isBool? (t.output b) v
  | _, pair t u, v => t.output b v.1 * u.output b v.2
  | _, tuple ts, v => (List.ofFn fun i => (ts i).output b (v i)).prod
  | _, variant ts _, v => variantOutput (fun i => (ts i).output b) v
  | _, pointer _ t, v => pointerOutput (t.output b) v
  | _, staticCollection _ t, v => (v.1.map (t.output b)).prod
  | _, resizeable _ t, v => collectionOutput b (t.output b) v.items
  | _, vectorBool _, v => collectionOutput b (fun x => put (integralBytes .bool x)) v.items
  | _, bitVec _, v =>
    compactOutput b .size (v.bits.items.length % 2 ^ 64) * put (packedBytes v.bits.items)
  | _, extensibleBack _ t, v => collectionOutput b (t.output b) v.items
  | _, randomExtensible _ _ t, v => collectionOutput b (t.output b) v.items

/-- What is put for one of several arguments. -/
def TypedValue.output (b : Build) (v : TypedValue) : Output :=
  v.type.output b v.value

/-- The build has a form for every number of the type below the bound. -/
def acceptBound (b : Build) (T : CompactCompatible) : ℕ :=
  match b with
  | .jam => 2 ^ 64
  | .default => if T.isIntegral then 2 ^ T.width else 2 ^ 536

/-- No pointer in the value is null, and no compact integer too big. -/
def ScaleType.Accepts (b : Build) : {α : Type} → ScaleType α → α → Prop
  | _, integral _, _ => True
  | _, enum _ _, _ => True
  | _, bigFixedWidthInteger _, _ => True
  | _, compact T, v => v.toNat < acceptBound b T
  | _, optional t, v => ∀ x ∈ v, t.Accepts b x
  | _, pair t u, v => t.Accepts b v.1 ∧ u.Accepts b v.2
  | _, tuple ts, v => ∀ i, (ts i).Accepts b (v i)
  | _, variant ts _, v => ∀ i x, v = .holds i x → (ts i).Accepts b x
  | _, pointer _ t, v => ∃ x allocated, v = .to x allocated ∧ t.Accepts b x
  | _, staticCollection _ t, v => ∀ x ∈ v.1, t.Accepts b x
  | _, resizeable _ t, v => ∀ x ∈ v.items, t.Accepts b x
  | _, vectorBool _, _ => True
  | _, bitVec _, _ => True
  | _, extensibleBack _ t, v => ∀ x ∈ v.items, t.Accepts b x
  | _, randomExtensible _ _ t, v => ∀ x ∈ v.items, t.Accepts b x

/-! ### `operator<<` puts the output -/

/-- `e` puts the bytes and then returns, or raises the error. -/
abbrev PutsOutput (e : Encoding Unit) (o : Output) : Prop :=
  Puts encoderSink (fun i => Exception.systemError (.encode i)) e o

theorem putsOutput_ite {c : Prop} [Decidable c] {e : Encoding Unit} {bs : List UInt8}
    {code : EncodeError} (hpos : c → Writes e bs)
    (hneg : ¬ c → encoderSink.Emits e [] (.error (.systemError (.encode code)))) :
    PutsOutput e (if c then put bs else refuse code) := by
  split_ifs with h
  · exact .of_writes (hpos h)
  · exact .of_error (hneg h)

theorem putsOutput_compact (b : Build) (T : CompactCompatible) (v : BitVec T.width) :
    PutsOutput (encodeCompact b T v) (compactOutput b T v.toNat) := by
  cases b with
  | jam =>
    exact putsOutput_ite writes_encodeJamCompactInteger fun hv =>
      encodeJamCompactInteger_too_big (Nat.not_lt.mp hv)
  | default =>
    show PutsOutput _ (if v.toNat < 2 ^ 30 then _ else if T.isIntegral then _ else _)
    by_cases h30 : v.toNat < 2 ^ 30
    · rw [if_pos h30]
      exact .of_writes (writes_encodeCompactInteger_of_lt h30)
    · rw [if_neg h30]
      by_cases hT : T.isIntegral
      · rw [if_pos hT]
        exact .of_writes (writes_encodeCompactInteger_builtin hT (Nat.not_lt.mp h30))
      · rw [if_neg hT]
        exact putsOutput_ite (writes_encodeCompactInteger_big hT) fun hv =>
          encodeCompactInteger_too_big hT (Nat.not_lt.mp hv)

theorem putsOutput_length (b : Build) (k : ℕ) :
    PutsOutput (encodeLength b k) (compactOutput b .size (k % 2 ^ 64)) := by
  have h := putsOutput_compact b .size (BitVec.ofNat _ k)
  rwa [BitVec.toNat_ofNat] at h

theorem putsOutput_optional (isBool : Option (PLift (α = Bool))) {e : α → Encoding Unit}
    {o : α → Output} (h : ∀ x, PutsOutput (e x) (o x)) (v : Option α) :
    PutsOutput (encodeOptional isBool e v) (optionalOutput isBool o v) := by
  rcases isBool with _ | ⟨⟨rfl⟩⟩
  · cases v with
    | none => exact .of_writes (writes_putByte 0)
    | some x => exact (Puts.of_writes (writes_putByte 1)).bind (h x)
  · rcases v with _ | _ | _
    · exact .of_writes (writes_putByte 0)
    · exact .of_writes (writes_putByte 2)
    · exact .of_writes (writes_putByte 1)

theorem putsOutput_tuple {e : ∀ i, αs i → Encoding Unit} {o : ∀ i, αs i → Output}
    (h : ∀ i x, PutsOutput (e i x) (o i x)) (v : ∀ i, αs i) :
    PutsOutput (encodeElementsOfTuple e v) (List.ofFn fun i => o i (v i)).prod := by
  induction n with
  | zero => exact puts_pure
  | succ n ih =>
    rw [List.ofFn_succ, List.prod_cons]
    exact (h 0 _).bind (ih (fun i => h i.succ) _)

theorem putsOutput_variant {e : ∀ i, αs i → Encoding Unit} {o : ∀ i, αs i → Output}
    (h : ∀ i x, PutsOutput (e i x) (o i x)) (v : Variant αs) :
    PutsOutput (encodeVariant e v) (variantOutput o v) := by
  cases v with
  | valueless => exact puts_pure
  | holds i x => exact (Puts.of_writes (writes_putByte _)).bind (h i x)

theorem putsOutput_pointer {heap : Bool} {e : α → Encoding Unit} {o : α → Output}
    (h : ∀ x, PutsOutput (e x) (o x)) (v : Pointer heap α) :
    PutsOutput (encodePointer e v) (pointerOutput o v) := by
  rcases v with _ | ⟨x, _⟩
  · exact .of_error (emits_raise _)
  · exact h x

theorem putsOutput_collection {e : α → Encoding Unit} {o : α → Output}
    (h : ∀ x, PutsOutput (e x) (o x)) (items : List α) :
    PutsOutput (encodeDynamicCollection b e items) (collectionOutput b o items) :=
  (putsOutput_length b _).bind (Puts.forM items fun x _ => h x)

theorem putsOutput_bitVec (bits : List Bool) :
    PutsOutput (encodeBitVec b bits)
      (compactOutput b .size (bits.length % 2 ^ 64) * put (packedBytes bits)) := by
  obtain ⟨body, hw, hpacks⟩ := packs_encodeBits bits
  rw [← hpacks.eq_packedBytes]
  exact (putsOutput_length b _).bind (Puts.of_writes hw)

open ScaleType in
/-- What `operator<<` does to a stream. -/
theorem puts_output (b : Build) (t : ScaleType α) (v : α) :
    PutsOutput (t.toStream b v) (t.output b v) := by
  induction t with
  | integral i => exact .of_writes (writes_encodeIntegral i v)
  | enum i traits => exact .of_writes (writes_encodeIntegral i v)
  | bigFixedWidthInteger T => exact .of_writes (writes_encodeBigFixedWidthInteger T v)
  | compact T => exact putsOutput_compact b T v
  | optional t ih => exact putsOutput_optional t.isBool? ih v
  | pair t u iht ihu => exact (iht v.1).bind (ihu v.2)
  | tuple ts ih => exact putsOutput_tuple ih v
  | variant ts hn ih => exact putsOutput_variant ih v
  | pointer heap t ih => exact putsOutput_pointer ih v
  | staticCollection n t ih => exact Puts.forM v.1 fun x _ => ih x
  | resizeable cap t ih => exact putsOutput_collection ih v.items
  | vectorBool cap =>
    exact putsOutput_collection (fun x => Puts.of_writes (writes_encodeIntegral .bool x)) v.items
  | bitVec cap => exact putsOutput_bitVec v.bits.items
  | extensibleBack cap t ih => exact putsOutput_collection ih v.items
  | randomExtensible cap order t ih => exact putsOutput_collection ih v.items

/-- `scale::encode` of a program that puts an output. -/
theorem encodeToVector_of_puts {e : Encoding Unit} {o : Output} (h : PutsOutput e o) :
    encodeToVector e = .ok (match o.refused with
      | none => .ok o.symbols
      | some code => .error (.encode code)) := by
  unfold encodeToVector outcomeCatch
  cases ho : o.refused with
  | none =>
    rw [h.run_ok ho {}]
    exact congrArg (fun p => Except.ok (Except.ok p)) (ScaleEncoderStream.toVector_putBytes _)
  | some code =>
    rw [h.run_error ho {}]
    rfl

/-- `encode(s, args...)` puts the outputs of its arguments into the stream, up to and including what
is put before the first error, and fails with that; `encode` returns the output of its argument.  No
exception escapes. -/
theorem encode_eq_output (b : Build) :
    (∀ (s : ScaleEncoderStream) (args : List TypedValue), encodeInto b s args =
      (.ok (match (args.map (TypedValue.output b)).prod.refused with
        | none => .ok ()
        | some e => .error (.encode e)),
      s.putBytes (args.map (TypedValue.output b)).prod.symbols)) ∧
    ∀ {α : Type} (t : ScaleType α) (v : α), encode b t v =
      .ok (match (t.output b v).refused with
        | none => .ok (t.output b v).symbols
        | some e => .error (.encode e)) := by
  refine ⟨fun s args => ?_, fun t v => encodeToVector_of_puts (puts_output b t v)⟩
  have hputs : PutsOutput (encodeArgs b args) (args.map (TypedValue.output b)).prod :=
    Puts.forM args fun v _ => puts_output b v.type v.value
  unfold encodeInto
  cases ho : (args.map (TypedValue.output b)).prod.refused with
  | none =>
    rw [hputs.run_ok ho s]
    rfl
  | some e =>
    rw [hputs.run_error ho s]
    rfl

/-! ### Values that are accepted -/

theorem refused_ite {c : Prop} [Decidable c] {bs : List UInt8} {e : EncodeError} :
    (if c then put bs else refuse e : Output).refused = none ↔ c := by
  split_ifs with h <;> simp [h]

theorem refused_compactOutput (b : Build) (T : CompactCompatible) {v : ℕ} (hv : v < 2 ^ T.width) :
    (compactOutput b T v).refused = none ↔ v < acceptBound b T := by
  cases b with
  | jam => exact refused_ite
  | default =>
    show (if v < 2 ^ 30 then _ else if T.isIntegral then _ else if v < 2 ^ 536 then _ else _ :
      Output).refused = none ↔ v < if T.isIntegral then 2 ^ T.width else 2 ^ 536
    by_cases hT : T.isIntegral
    · rw [if_pos hT, if_pos hT]
      split_ifs <;> simp [hv]
    · rw [if_neg hT, if_neg hT]
      by_cases h30 : v < 2 ^ 30
      · rw [if_pos h30]
        exact ⟨fun _ => h30.trans_le (two_pow_le 30 536 (by omega)), fun _ => rfl⟩
      · rw [if_neg h30]
        exact refused_ite

/-- The length of a collection is always accepted. -/
theorem refused_lengthOutput (b : Build) (k : ℕ) :
    (compactOutput b .size (k % 2 ^ 64)).refused = none := by
  have hk : k % 2 ^ 64 < 2 ^ 64 := Nat.mod_lt _ (by omega)
  rw [refused_compactOutput b .size hk]
  cases b with
  | jam => exact hk
  | default => exact hk

theorem refused_prod_map {o : α → Output} {P : α → Prop} (h : ∀ x, (o x).refused = none ↔ P x)
    (items : List α) : (items.map o).prod.refused = none ↔ ∀ x ∈ items, P x := by
  rw [refused_prod_eq_none_iff]
  simp [h]

theorem refused_collectionOutput {o : α → Output} {P : α → Prop}
    (h : ∀ x, (o x).refused = none ↔ P x) (items : List α) :
    (collectionOutput b o items).refused = none ↔ ∀ x ∈ items, P x := by
  rw [collectionOutput, refused_mul, refused_lengthOutput, Option.none_or, refused_prod_map h]

theorem accepts_of_isBool {t : ScaleType α} (h : t.isBool? ≠ none) (v : α) : t.Accepts b v := by
  cases t with
  | integral i => trivial
  | _ => exact absurd rfl h

open ScaleType in
theorem refused_output (b : Build) (t : ScaleType α) (v : α) :
    (t.output b v).refused = none ↔ t.Accepts b v := by
  induction t with
  | integral i => simp [output, Accepts]
  | enum i traits => simp [output, Accepts]
  | bigFixedWidthInteger T => simp [output, Accepts]
  | compact T => exact refused_compactOutput b T v.isLt
  | optional t ih =>
    rw [output, Accepts]
    cases hbool : t.isBool? with
    | none => cases v <;> simp [optionalOutput, refused_mul, ih]
    | some h =>
      have hsome : t.isBool? ≠ none := by
        rw [hbool]
        exact Option.some_ne_none h
      -- a `bool` is never refused
      refine ⟨fun _ x _ => accepts_of_isBool hsome x, fun _ => ?_⟩
      cases v <;> rfl
  | pair t u iht ihu => simp [output, Accepts, refused_mul, iht, ihu]
  | tuple ts ih =>
    rw [output, Accepts, refused_prod_eq_none_iff]
    simp [List.mem_ofFn, ih]
  | variant ts hn ih =>
    rw [output, Accepts]
    cases v with
    | valueless => simp [variantOutput]
    | holds i x =>
      rw [variantOutput, refused_mul, refused_put, Option.none_or, ih]
      refine ⟨fun h j y hy => ?_, fun h => h i x rfl⟩
      cases hy
      exact h
  | pointer heap t ih =>
    rw [output, Accepts]
    rcases v with _ | ⟨x, allocated⟩
    · simp [pointerOutput]
    · simp [pointerOutput, ih, allocated]
  | staticCollection n t ih => exact refused_prod_map ih v.1
  | resizeable cap t ih => exact refused_collectionOutput ih v.items
  | vectorBool cap =>
    rw [output, Accepts, refused_collectionOutput fun _ => Iff.rfl]
    simp
  | bitVec cap =>
    rw [output, Accepts, refused_mul, refused_lengthOutput]
    simp
  | extensibleBack cap t ih => exact refused_collectionOutput ih v.items
  | randomExtensible cap order t ih => exact refused_collectionOutput ih v.items

/-- The error for a number that has no compact form. -/
def compactError : Build → EncodeError
  | .jam => .valueTooBigForCompactRepresentation
  | .default => .compactIntegerTooBig

/-- The errors that can become of a value. -/
def IsOutputError (b : Build) (e : EncodeError) : Prop :=
  e = .derefNullpointer ∨ e = compactError b

theorem forall_refused_put {P : EncodeError → Prop} (bs : List UInt8) :
    ∀ e ∈ (put bs : Output).refused, P e := by
  intro e he
  cases he

theorem isOutputError_compact (b : Build) (T : CompactCompatible) (v : ℕ) :
    ∀ e ∈ (compactOutput b T v).refused, IsOutputError b e := by
  intro e he
  unfold compactOutput at he
  cases b <;> dsimp only at he <;> split_ifs at he <;> cases he <;> exact Or.inr rfl

theorem isOutputError_collection {o : α → Output} (h : ∀ x, ∀ e ∈ (o x).refused, IsOutputError b e)
    (items : List α) : ∀ e ∈ (collectionOutput b o items).refused, IsOutputError b e := by
  refine forall_refused_mul (isOutputError_compact b _ _) (forall_refused_prod fun a ha => ?_)
  obtain ⟨x, _, rfl⟩ := List.mem_map.mp ha
  exact h x

open ScaleType in
theorem isOutputError_output (b : Build) (t : ScaleType α) (v : α) :
    ∀ e ∈ (t.output b v).refused, IsOutputError b e := by
  induction t with
  | integral i => exact forall_refused_put _
  | enum i traits => exact forall_refused_put _
  | bigFixedWidthInteger T => exact forall_refused_put _
  | compact T => exact isOutputError_compact b T _
  | optional t ih =>
    rw [output]
    cases hbool : t.isBool? <;> cases v
    · exact forall_refused_put _
    · exact forall_refused_mul (forall_refused_put _) (ih _)
    · exact forall_refused_put _
    · exact forall_refused_put _
  | pair t u iht ihu => exact forall_refused_mul (iht v.1) (ihu v.2)
  | tuple ts ih =>
    refine forall_refused_prod fun a ha => ?_
    obtain ⟨i, rfl⟩ := List.mem_ofFn.mp ha
    exact ih i (v i)
  | variant ts hn ih =>
    cases v with
    | valueless => exact forall_refused_put []
    | holds i x => exact forall_refused_mul (forall_refused_put _) (ih i x)
  | pointer heap t ih =>
    rcases v with _ | ⟨x, _⟩
    · intro e he
      cases he
      exact Or.inl rfl
    · exact ih x
  | staticCollection n t ih =>
    refine forall_refused_prod fun a ha => ?_
    obtain ⟨x, _, rfl⟩ := List.mem_map.mp ha
    exact ih x
  | resizeable cap t ih => exact isOutputError_collection ih v.items
  | vectorBool cap => exact isOutputError_collection (fun _ => forall_refused_put _) v.items
  | bitVec cap => exact forall_refused_mul (isOutputError_compact b _ _) (forall_refused_put _)
  | extensibleBack cap t ih => exact isOutputError_collection ih v.items
  | randomExtensible cap order t ih => exact isOutputError_collection ih v.items

/-- `encode` succeeds for exactly the values in which no pointer is null and no compact integer too
big; otherwise it fails with the error for one of these, and never with an exception. -/
theorem encode_iff_accepts (b : Build) (t : ScaleType α) (v : α) :
    ((∃ p, encode b t v = .ok (.ok p)) ↔ t.Accepts b v) ∧
      (¬ t.Accepts b v → ∃ e, encode b t v = .ok (.error (.encode e)) ∧ IsOutputError b e) := by
  have herror := isOutputError_output b t v
  rw [← refused_output, encode, encodeToVector_of_puts (puts_output b t v)]
  cases ho : (t.output b v).refused with
  | none => exact ⟨⟨fun _ => rfl, fun _ => ⟨_, rfl⟩⟩, fun h => absurd rfl h⟩
  | some e =>
    refine ⟨⟨fun ⟨p, hp⟩ => ?_, fun h => ?_⟩, fun _ => ⟨e, rfl, herror e ho⟩⟩
    · cases hp
    · cases h

end ScaleCodec
