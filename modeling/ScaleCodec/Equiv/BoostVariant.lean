import ScaleCodec.BoostVariant
import ScaleCodec.Equiv.Variants

/-!
# `boost::variant` as `std::variant`

The search for the type that is held comes to its first alternative (`encode_eq`), which is the one
held if no type comes twice.  Then both variants are written alike and read alike
(`boostVariant_refines`), so that what is true of a `std::variant` that holds an alternative is true
of a `boost::variant`.
-/

namespace ScaleCodec

namespace BoostVariant

variable {ι : Type} {El : ι → Type} {n : ℕ} {ids : Fin n → ι}

/-- The `std::variant` that holds the same alternative. -/
def toStd (v : BoostVariant El ids) : Variant fun i => El (ids i) :=
  .holds v.which v.value

theorem tryDecodeAsOneOf_toStd (d : ∀ c, Decoding (El c)) (v : BoostVariant El ids)
    (typeIndex : ℕ) (alternatives : List (Fin n)) :
    (tryDecodeAsOneOf d v typeIndex alternatives >>= fun w => pure w.toStd) =
      tryDecodeAsOneOfVariant (fun i => d (ids i)) typeIndex v.toStd alternatives := by
  induction alternatives with
  | nil => exact pure_bind v _
  | cons i alternatives ih =>
    rw [tryDecodeAsOneOf, tryDecodeAsOneOfVariant]
    split_ifs
    · rw [bind_assoc]
      rfl
    · exact ih

theorem decode_toStd (d : ∀ c, Decoding (El c)) (v : BoostVariant El ids) :
    (decode d v >>= fun w => pure w.toStd) = decodeVariant fun i => d (ids i) := by
  rw [decodeVariant_eq _ v.toStd, decode, bind_assoc]
  congr 1
  funext typeIndex
  by_cases h : typeIndex.toNat < n
  · rw [if_neg (Nat.not_le.mpr h), if_pos h]
    exact tryDecodeAsOneOf_toStd d v _ _
  · rw [if_pos (Nat.not_lt.mp h), if_neg h]
    rfl

variable [DecidableEq ι]

theorem tryEncodeAsOneOf_eq (e : ∀ c, El c → Encoding Unit) (v : BoostVariant El ids) {i : Fin n}
    (hi : v.type = ids i) {before after : List (Fin n)} (hbefore : ∀ j ∈ before, v.type ≠ ids j) :
    tryEncodeAsOneOf e v (before ++ i :: after) =
      encodeVariant (fun j => e (ids j)) (.holds i (hi ▸ v.value)) := by
  induction before with
  | nil =>
    rw [List.nil_append, tryEncodeAsOneOf, dif_pos hi]
    rfl
  | cons j before ih =>
    rw [List.cons_append, tryEncodeAsOneOf, dif_neg (hbefore j List.mem_cons_self)]
    exact ih fun k hk => hbefore k (List.mem_cons_of_mem j hk)

/-- The index that is written is the one of the first alternative of the type that is held. -/
theorem encode_eq (e : ∀ c, El c → Encoding Unit) (v : BoostVariant El ids) {i : Fin n}
    (hi : v.type = ids i) (hfirst : ∀ j < i, v.type ≠ ids j) :
    encode e v = encodeVariant (fun j => e (ids j)) (.holds i (hi ▸ v.value)) := by
  obtain ⟨before, after, hsplit⟩ := List.append_of_mem (List.mem_finRange i)
  have hsorted := List.pairwise_lt_finRange n
  rw [hsplit, List.pairwise_append] at hsorted
  rw [encode, hsplit]
  exact tryEncodeAsOneOf_eq e v hi fun j hj => hfirst j (hsorted.2.2 j hj i List.mem_cons_self)

/-- Where no type comes twice, that is the alternative held. -/
theorem encode_of_injective (hids : Function.Injective ids) (e : ∀ c, El c → Encoding Unit)
    (v : BoostVariant El ids) : encode e v = encodeVariant (fun j => e (ids j)) v.toStd :=
  encode_eq e v rfl fun _ hj heq => hj.ne' (hids heq)

end BoostVariant

/-- If no type comes twice among the alternatives, a `boost::variant` is written as the
`std::variant` that holds the same alternative, and is read from whatever that is read from, as the
same alternative, or fails alike. -/
theorem boostVariant_refines {ι : Type} [DecidableEq ι] {El : ι → Type} {n : ℕ} {ids : Fin n → ι}
    (hids : Function.Injective ids) (hn : n ≤ 256) (b : Build) (ts : ∀ c, ScaleType (El c))
    (v : BoostVariant El ids) :
    v.encode (fun c => (ts c).toStream b) =
        (ScaleType.variant (fun i => ts (ids i)) hn).toStream b v.toStd ∧
      (v.decode (fun c => (ts c).fromStream b) >>= fun w => pure w.toStd) =
        (ScaleType.variant (fun i => ts (ids i)) hn).fromStream b :=
  ⟨BoostVariant.encode_of_injective hids _ v, BoostVariant.decode_toStd _ v⟩

/-- A `uint32_t` in a `boost::variant<uint8_t, uint32_t>`. -/
theorem boostVariant_refines_uint32 :
    let ids : Fin 2 → IntSize := fun i => if i = 0 then .one else .four
    let ts : ∀ size : IntSize, ScaleType (BitVec size.bits) :=
      fun size => .integral (.int false size)
    let v : BoostVariant (fun size : IntSize => BitVec size.bits) ids := ⟨1, BitVec.ofNat 32 2⟩
    v.encode (fun size => (ts size).toStream .default) =
        (ScaleType.variant (fun i => ts (ids i)) (by decide)).toStream .default v.toStd ∧
      (v.decode (fun size => (ts size).fromStream .default) >>= fun w => pure w.toStd) =
        (ScaleType.variant (fun i => ts (ids i)) (by decide)).fromStream .default := by
  intro ids ts v
  have hids : Function.Injective ids := by
    show ∀ i j : Fin 2, (if i = 0 then IntSize.one else .four) = (if j = 0 then .one else .four) →
      i = j
    decide
  exact boostVariant_refines hids (by decide) .default ts v

end ScaleCodec
