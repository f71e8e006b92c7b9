import ScaleCodec.Lib.LittleEndian
import Mathlib.Order.Bounds.Basic

/-!
# The compact form of a number in the JAM build

Without streams: a form is a first byte `leadByte l x`, whose `l` leading ones announce `l`
following bytes, and these bytes; it spells `jamFormValue`, whose bits above the following bytes
are the remaining bits `x` of the first one.  Every byte string of the announced length is a form
in exactly one way (`exists_leadByte`), and every number below `2^64` has a shortest one,
`jamBytes v`, with `jamTail v` following bytes (`jamTail_le_iff`).
-/

namespace ScaleCodec

open LittleEndian (bytes value)

/-! ### First bytes -/

/-- `l` ones, a zero if there is room for it, and the bits `x`. -/
def leadByte (l x : ℕ) : UInt8 :=
  UInt8.ofNat (256 - 2 ^ (8 - l) + x)

theorem toNat_leadByte {l x : ℕ} (hl : l ≤ 8) (hx : x < 2 ^ (7 - l)) :
    (leadByte l x).toNat = 256 - 2 ^ (8 - l) + x := by
  rw [leadByte, UInt8.toNat_ofNat', Nat.mod_eq_of_lt]
  have hle : 2 ^ (8 - l) ≤ 2 ^ 8 := Nat.pow_le_pow_right (by omega) (by omega)
  rcases Nat.lt_or_ge l 8 with h | h
  · have hpow : 2 ^ (8 - l) = 2 * 2 ^ (7 - l) := by
      rw [← pow_succ']; congr 1; omega
    omega
  · obtain rfl : l = 8 := by omega
    omega

/-- Every byte is the first byte of forms of one length. -/
theorem exists_leadByte (b : UInt8) : ∃ l x, l ≤ 8 ∧ x < 2 ^ (7 - l) ∧ b = leadByte l x := by
  have h : ∀ m < 256, ∃ l : Fin 9, 256 - 2 ^ (8 - l.val) ≤ m ∧
      m < 256 - 2 ^ (8 - l.val) + 2 ^ (7 - l.val) := by decide +kernel
  obtain ⟨l, hlo, hhi⟩ := h b.toNat b.toNat_lt
  refine ⟨l, b.toNat - (256 - 2 ^ (8 - l.val)), by omega, by omega, ?_⟩
  rw [leadByte, Nat.add_sub_of_le hlo, UInt8.ofNat_toNat]

/-- The first byte is zero in the shortest form of zero only. -/
theorem leadByte_eq_zero_iff {l x : ℕ} (hl : l ≤ 8) (hx : x < 2 ^ (7 - l)) :
    leadByte l x = 0 ↔ l = 0 ∧ x = 0 := by
  constructor
  · intro h
    have hnat := congrArg UInt8.toNat h
    rw [toNat_leadByte hl hx, UInt8.toNat_zero] at hnat
    have hl0 : l = 0 := by
      by_contra hne
      have hpow : 2 ^ (8 - l) ≤ 2 ^ 7 := Nat.pow_le_pow_right (by omega) (by omega)
      omega
    exact ⟨hl0, by omega⟩
  · rintro ⟨rfl, rfl⟩
    rfl

/-! ### Forms -/

/-- A form with `l` following bytes `q` and the bits `x` in the first byte. -/
structure IsJamForm (l x : ℕ) (q : List UInt8) : Prop where
  le : l ≤ 8
  lt : x < 2 ^ (7 - l)
  length_eq : q.length = l

/-- The number a form spells. -/
def jamFormValue (l x : ℕ) (q : List UInt8) : ℕ :=
  value q + 256 ^ l * x

theorem jamFormValue_lt {l x : ℕ} {q : List UInt8} (h : IsJamForm l x q) :
    jamFormValue l x q < 2 ^ 64 := by
  have hq := LittleEndian.value_lt q
  have hmul : 256 ^ l * (x + 1) ≤ 256 ^ l * 2 ^ (7 - l) := Nat.mul_le_mul_left _ h.lt
  have hpow : 256 ^ l * 2 ^ (7 - l) ≤ 2 ^ 64 := by
    rw [LittleEndian.pow256_eq, ← pow_add]
    have := h.le
    exact Nat.pow_le_pow_right (by omega) (by omega)
  rw [h.length_eq] at hq
  unfold jamFormValue
  rw [Nat.mul_add, Nat.mul_one] at hmul
  omega

/-- The most significant of the following bytes. -/
def lastByte (q : List UInt8) : UInt8 := q.getLastD 0

/-- A form with following bytes is longer than necessary iff its bits beyond `7 l` are zero: those
in the first byte, and the `l` high ones of the last byte. -/
theorem jamFormValue_lt_iff {l x : ℕ} {q : List UInt8} (h : IsJamForm l x q) (hl : 1 ≤ l) :
    jamFormValue l x q < 2 ^ (7 * l) ↔ x = 0 ∧ (lastByte q).toNat < 2 ^ (8 - l) := by
  have hle := h.le
  obtain ⟨q', c, rfl⟩ : ∃ q' c, q = q' ++ [c] := by
    refine ⟨q.dropLast, q.getLast ?_, (List.dropLast_append_getLast _).symm⟩
    rintro rfl
    have := h.length_eq
    simp at this
    omega
  have hlen : q'.length = l - 1 := by
    have := h.length_eq
    rw [List.length_append, List.length_singleton] at this
    omega
  have hq' := LittleEndian.value_lt q'
  have hpow : 2 ^ (7 * l) = 256 ^ (l - 1) * 2 ^ (8 - l) := by
    rw [LittleEndian.pow256_eq, ← pow_add]
    congr 1
    omega
  have hlast : lastByte (q' ++ [c]) = c := by simp [lastByte]
  rw [jamFormValue, LittleEndian.value_concat, hlast, hpow]
  rw [hlen] at hq' ⊢
  constructor
  · intro hlt
    have hx : x = 0 := by
      by_contra h0
      have h1 : 256 ^ l * 1 ≤ 256 ^ l * x := Nat.mul_le_mul_left _ (by omega)
      have h2 : 256 ^ (l - 1) * 2 ^ (8 - l) ≤ 256 ^ l := by
        rw [← hpow, LittleEndian.pow256_eq]
        exact Nat.pow_le_pow_right (by omega) (by omega)
      omega
    refine ⟨hx, ?_⟩
    exact Nat.lt_of_mul_lt_mul_left (a := 256 ^ (l - 1)) (by omega)
  · rintro ⟨rfl, hc⟩
    have h1 : 256 ^ (l - 1) * (c.toNat + 1) ≤ 256 ^ (l - 1) * 2 ^ (8 - l) :=
      Nat.mul_le_mul_left _ hc
    rw [Nat.mul_add, Nat.mul_one] at h1
    omega

/-! ### The shortest form -/

/-- How many bytes follow the first one in the shortest form. -/
def jamTail (v : ℕ) : ℕ :=
  min 8 (v.log2 / 7)

theorem jamTail_le (v : ℕ) : jamTail v ≤ 8 := min_le_left _ _

/-- `l` following bytes suffice for `7 (l + 1)` bits, and eight for every number. -/
theorem jamTail_le_iff (v l : ℕ) : jamTail v ≤ l ↔ 8 ≤ l ∨ v < 2 ^ (7 * (l + 1)) := by
  rcases Nat.eq_zero_or_pos v with rfl | h0
  · have := Nat.two_pow_pos (7 * (l + 1))
    have h : jamTail 0 = 0 := rfl
    omega
  · rw [jamTail, min_le_iff, ← Nat.log2_lt (by omega)]
    omega

/-- The length the shortest form has, as the least one that suffices. -/
theorem isLeast_jamTail (v : ℕ) : IsLeast {l | l = 8 ∨ v < 2 ^ (7 * (l + 1))} (jamTail v) := by
  constructor
  · have h := (jamTail_le_iff v (jamTail v)).mp le_rfl
    have hle := jamTail_le v
    rcases h with h | h
    · exact Or.inl (by omega)
    · exact Or.inr h
  · rintro l (rfl | h)
    · exact jamTail_le v
    · exact (jamTail_le_iff v l).mpr (Or.inr h)

/-- The shortest form of `v`. -/
def jamBytes (v : ℕ) : List UInt8 :=
  leadByte (jamTail v) (v / 256 ^ jamTail v) :: bytes (jamTail v) v

theorem length_jamBytes (v : ℕ) : (jamBytes v).length = 1 + jamTail v := by
  rw [jamBytes, List.length_cons, LittleEndian.length_bytes, Nat.add_comm]

/-- `l` following bytes leave `7 - l` bits of a number of `7 (l + 1)` bits to the first one. -/
theorem div_pow_lt_iff {v l : ℕ} (hl : l ≤ 7) :
    v / 256 ^ l < 2 ^ (7 - l) ↔ v < 2 ^ (7 * (l + 1)) := by
  rw [Nat.div_lt_iff_lt_mul (Nat.pow_pos (by omega)), LittleEndian.pow256_eq, ← pow_add]
  rw [show 7 - l + 8 * l = 7 * (l + 1) by omega]

theorem isJamForm_jamBytes {v : ℕ} (hv : v < 2 ^ 64) :
    IsJamForm (jamTail v) (v / 256 ^ jamTail v) (bytes (jamTail v) v) := by
  refine ⟨jamTail_le v, ?_, LittleEndian.length_bytes _ _⟩
  rcases (jamTail_le_iff v (jamTail v)).mp le_rfl with h | h
  · have h8 : jamTail v = 8 := by
      have := jamTail_le v
      omega
    rw [h8]
    omega
  · rcases Nat.lt_or_ge (jamTail v) 8 with h7 | h8
    · exact (div_pow_lt_iff (by omega)).mpr h
    · rw [show jamTail v = 8 by have := jamTail_le v; omega]
      omega

theorem jamFormValue_jamBytes (v : ℕ) :
    jamFormValue (jamTail v) (v / 256 ^ jamTail v) (bytes (jamTail v) v) = v := by
  rw [jamFormValue, LittleEndian.value_bytes, Nat.mod_add_div]

/-- The bits in the first byte are the high ones. -/
theorem jamFormValue_div {l x : ℕ} {q : List UInt8} (h : IsJamForm l x q) :
    jamFormValue l x q / 256 ^ l = x := by
  have hq := LittleEndian.value_lt q
  rw [h.length_eq] at hq
  rw [jamFormValue, Nat.add_mul_div_left _ _ (Nat.pow_pos (by omega)), Nat.div_eq_of_lt hq,
    Nat.zero_add]

/-- No form is shorter than the shortest one. -/
theorem jamTail_formValue_le {l x : ℕ} {q : List UInt8} (h : IsJamForm l x q) :
    jamTail (jamFormValue l x q) ≤ l := by
  rw [jamTail_le_iff]
  rcases Nat.lt_or_ge l 8 with h7 | h8
  · refine Or.inr ((div_pow_lt_iff (by omega)).mp ?_)
    rw [jamFormValue_div h]
    exact h.lt
  · exact Or.inl h8

/-- A form is the shortest one of its number unless it is longer than necessary. -/
theorem jamBytes_formValue {l x : ℕ} {q : List UInt8} (h : IsJamForm l x q)
    (hshort : l = 0 ∨ 2 ^ (7 * l) ≤ jamFormValue l x q) :
    jamBytes (jamFormValue l x q) = leadByte l x :: q := by
  have hq := LittleEndian.value_lt q
  rw [h.length_eq] at hq
  have hlow : bytes l (jamFormValue l x q) = q := by
    have hmod : jamFormValue l x q % 256 ^ l = value q := by
      rw [jamFormValue, Nat.add_mul_mod_self_left, Nat.mod_eq_of_lt hq]
    rw [← LittleEndian.bytes_mod, hmod, ← h.length_eq, LittleEndian.bytes_value]
  have htail : jamTail (jamFormValue l x q) = l := by
    have hle := h.le
    apply Nat.le_antisymm (jamTail_formValue_le h)
    by_contra hlt
    have hsmall := (jamTail_le_iff (jamFormValue l x q) (l - 1)).mp (by omega)
    rcases hshort with h0 | hbig
    · omega
    · rw [show l - 1 + 1 = l by omega] at hsmall
      omega
  rw [jamBytes, htail, jamFormValue_div h, hlow]

end ScaleCodec
