import ScaleCodec.Lib.LittleEndian

/-!
# The compact form of a number

What the compact encoding is for, without streams: every number below `2^536` has exactly one
compact form `compactBytes v`, the shortest of the forms its value has.  A byte string whose length
is the one its first byte announces (`IsForm`) spells a number (`formValue`), and it is the compact
form of that number iff no shorter form spells it (`compactBytes_formValue`).
-/

namespace ScaleCodec

open LittleEndian (bytes value)

/-- The compact form of `v`: the two low bits of the first byte say how to read it. -/
def compactBytes (v : ℕ) : List UInt8 :=
  if v < 2 ^ 6 then bytes 1 (4 * v)
  else if v < 2 ^ 14 then bytes 2 (4 * v + 1)
  else if v < 2 ^ 30 then bytes 4 (4 * v + 2)
  else UInt8.ofNat (4 * (LittleEndian.length v - 4) + 3) :: bytes (LittleEndian.length v) v

/-- The length of the form that starts with `b`, `b` included. -/
def announcedLength (b : UInt8) : ℕ :=
  if b.toNat % 4 = 0 then 1
  else if b.toNat % 4 = 1 then 2
  else if b.toNat % 4 = 2 then 4
  else b.toNat / 4 + 5

/-- A byte string as long as its first byte announces. -/
def IsForm (p : List UInt8) : Prop :=
  ∃ b q, p = b :: q ∧ p.length = announcedLength b

/-- The number a form spells. -/
def formValue : List UInt8 → ℕ
  | [] => 0
  | b :: q => if b.toNat % 4 = 3 then value q else value (b :: q) / 4

theorem announcedLength_pos (b : UInt8) : 0 < announcedLength b := by
  unfold announcedLength
  split_ifs <;> omega

theorem announcedLength_le (b : UInt8) : announcedLength b ≤ 68 := by
  have hb := b.toNat_lt
  unfold announcedLength
  split_ifs <;> omega

theorem two_pow_le (m n : ℕ) (h : m ≤ n) : 2 ^ m ≤ 2 ^ n :=
  Nat.pow_le_pow_right Nat.two_pos h

theorem toNat_ofNat_of_lt {n : ℕ} (h : n < 256) : (UInt8.ofNat n).toNat = n := by
  rw [UInt8.toNat_ofNat', Nat.mod_eq_of_lt h]

/-! ### How long the compact form is -/

/-- Below `2^30` the compact form takes one, two or four bytes. -/
theorem length_compactBytes_of_lt {v : ℕ} (h : v < 2 ^ 30) :
    (compactBytes v).length = if v < 2 ^ 6 then 1 else if v < 2 ^ 14 then 2 else 4 := by
  unfold compactBytes
  split_ifs <;> simp

/-- From `2^30` on it is a header and the bytes of the value. -/
theorem length_compactBytes_of_le {v : ℕ} (h : 2 ^ 30 ≤ v) :
    (compactBytes v).length = LittleEndian.length v + 1 := by
  rw [compactBytes, if_neg (by omega), if_neg (by omega), if_neg (by omega)]
  simp

/-- The bytes of a number that needs the header: at least four, and at most 67 below `2^536`. -/
theorem length_bounds {v : ℕ} (h : 2 ^ 30 ≤ v) :
    4 ≤ LittleEndian.length v ∧ (LittleEndian.length v ≤ 67 ↔ v < 2 ^ 536) := by
  constructor
  · by_contra hlt
    have := (LittleEndian.length_le_iff v 3).mp (by omega)
    omega
  · rw [LittleEndian.length_le_iff, LittleEndian.pow256_eq]

/-! ### The compact form is a form of its number -/

theorem isForm_compactBytes {v : ℕ} (hv : v < 2 ^ 536) :
    IsForm (compactBytes v) ∧ formValue (compactBytes v) = v := by
  unfold compactBytes
  split_ifs with h1 h2 h3
  · have hb : (UInt8.ofNat (4 * v)).toNat = 4 * v := toNat_ofNat_of_lt (by omega)
    refine ⟨⟨_, _, rfl, ?_⟩, ?_⟩
    · rw [announcedLength, hb, if_pos (by omega)]
      simp
    · rw [bytes, formValue, hb, if_neg (by omega), bytes, LittleEndian.value_cons, hb,
        LittleEndian.value_nil]
      omega
  · have hb : (UInt8.ofNat (4 * v + 1)).toNat = (4 * v + 1) % 256 := UInt8.toNat_ofNat'
    refine ⟨⟨_, _, rfl, ?_⟩, ?_⟩
    · rw [announcedLength, hb, if_neg (by omega), if_pos (by omega)]
      simp
    · have hval : value (bytes 2 (4 * v + 1)) = 4 * v + 1 :=
        LittleEndian.value_bytes_of_lt (by omega)
      rw [bytes, formValue, hb, if_neg (by omega)]
      rw [bytes] at hval
      omega
  · have hb : (UInt8.ofNat (4 * v + 2)).toNat = (4 * v + 2) % 256 := UInt8.toNat_ofNat'
    refine ⟨⟨_, _, rfl, ?_⟩, ?_⟩
    · rw [announcedLength, hb, if_neg (by omega), if_neg (by omega), if_pos (by omega)]
      simp
    · have hval : value (bytes 4 (4 * v + 2)) = 4 * v + 2 :=
        LittleEndian.value_bytes_of_lt (by omega)
      rw [bytes, formValue, hb, if_neg (by omega)]
      rw [bytes] at hval
      omega
  · obtain ⟨hlo, hhi⟩ := length_bounds (show 2 ^ 30 ≤ v by omega)
    have hhi' := hhi.mpr hv
    have hb := toNat_ofNat_of_lt (show 4 * (LittleEndian.length v - 4) + 3 < 256 by omega)
    refine ⟨⟨_, _, rfl, ?_⟩, ?_⟩
    · rw [announcedLength, hb, if_neg (by omega), if_neg (by omega), if_neg (by omega),
        List.length_cons, LittleEndian.length_bytes]
      omega
    · rw [formValue, hb, if_pos (by omega),
        LittleEndian.value_bytes_of_lt (LittleEndian.lt_pow_length v)]

/-! ### Every form of a number but its compact one is longer -/

/-- A form whose value has no shorter form is the compact form of its value. -/
theorem compactBytes_formValue {p : List UInt8} (hp : IsForm p)
    (hshort : p.length ≤ (compactBytes (formValue p)).length) :
    compactBytes (formValue p) = p := by
  obtain ⟨b, q, rfl, hlen⟩ := hp
  have hb := b.toNat_lt
  have hspell : bytes (b :: q).length (value (b :: q)) = b :: q := LittleEndian.bytes_value _
  have hvalue := LittleEndian.value_cons b q
  by_cases h3 : b.toNat % 4 = 3
  · -- the header announces `q.length = b / 4 + 4` bytes
    rw [announcedLength, if_neg (by omega), if_neg (by omega), if_neg (by omega),
      List.length_cons] at hlen
    rw [List.length_cons] at hshort
    have hv : formValue (b :: q) = value q := by rw [formValue, if_pos h3]
    rw [hv] at hshort ⊢
    have hle : LittleEndian.length (value q) ≤ q.length :=
      (LittleEndian.length_le_iff _ _).mpr (LittleEndian.value_lt q)
    have hbig : 2 ^ 30 ≤ value q := by
      by_contra hlt
      rw [length_compactBytes_of_lt (by omega)] at hshort
      split_ifs at hshort <;> omega
    rw [length_compactBytes_of_le hbig] at hshort
    have heq : LittleEndian.length (value q) = q.length := by omega
    rw [compactBytes, if_neg (by omega), if_neg (by omega), if_neg (by omega), heq,
      LittleEndian.bytes_value]
    congr 1
    apply UInt8.toNat_inj.mp
    rw [toNat_ofNat_of_lt (by omega)]
    omega
  · have hv : formValue (b :: q) = value (b :: q) / 4 := by rw [formValue, if_neg h3]
    have hlt := LittleEndian.value_lt (b :: q)
    rw [hv] at hshort ⊢
    unfold announcedLength at hlen
    split_ifs at hlen with h0 h1 h2
    · rw [hlen] at hlt hspell
      rw [compactBytes, if_pos (by omega)]
      exact (congrArg (bytes 1) (by omega)).trans hspell
    · rw [hlen] at hlt hspell hshort
      have hbig : ¬ value (b :: q) / 4 < 2 ^ 6 := by
        intro h
        rw [length_compactBytes_of_lt (by omega), if_pos h] at hshort
        omega
      rw [compactBytes, if_neg hbig, if_pos (by omega)]
      exact (congrArg (bytes 2) (by omega)).trans hspell
    · rw [hlen] at hlt hspell hshort
      have hbig : ¬ value (b :: q) / 4 < 2 ^ 14 := by
        intro h
        rw [length_compactBytes_of_lt (by omega)] at hshort
        split_ifs at hshort <;> omega
      rw [compactBytes, if_neg (by omega), if_neg hbig, if_pos (by omega)]
      exact (congrArg (bytes 4) (by omega)).trans hspell
    · omega

/-- No form is shorter than the compact form of its value. -/
theorem length_compactBytes_formValue_le {p : List UInt8} (hp : IsForm p) :
    (compactBytes (formValue p)).length ≤ p.length := by
  by_contra hlt
  rw [compactBytes_formValue hp (by omega)] at hlt
  omega

end ScaleCodec
