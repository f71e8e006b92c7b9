import Mathlib.Data.List.Basic
import Mathlib.Data.Nat.Bitwise

/-!
# Bits packed into bytes

Bit `i` of a byte string is bit `i % 8` of byte `i / 8`.  `Packs bits bytes` says that a byte string
of the least possible length holds the bits in order, with zeros behind them; `packedBytes bits` is
the only one.
-/

namespace BitPacking

/-- Bit `i` of a byte string, and `false` beyond its end. -/
def bitAt (bytes : List UInt8) (i : ℕ) : Bool :=
  (bytes.getD (i / 8) 0).toNat.testBit (i % 8)

/-- The `n` bits from bit `i` on. -/
def bitsFrom (bytes : List UInt8) : ℕ → ℕ → List Bool
  | _, 0 => []
  | i, n + 1 => bitAt bytes i :: bitsFrom bytes (i + 1) n

/-- The bytes hold the bits in order, and zeros behind them. -/
structure Packs (bits : List Bool) (bytes : List UInt8) : Prop where
  length_eq : bytes.length = (bits.length + 7) / 8
  testBit_eq : ∀ j k, k < 8 → (bytes.getD j 0).toNat.testBit k = bits.getD (8 * j + k) false

/-- The bytes that hold the bits. -/
def packedBytes (bits : List Bool) : List UInt8 :=
  (List.range ((bits.length + 7) / 8)).map fun j =>
    UInt8.ofNat (Nat.ofBits fun k : Fin 8 => bits.getD (8 * j + k) false)

/-! ### Bits of a byte string -/

theorem testBit_eq_shiftRight (n k : ℕ) : n.testBit k = decide ((n >>> k) &&& 1 ≠ 0) := by
  rw [Nat.testBit, Nat.and_comm, Nat.and_one_is_mod]
  rcases Nat.mod_two_eq_zero_or_one (n >>> k) with h | h <;> simp [h]

@[simp]
theorem bitAt_nil (i : ℕ) : bitAt [] i = false := by
  simp [bitAt]

/-- The first byte holds the bits below eight. -/
theorem bitAt_cons (b : UInt8) (bytes : List UInt8) (i : ℕ) :
    bitAt (b :: bytes) i = if i < 8 then b.toNat.testBit i else bitAt bytes (i - 8) := by
  unfold bitAt
  split_ifs with hi
  · rw [Nat.div_eq_of_lt hi, Nat.mod_eq_of_lt hi, List.getD_cons_zero]
  · have hdiv : i / 8 = (i - 8) / 8 + 1 := by omega
    have hmod : i % 8 = (i - 8) % 8 := by omega
    rw [hdiv, hmod, List.getD_cons_succ]

/-- The bits of a byte string, byte by byte. -/
theorem bitAt_mul_add (bytes : List UInt8) (j : ℕ) {k : ℕ} (hk : k < 8) :
    bitAt bytes (8 * j + k) = (bytes.getD j 0).toNat.testBit k := by
  have hdiv : (8 * j + k) / 8 = j := by omega
  have hmod : (8 * j + k) % 8 = k := by omega
  rw [bitAt, hdiv, hmod]

theorem length_bitsFrom (bytes : List UInt8) (i n : ℕ) : (bitsFrom bytes i n).length = n := by
  induction n generalizing i with
  | zero => rfl
  | succ n ih => rw [bitsFrom, List.length_cons, ih]

theorem getElem?_bitsFrom (bytes : List UInt8) (i : ℕ) {m n : ℕ} (hm : m < n) :
    (bitsFrom bytes i n)[m]? = some (bitAt bytes (i + m)) := by
  induction n generalizing i m with
  | zero => omega
  | succ n ih =>
    cases m with
    | zero => simp [bitsFrom]
    | succ m =>
      rw [bitsFrom, List.getElem?_cons_succ, ih (i + 1) (by omega)]
      congr 2
      omega

/-- Beyond the first byte, the bits are those of the others. -/
theorem bitsFrom_cons_add (b : UInt8) (bytes : List UInt8) (i n : ℕ) :
    bitsFrom (b :: bytes) (i + 8) n = bitsFrom bytes i n := by
  induction n generalizing i with
  | zero => rfl
  | succ n ih =>
    have hi : i + 8 + 1 = i + 1 + 8 := by omega
    rw [bitsFrom, bitsFrom, bitAt_cons, if_neg (by omega), Nat.add_sub_cancel, hi, ih (i + 1)]

/-- Only the bits from `i` on are looked at. -/
theorem bitsFrom_congr {bytes bytes' : List UInt8} {i n : ℕ}
    (h : ∀ m < n, bitAt bytes (i + m) = bitAt bytes' (i + m)) :
    bitsFrom bytes i n = bitsFrom bytes' i n := by
  apply List.ext_getElem?
  intro m
  by_cases hm : m < n
  · rw [getElem?_bitsFrom _ _ hm, getElem?_bitsFrom _ _ hm, h m hm]
  · rw [List.getElem?_eq_none (by rw [length_bitsFrom]; omega),
      List.getElem?_eq_none (by rw [length_bitsFrom]; omega)]

/-- Reading the bits off undoes packing, whatever comes behind the bytes. -/
theorem Packs.bitsFrom_eq {bits : List Bool} {bytes : List UInt8} (h : Packs bits bytes)
    {rest : List UInt8} (hp : bytes <+: rest) : bitsFrom rest 0 bits.length = bits := by
  obtain ⟨tail, rfl⟩ := hp
  have hlen := h.length_eq
  apply List.ext_getElem?
  intro m
  by_cases hm : m < bits.length
  · have hbit : bitAt (bytes ++ tail) m = bits.getD m false := by
      rw [bitAt, List.getD_append _ _ _ _ (by omega), h.testBit_eq _ _ (Nat.mod_lt _ (by omega)),
        Nat.div_add_mod]
    rw [getElem?_bitsFrom _ _ hm, Nat.zero_add, hbit, List.getD_eq_getElem _ _ hm,
      List.getElem?_eq_getElem hm]
  · rw [List.getElem?_eq_none (by rw [length_bitsFrom]; omega), List.getElem?_eq_none (by omega)]

/-- Only one byte string holds the bits. -/
theorem Packs.eq_packedBytes {bits : List Bool} {bytes : List UInt8} (h : Packs bits bytes) :
    bytes = packedBytes bits := by
  apply List.ext_getElem
  · rw [h.length_eq, packedBytes, List.length_map, List.length_range]
  · intro j hj hj'
    have hbit := h.testBit_eq j
    rw [List.getD_eq_getElem _ _ hj] at hbit
    have hlt : Nat.ofBits (fun k : Fin 8 => bits.getD (8 * j + k) false) < 2 ^ 8 :=
      Nat.ofBits_lt_two_pow _
    have hget : (packedBytes bits)[j].toNat =
        Nat.ofBits fun k : Fin 8 => bits.getD (8 * j + k) false := by
      simp only [packedBytes, List.getElem_map, List.getElem_range, UInt8.toNat_ofNat']
      exact Nat.mod_eq_of_lt hlt
    refine UInt8.toNat_inj.mp (Nat.eq_of_testBit_eq fun k => ?_)
    rw [hget]
    by_cases hk : k < 8
    · rw [hbit k hk, Nat.testBit_ofBits_lt _ _ hk]
    · rw [Nat.testBit_ofBits_ge _ _ (by omega)]
      refine Nat.testBit_lt_two_pow ((UInt8.toNat_lt _).trans_le ?_)
      exact Nat.pow_le_pow_right (by omega) (by omega)

end BitPacking
