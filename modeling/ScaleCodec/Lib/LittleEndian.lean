import Mathlib.Data.Nat.Digits.Lemmas
import Mathlib.Tactic.Ring

/-!
# Little-endian byte strings

`value bs` is the number a byte string spells with its least significant byte first, and
`bytes n v` is the `n`-byte string of the low `8 n` bits of `v`.  The two are inverse up to
truncation (`value_bytes`, `bytes_value`); the remaining lemmas say how they meet concatenation
and how long the shortest spelling of a number is (`length`).
-/

namespace LittleEndian

/-! ### The number a byte string spells -/

/-- The number spelled by `bs`, least significant byte first. -/
def value (bs : List UInt8) : ℕ :=
  Nat.ofDigits 256 (bs.map UInt8.toNat)

@[simp]
theorem value_nil : value [] = 0 := rfl

@[simp]
theorem value_cons (b : UInt8) (bs : List UInt8) : value (b :: bs) = b.toNat + 256 * value bs := by
  rw [value, List.map_cons, Nat.ofDigits_cons, value]

theorem value_append (as bs : List UInt8) :
    value (as ++ bs) = value as + 256 ^ as.length * value bs := by
  rw [value, List.map_append, Nat.ofDigits_append, List.length_map, value, value]

/-- `n` bytes spell a number of at most `8 n` bits. -/
theorem value_lt (bs : List UInt8) : value bs < 256 ^ bs.length := by
  induction bs with
  | nil => simp
  | cons b bs ih =>
    have hb := b.toNat_lt
    rw [value_cons, List.length_cons, pow_succ]
    omega

/-- The last byte of a spelling is what its value has above the bytes before. -/
theorem value_concat (bs : List UInt8) (b : UInt8) :
    value (bs ++ [b]) = value bs + 256 ^ bs.length * b.toNat := by
  rw [value_append, value_cons, value_nil, Nat.mul_zero, Nat.add_zero]

theorem pow256_eq (n : ℕ) : 256 ^ n = 2 ^ (8 * n) := by
  rw [show (256 : ℕ) = 2 ^ 8 by rfl, ← pow_mul]

/-- `n` bytes fit into a type of more than `8 n` bits. -/
theorem pow256_lt (n w : ℕ) (h : 8 * n < w) : 256 ^ n < 2 ^ w := by
  rw [pow256_eq]
  exact Nat.pow_lt_pow_right (by omega) h

/-! ### The bytes of a number -/

/-- The `n` low bytes of `v`, least significant first. -/
def bytes : ℕ → ℕ → List UInt8
  | 0, _ => []
  | n + 1, v => UInt8.ofNat v :: bytes n (v / 256)

@[simp]
theorem length_bytes (n v : ℕ) : (bytes n v).length = n := by
  induction n generalizing v with
  | zero => rfl
  | succ n ih => rw [bytes, List.length_cons, ih]

/-- Byte `i` of a spelling holds the bits `8 i` to `8 i + 7`. -/
theorem getElem?_bytes (n v i : ℕ) (hi : i < n) :
    (bytes n v)[i]? = some (UInt8.ofNat (v / 256 ^ i)) := by
  induction n generalizing v i with
  | zero => omega
  | succ n ih =>
    cases i with
    | zero => simp [bytes]
    | succ i =>
      rw [bytes, List.getElem?_cons_succ, ih (v / 256) i (by omega), Nat.div_div_eq_div_mul,
        pow_succ']

/-- Spelling `n` bytes of a number keeps it modulo `256 ^ n`. -/
theorem value_bytes (n v : ℕ) : value (bytes n v) = v % 256 ^ n := by
  induction n generalizing v with
  | zero => rw [pow_zero, Nat.mod_one]; rfl
  | succ n ih =>
    have hb : (UInt8.ofNat v).toNat = v % 256 := UInt8.toNat_ofNat'
    rw [bytes, value_cons, ih, hb, pow_succ', Nat.mod_mul]

theorem value_bytes_of_lt {n v : ℕ} (h : v < 256 ^ n) : value (bytes n v) = v := by
  rw [value_bytes, Nat.mod_eq_of_lt h]

/-- A byte string is the spelling, at its own length, of the number it spells. -/
theorem bytes_value (bs : List UInt8) : bytes bs.length (value bs) = bs := by
  induction bs with
  | nil => rfl
  | cons b bs ih =>
    have hb := b.toNat_lt
    rw [List.length_cons, bytes, value_cons]
    have hlow : UInt8.ofNat (b.toNat + 256 * value bs) = b := by
      apply UInt8.toNat_inj.mp
      rw [UInt8.toNat_ofNat']
      omega
    have hhigh : (b.toNat + 256 * value bs) / 256 = value bs := by omega
    rw [hlow, hhigh, ih]

/-- Only the low `8 n` bits of a number reach its `n` bytes. -/
theorem bytes_mod (n v : ℕ) : bytes n (v % 256 ^ n) = bytes n v := by
  have h := bytes_value (bytes n v)
  rwa [length_bytes, value_bytes] at h

/-- Placing a number above `i` bytes, in an unsigned type it fits into. -/
theorem or_shiftLeft_mod {v c i w : ℕ} (hv : v < 256 ^ i) (hc : 256 ^ i * c < 2 ^ w) :
    v ||| (c <<< (8 * i)) % 2 ^ w = v + 256 ^ i * c := by
  rw [Nat.shiftLeft_eq, ← pow256_eq, Nat.mul_comm, Nat.mod_eq_of_lt hc]
  rw [pow256_eq] at hv ⊢
  rw [Nat.or_comm, Nat.mul_comm, ← Nat.shiftLeft_eq, ← Nat.shiftLeft_add_eq_or_of_lt hv,
    Nat.add_comm]

theorem bytes_add (m n v : ℕ) : bytes (m + n) v = bytes m v ++ bytes n (v / 256 ^ m) := by
  induction m generalizing v with
  | zero => simp [bytes]
  | succ m ih =>
    rw [Nat.add_right_comm, bytes, bytes, ih, List.cons_append, Nat.div_div_eq_div_mul, pow_succ']

/-! ### The shortest spelling -/

/-- How many bytes the shortest spelling of `v` has: none for `0`. -/
def length (v : ℕ) : ℕ :=
  if v = 0 then 0 else v.log2 / 8 + 1

/-- A number fits into `n` bytes iff its shortest spelling does. -/
theorem length_le_iff (v n : ℕ) : length v ≤ n ↔ v < 256 ^ n := by
  by_cases h0 : v = 0
  · have := Nat.pow_pos (n := n) (show 0 < 256 by omega)
    simp [length, h0]
  · rw [length, if_neg h0, pow256_eq, ← Nat.log2_lt h0]
    omega

theorem lt_pow_length (v : ℕ) : v < 256 ^ length v :=
  (length_le_iff v _).mp le_rfl

/-- One byte fewer than the shortest spelling is too few. -/
theorem pow_le_of_lt_length {v n : ℕ} (h : n < length v) : 256 ^ n ≤ v := by
  by_contra hlt
  exact absurd ((length_le_iff v n).mpr (Nat.lt_of_not_le hlt)) (by omega)

theorem length_eq_iff {v n : ℕ} : length v = n + 1 ↔ 256 ^ n ≤ v ∧ v < 256 ^ (n + 1) := by
  rw [← length_le_iff, ← Nat.not_lt, ← length_le_iff]
  omega

/-- Dropping the low byte shortens the spelling by one. -/
theorem length_div (v : ℕ) (h : v ≠ 0) : length v = length (v / 256) + 1 := by
  rw [length_eq_iff]
  have hlt := lt_pow_length (v / 256)
  constructor
  · rcases Nat.eq_zero_or_pos (length (v / 256)) with h0 | hpos
    · rw [h0, pow_zero]; omega
    · have hle := pow_le_of_lt_length (show length (v / 256) - 1 < length (v / 256) by omega)
      have hpow : 256 ^ length (v / 256) = 256 ^ (length (v / 256) - 1) * 256 := by
        rw [← pow_succ]; congr 1; omega
      omega
  · rw [pow_succ]; omega

end LittleEndian
