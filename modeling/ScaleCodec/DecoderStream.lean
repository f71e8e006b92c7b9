import ScaleCodec.Types
import ScaleCodec.Lib.LittleEndian

/-!
# `ScaleDecoderStream`

The stream of the decoder: a span of bytes and the index of the next one.  Reads of the span are
guarded by `hasMore`, whose sum is 64-bit arithmetic, as in the source; a read that is not inside
the span would be `Exception.outOfBounds`, which no exception handler of the library catches.
`decoderSource` presents the stream as a `Source` whose positions are the indices up to the size
of the span.
-/

namespace ScaleCodec

/-- `ScaleDecoderStream`. -/
structure ScaleDecoderStream where
  /-- `span_` -/
  span : ConstSpanOfBytes
  /-- `current_index_` -/
  currentIndex : ℕ := 0
  deriving DecidableEq

/-- A computation that reads from the stream and may throw. -/
abbrev Decoding := EStateM Exception ScaleDecoderStream

namespace ScaleDecoderStream

/-- `hasMore`: the sum is a `uint64_t`, the comparison one of `size_t`. -/
def hasMore (s : ScaleDecoderStream) (n : ℕ) : Bool :=
  (s.currentIndex + n) % 2 ^ 64 ≤ s.span.size

/-- The bytes from the current index on. -/
def remaining (s : ScaleDecoderStream) : List UInt8 :=
  s.span.bytes.drop s.currentIndex

/-- The stream some bytes further on. -/
def advance (s : ScaleDecoderStream) (n : ℕ) : ScaleDecoderStream :=
  { s with currentIndex := s.currentIndex + n }

/-- The index has not passed the end of the span. -/
def Valid (s : ScaleDecoderStream) : Prop :=
  s.currentIndex ≤ s.span.size

instance (s : ScaleDecoderStream) : Decidable s.Valid :=
  inferInstanceAs (Decidable (_ ≤ _))

theorem length_remaining (s : ScaleDecoderStream) :
    s.remaining.length = s.span.size - s.currentIndex := by
  rw [remaining, List.length_drop, ByteBlock.size]

/-- As long as the sum cannot wrap, `hasMore n` says that `n` more bytes are there. -/
theorem hasMore_iff {s : ScaleDecoderStream} (hs : s.Valid) {n : ℕ} (hn : n < 2 ^ 63) :
    s.hasMore n = true ↔ n ≤ s.remaining.length := by
  have hsize : s.span.size < 2 ^ 63 := s.span.size_lt
  have hle : s.currentIndex ≤ s.span.size := hs
  rw [hasMore, decide_eq_true_iff, length_remaining, Nat.mod_eq_of_lt (by omega)]
  omega

/-- The sum wraps where it is `2^64` or more, and then always passes for one within the span. -/
theorem hasMore_exact_iff {s : ScaleDecoderStream} (hs : s.Valid) {n : ℕ}
    (hn : n < 2 ^ 64) :
    (s.hasMore n = true ↔ (n : ℤ) ≤ (s.span.size : ℤ) - s.currentIndex) ↔
      s.currentIndex + n < 2 ^ 64 := by
  have hsize : s.span.size < 2 ^ 63 := s.span.size_lt
  have hle : s.currentIndex ≤ s.span.size := hs
  rw [hasMore, decide_eq_true_iff]
  rcases Nat.lt_or_ge (s.currentIndex + n) (2 ^ 64) with hlt | hge
  · rw [Nat.mod_eq_of_lt hlt]
    omega
  · have hwrap : (s.currentIndex + n) % 2 ^ 64 = s.currentIndex + n - 2 ^ 64 := by
      rw [Nat.mod_eq_sub_mod hge, Nat.mod_eq_of_lt (by omega)]
    rw [hwrap]
    omega

@[simp]
theorem remaining_advance (s : ScaleDecoderStream) (n : ℕ) :
    (s.advance n).remaining = s.remaining.drop n := by
  rw [remaining, remaining, List.drop_drop]
  rfl

theorem advance_advance (s : ScaleDecoderStream) (m n : ℕ) :
    (s.advance m).advance n = s.advance (m + n) := by
  simp only [advance, Nat.add_assoc]

theorem advance_injective {s : ScaleDecoderStream} {m n : ℕ} (h : s.advance m = s.advance n) :
    m = n := by
  have hindex := congrArg ScaleDecoderStream.currentIndex h
  exact Nat.add_left_cancel hindex

theorem valid_advance {s : ScaleDecoderStream} {n : ℕ} (hs : s.Valid)
    (hn : n ≤ s.remaining.length) : (s.advance n).Valid := by
  rw [length_remaining] at hn
  show s.currentIndex + n ≤ s.span.size
  have hle : s.currentIndex ≤ s.span.size := hs
  omega

/-- A stream at the beginning of a span. -/
def ofSpan (data : ConstSpanOfBytes) : ScaleDecoderStream := { span := data }

theorem valid_ofSpan (data : ConstSpanOfBytes) : (ofSpan data).Valid := Nat.zero_le _

end ScaleDecoderStream

/-- The decoder stream as a source of bytes. -/
def decoderSource : Source ScaleDecoderStream UInt8 where
  Valid := ScaleDecoderStream.Valid
  rest := ScaleDecoderStream.remaining
  advance := ScaleDecoderStream.advance
  rest_advance := ScaleDecoderStream.remaining_advance
  advance_zero _ := rfl
  advance_advance := ScaleDecoderStream.advance_advance
  valid_advance _ _ := ScaleDecoderStream.valid_advance

/-- Wherever `bs` comes next, `d` takes exactly `bs` and returns `a`. -/
abbrev Reads {α : Type} (d : Decoding α) (bs : List UInt8) (a : α) : Prop :=
  decoderSource.Reads d bs a

/-- Wherever `bs` comes next, `d` takes exactly `bs` and ends in `r`. -/
abbrev Takes {α : Type} (d : Decoding α) (bs : List UInt8) (r : Except Exception α) : Prop :=
  decoderSource.Takes d bs r

/-- Between the positions `s` and `s'` of a stream lies exactly `bs`. -/
abbrev Consumed (s : ScaleDecoderStream) (bs : List UInt8) (s' : ScaleDecoderStream) : Prop :=
  decoderSource.Consumed s bs s'

/-- At `s`, `d` moves forward or raises a `DecodeError`. -/
abbrev SafeAt {α : Type} (d : Decoding α) (s : ScaleDecoderStream) : Prop :=
  decoderSource.SafeAt IsDecodeError d s

/-! ### Single bytes -/

/-- `hasMore`, asked of the stream. -/
def hasMore (n : ℕ) : Decoding Bool := fun s => .ok (s.hasMore n) s

/-- `span_[current_index_++]`. -/
def takeByte : Decoding UInt8 := fun s =>
  match s.span.bytes[s.currentIndex]? with
  | some b => .ok b (s.advance 1)
  | none => .error .outOfBounds s

/-- `nextByte`. -/
def nextByte : Decoding UInt8 := do
  if ¬ (← hasMore 1) then
    raise (.decode .notEnoughData)
  else
    takeByte

theorem nextByte_cons {s : ScaleDecoderStream} (hs : s.Valid) {b : UInt8} {bs : List UInt8}
    (h : s.remaining = b :: bs) : nextByte s = .ok b (s.advance 1) := by
  have hmore : s.hasMore 1 = true := by
    rw [ScaleDecoderStream.hasMore_iff hs (by omega), h]
    simp
  have hb : s.span.bytes[s.currentIndex]? = some b := by
    have h0 : s.remaining[0]? = some b := by rw [h]; rfl
    rwa [ScaleDecoderStream.remaining, List.getElem?_drop, Nat.add_zero] at h0
  have htake : takeByte s = .ok b (s.advance 1) := by
    rw [takeByte, hb]
  rw [nextByte, EStateM.bind_ok (show hasMore 1 s = .ok true s by rw [hasMore, hmore])]
  simpa using htake

theorem nextByte_nil {s : ScaleDecoderStream} (hs : s.Valid) (h : s.remaining = []) :
    nextByte s = .error (.systemError (.decode .notEnoughData)) s := by
  have hmore : s.hasMore 1 = false := by
    rw [← Bool.not_eq_true, ScaleDecoderStream.hasMore_iff hs (by omega), h]
    simp
  rw [nextByte, EStateM.bind_ok (show hasMore 1 s = .ok false s by rw [hasMore, hmore])]
  rfl

theorem reads_nextByte (b : UInt8) : Reads nextByte [b] b := by
  rintro s hs ⟨tail, ht⟩
  exact nextByte_cons hs ht.symm

theorem takes_raise {α : Type} (code : ErrorCode) :
    Takes (raise code : Decoding α) [] (.error (.systemError code)) :=
  Source.takes_throw _

/-- A check of `hasMore` passes where the string that comes next is long enough. -/
theorem Takes.hasMore {α : Type} {k : Bool → Decoding α} {bs : List UInt8}
    {r : Except Exception α} {n : ℕ} (hn : n ≤ bs.length) (hk : Takes (k true) bs r)
    (h63 : n < 2 ^ 63) : Takes (hasMore n >>= k) bs r := by
  have hmore : ∀ s : ScaleDecoderStream, s.Valid → bs <+: s.remaining →
      (ScaleCodec.hasMore n >>= k) s = k true s := by
    intro s hs hp
    have htrue : s.hasMore n = true :=
      (ScaleDecoderStream.hasMore_iff hs h63).mpr (hn.trans hp.length_le)
    exact EStateM.bind_ok (by rw [ScaleCodec.hasMore, htrue])
  cases r with
  | ok a => intro s hs hp; rw [hmore s hs hp, hk s hs hp]
  | error e => intro s hs hp; rw [hmore s hs hp, hk s hs hp]

/-- Inversion of a read of one byte. -/
theorem nextByte_eq_ok {s s' : ScaleDecoderStream} (hs : s.Valid) {b : UInt8}
    (h : nextByte s = .ok b s') : Consumed s [b] s' := by
  cases hr : s.remaining with
  | nil => rw [nextByte_nil hs hr] at h; cases h
  | cons c tail =>
    rw [nextByte_cons hs hr] at h
    injection h with h1 h2
    subst h1 h2
    exact ⟨⟨tail, hr.symm⟩, rfl⟩

theorem safeAt_raise {α : Type} (e : DecodeError) (s : ScaleDecoderStream) :
    SafeAt (raise (.decode e) : Decoding α) s :=
  Source.safeAt_throw ⟨e, rfl⟩ s

theorem safeAt_nextByte {s : ScaleDecoderStream} (hs : s.Valid) : SafeAt nextByte s := by
  unfold SafeAt Source.SafeAt
  cases hr : s.remaining with
  | nil => rw [nextByte_nil hs hr]; exact ⟨_, rfl⟩
  | cons b tail =>
    rw [nextByte_cons hs hr]
    exact ⟨[b], ⟨tail, hr.symm⟩, rfl⟩

end ScaleCodec
