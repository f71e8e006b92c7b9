import ScaleCodec.ScaleType

/-!
# What a decoding run comes across

`t.Reaches b E s` says that decoding `t` from the position `s` comes to a place where one of the
events `E` happens: a compact integer, a `BitVec` or a pointer that is read at such a position.  The
definition follows the parts of a type in the order they are decoded, and stops where the run does.
-/

namespace ScaleCodec

/-- What is looked for at the positions a run comes to. -/
structure Event where
  /-- where a `Compact<T>` is to be decoded -/
  compact : CompactCompatible → ScaleDecoderStream → Prop := fun _ _ => False
  /-- where a `BitVec` is to be decoded -/
  bitVec : Capacity → ScaleDecoderStream → Prop := fun _ _ => False
  /-- where a pointee is to be allocated -/
  pointer : Bool → Prop := fun _ => False

section Reached

variable {α : Type}

/-- One of the elements of a tuple comes to a position where its `R` holds. -/
def ElementReached : {n : ℕ} → {αs : Fin n → Type} → (∀ i, Decoding (αs i)) →
    (Fin n → ScaleDecoderStream → Prop) → ScaleDecoderStream → Prop
  | 0, _, _, _, _ => False
  | _ + 1, _, d, R, s =>
    R 0 s ∨ ∃ x s', d 0 s = .ok x s' ∧
      ElementReached (fun i => d i.succ) (fun i => R i.succ) s'

theorem elementReached_succ {n : ℕ} {αs : Fin (n + 1) → Type} {d : ∀ i, Decoding (αs i)}
    {R : Fin (n + 1) → ScaleDecoderStream → Prop} {s : ScaleDecoderStream} :
    ElementReached d R s ↔ R 0 s ∨ ∃ x s', d 0 s = .ok x s' ∧
      ElementReached (fun i => d i.succ) (fun i => R i.succ) s' := Iff.rfl

/-- One of `n` items comes to a position where `R` holds. -/
def ItemReached (d : Decoding α) (R : ScaleDecoderStream → Prop) : ℕ → ScaleDecoderStream → Prop
  | 0, _ => False
  | n + 1, s => R s ∨ ∃ x s', d s = .ok x s' ∧ ItemReached d R n s'

theorem not_itemReached {d : Decoding α} {k : ℕ} {s : ScaleDecoderStream} :
    ¬ ItemReached d (fun _ => False) k s := by
  induction k generalizing s with
  | zero => exact id
  | succ k ih =>
    rintro (h | ⟨_, _, _, h⟩)
    · exact h
    · exact ih h

/-- The same for the items of an ordered container, as long as they can be put into it. -/
def EmplacedReached {cap : Capacity} {order : Compare α} (d : Decoding α)
    (R : ScaleDecoderStream → Prop) :
    ℕ → OrderedCollection cap order → ScaleDecoderStream → Prop
  | 0, _, _ => False
  | n + 1, c, s => R s ∨ ∃ x s' c' s'', d s = .ok x s' ∧
      catchBadAlloc (c.emplace x) s' = .ok c' s'' ∧ EmplacedReached d R n c' s''

/-- The same for the items of a collection that is given its size first. -/
def SizedReached (b : Build) (cap : Capacity) (d : Decoding α) (R : ScaleDecoderStream → Prop)
    (s : ScaleDecoderStream) : Prop :=
  ∃ n s', decodeLength b s = .ok n s' ∧ cap.Admits n ∧ ItemReached d R n s'

end Reached

/-- Decoding the type from a position comes to one of the events. -/
def ScaleType.Reaches (b : Build) (E : Event) :
    {α : Type} → ScaleType α → ScaleDecoderStream → Prop
  | _, integral _, _ => False
  | _, enum _ _, _ => False
  | _, bigFixedWidthInteger _, _ => False
  | _, compact T, s => E.compact T s
  | _, optional t, s =>
    t.isBool? = none ∧ ∃ s', decodeBool s = .ok true s' ∧ t.Reaches b E s'
  | _, pair t u, s =>
    t.Reaches b E s ∨ ∃ x s', t.fromStream b s = .ok x s' ∧ u.Reaches b E s'
  | _, tuple ts, s =>
    ElementReached (fun i => (ts i).fromStream b) (fun i => (ts i).Reaches b E) s
  | _, variant (n := n) ts _, s =>
    ∃ i s', nextByte s = .ok i s' ∧ ∃ h : i.toNat < n, (ts ⟨i.toNat, h⟩).Reaches b E s'
  | _, pointer heap t, s => E.pointer heap ∨ heap = true ∧ t.Reaches b E s
  | _, staticCollection n t, s => ItemReached (t.fromStream b) (t.Reaches b E) n s
  | _, resizeable cap t, s => SizedReached b cap (t.fromStream b) (t.Reaches b E) s
  | _, vectorBool _, _ => False
  | _, bitVec cap, s => E.bitVec cap s
  | _, extensibleBack cap t, s => SizedReached b cap (t.fromStream b) (t.Reaches b E) s
  | _, randomExtensible cap order t, s =>
    ∃ n s', decodeLength b s = .ok n s' ∧ n ≤ cap.maxSize ∧
      EmplacedReached (t.fromStream b) (t.Reaches b E) n
        (.clear : OrderedCollection cap order) s'

end ScaleCodec
