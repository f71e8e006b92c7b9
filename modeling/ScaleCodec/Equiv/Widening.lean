import ScaleCodec.Equiv.Grammar

/-!
# Values that are read under another type

`Widens b t u R` says that what was written under the type `t` may be read under `u`, and that `R`
relates the two values.  The relation is built from the places where the format does not tell types
apart: products are their components in a row, whatever groups them, sequences a count and their
items, pointers nothing but their target, and a variant may have more alternatives than were written
with.

Every rule keeps the spellings (`Widens.shares`, by induction over the derivation), so that a
decoder of `u` accepts whatever a decoder of `t` does (`decodeFrom_widens`).
-/

namespace ScaleCodec

open Grammar

variable {α β γ : Type} {n : ℕ} {αs : Fin n → Type} {b : Build}

/-! ### Types that are read alike -/

/-- The two components, by their position. -/
def pairParts {αs : Fin 2 → Type} (v : αs 0 × αs 1) : ∀ i, αs i
  | 0 => v.1
  | 1 => v.2

/-- The types whose values are the components of a family, one after the other. -/
inductive ProductOf : {n : ℕ} → {αs : Fin n → Type} → {γ : Type} → ScaleType γ →
    (∀ i, ScaleType (αs i)) → (γ → ∀ i, αs i) → Prop
  | tuple {n : ℕ} {αs : Fin n → Type} (ts : ∀ i, ScaleType (αs i)) : ProductOf (.tuple ts) ts id
  | pair {αs : Fin 2 → Type} (ts : ∀ i, ScaleType (αs i)) :
    ProductOf (.pair (ts 0) (ts 1)) ts pairParts
  | staticCollection (n : ℕ) {α : Type} (t : ScaleType α) :
    ProductOf (.staticCollection n t) (fun _ => t) List.Vector.get

/-- The types whose values are lists of items behind their number. -/
inductive SequenceOf : {α γ : Type} → ScaleType γ → ScaleType α → (γ → List α) → Prop
  | resizeable (cap : Capacity) {α : Type} (t : ScaleType α) :
    SequenceOf (.resizeable cap t) t Collection.items
  | vectorBool (cap : Capacity) :
    SequenceOf (.vectorBool cap) (.integral .bool) Collection.items
  | extensibleBack (cap : Capacity) {α : Type} (t : ScaleType α) :
    SequenceOf (.extensibleBack cap t) t Collection.items

/-- What is written under the first type is read under the second one as a related value. -/
inductive Widens (b : Build) : {α β : Type} → ScaleType α → ScaleType β → (α → β → Prop) → Prop
  | refl {α : Type} (t : ScaleType α) : Widens b t t Eq
  | trans {α β γ : Type} {t : ScaleType α} {u : ScaleType β} {w : ScaleType γ} {R : α → β → Prop}
    {S : β → γ → Prop} (h : Widens b t u R) (h' : Widens b u w S) :
    Widens b t w (Relation.Comp R S)
  /-- `bool` as a byte -/
  | boolByte (signed : Bool) :
    Widens b (.integral .bool) (.integral (.int signed .one)) fun v w => w = if v then 1 else 0
  | signedness (signed signed' : Bool) (size : IntSize) :
    Widens b (.integral (.int signed size)) (.integral (.int signed' size)) Eq
  | enumIntegral {β : Type} (i : Integral β) (traits : EnumTraits β) :
    Widens b (.enum i traits) (.integral i) Eq
  | integralEnum {β : Type} (i : Integral β) (traits : EnumTraits β) :
    Widens b (.integral i) (.enum i traits) fun v w => v = w ∧ isValidEnumValue i traits w
  /-- a number of a builtin type, in any type that has it -/
  | compact {T U : CompactCompatible} (hT : T.isIntegral) :
    Widens b (.compact T) (.compact U) fun v w => v.toNat = w.toNat
  | optional {α β : Type} {t : ScaleType α} {u : ScaleType β} {R : α → β → Prop}
    (ht : t.isBool? = none) (hu : u.isBool? = none) (h : Widens b t u R) :
    Widens b (.optional t) (.optional u) (Option.Rel R)
  /-- as a variant of something that is spelled by nothing, and the value -/
  | optionalVariant {αs : Fin 2 → Type} (ts : ∀ i, ScaleType (αs i)) (hbool : (ts 1).isBool? = none)
    {x : αs 0} (hx : (ts 0).Spells b x []) :
    Widens b (.optional (ts 1)) (.variant ts (by decide)) fun v w =>
      w = match v with | none => .holds 0 x | some y => .holds 1 y
  /-- further alternatives -/
  | variant {m n : ℕ} {αs : Fin m → Type} {βs : Fin n → Type} {ts : ∀ i, ScaleType (αs i)}
    {us : ∀ i, ScaleType (βs i)} {R : ∀ i j, αs i → βs j → Prop} (hm : m ≤ 256) (hn : n ≤ 256)
    (hmn : m ≤ n) (h : ∀ i, Widens b (ts i) (us (i.castLE hmn)) (R i (i.castLE hmn))) :
    Widens b (.variant ts hm) (.variant us hn) fun v w =>
      ∃ i x y, v = .holds i x ∧ w = .holds (i.castLE hmn) y ∧ R i (i.castLE hmn) x y
  | product {n : ℕ} {αs βs : Fin n → Type} {γ δ : Type} {t : ScaleType γ} {u : ScaleType δ}
    {ts : ∀ i, ScaleType (αs i)} {us : ∀ i, ScaleType (βs i)} {f : γ → ∀ i, αs i}
    {g : δ → ∀ i, βs i} {R : ∀ i, αs i → βs i → Prop} (ht : ProductOf t ts f)
    (hu : ProductOf u us g) (h : ∀ i, Widens b (ts i) (us i) (R i)) :
    Widens b t u fun v w => ∀ i, R i (f v i) (g w i)
  | assoc {α β γ : Type} (t : ScaleType α) (u : ScaleType β) (w : ScaleType γ) :
    Widens b (.pair (.pair t u) w) (.pair t (.pair u w)) fun v v' =>
      v' = (v.1.1, v.1.2, v.2)
  | assocSymm {α β γ : Type} (t : ScaleType α) (u : ScaleType β) (w : ScaleType γ) :
    Widens b (.pair t (.pair u w)) (.pair (.pair t u) w) fun v v' =>
      v' = ((v.1, v.2.1), v.2.2)
  | target (heap : Bool) {α : Type} (t : ScaleType α) :
    Widens b (.pointer heap t) t fun v x => ∃ allocated, v = .to x allocated
  | pointer {heap : Bool} (hheap : heap = true) {α : Type} (t : ScaleType α) :
    Widens b t (.pointer heap t) fun x v => v = .to x hheap
  | sequence {α β γ δ : Type} {t : ScaleType γ} {u : ScaleType δ} {item : ScaleType α}
    {item' : ScaleType β} {f : γ → List α} {g : δ → List β} {R : α → β → Prop}
    (ht : SequenceOf t item f) (hu : SequenceOf u item' g) (h : Widens b item item' R) :
    Widens b t u fun v w => List.Forall₂ R (f v) (g w)
  /-- the items are emplaced one after the other -/
  | emplace {α γ : Type} {t : ScaleType γ} {item : ScaleType α} {f : γ → List α} (cap : Capacity)
    (order : Compare α) (ht : SequenceOf t item f) :
    Widens b t (.randomExtensible cap order item) fun v w =>
      (f v).length ≤ cap.maxSize ∧ MemoryFor cap order (f v) [] ∧
        w.items = order.insertAll (f v) []

/-! ### Spellings are kept -/

theorem ProductOf.spells {t : ScaleType γ} {ts : ∀ i, ScaleType (αs i)} {f : γ → ∀ i, αs i}
    (h : ProductOf t ts f) (v : γ) (bs : List UInt8) :
    t.Spells b v bs ↔ product (fun i => (ts i).Spells b) (f v) bs := by
  cases h with
  | tuple ts => exact Iff.rfl
  | pair ts =>
    rw [product_succ]
    simp only [product_succ, product_zero]
    constructor
    · rintro ⟨p, q, hp, hq, rfl⟩
      exact ⟨p, q, hp, ⟨q, [], hq, rfl, (List.append_nil q).symm⟩, rfl⟩
    · rintro ⟨p, _, hp, ⟨q, _, hq, rfl, rfl⟩, rfl⟩
      exact ⟨p, q, hp, hq, by rw [List.append_nil]⟩
  | staticCollection n t =>
    obtain ⟨items, rfl⟩ := v
    show each (t.Spells b) items bs ↔ product (fun _ => t.Spells b) items.get bs
    rw [← each_ofFn, List.ofFn_get]

theorem SequenceOf.spells {t : ScaleType γ} {item : ScaleType α} {f : γ → List α}
    (h : SequenceOf t item f) (v : γ) (bs : List UInt8) :
    t.Spells b v bs ↔ countedGrammar b (item.Spells b) (f v) bs := by
  cases h <;> exact Iff.rfl

theorem shares_counted {R : α → β → Prop} {G : Grammar UInt8 α} {H : Grammar UInt8 β}
    (h : Shares R G H) :
    Shares (List.Forall₂ R) (countedGrammar b G) (countedGrammar b H) := by
  rintro items items' _ hR ⟨p, q, hp, hq, rfl⟩
  exact ⟨p, q, hR.length_eq ▸ hp, h.each _ _ _ hR hq, rfl⟩

theorem shares_optional {R : α → β → Prop} {G : Grammar UInt8 α} {H : Grammar UInt8 β}
    (h : Shares R G H) :
    Shares (Option.Rel R) (optionalGrammar none G) (optionalGrammar none H) := by
  intro v w bs hR hbs
  cases hR with
  | none => exact hbs
  | some hx =>
    obtain ⟨q, hq, rfl⟩ := hbs
    exact ⟨q, h _ _ _ hx hq, rfl⟩

/-- Every spelling under the first type is one of the related value under the second. -/
theorem Widens.shares {t : ScaleType α} {u : ScaleType β} {R : α → β → Prop}
    (h : Widens b t u R) : Shares R (t.Spells b) (u.Spells b) := by
  induction h with
  | refl t =>
    rintro v _ bs rfl hbs
    exact hbs
  | trans _ _ ih ih' =>
    rintro v w bs ⟨x, hvx, hxw⟩ hbs
    exact ih' _ _ _ hxw (ih _ _ _ hvx hbs)
  | boolByte signed =>
    rintro v _ _ rfl rfl
    cases v <;> rfl
  | signedness signed signed' size =>
    rintro v _ _ rfl rfl
    rfl
  | enumIntegral i traits =>
    rintro v _ _ rfl ⟨_, rfl⟩
    rfl
  | integralEnum i traits =>
    rintro v _ _ ⟨rfl, hvalid⟩ rfl
    exact ⟨hvalid, rfl⟩
  | compact hT =>
    rintro v w bs hvw ⟨x, hx, rfl, hlt⟩
    rw [BitVec.toNat_ofNat, Nat.mod_eq_of_lt (hlt hT)] at hvw
    subst hvw
    refine ⟨w.toNat, hx, ?_, fun _ => w.isLt⟩
    rw [BitVec.ofNat_toNat, BitVec.setWidth_eq]
  | optional ht hu _ ih =>
    intro v w bs hR hbs
    change optionalGrammar _ _ _ _ at hbs
    show optionalGrammar _ _ _ _
    rw [ht] at hbs
    rw [hu]
    exact shares_optional ih v w bs hR hbs
  | optionalVariant ts hbool hx =>
    rintro v _ bs rfl hbs
    change optionalGrammar _ _ _ _ at hbs
    rw [hbool] at hbs
    cases v with
    | none => exact ⟨0, _, [], rfl, hx, hbs⟩
    | some y =>
      obtain ⟨q, hq, rfl⟩ := hbs
      exact ⟨1, y, q, rfl, hq, rfl⟩
  | variant hm hn hmn _ ih =>
    rintro _ _ _ ⟨i, x, y, rfl, rfl, hxy⟩ ⟨j, x', q, heq, hq, rfl⟩
    cases heq
    exact ⟨i.castLE hmn, y, q, rfl, ih i _ _ _ hxy hq, rfl⟩
  | product ht hu _ ih =>
    intro v w bs hR hbs
    rw [ht.spells] at hbs
    rw [hu.spells]
    exact Shares.product ih _ _ _ hR hbs
  | assoc t u w =>
    rintro v _ _ rfl ⟨_, r, ⟨p, q, hp, hq, rfl⟩, hr, rfl⟩
    exact ⟨p, q ++ r, hp, ⟨q, r, hq, hr, rfl⟩, List.append_assoc p q r⟩
  | assocSymm t u w =>
    rintro v _ _ rfl ⟨p, _, hp, ⟨q, r, hq, hr, rfl⟩, rfl⟩
    exact ⟨p ++ q, r, ⟨p, q, hp, hq, rfl⟩, hr, (List.append_assoc p q r).symm⟩
  | target heap t =>
    rintro _ x bs ⟨allocated, rfl⟩ ⟨y, _, heq, hy⟩
    cases heq
    exact hy
  | pointer hheap t =>
    rintro x _ bs rfl hx
    exact ⟨x, hheap, rfl, hx⟩
  | sequence ht hu _ ih =>
    intro v w bs hR hbs
    rw [ht.spells] at hbs
    rw [hu.spells]
    exact shares_counted ih _ _ _ hR hbs
  | emplace cap order ht =>
    rintro v w bs ⟨hmax, hmemory, hw⟩ hbs
    exact ⟨_, (ht.spells v bs).mp hbs, hmax, hmemory, hw⟩

/-- Whatever a decoder of the first type accepts, a decoder of the second one accepts as a related
value, and stops at the same place. -/
theorem decodeFrom_widens {t : ScaleType α} {u : ScaleType β} {R : α → β → Prop}
    (h : Widens b t u R) (left : Leftovers) {v : α} {w : β} (hR : R v w)
    {s s' : ScaleDecoderStream} (hs : s.Valid)
    (hdecode : decodeFrom b left t s = (.ok (.ok v), s')) :
    decodeFrom b left u s = (.ok (.ok w), s') := by
  obtain ⟨p, hp, hspells⟩ := (decodeFrom_iff_spells b left t hs v s').mp hdecode
  exact (decodeFrom_iff_spells b left u hs w s').mpr ⟨p, hp, h.shares v w p hR hspells⟩

/-- A `std::vector<bool>`, as a vector of bytes. -/
theorem decodeFrom_widens_vectorBool :
    decodeFrom .default ⟨ScaleType.valueInit, ScaleType.valueInit, fun _ v => v⟩
        (.resizeable ⟨4, 4, by decide⟩ (.integral (.int false .one)))
        (.ofSpan ⟨[8, 1, 0], by decide⟩) =
      (.ok (.ok ⟨[1, 0], by decide⟩), ⟨⟨[8, 1, 0], by decide⟩, 3⟩) :=
  decodeFrom_widens
    (.sequence (.vectorBool ⟨4, 4, by decide⟩) (.resizeable ⟨4, 4, by decide⟩ _) (.boolByte false))
    ⟨ScaleType.valueInit, ScaleType.valueInit, fun _ v => v⟩
    (v := ⟨[true, false], by decide⟩) (by simp) (by decide) rfl

end ScaleCodec
