import ScaleCodec.DynamicCollections
import ScaleCodec.Lib.Reread

/-!
# `std::variant`, and what is encoded after it

The operators of `std::variant` look for the alternative one after the other, by the recursions
`tryEncodeAsOneOfVariant` and `tryDecodeAsOneOfVariant`.  A variant is a part of larger values:
`DiffersAt` says that two values are equal but for one part, and that all other parts are read back,
so that `RestReadsBack` says of a variant that it does no harm to what is encoded around it.  For
this the alternative held must itself be `ReadToEnd`.
-/

namespace ScaleCodec

variable {α β : Type} {n : ℕ} {αs : Fin n → Type}

/-! ### The recursions over the alternatives -/

/-- `std::get<T>` if `index()` is that of the alternative. -/
def Variant.get? (i : Fin n) : Variant αs → Option (αs i)
  | .valueless => none
  | .holds j x => if h : j = i then some (h ▸ x) else none

/-- `tryEncodeAsOneOfVariant`, with the alternatives from `I` on. -/
def tryEncodeAsOneOfVariant (e : ∀ i, αs i → Encoding Unit) (v : Variant αs) :
    List (Fin n) → Encoding Unit
  -- no alternative is left
  | [] => pure ()
  | i :: alternatives =>
    match v.get? i with
    | some x => do
      putByte (UInt8.ofNat i)
      e i x
    | none => tryEncodeAsOneOfVariant e v alternatives

/-- `tryDecodeAsOneOfVariant`, with the alternatives from `I` on. -/
def tryDecodeAsOneOfVariant (d : ∀ i, Decoding (αs i)) (typeIndex : ℕ) (v : Variant αs) :
    List (Fin n) → Decoding (Variant αs)
  -- no alternative is left
  | [] => pure v
  | i :: alternatives =>
    if i = typeIndex then do
      let val ← d i
      pure (.holds i val)
    else tryDecodeAsOneOfVariant d typeIndex v alternatives

/-! ### What is meant to hold of a variant -/

/-- The encoder raises, or writes the index of the alternative held and the encoding of that. -/
def WritesAlternative (b : Build) (ts : ∀ i, ScaleType (αs i)) (hn : n ≤ 256) (v : Variant αs) :
    Prop :=
  (∃ p e, encoderSink.Emits ((ScaleType.variant ts hn).toStream b v) p (.error e)) ∨
    ∃ i x p, v = .holds i x ∧ Writes ((ts i).toStream b x) p ∧
      Writes ((ScaleType.variant ts hn).toStream b v) (UInt8.ofNat i :: p)

/-- The number of items, which is written in front of them, is read back. -/
def CountReadsBack (b : Build) (items : List α) : Prop :=
  (ScaleType.compact .size).ReadsBack b (BitVec.ofNat _ items.length)

/-- `items` and `items'` are equal but for one item, which is `w` in the one and `w'` in the other;
all other items are read back. -/
def ItemsDiffer (b : Build) (t : ScaleType α) (w w' : α) (items items' : List α) : Prop :=
  ∃ before after, items = before ++ w :: after ∧ items' = before ++ w' :: after ∧
    ∀ x ∈ before ++ after, t.ReadsBack b x

/-- `w` and `w'` are equal but for a part of type `t`, which is `v` in `w` and `v'` in `w'`; all
other parts of `w` are read back. -/
inductive DiffersAt (b : Build) {α : Type} (t : ScaleType α) (v v' : α) :
    {β : Type} → ScaleType β → β → β → Prop
  | here : DiffersAt b t v v' t v v'
  | optional {β : Type} {u : ScaleType β} {w w' : β} (hbool : u.isBool? = none) :
    DiffersAt b t v v' u w w' → DiffersAt b t v v' (.optional u) (some w) (some w')
  | first {β γ : Type} {u : ScaleType β} {w w' : β} (u' : ScaleType γ) (y : γ)
      (hy : u'.ReadsBack b y) :
    DiffersAt b t v v' u w w' → DiffersAt b t v v' (.pair u u') (w, y) (w', y)
  | second {β γ : Type} {u : ScaleType β} {w w' : β} (u' : ScaleType γ) (y : γ)
      (hy : u'.ReadsBack b y) :
    DiffersAt b t v v' u w w' → DiffersAt b t v v' (.pair u' u) (y, w) (y, w')
  | tuple {m : ℕ} {βs : Fin m → Type} (us : ∀ i, ScaleType (βs i)) (i : Fin m) (x x' : ∀ i, βs i)
      (hrest : ∀ j, j ≠ i → x' j = x j ∧ (us j).ReadsBack b (x j)) :
    DiffersAt b t v v' (us i) (x i) (x' i) → DiffersAt b t v v' (.tuple us) x x'
  | variant {m : ℕ} {βs : Fin m → Type} (us : ∀ i, ScaleType (βs i)) (hm : m ≤ 256) (i : Fin m)
      {w w' : βs i} :
    DiffersAt b t v v' (us i) w w' →
      DiffersAt b t v v' (.variant us hm) (.holds i w) (.holds i w')
  | pointer {heap : Bool} {β : Type} {u : ScaleType β} {w w' : β} (allocated : heap = true) :
    DiffersAt b t v v' u w w' →
      DiffersAt b t v v' (.pointer heap u) (.to w allocated) (.to w' allocated)
  | staticCollection {k : ℕ} {β : Type} {u : ScaleType β} {w w' : β} (c c' : List.Vector β k)
      (hitems : ItemsDiffer b u w w' c.1 c'.1) :
    DiffersAt b t v v' u w w' → DiffersAt b t v v' (.staticCollection k u) c c'
  | resizeable {cap : Capacity} {β : Type} {u : ScaleType β} {w w' : β} (c c' : Collection cap β)
      (hcount : CountReadsBack b c.items) (hitems : ItemsDiffer b u w w' c.items c'.items) :
    DiffersAt b t v v' u w w' → DiffersAt b t v v' (.resizeable cap u) c c'
  | extensibleBack {cap : Capacity} {β : Type} {u : ScaleType β} {w w' : β}
      (c c' : Collection cap β) (hcount : CountReadsBack b c.items)
      (hitems : ItemsDiffer b u w w' c.items c'.items) :
    DiffersAt b t v v' u w w' → DiffersAt b t v v' (.extensibleBack cap u) c c'
  -- `c'` is what all items make when they are emplaced one after the other
  | randomExtensible {cap : Capacity} {β : Type} {u : ScaleType β} {w w' : β} {order : Compare β}
      (c c' : OrderedCollection cap order) (items' : List β) (hcount : CountReadsBack b c.items)
      (hitems : ItemsDiffer b u w w' c.items items')
      (hc' : c'.items = items'.foldl (fun ys y => order.insert y ys) []) :
    DiffersAt b t v v' u w w' → DiffersAt b t v v' (.randomExtensible cap order u) c c'

/-- Wherever the variant is a part of a larger value, one and the same variant is read in its place,
and all other parts as themselves. -/
def RestReadsBack (b : Build) (ts : ∀ i, ScaleType (αs i)) (hn : n ≤ 256) (v : Variant αs) :
    Prop :=
  ∃ v', ∀ {β : Type} (u : ScaleType β) (w w' : β), DiffersAt b (.variant ts hn) v v' u w w' →
    ReadsAs encoderSink decoderSource (u.toStream b w) (u.fromStream b) w'

/-- What is written of `v`, together with an index in front of it, is read to its end. -/
def ScaleType.ReadToEnd (b : Build) (t : ScaleType α) (v : α) : Prop :=
  ∀ p : List UInt8, p.length + 1 < 2 ^ 63 → Writes (t.toStream b v) p →
    ∃ v', Reads (t.fromStream b) p v'

end ScaleCodec
