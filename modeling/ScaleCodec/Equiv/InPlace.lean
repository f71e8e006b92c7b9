import ScaleCodec.InPlace

/-!
# Decoding ignores what the target held

Each loop that decodes in place is compared with the one that makes a new value: every item of a
resized collection is overwritten (`overwriteItems_eq`, `assignItems_eq`), every item that is
emplaced has just been decoded (`extendItems_eq`, `emplaceFrom_eq`).  By induction over the type,
`readInto` is `fromStream` whatever the target holds (`readInto_eq`).
-/

namespace ScaleCodec

variable {α β : Type} {n : ℕ} {αs : Fin n → Type} {b : Build} {cap : Capacity}

/-- Two programs whose results differ in the representation only are the same program. -/
theorem map_injective {γ : Type} {f : α → γ} (hf : Function.Injective f) {x y : Decoding α}
    (h : f <$> x = f <$> y) : x = y := by
  funext s
  have hs := congrFun h s
  change EStateM.map f x s = EStateM.map f y s at hs
  unfold EStateM.map at hs
  cases hx : x s <;> cases hy : y s <;> rw [hx, hy] at hs
  · injection hs with hval hstate
    rw [hf hval, hstate]
  · cases hs
  · cases hs
  · injection hs with hexc hstate
    rw [hexc, hstate]

theorem items_injective : Function.Injective (Collection.items : Collection cap α → List α) := by
  rintro ⟨items, _⟩ ⟨_, _⟩ rfl
  rfl

/-- Making a collection of decoded items adds nothing to them. -/
theorem map_items (d : Decoding (List.Vector α n))
    (h : ∀ items : List.Vector α n, cap.Admits items.1.length) :
    Collection.items <$> (d >>= fun items => pure (⟨items.1, h items⟩ : Collection cap α)) =
      List.Vector.toList <$> d := by
  rw [map_bind]
  simp only [map_pure]
  exact bind_pure_comp _ d

/-! ### Items that are overwritten -/

theorem overwriteItems_eq {d : α → Decoding α} {d₀ : Decoding α} (hd : ∀ x, d x = d₀)
    (items : List.Vector α n) : overwriteItems d items = decodeItems d₀ n := by
  induction n with
  | zero => rfl
  | succ n ih =>
    unfold overwriteItems decodeItems
    rw [hd]
    congr 1
    funext x
    rw [ih]
    rfl

theorem take_set (items : List.Vector Bool n) (i : Fin n) (item : Bool) :
    (items.set i item).toList.take (i + 1) = items.toList.take i ++ [item] := by
  have hi : i < items.toList.length := by simp
  rw [List.Vector.toList_set, take_succ_set hi]

/-- After `i` rounds the first `i` items have been assigned. -/
theorem assignItems_eq (k i : ℕ) (items : List.Vector Bool n) (h : i + k = n) :
    List.Vector.toList <$> assignItems k i items =
      (fun rest => items.toList.take i ++ rest.toList) <$> decodeItems decodeBool k := by
  induction k generalizing i items with
  | zero =>
    have hall : items.toList.take i = items.toList := by
      apply List.take_of_length_le
      simp [← h]
    simp [assignItems, decodeItems, hall]
  | succ k ih =>
    have hi : i < n := by omega
    unfold assignItems decodeItems
    simp only [dif_pos hi, map_bind]
    congr 1
    funext item
    -- the first `i + 1` items are the old ones and the new item
    rw [ih (i + 1) _ (by omega), take_set items ⟨i, hi⟩ item]
    simp

theorem overwriteBits_eq (i : ℕ) (byte : UInt8) (bits : List.Vector Bool n) :
    overwriteBits i byte bits = decodeBits n i byte := by
  induction n generalizing i byte with
  | zero => rfl
  | succ n ih =>
    unfold overwriteBits decodeBits
    simp only [ih]
    rfl

/-! ### Items that are put in -/

theorem overwriteBack_concat {d : α → Decoding α} {d₀ : Decoding α} (hd : ∀ x, d x = d₀)
    (items : List α) (x : α) (h : cap.Admits (items ++ [x]).length)
    (h' : ∀ y, cap.Admits (items ++ [y]).length) :
    (⟨items ++ [x], h⟩ : Collection cap α).overwriteBack d =
      d₀ >>= fun y => pure ⟨items ++ [y], h' y⟩ := by
  unfold Collection.overwriteBack
  split
  · next hlast => simp at hlast
  · next item hlast =>
    rw [hd]
    congr 1
    funext y
    congr 1
    apply items_injective
    simp

/-- There is room for every item that is put at the end. -/
theorem extendItems_eq {d : α → Decoding α} {d₀ : Decoding α} (hd : ∀ x, d x = d₀) (fresh : α)
    (k : ℕ) (collection : Collection cap α) (h : cap.Admits (collection.items.length + k)) :
    Collection.items <$> extendItems fresh d k collection =
      (fun rest => collection.items ++ rest.toList) <$> decodeItems d₀ k := by
  induction k generalizing collection with
  | zero => simp [extendItems, decodeItems]
  | succ k ih =>
    have hroom : cap.Admits (collection.items.length + 1) := h.mono (by omega)
    have hroom' : ∀ y, cap.Admits (collection.items ++ [y]).length := by
      intro y
      rwa [List.length_append]
    unfold extendItems decodeItems
    -- the item put at the end is decoded into at once, so that nothing is left of it
    rw [Collection.emplaceBack, dif_pos hroom, pure_bind, overwriteBack_concat hd _ _ _ hroom']
    simp only [bind_assoc, pure_bind, map_bind]
    congr 1
    funext y
    rw [ih _ (by rw [List.length_append]; exact h.mono (by simp; omega))]
    simp

theorem emplaceFrom_eq {order : Compare α} {movedFrom : α → α} {d : α → Decoding α}
    {d₀ : Decoding α} (hd : ∀ x, d x = d₀) (k : ℕ) (item : α)
    (collection : OrderedCollection cap order) :
    emplaceFrom movedFrom d k item collection = emplaceItems d₀ k collection := by
  induction k generalizing item collection with
  | zero => rfl
  | succ k ih =>
    unfold emplaceFrom emplaceItems
    simp only [hd, ih]

/-! ### Values with parts -/

theorem readOptional_eq (isBool : Option (PLift (α = Bool))) (fresh : α) {d : α → Decoding α}
    {d₀ : Decoding α} (hd : ∀ x, d x = d₀) :
    readOptional isBool fresh d = decodeOptional isBool d₀ := by
  cases isBool with
  | some h => rfl
  | none =>
    unfold readOptional decodeOptional
    simp only [hd]

theorem readPair_eq {d : α → Decoding α} {d₀ : Decoding α} {d' : β → Decoding β}
    {d₀' : Decoding β} (hd : ∀ x, d x = d₀) (hd' : ∀ y, d' y = d₀') (p : α × β) :
    readPair d d' p = decodePair d₀ d₀' := by
  unfold readPair decodePair
  rw [hd, hd']

theorem readElementsOfTuple_eq {d : ∀ i, αs i → Decoding (αs i)} {d₀ : ∀ i, Decoding (αs i)}
    (hd : ∀ i x, d i x = d₀ i) (v : ∀ i, αs i) :
    readElementsOfTuple d v = decodeElementsOfTuple d₀ := by
  induction n with
  | zero => rfl
  | succ n ih =>
    show (d 0 (v 0) >>= fun x => readElementsOfTuple (fun i => d i.succ) (fun i => v i.succ) >>=
      fun xs => pure (Fin.cons x xs)) = _
    rw [hd, ih fun i => hd i.succ]
    rfl

theorem readVariant_eq (val : ∀ i, αs i) {d : ∀ i, αs i → Decoding (αs i)}
    {d₀ : ∀ i, Decoding (αs i)} (hd : ∀ i x, d i x = d₀ i) :
    readVariant val d = decodeVariant d₀ := by
  unfold readVariant decodeVariant
  simp only [hd]

/-! ### Collections -/

theorem readResizeable_eq (fresh : α) {d : α → Decoding α} {d₀ : Decoding α}
    (hd : ∀ x, d x = d₀) (collection : Collection cap α) :
    readResizeable b fresh d collection = decodeResizeable b cap d₀ := by
  unfold readResizeable decodeResizeable decodeSized
  simp only [overwriteItems_eq hd]

theorem readVectorBool_eq (collection : Collection cap Bool) :
    readVectorBool b collection = decodeVectorBool b cap := by
  unfold readVectorBool decodeVectorBool decodeSized
  congr 1
  funext k
  split_ifs
  · rfl
  · congr 1
    funext admits
    apply map_injective items_injective
    rw [map_items, map_items, assignItems_eq k 0 _ (Nat.zero_add k)]
    rfl

theorem readBitVec_eq (v : BitVecValue cap) : readBitVec b v = decodeBitVec b cap := by
  unfold readBitVec decodeBitVec
  simp only [overwriteBits_eq]

theorem readExtensibleBack_eq (fresh : α) {d : α → Decoding α} {d₀ : Decoding α}
    (hd : ∀ x, d x = d₀) :
    readExtensibleBack b cap fresh d = decodeExtensibleBack b cap d₀ := by
  unfold readExtensibleBack decodeExtensibleBack decodeSized
  congr 1
  funext k
  split_ifs
  · rfl
  · congr 1
    funext admits
    apply map_injective items_injective
    rw [map_items, extendItems_eq hd fresh k _ (by simpa using admits.down)]
    rfl

theorem readRandomExtensible_eq (order : Compare α) (item : α) (movedFrom : α → α)
    {d : α → Decoding α} {d₀ : Decoding α} (hd : ∀ x, d x = d₀) :
    readRandomExtensible b cap order item movedFrom d = decodeRandomExtensible b cap order d₀ := by
  unfold readRandomExtensible decodeRandomExtensible
  simp only [emplaceFrom_eq hd]

/-! ### The whole format -/

open ScaleType in
/-- Decoding into an object is decoding, whatever the object holds and whatever the objects hold
that are made on the way. -/
theorem readInto_eq (b : Build) (left : Leftovers) (t : ScaleType α) (v : α) :
    t.readInto b left v = t.fromStream b := by
  induction t with
  | integral i => rfl
  | enum i traits => rfl
  | bigFixedWidthInteger T => rfl
  | compact T => rfl
  | optional t ih => exact readOptional_eq t.isBool? _ ih
  | pair t u iht ihu => exact readPair_eq iht ihu v
  | tuple ts ih => exact readElementsOfTuple_eq ih v
  | variant ts hn ih => exact readVariant_eq _ ih
  | pointer heap t ih => exact congrArg makePointer (ih _)
  | staticCollection n t ih => exact overwriteItems_eq ih v
  | resizeable cap t ih => exact readResizeable_eq _ ih v
  | vectorBool cap => exact readVectorBool_eq v
  | bitVec cap => exact readBitVec_eq v
  | extensibleBack cap t ih => exact readExtensibleBack_eq _ ih
  | randomExtensible cap order t ih => exact readRandomExtensible_eq order _ _ ih

/-- Two targets of a type are decoded into alike: both runs raise the same exception or return the
same value, at the same position, which is what decoding into nothing does. -/
theorem readInto_ignores_target (b : Build) (t : ScaleType α) (left left' : Leftovers) (v v' : α)
    (s : ScaleDecoderStream) :
    t.readInto b left v s = t.readInto b left' v' s ∧
      t.readInto b left v s = t.fromStream b s := by
  rw [readInto_eq, readInto_eq]
  exact ⟨rfl, rfl⟩

end ScaleCodec
