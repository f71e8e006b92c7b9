import ScaleCodec.Equiv.Grammar

/-!
# How many items a decoded value has

No value has more items than bytes it was decoded from, at any nesting of collections
(`countItems_le`).  This is for the types whose items all take space (`ItemsTakeSpace`): what is
spelled by nothing comes as often as the count in front of it says, and for every type of items it
is one or the other (`decode_items_dichotomy`).
-/

namespace ScaleCodec

open Grammar

variable {α β : Type} {n : ℕ} {αs : Fin n → Type} {b : Build} {cap : Capacity}

/-- `sizeof`. -/
def Integral.bytes : Integral β → ℕ
  | .bool => 1
  | .int _ size => size.bytes

/-- A number of bytes that every spelling has. -/
def ScaleType.minSize : {α : Type} → ScaleType α → ℕ
  | _, integral i => i.bytes
  | _, enum i _ => i.bytes
  | _, bigFixedWidthInteger T => T.bytes
  | _, compact _ => 1
  | _, optional _ => 1
  | _, pair t u => t.minSize + u.minSize
  | _, tuple ts => ∑ i, (ts i).minSize
  | _, variant ts _ => 1 + (List.ofFn fun i => (ts i).minSize).min?.getD 0
  | _, pointer _ t => t.minSize
  | _, staticCollection n t => n * t.minSize
  | _, resizeable _ _ => 1
  | _, vectorBool _ => 1
  | _, bitVec _ => 1
  | _, extensibleBack _ _ => 1
  | _, randomExtensible _ _ _ => 1

/-- No item of a dynamic collection is spelled by nothing. -/
def ScaleType.ItemsTakeSpace : {α : Type} → ScaleType α → Prop
  | _, integral _ => True
  | _, enum _ _ => True
  | _, bigFixedWidthInteger _ => True
  | _, compact _ => True
  | _, optional t => t.ItemsTakeSpace
  | _, pair t u => t.ItemsTakeSpace ∧ u.ItemsTakeSpace
  | _, tuple ts => ∀ i, (ts i).ItemsTakeSpace
  | _, variant ts _ => ∀ i, (ts i).ItemsTakeSpace
  | _, pointer _ t => t.ItemsTakeSpace
  | _, staticCollection _ t => t.ItemsTakeSpace
  | _, resizeable _ t => 0 < t.minSize ∧ t.ItemsTakeSpace
  | _, vectorBool _ => True
  | _, bitVec _ => True
  | _, extensibleBack _ t => 0 < t.minSize ∧ t.ItemsTakeSpace
  | _, randomExtensible _ _ t => 0 < t.minSize ∧ t.ItemsTakeSpace

/-- The items of the alternative held. -/
def variantItems (f : ∀ i, αs i → ℕ) : Variant αs → ℕ
  | .valueless => 0
  | .holds i x => f i x

/-- The items of the pointee. -/
def pointerItems {heap : Bool} (f : α → ℕ) : Pointer heap α → ℕ
  | .null => 0
  | .to x _ => f x

/-- The items, and the items in these. -/
def collectionItems (f : α → ℕ) (items : List α) : ℕ :=
  (items.map fun x => f x + 1).sum

/-- The items of all dynamic collections in a value; the ones of a `BitVec` are its bytes. -/
def ScaleType.countItems : {α : Type} → ScaleType α → α → ℕ
  | _, integral _, _ => 0
  | _, enum _ _, _ => 0
  | _, bigFixedWidthInteger _, _ => 0
  | _, compact _, _ => 0
  | _, optional t, v => v.elim 0 t.countItems
  | _, pair t u, v => t.countItems v.1 + u.countItems v.2
  | _, tuple ts, v => ∑ i, (ts i).countItems (v i)
  | _, variant ts _, v => variantItems (fun i => (ts i).countItems) v
  | _, pointer _ t, v => pointerItems t.countItems v
  | _, staticCollection _ t, v => (v.1.map t.countItems).sum
  | _, resizeable _ t, v => collectionItems t.countItems v.items
  | _, vectorBool _, v => v.items.length
  | _, bitVec _, v => (v.bits.items.length + 7) / 8
  | _, extensibleBack _ t, v => collectionItems t.countItems v.items
  | _, randomExtensible _ _ t, v => collectionItems t.countItems v.items

/-! ### Spellings of values -/

theorem length_integralBytes (i : Integral β) (v : β) : (integralBytes i v).length = i.bytes := by
  cases i with
  | bool => rfl
  | int signed size => rw [integralBytes, LittleEndian.length_bytes, Integral.bytes]

theorem atLeast_number (b : Build) : AtLeast (fun _ => 1) (numberGrammar b) := by
  intro x bs hbs
  cases b with
  | default =>
    obtain ⟨hx, rfl⟩ := hbs
    obtain ⟨⟨c, q, hcq, _⟩, _⟩ := isForm_compactBytes hx
    rw [hcq]
    exact Nat.succ_pos _
  | jam =>
    obtain ⟨l, y, q, _, _, _, rfl⟩ := hbs
    exact Nat.succ_pos _

theorem countItems_of_isBool {t : ScaleType α} (h : t.isBool? ≠ none) (v : α) :
    t.countItems v = 0 := by
  cases t with
  | integral i => rfl
  | _ => exact absurd rfl h

theorem atLeast_optional {f : α → ℕ} {m : ℕ} {G : Grammar UInt8 α}
    (h : AtLeast (fun x => f x + m) G) (isBool : Option (PLift (α = Bool)))
    (hbool : isBool ≠ none → ∀ x, f x = 0) :
    AtLeast (fun v : Option α => v.elim 0 f + 1) (optionalGrammar isBool G) := by
  rintro (_ | x) bs hbs
  · cases hbs
    exact Nat.le_refl _
  · cases isBool with
    | none =>
      obtain ⟨q, hq, rfl⟩ := hbs
      exact Nat.succ_le_succ ((Nat.le_add_right _ m).trans (h x q hq))
    | some isBool =>
      cases hbs
      exact Nat.succ_le_succ (hbool (Option.some_ne_none _) x).le

theorem atLeast_variant {f : ∀ i, αs i → ℕ} {m : Fin n → ℕ} {G : ∀ i, Grammar UInt8 (αs i)}
    (h : ∀ i, AtLeast (fun x => f i x + m i) (G i)) :
    AtLeast (fun v => variantItems f v + (1 + (List.ofFn m).min?.getD 0)) fun v bs =>
      ∃ i x q, v = .holds i x ∧ G i x q ∧ bs = UInt8.ofNat i :: q := by
  rintro _ _ ⟨i, x, q, rfl, hq, rfl⟩
  have hx : f i x + m i ≤ q.length := h i x q hq
  have hmin : (List.ofFn m).min?.getD 0 ≤ m i := by
    cases hm : (List.ofFn m).min? with
    | none => exact Nat.zero_le _
    | some k => exact (List.min?_eq_some_iff.mp hm).2 _ (List.mem_ofFn.mpr ⟨i, rfl⟩)
  show f i x + _ ≤ q.length + 1
  omega

theorem atLeast_counted {f : α → ℕ} {m : ℕ} {G : Grammar UInt8 α} (hm : 0 < m)
    (h : AtLeast (fun x => f x + m) G) :
    AtLeast (fun items => collectionItems f items + 1) (countedGrammar b G) := by
  rintro items _ ⟨p, q, ⟨_, hp⟩, hq, rfl⟩
  have hcount : 1 ≤ p.length := atLeast_number b _ _ hp
  have hspace : AtLeast (fun x => f x + 1) G := fun x bs hbs =>
    (Nat.add_le_add_left hm _).trans (h x bs hbs)
  have hitems : collectionItems f items ≤ q.length := hspace.each hq
  rw [List.length_append, Nat.add_comm p.length]
  exact Nat.add_le_add hitems hcount

/-- Emplacing items makes no more of them. -/
theorem sum_map_insertAll_le (f : α → ℕ) (order : Compare α) (items ys : List α) :
    ((order.insertAll items ys).map f).sum ≤ (items.map f).sum + (ys.map f).sum := by
  have hinsert : ∀ x ys, ((order.insert x ys).map f).sum ≤ f x + (ys.map f).sum := by
    intro x ys
    induction ys with
    | nil => rfl
    | cons y ys ih =>
      unfold Compare.insert
      split_ifs <;> simp only [List.map_cons, List.sum_cons] <;> omega
  induction items generalizing ys with
  | nil => exact (Nat.zero_add _).symm.le
  | cons x items ih =>
    have hrest := ih (order.insert x ys)
    have hfirst := hinsert x ys
    rw [List.map_cons, List.sum_cons]
    show ((order.insertAll items (order.insert x ys)).map f).sum ≤ _
    omega

open ScaleType in
/-- A value is spelled in at least as many bytes as it has items. -/
theorem atLeast_spells (b : Build) (t : ScaleType α) (ht : t.ItemsTakeSpace) :
    AtLeast (fun v => t.countItems v + t.minSize) (t.Spells b) := by
  induction t with
  | integral i =>
    rintro v _ rfl
    exact (Nat.zero_add _).trans_le (length_integralBytes i v).ge
  | enum i traits =>
    rintro v _ ⟨_, rfl⟩
    exact (Nat.zero_add _).trans_le (length_integralBytes i v).ge
  | bigFixedWidthInteger T =>
    rintro v bs ⟨hlen, _⟩
    exact (Nat.zero_add _).trans_le hlen.ge
  | compact T =>
    rintro v bs ⟨x, hx, _⟩
    exact atLeast_number b x bs hx
  | optional t ih => exact atLeast_optional (ih ht) t.isBool? countItems_of_isBool
  | pair t u iht ihu =>
    rintro v _ ⟨p, q, hp, hq, rfl⟩
    have hsum := Nat.add_le_add (iht ht.1 _ p hp) (ihu ht.2 _ q hq)
    rw [List.length_append]
    exact (Nat.add_add_add_comm _ _ _ _).trans_le hsum
  | tuple ts ih =>
    intro v bs hbs
    have hparts := AtLeast.product (fun i => ih i (ht i)) hbs
    rwa [Finset.sum_add_distrib] at hparts
  | variant ts hn ih => exact atLeast_variant fun i => ih i (ht i)
  | pointer heap t ih =>
    rintro _ bs ⟨x, allocated, rfl, hx⟩
    exact ih ht x bs hx
  | staticCollection n t ih =>
    rintro ⟨items, rfl⟩ bs hbs
    have hitems := (ih ht).each hbs
    rwa [List.sum_map_add, List.map_const', List.sum_replicate, smul_eq_mul] at hitems
  | resizeable cap t ih => exact fun v => atLeast_counted ht.1 (ih ht.2) v.items
  | vectorBool cap =>
    intro v bs hbs
    have hbool : AtLeast (fun _ => 0 + 1) fun (x : Bool) bs => bs = integralBytes .bool x := by
      rintro x _ rfl
      exact Nat.le_refl _
    have hcount : collectionItems (fun _ => 0) v.items = v.items.length := by
      simp [collectionItems]
    have hitems : collectionItems (fun _ => 0) v.items + 1 ≤ bs.length :=
      atLeast_counted Nat.one_pos hbool v.items bs hbs
    rwa [hcount] at hitems
  | bitVec cap =>
    rintro v _ ⟨p, q, ⟨_, hp⟩, hq, _, rfl⟩
    rw [List.length_append, Nat.add_comm p.length]
    exact Nat.add_le_add hq.ge (atLeast_number b _ _ hp)
  | extensibleBack cap t ih => exact fun v => atLeast_counted ht.1 (ih ht.2) v.items
  | randomExtensible cap order t ih =>
    rintro v bs ⟨items, hitems, _, _, hv⟩
    have hcounted := atLeast_counted ht.1 (ih ht.2) items bs hitems
    have hsum := sum_map_insertAll_le (fun x => t.countItems x + 1) order items []
    rw [← hv] at hsum
    exact (Nat.add_le_add_right hsum 1).trans hcounted

/-- Decoding moves on by at least as many bytes as there are items in the decoded value, and by at
least as many as every value of the type has. -/
theorem countItems_le {t : ScaleType α} (ht : t.ItemsTakeSpace) (left : Leftovers)
    {s s' : ScaleDecoderStream} (hs : s.Valid) {v : α}
    (h : decodeFrom b left t s = (.ok (.ok v), s')) :
    s.currentIndex + (t.countItems v + t.minSize) ≤ s'.currentIndex := by
  obtain ⟨p, ⟨_, rfl⟩, hp⟩ := (decodeFrom_iff_spells b left t hs v s').mp h
  exact Nat.add_le_add_left (atLeast_spells b t ht v p hp) _

/-- Two vectors in a vector, of five items altogether. -/
theorem countItems_le_nested :
    0 + ((ScaleType.resizeable ⟨4, 4, by decide⟩ (.resizeable ⟨4, 4, by decide⟩
      (.integral .bool))).countItems ⟨[⟨[true], by decide⟩, ⟨[false, true], by decide⟩],
        by decide⟩ + 1) ≤ 6 := by
  have ht : (ScaleType.resizeable ⟨4, 4, by decide⟩
      (.resizeable ⟨4, 4, by decide⟩ (.integral .bool))).ItemsTakeSpace :=
    ⟨Nat.one_pos, Nat.one_pos, trivial⟩
  have hrun : ScaleType.fromStream .default
      (.resizeable ⟨4, 4, by decide⟩ (.resizeable ⟨4, 4, by decide⟩ (.integral .bool)))
      (.ofSpan ⟨[8, 4, 1, 8, 0, 1], by decide⟩) =
      .ok ⟨[⟨[true], by decide⟩, ⟨[false, true], by decide⟩], by decide⟩
        ⟨⟨[8, 4, 1, 8, 0, 1], by decide⟩, 6⟩ := rfl
  have left : Leftovers := ⟨ScaleType.valueInit, ScaleType.valueInit, fun _ v => v⟩
  exact countItems_le ht left (by decide) (decodeFrom_of_ok left hrun)

/-! ### Items that take no space -/

theorem each_replicate_nil {G : Grammar UInt8 α} {x : α} (hx : G x []) (k : ℕ) :
    each G (List.replicate k x) [] := by
  induction k with
  | zero => exact each_nil.mpr rfl
  | succ k ih => exact each_cons.mpr ⟨[], [], hx, ih, rfl⟩

theorem length_sizeForm_le {k : ℕ} (hk : k < 2 ^ 64) : (compactForm b k).length ≤ 9 := by
  cases b with
  | jam =>
    have hle := jamTail_le k
    show (jamBytes k).length ≤ 9
    rw [length_jamBytes]
    omega
  | default =>
    show (compactBytes k).length ≤ 9
    rcases Nat.lt_or_ge k (2 ^ 30) with hlt | hge
    · rw [length_compactBytes_of_lt hlt]
      split_ifs <;> omega
    · have hbytes : LittleEndian.length k ≤ 8 := (LittleEndian.length_le_iff k 8).mpr hk
      rw [length_compactBytes_of_le hge]
      omega

theorem lengthGrammar_sizeForm {k : ℕ} (hk : k < 2 ^ 64) :
    lengthGrammar b k (compactForm b k) := by
  refine ⟨hk, ?_⟩
  cases b with
  | default => exact ⟨hk.trans_le (two_pow_le 64 536 (by omega)), rfl⟩
  | jam =>
    have hle : (compactForm .jam k).length ≤ 9 := length_sizeForm_le hk
    exact (iff_reads_of_parses (parses_number .jam) (by omega)).mpr (reads_jamBytes hk)

theorem decode_eq_ok {t : ScaleType α} {data : ConstSpanOfBytes} {v : α}
    (h : decode b t data = .ok (.ok v)) : ∃ s', t.fromStream b (.ofSpan data) = .ok v s' := by
  rw [decode, outcomeCatch] at h
  cases hrun : t.fromStream b (.ofSpan data) with
  | ok v' s' =>
    rw [hrun] at h
    cases h
    exact ⟨s', rfl⟩
  | error e s' =>
    rw [hrun] at h
    cases e <;> cases h

/-- Either the items of a decoded vector are fewer than the bytes it was decoded from, or nine bytes
are enough for any number of items that the vector can have. -/
theorem decode_items_dichotomy (b : Build) (cap : Capacity) (t : ScaleType α) :
    (∀ (data : ConstSpanOfBytes) (v : Collection cap α),
      decode b (.resizeable cap t) data = .ok (.ok v) → v.items.length < data.size) ∨
    ∀ k, cap.Admits k → ∃ (data : ConstSpanOfBytes) (v : Collection cap α), data.size ≤ 9 ∧
      decode b (.resizeable cap t) data = .ok (.ok v) ∧ v.items.length = k := by
  by_cases hspace : ∃ x, t.Spells b x []
  · right
    obtain ⟨x, hx⟩ := hspace
    intro k hk
    have hle : (compactForm b k).length ≤ 9 := length_sizeForm_le hk.lt
    have hlt : (compactForm b k).length < 2 ^ 63 := by omega
    have hspells : (ScaleType.resizeable cap t).Spells b ⟨List.replicate k x, by simpa using hk⟩
        (compactForm b k) := by
      refine ⟨compactForm b k, [], ?_, each_replicate_nil hx k, (List.append_nil _).symm⟩
      rw [List.length_replicate]
      exact lengthGrammar_sizeForm hk.lt
    exact ⟨⟨compactForm b k, hlt⟩, _, hle,
      decode_eq ((spells_iff_reads hlt).mp hspells) List.prefix_rfl, List.length_replicate⟩
  · left
    intro data v h
    have hs := ScaleDecoderStream.valid_ofSpan data
    obtain ⟨s', hrun⟩ := decode_eq_ok h
    obtain ⟨_, hp, q, q', ⟨_, hcount⟩, hitems, rfl⟩ := (parses_fromStream b _ _ v s' hs).mp hrun
    have hleast : AtLeast (fun _ => 1) (t.Spells b) := by
      intro x bs hbs
      by_contra hlt
      obtain rfl := List.length_eq_zero_iff.mp (Nat.lt_one_iff.mp (Nat.not_le.mp hlt))
      exact hspace ⟨x, hbs⟩
    have hq : 1 ≤ q.length := atLeast_number b _ q hcount
    have hq' := hleast.each hitems
    have hle : (q ++ q').length ≤ data.size := hp.1.length_le
    rw [List.map_const', List.sum_replicate, smul_eq_mul, Nat.mul_one] at hq'
    rw [List.length_append] at hle
    omega

end ScaleCodec
