import ScaleCodec.DynamicCollections
import ScaleCodec.Equiv.InPlace
import ScaleCodec.Equiv.ReadBack

/-!
# All decoders of dynamic collections read the same list

Each of the loops decodes the items one after the other, and makes of them what `DynamicDecoder`
says: those that are given their size keep the list (`decodeList_of_sized`), and those that emplace
build their contents by insertion (`emplaceAll_eq_ok`), which sorts the list stably or leaves the
first occurrences.  What was decoded as a set is read back under the condition of `readsBack_iff`.
-/

namespace ScaleCodec

open WeakOrder

variable {α γ : Type} {b : Build} {cap : Capacity} {s s' : ScaleDecoderStream}

/-! ### The list -/

theorem decodeList_eq_ok {d : Decoding α} {xs : List α} (h : decodeList b d s = .ok xs s') :
    ∃ n s₁ items, decodeLength b s = .ok n s₁ ∧ decodeItems d n s₁ = .ok items s' ∧
      xs = items.1 := by
  obtain ⟨n, s₁, hn, hrest⟩ := EStateM.bind_eq_ok.mp h
  obtain ⟨items, s₂, hitems, hpure⟩ := EStateM.bind_eq_ok.mp hrest
  cases hpure
  exact ⟨n, s₁, items, hn, hitems, rfl⟩

theorem decodeList_ok {d : Decoding α} {n : ℕ} {s₁ : ScaleDecoderStream}
    {items : List.Vector α n} (hn : decodeLength b s = .ok n s₁)
    (hitems : decodeItems d n s₁ = .ok items s') : decodeList b d s = .ok items.1 s' := by
  rw [decodeList, EStateM.bind_ok hn, EStateM.bind_ok hitems]
  rfl

/-! ### Collections that are given their size first -/

theorem decodeList_of_sized {d : Decoding α} {c : Collection cap α}
    (h : decodeSized b cap d s = .ok c s') : decodeList b d s = .ok c.items s' := by
  obtain ⟨n, s₁, items, hn, _, hitems, hc⟩ := decodeSized_eq_ok h
  rw [hc]
  exact decodeList_ok hn hitems

theorem sized_of_decodeList {d : Decoding α} {xs : List α} (h : decodeList b d s = .ok xs s')
    (hcap : cap.Admits xs.length) :
    ∃ c : Collection cap α, decodeSized b cap d s = .ok c s' ∧ c.items = xs := by
  obtain ⟨n, s₁, items, hn, hitems, rfl⟩ := decodeList_eq_ok h
  have hlen : items.1.length = n := items.2
  rw [hlen] at hcap
  have hmax : ¬ n > cap.maxSize := Nat.not_lt.mpr hcap.1
  refine ⟨⟨items.1, by rwa [hlen]⟩, ?_, rfl⟩
  rw [decodeSized, EStateM.bind_ok hn, if_neg hmax, catchBadAlloc_of_ok (resize_of_admits hcap),
    pure_bind, EStateM.bind_ok hitems]
  rfl

/-! ### Collections that items are emplaced into -/

/-- Where there is room, `emplace` puts an item among the others by `place`. -/
structure Emplaces (cap : Capacity) (items : γ → List α) (place : α → List α → List α)
    (emplace : γ → α → Decoding γ) : Prop where
  emplace_eq_ok : ∀ {c x s c' s'}, emplace c x s = .ok c' s' → s' = s ∧ items c' = place x (items c)
  emplace_ok : ∀ c x s, cap.Admits ((items c).length + 1) → ∃ c', emplace c x s = .ok c' s
  length_place : ∀ x xs, (place x xs).length ≤ xs.length + 1

theorem insert_eq_insertNew (order : Compare α) (x : α) (ys : List α) :
    order.insert x ys = insertNew order.Before x ys := by
  induction ys with
  | nil => rfl
  | cons y ys ih => rw [Compare.insert, insertNew, ih]

theorem emplaces_ordered (order : Compare α) :
    Emplaces cap (OrderedCollection.items : OrderedCollection cap order → List α)
      (insertNew order.Before) OrderedCollection.emplace where
  emplace_eq_ok {c x s c' s'} h := by
    rw [← insert_eq_insertNew]
    exact emplace_eq_ok h
  emplace_ok c x s hroom := ⟨_, by rw [OrderedCollection.emplace, dif_pos hroom]; rfl⟩
  length_place x xs := by
    rw [← insert_eq_insertNew]
    exact Compare.length_insert_le x xs

theorem emplaces_multi (order : Compare α) :
    Emplaces cap (OrderedMulticollection.items : OrderedMulticollection cap order → List α)
      (List.orderedInsert order.Before) OrderedMulticollection.emplace where
  emplace_eq_ok {c x s c' s'} h := by
    unfold OrderedMulticollection.emplace at h
    split_ifs at h
    · cases h
      exact ⟨rfl, rfl⟩
    · cases h
  emplace_ok c x s hroom := ⟨_, by rw [OrderedMulticollection.emplace, dif_pos hroom]; rfl⟩
  length_place x xs := (List.orderedInsert_length order.Before xs x).le

section Emplace

variable {items : γ → List α} {place : α → List α → List α} {emplace : γ → α → Decoding γ}
  {movedFrom : α → α} {d : α → Decoding α} {d₀ : Decoding α}

/-- The items that were emplaced are those that come next, in order. -/
theorem emplaceAll_eq_ok (hE : Emplaces cap items place emplace) (hd : ∀ x, d x = d₀) {k : ℕ}
    {item : α} {c c' : γ} (h : emplaceAll emplace movedFrom d k item c s = .ok c' s') :
    ∃ xs, decodeItems d₀ k s = .ok xs s' ∧
      items c' = xs.1.foldl (fun ys x => place x ys) (items c) := by
  induction k generalizing item c s with
  | zero =>
    cases h
    exact ⟨.nil, rfl, rfl⟩
  | succ k ih =>
    obtain ⟨x, s₁, hx, hrest⟩ := EStateM.bind_eq_ok.mp h
    obtain ⟨c₁, s₂, hc₁, hloop⟩ := EStateM.bind_eq_ok.mp hrest
    obtain ⟨rfl, hplace⟩ := hE.emplace_eq_ok (catchBadAlloc_eq_ok.mp hc₁)
    obtain ⟨xs, hxs, hc'⟩ := ih hloop
    rw [hd] at hx
    refine ⟨x ::ᵥ xs, ?_, ?_⟩
    · rw [decodeItems, EStateM.bind_ok hx, EStateM.bind_ok hxs]
      rfl
    · rw [hc', hplace]
      rfl

/-- With room for all of them, the items that come next are emplaced. -/
theorem emplaceAll_of_items (hE : Emplaces cap items place emplace) (hd : ∀ x, d x = d₀) {k : ℕ}
    (item : α) (c : γ) {xs : List.Vector α k} (hxs : decodeItems d₀ k s = .ok xs s')
    (hroom : cap.Admits ((items c).length + k)) :
    ∃ c', emplaceAll emplace movedFrom d k item c s = .ok c' s' ∧
      items c' = xs.1.foldl (fun ys x => place x ys) (items c) := by
  induction k generalizing item c s with
  | zero =>
    cases hxs
    exact ⟨c, rfl, rfl⟩
  | succ k ih =>
    obtain ⟨x, s₁, hx, hrest⟩ := EStateM.bind_eq_ok.mp hxs
    obtain ⟨ys, s₂, hys, hpure⟩ := EStateM.bind_eq_ok.mp hrest
    cases hpure
    obtain ⟨c₁, hc₁⟩ := hE.emplace_ok c x s₁ (hroom.mono (by omega))
    have hplace := (hE.emplace_eq_ok hc₁).2
    have hle := hE.length_place x (items c)
    -- an item that is dropped leaves more room than is needed
    obtain ⟨c', hloop, hc'⟩ := ih (movedFrom x) c₁ hys
      (hroom.mono (by rw [hplace]; omega))
    refine ⟨c', ?_, ?_⟩
    · rw [emplaceAll, hd, EStateM.bind_ok hx, EStateM.bind_ok (catchBadAlloc_eq_ok.mpr hc₁)]
      exact hloop
    · rw [hc', hplace]
      rfl

theorem readEmplaceable_eq_ok (hE : Emplaces cap items place emplace) (hd : ∀ x, d x = d₀)
    {item : α} {clear c : γ} (hclear : items clear = [])
    (h : readEmplaceable b cap clear emplace item movedFrom d s = .ok c s') :
    ∃ xs, decodeList b d₀ s = .ok xs s' ∧ items c = xs.foldl (fun ys x => place x ys) [] := by
  obtain ⟨n, s₁, hn, hrest⟩ := EStateM.bind_eq_ok.mp h
  split_ifs at hrest
  · cases hrest
  · obtain ⟨xs, hxs, hc⟩ := emplaceAll_eq_ok hE hd hrest
    rw [hclear] at hc
    exact ⟨xs.1, decodeList_ok hn hxs, hc⟩

variable (movedFrom) in
theorem readEmplaceable_of_list (hE : Emplaces cap items place emplace) (hd : ∀ x, d x = d₀)
    (item : α) (clear : γ) (hclear : items clear = []) {xs : List α}
    (h : decodeList b d₀ s = .ok xs s') (hcap : cap.Admits xs.length) :
    ∃ c, readEmplaceable b cap clear emplace item movedFrom d s = .ok c s' ∧
      items c = xs.foldl (fun ys x => place x ys) [] := by
  obtain ⟨n, s₁, ys, hn, hys, rfl⟩ := decodeList_eq_ok h
  have hlen : ys.1.length = n := ys.2
  rw [hlen] at hcap
  obtain ⟨c, hloop, hc⟩ := emplaceAll_of_items hE hd item clear hys
    (by rwa [hclear, List.length_nil, Nat.zero_add])
  rw [hclear] at hc
  refine ⟨c, ?_, hc⟩
  rw [readEmplaceable, EStateM.bind_ok hn, if_neg (Nat.not_lt.mpr hcap.1)]
  exact hloop

end Emplace

/-- A set is one of the containers the template serves. -/
theorem readRandomExtensible_eq_readEmplaceable (order : Compare α) (item : α)
    (movedFrom : α → α) (d : α → Decoding α) :
    readRandomExtensible b cap order item movedFrom d =
      readEmplaceable b cap .clear OrderedCollection.emplace item movedFrom d := by
  have hloop : ∀ (k : ℕ) (item : α) (c : OrderedCollection cap order),
      emplaceFrom movedFrom d k item c =
        emplaceAll OrderedCollection.emplace movedFrom d k item c := by
    intro k
    induction k with
    | zero =>
      intro item c
      rfl
    | succ k ih =>
      intro item c
      unfold emplaceFrom emplaceAll
      simp only [ih]
  unfold readRandomExtensible readEmplaceable
  simp only [hloop]

/-! ### All of them -/

theorem isWeak_onKey {κ : Type} {order : Compare κ} (h : order.IsWeak) (α : Type) :
    (order.onKey : Compare (κ × α)).IsWeak where
  incomp_trans p q r := h.incomp_trans p.1 q.1 r.1

/-- The first pair with a key is found among the first occurrences. -/
theorem FirstOccurrences.find?_key {κ : Type} {order : Compare κ} (hweak : order.IsWeak)
    {xs ys : List (κ × α)} (h : FirstOccurrences (order.onKey : Compare (κ × α)).Before xs ys)
    (key : κ) : (ys.find? fun p => Equivalent order.Before key p.1) =
      xs.find? fun p => Equivalent order.Before key p.1 := by
  apply h.find?_class
  intro p hp q
  exact isClass_equivalent key p.1 hp q.1

/-- A decoder of a dynamic collection reads the list, and makes of it what it is meant to. -/
theorem DynamicDecoder.eq_ok {t : ScaleType α} {r : Decoding γ} {R : List α → γ → Prop}
    (h : DynamicDecoder b t cap r R) {v : γ} (hr : r s = .ok v s') :
    ∃ xs, decodeList b (t.fromStream b) s = .ok xs s' ∧ R xs v := by
  cases h with
  | resizeable t cap left target =>
    rw [readInto_eq] at hr
    exact ⟨_, decodeList_of_sized hr, rfl⟩
  | vectorBool cap left target =>
    rw [readInto_eq] at hr
    exact ⟨_, decodeList_of_sized hr, rfl⟩
  | extensibleBack t cap left target =>
    rw [readInto_eq] at hr
    exact ⟨_, decodeList_of_sized hr, rfl⟩
  | multiset t cap left order hweak =>
    obtain ⟨xs, hxs, hv⟩ :=
      readEmplaceable_eq_ok (emplaces_multi order) (readInto_eq b left t) rfl hr
    have hsorts := stablySorts_foldl (r := order.Before) xs
    rw [← hv] at hsorts
    exact ⟨xs, hxs, hsorts⟩
  | set t cap left order hweak target =>
    change readRandomExtensible b cap order _ _ _ s = _ at hr
    rw [readRandomExtensible_eq_readEmplaceable] at hr
    obtain ⟨xs, hxs, hv⟩ :=
      readEmplaceable_eq_ok (emplaces_ordered order) (readInto_eq b left t) rfl hr
    have hfirst := firstOccurrences_foldl (r := order.Before) xs
    rw [← hv] at hfirst
    exact ⟨xs, hxs, hfirst, fun heq x => hfirst.mem_iff_mem heq⟩
  | @map κ β t u cap left order hweak target =>
    change readRandomExtensible b cap order.onKey _ _ _ s = _ at hr
    rw [readRandomExtensible_eq_readEmplaceable] at hr
    obtain ⟨xs, hxs, hv⟩ := readEmplaceable_eq_ok (emplaces_ordered order.onKey)
      (readInto_eq b left (.pair t u)) rfl hr
    -- the pairs inherit the order of their keys
    have hkeys := isWeak_onKey hweak β
    have hfirst := firstOccurrences_foldl (r := order.onKey.Before) xs
    rw [← hv] at hfirst
    exact ⟨xs, hxs, fun key => FirstOccurrences.find?_key hweak hfirst key⟩

/-- With room for the items, a decoder of a dynamic collection returns. -/
theorem DynamicDecoder.exists_ok {t : ScaleType α} {r : Decoding γ} {R : List α → γ → Prop}
    (h : DynamicDecoder b t cap r R) {xs : List α}
    (hxs : decodeList b (t.fromStream b) s = .ok xs s') (hcap : cap.Admits xs.length) :
    ∃ v, r s = .ok v s' := by
  cases h with
  | resizeable t cap left target =>
    obtain ⟨c, hc, _⟩ := sized_of_decodeList hxs hcap
    exact ⟨c, by rwa [readInto_eq]⟩
  | vectorBool cap left target =>
    obtain ⟨c, hc, _⟩ := sized_of_decodeList hxs hcap
    exact ⟨c, by rwa [readInto_eq]⟩
  | extensibleBack t cap left target =>
    obtain ⟨c, hc, _⟩ := sized_of_decodeList hxs hcap
    exact ⟨c, by rwa [readInto_eq]⟩
  | multiset t cap left order hweak =>
    obtain ⟨c, hc, _⟩ := readEmplaceable_of_list (left.movedFrom t)
      (emplaces_multi order) (readInto_eq b left t) (left.item t) .clear rfl hxs hcap
    exact ⟨c, hc⟩
  | set t cap left order hweak target =>
    obtain ⟨c, hc, _⟩ := readEmplaceable_of_list (left.movedFrom t)
      (emplaces_ordered order) (readInto_eq b left t) (left.item t) .clear rfl hxs hcap
    rw [← readRandomExtensible_eq_readEmplaceable] at hc
    exact ⟨c, hc⟩
  | map t u cap left order hweak target =>
    obtain ⟨c, hc, _⟩ := readEmplaceable_of_list (left.movedFrom (.pair t u))
      (emplaces_ordered order.onKey) (readInto_eq b left (.pair t u)) (left.item (.pair t u))
      .clear rfl hxs hcap
    rw [← readRandomExtensible_eq_readEmplaceable] at hc
    exact ⟨c, hc⟩

theorem DynamicDecoder.of_list {t : ScaleType α} {r : Decoding γ} {R : List α → γ → Prop}
    (h : DynamicDecoder b t cap r R) {xs : List α}
    (hxs : decodeList b (t.fromStream b) s = .ok xs s') (hcap : cap.Admits xs.length) :
    ∃ v, r s = .ok v s' ∧ R xs v := by
  obtain ⟨v, hv⟩ := h.exists_ok hxs hcap
  obtain ⟨ys, hys, hR⟩ := h.eq_ok hv
  rw [hxs] at hys
  injection hys with heq _
  exact ⟨v, hv, heq ▸ hR⟩

/-- Objects that hold whatever a new one holds. -/
def Leftovers.valueInit : Leftovers where
  alternative t := t.valueInit
  item t := t.valueInit
  movedFrom _ x := x

/-- Where one decoder of a dynamic collection returns, all of them read the same list, from the same
bytes.  A set, or a map, that was decoded from a list of less than `2^30` items is read back iff the
build is the JAM one, or no item that was kept holds a builtin compact integer or the size of a
collection of `2^30` or more. -/
theorem dynamicDecoder_iff {t : ScaleType α} {r : Decoding γ} {R : List α → γ → Prop}
    (h : DynamicDecoder b t cap r R) (order : Compare α) (hweak : order.IsWeak) {v : γ}
    (hs : s.Valid) (hr : r s = .ok v s') :
    ∃ xs, decodeList b (t.fromStream b) s = .ok xs s' ∧
      (((∀ (cap' : Capacity) (γ' : Type) (r' : Decoding γ') (R' : List α → γ' → Prop),
            DynamicDecoder b t cap' r' R' → cap'.Admits xs.length →
            ∃ v', r' s = .ok v' s' ∧ R' xs v') ∧
          (xs.length < 2 ^ 30 → ∀ (cap' : Capacity) (left : Leftovers)
            (target c : OrderedCollection cap' order),
            (ScaleType.set cap' order t).readInto b left target s = .ok c s' →
            (ScaleType.set cap' order t).ReadsBack b c)) ↔
        (b = .default → xs.length < 2 ^ 30 → ∀ x,
          (xs.find? fun y => Equivalent order.Before x y) = some x → t.Below30 x)) := by
  obtain ⟨xs, hxs, _⟩ := h.eq_ok hr
  refine ⟨xs, hxs, ?_, fun hcond => ⟨fun _ _ _ _ hdec hcap => hdec.of_list hxs hcap, ?_⟩⟩
  · rintro ⟨_, hback⟩ rfl hlen x hx
    -- a set with room for just these items
    have hsize : xs.length < 2 ^ 64 := by omega
    obtain ⟨c, hc, hfirst, _⟩ := (DynamicDecoder.set t ⟨xs.length, xs.length, hsize⟩
      Leftovers.valueInit order hweak .clear).of_list hxs ⟨le_rfl, le_rfl⟩
    have hreads := hback hlen _ _ _ c hc
    rw [readInto_eq] at hc
    exact ((readsBack_iff _ hs hc).mp hreads rfl).2 x (hfirst.mem_iff.mpr hx)
  · intro hlen cap' left target c hc
    obtain ⟨ys, hys, hfirst, _⟩ := (DynamicDecoder.set t cap' left order hweak target).eq_ok hc
    rw [hxs] at hys
    injection hys with heq _
    subst heq
    rw [readInto_eq] at hc
    refine (readsBack_iff _ hs hc).mpr fun hb => ⟨hfirst.length_le.trans_lt hlen, ?_⟩
    intro x hx
    -- what the set holds comes first in its class
    exact hcond hb hlen x (hfirst.mem_iff.mp hx)

theorem isWeak_ofUnsigned {w : ℕ} : (Compare.ofUnsigned : Compare (BitVec w)).IsWeak where
  incomp_trans x y z := by
    simp only [Compare.Before, Compare.ofUnsigned, BitVec.ult, decide_eq_true_eq]
    omega

/-- The numbers 3, 1 and 3. -/
theorem dynamicDecoder_iff_uint16 :
    ∃ xs s', decodeList .default (decodeIntegral (.int false .two))
        (.ofSpan ⟨[12, 3, 0, 1, 0, 3, 0], by decide⟩) = .ok xs s' ∧
      (xs.length < 2 ^ 30 → ∀ (cap : Capacity) (left : Leftovers)
        (target c : OrderedCollection cap .ofUnsigned),
        (ScaleType.set cap .ofUnsigned (.integral (.int false .two))).readInto .default left target
          (.ofSpan ⟨[12, 3, 0, 1, 0, 3, 0], by decide⟩) = .ok c s' →
        (ScaleType.set cap .ofUnsigned (.integral (.int false .two))).ReadsBack .default c) := by
  have hrun : (ScaleType.resizeable ⟨4, 4, by decide⟩ (.integral (.int false .two))).readInto
      .default .valueInit ⟨[], by decide⟩ (.ofSpan ⟨[12, 3, 0, 1, 0, 3, 0], by decide⟩) =
      .ok ⟨[3, 1, 3], by decide⟩ ⟨⟨[12, 3, 0, 1, 0, 3, 0], by decide⟩, 7⟩ := by decide +kernel
  obtain ⟨xs, hxs, hiff⟩ := dynamicDecoder_iff
    (.resizeable (.integral (.int false .two)) ⟨4, 4, by decide⟩ .valueInit ⟨[], by decide⟩)
    .ofUnsigned isWeak_ofUnsigned (by decide) hrun
  exact ⟨xs, _, hxs, (hiff.mpr fun _ _ _ _ => trivial).2⟩

/-- `std::set<Compact<uint64_t>>`, with room for four items. -/
abbrev setOfCompact : ScaleType (OrderedCollection ⟨4, 4, by decide⟩
    (.ofUnsigned : Compare (BitVec CompactCompatible.uint64.width))) :=
  .set ⟨4, 4, by decide⟩ .ofUnsigned (.compact .uint64)

/-- The set of `2^30` alone is written as one item that announces 31 bytes and has four. -/
theorem dynamicDecoder_set_refused :
    ∃ c s', setOfCompact.readInto .default .valueInit .clear
        (.ofSpan ⟨[0x04, 0x03, 0, 0, 0, 0x40], by decide⟩) = .ok c s' ∧
      c.items = [.ofNat _ (2 ^ 30)] ∧
      written (setOfCompact.toStream .default c) = [0x04, 0x6f, 0, 0, 0, 0x40] ∧
      ¬ setOfCompact.ReadsBack .default c := by
  have hrun : (OrderedCollection.items <$> setOfCompact.readInto .default .valueInit .clear)
      (.ofSpan ⟨[0x04, 0x03, 0, 0, 0, 0x40], by decide⟩) =
      .ok [.ofNat _ (2 ^ 30)] ⟨⟨[0x04, 0x03, 0, 0, 0, 0x40], by decide⟩, 6⟩ := by decide +kernel
  have hwritten : written (encodeDynamicCollection .default (encodeCompact .default .uint64)
      [.ofNat _ (2 ^ 30)]) = [0x04, 0x6f, 0, 0, 0, 0x40] := by decide +kernel
  have hrefused : (OrderedCollection.items <$> setOfCompact.fromStream .default)
      (.ofSpan ⟨[0x04, 0x6f, 0, 0, 0, 0x40], by decide⟩) =
      .error (.systemError (.decode .notEnoughData))
        ⟨⟨[0x04, 0x6f, 0, 0, 0, 0x40], by decide⟩, 2⟩ := by decide +kernel
  rw [← bind_pure_comp] at hrun hrefused
  obtain ⟨c, s', hc, hpure⟩ := EStateM.bind_eq_ok.mp hrun
  injection hpure with hitems _
  rw [← hitems] at hwritten
  refine ⟨c, s', hc, hitems, hwritten, ?_⟩
  rintro ⟨p, _, hw, hr⟩
  have hp : p = [0x04, 0x6f, 0, 0, 0, 0x40] := (written_eq hw).symm.trans hwritten
  subst hp
  rw [EStateM.bind_ok (hr _ (ScaleDecoderStream.valid_ofSpan _) List.prefix_rfl)] at hrefused
  cases hrefused

end ScaleCodec
