import ScaleCodec.UnorderedCollections
import ScaleCodec.Lib.Alike
import ScaleCodec.Equiv.DynamicCollections
import ScaleCodec.Equiv.Outputs

/-!
# Unordered containers hold what ordered ones do

Whatever the policy of its hash table, an unordered container is decoded from the same bytes as the
ordered one, into the same items up to their order, and fails where that one fails with the same
exception (`unordered_refines_ordered`), if both can have as many items as are announced: the loop
preserves what `emplace` does (`emplaceAll_alike`).  Its round trip may change the order of the
items, but neither the items nor the number of bytes (`unordered_roundTrip`).
-/

namespace ScaleCodec

open WeakOrder EStateM Emission

variable {α γ γ' : Type} {b : Build} {cap cap' : Capacity} {multi : Bool} {table : HashTable α}
  {order : Compare α}

/-! ### One template for two containers -/

section Template

variable {R : ℕ → γ → γ' → Prop} {emplace : γ → α → Decoding γ} {emplace' : γ' → α → Decoding γ'}

theorem catchBadAlloc_alike {β β' : Type} {S : β → β' → Prop} {x : Decoding β} {y : Decoding β'}
    (h : Alike S x y) : Alike S (catchBadAlloc x) (catchBadAlloc y) := by
  refine h.tryCatch fun e => ?_
  split_ifs
  · exact alike_throw _
  · exact alike_throw _

/-- The loop over `k` items preserves what one item does; `R k` relates two containers that `k`
items are still to be put into. -/
theorem emplaceAll_alike (movedFrom : α → α) (d : α → Decoding α)
    (hemplace : ∀ k c c' x, R (k + 1) c c' → Alike (R k) (emplace c x) (emplace' c' x)) (k : ℕ)
    (item : α) {c : γ} {c' : γ'} (hc : R k c c') :
    Alike (R 0) (emplaceAll emplace movedFrom d k item c)
      (emplaceAll emplace' movedFrom d k item c') := by
  induction k generalizing item c c' with
  | zero => exact alike_pure hc
  | succ k ih =>
    refine Alike.bind_left (d item) fun x => ?_
    exact (catchBadAlloc_alike (hemplace k c c' x hc)).bind fun c₁ c₁' hc₁ =>
      ih (movedFrom x) hc₁

/-- Where both containers can have as many items as are announced, they are decoded alike. -/
theorem readEmplaceable_alike {s : ScaleDecoderStream} (item : α) (movedFrom : α → α)
    (d : α → Decoding α)
    (hemplace : ∀ k c c' x, R (k + 1) c c' → Alike (R k) (emplace c x) (emplace' c' x)) {c : γ}
    {c' : γ'} (hc : ∀ k, cap.Admits k ∧ cap'.Admits k → R k c c')
    (hcount : ∀ k s₁, decodeLength b s = .ok k s₁ → cap.Admits k ∧ cap'.Admits k) :
    Result.Alike (R 0) (readEmplaceable b cap c emplace item movedFrom d s)
      (readEmplaceable b cap' c' emplace' item movedFrom d s) := by
  refine (alike_refl (decodeLength b) s).bind ?_
  rintro k _ s₁ hk _ rfl
  have hadmits := hcount k s₁ hk
  rw [if_neg (Nat.not_lt.mpr hadmits.1.1), if_neg (Nat.not_lt.mpr hadmits.2.1)]
  exact emplaceAll_alike movedFrom d hemplace k item (hc k hadmits) s₁

end Template

/-! ### `emplace` -/

section Emplace

variable {c : UnorderedCollection cap multi table} {x : α}

theorem emplace_of_new (hroom : cap.Admits (c.items.length + 1))
    (hnew : multi = false → c.items.any (table.keyEqual x) = false) :
    ∃ c₁, c.emplace x = pure c₁ ∧ c₁.items.Perm (x :: c.items) := by
  unfold UnorderedCollection.emplace
  rw [dif_pos hroom, dif_pos hnew]
  exact ⟨_, rfl, table.place_perm c.buckets x c.items⟩

theorem emplace_of_any (hroom : cap.Admits (c.items.length + 1)) (hm : multi = false)
    (hany : c.items.any (table.keyEqual x) = true) : c.emplace x = pure c := by
  unfold UnorderedCollection.emplace
  rw [dif_pos hroom, dif_neg fun hnew => absurd (hnew hm) (by rw [hany]; decide)]

end Emplace

/-! ### Against the ordered containers -/

/-- The two lists have the same items, and the containers of both room for `k` more. -/
structure SameItems (cap cap' : Capacity) (k : ℕ) (xs ys : List α) : Prop where
  perm : xs.Perm ys
  room : cap.Admits (xs.length + k)
  room' : cap'.Admits (xs.length + k)

namespace SameItems

variable {k : ℕ} {xs ys : List α}

theorem nil (h : cap.Admits k ∧ cap'.Admits k) : SameItems cap cap' k ([] : List α) [] where
  perm := List.Perm.refl []
  room := by rw [List.length_nil, Nat.zero_add]; exact h.1
  room' := by rw [List.length_nil, Nat.zero_add]; exact h.2

theorem admits_succ (h : SameItems cap cap' (k + 1) xs ys) : cap.Admits (xs.length + 1) :=
  h.room.mono (by omega)

theorem admits_succ' (h : SameItems cap cap' (k + 1) xs ys) : cap'.Admits (ys.length + 1) := by
  rw [← h.perm.length_eq]
  exact h.room'.mono (by omega)

/-- After one more item, which is put into both or left out of both. -/
theorem next (h : SameItems cap cap' (k + 1) xs ys) {xs' ys' : List α} (hp : xs'.Perm ys')
    (hlen : xs'.length ≤ xs.length + 1) : SameItems cap cap' k xs' ys' where
  perm := hp
  room := h.room.mono (by omega)
  room' := h.room'.mono (by omega)

end SameItems

/-- An ordered container is changed as well where the key of an item is new, and nowhere else. -/
theorem insert_perm (hkey : ∀ x y, table.keyEqual x y = true ↔ Equivalent order.Before x y)
    {ys : List α} (hys : ys.Pairwise order.Before) (x : α) :
    (ys.any (table.keyEqual x) = false → (order.insert x ys).Perm (x :: ys)) ∧
      (ys.any (table.keyEqual x) = true → order.insert x ys = ys) := by
  rw [insert_eq_insertNew]
  constructor
  · intro hx
    exact perm_insertNew fun y hy hxy => List.any_eq_false.mp hx y hy ((hkey x y).mpr hxy)
  · intro hx
    obtain ⟨y, hy, hxy⟩ := List.any_eq_true.mp hx
    exact insertNew_of_mem hys hy ((hkey x y).mp hxy)

theorem emplace_alike_set
    (hkey : ∀ x y, table.keyEqual x y = true ↔ Equivalent order.Before x y) (k : ℕ)
    (c : UnorderedCollection cap false table) (c' : OrderedCollection cap' order) (x : α)
    (hc : SameItems cap cap' (k + 1) c.items c'.items) :
    Alike (fun u o => SameItems cap cap' k u.items o.items) (c.emplace x) (c'.emplace x) := by
  obtain ⟨hnew, hold⟩ := insert_perm hkey c'.sorted x
  rw [← hc.perm.any_eq] at hnew hold
  rw [OrderedCollection.emplace, dif_pos hc.admits_succ']
  cases hx : c.items.any (table.keyEqual x) with
  | false =>
    obtain ⟨c₁, hemplace, hc₁⟩ := emplace_of_new hc.admits_succ fun _ => hx
    rw [hemplace]
    exact alike_pure (hc.next (hc₁.trans ((hc.perm.cons x).trans (hnew hx).symm))
      hc₁.length_eq.le)
  | true =>
    rw [emplace_of_any hc.admits_succ rfl hx]
    refine alike_pure ?_
    change SameItems cap cap' k c.items (order.insert x c'.items)
    rw [hold hx]
    exact hc.next hc.perm (Nat.le_succ _)

theorem emplace_alike_multiset (k : ℕ) (c : UnorderedCollection cap true table)
    (c' : OrderedMulticollection cap' order) (x : α)
    (hc : SameItems cap cap' (k + 1) c.items c'.items) :
    Alike (fun u o => SameItems cap cap' k u.items o.items) (c.emplace x) (c'.emplace x) := by
  obtain ⟨c₁, hemplace, hc₁⟩ := emplace_of_new (x := x) hc.admits_succ fun h => nomatch h
  rw [hemplace, OrderedMulticollection.emplace, dif_pos hc.admits_succ']
  have hinsert := List.perm_orderedInsert order.Before x c'.items
  exact alike_pure (hc.next (hc₁.trans ((hc.perm.cons x).trans hinsert.symm)) hc₁.length_eq.le)

section Ordered

variable {s : ScaleDecoderStream}

theorem unordered_alike_set (left : Leftovers) (t : ScaleType α)
    (hkey : ∀ x y, table.keyEqual x y = true ↔ Equivalent order.Before x y)
    (hcount : ∀ k s₁, decodeLength b s = .ok k s₁ → cap.Admits k ∧ cap'.Admits k)
    (target : UnorderedCollection cap false table) (target' : OrderedCollection cap' order) :
    Result.Alike (fun u o => u.items.Perm o.items) (target.readInto b left t s)
      ((ScaleType.set cap' order t).readInto b left target' s) := by
  change Result.Alike _ _ (readRandomExtensible b cap' order _ _ _ s)
  rw [readRandomExtensible_eq_readEmplaceable]
  exact (readEmplaceable_alike (R := fun k u o => SameItems cap cap' k u.items o.items) _ _ _
    (emplace_alike_set hkey) (fun _ => SameItems.nil) hcount).mono fun _ _ h => h.perm

theorem unordered_alike_multiset (left : Leftovers) (t : ScaleType α) (order : Compare α)
    (hcount : ∀ k s₁, decodeLength b s = .ok k s₁ → cap.Admits k ∧ cap'.Admits k)
    (target : UnorderedCollection cap true table) :
    Result.Alike (fun u o => u.items.Perm o.items) (target.readInto b left t s)
      (readMultiset b left cap' order t s) := by
  exact (readEmplaceable_alike (R := fun k u o => SameItems cap cap' k u.items o.items) _ _ _
    emplace_alike_multiset (fun _ => SameItems.nil) hcount).mono fun _ _ h => h.perm

/-- Whatever its hash table, an unordered container is decoded from the same bytes as the ordered
one with the same keys, into the same items in some order, if both can have as many items as are
announced; otherwise both raise the same exception at the same byte. -/
theorem unordered_refines_ordered (b : Build) (left : Leftovers) (t : ScaleType α)
    (hkey : ∀ x y, table.keyEqual x y = true ↔ Equivalent order.Before x y)
    (hcount : ∀ k s₁, decodeLength b s = .ok k s₁ → cap.Admits k ∧ cap'.Admits k) :
    (∀ (target : UnorderedCollection cap false table) (target' : OrderedCollection cap' order),
        Result.Alike (fun u o => u.items.Perm o.items) (target.readInto b left t s)
          ((ScaleType.set cap' order t).readInto b left target' s)) ∧
      ∀ target : UnorderedCollection cap true table,
        Result.Alike (fun u o => u.items.Perm o.items) (target.readInto b left t s)
          (readMultiset b left cap' order t s) :=
  ⟨unordered_alike_set left t hkey hcount, unordered_alike_multiset left t order hcount⟩

theorem equivalent_ofUnsigned_iff {w : ℕ} (x y : BitVec w) :
    Equivalent (Compare.ofUnsigned : Compare (BitVec w)).Before x y ↔ x = y := by
  simp only [Equivalent, Compare.Before, Compare.ofUnsigned, BitVec.ult, decide_eq_true_eq]
  rw [← BitVec.toNat_inj]
  omega

/-- Two numbers that are equal, in the order of a stack. -/
theorem unordered_refines_ordered_uint16 :
    (∀ (target : UnorderedCollection ⟨2 ^ 60, 2 ^ 60, by decide⟩ false
          (HashTable.oneBucket (BitVec 16)))
        (target' : OrderedCollection ⟨2 ^ 58, 2 ^ 58, by decide⟩ Compare.ofUnsigned),
        Result.Alike (fun u o => u.items.Perm o.items)
          (target.readInto .default .valueInit (.integral (.int false .two))
            (.ofSpan ⟨[8, 1, 0, 1, 0], by decide⟩))
          ((ScaleType.set ⟨2 ^ 58, 2 ^ 58, by decide⟩ .ofUnsigned
            (.integral (.int false .two))).readInto .default .valueInit target'
              (.ofSpan ⟨[8, 1, 0, 1, 0], by decide⟩))) ∧
      ∀ target : UnorderedCollection ⟨2 ^ 60, 2 ^ 60, by decide⟩ true
          (HashTable.oneBucket (BitVec 16)),
        Result.Alike (fun u o => u.items.Perm o.items)
          (target.readInto .default .valueInit (.integral (.int false .two))
            (.ofSpan ⟨[8, 1, 0, 1, 0], by decide⟩))
          (readMultiset .default .valueInit ⟨2 ^ 58, 2 ^ 58, by decide⟩ .ofUnsigned
            (.integral (.int false .two)) (.ofSpan ⟨[8, 1, 0, 1, 0], by decide⟩)) := by
  have hlength : decodeLength .default (.ofSpan ⟨[8, 1, 0, 1, 0], by decide⟩) =
      .ok 2 ⟨⟨[8, 1, 0, 1, 0], by decide⟩, 1⟩ := rfl
  refine unordered_refines_ordered .default .valueInit (.integral (.int false .two))
    (fun x y => (decide_eq_true_iff (p := x = y)).trans (equivalent_ofUnsigned_iff x y).symm)
    fun k s₁ hk => ?_
  cases hlength.symm.trans hk
  exact ⟨by decide, by decide⟩

end Ordered

/-! ### The round trip -/

section RoundTrip

variable {table' : HashTable α} {s s' : ScaleDecoderStream}

/-- Items whose keys are new, and distinct, are all put into the container. -/
theorem emplaceAll_of_distinct {d : α → Decoding α} {d₀ : Decoding α} (hd : ∀ x, d x = d₀)
    (movedFrom : α → α) {k : ℕ} (item : α) (c : UnorderedCollection cap multi table)
    {xs : List.Vector α k} (hxs : decodeItems d₀ k s = .ok xs s')
    (hroom : cap.Admits (c.items.length + k))
    (hdistinct : multi = false → table.Distinct (c.items ++ xs.1)) :
    ∃ c', emplaceAll UnorderedCollection.emplace movedFrom d k item c s = .ok c' s' ∧
      c'.items.Perm (c.items ++ xs.1) := by
  induction k generalizing item c s with
  | zero =>
    cases hxs
    exact ⟨c, rfl, List.Perm.of_eq (List.append_nil c.items).symm⟩
  | succ k ih =>
    obtain ⟨x, s₁, hx, hrest⟩ := EStateM.bind_eq_ok.mp hxs
    obtain ⟨ys, s₂, hys, hpure⟩ := EStateM.bind_eq_ok.mp hrest
    cases hpure
    have hnew : multi = false → c.items.any (table.keyEqual x) = false := by
      intro hm
      refine List.any_eq_false.mpr fun y hy => ?_
      have hyx := (List.pairwise_append.mp (hdistinct hm)).2.2 y hy x List.mem_cons_self
      rw [table.symm, hyx]
      decide
    obtain ⟨c₁, hemplace, hc₁⟩ := emplace_of_new (hroom.mono (by omega)) hnew
    -- the order changes, the items do not
    have hperm : (c₁.items ++ ys.1).Perm (c.items ++ x :: ys.1) :=
      (hc₁.append_right ys.1).trans List.perm_middle.symm
    obtain ⟨c', hloop, hc'⟩ := ih (movedFrom x) c₁ hys
      (by rw [hc₁.length_eq, List.length_cons]; convert hroom using 1; omega)
      (fun hm => (hdistinct hm).perm hperm.symm)
    refine ⟨c', ?_, hc'.trans hperm⟩
    rw [emplaceAll, hd, EStateM.bind_ok hx, catchBadAlloc_of_ok hemplace, pure_bind]
    exact hloop

theorem roundTrip_decodeList {e : α → Encoding Unit} {d : Decoding α} (items : List α)
    (hn : items.length < compactBound b .size) (h : ∀ x ∈ items, RoundTrip (e x) d x) :
    RoundTrip (encodeDynamicCollection b e items) (decodeList b d) items :=
  (roundTrips_length hn).bind ((roundTrip_items items h).bind_pure rfl)

/-- The order of its items does not change how much is put for a collection. -/
theorem length_collectionOutput {o : α → Output} {xs ys : List α} (hp : ys.Perm xs)
    (hxs : ∀ x ∈ xs, (o x).refused = none) :
    (collectionOutput b o ys).symbols.length = (collectionOutput b o xs).symbols.length := by
  have hmap {zs : List α} (hzs : ∀ x ∈ zs, (o x).refused = none) :
      ∀ a ∈ zs.map o, a.refused = none := List.forall_mem_map.mpr hzs
  have hys : ∀ x ∈ ys, (o x).refused = none := fun x hx => hxs x (hp.mem_iff.mp hx)
  unfold collectionOutput
  rw [symbols_mul (refused_lengthOutput b _), symbols_mul (refused_lengthOutput b _),
    symbols_prod (hmap hys), symbols_prod (hmap hxs), hp.length_eq, List.length_append,
    List.length_append, ((hp.map o).flatMap_right _).length_eq]

theorem encode_perm {t : ScaleType α} {xs ys : List α} (hp : ys.Perm xs) {p : List UInt8}
    (hxs : encodeToVector (encodeDynamicCollection b (t.toStream b) xs) = .ok (.ok p)) :
    ∃ q, encodeToVector (encodeDynamicCollection b (t.toStream b) ys) = .ok (.ok q) ∧
      q.length = p.length := by
  rw [encodeToVector_of_puts (putsOutput_collection (puts_output b t) xs)] at hxs
  rw [encodeToVector_of_puts (putsOutput_collection (puts_output b t) ys)]
  cases ho : (collectionOutput b (t.output b) xs).refused with
  | some code =>
    rw [ho] at hxs
    cases hxs
  | none =>
    rw [ho] at hxs
    cases hxs
    -- no item is refused, in whatever order
    have haccepts := (refused_collectionOutput (refused_output b t) xs).mp ho
    have ho' : (collectionOutput b (t.output b) ys).refused = none :=
      (refused_collectionOutput (refused_output b t) ys).mpr
        fun x hx => haccepts x (hp.mem_iff.mp hx)
    rw [ho']
    have hxs : ∀ x ∈ xs, (t.output b x).refused = none :=
      fun x hx => (refused_output b t x).mpr (haccepts x hx)
    exact ⟨_, rfl, length_collectionOutput hp hxs⟩

/-- What `encode` returns for an unordered container is decoded, by a container with whatever hash
table and whatever items, into the same items.  Encoded again they may come in another order, but
take as many bytes. -/
theorem unordered_roundTrip {t : ScaleType α} (c : UnorderedCollection cap multi table)
    (hc : (ScaleType.resizeable cap t).Encodable b ⟨c.items, c.admits⟩)
    (hroom : cap'.Admits c.items.length)
    (hkey : ∀ x y, table'.keyEqual x y = table.keyEqual x y) :
    ∃ p, encodeToVector (c.toStream b t) = .ok (.ok p) ∧
      ∀ (left : Leftovers) (target : UnorderedCollection cap' multi table')
        (s s' : ScaleDecoderStream), s.Valid → Consumed s p s' →
        ∃ c', target.readInto b left t s = .ok c' s' ∧ c'.items.Perm c.items ∧
          ∃ q, encodeToVector (c'.toStream b t) = .ok (.ok q) ∧ q.length = p.length := by
  obtain ⟨hn, hitems⟩ := hc
  obtain ⟨p, hw, hr⟩ := roundTrip_decodeList (b := b) c.items hn
    fun x hx => roundTrip_of_encodable t x (hitems x hx)
  refine ⟨p, encodeToVector_eq hw, fun left target s s' hs hcons => ?_⟩
  obtain ⟨n, s₁, xs, hlength, hxs, hlist⟩ := decodeList_eq_ok (hr.run hs hcons)
  obtain rfl : n = c.items.length := by rw [hlist]; exact xs.2.symm
  have hdistinct : multi = false → table'.Distinct (target.clear.items ++ xs.1) := by
    intro hm
    rw [← hlist]
    exact (c.distinct hm).imp fun hxy => (hkey _ _).trans hxy
  obtain ⟨c', hloop, hc'⟩ := emplaceAll_of_distinct (readInto_eq b left t) (left.movedFrom t)
    (left.item t) target.clear hxs
    (by rw [show target.clear.items = [] from rfl, List.length_nil, Nat.zero_add]; exact hroom)
    hdistinct
  rw [← hlist] at hc'
  refine ⟨c', ?_, hc', encode_perm hc' (encodeToVector_eq hw)⟩
  unfold UnorderedCollection.readInto readEmplaceable
  rw [EStateM.bind_ok hlength, if_neg (Nat.not_lt.mpr hroom.1)]
  exact hloop

/-- A set of two numbers. -/
abbrev twoNumbers :
    UnorderedCollection ⟨2 ^ 60, 2 ^ 60, by decide⟩ false (HashTable.oneBucket (BitVec 16)) :=
  ⟨(), [300, 1], fun _ => by decide, by decide⟩

theorem unordered_roundTrip_two :
    ∃ p, encodeToVector (twoNumbers.toStream .default (.integral (.int false .two))) =
        .ok (.ok p) ∧
      ∀ (left : Leftovers) (target : UnorderedCollection ⟨2, 2, by decide⟩ false
          (HashTable.oneBucket (BitVec 16))) (s s' : ScaleDecoderStream), s.Valid →
        Consumed s p s' →
        ∃ c', target.readInto .default left (.integral (.int false .two)) s = .ok c' s' ∧
          c'.items.Perm twoNumbers.items ∧
          ∃ q, encodeToVector (c'.toStream .default (.integral (.int false .two))) = .ok (.ok q) ∧
            q.length = p.length :=
  unordered_roundTrip twoNumbers ⟨by decide, fun _ _ => trivial⟩ (by decide) fun _ _ => rfl

end RoundTrip

end ScaleCodec
