import ScaleCodec.Variants
import ScaleCodec.Equiv.DynamicCollections
import ScaleCodec.Equiv.Sessions

/-!
# A variant in larger values

The recursions over the alternatives come to the one that is held, or that the index selects, and to
none for a valueless variant (`tryEncodeAsOneOfVariant_eq`, `tryDecodeAsOneOfVariant_eq`), of which
nothing is written then.  What is read as another value leaves the rest of a larger value alone
(`DiffersAt.readsFor`), and nothing can be read where nothing was written; so
`encodeVariant_iff` says which variants do no harm to what is encoded after them.
-/

namespace ScaleCodec

variable {α β : Type} {n : ℕ} {αs : Fin n → Type} {b : Build}

/-- Whatever `e` writes, `d` reads as `a`. -/
abbrev ReadsFor (e : Encoding Unit) (d : Decoding α) (a : α) : Prop :=
  ReadsAs encoderSink decoderSource e d a

/-! ### The recursions over the alternatives -/

theorem Variant.get?_holds (i j : Fin n) (x : αs j) :
    (Variant.holds j x).get? i = if h : j = i then some (h ▸ x) else none := rfl

theorem tryEncodeAsOneOfVariant_valueless (e : ∀ i, αs i → Encoding Unit)
    (alternatives : List (Fin n)) :
    tryEncodeAsOneOfVariant e .valueless alternatives = pure () := by
  induction alternatives with
  | nil => rfl
  | cons i alternatives ih => exact ih

theorem tryEncodeAsOneOfVariant_holds (e : ∀ i, αs i → Encoding Unit) {i : Fin n} (x : αs i)
    {alternatives : List (Fin n)} (hi : i ∈ alternatives) :
    tryEncodeAsOneOfVariant e (.holds i x) alternatives = encodeVariant e (.holds i x) := by
  induction alternatives with
  | nil => cases hi
  | cons j alternatives ih =>
    rw [tryEncodeAsOneOfVariant, Variant.get?_holds]
    by_cases hij : i = j
    · subst hij
      rw [dif_pos rfl]
      rfl
    · rw [dif_neg hij]
      exact ih (List.mem_of_ne_of_mem hij hi)

/-- The recursion of `operator<<`, from the first alternative on. -/
theorem tryEncodeAsOneOfVariant_eq (e : ∀ i, αs i → Encoding Unit) (v : Variant αs) :
    tryEncodeAsOneOfVariant e v (List.finRange n) = encodeVariant e v := by
  cases v with
  | valueless => exact tryEncodeAsOneOfVariant_valueless e _
  | holds i x => exact tryEncodeAsOneOfVariant_holds e x (List.mem_finRange i)

theorem tryDecodeAsOneOfVariant_eq (d : ∀ i, Decoding (αs i)) (i : Fin n) (v : Variant αs)
    {alternatives : List (Fin n)} (hi : i ∈ alternatives) :
    tryDecodeAsOneOfVariant d i v alternatives = d i >>= fun x => pure (.holds i x) := by
  induction alternatives with
  | nil => cases hi
  | cons j alternatives ih =>
    rw [tryDecodeAsOneOfVariant]
    by_cases hij : i = j
    · subst hij
      rw [if_pos rfl]
    · rw [if_neg fun h => hij (Fin.ext h.symm)]
      exact ih (List.mem_of_ne_of_mem hij hi)

/-- `operator>>`, whose recursion never runs off its end. -/
theorem decodeVariant_eq (d : ∀ i, Decoding (αs i)) (v : Variant αs) :
    decodeVariant d = nextByte >>= fun typeIndex =>
      if typeIndex.toNat < n then
        tryDecodeAsOneOfVariant d typeIndex.toNat v (List.finRange n)
      else raise (.decode .wrongTypeIndex) := by
  unfold decodeVariant
  congr 1
  funext typeIndex
  split_ifs with h
  · exact (tryDecodeAsOneOfVariant_eq d ⟨typeIndex.toNat, h⟩ v (List.mem_finRange _)).symm
  · rfl

/-! ### What is around a part -/

theorem ScaleType.ReadsBack.readsFor {t : ScaleType α} {v : α} (h : t.ReadsBack b v) :
    ReadsFor (t.toStream b v) (t.fromStream b) v := by
  obtain ⟨p, _, hw, hr⟩ := h
  exact RoundTrips.readsAs ⟨p, hw, hr⟩

theorem readsFor_optional {e : α → Encoding Unit} {d : Decoding α} {x x' : α}
    (he : Emitter (e x)) (h : ReadsFor (e x) d x') :
    ReadsFor (encodeOptional none e (some x)) (decodeOptional none d) (some x') :=
  (roundTrip_integral .bool true).readsAs.bind (emitter_putByte 1) he (h.bind_pure rfl)

theorem readsFor_pair {e : α → Encoding Unit} {e' : β → Encoding Unit} {d : Decoding α}
    {d' : Decoding β} {p p' : α × β} (he : Emitter (e p.1)) (he' : Emitter (e' p.2))
    (h : ReadsFor (e p.1) d p'.1) (h' : ReadsFor (e' p.2) d' p'.2) :
    ReadsFor (encodePair e e' p) (decodePair d d') p' :=
  h.bind he he' (h'.bind_pure rfl)

theorem readsFor_tuple {e : ∀ i, αs i → Encoding Unit} {d : ∀ i, Decoding (αs i)}
    {v v' : ∀ i, αs i} (he : ∀ i x, Emitter (e i x))
    (h : ∀ i, ReadsFor (e i (v i)) (d i) (v' i)) :
    ReadsFor (encodeElementsOfTuple e v) (decodeElementsOfTuple d) v' := by
  induction n with
  | zero =>
    have hv' : v' = fun i => i.elim0 := funext fun i => i.elim0
    rw [hv']
    exact (roundTrips_pure _).readsAs
  | succ n ih =>
    have htail := ih (fun i => he i.succ) fun i => h i.succ
    refine (h 0).bind (he 0 _) (emitter_tuple (fun i => he i.succ) _) (htail.bind_pure ?_)
    rw [← Fin.cons_self_tail v']
    rfl

theorem readsFor_variant {e : ∀ i, αs i → Encoding Unit} {d : ∀ i, Decoding (αs i)} (hn : n ≤ 256)
    {i : Fin n} {x x' : αs i} (he : Emitter (e i x)) (h : ReadsFor (e i x) (d i) x') :
    ReadsFor (encodeVariant e (.holds i x)) (decodeVariant d) (.holds i x') := by
  refine (roundTrip_byte (UInt8.ofNat i)).readsAs.bind (emitter_putByte _) he ?_
  rw [decodeVariant_index hn]
  exact h.bind_pure rfl

theorem readsFor_pointer {heap : Bool} {e : α → Encoding Unit} {d : Decoding α} {x x' : α}
    (allocated : heap = true) (h : ReadsFor (e x) d x') :
    ReadsFor (encodePointer e (.to x allocated)) (makePointer d : Decoding (Pointer heap α))
      (.to x' allocated) := by
  rw [makePointer, dif_pos allocated]
  exact h.bind_pure rfl

/-! ### What is around an item -/

/-- The items are read one for one. -/
theorem readsFor_items {e : α → Encoding Unit} {d : Decoding α} (he : ∀ x, Emitter (e x))
    {items items' : List α} (h : List.Forall₂ (fun x x' => ReadsFor (e x) d x') items items')
    (xs : List.Vector α items.length) (hxs : xs.1 = items') :
    ReadsFor (items.forM e) (decodeItems d items.length) xs := by
  induction h with
  | nil =>
    have hnil : xs = .nil := Subtype.ext hxs
    rw [hnil]
    exact (roundTrips_pure _).readsAs
  | @cons x x' items items' hx _ ih =>
    obtain ⟨ys, hlen⟩ := xs
    cases hxs
    have hlen' : items'.length = items.length := Nat.succ.inj hlen
    have htail := ih ⟨items', hlen'⟩ rfl
    exact hx.bind (he x) (Sink.Emitter.forM items fun y _ => he y) (htail.bind_pure rfl)

/-- The same, of items that are emplaced. -/
theorem readsFor_emplaceItems {cap : Capacity} {order : Compare α} {e : α → Encoding Unit}
    {d : Decoding α} (he : ∀ x, Emitter (e x)) {items items' : List α}
    (h : List.Forall₂ (fun x x' => ReadsFor (e x) d x') items items')
    (c c' : OrderedCollection cap order) (hroom : cap.Admits (c.items.length + items.length))
    (hc' : c'.items = items'.foldl (fun ys y => order.insert y ys) c.items) :
    ReadsFor (items.forM e) (emplaceItems d items.length c) c' := by
  induction h generalizing c with
  | nil =>
    have heq : c' = c := OrderedCollection.ext hc'
    rw [heq]
    exact (roundTrips_pure _).readsAs
  | @cons x x' items items' hx _ ih =>
    have hone : cap.Admits (c.items.length + 1) := hroom.mono (by simp)
    have hsize : (order.insert x' c.items).length ≤ c.items.length + 1 :=
      Compare.length_insert_le x' c.items
    have hemplace : c.emplace x' = pure ⟨order.insert x' c.items,
        Compare.pairwise_insert c.sorted, hone.mono hsize⟩ := dif_pos hone
    refine hx.bind (he x) (Sink.Emitter.forM items fun y _ => he y) ?_
    rw [catchBadAlloc_of_ok hemplace, pure_bind]
    refine ih _ (hroom.mono ?_) hc'
    show (order.insert x' c.items).length + items.length ≤ c.items.length + (items.length + 1)
    omega

theorem CountReadsBack.readsFor {items : List α} (h : CountReadsBack b items)
    (hlt : items.length < 2 ^ 64) :
    ReadsFor (encodeLength b items.length) (decodeLength b) items.length := by
  have htoNat : (BitVec.ofNat CompactCompatible.size.width items.length).toNat = items.length := by
    rw [BitVec.toNat_ofNat]
    exact Nat.mod_eq_of_lt hlt
  exact ReadsAs.bind_pure (ScaleType.ReadsBack.readsFor h) (congrArg pure htoNat)

theorem readsFor_sized {cap : Capacity} {e : α → Encoding Unit} {d : Decoding α}
    (he : ∀ x, Emitter (e x)) (c c' : Collection cap α) (hcount : CountReadsBack b c.items)
    (h : List.Forall₂ (fun x x' => ReadsFor (e x) d x') c.items c'.items) :
    ReadsFor (encodeDynamicCollection b e c.items) (decodeSized b cap d) c' := by
  refine (hcount.readsFor c.admits.lt).bind (emitter_encodeCompact b .size _)
    (Sink.Emitter.forM c.items fun x _ => he x) ?_
  rw [if_neg (Nat.not_lt.mpr c.admits.1), catchBadAlloc_of_ok (resize_of_admits c.admits)]
  exact (readsFor_items he h ⟨c'.items, h.length_eq.symm⟩ rfl).bind_pure rfl

theorem readsFor_randomExtensible {cap : Capacity} {order : Compare α} {e : α → Encoding Unit}
    {d : Decoding α} (he : ∀ x, Emitter (e x)) (c c' : OrderedCollection cap order)
    {items' : List α} (hcount : CountReadsBack b c.items)
    (h : List.Forall₂ (fun x x' => ReadsFor (e x) d x') c.items items')
    (hc' : c'.items = items'.foldl (fun ys y => order.insert y ys) []) :
    ReadsFor (encodeDynamicCollection b e c.items) (decodeRandomExtensible b cap order d) c' := by
  refine (hcount.readsFor c.admits.lt).bind (emitter_encodeCompact b .size _)
    (Sink.Emitter.forM c.items fun x _ => he x) ?_
  rw [if_neg (Nat.not_lt.mpr c.admits.1)]
  refine readsFor_emplaceItems he h .clear c' ?_ hc'
  simpa [OrderedCollection.clear] using c.admits

/-- One item is read as another, all others as themselves. -/
theorem ItemsDiffer.readsFor {t : ScaleType α} {w w' : α} {items items' : List α}
    (h : ItemsDiffer b t w w' items items')
    (hw : ReadsFor (t.toStream b w) (t.fromStream b) w') :
    List.Forall₂ (fun x x' => ReadsFor (t.toStream b x) (t.fromStream b) x') items items' := by
  obtain ⟨before, after, rfl, rfl, hrest⟩ := h
  have hsame : ∀ xs : List α, (∀ x ∈ xs, x ∈ before ++ after) →
      List.Forall₂ (fun x x' => ReadsFor (t.toStream b x) (t.fromStream b) x') xs xs :=
    fun xs hxs => List.forall₂_same.mpr fun x hx => (hrest x (hxs x hx)).readsFor
  exact List.rel_append (hsame before fun x => List.mem_append_left after)
    (.cons hw (hsame after fun x => List.mem_append_right before))

/-! ### The rest of a larger value -/

/-- A part that is read as another value leaves the rest alone. -/
theorem DiffersAt.readsFor {t : ScaleType α} {v v' : α} {u : ScaleType β} {w w' : β}
    (hpart : ReadsFor (t.toStream b v) (t.fromStream b) v') (h : DiffersAt b t v v' u w w') :
    ReadsFor (u.toStream b w) (u.fromStream b) w' := by
  induction h with
  | here => exact hpart
  | @optional β u w w' hbool _ ih =>
    rw [ScaleType.toStream, ScaleType.fromStream, hbool]
    exact readsFor_optional (emitter_toStream b u w) ih
  | @first β γ u w w' u' y hy _ ih =>
    exact readsFor_pair (emitter_toStream b u w) (emitter_toStream b u' y) ih hy.readsFor
  | @second β γ u w w' u' y hy _ ih =>
    exact readsFor_pair (emitter_toStream b u' y) (emitter_toStream b u w) hy.readsFor ih
  | tuple us i x x' hrest _ ih =>
    refine readsFor_tuple (fun j => emitter_toStream b (us j)) fun j => ?_
    by_cases hj : j = i
    · subst hj
      exact ih
    · obtain ⟨hx', hj⟩ := hrest j hj
      rw [hx']
      exact hj.readsFor
  | @variant m βs us hm i w w' _ ih => exact readsFor_variant hm (emitter_toStream b (us i) w) ih
  | pointer allocated _ ih => exact readsFor_pointer allocated ih
  | @staticCollection k β u w w' c c' hitems _ ih =>
    obtain ⟨items, rfl⟩ := c
    exact readsFor_items (emitter_toStream b u) (hitems.readsFor ih) c' rfl
  | @resizeable cap β u w w' c c' hcount hitems _ ih =>
    exact readsFor_sized (emitter_toStream b u) c c' hcount (hitems.readsFor ih)
  | @extensibleBack cap β u w w' c c' hcount hitems _ ih =>
    exact readsFor_sized (emitter_toStream b u) c c' hcount (hitems.readsFor ih)
  | @randomExtensible cap β u w w' order c c' items' hcount hitems hc' _ ih =>
    exact readsFor_randomExtensible (emitter_toStream b u) c c' hcount (hitems.readsFor ih) hc'

/-! ### What becomes of a variant -/

/-- No span is as long as a string that is too long for one. -/
theorem reads_of_long (d : Decoding α) (a : α) {bs : List UInt8} (h : 2 ^ 63 ≤ bs.length) :
    Reads d bs a := by
  intro s _ hp
  have hle : bs.length ≤ s.remaining.length := hp.length_le
  have hsize : s.span.size < 2 ^ 63 := s.span.size_lt
  rw [ScaleDecoderStream.length_remaining] at hle
  omega

section Variant

variable (ts : ∀ i, ScaleType (αs i)) (hn : n ≤ 256)

/-- The recursion runs off its end. -/
theorem writes_valueless : Writes ((ScaleType.variant ts hn).toStream b .valueless) [] := by
  rw [ScaleType.toStream, ← tryEncodeAsOneOfVariant_eq, tryEncodeAsOneOfVariant_valueless]
  exact writes_pure

theorem writes_holds {i : Fin n} {x : αs i} {p : List UInt8}
    (h : Writes ((ts i).toStream b x) p) :
    Writes ((ScaleType.variant ts hn).toStream b (.holds i x)) (UInt8.ofNat i :: p) :=
  (writes_putByte _).bind h

theorem writesAlternative_iff (v : Variant αs) :
    WritesAlternative b ts hn v ↔ v ≠ .valueless := by
  cases v with
  | valueless =>
    refine ⟨?_, fun hne => absurd rfl hne⟩
    rintro (⟨p, e, hraises⟩ | ⟨i, x, p, hholds, _⟩)
    · -- it returns, so it does not raise
      cases (hraises.unique (writes_valueless ts hn)).2
    · cases hholds
  | holds i x =>
    have hholds : Variant.holds i x ≠ .valueless := by simp
    refine ⟨fun _ => hholds, fun _ => ?_⟩
    obtain ⟨p, r, hp⟩ := emitter_toStream b (ts i) x
    cases r with
    | error e => exact Or.inl ⟨_, e, (writes_putByte (UInt8.ofNat i)).bind hp⟩
    | ok u => exact Or.inr ⟨i, x, p, rfl, hp, writes_holds ts hn hp⟩

/-- Nothing is read where nothing was written. -/
theorem not_reads_valueless (d : ∀ i, Decoding (αs i)) (v' : Variant αs) :
    ¬ Reads (decodeVariant d) [] v' := by
  intro hreads
  have hvalid := ScaleDecoderStream.valid_ofSpan ⟨[], by decide⟩
  have hrun := hreads _ hvalid List.prefix_rfl
  rw [decodeVariant, EStateM.bind_error (nextByte_nil hvalid rfl)] at hrun
  cases hrun

/-- What is read behind the index byte of an alternative is read by that alternative. -/
theorem reads_alternative {i : Fin n} {p : List UInt8} (hp : p.length + 1 < 2 ^ 63)
    {v' : Variant αs}
    (h : Reads ((ScaleType.variant ts hn).fromStream b) (UInt8.ofNat i :: p) v') :
    ∃ x', Reads ((ts i).fromStream b) p x' := by
  -- the input that ends where `p` does
  obtain ⟨s, hs, hrest⟩ : ∃ s : ScaleDecoderStream, s.Valid ∧ s.remaining = UInt8.ofNat i :: p :=
    ⟨_, ScaleDecoderStream.valid_ofSpan ⟨UInt8.ofNat i :: p, hp⟩, rfl⟩
  have hone : 1 ≤ s.remaining.length := by simp [hrest]
  have hvalid := ScaleDecoderStream.valid_advance hs hone
  have hindex : decodeVariant (fun i => (ts i).fromStream b) s =
      ((ts i).fromStream b >>= fun x => pure (.holds i x)) (s.advance 1) := by
    rw [decodeVariant, EStateM.bind_ok (nextByte_cons hs hrest)]
    exact congrFun (decodeVariant_index hn (fun i => (ts i).fromStream b) i) (s.advance 1)
  have hrun := h s hs (by rw [← hrest]; exact List.prefix_rfl)
  rw [ScaleType.fromStream, hindex] at hrun
  obtain ⟨x', s', hx', hpure⟩ := EStateM.bind_eq_ok.mp hrun
  cases hpure
  refine ⟨x', (local_fromStream b (ts i)).reads_of_rest hvalid ?_ ?_
    fun m => ScaleDecoderStream.advance_injective⟩
  · show (s.advance 1).remaining = p
    rw [ScaleDecoderStream.remaining_advance, hrest]
    rfl
  · rw [hx']
    show _ = EStateM.Result.ok x' ((s.advance 1).advance p.length)
    rw [ScaleDecoderStream.advance_advance, Nat.add_comm 1]
    rfl

theorem readsFor_holds {i : Fin n} {x : αs i} (h : (ts i).ReadToEnd b x) :
    ∃ v', ReadsFor ((ScaleType.variant ts hn).toStream b (.holds i x))
      ((ScaleType.variant ts hn).fromStream b) v' := by
  have he : Emitter ((ts i).toStream b x) := emitter_toStream b (ts i) x
  by_cases hshort : ∃ p : List UInt8, p.length + 1 < 2 ^ 63 ∧ Writes ((ts i).toStream b x) p
  · obtain ⟨p, hp, hw⟩ := hshort
    obtain ⟨x', hr⟩ := h p hp hw
    refine ⟨.holds i x', readsFor_variant hn he fun q hq => ?_⟩
    rwa [← (hw.unique hq).1]
  · -- nothing is written, or more than there can be
    refine ⟨.holds i x, fun bs hbs => reads_of_long _ _ ?_⟩
    obtain ⟨as, p, rfl, has, hp⟩ := (emitter_putByte (UInt8.ofNat i)).writes_bind he hbs
    rw [← ((writes_putByte _).unique has).1]
    by_contra hlt
    rw [List.length_append, List.length_singleton] at hlt
    exact hshort ⟨p, by omega, hp⟩

theorem restReadsBack_iff (v : Variant αs) :
    RestReadsBack b ts hn v ↔ ∃ i x, v = .holds i x ∧ (ts i).ReadToEnd b x := by
  constructor
  · rintro ⟨v', hrest⟩
    -- the variant itself is such a value
    have hself := hrest _ _ _ .here
    cases v with
    | valueless => exact absurd (hself [] (writes_valueless ts hn)) (not_reads_valueless _ v')
    | holds i x =>
      refine ⟨i, x, rfl, fun p hp hw => ?_⟩
      exact reads_alternative ts hn hp (hself _ (writes_holds ts hn hw))
  · rintro ⟨i, x, rfl, hend⟩
    obtain ⟨v', hv'⟩ := readsFor_holds ts hn hend
    exact ⟨v', fun u w w' hdiffers => hdiffers.readsFor hv'⟩

end Variant

/-- The values that are read back anyway are read to their end. -/
theorem readToEnd_of_encodable {t : ScaleType α} {v : α} (h : t.Encodable b v) :
    t.ReadToEnd b v :=
  fun p _ hw => ⟨v, (roundTrip_of_encodable t v h).readsAs p hw⟩

/-- Exactly a variant that is not valueless is written with its index, or refused; and the rest of
every value that it is a part of is read back iff it holds an alternative that, where it is written,
is read to its end. -/
theorem encodeVariant_iff (b : Build) (ts : ∀ i, ScaleType (αs i)) (hn : n ≤ 256)
    (v : Variant αs) :
    (WritesAlternative b ts hn v ↔ v ≠ .valueless) ∧
      (RestReadsBack b ts hn v ↔ ∃ i x, v = .holds i x ∧ (ts i).ReadToEnd b x) :=
  ⟨writesAlternative_iff ts hn v, restReadsBack_iff ts hn v⟩

/-- One alternative, which is read to its end whatever it holds. -/
theorem encodeVariant_iff_uint8 :
    WritesAlternative .default (fun _ : Fin 1 => .integral (.int false .one)) (by decide)
        (.holds 0 7) ∧
      RestReadsBack .default (fun _ : Fin 1 => .integral (.int false .one)) (by decide)
        (.holds 0 7) := by
  have hiff := encodeVariant_iff .default
    (fun _ : Fin 1 => ScaleType.integral (.int false .one)) (by decide) (.holds 0 7)
  have hend : (ScaleType.integral (.int false .one)).ReadToEnd .default 7 :=
    readToEnd_of_encodable trivial
  exact ⟨hiff.1.mpr (by simp), hiff.2.mpr ⟨0, 7, rfl, hend⟩⟩

/-- A valueless variant in front of a number: encoding succeeds with the number alone, which is then
taken for the index of an alternative. -/
theorem encodeVariant_valueless :
    ¬ WritesAlternative .default (fun _ : Fin 1 => .integral (.int false .one)) (by decide)
        .valueless ∧
      encode .default (.pair (.variant (fun _ : Fin 1 => .integral (.int false .one)) (by decide))
        (.integral (.int false .one))) (.valueless, 5) = .ok (.ok [5]) ∧
      decode .default (.pair (.variant (fun _ : Fin 1 => .integral (.int false .one)) (by decide))
        (.integral (.int false .one))) ⟨[5], by decide⟩ =
        .ok (.error (.decode .wrongTypeIndex)) :=
  ⟨fun h => (writesAlternative_iff _ _ _).mp h rfl, rfl, rfl⟩

end ScaleCodec
