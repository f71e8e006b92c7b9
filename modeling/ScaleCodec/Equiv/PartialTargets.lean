import ScaleCodec.Equiv.Locality
import ScaleCodec.Equiv.Targets

/-!
# Targets of a decoding that fails

Where an exception is raised, the parts of the target before that are decoded, one part is as its
own overload has left it, and those behind are as they were (`overwrite_tuple_error`).  A container
is untouched only where its number of items is not decoded, or is refused; otherwise it is resized
(`overwrite_resizeable_error`), or cleared and filled as far as the items go
(`overwrite_randomExtensible_error`).
-/

namespace ScaleCodec

open EStateM

variable {α : Type} {n : ℕ} {αs : Fin n → Type} {cap : Capacity}

/-! ### Parts that are decoded in order -/

section WrittenUpTo

variable {αs : Fin (n + 1) → Type} {x : ∀ i, Overwriting (αs i) Unit}
  {d : ∀ i, Decoding (αs i)} {v v' : ∀ i, αs i} {s s₁ s' : ScaleDecoderStream} {e : Exception}

theorem WrittenUpTo.first (h : x 0 (s, v 0) = .error e (s', v' 0))
    (hrest : ∀ i : Fin n, v' i.succ = v i.succ) : WrittenUpTo x d v v' s s' e := by
  refine ⟨0, fun _ => s, rfl, ?_, h, ?_⟩
  · intro i hi
    exact absurd hi (Fin.not_lt_zero i)
  · intro i hi
    obtain ⟨j, rfl⟩ := Fin.exists_succ_eq.mpr hi.ne'
    exact hrest j

theorem WrittenUpTo.next (hfirst : d 0 s = .ok (v' 0) s₁)
    (hrest : WrittenUpTo (fun i => x i.succ) (fun i => d i.succ) (fun i => v i.succ)
      (fun i => v' i.succ) s₁ s' e) : WrittenUpTo x d v v' s s' e := by
  obtain ⟨k, p, hp, hread, hraise, hleft⟩ := hrest
  let q : ℕ → ScaleDecoderStream := fun i => Nat.casesOn i s p
  refine ⟨k.succ, q, rfl, ?_, hraise, ?_⟩
  · intro i hi
    cases i using Fin.cases with
    | zero =>
      cases hp
      exact hfirst
    | succ i => exact hread i (Fin.succ_lt_succ_iff.mp hi)
  · intro i hi
    cases i using Fin.cases with
    | zero => exact absurd hi (Fin.not_lt_zero _)
    | succ i => exact hleft i (Fin.succ_lt_succ_iff.mp hi)

end WrittenUpTo

theorem writtenUpTo_elements {x : ∀ i, Overwriting (αs i) Unit} {d : ∀ i, Decoding (αs i)}
    (hx : ∀ i, Overwrites (x i) (d i)) {v v' : ∀ i, αs i} {s s' : ScaleDecoderStream}
    {e : Exception} (h : overwriteElements x (s, v) = .error e (s', v')) :
    WrittenUpTo x d v v' s s' e := by
  induction n generalizing s with
  | zero => cases h
  | succ n ih =>
    change (focus headElement (x 0) >>= fun _ =>
      focus tailElements (overwriteElements fun i => x i.succ)) (s, v) = _ at h
    rw [bind_apply] at h
    cases hfirst : d 0 s with
    | error e₁ s₁ =>
      obtain ⟨a, hx0⟩ := (hx 0 (v 0)).run_error hfirst
      rw [focus_error (l := headElement) hx0] at h
      cases h
      exact .first hx0 fun _ => rfl
    | ok a s₁ =>
      rw [focus_ok (l := headElement) ((hx 0 (v 0)).run_ok hfirst)] at h
      -- the others are written up to some part
      obtain ⟨rest, htail, rfl⟩ := focus_eq_error (l := tailElements) h
      exact .next hfirst (ih (fun i => hx i.succ) htail)

theorem writtenUpTo_each {x : Overwriting α Unit} {d : Decoding α} (hx : Overwrites x d)
    {items items' : List.Vector α n} {s s' : ScaleDecoderStream} {e : Exception}
    (h : overwriteEach x (s, items) = .error e (s', items')) :
    WrittenUpTo (fun _ => x) (fun _ => d) items.get items'.get s s' e := by
  induction n generalizing s with
  | zero => cases h
  | succ n ih =>
    unfold overwriteEach at h
    rw [bind_apply] at h
    cases hfirst : d s with
    | error e₁ s₁ =>
      obtain ⟨a, hx0⟩ := (hx items.head).run_error hfirst
      rw [focus_error (l := headItem) hx0] at h
      cases h
      refine .first ?_ fun i => ?_
      · rw [List.Vector.get_zero, List.Vector.get_zero]
        exact hx0
      · exact (List.Vector.get_cons_succ a items.tail i).trans (List.Vector.get_tail_succ items i)
    | ok a s₁ =>
      rw [focus_ok (l := headItem) ((hx items.head).run_ok hfirst)] at h
      obtain ⟨rest, htail, rfl⟩ := focus_eq_error (l := tailItems) h
      have hrest : WrittenUpTo (fun _ => x) (fun _ => d) items.tail.get rest.get s₁ s' e :=
        ih htail
      have hget : items.tail.get = fun i => items.get i.succ :=
        funext (List.Vector.get_tail_succ items)
      have hget' : rest.get = fun i => (tailItems.set rest (headItem.set a items)).get i.succ :=
        funext fun i => (List.Vector.get_cons_succ _ rest i).symm
      rw [hget, hget'] at hrest
      exact .next hfirst hrest

/-- One more item in front of those that are decoded. -/
theorem decodeItems_cons {d : Decoding α} {y : α} {items : List α}
    {s s₁ s₂ : ScaleDecoderStream} (hfirst : d s = .ok y s₁)
    (hrest : decodeItems d items.length s₁ = .ok ⟨items, rfl⟩ s₂) :
    decodeItems d (y :: items).length s = .ok ⟨y :: items, rfl⟩ s₂ := by
  show (d >>= fun x => decodeItems d items.length >>= fun xs => pure (x ::ᵥ xs)) s = _
  rw [bind_ok hfirst, bind_ok hrest]
  rfl

/-- The items are emplaced until one is not decoded, or finds no room. -/
theorem emplaceEach_eq_error {order : Compare α} {movedFrom : α → α} {x : Overwriting α Unit}
    {d : Decoding α} (hx : Overwrites x d) {k : ℕ} {item : α}
    {c c' : OrderedCollection cap order} {s s' : ScaleDecoderStream} {e : Exception}
    (h : emplaceEach movedFrom x k item (s, c) = .error e (s', c')) :
    ∃ (items : List α) (s₁ : ScaleDecoderStream), items.length < k ∧
      decodeItems d items.length s = .ok ⟨items, rfl⟩ s₁ ∧
      c'.items = items.foldl (fun ys y => order.insert y ys) c.items ∧
      (d s₁ = .error e s' ∨ ∃ y, d s₁ = .ok y s' ∧ ¬ cap.Admits (c'.items.length + 1) ∧
        e = .systemError (.decode .tooManyItems)) := by
  induction k generalizing item c s with
  | zero => cases h
  | succ k ih =>
    unfold emplaceEach at h
    rw [(hx item).scratch, bind_apply] at h
    cases hfirst : d s with
    | error e₁ s₁ =>
      rw [reading_error hfirst] at h
      cases h
      exact ⟨[], s, Nat.zero_lt_succ k, rfl, rfl, Or.inl hfirst⟩
    | ok y s₁ =>
      rw [reading_ok hfirst] at h
      by_cases hroom : cap.Admits (c.items.length + 1)
      · have hemplace : c.emplace y = pure ⟨order.insert y c.items,
            Compare.pairwise_insert c.sorted, hroom.mono (Compare.length_insert_le y c.items)⟩ :=
          dif_pos hroom
        change (reading (catchBadAlloc (c.emplace y)) >>= _) (s₁, c) = _ at h
        rw [catchBadAlloc_of_ok hemplace] at h
        obtain ⟨items, s₂, hlt, hitems, hc', hend⟩ := ih h
        exact ⟨y :: items, s₂, Nat.succ_lt_succ hlt, decodeItems_cons hfirst hitems, hc', hend⟩
      · have hemplace : c.emplace y = throw .badAlloc := dif_neg hroom
        change (reading (catchBadAlloc (c.emplace y)) >>= _) (s₁, c) = _ at h
        rw [hemplace] at h
        cases h
        exact ⟨[], s, Nat.zero_lt_succ k, rfl, rfl, Or.inr ⟨y, hfirst, hroom, rfl⟩⟩

/-- Without memory for the items, the `std::bad_alloc` of `resize` becomes a failure. -/
theorem catchBadAlloc_resize_of_full {itemCount : ℕ} (hmax : itemCount ≤ cap.maxSize)
    (hfull : ¬ cap.Admits itemCount) :
    catchBadAlloc (resize cap itemCount) = raise (.decode .tooManyItems) := by
  have hmem : ¬ itemCount ≤ cap.available := fun hmem => hfull ⟨hmax, hmem⟩
  rw [resize, dif_pos hmax, dif_neg hmem]
  rfl

/-- A tuple, or the members of an aggregate: those before the one that raises are decoded, and those
behind it are as they were. -/
theorem overwrite_tuple_error (b : Build) (left : Leftovers) (ts : ∀ i, ScaleType (αs i))
    {v v' : ∀ i, αs i} {s s' : ScaleDecoderStream} {e : Exception}
    (h : (ScaleType.tuple ts).overwrite b left (s, v) = .error e (s', v')) :
    WrittenUpTo (fun i => (ts i).overwrite b left) (fun i => (ts i).fromStream b) v v' s s' e :=
  writtenUpTo_elements (fun i => overwrites_fromStream b left (ts i)) h

/-- There is a byte for the first of two elements only. -/
theorem overwrite_tuple_error_two :
    ∃ (s' : ScaleDecoderStream) (v' : Fin 2 → BitVec 8), v' 0 = 7 ∧ v' 1 = 9 ∧
      WrittenUpTo
        (fun _ : Fin 2 => (ScaleType.integral (.int false .one)).overwrite .default
          ⟨ScaleType.valueInit, ScaleType.valueInit, fun _ v => v⟩)
        (fun _ => (ScaleType.integral (.int false .one)).fromStream .default) (fun _ => 9) v'
        (.ofSpan ⟨[7], by decide⟩) s' notEnoughData :=
  ⟨_, _, rfl, rfl, overwrite_tuple_error .default
    ⟨ScaleType.valueInit, ScaleType.valueInit, fun _ v => v⟩
    (fun _ => .integral (.int false .one)) rfl⟩

/-- A container that is resized: it is untouched, where the number of items is what raises, or is
more than the container can have; otherwise it has got its size, and its items are written up to the
one that raises. -/
theorem overwrite_resizeable_error (b : Build) (left : Leftovers) (t : ScaleType α)
    {v v' : Collection cap α} {s s' : ScaleDecoderStream} {e : Exception}
    (h : (ScaleType.resizeable cap t).overwrite b left (s, v) = .error e (s', v')) :
    (v' = v ∧ (decodeLength b s = .error e s' ∨ ∃ itemCount,
        decodeLength b s = .ok itemCount s' ∧ ¬ cap.Admits itemCount ∧
          e = .systemError (.decode .tooManyItems))) ∨
    ∃ (itemCount : ℕ) (items' : List.Vector α itemCount) (s₁ : ScaleDecoderStream),
      decodeLength b s = .ok itemCount s₁ ∧ cap.Admits itemCount ∧ v'.items = items'.toList ∧
      WrittenUpTo (fun _ => t.overwrite b left) (fun _ => t.fromStream b)
        (resizedItems v itemCount t.valueInit).get items'.get s₁ s' e := by
  change (reading (decodeLength b) >>= _) (s, v) = _ at h
  rw [bind_apply] at h
  cases hlength : decodeLength b s with
  | error e₁ s₁ =>
    rw [reading_error hlength] at h
    cases h
    exact Or.inl ⟨rfl, Or.inl rfl⟩
  | ok itemCount s₁ =>
    rw [reading_ok hlength] at h
    dsimp only at h
    by_cases hmax : itemCount > cap.maxSize
    · rw [if_pos hmax] at h
      cases h
      exact Or.inl ⟨rfl, Or.inr ⟨itemCount, rfl, fun hadmits => absurd hadmits.1 (by omega), rfl⟩⟩
    · rw [if_neg hmax] at h
      by_cases hadmits : cap.Admits itemCount
      · rw [catchBadAlloc_of_ok (resize_of_admits hadmits)] at h
        have hrun : inside (fun items => ⟨items.1, admits_items ⟨hadmits⟩ items⟩)
            (resizedItems v itemCount t.valueInit) (overwriteEach (t.overwrite b left)) (s₁, v) =
            .error e (s', v') := h
        obtain ⟨items', hitems, rfl⟩ := inside_eq_error hrun
        exact Or.inr ⟨itemCount, items', s₁, rfl, hadmits, rfl,
          writtenUpTo_each (overwrites_fromStream b left t) hitems⟩
      · rw [catchBadAlloc_resize_of_full (Nat.not_lt.mp hmax) hadmits] at h
        cases h
        exact Or.inl ⟨rfl, Or.inr ⟨itemCount, rfl, hadmits, rfl⟩⟩

/-- Two items are announced and one is there; the container had one item before. -/
theorem overwrite_resizeable_error_two :
    ∃ (s' : ScaleDecoderStream) (v' : Collection ⟨4, 4, by decide⟩ (BitVec 8)),
      v'.items = [7, 0] ∧ ((v' = ⟨[9], by decide⟩ ∧
          (decodeLength .default (.ofSpan ⟨[8, 7], by decide⟩) = .error notEnoughData s' ∨
            ∃ itemCount, decodeLength .default (.ofSpan ⟨[8, 7], by decide⟩) = .ok itemCount s' ∧
              ¬ Capacity.Admits ⟨4, 4, by decide⟩ itemCount ∧
              notEnoughData = .systemError (.decode .tooManyItems))) ∨
        ∃ (itemCount : ℕ) (items' : List.Vector (BitVec 8) itemCount) (s₁ : ScaleDecoderStream),
          decodeLength .default (.ofSpan ⟨[8, 7], by decide⟩) = .ok itemCount s₁ ∧
          Capacity.Admits ⟨4, 4, by decide⟩ itemCount ∧ v'.items = items'.toList ∧
          WrittenUpTo
            (fun _ => (ScaleType.integral (.int false .one)).overwrite .default
              ⟨ScaleType.valueInit, ScaleType.valueInit, fun _ v => v⟩)
            (fun _ => (ScaleType.integral (.int false .one)).fromStream .default)
            (resizedItems (⟨[9], by decide⟩ : Collection ⟨4, 4, by decide⟩ (BitVec 8)) itemCount
              0).get items'.get s₁ s' notEnoughData) :=
  ⟨_, ⟨[7, 0], by decide⟩, rfl, overwrite_resizeable_error .default
    ⟨ScaleType.valueInit, ScaleType.valueInit, fun _ v => v⟩ (.integral (.int false .one)) rfl⟩

/-- An ordered container: it is untouched, where the number of items is what raises, or exceeds
`max_size()`; otherwise it holds the items that were decoded before the one that raises, or that
there was no room for. -/
theorem overwrite_randomExtensible_error (b : Build) (left : Leftovers) (order : Compare α)
    (t : ScaleType α) {v v' : OrderedCollection cap order} {s s' : ScaleDecoderStream}
    {e : Exception}
    (h : (ScaleType.randomExtensible cap order t).overwrite b left (s, v) = .error e (s', v')) :
    (v' = v ∧ (decodeLength b s = .error e s' ∨ ∃ itemCount,
        decodeLength b s = .ok itemCount s' ∧ cap.maxSize < itemCount ∧
          e = .systemError (.decode .tooManyItems))) ∨
    ∃ (itemCount : ℕ) (items : List α) (s₁ s₂ : ScaleDecoderStream),
      decodeLength b s = .ok itemCount s₁ ∧ itemCount ≤ cap.maxSize ∧ items.length < itemCount ∧
      decodeItems (t.fromStream b) items.length s₁ = .ok ⟨items, rfl⟩ s₂ ∧
      v'.items = items.foldl (fun ys y => order.insert y ys) [] ∧
      (t.fromStream b s₂ = .error e s' ∨
        ∃ y, t.fromStream b s₂ = .ok y s' ∧ ¬ cap.Admits (v'.items.length + 1) ∧
          e = .systemError (.decode .tooManyItems)) := by
  change (reading (decodeLength b) >>= _) (s, v) = _ at h
  rw [bind_apply] at h
  cases hlength : decodeLength b s with
  | error e₁ s₁ =>
    rw [reading_error hlength] at h
    cases h
    exact Or.inl ⟨rfl, Or.inl rfl⟩
  | ok itemCount s₁ =>
    rw [reading_ok hlength] at h
    dsimp only at h
    by_cases hmax : itemCount > cap.maxSize
    · rw [if_pos hmax] at h
      cases h
      exact Or.inl ⟨rfl, Or.inr ⟨itemCount, rfl, hmax, rfl⟩⟩
    · rw [if_neg hmax] at h
      obtain ⟨items, s₂, hrun⟩ := emplaceEach_eq_error (overwrites_fromStream b left t) h
      exact Or.inr ⟨itemCount, items, s₁, s₂, rfl, Nat.not_lt.mp hmax, hrun⟩

/-- The second of three items is missing. -/
theorem overwrite_randomExtensible_error_three :
    ∃ (s' : ScaleDecoderStream)
      (v' : OrderedCollection ⟨4, 4, by decide⟩ (Compare.ofUnsigned (w := 8))),
      v'.items = [7] ∧ ((v' = ⟨[9], by decide, by decide⟩ ∧
          (decodeLength .default (.ofSpan ⟨[12, 7], by decide⟩) = .error notEnoughData s' ∨
            ∃ itemCount, decodeLength .default (.ofSpan ⟨[12, 7], by decide⟩) = .ok itemCount s' ∧
              4 < itemCount ∧ notEnoughData = .systemError (.decode .tooManyItems))) ∨
        ∃ (itemCount : ℕ) (items : List (BitVec 8)) (s₁ s₂ : ScaleDecoderStream),
          decodeLength .default (.ofSpan ⟨[12, 7], by decide⟩) = .ok itemCount s₁ ∧
          itemCount ≤ 4 ∧ items.length < itemCount ∧
          decodeItems ((ScaleType.integral (.int false .one)).fromStream .default) items.length s₁ =
            .ok ⟨items, rfl⟩ s₂ ∧
          v'.items = items.foldl (fun ys y => Compare.ofUnsigned.insert y ys) [] ∧
          ((ScaleType.integral (.int false .one)).fromStream .default s₂ =
              .error notEnoughData s' ∨
            ∃ y, (ScaleType.integral (.int false .one)).fromStream .default s₂ = .ok y s' ∧
              ¬ Capacity.Admits ⟨4, 4, by decide⟩ (v'.items.length + 1) ∧
              notEnoughData = .systemError (.decode .tooManyItems))) :=
  ⟨_, ⟨[7], by decide, by decide⟩, rfl, overwrite_randomExtensible_error .default
    ⟨ScaleType.valueInit, ScaleType.valueInit, fun _ v => v⟩ .ofUnsigned
    (.integral (.int false .one)) rfl⟩

end ScaleCodec
