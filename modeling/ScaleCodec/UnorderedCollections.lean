import ScaleCodec.DynamicCollections

/-!
# Unordered containers

The unordered containers are `RandomExtensibleCollection`s as well: an `std::unordered_set` and an
`std::unordered_map`, and their multi-variants.  In what order a hash table is iterated over is left
to its implementation, and rests on the number of its buckets, which outlives `clear()`: `HashTable`
stands for any of them.
-/

namespace ScaleCodec

variable {α : Type}

/-- The hash function, `key_equal` and the policy of a hash table. -/
structure HashTable (α : Type) where
  /-- what the order of iteration rests on, besides the order so far -/
  Buckets : Type
  /-- after `clear()` -/
  cleared : Buckets → Buckets
  /-- `key_equal`, for a map on the keys of its pairs -/
  keyEqual : α → α → Bool
  refl : ∀ x, keyEqual x x = true
  symm : ∀ x y, keyEqual x y = keyEqual y x
  trans : ∀ x y z, keyEqual x y = true → keyEqual y z = true → keyEqual x z = true
  /-- a new item is put among those that are there, which may be rehashed -/
  place : Buckets → α → List α → Buckets × List α
  place_perm : ∀ buckets x ys, (place buckets x ys).2.Perm (x :: ys)

namespace HashTable

variable (table : HashTable α)

/-- No key is there twice. -/
def Distinct (xs : List α) : Prop :=
  xs.Pairwise fun x y => table.keyEqual x y = false

instance (xs : List α) : Decidable (table.Distinct xs) :=
  inferInstanceAs (Decidable (List.Pairwise _ xs))

variable {table}

theorem Distinct.perm {xs ys : List α} (h : table.Distinct xs) (hp : xs.Perm ys) :
    table.Distinct ys :=
  hp.pairwise h fun hxy => (table.symm _ _).trans hxy

theorem distinct_place {buckets : table.Buckets} {x : α} {ys : List α} (h : table.Distinct ys)
    (hx : ys.any (table.keyEqual x) = false) : table.Distinct (table.place buckets x ys).2 := by
  refine Distinct.perm ?_ (table.place_perm buckets x ys).symm
  refine List.pairwise_cons.mpr ⟨fun y hy => ?_, h⟩
  exact Bool.eq_false_iff.mpr (List.any_eq_false.mp hx y hy)

theorem admits_place {cap : Capacity} {buckets : table.Buckets} {x : α} {ys : List α}
    (h : cap.Admits (ys.length + 1)) : cap.Admits (table.place buckets x ys).2.length := by
  rwa [(table.place_perm buckets x ys).length_eq]

/-- A hash table with a single bucket, whose items come in the order of a stack. -/
def oneBucket (α : Type) [DecidableEq α] : HashTable α where
  Buckets := Unit
  cleared _ := ()
  keyEqual x y := decide (x = y)
  refl _ := decide_eq_true rfl
  symm _ _ := decide_eq_decide.mpr eq_comm
  trans _ _ _ hxy hyz := decide_eq_true ((of_decide_eq_true hxy).trans (of_decide_eq_true hyz))
  place _ x ys := ((), x :: ys)
  place_perm _ x ys := List.Perm.refl (x :: ys)

end HashTable

/-- An unordered container, as its items in the order of iteration; `multi` for those that keep
items with equal keys. -/
structure UnorderedCollection (cap : Capacity) (multi : Bool) (table : HashTable α) where
  buckets : table.Buckets
  items : List α
  distinct : multi = false → table.Distinct items
  admits : cap.Admits items.length

namespace UnorderedCollection

variable {cap : Capacity} {multi : Bool} {table : HashTable α}

/-- `clear()`. -/
def clear (c : UnorderedCollection cap multi table) : UnorderedCollection cap multi table :=
  ⟨table.cleared c.buckets, [], fun _ => List.Pairwise.nil, cap.admits_zero⟩

/-- `emplace(std::move(item))`: the node is allocated before its place is looked for. -/
def emplace (c : UnorderedCollection cap multi table) (item : α) :
    Decoding (UnorderedCollection cap multi table) :=
  if h : cap.Admits (c.items.length + 1) then
    if hnew : multi = false → c.items.any (table.keyEqual item) = false then
      let placed := table.place c.buckets item c.items
      pure ⟨placed.1, placed.2, fun hm => HashTable.distinct_place (c.distinct hm) (hnew hm),
        HashTable.admits_place h⟩
    else
      -- an item with an equal key is there
      pure c
  else throw .badAlloc

/-- `operator<<`. -/
def toStream (b : Build) (t : ScaleType α) (c : UnorderedCollection cap multi table) :
    Encoding Unit :=
  encodeDynamicCollection b (t.toStream b) c.items

/-- `operator>>`, into a container that holds items. -/
def readInto (b : Build) (left : Leftovers) (t : ScaleType α)
    (c : UnorderedCollection cap multi table) : Decoding (UnorderedCollection cap multi table) :=
  readEmplaceable b cap c.clear emplace (left.item t) (left.movedFrom t) (t.readInto b left)

end UnorderedCollection

end ScaleCodec
