import Mathlib.Data.List.Induction
import Mathlib.Data.List.Sort
import Mathlib.Order.Defs.Unbundled

/-!
# Lists ordered by a strict weak order

Two elements neither of which comes before the other are equivalent.  Inserting the elements of a
list one after the other, each behind the elements equivalent to it, sorts the list stably
(`stablySorts_foldl`); inserting only those that no equivalent element came before leaves the first
occurrence in each class (`firstOccurrences_foldl`).
-/

namespace WeakOrder

variable {α : Type} {r : α → α → Prop}

/-- Neither element comes before the other. -/
def Equivalent (r : α → α → Prop) (x y : α) : Prop :=
  ¬ r x y ∧ ¬ r y x

instance [DecidableRel r] (x y : α) : Decidable (Equivalent r x y) :=
  inferInstanceAs (Decidable (_ ∧ _))

theorem Equivalent.symm {x y : α} (h : Equivalent r x y) : Equivalent r y x :=
  ⟨h.2, h.1⟩

theorem Equivalent.trans [IsStrictWeakOrder α r] {x y z : α} (h : Equivalent r x y)
    (h' : Equivalent r y z) : Equivalent r x z :=
  IsStrictWeakOrder.incomp_trans x y z h h'

theorem equivalent_refl [IsStrictWeakOrder α r] (x : α) : Equivalent r x x :=
  ⟨irrefl x, irrefl x⟩

/-- An element cannot be beside both of two that are in order. -/
theorem rel_or_rel [IsStrictWeakOrder α r] {x z : α} (h : r x z) (y : α) : r x y ∨ r y z := by
  by_contra hnone
  push Not at hnone
  obtain ⟨hxy, hyz⟩ := hnone
  have hyx : ¬ r y x := fun hyx => hyz (trans_of r hyx h)
  have hzy : ¬ r z y := fun hzy => hxy (trans_of r h hzy)
  exact (Equivalent.trans ⟨hxy, hyx⟩ ⟨hyz, hzy⟩).1 h

/-- A predicate that holds of the elements equivalent to any of those it holds of, and of no
others. -/
def IsClass (r : α → α → Prop) (P : α → Bool) : Prop :=
  ∀ x, P x = true → ∀ y, P y = true ↔ Equivalent r x y

theorem isClass_equivalent [DecidableRel r] [IsStrictWeakOrder α r] (x : α) :
    IsClass r fun y => decide (Equivalent r x y) := by
  intro y hy z
  rw [decide_eq_true_iff] at hy ⊢
  exact ⟨fun hz => hy.symm.trans hz, fun hyz => hy.trans hyz⟩

/-! ### Stable sorting -/

section StableSort

variable [DecidableRel r]

/-- `ys` is `xs` in order, and equivalent elements are in the order they have in `xs`. -/
structure StablySorts (r : α → α → Prop) [DecidableRel r] (xs ys : List α) : Prop where
  sorted : ys.Pairwise fun x y => ¬ r y x
  perm : ys.Perm xs
  filter_eq : ∀ x, (ys.filter fun y => Equivalent r x y) = xs.filter fun y => Equivalent r x y

theorem pairwise_orderedInsert [IsStrictOrder α r] {x : α} {ys : List α}
    (h : ys.Pairwise fun y z => ¬ r z y) :
    (ys.orderedInsert r x).Pairwise fun y z => ¬ r z y := by
  induction ys with
  | nil => exact List.pairwise_singleton _ _
  | cons y ys ih =>
    obtain ⟨hy, hys⟩ := List.pairwise_cons.mp h
    rw [List.orderedInsert_cons]
    split_ifs with hxy
    · refine List.pairwise_cons.mpr ⟨fun z hz hzx => ?_, h⟩
      rcases List.mem_cons.mp hz with rfl | hz'
      · exact asymm hxy hzx
      · exact hy z hz' (trans_of r hzx hxy)
    · refine List.pairwise_cons.mpr ⟨fun z hz => ?_, ih hys⟩
      rcases (List.mem_orderedInsert r).mp hz with rfl | hz'
      · exact hxy
      · exact hy z hz'

/-- The new element is the last one of its class. -/
theorem filter_orderedInsert [IsStrictWeakOrder α r] {P : α → Bool} (hP : IsClass r P) {x : α}
    {ys : List α} (h : ys.Pairwise fun y z => ¬ r z y) :
    (ys.orderedInsert r x).filter P = ys.filter P ++ [x].filter P := by
  induction ys with
  | nil => rfl
  | cons y ys ih =>
    obtain ⟨hy, hys⟩ := List.pairwise_cons.mp h
    rw [List.orderedInsert_cons]
    split_ifs with hxy
    · by_cases hx : P x = true
      · -- nothing from `y` on is equivalent to `x`
        have hnone : ∀ z ∈ y :: ys, ¬ P z = true := by
          intro z hz hPz
          have hxz : Equivalent r x z := (hP x hx z).mp hPz
          rcases List.mem_cons.mp hz with rfl | hz'
          · exact hxz.1 hxy
          · exact (rel_or_rel hxy z).elim hxz.1 (hy z hz')
        have hnil : (y :: ys).filter P = [] := List.filter_eq_nil_iff.mpr hnone
        rw [List.filter_cons_of_pos hx, hnil, List.filter_cons_of_pos hx]
        rfl
      · rw [List.filter_cons_of_neg hx, List.filter_cons_of_neg hx, List.filter_nil,
          List.append_nil]
    · -- `y` stays in front, in its class or not
      rw [List.filter_cons, List.filter_cons, ih hys]
      split_ifs
      · rfl
      · rfl

theorem StablySorts.orderedInsert [IsStrictWeakOrder α r] {xs ys : List α}
    (h : StablySorts r xs ys) (x : α) : StablySorts r (xs ++ [x]) (ys.orderedInsert r x) where
  sorted := pairwise_orderedInsert h.sorted
  perm := (List.perm_orderedInsert r x ys).trans
    ((h.perm.cons x).trans (List.perm_append_singleton x xs).symm)
  filter_eq z := by
    rw [filter_orderedInsert (isClass_equivalent z) h.sorted, h.filter_eq, List.filter_append]

/-- Insertion from the first element to the last sorts a list stably. -/
theorem stablySorts_foldl [IsStrictWeakOrder α r] (xs : List α) :
    StablySorts r xs (xs.foldl (fun ys x => ys.orderedInsert r x) []) := by
  induction xs using List.reverseRecOn with
  | nil => exact ⟨List.Pairwise.nil, List.Perm.refl _, fun _ => rfl⟩
  | append_singleton xs x ih =>
    rw [List.foldl_append]
    exact ih.orderedInsert x

end StableSort

/-! ### First occurrences -/

section FirstOccurrences

variable [DecidableRel r]

/-- Insertion, unless an equivalent element is there. -/
def insertNew (r : α → α → Prop) [DecidableRel r] (x : α) : List α → List α
  | [] => [x]
  | y :: ys =>
    if r y x then y :: insertNew r x ys
    else if r x y then x :: y :: ys
    else y :: ys

/-- `ys` has in order, of each class in `xs`, the element that comes first in `xs`. -/
structure FirstOccurrences (r : α → α → Prop) [DecidableRel r] (xs ys : List α) : Prop where
  sorted : ys.Pairwise r
  find?_eq : ∀ x, (ys.find? fun y => Equivalent r x y) = xs.find? fun y => Equivalent r x y

/-- The new element comes behind all others when its class is searched. -/
theorem find?_insertNew [IsStrictWeakOrder α r] {P : α → Bool} (hP : IsClass r P) {x : α}
    {ys : List α} (h : ys.Pairwise r) : (insertNew r x ys).find? P = (ys ++ [x]).find? P := by
  induction ys with
  | nil => rfl
  | cons y ys ih =>
    obtain ⟨hy, hys⟩ := List.pairwise_cons.mp h
    unfold insertNew
    split_ifs with hyx hxy
    · rw [List.cons_append, List.find?_cons, List.find?_cons, ih hys]
    · by_cases hx : P x = true
      · -- all others come after `x`
        have hnone : (y :: ys).find? P = none := by
          apply List.find?_eq_none.mpr
          intro z hz hPz
          have hxz : Equivalent r x z := (hP x hx z).mp hPz
          rcases List.mem_cons.mp hz with rfl | hz'
          · exact hxz.1 hxy
          · exact hxz.1 (trans_of r hxy (hy z hz'))
        rw [List.find?_append, hnone, List.find?_cons_of_pos hx, List.find?_cons_of_pos hx]
        rfl
      · rw [List.find?_append, List.find?_cons_of_neg hx, List.find?_cons_of_neg hx,
          List.find?_nil, Option.or_none]
    · rw [List.find?_append]
      by_cases hx : P x = true
      · have hPy : P y = true := (hP x hx y).mpr ⟨hxy, hyx⟩
        rw [List.find?_cons_of_pos hPy]
        rfl
      · rw [List.find?_cons_of_neg hx, List.find?_nil, Option.or_none]

theorem mem_of_mem_insertNew {x z : α} {ys : List α} (h : z ∈ insertNew r x ys) :
    z = x ∨ z ∈ ys := by
  induction ys with
  | nil => exact Or.inl (List.mem_singleton.mp h)
  | cons y ys ih =>
    unfold insertNew at h
    split_ifs at h
    · rcases List.mem_cons.mp h with rfl | h'
      · exact Or.inr List.mem_cons_self
      · exact (ih h').imp_right (List.mem_cons_of_mem y)
    · exact List.mem_cons.mp h
    · exact Or.inr h

/-- An element is left out where an equivalent one is there. -/
theorem insertNew_of_mem [IsStrictOrder α r] {x y : α} {ys : List α} (h : ys.Pairwise r)
    (hy : y ∈ ys) (hxy : Equivalent r x y) : insertNew r x ys = ys := by
  induction ys with
  | nil => cases hy
  | cons z ys ih =>
    obtain ⟨hz, hys⟩ := List.pairwise_cons.mp h
    unfold insertNew
    split_ifs with hzx hxz
    · rcases List.mem_cons.mp hy with rfl | hy'
      · exact absurd hzx hxy.2
      · rw [ih hys hy']
    · -- what comes after `x` is not equivalent to it
      rcases List.mem_cons.mp hy with rfl | hy'
      · exact absurd hxz hxy.1
      · exact absurd (trans_of r hxz (hz y hy')) hxy.1
    · rfl

/-- An element no other is equivalent to is put among them. -/
theorem perm_insertNew {x : α} {ys : List α} (hx : ∀ y ∈ ys, ¬ Equivalent r x y) :
    (insertNew r x ys).Perm (x :: ys) := by
  induction ys with
  | nil => exact List.Perm.refl _
  | cons z ys ih =>
    unfold insertNew
    split_ifs with hzx hxz
    · have hrest := ih fun y hy => hx y (List.mem_cons_of_mem z hy)
      exact (hrest.cons z).trans (List.Perm.swap x z ys)
    · exact List.Perm.refl _
    · exact absurd ⟨hxz, hzx⟩ (hx z List.mem_cons_self)

theorem pairwise_insertNew [IsStrictOrder α r] {x : α} {ys : List α} (h : ys.Pairwise r) :
    (insertNew r x ys).Pairwise r := by
  induction ys with
  | nil => exact List.pairwise_singleton _ _
  | cons y ys ih =>
    obtain ⟨hy, hys⟩ := List.pairwise_cons.mp h
    unfold insertNew
    split_ifs with hyx hxy
    · refine List.pairwise_cons.mpr ⟨fun z hz => ?_, ih hys⟩
      rcases mem_of_mem_insertNew hz with rfl | hz'
      · exact hyx
      · exact hy z hz'
    · refine List.pairwise_cons.mpr ⟨fun z hz => ?_, h⟩
      rcases List.mem_cons.mp hz with rfl | hz'
      · exact hxy
      · exact trans_of r hxy (hy z hz')
    · exact h

theorem FirstOccurrences.insertNew [IsStrictWeakOrder α r] {xs ys : List α}
    (h : FirstOccurrences r xs ys) (x : α) :
    FirstOccurrences r (xs ++ [x]) (WeakOrder.insertNew r x ys) where
  sorted := pairwise_insertNew h.sorted
  find?_eq z := by
    rw [find?_insertNew (isClass_equivalent z) h.sorted, List.find?_append, h.find?_eq,
      List.find?_append]

/-- Insertion from the first element to the last leaves the first occurrences. -/
theorem firstOccurrences_foldl [IsStrictWeakOrder α r] (xs : List α) :
    FirstOccurrences r xs (xs.foldl (fun ys x => insertNew r x ys) []) := by
  induction xs using List.reverseRecOn with
  | nil => exact ⟨List.Pairwise.nil, fun _ => rfl⟩
  | append_singleton xs x ih =>
    rw [List.foldl_append]
    exact ih.insertNew x

/-- Whatever describes a class finds the same element on both sides. -/
theorem FirstOccurrences.find?_class {xs ys : List α} (h : FirstOccurrences r xs ys)
    {P : α → Bool} (hP : IsClass r P) : ys.find? P = xs.find? P := by
  by_cases hx : ∃ x, P x = true
  · obtain ⟨x, hx⟩ := hx
    have hclass : P = fun y => decide (Equivalent r x y) := by
      funext y
      rw [Bool.eq_iff_iff, decide_eq_true_iff]
      exact hP x hx y
    rw [hclass]
    exact h.find?_eq x
  · push Not at hx
    rw [List.find?_eq_none.mpr fun y _ => hx y, List.find?_eq_none.mpr fun y _ => hx y]

/-- An element is there iff it is the first of its class. -/
theorem FirstOccurrences.mem_iff [IsStrictWeakOrder α r] {xs ys : List α}
    (h : FirstOccurrences r xs ys) {x : α} :
    x ∈ ys ↔ (xs.find? fun y => Equivalent r x y) = some x := by
  rw [← h.find?_eq x]
  constructor
  · intro hx
    have hsorted := h.sorted
    clear h
    induction ys with
    | nil => cases hx
    | cons y ys ih =>
      obtain ⟨hy, hys⟩ := List.pairwise_cons.mp hsorted
      rcases List.mem_cons.mp hx with rfl | hx'
      · exact List.find?_cons_of_pos (decide_eq_true (equivalent_refl x))
      · -- an element after `y` is not equivalent to it
        have hne : ¬ decide (Equivalent r x y) = true := by
          rw [decide_eq_true_iff]
          exact fun heq => heq.2 (hy x hx')
        rw [List.find?_cons_of_neg (p := fun y => decide (Equivalent r x y)) hne]
        exact ih hx' hys
  · exact List.mem_of_find?_eq_some

theorem FirstOccurrences.length_le [IsStrictWeakOrder α r] {xs ys : List α}
    (h : FirstOccurrences r xs ys) : ys.length ≤ xs.length := by
  -- no class is there twice, and every element comes from `xs`
  have hnodup : ys.Nodup := h.sorted.imp fun hxy => ne_of_irrefl hxy
  have hsubset : ys ⊆ xs := fun x hx => List.mem_of_find?_eq_some (h.mem_iff.mp hx)
  exact (List.subperm_of_subset hnodup hsubset).length_le

/-- Where equivalent elements are equal, no element is missing. -/
theorem FirstOccurrences.mem_iff_mem [IsStrictWeakOrder α r] {xs ys : List α}
    (h : FirstOccurrences r xs ys) (heq : ∀ x y, Equivalent r x y → x = y) {x : α} :
    x ∈ ys ↔ x ∈ xs := by
  rw [h.mem_iff]
  constructor
  · exact List.mem_of_find?_eq_some
  · intro hx
    have hsome : (xs.find? fun y => Equivalent r x y).isSome := by
      rw [List.find?_isSome]
      exact ⟨x, hx, decide_eq_true (equivalent_refl x)⟩
    obtain ⟨y, hy⟩ := Option.isSome_iff_exists.mp hsome
    have hxy : Equivalent r x y :=
      of_decide_eq_true (List.find?_some (p := fun y => decide (Equivalent r x y)) hy)
    rw [hy, heq x y hxy]

end FirstOccurrences

end WeakOrder
