import Mathlib.Algebra.BigOperators.Group.List.Basic
import ScaleCodec.Lib.Stream

/-!
# What writers put

An `Emission` is what a writer puts, together with the refusal it ends with, if any.  Emissions are
a monoid in which a refusal absorbs what comes after it, so that sequencing writers is multiplying
their emissions, and a loop puts the product of what its rounds put (`Puts.bind`, `Puts.forM`).

Emissions may tell the values apart that they are put for, also when something else follows
(`TellsApart`).  A product does so if its first factor tells a part of the value, and the second one
the rest once that part is known (`TellsApart.mul`).
-/

/-- The symbols that are put, and then the refusal, if any. -/
@[ext]
structure Emission (ι β : Type) where
  symbols : List β
  refused : Option ι
  deriving DecidableEq

namespace Emission

variable {ι β γ : Type}

/-- Some symbols are put. -/
def put (bs : List β) : Emission ι β := ⟨bs, none⟩

/-- Nothing is put, and `i` is raised. -/
def refuse (i : ι) : Emission ι β := ⟨[], some i⟩

instance : One (Emission ι β) := ⟨put []⟩

instance : Mul (Emission ι β) where
  mul a b :=
    match a.refused with
    | none => ⟨a.symbols ++ b.symbols, b.refused⟩
    | some i => ⟨a.symbols, some i⟩

@[simp]
theorem symbols_put (bs : List β) : (put bs : Emission ι β).symbols = bs := rfl

@[simp]
theorem refused_put (bs : List β) : (put bs : Emission ι β).refused = none := rfl

@[simp]
theorem refused_refuse (i : ι) : (refuse i : Emission ι β).refused = some i := rfl

@[simp]
theorem refused_one : (1 : Emission ι β).refused = none := rfl

theorem mul_of_none {a : Emission ι β} (h : a.refused = none) (b : Emission ι β) :
    a * b = ⟨a.symbols ++ b.symbols, b.refused⟩ := by
  show (match a.refused with
    | none => ⟨a.symbols ++ b.symbols, b.refused⟩
    | some i => ⟨a.symbols, some i⟩ : Emission ι β) = _
  rw [h]

/-- Nothing comes after a refusal. -/
theorem mul_of_some {a : Emission ι β} {i : ι} (h : a.refused = some i) (b : Emission ι β) :
    a * b = a := by
  show (match a.refused with
    | none => ⟨a.symbols ++ b.symbols, b.refused⟩
    | some i => ⟨a.symbols, some i⟩ : Emission ι β) = _
  rw [h]
  exact Emission.ext rfl h.symm

/-- The first refusal is the one that counts. -/
theorem refused_mul (a b : Emission ι β) : (a * b).refused = a.refused.or b.refused := by
  cases h : a.refused with
  | none => rw [mul_of_none h, Option.none_or]
  | some i => rw [mul_of_some h, h, Option.some_or]

theorem symbols_mul {a : Emission ι β} (h : a.refused = none) (b : Emission ι β) :
    (a * b).symbols = a.symbols ++ b.symbols := by
  rw [mul_of_none h]

instance : Monoid (Emission ι β) where
  one_mul a := mul_of_none rfl a
  mul_one a := by
    cases h : a.refused with
    | none => exact (mul_of_none h 1).trans (Emission.ext (List.append_nil a.symbols) h.symm)
    | some i => exact mul_of_some h 1
  mul_assoc a b c := by
    cases ha : a.refused with
    | some i => rw [mul_of_some ha, mul_of_some ha, mul_of_some ha]
    | none =>
      have hab : (a * b).refused = b.refused := by rw [refused_mul, ha, Option.none_or]
      cases hb : b.refused with
      | some i => rw [mul_of_some (hab.trans hb), mul_of_some hb]
      | none =>
        rw [mul_of_none (hab.trans hb), mul_of_none hb, mul_of_none ha, mul_of_none ha]
        exact Emission.ext (List.append_assoc _ _ _) rfl

theorem refused_prod (l : List (Emission ι β)) :
    l.prod.refused = l.findSome? Emission.refused := by
  induction l with
  | nil => rfl
  | cons a l ih =>
    rw [List.prod_cons, refused_mul, ih, List.findSome?_cons]
    cases a.refused <;> rfl

/-- A product is not refused if none of its factors is. -/
theorem refused_prod_eq_none_iff {l : List (Emission ι β)} :
    l.prod.refused = none ↔ ∀ a ∈ l, a.refused = none := by
  rw [refused_prod, List.findSome?_eq_none_iff]

theorem symbols_prod {l : List (Emission ι β)} (h : ∀ a ∈ l, a.refused = none) :
    l.prod.symbols = l.flatMap Emission.symbols := by
  induction l with
  | nil => rfl
  | cons a l ih =>
    rw [List.prod_cons, symbols_mul (h a List.mem_cons_self),
      ih fun b hb => h b (List.mem_cons_of_mem a hb), List.flatMap_cons]

/-- What holds of the refusals of all factors holds of that of the product. -/
theorem forall_refused_mul {P : ι → Prop} {a b : Emission ι β} (ha : ∀ i ∈ a.refused, P i)
    (hb : ∀ i ∈ b.refused, P i) : ∀ i ∈ (a * b).refused, P i := by
  rw [refused_mul]
  cases h : a.refused with
  | none => exact hb
  | some i =>
    rw [h] at ha
    exact ha

theorem forall_refused_prod {P : ι → Prop} {l : List (Emission ι β)}
    (h : ∀ a ∈ l, ∀ i ∈ a.refused, P i) : ∀ i ∈ l.prod.refused, P i := by
  intro i hi
  rw [refused_prod] at hi
  obtain ⟨a, ha, hai⟩ := List.exists_of_findSome?_eq_some hi
  exact h a ha i hai

/-! ### Emissions that tell values apart -/

/-- The values of `P` that are not refused are told apart by what is put for them, whatever comes
after it. -/
def TellsApart {α : Type*} (P : α → Prop) (o : α → Emission ι β) : Prop :=
  ∀ x y, P x → P y → (o x).refused = none → (o y).refused = none →
    ∀ as bs, (o x).symbols ++ as = (o y).symbols ++ bs → x = y

section TellsApart

variable {α α' : Type*} {P Q : α → Prop} {o : α → Emission ι β}

theorem TellsApart.mono (h : TellsApart Q o) (hPQ : ∀ x, P x → Q x) : TellsApart P o :=
  fun x y hx hy => h x y (hPQ x hx) (hPQ y hy)

/-- Only what is not refused counts. -/
theorem TellsApart.of_eq {o' : α → Emission ι β} (h : TellsApart Q o')
    (heq : ∀ x, P x → (o x).refused = none → Q x ∧ o x = o' x) : TellsApart P o := by
  intro x y hx hy hok hok'
  obtain ⟨hQx, hx'⟩ := heq x hx hok
  obtain ⟨hQy, hy'⟩ := heq y hy hok'
  rw [hx'] at hok ⊢
  rw [hy'] at hok' ⊢
  exact h x y hQx hQy hok hok'

/-- A value may be told by what is put for something that determines it. -/
theorem TellsApart.comap {R : α' → Prop} {o' : α' → Emission ι β} (h : TellsApart R o') (f : α → α')
    (hf : ∀ x, P x → R (f x)) (hinj : ∀ x y, P x → P y → f x = f y → x = y) :
    TellsApart P fun x => o' (f x) :=
  fun x y hx hy hok hok' as bs heq =>
    hinj x y hx hy (h _ _ (hf x hx) (hf y hy) hok hok' as bs heq)

/-- Words of one length need only be different. -/
theorem tellsApart_put {word : α → List β}
    (hlen : ∀ x y, P x → P y → (word x).length = (word y).length)
    (hinj : ∀ x y, P x → P y → word x = word y → x = y) :
    TellsApart P fun x => (put (word x) : Emission ι β) := by
  intro x y hx hy _ _ as bs heq
  exact hinj x y hx hy (List.append_inj_left heq (hlen x y hx hy))

/-- What comes first tells a part of the value, and what comes after it the rest. -/
theorem TellsApart.mul {R : α' → Prop} {f : α → α'} {o' : α' → Emission ι β}
    (h' : TellsApart R o') (hf : ∀ x, P x → R (f x))
    (h : ∀ c, TellsApart (fun x => P x ∧ f x = c) o) :
    TellsApart P fun x => o' (f x) * o x := by
  intro x y hx hy hox hoy as bs heq
  rw [refused_mul, Option.or_eq_none_iff] at hox hoy
  rw [symbols_mul hox.1, symbols_mul hoy.1, List.append_assoc, List.append_assoc] at heq
  have hfirst : f x = f y := h' _ _ (hf x hx) (hf y hy) hox.1 hoy.1 _ _ heq
  rw [hfirst] at heq
  exact h (f y) x y ⟨hx, hfirst⟩ ⟨hy, rfl⟩ hox.2 hoy.2 as bs (List.append_cancel_left heq)

/-- Lists of one length, item by item. -/
theorem TellsApart.prod_map (h : TellsApart P o) (n : ℕ) :
    TellsApart (fun items : List α => items.length = n ∧ ∀ x ∈ items, P x)
      fun items => (items.map o).prod := by
  induction n with
  | zero =>
    rintro items items' ⟨hlen, _⟩ ⟨hlen', _⟩ _ _ _ _ _
    rw [List.length_eq_zero_iff.mp hlen, List.length_eq_zero_iff.mp hlen']
  | succ n ih =>
    rintro items items' ⟨hlen, hitems⟩ ⟨hlen', hitems'⟩ hok hok' as bs heq
    obtain ⟨x, items, rfl⟩ := List.exists_cons_of_length_eq_add_one hlen
    obtain ⟨x', items', rfl⟩ := List.exists_cons_of_length_eq_add_one hlen'
    rw [List.forall_mem_cons] at hitems hitems'
    simp only [List.map_cons, List.prod_cons] at hok hok' heq
    rw [refused_mul, Option.or_eq_none_iff] at hok hok'
    rw [symbols_mul hok.1, symbols_mul hok'.1, List.append_assoc, List.append_assoc] at heq
    have hx : x = x' := h x x' hitems.1 hitems'.1 hok.1 hok'.1 _ _ heq
    subst hx
    rw [ih items items' ⟨Nat.succ.inj hlen, hitems.2⟩ ⟨Nat.succ.inj hlen', hitems'.2⟩
      hok.2 hok'.2 as bs (List.append_cancel_left heq)]

/-- Families, component by component. -/
theorem tellsApart_prod_ofFn {n : ℕ} {αs : Fin n → Type*} {P : ∀ i, αs i → Prop}
    {o : ∀ i, αs i → Emission ι β} (h : ∀ i, TellsApart (P i) (o i)) :
    TellsApart (fun v : ∀ i, αs i => ∀ i, P i (v i)) fun v =>
      (List.ofFn fun i => o i (v i)).prod := by
  induction n with
  | zero => exact fun v w _ _ _ _ _ _ _ => funext fun i => i.elim0
  | succ n ih =>
    intro v w hv hw hok hok' as bs heq
    simp only [List.ofFn_succ, List.prod_cons] at hok hok' heq
    rw [refused_mul, Option.or_eq_none_iff] at hok hok'
    rw [symbols_mul hok.1, symbols_mul hok'.1, List.append_assoc, List.append_assoc] at heq
    have hzero : v 0 = w 0 := h 0 _ _ (hv 0) (hw 0) hok.1 hok'.1 _ _ heq
    rw [hzero] at heq
    have htail := ih (fun i => h i.succ) _ _ (fun i => hv i.succ) (fun i => hw i.succ) hok.2 hok'.2
      as bs (List.append_cancel_left heq)
    funext i
    cases i using Fin.cases with
    | zero => exact hzero
    | succ i => exact congrFun htail i

end TellsApart

end Emission

/-! ### Writers and what they put -/

section Puts

open Emission

variable {ε σ ι β : Type} {α : Type*} {K : Sink σ β} {up : ι → ε}

/-- `e` puts the symbols and then returns, or raises the refusal as an exception. -/
structure Puts (K : Sink σ β) (up : ι → ε) (e : EStateM ε σ Unit) (o : Emission ι β) : Prop where
  emits : K.Emits e o.symbols (match o.refused with
    | none => .ok ()
    | some i => .error (up i))

theorem Puts.of_writes {e : EStateM ε σ Unit} {bs : List β} (h : K.Writes e bs) :
    Puts K up e (put bs) := ⟨h⟩

theorem Puts.of_error {e : EStateM ε σ Unit} {i : ι} (h : K.Emits e [] (.error (up i))) :
    Puts K up e (refuse i) := ⟨h⟩

theorem puts_pure : Puts K up (pure ()) 1 :=
  ⟨Sink.emits_pure ()⟩

theorem Puts.bind {e : EStateM ε σ Unit} {f : Unit → EStateM ε σ Unit} {a b : Emission ι β}
    (he : Puts K up e a) (hf : Puts K up (f ()) b) : Puts K up (e >>= f) (a * b) := by
  obtain ⟨he⟩ := he
  obtain ⟨hf⟩ := hf
  constructor
  cases h : a.refused with
  | none =>
    rw [h] at he
    rw [mul_of_none h]
    exact Sink.Emits.bind he hf
  | some i =>
    rw [h] at he
    rw [mul_of_some h, h]
    exact Sink.Emits.bind_error he

/-- A loop puts the product of what its rounds put. -/
theorem Puts.forM {e : α → EStateM ε σ Unit} {o : α → Emission ι β} (as : List α)
    (h : ∀ a ∈ as, Puts K up (e a) (o a)) : Puts K up (as.forM e) (as.map o).prod := by
  induction as with
  | nil => exact puts_pure
  | cons a as ih =>
    rw [List.map_cons, List.prod_cons]
    exact (h a List.mem_cons_self).bind (ih fun a' h' => h a' (List.mem_cons_of_mem a h'))

theorem Puts.run_ok {e : EStateM ε σ Unit} {o : Emission ι β} (h : Puts K up e o)
    (ho : o.refused = none) (s : σ) : e s = .ok () (K.put s o.symbols) := by
  obtain ⟨h⟩ := h
  rw [ho] at h
  exact h s

theorem Puts.run_error {e : EStateM ε σ Unit} {o : Emission ι β} {i : ι} (h : Puts K up e o)
    (ho : o.refused = some i) (s : σ) : e s = .error (up i) (K.put s o.symbols) := by
  obtain ⟨h⟩ := h
  rw [ho] at h
  exact h s

end Puts
