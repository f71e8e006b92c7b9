import ScaleCodec.Lib.Stream
import Mathlib.Algebra.BigOperators.Fin
import Mathlib.Data.Fin.Tuple.Basic

/-!
# Readers and the grammar of what they read

A `Grammar` says which strings spell a value.  `S.Parses d G` says that the reader `d` is sound and
complete for `G`: it returns a value and moves to a position iff the string in between spells the
value.

`Parses` composes along `bind`, so that the grammar of a reader is put together of those of its
parts.  A reader returns one value only, so the spellings of its grammar are not ambiguous, and none
begins another one (`Parses.unambiguous`).

Of two grammars, what spells a value of the first one may spell the related values of the second one
(`Shares`); and a spelling may be known to have at least some length (`AtLeast`).
-/

/-- Which strings spell a value. -/
abbrev Grammar (β α : Type) := α → List β → Prop

namespace Grammar

variable {β α γ : Type} {n : ℕ}

/-- Two strings in a row, of which the first decides what the second may be. -/
def andThen (G : Grammar β α) (H : α → Grammar β γ) : Grammar β γ := fun c bs =>
  ∃ a as cs, G a as ∧ H a c cs ∧ bs = as ++ cs

/-- The values of a list, one after the other. -/
def each (G : Grammar β α) : Grammar β (List α) := fun items bs =>
  ∃ parts, List.Forall₂ G items parts ∧ bs = parts.flatten

/-- The components of a family, one after the other. -/
def product {αs : Fin n → Type} (G : ∀ i, Grammar β (αs i)) : Grammar β (∀ i, αs i) := fun v bs =>
  ∃ parts : Fin n → List β, (∀ i, G i (v i) (parts i)) ∧ bs = (List.ofFn parts).flatten

/-! ### Lists and families by their first component -/

theorem each_nil {G : Grammar β α} {bs : List β} : each G [] bs ↔ bs = [] := by
  constructor
  · rintro ⟨parts, hparts, rfl⟩
    cases hparts
    rfl
  · rintro rfl
    exact ⟨[], .nil, rfl⟩

theorem each_cons {G : Grammar β α} {x : α} {items : List α} {bs : List β} :
    each G (x :: items) bs ↔ ∃ p q, G x p ∧ each G items q ∧ bs = p ++ q := by
  constructor
  · rintro ⟨parts, hparts, rfl⟩
    cases hparts with
    | cons hx hitems => exact ⟨_, _, hx, ⟨_, hitems, rfl⟩, rfl⟩
  · rintro ⟨p, q, hx, ⟨parts, hitems, rfl⟩, rfl⟩
    exact ⟨p :: parts, .cons hx hitems, rfl⟩

theorem product_zero {αs : Fin 0 → Type} {G : ∀ i, Grammar β (αs i)} {v : ∀ i, αs i}
    {bs : List β} : product G v bs ↔ bs = [] := by
  constructor
  · rintro ⟨parts, _, rfl⟩
    rfl
  · rintro rfl
    exact ⟨fun i => i.elim0, fun i => i.elim0, rfl⟩

theorem product_succ {αs : Fin (n + 1) → Type} {G : ∀ i, Grammar β (αs i)} {v : ∀ i, αs i}
    {bs : List β} : product G v bs ↔ ∃ p q, G 0 (v 0) p ∧
      product (fun i => G i.succ) (fun i => v i.succ) q ∧ bs = p ++ q := by
  constructor
  · rintro ⟨parts, hparts, rfl⟩
    refine ⟨parts 0, _, hparts 0, ⟨fun i => parts i.succ, fun i => hparts i.succ, rfl⟩, ?_⟩
    rw [List.ofFn_succ, List.flatten_cons]
  · rintro ⟨p, q, hp, ⟨parts, hparts, rfl⟩, rfl⟩
    refine ⟨Fin.cons p parts, fun i => ?_, ?_⟩
    · cases i using Fin.cases with
      | zero => exact hp
      | succ i => exact hparts i
    · rw [List.ofFn_succ, List.flatten_cons]
      rfl

/-- The items of a list as a family. -/
theorem each_ofFn {G : Grammar β α} {v : Fin n → α} {bs : List β} :
    each G (List.ofFn v) bs ↔ product (fun _ => G) v bs := by
  induction n generalizing bs with
  | zero => rw [List.ofFn_zero, each_nil, product_zero]
  | succ n ih =>
    rw [List.ofFn_succ, each_cons, product_succ]
    simp only [ih]

/-! ### Lengths of spellings -/

/-- No spelling of a value is shorter than `f` says. -/
def AtLeast (f : α → ℕ) (G : Grammar β α) : Prop :=
  ∀ a bs, G a bs → f a ≤ bs.length

theorem AtLeast.each {f : α → ℕ} {G : Grammar β α} (h : AtLeast f G) {items : List α}
    {bs : List β} (hbs : each G items bs) : (items.map f).sum ≤ bs.length := by
  induction items generalizing bs with
  | nil => exact Nat.zero_le _
  | cons x items ih =>
    obtain ⟨p, q, hp, hq, rfl⟩ := each_cons.mp hbs
    rw [List.map_cons, List.sum_cons, List.length_append]
    exact Nat.add_le_add (h x p hp) (ih hq)

theorem AtLeast.product {αs : Fin n → Type} {f : ∀ i, αs i → ℕ} {G : ∀ i, Grammar β (αs i)}
    (h : ∀ i, AtLeast (f i) (G i)) {v : ∀ i, αs i} {bs : List β} (hbs : product G v bs) :
    ∑ i, f i (v i) ≤ bs.length := by
  induction n generalizing bs with
  | zero => exact Nat.zero_le _
  | succ n ih =>
    obtain ⟨p, q, hp, hq, rfl⟩ := product_succ.mp hbs
    rw [Fin.sum_univ_succ, List.length_append]
    exact Nat.add_le_add (h 0 _ p hp) (ih (fun i => h i.succ) hq)

/-! ### Spellings that are shared -/

/-- Every spelling of a value is one of the values that it is related to. -/
def Shares (R : α → γ → Prop) (G : Grammar β α) (H : Grammar β γ) : Prop :=
  ∀ a c bs, R a c → G a bs → H c bs

theorem Shares.each {R : α → γ → Prop} {G : Grammar β α} {H : Grammar β γ} (h : Shares R G H) :
    Shares (List.Forall₂ R) (each G) (each H) := by
  rintro items items' _ hR ⟨parts, hparts, rfl⟩
  refine ⟨parts, ?_, rfl⟩
  induction hR generalizing parts with
  | nil =>
    cases hparts
    exact .nil
  | cons hx _ ih =>
    cases hparts with
    | cons hpart hrest => exact .cons (h _ _ _ hx hpart) (ih _ hrest)

theorem Shares.product {αs γs : Fin n → Type} {R : ∀ i, αs i → γs i → Prop}
    {G : ∀ i, Grammar β (αs i)} {H : ∀ i, Grammar β (γs i)} (h : ∀ i, Shares (R i) (G i) (H i)) :
    Shares (fun v w => ∀ i, R i (v i) (w i)) (product G) (product H) := by
  rintro v w _ hR ⟨parts, hparts, rfl⟩
  exact ⟨parts, fun i => h i _ _ _ (hR i) (hparts i), rfl⟩

end Grammar

/-! ### Sound and complete readers -/

namespace Source

open Grammar

variable {ε σ β α γ : Type} (S : Source σ β)

/-- The reader returns what the grammar says, and nothing else. -/
def Parses (d : EStateM ε σ α) (G : Grammar β α) : Prop :=
  ∀ s a s', S.Valid s → (d s = .ok a s' ↔ ∃ bs, S.Consumed s bs s' ∧ G a bs)

variable {S} {d : EStateM ε σ α} {f : α → EStateM ε σ γ} {G G' : Grammar β α}
  {H : α → Grammar β γ}

/-- A reader that takes every spelling, and nothing but spellings. -/
theorem Parses.of_reads (hreads : ∀ a bs, G a bs → S.Reads d bs a)
    (hok : ∀ s a s', S.Valid s → d s = .ok a s' → ∃ bs, S.Consumed s bs s' ∧ G a bs) :
    S.Parses d G := by
  intro s a s' hs
  refine ⟨hok s a s' hs, ?_⟩
  rintro ⟨bs, hbs, hG⟩
  exact (hreads a bs hG).run hs hbs

theorem Parses.reads (h : S.Parses d G) {a : α} {bs : List β} (hG : G a bs) : S.Reads d bs a :=
  fun s hs hbs => (h s a _ hs).mpr ⟨bs, ⟨hbs, rfl⟩, hG⟩

theorem Parses.congr (h : S.Parses d G) (hG : ∀ a bs, G a bs ↔ G' a bs) : S.Parses d G' := by
  have heq : G = G' := funext fun a => funext fun bs => propext (hG a bs)
  rwa [heq] at h

theorem parses_pure (a : α) :
    S.Parses (pure a : EStateM ε σ α) fun a' bs => a' = a ∧ bs = [] := by
  refine .of_reads ?_ ?_
  · rintro _ _ ⟨rfl, rfl⟩
    exact reads_pure _
  · rintro s _ _ _ ⟨⟩
    exact ⟨[], Consumed.refl s, rfl, rfl⟩

theorem parses_throw (e : ε) : S.Parses (throw e : EStateM ε σ α) fun _ _ => False := by
  refine .of_reads (fun _ _ h => h.elim) ?_
  rintro s a s' _ ⟨⟩

theorem Parses.bind (hd : S.Parses d G) (hf : ∀ a, S.Parses (f a) (H a)) :
    S.Parses (d >>= f) (G.andThen H) := by
  refine .of_reads ?_ ?_
  · rintro c _ ⟨a, as, cs, hG, hH, rfl⟩
    exact (hd.reads hG).bind ((hf a).reads hH)
  · intro s c s' hs h
    obtain ⟨a, s₁, ha, hc⟩ := EStateM.bind_eq_ok.mp h
    obtain ⟨as, has, hG⟩ := (hd s a s₁ hs).mp ha
    obtain ⟨cs, hcs, hH⟩ := (hf a s₁ c s' (has.valid hs)).mp hc
    exact ⟨as ++ cs, has.trans hcs, a, as, cs, hG, hH, rfl⟩

/-- A reader may go on to compute with what it read. -/
theorem Parses.map (hd : S.Parses d G) (g : α → γ) :
    S.Parses (d >>= fun a => pure (g a)) fun c bs => ∃ a, G a bs ∧ c = g a := by
  refine (hd.bind fun a => parses_pure (g a)).congr fun c bs => ?_
  constructor
  · rintro ⟨a, as, _, hG, ⟨rfl, rfl⟩, rfl⟩
    exact ⟨a, by rwa [List.append_nil], rfl⟩
  · rintro ⟨a, hG, rfl⟩
    exact ⟨a, bs, [], hG, ⟨rfl, rfl⟩, (List.append_nil bs).symm⟩

/-- What was read is checked. -/
theorem Parses.check (hd : S.Parses d G) {P : α → Prop} [DecidablePred P] (e : ε) :
    S.Parses (d >>= fun a => if P a then pure a else throw e) fun a bs => P a ∧ G a bs := by
  refine .of_reads ?_ ?_
  · rintro a bs ⟨hP, hG⟩
    refine (hd.reads hG).bind_nil ?_
    rw [if_pos hP]
    exact reads_pure a
  · intro s a s' hs h
    obtain ⟨a', s₁, ha, hpure⟩ := EStateM.bind_eq_ok.mp h
    split_ifs at hpure with hP
    · cases hpure
      obtain ⟨bs, hbs, hG⟩ := (hd s a s' hs).mp ha
      exact ⟨bs, hbs, hP, hG⟩
    · cases hpure

/-- Of two spellings that come next, neither is longer, and both are of the same value. -/
theorem Parses.unambiguous (h : S.Parses d G) {s : σ} (hs : S.Valid s) {a a' : α}
    {bs bs' : List β} (hG : G a bs) (hG' : G a' bs') (hbs : bs <+: S.rest s)
    (hbs' : bs' <+: S.rest s) : a = a' ∧ S.advance s bs.length = S.advance s bs'.length := by
  have hrun := h.reads hG s hs hbs
  have hrun' := h.reads hG' s hs hbs'
  rw [hrun] at hrun'
  injection hrun' with hvalue hend
  exact ⟨hvalue, hend⟩

end Source
