import Mathlib.Data.List.Basic
import Mathlib.Logic.Function.Basic

/-!
# Readers and writers over byte streams

Programs that read or write a stream and may raise are `EStateM ε σ α`: a raise keeps the state
reached so far, as a stream does.  This file fixes what such programs do to a stream without
saying what a stream is.

* `Sink` is a state that symbols are put into; `Emits e bs r` says that `e` puts exactly `bs` and
  ends in `r`, from any state.  An `Emitter` is a program that emits some string.
* `Source` is a state that symbols are taken from; `Takes d bs r` says that wherever `bs` comes
  next, `d` takes exactly `bs` and ends in `r`, with `Reads d bs a` for the case that it returns
  `a`, and `Consumed s bs s'` that `bs` lies between the positions `s` and `s'`.  `SafeAt P d s`
  says that at `s` the program `d` moves forward or raises an exception that `P` holds of.
* `RoundTrips e d a`: what `e` puts, `d` reads back as `a`.

Each judgement composes along `bind`, which is what proofs about concrete codecs use.
-/

/-! ### Running a bind -/

namespace EStateM

variable {ε σ α γ : Type}

instance decidableEqResult [DecidableEq ε] [DecidableEq σ] [DecidableEq α] :
    DecidableEq (Result ε σ α)
  | .ok a s, .ok a' s' => decidable_of_iff (a = a' ∧ s = s') (by simp)
  | .error e s, .error e' s' => decidable_of_iff (e = e' ∧ s = s') (by simp)
  | .ok _ _, .error _ _ => isFalse fun h => nomatch h
  | .error _ _, .ok _ _ => isFalse fun h => nomatch h

theorem bind_apply (x : EStateM ε σ α) (f : α → EStateM ε σ γ) (s : σ) :
    (x >>= f) s = match x s with
      | .ok a s' => f a s'
      | .error e s' => .error e s' := rfl

theorem bind_ok {x : EStateM ε σ α} {f : α → EStateM ε σ γ} {s s' : σ} {a : α}
    (h : x s = .ok a s') : (x >>= f) s = f a s' := by
  rw [bind_apply, h]

theorem bind_error {x : EStateM ε σ α} {f : α → EStateM ε σ γ} {s s' : σ} {e : ε}
    (h : x s = .error e s') : (x >>= f) s = .error e s' := by
  rw [bind_apply, h]

theorem pure_apply (a : α) (s : σ) : (pure a : EStateM ε σ α) s = .ok a s := rfl

theorem throw_apply (e : ε) (s : σ) : (throw e : EStateM ε σ α) s = .error e s := rfl

/-- Inversion of a bind that returns. -/
theorem bind_eq_ok {x : EStateM ε σ α} {f : α → EStateM ε σ γ} {s s'' : σ} {c : γ} :
    (x >>= f) s = .ok c s'' ↔ ∃ a s', x s = .ok a s' ∧ f a s' = .ok c s'' := by
  rw [bind_apply]
  cases x s with
  | ok a s' => simp
  | error e s' => simp

end EStateM

/-! ### Writing -/

/-- A state that symbols are put into, one string after the other. -/
structure Sink (σ β : Type) where
  /-- The state after the string has been put. -/
  put : σ → List β → σ
  /-- A state that shows what is put into it. -/
  empty : σ
  put_nil : ∀ s, put s [] = s
  put_append : ∀ s as bs, put (put s as) bs = put s (as ++ bs)
  put_empty_injective : Function.Injective (put empty)

namespace Sink

variable {ε σ β α γ : Type} (K : Sink σ β)

/-- `e` puts exactly `bs` and then returns or raises as `r` says, whatever was put before. -/
def Emits (e : EStateM ε σ α) (bs : List β) : Except ε α → Prop
  | .ok a => ∀ s, e s = .ok a (K.put s bs)
  | .error x => ∀ s, e s = .error x (K.put s bs)

/-- `e` puts exactly `bs` and succeeds. -/
abbrev Writes (e : EStateM ε σ Unit) (bs : List β) : Prop :=
  K.Emits e bs (.ok ())

variable {K}

theorem emits_pure (a : α) : K.Emits (pure a : EStateM ε σ α) [] (.ok a) := by
  intro s
  rw [EStateM.pure_apply, K.put_nil]

theorem emits_throw (x : ε) : K.Emits (throw x : EStateM ε σ α) [] (.error x) := by
  intro s
  rw [EStateM.throw_apply, K.put_nil]

theorem Emits.bind {e : EStateM ε σ α} {f : α → EStateM ε σ γ} {as bs : List β} {a : α}
    {r : Except ε γ} (he : K.Emits e as (.ok a)) (hf : K.Emits (f a) bs r) :
    K.Emits (e >>= f) (as ++ bs) r := by
  cases r with
  | ok c => intro s; rw [EStateM.bind_ok (he s), hf, K.put_append]
  | error x => intro s; rw [EStateM.bind_ok (he s), hf, K.put_append]

theorem Emits.bind_error {e : EStateM ε σ α} {f : α → EStateM ε σ γ} {as : List β} {x : ε}
    (he : K.Emits e as (.error x)) : K.Emits (e >>= f) as (.error x) := by
  intro s
  rw [EStateM.bind_error (he s)]

/-- A program puts one string only. -/
theorem Emits.unique {e : EStateM ε σ α} {as bs : List β} {r r' : Except ε α}
    (ha : K.Emits e as r) (hb : K.Emits e bs r') : as = bs ∧ r = r' := by
  cases r <;> cases r'
  all_goals
    have h := (ha K.empty).symm.trans (hb K.empty)
    first
    | injection h with h1 h2
      exact ⟨K.put_empty_injective h2, by rw [h1]⟩
    | cases h

/-! ### Programs that write only -/

/-- `e` does nothing with the state but to put a string, the same one in every state. -/
def Emitter (K : Sink σ β) (e : EStateM ε σ α) : Prop :=
  ∃ bs r, K.Emits e bs r

theorem emitter_pure (a : α) : K.Emitter (pure a : EStateM ε σ α) :=
  ⟨[], .ok a, emits_pure a⟩

theorem emitter_throw (x : ε) : K.Emitter (throw x : EStateM ε σ α) :=
  ⟨[], .error x, emits_throw x⟩

theorem Emitter.bind {e : EStateM ε σ α} {f : α → EStateM ε σ γ} (he : K.Emitter e)
    (hf : ∀ a, K.Emitter (f a)) : K.Emitter (e >>= f) := by
  obtain ⟨as, r, he⟩ := he
  cases r with
  | error x => exact ⟨as, .error x, he.bind_error⟩
  | ok a =>
    obtain ⟨bs, r, hf⟩ := hf a
    exact ⟨as ++ bs, r, he.bind hf⟩

/-- What two programs put one after the other falls into what each of them puts. -/
theorem Emitter.writes_bind {e : EStateM ε σ Unit} {f : Unit → EStateM ε σ Unit} {bs : List β}
    (he : K.Emitter e) (hf : K.Emitter (f ())) (h : K.Writes (e >>= f) bs) :
    ∃ as cs, bs = as ++ cs ∧ K.Writes e as ∧ K.Writes (f ()) cs := by
  obtain ⟨as, r, he⟩ := he
  cases r with
  | error x => cases (he.bind_error.unique h).2
  | ok a =>
    obtain ⟨cs, r', hf⟩ := hf
    obtain ⟨hbs, rfl⟩ := (he.bind hf).unique h
    exact ⟨as, cs, hbs.symm, he, hf⟩

theorem Emitter.forM {e : α → EStateM ε σ Unit} (as : List α) (he : ∀ a ∈ as, K.Emitter (e a)) :
    K.Emitter (as.forM e) := by
  induction as with
  | nil => exact emitter_pure ()
  | cons a as ih =>
    exact (he a List.mem_cons_self).bind fun _ => ih fun a' h => he a' (List.mem_cons_of_mem a h)

end Sink

/-! ### Reading -/

/-- A state that symbols are taken from, by a position that only moves forward. -/
structure Source (σ β : Type) where
  /-- The positions a reader can be at. -/
  Valid : σ → Prop
  /-- What is still to be read. -/
  rest : σ → List β
  /-- The position a number of symbols further on. -/
  advance : σ → ℕ → σ
  rest_advance : ∀ s n, rest (advance s n) = (rest s).drop n
  advance_zero : ∀ s, advance s 0 = s
  advance_advance : ∀ s m n, advance (advance s m) n = advance s (m + n)
  valid_advance : ∀ s n, Valid s → n ≤ (rest s).length → Valid (advance s n)

namespace Source

variable {ε σ β α γ : Type} (S : Source σ β)

/-- Between the positions `s` and `s'` lies exactly `bs`. -/
def Consumed (s : σ) (bs : List β) (s' : σ) : Prop :=
  bs <+: S.rest s ∧ s' = S.advance s bs.length

/-- Wherever `bs` comes next, `d` takes exactly `bs` and then returns or raises as `r` says. -/
def Takes (d : EStateM ε σ α) (bs : List β) : Except ε α → Prop
  | .ok a => ∀ s, S.Valid s → bs <+: S.rest s → d s = .ok a (S.advance s bs.length)
  | .error x => ∀ s, S.Valid s → bs <+: S.rest s → d s = .error x (S.advance s bs.length)

/-- Wherever `bs` comes next, `d` takes exactly `bs` and returns `a`. -/
abbrev Reads (d : EStateM ε σ α) (bs : List β) (a : α) : Prop :=
  S.Takes d bs (.ok a)

/-- At `s`, `d` either returns, having moved forward over a prefix of the input, or raises an
exception that `P` holds of. -/
def SafeAt (P : ε → Prop) (d : EStateM ε σ α) (s : σ) : Prop :=
  match d s with
  | .ok _ s' => ∃ bs, S.Consumed s bs s'
  | .error e _ => P e

variable {S}

theorem Consumed.refl (s : σ) : S.Consumed s [] s :=
  ⟨List.nil_prefix, by rw [List.length_nil, S.advance_zero]⟩

theorem Consumed.trans {s s' s'' : σ} {as bs : List β} (h : S.Consumed s as s')
    (h' : S.Consumed s' bs s'') : S.Consumed s (as ++ bs) s'' := by
  obtain ⟨⟨tail, ht⟩, rfl⟩ := h
  obtain ⟨hp, rfl⟩ := h'
  rw [S.rest_advance, ← ht, List.drop_left] at hp
  refine ⟨?_, by rw [S.advance_advance, List.length_append]⟩
  rw [← ht]
  exact (List.prefix_append_right_inj as).mpr hp

theorem Consumed.valid {s s' : σ} {bs : List β} (h : S.Consumed s bs s') (hs : S.Valid s) :
    S.Valid s' := by
  rw [h.2]
  exact S.valid_advance s _ hs h.1.length_le

theorem Consumed.rest_eq {s s' : σ} {bs : List β} (h : S.Consumed s bs s') :
    S.rest s = bs ++ S.rest s' := by
  obtain ⟨⟨tail, ht⟩, rfl⟩ := h
  rw [S.rest_advance, ← ht, List.drop_left]

/-- Only one string lies between two positions. -/
theorem Consumed.unique {s s' : σ} {as bs : List β} (h : S.Consumed s as s')
    (h' : S.Consumed s bs s') : as = bs :=
  List.append_cancel_right (h.rest_eq.symm.trans h'.rest_eq)

/-- A reader of `bs` started where `bs` begins ends where it ends. -/
theorem Reads.run {d : EStateM ε σ α} {s s' : σ} {bs : List β} {a : α}
    (h : S.Reads d bs a) (hs : S.Valid s) (hbs : S.Consumed s bs s') : d s = .ok a s' := by
  rw [hbs.2]
  exact h s hs hbs.1

theorem reads_pure (a : α) : S.Reads (pure a : EStateM ε σ α) [] a := by
  intro s _ _
  rw [EStateM.pure_apply, List.length_nil, S.advance_zero]

theorem takes_throw (e : ε) : S.Takes (throw e : EStateM ε σ α) [] (.error e) := by
  intro s _ _
  rw [EStateM.throw_apply, List.length_nil, S.advance_zero]

/-- The two parts of a string lie one after the other. -/
theorem prefix_rest_advance {s : σ} {as bs : List β} (h : as ++ bs <+: S.rest s) :
    as <+: S.rest s ∧ bs <+: S.rest (S.advance s as.length) := by
  refine ⟨(List.prefix_append as bs).trans h, ?_⟩
  obtain ⟨tail, ht⟩ := h
  rw [S.rest_advance, ← ht, List.append_assoc, List.drop_left]
  exact List.prefix_append bs tail

theorem Takes.bind {d : EStateM ε σ α} {f : α → EStateM ε σ γ} {as bs : List β} {a : α}
    {r : Except ε γ} (hd : S.Reads d as a) (hf : S.Takes (f a) bs r) :
    S.Takes (d >>= f) (as ++ bs) r := by
  cases r with
  | ok c =>
    intro s hs hp
    obtain ⟨has, hbs⟩ := prefix_rest_advance hp
    rw [EStateM.bind_ok (hd s hs has), hf _ (S.valid_advance s _ hs has.length_le) hbs,
      S.advance_advance, List.length_append]
  | error x =>
    intro s hs hp
    obtain ⟨has, hbs⟩ := prefix_rest_advance hp
    rw [EStateM.bind_ok (hd s hs has), hf _ (S.valid_advance s _ hs has.length_le) hbs,
      S.advance_advance, List.length_append]

/-- Continuing after a read with something that reads nothing. -/
theorem Takes.bind_nil {d : EStateM ε σ α} {f : α → EStateM ε σ γ} {as : List β} {a : α}
    {r : Except ε γ} (hd : S.Reads d as a) (hf : S.Takes (f a) [] r) :
    S.Takes (d >>= f) as r := by
  have h := hd.bind hf
  rwa [List.append_nil] at h

/-! ### Programs that return or raise a known exception -/

section SafeAt

variable {P : ε → Prop} {d : EStateM ε σ α} {s s' : σ}

theorem safeAt_pure (a : α) (s : σ) : S.SafeAt P (pure a : EStateM ε σ α) s :=
  ⟨[], Consumed.refl s⟩

theorem safeAt_throw {e : ε} (he : P e) (s : σ) : S.SafeAt P (throw e : EStateM ε σ α) s := he

theorem SafeAt.consumed (h : S.SafeAt P d s) {a : α} (hok : d s = .ok a s') :
    ∃ bs, S.Consumed s bs s' := by
  rwa [SafeAt, hok] at h

theorem SafeAt.raised (h : S.SafeAt P d s) {e : ε} (herr : d s = .error e s') : P e := by
  rwa [SafeAt, herr] at h

theorem SafeAt.bind {f : α → EStateM ε σ γ} (hs : S.Valid s) (hd : S.SafeAt P d s)
    (hf : ∀ a s', S.Valid s' → d s = .ok a s' → S.SafeAt P (f a) s') :
    S.SafeAt P (d >>= f) s := by
  unfold SafeAt at hd ⊢
  rw [EStateM.bind_apply]
  cases hok : d s with
  | error e s' => rwa [hok] at hd
  | ok a s' =>
    rw [hok] at hd
    obtain ⟨as, has⟩ := hd
    have hfa := hf a s' (has.valid hs) hok
    unfold SafeAt at hfa
    dsimp only
    cases hfs : f a s' with
    | error e s'' => rwa [hfs] at hfa
    | ok c s'' =>
      rw [hfs] at hfa
      obtain ⟨bs, hbs⟩ := hfa
      exact ⟨as ++ bs, has.trans hbs⟩

end SafeAt

end Source

/-! ### Writing, then reading back -/

section RoundTrip

variable {ε ε' σ τ β α γ : Type} (K : Sink τ β) (S : Source σ β)

/-- What `e` puts, `d` reads back as `a`. -/
def RoundTrips (e : EStateM ε τ Unit) (d : EStateM ε' σ α) (a : α) : Prop :=
  ∃ bs, K.Writes e bs ∧ S.Reads d bs a

variable {K S}

theorem roundTrips_pure (a : α) :
    RoundTrips K S (pure () : EStateM ε τ Unit) (pure a : EStateM ε' σ α) a :=
  ⟨[], Sink.emits_pure (), Source.reads_pure a⟩

/-- Sequencing two writers and, alike, the two readers. -/
theorem RoundTrips.bind {e : EStateM ε τ Unit} {e' : Unit → EStateM ε τ Unit}
    {d : EStateM ε' σ α} {f : α → EStateM ε' σ γ} {a : α} {c : γ}
    (h : RoundTrips K S e d a) (h' : RoundTrips K S (e' ()) (f a) c) :
    RoundTrips K S (e >>= e') (d >>= f) c := by
  obtain ⟨as, hw, hr⟩ := h
  obtain ⟨bs, hw', hr'⟩ := h'
  exact ⟨as ++ bs, hw.bind hw', hr.bind hr'⟩

/-- A reader may go on to compute with what it read. -/
theorem RoundTrips.bind_pure {e : EStateM ε τ Unit} {d : EStateM ε' σ α}
    {f : α → EStateM ε' σ γ} {a : α} {c : γ}
    (h : RoundTrips K S e d a) (hf : f a = pure c) : RoundTrips K S e (d >>= f) c := by
  obtain ⟨as, hw, hr⟩ := h
  exact ⟨as, hw, hr.bind_nil (hf ▸ Source.reads_pure c)⟩

end RoundTrip
