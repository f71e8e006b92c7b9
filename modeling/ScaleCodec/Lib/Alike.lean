import Mathlib.Logic.Basic

/-!
# Computations that end alike

Two computations over the same state end alike, up to a relation on the values they return, if from
every state both return related values or both raise the same exception, and leave the same state.
A sequence of computations that do is one that does (`Alike.bind`), also where exceptions are caught
(`Alike.tryCatch`).  `Result.Alike` says the same of a single pair of runs.
-/

namespace EStateM

variable {ε σ α α' γ γ' : Type} {R : α → α' → Prop} {S : γ → γ' → Prop}

/-- Two results with related values, or with the same exception. -/
inductive Result.Alike (R : α → α' → Prop) : Result ε σ α → Result ε σ α' → Prop
  | ok {a : α} {a' : α'} (h : R a a') (s : σ) : Result.Alike R (.ok a s) (.ok a' s)
  | error (e : ε) (s : σ) : Result.Alike R (.error e s) (.error e s)

/-- Two computations that end alike. -/
def Alike (R : α → α' → Prop) (x : EStateM ε σ α) (y : EStateM ε σ α') : Prop :=
  ∀ s, Result.Alike R (x s) (y s)

theorem alike_pure {a : α} {a' : α'} (h : R a a') :
    Alike R (pure a : EStateM ε σ α) (pure a') :=
  fun s => .ok h s

theorem alike_throw (e : ε) : Alike R (throw e : EStateM ε σ α) (throw e) :=
  fun s => .error e s

theorem alike_refl (x : EStateM ε σ α) : Alike Eq x x := by
  intro s
  cases x s with
  | ok a s' => exact .ok rfl s'
  | error e s' => exact .error e s'

theorem Result.Alike.mono {r : Result ε σ α} {r' : Result ε σ α'} {R' : α → α' → Prop}
    (h : Result.Alike R r r') (hR : ∀ a a', R a a' → R' a a') : Result.Alike R' r r' := by
  cases h with
  | ok haa' s => exact .ok (hR _ _ haa') s
  | error e s => exact .error e s

/-- The two continuations need to end alike only where the first parts return. -/
theorem Result.Alike.bind {x : EStateM ε σ α} {y : EStateM ε σ α'} {f : α → EStateM ε σ γ}
    {g : α' → EStateM ε σ γ'} {s : σ} (h : Result.Alike R (x s) (y s))
    (hfg : ∀ a a' s', x s = .ok a s' → y s = .ok a' s' → R a a' →
      Result.Alike S (f a s') (g a' s')) :
    Result.Alike S ((x >>= f) s) ((y >>= g) s) := by
  change Result.Alike S (EStateM.bind x f s) (EStateM.bind y g s)
  unfold EStateM.bind
  generalize x s = r at h hfg ⊢
  generalize y s = r' at h hfg ⊢
  cases h with
  | ok haa' s' => exact hfg _ _ s' rfl rfl haa'
  | error e s' => exact .error e s'

theorem Alike.bind {x : EStateM ε σ α} {y : EStateM ε σ α'} {f : α → EStateM ε σ γ}
    {g : α' → EStateM ε σ γ'} (h : Alike R x y) (hfg : ∀ a a', R a a' → Alike S (f a) (g a')) :
    Alike S (x >>= f) (y >>= g) :=
  fun s => (h s).bind fun a a' s' _ _ haa' => hfg a a' haa' s'

/-- The rest of two computations that begin the same way. -/
theorem Alike.bind_left (x : EStateM ε σ α) {f : α → EStateM ε σ γ} {g : α → EStateM ε σ γ'}
    (hfg : ∀ a, Alike S (f a) (g a)) : Alike S (x >>= f) (x >>= g) := by
  refine (alike_refl x).bind ?_
  rintro a _ rfl
  exact hfg a

theorem Alike.tryCatch {x : EStateM ε σ α} {y : EStateM ε σ α'} {f : ε → EStateM ε σ α}
    {g : ε → EStateM ε σ α'} (h : Alike R x y) (hfg : ∀ e, Alike R (f e) (g e)) :
    Alike R (tryCatch x f) (tryCatch y g) := by
  intro s
  change Result.Alike R (EStateM.tryCatch x f s) (EStateM.tryCatch y g s)
  unfold EStateM.tryCatch
  have hs := h s
  generalize x s = r at hs ⊢
  generalize y s = r' at hs ⊢
  cases hs with
  | ok haa' s' => exact .ok haa' s'
  | error e s' => exact hfg e s'

end EStateM
