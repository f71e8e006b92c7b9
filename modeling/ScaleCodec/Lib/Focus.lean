import ScaleCodec.Lib.Session
import ScaleCodec.Lib.Stream

/-!
# Programs that write into an object

A program that works on a stream and into an object is an `EStateM ε (σ × ω)`: the object is a
part of the state, so that it is left as far as it was written when the program raises.

* `Lens` is a part of an object; two parts are `Apart` if they can be set in either order.
  `focus l` runs a program on a part, and leaves every part apart from it alone (`Preserves.focus`).
* `inside f a` runs a program on a new object `a`, around which the whole is made by `f`;
  `scratch a` runs it on an object that is given up afterwards.
* `OverwritesAt w x d` says that `x` replaces the object `w` by what `d` returns, and raises where
  `d` does; `Overwrites x d` says so of every object.  `KeepsOnError x` says that where `x` raises
  it leaves the object as it was.
-/

/-! ### Parts of an object -/

/-- A part of an object. -/
structure Lens (ω α : Type) where
  get : ω → α
  set : α → ω → ω
  get_set : ∀ a w, get (set a w) = a
  set_get : ∀ w, set (get w) w = w
  set_set : ∀ a b w, set a (set b w) = set a w

namespace Lens

variable {ω α β : Type}

/-- Setting one of the parts does not interfere with setting the other. -/
def Apart (l : Lens ω α) (l' : Lens ω β) : Prop :=
  ∀ a b w, l.set a (l'.set b w) = l'.set b (l.set a w)

theorem Apart.get_set {l : Lens ω α} {l' : Lens ω β} (h : l.Apart l') (b : β) (w : ω) :
    l.get (l'.set b w) = l.get w := by
  -- what `l` gets could as well be set again before `l'` is
  rw [← l.set_get w, ← h, l.get_set, l.set_get]

/-- The first part of a pair. -/
def fst : Lens (α × β) α where
  get p := p.1
  set a p := (a, p.2)
  get_set _ _ := rfl
  set_get _ := rfl
  set_set _ _ _ := rfl

/-- The second part of a pair. -/
def snd : Lens (α × β) β where
  get p := p.2
  set b p := (p.1, b)
  get_set _ _ := rfl
  set_get _ := rfl
  set_set _ _ _ := rfl

end Lens

/-! ### Running a program on a part, on a new object, or on none -/

namespace EStateM.Result

variable {ε σ τ γ : Type}

/-- The same result over another state. -/
def mapState (f : σ → τ) : Result ε σ γ → Result ε τ γ
  | .ok c s => .ok c (f s)
  | .error e s => .error e (f s)

@[simp]
theorem state_mapState (f : σ → τ) (r : Result ε σ γ) : (r.mapState f).state = f r.state := by
  cases r <;> rfl

end EStateM.Result

namespace EStateM

variable {ε σ ω α β γ : Type}

/-- `d`, which does not know of the object. -/
def reading (d : EStateM ε σ γ) : EStateM ε (σ × ω) γ :=
  fun p => (d p.1).mapState fun s => (s, p.2)

/-- The object as it is. -/
def object : EStateM ε (σ × ω) ω := fun p => .ok p.2 p

/-- Replaces the object. -/
def setObject (w : ω) : EStateM ε (σ × ω) Unit := fun p => .ok () (p.1, w)

/-- Runs `x` on a part of the object. -/
def focus (l : Lens ω α) (x : EStateM ε (σ × α) γ) : EStateM ε (σ × ω) γ :=
  fun p => (x (p.1, l.get p.2)).mapState fun q => (q.1, l.set q.2 p.2)

/-- Runs `x` on a new object `a`, of which the whole is made by `f`. -/
def inside (f : α → ω) (a : α) (x : EStateM ε (σ × α) γ) : EStateM ε (σ × ω) γ :=
  fun p => (x (p.1, a)).mapState fun q => (q.1, f q.2)

/-- Runs `x` on an object `a` of its own, and returns what that holds in the end. -/
def scratch (a : α) (x : EStateM ε (σ × α) Unit) : EStateM ε σ α := fun s =>
  match x (s, a) with
  | .ok _ q => .ok q.2 q.1
  | .error e q => .error e q.1

/-- Replaces the object by what `d` returns. -/
def store (d : EStateM ε σ ω) : EStateM ε (σ × ω) Unit := do
  let w ← reading d
  setObject w

theorem reading_ok {d : EStateM ε σ γ} {s s' : σ} {c : γ} (h : d s = .ok c s') (w : ω) :
    reading d (s, w) = .ok c (s', w) := by
  rw [reading, h]
  rfl

theorem reading_error {d : EStateM ε σ γ} {s s' : σ} {e : ε} (h : d s = .error e s') (w : ω) :
    reading d (s, w) = .error e (s', w) := by
  rw [reading, h]
  rfl

theorem focus_ok {l : Lens ω α} {x : EStateM ε (σ × α) γ} {s s' : σ} {w : ω} {a : α} {c : γ}
    (h : x (s, l.get w) = .ok c (s', a)) : focus l x (s, w) = .ok c (s', l.set a w) := by
  rw [focus, h]
  rfl

theorem focus_error {l : Lens ω α} {x : EStateM ε (σ × α) γ} {s s' : σ} {w : ω} {a : α} {e : ε}
    (h : x (s, l.get w) = .error e (s', a)) : focus l x (s, w) = .error e (s', l.set a w) := by
  rw [focus, h]
  rfl

/-- Inversion of a run on a part that raises. -/
theorem focus_eq_error {l : Lens ω α} {x : EStateM ε (σ × α) γ} {s s' : σ} {w w' : ω} {e : ε}
    (h : focus l x (s, w) = .error e (s', w')) :
    ∃ a, x (s, l.get w) = .error e (s', a) ∧ w' = l.set a w := by
  unfold focus at h
  cases hx : x (s, l.get w) with
  | ok c q =>
    rw [hx] at h
    cases h
  | error e' q =>
    rw [hx] at h
    cases h
    exact ⟨q.2, rfl, rfl⟩

theorem inside_ok {f : α → ω} {a a' : α} {x : EStateM ε (σ × α) γ} {s s' : σ} {w : ω} {c : γ}
    (h : x (s, a) = .ok c (s', a')) : inside f a x (s, w) = .ok c (s', f a') := by
  rw [inside, h]
  rfl

theorem inside_error {f : α → ω} {a a' : α} {x : EStateM ε (σ × α) γ} {s s' : σ} {w : ω} {e : ε}
    (h : x (s, a) = .error e (s', a')) : inside f a x (s, w) = .error e (s', f a') := by
  rw [inside, h]
  rfl

/-- Inversion of a run on a new object that raises. -/
theorem inside_eq_error {f : α → ω} {a : α} {x : EStateM ε (σ × α) γ} {s s' : σ} {w w' : ω} {e : ε}
    (h : inside f a x (s, w) = .error e (s', w')) :
    ∃ a', x (s, a) = .error e (s', a') ∧ w' = f a' := by
  unfold inside at h
  cases hx : x (s, a) with
  | ok c q =>
    rw [hx] at h
    cases h
  | error e' q =>
    rw [hx] at h
    cases h
    exact ⟨q.2, rfl, rfl⟩

/-! ### What a program leaves alone -/

/-- However `x` ends, it leaves a part of the object alone. -/
def Preserves (l : Lens ω β) (x : EStateM ε (σ × ω) γ) : Prop :=
  ∀ p, l.get (x p).state.2 = l.get p.2

/-- Where `x` raises it leaves the object as it was. -/
def KeepsOnError (x : EStateM ε (σ × ω) γ) : Prop :=
  ∀ p e q, x p = .error e q → q.2 = p.2

theorem Preserves.bind {l : Lens ω β} {x : EStateM ε (σ × ω) γ} {f : γ → EStateM ε (σ × ω) α}
    (hx : Preserves l x) (hf : ∀ c, Preserves l (f c)) : Preserves l (x >>= f) := by
  intro p
  have hfirst := hx p
  rw [bind_apply]
  cases hrun : x p with
  | ok c q =>
    rw [hrun] at hfirst
    exact (hf c q).trans hfirst
  | error e q =>
    rw [hrun] at hfirst
    exact hfirst

theorem Preserves.focus {l : Lens ω β} {l' : Lens ω α} (h : l.Apart l')
    (x : EStateM ε (σ × α) γ) : Preserves l (focus l' x) := by
  intro p
  rw [EStateM.focus, Result.state_mapState]
  exact h.get_set _ _

/-- Reading ahead does not touch the object. -/
theorem KeepsOnError.reading_bind (d : EStateM ε σ γ) {f : γ → EStateM ε (σ × ω) α}
    (hf : ∀ c, KeepsOnError (f c)) : KeepsOnError (reading d >>= f) := by
  intro p e q h
  rw [bind_apply] at h
  cases hd : d p.1 with
  | ok c s' =>
    rw [reading_ok hd p.2] at h
    exact hf c (s', p.2) e q h
  | error e' s' =>
    rw [reading_error hd p.2] at h
    cases h
    rfl

theorem keepsOnError_setObject (w : ω) : KeepsOnError (setObject w : EStateM ε (σ × ω) Unit) := by
  intro p e q h
  cases h

theorem keepsOnError_throw (e : ε) : KeepsOnError (throw e : EStateM ε (σ × ω) γ) := by
  intro p e' q h
  cases h
  rfl

theorem keepsOnError_store (d : EStateM ε σ ω) : KeepsOnError (store d) :=
  KeepsOnError.reading_bind d keepsOnError_setObject

end EStateM

/-! ### Replacing an object by what is read -/

section Overwrite

open EStateM

variable {ε σ ω α β γ : Type}

/-- `x` replaces `w` by what `d` returns, and raises where `d` does. -/
def OverwritesAt (w : ω) (x : EStateM ε (σ × ω) Unit) (d : EStateM ε σ ω) : Prop :=
  ∀ s, match d s with
    | .ok w' s' => x (s, w) = .ok () (s', w')
    | .error e s' => ∃ w', x (s, w) = .error e (s', w')

/-- The same, whatever the object is. -/
def Overwrites (x : EStateM ε (σ × ω) Unit) (d : EStateM ε σ ω) : Prop :=
  ∀ w, OverwritesAt w x d

theorem OverwritesAt.run_ok {w w' : ω} {x : EStateM ε (σ × ω) Unit} {d : EStateM ε σ ω}
    (h : OverwritesAt w x d) {s s' : σ} (hd : d s = .ok w' s') : x (s, w) = .ok () (s', w') := by
  have hs := h s
  rwa [hd] at hs

theorem OverwritesAt.run_error {w : ω} {x : EStateM ε (σ × ω) Unit} {d : EStateM ε σ ω}
    (h : OverwritesAt w x d) {s s' : σ} {e : ε} (hd : d s = .error e s') :
    ∃ w', x (s, w) = .error e (s', w') := by
  have hs := h s
  rwa [hd] at hs

theorem overwritesAt_pure (w : ω) : OverwritesAt w (pure () : EStateM ε (σ × ω) Unit) (pure w) :=
  fun _ => rfl

theorem overwritesAt_throw (w : ω) (e : ε) :
    OverwritesAt w (throw e : EStateM ε (σ × ω) Unit) (throw e) :=
  fun _ => ⟨w, rfl⟩

theorem overwritesAt_setObject (w w' : ω) :
    OverwritesAt w (setObject w' : EStateM ε (σ × ω) Unit) (pure w') :=
  fun _ => rfl

/-- Both go on with what was read. -/
theorem OverwritesAt.reading_bind {w : ω} {d : EStateM ε σ γ} {f : γ → EStateM ε (σ × ω) Unit}
    {g : γ → EStateM ε σ ω} (h : ∀ c, OverwritesAt w (f c) (g c)) :
    OverwritesAt w (reading d >>= f) (d >>= g) := by
  intro s
  rw [bind_apply, bind_apply]
  cases hd : d s with
  | ok c s' => rw [reading_ok hd w]; exact h c s'
  | error e s' => rw [reading_error hd w]; exact ⟨w, rfl⟩

theorem OverwritesAt.object_bind {w : ω} {f : ω → EStateM ε (σ × ω) Unit} {d : EStateM ε σ ω}
    (h : OverwritesAt w (f w) d) : OverwritesAt w (object >>= f) d := h

theorem OverwritesAt.setObject_bind {w w' : ω} {x : EStateM ε (σ × ω) Unit} {d : EStateM ε σ ω}
    (h : OverwritesAt w' x d) : OverwritesAt w (setObject w' >>= fun _ => x) d := h

theorem overwritesAt_store (w : ω) (d : EStateM ε σ ω) : OverwritesAt w (store d) d := by
  have h := OverwritesAt.reading_bind (w := w) (d := d) (overwritesAt_setObject w)
  rwa [bind_pure] at h

/-- Overwriting a new object, and then what is left to do. -/
theorem OverwritesAt.inside_bind {w : ω} {a : α} {x : EStateM ε (σ × α) Unit} {d : EStateM ε σ α}
    {f : α → ω} {y : EStateM ε (σ × ω) Unit} {g : α → EStateM ε σ ω} (h : OverwritesAt a x d)
    (h' : ∀ c, OverwritesAt (f c) y (g c)) :
    OverwritesAt w (inside f a x >>= fun _ => y) (d >>= g) := by
  intro s
  rw [bind_apply, bind_apply]
  cases hd : d s with
  | ok c s' => rw [inside_ok (h.run_ok hd)]; exact h' c s'
  | error e s' =>
    obtain ⟨a', hx⟩ := h.run_error hd
    rw [inside_error hx]
    exact ⟨f a', rfl⟩

theorem OverwritesAt.inside {w : ω} {a : α} {x : EStateM ε (σ × α) Unit} {d : EStateM ε σ α}
    (h : OverwritesAt a x d) (f : α → ω) :
    OverwritesAt w (inside f a x) (d >>= fun c => pure (f c)) := by
  have hbind := h.inside_bind (w := w) (y := pure ()) fun c => overwritesAt_pure (f c)
  rwa [bind_pure_unit] at hbind

theorem OverwritesAt.scratch {a : α} {x : EStateM ε (σ × α) Unit} {d : EStateM ε σ α}
    (h : OverwritesAt a x d) : scratch a x = d := by
  funext s
  unfold EStateM.scratch
  cases hd : d s with
  | ok c s' => rw [h.run_ok hd]
  | error e s' =>
    obtain ⟨a', hx⟩ := h.run_error hd
    rw [hx]

/-- Overwriting one part, and then what is left to do. -/
theorem OverwritesAt.focus_bind {w : ω} {l : Lens ω α} {x : EStateM ε (σ × α) Unit}
    {d : EStateM ε σ α} {y : EStateM ε (σ × ω) Unit} {g : α → EStateM ε σ ω}
    (h : OverwritesAt (l.get w) x d) (h' : ∀ a, OverwritesAt (l.set a w) y (g a)) :
    OverwritesAt w (focus l x >>= fun _ => y) (d >>= g) := by
  intro s
  rw [bind_apply, bind_apply]
  cases hd : d s with
  | ok a s' => rw [focus_ok (h.run_ok hd)]; exact h' a s'
  | error e s' =>
    obtain ⟨a', hx⟩ := h.run_error hd
    rw [focus_error hx]
    exact ⟨l.set a' w, rfl⟩

/-- Overwriting one part, by which the whole becomes what `f` makes of it. -/
theorem OverwritesAt.focus {w : ω} {l : Lens ω α} {x : EStateM ε (σ × α) Unit}
    {d : EStateM ε σ α} {f : α → ω} (h : OverwritesAt (l.get w) x d)
    (hf : ∀ a, l.set a w = f a) : OverwritesAt w (focus l x) (d >>= fun a => pure (f a)) := by
  have hend : ∀ a, OverwritesAt (l.set a w) (pure () : EStateM ε (σ × ω) Unit) (pure (f a)) :=
    fun a => hf a ▸ overwritesAt_pure (l.set a w)
  have hbind := h.focus_bind hend
  rwa [bind_pure_unit] at hbind

end Overwrite
