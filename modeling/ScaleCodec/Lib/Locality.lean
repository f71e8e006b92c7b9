import ScaleCodec.Lib.Stream

/-!
# Readers that depend on what they take only

A reader is `Local` if cutting off the end of its input changes nothing, as long as what it takes is
left, and otherwise makes it raise the exception `short`.  Where it returns or raises it has only
moved forward, over symbols that are there, and every exception it raises satisfies `P`.

Programs composed of local ones by `bind` are local, and so are those that ask how much is left
before they go on (`Local.guard`).
-/

namespace Source

variable {ε σ β α γ : Type} (S : Source σ β)

/-- `t` is a position whose input the one of `s` continues. -/
structure Truncates (t s : σ) : Prop where
  valid_left : S.Valid t
  valid_right : S.Valid s
  isPrefix : S.rest t <+: S.rest s

/-- At `t` the reader finds its input too short, or it does there what it does at `s`. -/
def LocalAt (short : ε) (P : ε → Prop) (d : EStateM ε σ α) (t s : σ) : Prop :=
  match d t with
  | .ok a t' => ∃ n ≤ (S.rest t).length, t' = S.advance t n ∧ d s = .ok a (S.advance s n)
  | .error e t' => ∃ n ≤ (S.rest t).length, t' = S.advance t n ∧
    (e = short ∨ P e ∧ d s = .error e (S.advance s n))

/-- Cutting off the end of the input makes no difference other than that it can be too short. -/
def Local (short : ε) (P : ε → Prop) (d : EStateM ε σ α) : Prop :=
  ∀ t s, S.Truncates t s → S.LocalAt short P d t s

variable {S} {short : ε} {P : ε → Prop} {d : EStateM ε σ α} {f : α → EStateM ε σ γ} {t s : σ}

theorem Truncates.refl (hs : S.Valid s) : S.Truncates s s :=
  ⟨hs, hs, List.prefix_rfl⟩

/-- Both positions move on by as many symbols. -/
theorem Truncates.advance (h : S.Truncates t s) {n : ℕ} (hn : n ≤ (S.rest t).length) :
    S.Truncates (S.advance t n) (S.advance s n) := by
  have hle : n ≤ (S.rest s).length := Nat.le_trans hn h.isPrefix.length_le
  refine ⟨S.valid_advance t n h.valid_left hn, S.valid_advance s n h.valid_right hle, ?_⟩
  obtain ⟨tail, htail⟩ := h.isPrefix
  rw [S.rest_advance, S.rest_advance, ← htail, List.drop_append_of_le_length hn]
  exact List.prefix_append _ tail

/-! ### Composing local readers -/

theorem localAt_pure (a : α) (t s : σ) : S.LocalAt short P (pure a : EStateM ε σ α) t s := by
  refine ⟨0, Nat.zero_le _, ?_, ?_⟩
  · rw [S.advance_zero]
  · rw [EStateM.pure_apply, S.advance_zero]

theorem localAt_throw {e : ε} (he : P e) (t s : σ) :
    S.LocalAt short P (throw e : EStateM ε σ α) t s := by
  refine ⟨0, Nat.zero_le _, ?_, Or.inr ⟨he, ?_⟩⟩
  · rw [S.advance_zero]
  · rw [EStateM.throw_apply, S.advance_zero]

theorem LocalAt.bind (h : S.Truncates t s) (hd : S.LocalAt short P d t s)
    (hf : ∀ a, S.Local short P (f a)) : S.LocalAt short P (d >>= f) t s := by
  unfold LocalAt at hd ⊢
  rw [EStateM.bind_apply]
  cases hdt : d t with
  | error e t' =>
    rw [hdt] at hd
    obtain ⟨n, hn, rfl, hshort | ⟨he, hds⟩⟩ := hd
    · exact ⟨n, hn, rfl, Or.inl hshort⟩
    · exact ⟨n, hn, rfl, Or.inr ⟨he, EStateM.bind_error hds⟩⟩
  | ok a t' =>
    rw [hdt] at hd
    obtain ⟨n, hn, rfl, hds⟩ := hd
    -- the second reader goes on from positions that are as far apart
    have hfa := hf a _ _ (h.advance hn)
    have hlen : (S.rest (S.advance t n)).length = (S.rest t).length - n := by
      rw [S.rest_advance, List.length_drop]
    rw [EStateM.bind_ok hds]
    unfold LocalAt at hfa
    dsimp only
    cases hft : f a (S.advance t n) with
    | error e t' =>
      rw [hft] at hfa
      obtain ⟨m, hm, rfl, hor⟩ := hfa
      refine ⟨n + m, by omega, S.advance_advance t n m, ?_⟩
      rwa [S.advance_advance] at hor
    | ok c t' =>
      rw [hft] at hfa
      obtain ⟨m, hm, rfl, hfs⟩ := hfa
      refine ⟨n + m, by omega, S.advance_advance t n m, ?_⟩
      rwa [S.advance_advance] at hfs

theorem local_pure (a : α) : S.Local short P (pure a : EStateM ε σ α) :=
  fun t s _ => localAt_pure a t s

theorem local_throw {e : ε} (he : P e) : S.Local short P (throw e : EStateM ε σ α) :=
  fun t s _ => localAt_throw he t s

theorem Local.bind (hd : S.Local short P d) (hf : ∀ a, S.Local short P (f a)) :
    S.Local short P (d >>= f) :=
  fun t s h => (hd t s h).bind h hf

/-- A test that does not fail on a longer input, and what follows it: raising `short` if it fails,
and going on otherwise. -/
theorem Local.guard {ask : EStateM ε σ Bool} {test : σ → Bool} {g : Bool → EStateM ε σ α}
    (hask : ∀ s, ask s = .ok (test s) s)
    (hmono : ∀ t s, S.Truncates t s → test t = true → test s = true)
    (hfalse : g false = throw short)
    (htrue : ∀ t s, S.Truncates t s → test t = true → S.LocalAt short P (g true) t s) :
    S.Local short P (ask >>= g) := by
  intro t s h
  unfold LocalAt
  rw [EStateM.bind_ok (hask t), EStateM.bind_ok (hask s)]
  cases ht : test t with
  | false =>
    rw [hfalse, EStateM.throw_apply]
    exact ⟨0, Nat.zero_le _, (S.advance_zero t).symm, Or.inl rfl⟩
  | true =>
    rw [hmono t s h ht]
    exact htrue t s h ht

/-! ### What a local reader does -/

/-- A local reader that returns has moved forward, over symbols that are there. -/
theorem Local.ok_forward (hd : S.Local short P d) (hs : S.Valid s) {a : α} {s' : σ}
    (h : d s = .ok a s') : ∃ n ≤ (S.rest s).length, s' = S.advance s n := by
  have hat := hd s s (.refl hs)
  unfold LocalAt at hat
  rw [h] at hat
  obtain ⟨n, hn, hs', _⟩ := hat
  exact ⟨n, hn, hs'⟩

/-- So has one that raises, and the exception is one of those it may raise. -/
theorem Local.error_forward (hd : S.Local short P d) (hshort : P short) (hs : S.Valid s) {e : ε}
    {s' : σ} (h : d s = .error e s') : P e ∧ ∃ n ≤ (S.rest s).length, s' = S.advance s n := by
  have hat := hd s s (.refl hs)
  unfold LocalAt at hat
  rw [h] at hat
  obtain ⟨n, hn, hs', rfl | ⟨he, _⟩⟩ := hat
  · exact ⟨hshort, n, hn, hs'⟩
  · exact ⟨he, n, hn, hs'⟩

/-- What a local reader returns it returns on every longer input. -/
theorem Local.ok_of_truncates (hd : S.Local short P d) (h : S.Truncates t s) {a : α} {t' : σ}
    (hok : d t = .ok a t') :
    ∃ n ≤ (S.rest t).length, t' = S.advance t n ∧ d s = .ok a (S.advance s n) := by
  have hat := hd t s h
  unfold LocalAt at hat
  rwa [hok] at hat

/-- What it reads from an input that is exactly `bs` it reads wherever `bs` comes next. -/
theorem Local.reads_of_rest (hd : S.Local short P d) (ht : S.Valid t) {bs : List β}
    (hbs : S.rest t = bs) {a : α} (hok : d t = .ok a (S.advance t bs.length))
    (hinj : ∀ m, S.advance t m = S.advance t bs.length → m = bs.length) : S.Reads d bs a := by
  intro s hs hp
  have htrunc : S.Truncates t s := ⟨ht, hs, by rwa [hbs]⟩
  obtain ⟨n, _, hn, hds⟩ := hd.ok_of_truncates htrunc hok
  rwa [hinj n hn.symm] at hds

/-- What it raises for another reason than a short input it raises on every longer input. -/
theorem Local.error_of_truncates (hd : S.Local short P d) (h : S.Truncates t s) {e : ε} {t' : σ}
    (herr : d t = .error e t') (he : e ≠ short) : ∃ s', d s = .error e s' := by
  have hat := hd t s h
  unfold LocalAt at hat
  rw [herr] at hat
  obtain ⟨n, _, _, rfl | ⟨_, hds⟩⟩ := hat
  · exact absurd rfl he
  · exact ⟨_, hds⟩

/-- An input with fewer symbols than it takes is too short for it. -/
theorem Local.short_of_truncates (hd : S.Local short P d) (h : S.Truncates t s) {a : α} {n : ℕ}
    (hok : d s = .ok a (S.advance s n))
    (hinj : ∀ m, S.advance s m = S.advance s n → m = n)
    (hn : (S.rest t).length < n) : ∃ t', d t = .error short t' := by
  have hat := hd t s h
  unfold LocalAt at hat
  cases hdt : d t with
  | ok b t' =>
    rw [hdt, hok] at hat
    obtain ⟨m, hm, _, hsame⟩ := hat
    injection hsame with _ hadv
    have := hinj m hadv.symm
    omega
  | error e t' =>
    rw [hdt, hok] at hat
    obtain ⟨m, _, _, rfl | ⟨_, hsame⟩⟩ := hat
    · exact ⟨t', rfl⟩
    · cases hsame

end Source
