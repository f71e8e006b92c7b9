import ScaleCodec.Lib.Stream

/-!
# Writers whose output may not be read back

`ReadsAs K S e d a` says that whatever `e` puts, if it returns, `d` reads as `a`; this need not be
the value that was written.

`Rereads K S e d a G bs` says that `e` puts `bs`, which `d` reads back as `a` if `G`, and returns
nothing from otherwise.  Sequencing two writers and, alike, the two readers is read back if both
are: where the first part is refused, so is the whole, and where it is read, the second part decides
(`Rereads.bind`).
-/

namespace Source

variable {ε σ β α γ : Type} {S : Source σ β}

/-- Wherever `bs` comes next, `d` returns nothing. -/
def Refuses (S : Source σ β) (d : EStateM ε σ α) (bs : List β) : Prop :=
  ∀ s, S.Valid s → bs <+: S.rest s → ∀ a s', d s ≠ .ok a s'

theorem Refuses.bind {d : EStateM ε σ α} {bs : List β} (h : S.Refuses d bs)
    (f : α → EStateM ε σ γ) (cs : List β) : S.Refuses (d >>= f) (bs ++ cs) := by
  intro s hs hp c s' hrun
  obtain ⟨a, s₁, ha, _⟩ := EStateM.bind_eq_ok.mp hrun
  exact h s hs ((List.prefix_append bs cs).trans hp) a s₁ ha

theorem Takes.bind_refuses {d : EStateM ε σ α} {f : α → EStateM ε σ γ} {a : α} {as bs : List β}
    (hd : S.Reads d as a) (hf : S.Refuses (f a) bs) : S.Refuses (d >>= f) (as ++ bs) := by
  intro s hs hp c s' hrun
  obtain ⟨has, hbs⟩ := prefix_rest_advance hp
  rw [EStateM.bind_ok (hd s hs has)] at hrun
  exact hf _ (S.valid_advance s _ hs has.length_le) hbs c s' hrun

/-- What is read somewhere is not refused. -/
theorem Refuses.not_reads {d : EStateM ε σ α} {bs : List β} (h : S.Refuses d bs) {s : σ}
    (hs : S.Valid s) (hp : bs <+: S.rest s) (a : α) : ¬ S.Reads d bs a :=
  fun hreads => h s hs hp a _ (hreads s hs hp)

end Source

section Reread

variable {ε ε' σ τ β α γ : Type} {K : Sink τ β} {S : Source σ β} {G G' : Prop}

/-- `e` puts `bs`, and `d` reads that back as `a` if `G`, and refuses it otherwise. -/
structure Rereads (K : Sink τ β) (S : Source σ β) (e : EStateM ε τ Unit) (d : EStateM ε' σ α)
    (a : α) (G : Prop) (bs : List β) : Prop where
  writes : K.Writes e bs
  reads : G → S.Reads d bs a
  refuses : ¬ G → S.Refuses d bs

theorem Rereads.of_reads {e : EStateM ε τ Unit} {d : EStateM ε' σ α} {a : α} {bs : List β}
    (hw : K.Writes e bs) (hr : S.Reads d bs a) (hG : G) : Rereads K S e d a G bs :=
  ⟨hw, fun _ => hr, fun hnot => absurd hG hnot⟩

theorem Rereads.of_refuses {e : EStateM ε τ Unit} {d : EStateM ε' σ α} {bs : List β}
    (hw : K.Writes e bs) (hr : S.Refuses d bs) (hG : ¬ G) (a : α) : Rereads K S e d a G bs :=
  ⟨hw, fun h => absurd h hG, fun _ => hr⟩

theorem Rereads.congr {e : EStateM ε τ Unit} {d : EStateM ε' σ α} {a : α} {bs : List β}
    (h : Rereads K S e d a G bs) (hG : G ↔ G') : Rereads K S e d a G' bs := by
  rwa [propext hG] at h

theorem Rereads.bind {e : EStateM ε τ Unit} {g : Unit → EStateM ε τ Unit} {d : EStateM ε' σ α}
    {f : α → EStateM ε' σ γ} {a : α} {c : γ} {as bs : List β} (h : Rereads K S e d a G as)
    (h' : Rereads K S (g ()) (f a) c G' bs) :
    Rereads K S (e >>= g) (d >>= f) c (G ∧ G') (as ++ bs) where
  writes := h.writes.bind h'.writes
  reads := fun hG => (h.reads hG.1).bind (h'.reads hG.2)
  refuses := by
    intro hG
    by_cases hfirst : G
    · exact (h.reads hfirst).bind_refuses (h'.refuses fun hsecond => hG ⟨hfirst, hsecond⟩)
    · exact (h.refuses hfirst).bind f bs

/-- A reader may go on to compute with what it read. -/
theorem Rereads.bind_pure {e : EStateM ε τ Unit} {d : EStateM ε' σ α} {f : α → EStateM ε' σ γ}
    {a : α} {c : γ} {as : List β} (h : Rereads K S e d a G as) (hf : f a = pure c) :
    Rereads K S e (d >>= f) c G as where
  writes := h.writes
  reads := fun hG => (h.reads hG).bind_nil (hf ▸ Source.reads_pure c)
  refuses := by
    intro hG
    have hrefuses := (h.refuses hG).bind f []
    rwa [List.append_nil] at hrefuses

end Reread

/-! ### What is read in the place of a value -/

section ReadsAs

variable {ε ε' σ τ β α γ : Type} {K : Sink τ β} {S : Source σ β}

/-- Whatever `e` puts, `d` reads as `a`. -/
def ReadsAs (K : Sink τ β) (S : Source σ β) (e : EStateM ε τ Unit) (d : EStateM ε' σ α)
    (a : α) : Prop :=
  ∀ bs, K.Writes e bs → S.Reads d bs a

theorem RoundTrips.readsAs {e : EStateM ε τ Unit} {d : EStateM ε' σ α} {a : α}
    (h : RoundTrips K S e d a) : ReadsAs K S e d a := by
  obtain ⟨bs, hw, hr⟩ := h
  intro bs' hw'
  rwa [← (hw.unique hw').1]

/-- Sequencing two programs that write only and, alike, the two readers. -/
theorem ReadsAs.bind {e : EStateM ε τ Unit} {g : Unit → EStateM ε τ Unit} {d : EStateM ε' σ α}
    {f : α → EStateM ε' σ γ} {a : α} {c : γ} (he : K.Emitter e) (hg : K.Emitter (g ()))
    (h : ReadsAs K S e d a) (h' : ReadsAs K S (g ()) (f a) c) :
    ReadsAs K S (e >>= g) (d >>= f) c := by
  intro bs hw
  obtain ⟨as, cs, rfl, has, hcs⟩ := he.writes_bind hg hw
  exact (h as has).bind (h' cs hcs)

/-- A reader may go on to compute with what it read. -/
theorem ReadsAs.bind_pure {e : EStateM ε τ Unit} {d : EStateM ε' σ α} {f : α → EStateM ε' σ γ}
    {a : α} {c : γ} (h : ReadsAs K S e d a) (hf : f a = pure c) : ReadsAs K S e (d >>= f) c :=
  fun bs hw => (h bs hw).bind_nil (hf ▸ Source.reads_pure c)

end ReadsAs
