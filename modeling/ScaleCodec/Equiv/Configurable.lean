import ScaleCodec.Configurable

/-!
# Which configs a stream has

A stream can be constructed with configs iff their types are different, and has exactly these
configs then (`ofConfigs_eq_ok_iff`, by induction over the configs with what is there already).
-/

namespace ScaleCodec

namespace Configurable

variable {ι : Type} {El : ι → Type}

theorem getConfig_eq_ok_iff {s : Configurable El} {c : ι} {x : El c} :
    s.getConfig c = .ok x ↔ s.configs c = some x := by
  rw [getConfig]
  cases s.configs c <;> simp

/-- None of the configs is of a type that is there, and none of them are of the same type. -/
def Different (s : Configurable El) (configs : List (Σ c, El c)) : Prop :=
  (∀ p ∈ configs, s.configs p.1 = none) ∧ (configs.map Sigma.fst).Nodup

theorem different_cons {s s' : Configurable El} {config : Σ c, El c}
    (h : s.configs config.1 = none)
    (h' : ∀ c x, s'.configs c = some x ↔ s.configs c = some x ∨ ⟨c, x⟩ = config)
    (configs : List (Σ c, El c)) :
    s.Different (config :: configs) ↔ s'.Different configs := by
  have hnone : ∀ c, s'.configs c = none ↔ s.configs c = none ∧ c ≠ config.1 := by
    intro c
    rw [Option.eq_none_iff_forall_ne_some, Option.eq_none_iff_forall_ne_some]
    constructor
    · refine fun hnot => ⟨fun x hx => hnot x ((h' c x).mpr (Or.inl hx)), ?_⟩
      rintro rfl
      exact hnot config.2 ((h' _ _).mpr (Or.inr rfl))
    · rintro ⟨hnot, hne⟩ x hx
      rcases (h' c x).mp hx with hold | rfl
      · exact hnot x hold
      · exact hne rfl
  rw [Different, Different, List.forall_mem_cons, List.map_cons, List.nodup_cons]
  simp only [hnone, List.mem_map, not_exists, not_and]
  constructor
  · rintro ⟨⟨_, hall⟩, hfresh, hnodup⟩
    exact ⟨fun p hp => ⟨hall p hp, hfresh p hp⟩, hnodup⟩
  · rintro ⟨hall, hnodup⟩
    exact ⟨⟨h, fun p hp => (hall p hp).1⟩, fun p hp => (hall p hp).2, hnodup⟩

variable [DecidableEq ι]

/-- The configs with one more of another type. -/
theorem addConfig_of_none {s : Configurable El} {config : Σ c, El c}
    (h : s.configs config.1 = none) : ∃ s', s.addConfig config = .ok s' ∧
      ∀ c x, s'.configs c = some x ↔ s.configs c = some x ∨ ⟨c, x⟩ = config := by
  obtain ⟨c₀, x₀⟩ := config
  have hnone : (s.configs c₀).isNone := Option.isNone_iff_eq_none.mpr h
  refine ⟨_, if_pos hnone, fun c x => ?_⟩
  show Function.update s.configs c₀ (some x₀) c = some x ↔ _
  by_cases hc : c = c₀
  · subst hc
    have hc : s.configs c = none := h
    rw [Function.update_self, hc, Option.some_inj]
    constructor
    · rintro rfl
      exact Or.inr rfl
    · rintro (hx | hx) <;> cases hx
      rfl
  · rw [Function.update_of_ne hc]
    refine ⟨Or.inl, fun hx => hx.resolve_right fun heq => ?_⟩
    cases heq
    exact hc rfl

theorem addConfig_of_ne_none {s : Configurable El} {config : Σ c, El c}
    (h : s.configs config.1 ≠ none) : s.addConfig config = .error .notDifferent :=
  if_neg fun hnone => h (Option.isNone_iff_eq_none.mp hnone)

/-- What is there is kept, and the configs are added to it if they are different. -/
theorem foldlM_addConfig_of_different {configs : List (Σ c, El c)} {s : Configurable El}
    (h : s.Different configs) : ∃ s', configs.foldlM addConfig s = .ok s' ∧
      ∀ c x, s'.configs c = some x ↔ s.configs c = some x ∨ ⟨c, x⟩ ∈ configs := by
  induction configs generalizing s with
  | nil => exact ⟨s, rfl, fun c x => by simp⟩
  | cons config configs ih =>
    have hnone : s.configs config.1 = none := h.1 config List.mem_cons_self
    obtain ⟨s₁, hs₁, hconfigs₁⟩ := addConfig_of_none hnone
    obtain ⟨s', hs', hconfigs'⟩ := ih ((different_cons hnone hconfigs₁ configs).mp h)
    refine ⟨s', ?_, fun c x => ?_⟩
    · rw [List.foldlM_cons, hs₁]
      exact hs'
    · rw [hconfigs', hconfigs₁, List.mem_cons, or_assoc]

theorem foldlM_addConfig_of_not_different {configs : List (Σ c, El c)} {s : Configurable El}
    (h : ¬ s.Different configs) : configs.foldlM addConfig s = .error .notDifferent := by
  induction configs generalizing s with
  | nil => exact absurd ⟨by simp, List.nodup_nil⟩ h
  | cons config configs ih =>
    rw [List.foldlM_cons]
    by_cases hnone : s.configs config.1 = none
    · obtain ⟨s₁, hs₁, hconfigs₁⟩ := addConfig_of_none hnone
      rw [hs₁]
      exact ih fun hrest => h ((different_cons hnone hconfigs₁ configs).mpr hrest)
    · rw [addConfig_of_ne_none hnone]
      rfl

/-- A stream can be constructed with configs iff their types are different, and then these are the
configs that can be got from it; otherwise the constructor throws. -/
theorem ofConfigs_eq_ok_iff (configs : List (Σ c, El c)) :
    (∀ s, ofConfigs configs = .ok s ↔
      (configs.map Sigma.fst).Nodup ∧ ∀ c x, s.getConfig c = .ok x ↔ ⟨c, x⟩ ∈ configs) ∧
    (¬ (configs.map Sigma.fst).Nodup → ofConfigs configs = .error .notDifferent) := by
  have hempty : Different (⟨fun _ => none⟩ : Configurable El) configs ↔
      (configs.map Sigma.fst).Nodup := and_iff_right fun _ _ => rfl
  have herror : ¬ (configs.map Sigma.fst).Nodup → ofConfigs configs = .error .notDifferent :=
    fun h => foldlM_addConfig_of_not_different fun hdifferent => h (hempty.mp hdifferent)
  refine ⟨fun s => ?_, herror⟩
  simp only [getConfig_eq_ok_iff]
  by_cases h : (configs.map Sigma.fst).Nodup
  · obtain ⟨s', hs', hconfigs⟩ := foldlM_addConfig_of_different (hempty.mpr h)
    simp only [reduceCtorEq, false_or] at hconfigs
    rw [ofConfigs, hs', Except.ok.injEq, and_iff_right h]
    constructor
    · rintro rfl
      exact hconfigs
    · intro hs
      refine ext fun c => Option.ext fun x => ?_
      rw [hconfigs, hs]
  · rw [herror h]
    constructor
    · rintro ⟨⟩
    · exact fun hs => absurd hs.1 h

end Configurable

end ScaleCodec
