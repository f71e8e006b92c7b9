import Mathlib.InformationTheory.Coding.UniquelyDecodable

/-!
# Prefix-free codes

A set of words is prefix-free if no word of it begins another one.  Such words can be put one after
the other without anything between them: where the empty word is not among them, the set is uniquely
decodable (`PrefixFree.uniquelyDecodable`).
-/

variable {β : Type} {S : Set (List β)}

/-- No word of the set begins another one. -/
def PrefixFree (S : Set (List β)) : Prop :=
  ∀ p ∈ S, ∀ q ∈ S, p <+: q → p = q

/-- It is seen where the first word ends, whatever follows. -/
theorem PrefixFree.append_inj (h : PrefixFree S) {p q : List β} (hp : p ∈ S) (hq : q ∈ S)
    {as bs : List β} (heq : p ++ as = q ++ bs) : p = q ∧ as = bs := by
  have hpq : p = q := by
    -- two beginnings of one string
    rcases List.prefix_or_prefix_of_prefix (List.prefix_append p as)
      (heq ▸ List.prefix_append q bs) with hpre | hpre
    · exact h p hp q hq hpre
    · exact (h q hq p hp hpre).symm
  subst hpq
  exact ⟨rfl, List.append_cancel_left heq⟩

theorem PrefixFree.uniquelyDecodable (h : PrefixFree S) (hne : [] ∉ S) :
    InformationTheory.UniquelyDecodable S := by
  intro ws
  induction ws with
  | nil =>
    intro ws' _ hws' heq
    cases ws' with
    | nil => rfl
    | cons w ws' =>
      have hw : w = [] := (List.append_eq_nil_iff.mp heq.symm).1
      exact absurd (hw ▸ hws' w List.mem_cons_self) hne
  | cons w ws ih =>
    intro ws' hws hws' heq
    cases ws' with
    | nil =>
      have hw : w = [] := (List.append_eq_nil_iff.mp heq).1
      exact absurd (hw ▸ hws w List.mem_cons_self) hne
    | cons w' ws' =>
      obtain ⟨rfl, hrest⟩ := h.append_inj (hws w List.mem_cons_self)
        (hws' w' List.mem_cons_self) heq
      rw [ih ws' (fun v hv => hws v (List.mem_cons_of_mem w hv))
        (fun v hv => hws' v (List.mem_cons_of_mem w hv)) hrest]
