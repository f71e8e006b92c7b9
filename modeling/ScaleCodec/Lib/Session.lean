import Mathlib.Data.List.Basic

/-!
# Sessions

A session makes one call after the other, whatever they raise: an exception is caught by the caller,
who goes on from the state the call has left.  What each call preserves the whole session preserves
(`Session.invariant`), and two sessions whose calls agree call by call agree throughout
(`Session.agree`).
-/

/-! ### A single call -/

namespace EStateM.Result

variable {ε σ α : Type}

/-- The state a call leaves, also when it raises. -/
def state : Result ε σ α → σ
  | .ok _ s => s
  | .error _ s => s

/-- The exception a call raises, if any. -/
def raised : Result ε σ α → Option ε
  | .ok _ _ => none
  | .error e _ => some e

@[simp]
theorem state_ok (a : α) (s : σ) : (ok a s : Result ε σ α).state = s := rfl

@[simp]
theorem state_error (e : ε) (s : σ) : (error e s : Result ε σ α).state = s := rfl

@[simp]
theorem raised_ok (a : α) (s : σ) : (ok a s : Result ε σ α).raised = none := rfl

@[simp]
theorem raised_error (e : ε) (s : σ) : (error e s : Result ε σ α).raised = some e := rfl

end EStateM.Result

/-! ### Calls one after the other -/

namespace Session

variable {ε σ : Type}

/-- The calls of a session, each with the exception it raises and the state it leaves. -/
def run : List (EStateM ε σ Unit) → σ → List (Option ε × σ)
  | [], _ => []
  | call :: calls, s =>
    ((call s).raised, (call s).state) :: run calls (call s).state

/-- The states of a session from the first one on. -/
def states (calls : List (EStateM ε σ Unit)) (s : σ) : List σ :=
  s :: (run calls s).map Prod.snd

theorem states_cons (call : EStateM ε σ Unit) (calls : List (EStateM ε σ Unit)) (s : σ) :
    states (call :: calls) s = s :: states calls (call s).state := rfl

variable {calls : List (EStateM ε σ Unit)} {I : σ → Prop} {P : Option ε → Prop}
  {R : σ → σ → Prop} {s t : σ}

/-- What every call preserves holds after each of them. -/
theorem invariant
    (hstep : ∀ call ∈ calls, ∀ s, I s → P (call s).raised ∧ I (call s).state) (hs : I s) :
    ∀ p ∈ run calls s, P p.1 ∧ I p.2 := by
  induction calls generalizing s with
  | nil =>
    intro p hp
    cases hp
  | cons call calls ih =>
    have hcall := hstep call List.mem_cons_self s hs
    intro p hp
    rcases List.mem_cons.mp hp with rfl | hp'
    · exact hcall
    · exact ih (fun c hc => hstep c (List.mem_cons_of_mem call hc)) hcall.2 p hp'

/-- Any two states of a session are related, the earlier one to the later one, if the states before
and after a call are. -/
theorem pairwise (htrans : ∀ a b c, R a b → R b c → R a c)
    (hstep : ∀ call ∈ calls, ∀ s, I s → I (call s).state ∧ R s (call s).state) (hs : I s) :
    (states calls s).Pairwise R := by
  induction calls generalizing s with
  | nil => exact List.pairwise_singleton R s
  | cons call calls ih =>
    obtain ⟨hinv, hrel⟩ := hstep call List.mem_cons_self s hs
    have htail := ih (fun c hc => hstep c (List.mem_cons_of_mem call hc)) hinv
    rw [states_cons]
    refine List.pairwise_cons.mpr ⟨fun u hu => ?_, htail⟩
    -- a later state is the next one or comes after it
    rcases List.mem_cons.mp hu with rfl | hu'
    · exact hrel
    · exact htrans s _ u hrel ((List.pairwise_cons.mp htail).1 u hu')

/-- Two sessions of the same calls raise the same exceptions and stay related. -/
theorem agree
    (hstep : ∀ call ∈ calls, ∀ s t, R s t →
      (call s).raised = (call t).raised ∧ R (call s).state (call t).state) (h : R s t) :
    List.Forall₂ (fun p q => p.1 = q.1 ∧ R p.2 q.2) (run calls s) (run calls t) := by
  induction calls generalizing s t with
  | nil => exact List.Forall₂.nil
  | cons call calls ih =>
    have hcall := hstep call List.mem_cons_self s t h
    exact List.Forall₂.cons hcall
      (ih (fun c hc => hstep c (List.mem_cons_of_mem call hc)) hcall.2)

end Session
