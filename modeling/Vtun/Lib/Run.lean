/-
Runs of a partial step function.

A system is a step function `step s e` that gives the state after the event `e`,
or nothing when `e` cannot happen in the state `s`.

* `exec_invariant` — what every step preserves, provided it meets a condition
  in the state before it, holds at the end of every run whose steps all meet the
  condition;
* `exec_preserves` — the same without a condition;
* `meets_congr` — conditions that agree under an invariant are met by the same runs;
* `exec_iff_meets` — what holds at the end of a run exactly if its steps meet a condition;
* `states_iff_meets` — what holds all along a run exactly if its steps meet a condition;
* `exec_simulates` — a system that can follow every step of another follows its runs;
* `exec_total` — what grows by the cost of each step grows by the cost of the run.
-/
import Mathlib.Tactic.Common

namespace Run

variable {σ ε : Type*} (step : σ → ε → Option σ)

/-- The state at the end of a run. -/
def exec : σ → List ε → Option σ
  | s, [] => some s
  | s, e :: es => (step s e).bind fun s' => exec s' es

/-- Every step of the run meets a condition in the state before it. -/
def Meets (ok : σ → ε → Prop) : σ → List ε → Prop
  | _, [] => True
  | s, e :: es => ok s e ∧ match step s e with
    | none => True
    | some s' => Meets ok s' es

variable {step} {ok : σ → ε → Prop} {s s' : σ} {e : ε} {es : List ε}

theorem exec_cons : exec step s (e :: es) = some s' ↔
    ∃ t, step s e = some t ∧ exec step t es = some s' := by
  rw [exec, Option.bind_eq_some_iff]

theorem exec_append (es es' : List ε) :
    exec step s (es ++ es') = (exec step s es).bind fun t => exec step t es' := by
  induction es generalizing s with
  | nil => rfl
  | cons e es ih =>
    rw [List.cons_append, exec, exec, Option.bind_assoc]
    exact Option.bind_congr fun t _ => ih

instance decidableMeets [∀ s e, Decidable (ok s e)] : ∀ s es, Decidable (Meets step ok s es)
  | _, [] => .isTrue trivial
  | s, e :: es =>
    have : Decidable (match step s e with
        | none => True
        | some s' => Meets step ok s' es) :=
      match step s e with
      | none => .isTrue trivial
      | some s' => decidableMeets s' es
    inferInstanceAs (Decidable (_ ∧ _))

theorem Meets.mono {ok' : σ → ε → Prop} (h : Meets step ok s es)
    (himp : ∀ s e, ok s e → ok' s e) : Meets step ok' s es := by
  induction es generalizing s with
  | nil => trivial
  | cons e es ih =>
    obtain ⟨hone, hrest⟩ := h
    refine ⟨himp s e hone, ?_⟩
    revert hrest
    cases step s e with
    | none => exact id
    | some s' => exact ih

/-- A condition that always holds for the events of a run is met. -/
theorem meets_of_mem (h : ∀ e ∈ es, ∀ s, ok s e) : Meets step ok s es := by
  induction es generalizing s with
  | nil => trivial
  | cons e es ih =>
    obtain ⟨hone, hrest⟩ := List.forall_mem_cons.mp h
    refine ⟨hone s, ?_⟩
    split
    · trivial
    · exact ih hrest

theorem meets_of_forall (h : ∀ s e, ok s e) : Meets step ok s es := meets_of_mem fun e _ s => h s e

/-- **Invariants of runs.**  The induction is on the run; the condition on the
steps is passed along with the state. -/
theorem exec_invariant {I : σ → Prop}
    (hstep : ∀ s e s', I s → ok s e → step s e = some s' → I s') (h0 : I s)
    (hok : Meets step ok s es) (hrun : exec step s es = some s') : I s' := by
  induction es generalizing s with
  | nil =>
    obtain rfl : s = s' := by simpa [exec] using hrun
    exact h0
  | cons e es ih =>
    obtain ⟨t, ht, hes⟩ := exec_cons.mp hrun
    rw [Meets, ht] at hok
    exact ih (hstep s e t h0 hok.1 ht) hok.2 hes

/-- Two conditions that agree wherever an invariant holds are met by the same runs. -/
theorem meets_congr {ok' : σ → ε → Prop} {I : σ → Prop} (hok : ∀ s e, I s → (ok s e ↔ ok' s e))
    (hstep : ∀ s e s', I s → ok' s e → step s e = some s' → I s') (h0 : I s) :
    Meets step ok s es ↔ Meets step ok' s es := by
  induction es generalizing s with
  | nil => exact Iff.rfl
  | cons e es ih =>
    rw [Meets, Meets]
    refine (and_congr_left' (hok s e h0)).trans (and_congr_right fun hone => ?_)
    cases hs : step s e with
    | none => exact Iff.rfl
    | some s' => exact ih (hstep s e s' h0 hone hs)

/-- What every step leaves true exactly where its condition is met. -/
theorem exec_iff_meets {Φ : σ → Prop}
    (hstep : ∀ s e s', step s e = some s' → (Φ s' ↔ Φ s ∧ ok s e))
    (hrun : exec step s es = some s') : Φ s' ↔ Φ s ∧ Meets step ok s es := by
  induction es generalizing s with
  | nil =>
    obtain rfl : s = s' := by simpa [exec] using hrun
    rw [Meets, and_true]
  | cons e es ih =>
    obtain ⟨t, ht, hes⟩ := exec_cons.mp hrun
    rw [ih hes, hstep s e t ht, Meets, ht, and_assoc]

/-- A state along a run. -/
def Along (step : σ → ε → Option σ) (s : σ) (es : List ε) (t : σ) : Prop :=
  ∃ first, first <+: es ∧ exec step s first = some t

theorem along_nil {t : σ} : Along step s [] t ↔ t = s := by
  constructor
  · rintro ⟨first, hfirst, ht⟩
    obtain rfl := List.prefix_nil.mp hfirst
    exact (Option.some.inj ht).symm
  · rintro rfl
    exact ⟨[], List.nil_prefix, rfl⟩

theorem along_cons {t : σ} (hone : step s e = some s') :
    Along step s (e :: es) t ↔ t = s ∨ Along step s' es t := by
  constructor
  · rintro ⟨first, hfirst, ht⟩
    cases first with
    | nil => exact .inl (Option.some.inj ht).symm
    | cons e' first =>
      obtain ⟨rfl, hbehind⟩ := List.cons_prefix_cons.mp hfirst
      obtain ⟨s₁, hone', ht⟩ := exec_cons.mp ht
      obtain rfl : s' = s₁ := Option.some.inj (hone.symm.trans hone')
      exact .inr ⟨first, hbehind, ht⟩
  · rintro (rfl | ⟨first, hfirst, ht⟩)
    · exact ⟨[], List.nil_prefix, rfl⟩
    · exact ⟨e :: first, List.cons_prefix_cons.mpr ⟨rfl, hfirst⟩, exec_cons.mpr ⟨s', hone, ht⟩⟩

/-- What a step from a state in which it holds leaves true exactly if the step meets its
condition holds all along a run exactly if all its steps do. -/
theorem states_iff_meets {Φ I : σ → Prop}
    (hstep : ∀ s e s', I s → Φ s → step s e = some s' → (Φ s' ↔ ok s e) ∧ I s') (h0 : I s)
    (hΦ : Φ s) (hrun : exec step s es = some s') :
    (∀ t, Along step s es t → Φ t) ↔ Meets step ok s es := by
  induction es generalizing s with
  | nil => exact iff_of_true (fun t ht => along_nil.mp ht ▸ hΦ) trivial
  | cons e es ih =>
    obtain ⟨s₁, hone, hrest⟩ := exec_cons.mp hrun
    obtain ⟨hiff, h₁⟩ := hstep s e s₁ h0 hΦ hone
    simp only [Meets, hone, along_cons hone]
    constructor
    · intro hall
      have hΦ₁ : Φ s₁ := hall s₁ (.inr ⟨[], List.nil_prefix, rfl⟩)
      exact ⟨hiff.mp hΦ₁, (ih h₁ hΦ₁ hrest).mp fun t ht => hall t (.inr ht)⟩
    · rintro ⟨hok, hmeets⟩ t (rfl | ht)
      · exact hΦ
      · exact (ih h₁ (hiff.mpr hok) hrest).mpr hmeets t ht

/-- **Simulation.**  Where every step from related states can be followed, so can every
run. -/
theorem exec_simulates {τ : Type*} {step' : τ → ε → Option τ} {R : σ → τ → Prop} {t : τ}
    (hstep : ∀ s t e s', R s t → step s e = some s' → ∃ t', step' t e = some t' ∧ R s' t')
    (h0 : R s t) (hrun : exec step s es = some s') :
    ∃ t', exec step' t es = some t' ∧ R s' t' := by
  induction es generalizing s t with
  | nil =>
    obtain rfl : s = s' := Option.some.inj hrun
    exact ⟨t, rfl, h0⟩
  | cons e es ih =>
    obtain ⟨s₁, hone, hrest⟩ := exec_cons.mp hrun
    obtain ⟨t₁, hone', h₁⟩ := hstep s t e s₁ h0 hone
    obtain ⟨t', hrest', h'⟩ := ih h₁ hrest
    exact ⟨t', exec_cons.mpr ⟨t₁, hone', hrest'⟩, h'⟩

theorem exec_preserves {I : σ → Prop} (hstep : ∀ s e s', I s → step s e = some s' → I s')
    (h0 : I s) (hrun : exec step s es = some s') : I s' := by
  have htriv : Meets step (fun _ _ => True) s es := meets_of_forall fun _ _ => trivial
  exact exec_invariant (fun s e s' h _ => hstep s e s' h) h0 htriv hrun

/-- The cost of a run. -/
def total (step : σ → ε → Option σ) (cost : σ → ε → ℕ) : σ → List ε → ℕ
  | _, [] => 0
  | s, e :: es => cost s e + ((step s e).map fun s' => total step cost s' es).getD 0

/-- **An invariant with a count.** -/
theorem exec_total {cost : σ → ε → ℕ} {I : σ → ℕ → Prop}
    (hstep : ∀ s n e s', I s n → step s e = some s' → I s' (n + cost s e)) {n : ℕ} (h0 : I s n)
    (hrun : exec step s es = some s') : I s' (n + total step cost s es) := by
  induction es generalizing s n with
  | nil =>
    obtain rfl : s = s' := by simpa [exec] using hrun
    exact h0
  | cons e es ih =>
    obtain ⟨t, ht, hes⟩ := exec_cons.mp hrun
    have hrest := ih (hstep s n e t h0 ht) hes
    rw [Nat.add_assoc] at hrest
    rwa [total, ht]

end Run
