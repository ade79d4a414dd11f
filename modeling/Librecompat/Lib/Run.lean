/-
  Runs of a partial step function and the rules that prove something about every run.

  `step s e = none` means that the event `e` makes the state `s` go wrong. `Legal step ok s es`
  says that every event of `es` is allowed (`ok`) in the state in which it happens. `run_inv`
  is the one induction: a step lemma ("an allowed event does not go wrong and keeps `I`") gives
  the same for runs of any length; `run_inv_of_some` is its form for steps that may go wrong,
  `foldlM_inv` the one for a loop over a list. `run_append` and `legal_append` cut a run in two.
  On a concrete run `Legal` is decidable. `exists_final` is the rule for termination under an
  infinite schedule of events.
-/
import Mathlib.Data.List.Basic

namespace Librecompat.Lib

variable {σ ε : Type}

/-- The state after the events `es`, `none` as soon as one of them goes wrong. -/
def run (step : σ → ε → Option σ) : σ → List ε → Option σ
  | s, [] => some s
  | s, e :: es => (step s e).bind fun s' => run step s' es

/-- Every event of the list is allowed in the state in which it happens. -/
def Legal (step : σ → ε → Option σ) (ok : σ → ε → Prop) : σ → List ε → Prop
  | _, [] => True
  | s, e :: es => ok s e ∧ ∀ s', step s e = some s' → Legal step ok s' es

variable {step : σ → ε → Option σ} {ok : σ → ε → Prop}

@[simp] theorem run_nil (s : σ) : run step s [] = some s := rfl

@[simp] theorem run_cons (s : σ) (e : ε) (es : List ε) :
    run step s (e :: es) = (step s e).bind fun s' => run step s' es := rfl

@[simp] theorem legal_nil (s : σ) : Legal step ok s [] := trivial

theorem legal_cons {s : σ} {e : ε} {es : List ε} :
    Legal step ok s (e :: es) ↔ ok s e ∧ ∀ s', step s e = some s' → Legal step ok s' es :=
  Iff.rfl

instance decidableLegal [∀ s e, Decidable (ok s e)] :
    ∀ (s : σ) (es : List ε), Decidable (Legal step ok s es)
  | _, [] => isTrue trivial
  | s, e :: es =>
    match hs : step s e with
    | none => decidable_of_iff (ok s e) ⟨fun he => ⟨he, by simp [hs]⟩, And.left⟩
    | some s' =>
      have := decidableLegal s' es
      decidable_of_iff (ok s e ∧ Legal step ok s' es)
        ⟨fun ⟨he, hl⟩ => ⟨he, by simpa [hs] using hl⟩, fun ⟨he, hl⟩ => ⟨he, hl s' hs⟩⟩

theorem run_append (s : σ) (es fs : List ε) :
    run step s (es ++ fs) = (run step s es).bind fun s' => run step s' fs := by
  induction es generalizing s with
  | nil => rfl
  | cons e es ih =>
    simp only [List.cons_append, run_cons, Option.bind_assoc]
    exact congrArg _ (funext ih)

theorem legal_append {s : σ} {es fs : List ε} :
    Legal step ok s (es ++ fs) ↔
      Legal step ok s es ∧ ∀ s', run step s es = some s' → Legal step ok s' fs := by
  induction es generalizing s with
  | nil => simp
  | cons e es ih =>
    simp only [List.cons_append, legal_cons, run_cons, Option.bind_eq_some_iff]
    constructor
    · rintro ⟨he, h⟩
      exact ⟨⟨he, fun s' hs => (ih.mp (h s' hs)).1⟩,
        fun s'' ⟨s', hs, hr⟩ => (ih.mp (h s' hs)).2 s'' hr⟩
    · rintro ⟨⟨he, h⟩, hf⟩
      exact ⟨he, fun s' hs => ih.mpr ⟨h s' hs, fun s'' hr => hf s'' ⟨s', hs, hr⟩⟩⟩

theorem legal_of_forall (h : ∀ s e, ok s e) : ∀ (s : σ) (es : List ε), Legal step ok s es
  | _, [] => trivial
  | s, e :: es => ⟨h s e, fun s' _ => legal_of_forall h s' es⟩

theorem legal_of_mem : ∀ {es : List ε} {s : σ}, (∀ e ∈ es, ∀ s, ok s e) → Legal step ok s es
  | [], _, _ => trivial
  | e :: _, s, h =>
    ⟨h e List.mem_cons_self s, fun _ _ => legal_of_mem fun e' he' => h e' (List.mem_cons_of_mem e he')⟩

/-- An invariant that every allowed step establishes again holds after every legal run, and
    no legal run goes wrong. -/
theorem run_inv {I : σ → Prop}
    (hstep : ∀ s e, I s → ok s e → ∃ s', step s e = some s' ∧ I s') :
    ∀ {es : List ε} {s : σ}, I s → Legal step ok s es → ∃ s', run step s es = some s' ∧ I s'
  | [], s, hI, _ => ⟨s, rfl, hI⟩
  | e :: es, s, hI, ⟨he, hl⟩ => by
    obtain ⟨s', hs, hI'⟩ := hstep s e hI he
    obtain ⟨t, ht, hIt⟩ := run_inv hstep hI' (hl s' hs)
    exact ⟨t, by simp [hs, ht], hIt⟩

/-- The partial form of `run_inv`: steps may go wrong, the ones that do not keep the
    invariant. -/
theorem run_inv_of_some {I : σ → Prop}
    (hstep : ∀ s e s', I s → ok s e → step s e = some s' → I s') :
    ∀ {es : List ε} {s t : σ}, I s → Legal step ok s es → run step s es = some t → I t
  | [], s, t, hI, _, hr => by
    obtain rfl : s = t := by simpa using hr
    exact hI
  | e :: es, s, t, hI, ⟨he, hl⟩, hr => by
    obtain ⟨s', hs, hr'⟩ := Option.bind_eq_some_iff.mp hr
    exact run_inv_of_some hstep (hstep s e s' hI he hs) (hl s' hs) hr'

/-- A loop over a list whose every pass succeeds and keeps the invariant. -/
theorem foldlM_inv {I : σ → Prop} {may : ε → Prop}
    (hstep : ∀ s e, I s → may e → ∃ s', step s e = some s' ∧ I s') :
    ∀ {es : List ε} {s : σ}, I s → (∀ e ∈ es, may e) → ∃ s', es.foldlM step s = some s' ∧ I s'
  | [], s, hI, _ => ⟨s, rfl, hI⟩
  | e :: es, s, hI, hes => by
    rw [List.forall_mem_cons] at hes
    obtain ⟨s', hs, hI'⟩ := hstep s e hI hes.1
    obtain ⟨t, ht, hIt⟩ := foldlM_inv hstep hI' hes.2
    exact ⟨t, by rw [List.foldlM_cons, hs, Option.bind_eq_bind, Option.bind_some, ht], hIt⟩

/-! ## Infinitely many events -/

/-- The first `n` events of a schedule. -/
def first (ρ : Nat → ε) (n : Nat) : List ε := (List.range n).map ρ

theorem first_succ (ρ : Nat → ε) (n : Nat) : first ρ (n + 1) = first ρ n ++ [ρ n] := by
  simp [first, List.range_succ]

/-- A schedule that has gone wrong stays so. -/
theorem run_first_none {ρ : Nat → ε} {s : σ} {m n : Nat} (h : run step s (first ρ m) = none)
    (hle : m ≤ n) : run step s (first ρ n) = none := by
  induction hle with
  | refl => exact h
  | step _ ih => rw [first_succ, run_append, ih, Option.bind_none]

/-- Termination under a schedule: when every allowed event in a state that is not final keeps
    the invariant, never increases the measure, and decreases it unless the event is one that
    stutters, and only finitely many events stutter, then some prefix of the schedule leads to
    a final state. -/
theorem exists_final {I final : σ → Prop} {stutter : ε → Prop} (μ : σ → Nat)
    (hstep : ∀ s e, I s → ¬ final s → ok s e →
      ∃ s', step s e = some s' ∧ I s' ∧ μ s' ≤ μ s ∧ (¬ stutter e → μ s' < μ s))
    {ρ : Nat → ε} {N : Nat} (hfin : ∀ n, N ≤ n → ¬ stutter (ρ n)) {s₀ : σ} (hI : I s₀)
    (hok : ∀ n s, run step s₀ (first ρ n) = some s → ¬ final s → ok s (ρ n)) :
    ∃ n s, run step s₀ (first ρ n) = some s ∧ I s ∧ final s := by
  by_contra hno
  -- no prefix is final, so the measure goes down forever
  have hdown : ∀ n, ∃ s, run step s₀ (first ρ n) = some s ∧ I s ∧ μ s + (n - N) ≤ μ s₀ := by
    intro n
    induction n with
    | zero => exact ⟨s₀, rfl, hI, by omega⟩
    | succ n ih =>
      obtain ⟨s, hs, hIs, hle⟩ := ih
      have hnf : ¬ final s := fun hf => hno ⟨n, s, hs, hIs, hf⟩
      obtain ⟨s', hs', hI', hμ, hlt⟩ := hstep s (ρ n) hIs hnf (hok n s hs hnf)
      refine ⟨s', ?_, hI', ?_⟩
      · rw [first_succ, run_append, hs, Option.bind_some, run_cons, hs']
        rfl
      · by_cases hn : N ≤ n
        · have := hlt (hfin n hn)
          omega
        · omega
  obtain ⟨s, _, _, hle⟩ := hdown (N + μ s₀ + 1)
  omega

end Librecompat.Lib
