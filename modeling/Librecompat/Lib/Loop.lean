/-
  `while` loops as iteration of a loop body, with their proof rules.

  A body maps a loop state to the next loop state (`.inl`) or leaves the loop with a result
  (`.inr`). `loop body n s` makes at most `n` passes. `loop_total` is the rule for total
  correctness: an invariant and a measure that decreases at every pass. `loop_partial` is the
  rule for partial correctness. `Passes body s s'` says that the loop started in `s` gets to
  the loop head in state `s'`; `loop_passes` reads a result off the last state visited.
  `tryLoop` is `loop` for a body that may go wrong, `tryLoop_total` its rule; `TryPasses body k`
  is for a loop that is followed pass by pass, over `k` of them.
-/
import Mathlib.Logic.Relation

namespace Librecompat.Lib

variable {σ ρ : Type}

/-- At most `n` passes of the loop from state `s`; `none` when they do not suffice. -/
def loop (body : σ → σ ⊕ ρ) : Nat → σ → Option ρ
  | 0, _ => none
  | n + 1, s =>
    match body s with
    | .inl s' => loop body n s'
    | .inr r => some r

/-- The loop started in the first state reaches the loop head in the second. -/
def Passes (body : σ → σ ⊕ ρ) : σ → σ → Prop :=
  Relation.ReflTransGen fun s s' => body s = .inl s'

variable {body : σ → σ ⊕ ρ}

theorem loop_succ_inl {n : Nat} {s s' : σ} (h : body s = .inl s') :
    loop body (n + 1) s = loop body n s' := by
  simp [loop, h]

theorem loop_succ_inr {n : Nat} {s : σ} {r : ρ} (h : body s = .inr r) :
    loop body (n + 1) s = some r := by
  simp [loop, h]

/-- Total correctness: with an invariant kept by every pass and a measure that every pass
    decreases, enough passes end the loop in a result that satisfies `Q`. -/
theorem loop_total {I : σ → Prop} {Q : ρ → Prop} (μ : σ → Nat)
    (hpass : ∀ s s', I s → body s = .inl s' → I s' ∧ μ s' < μ s)
    (hexit : ∀ s r, I s → body s = .inr r → Q r) :
    ∀ {n : Nat} {s : σ}, I s → μ s < n → ∃ r, loop body n s = some r ∧ Q r
  | 0, _, _, h => absurd h (Nat.not_lt_zero _)
  | n + 1, s, hI, h => by
    cases hb : body s with
    | inl s' =>
      obtain ⟨hI', hlt⟩ := hpass s s' hI hb
      rw [loop_succ_inl hb]
      exact loop_total μ hpass hexit hI' (by omega)
    | inr r => exact ⟨r, loop_succ_inr hb, hexit s r hI hb⟩

/-- The result of a loop comes from a pass made in a state that the loop reaches. -/
theorem loop_passes : ∀ {n : Nat} {s : σ} {r : ρ}, loop body n s = some r →
    ∃ s', Passes body s s' ∧ body s' = .inr r
  | 0, _, _, h => by simp [loop] at h
  | n + 1, s, r, h => by
    cases hb : body s with
    | inl s' =>
      rw [loop_succ_inl hb] at h
      obtain ⟨t, ht, hr⟩ := loop_passes h
      exact ⟨t, Relation.ReflTransGen.head hb ht, hr⟩
    | inr r' =>
      rw [loop_succ_inr hb] at h
      exact ⟨s, Relation.ReflTransGen.refl, by rw [hb, Option.some.inj h]⟩

/-- An invariant kept by every pass holds at every loop head reached. -/
theorem Passes.inv {I : σ → Prop} (hpass : ∀ s s', I s → body s = .inl s' → I s') {s t : σ}
    (hp : Passes body s t) (hI : I s) : I t := by
  induction hp with
  | refl => exact hI
  | tail _ hb ih => exact hpass _ _ ih hb

/-- When every pass moves a position forward, each position between two loop heads is the
    position of a loop head or is passed over by a single pass. -/
theorem Passes.covers (pos : σ → Nat) {s t : σ} (hp : Passes body s t) {i : Nat}
    (hs : pos s ≤ i) (ht : i < pos t) :
    ∃ u, Passes body s u ∧ (pos u = i ∨ ∃ v, body u = .inl v ∧ pos u < i ∧ i < pos v) := by
  induction hp with
  | refl => omega
  | @tail u v hu hb ih =>
    by_cases hi : i < pos u
    · exact ih hi
    · by_cases heq : pos u = i
      · exact ⟨u, hu, .inl heq⟩
      · exact ⟨u, hu, .inr ⟨v, hb, by omega, ht⟩⟩

/-- Partial correctness: an invariant kept by every pass holds at the exit. -/
theorem loop_partial {I : σ → Prop} {Q : ρ → Prop}
    (hpass : ∀ s s', I s → body s = .inl s' → I s')
    (hexit : ∀ s r, I s → body s = .inr r → Q r)
    {n : Nat} {s : σ} {r : ρ} (hI : I s) (h : loop body n s = some r) : Q r := by
  obtain ⟨t, ht, hr⟩ := loop_passes h
  exact hexit t r (ht.inv hpass hI) hr

/-- Once the loop reaches a state whose pass leaves with `r`, its result is `r`. -/
theorem loop_eq_of_passes {s t : σ} {r r' : ρ} (hp : Passes body s t) (ht : body t = .inr r) :
    ∀ {n : Nat}, loop body n s = some r' → r' = r := by
  induction hp using Relation.ReflTransGen.head_induction_on with
  | refl =>
    intro n h
    cases n with
    | zero => simp [loop] at h
    | succ n => exact (Option.some.inj ((loop_succ_inr ht).symm.trans h)).symm
  | head hb _ ih =>
    intro n h
    cases n with
    | zero => simp [loop] at h
    | succ n => exact ih (by rwa [loop_succ_inl hb] at h)

/-! ## Bodies that may go wrong -/

/-- At most `n` passes of the loop from state `s`; `none` when they do not suffice or a pass
    goes wrong. -/
def tryLoop (body : σ → Option (σ ⊕ ρ)) : Nat → σ → Option ρ
  | 0, _ => none
  | n + 1, s => (body s).bind fun r =>
    match r with
    | .inl s' => tryLoop body n s'
    | .inr r => some r

theorem tryLoop_succ_inl {body : σ → Option (σ ⊕ ρ)} {n : Nat} {s s' : σ}
    (h : body s = some (.inl s')) : tryLoop body (n + 1) s = tryLoop body n s' := by
  simp [tryLoop, h]

theorem tryLoop_succ_inr {body : σ → Option (σ ⊕ ρ)} {n : Nat} {s : σ} {r : ρ}
    (h : body s = some (.inr r)) : tryLoop body (n + 1) s = some r := by
  simp [tryLoop, h]

/-- Two loops that differ in the type of the result only. -/
theorem tryLoop_map {ρ' : Type} {body : σ → Option (σ ⊕ ρ)} {body' : σ → Option (σ ⊕ ρ')}
    {f : ρ → ρ'} (h : ∀ s, body' s = (body s).map (Sum.map id f)) (n : Nat) (s : σ) :
    tryLoop body' n s = (tryLoop body n s).map f := by
  induction n generalizing s with
  | zero => rfl
  | succ n ih =>
    rw [tryLoop, tryLoop, h]
    cases body s with
    | none => rfl
    | some r =>
      cases r with
      | inl s' => exact ih s'
      | inr r => rfl

/-- Total correctness: no pass goes wrong where the invariant holds, every pass keeps it and
    decreases the measure, or ends the loop in a result that satisfies `Q`. -/
theorem tryLoop_total {body : σ → Option (σ ⊕ ρ)} {I : σ → Prop} {Q : ρ → Prop} (μ : σ → Nat)
    (hpass : ∀ s, I s → (∃ s', body s = some (.inl s') ∧ I s' ∧ μ s' < μ s) ∨
      ∃ r, body s = some (.inr r) ∧ Q r) :
    ∀ {n : Nat} {s : σ}, I s → μ s < n → ∃ r, tryLoop body n s = some r ∧ Q r
  | 0, _, _, h => absurd h (Nat.not_lt_zero _)
  | n + 1, s, hI, h => by
    obtain ⟨s', hb, hI', hlt⟩ | ⟨r, hb, hQ⟩ := hpass s hI
    · obtain ⟨r, hr, hQ⟩ := @tryLoop_total body I Q μ hpass n s' hI' (by omega)
      exact ⟨r, by simp [tryLoop, hb, hr], hQ⟩
    · exact ⟨r, by simp [tryLoop, hb], hQ⟩

/-- The loop started in the first state is in the second after `k` passes. -/
inductive TryPasses (body : σ → Option (σ ⊕ ρ)) : Nat → σ → σ → Prop
  | refl (s : σ) : TryPasses body 0 s s
  | head {s s' t : σ} {k : Nat} (h : body s = some (.inl s')) (hs : TryPasses body k s' t) :
      TryPasses body (k + 1) s t

theorem TryPasses.single {body : σ → Option (σ ⊕ ρ)} {s s' : σ} (h : body s = some (.inl s')) :
    TryPasses body 1 s s' := .head h (.refl s')

theorem TryPasses.trans {body : σ → Option (σ ⊕ ρ)} {j k : Nat} {s t u : σ}
    (h : TryPasses body j s t) (h' : TryPasses body k t u) : TryPasses body (j + k) s u := by
  induction h with
  | refl => simpa using h'
  | head hb _ ih =>
    rw [Nat.add_right_comm]
    exact .head hb (ih h')

/-- Where the loop leaves decides its result, whatever passes are left over. -/
theorem TryPasses.result {body : σ → Option (σ ⊕ ρ)} {k n : Nat} {s t : σ} {r : ρ}
    (h : TryPasses body k s t) (hr : body t = some (.inr r)) (hn : k < n) :
    tryLoop body n s = some r := by
  induction h generalizing n with
  | refl =>
    obtain ⟨n, rfl⟩ := Nat.exists_eq_succ_of_ne_zero (Nat.ne_zero_of_lt hn)
    simp [tryLoop, hr]
  | head hb _ ih =>
    obtain ⟨n, rfl⟩ := Nat.exists_eq_succ_of_ne_zero (Nat.ne_zero_of_lt hn)
    simp only [tryLoop, hb, Option.bind_some]
    exact ih hr (by omega)

end Librecompat.Lib
