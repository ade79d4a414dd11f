/-
  Open addressing and double hashing.

  `probeAt n h i` walks over `0, …, n - 1` from `i` by steps of `h` downwards. For a prime `n` and
  a step `0 < h < n` the first `n` indices are all different (`probeAt_inj`), so they are all there
  are (`exists_probeAt`), and the walk is back at its start after `n` steps and no earlier
  (`probeAt_eq_start_iff`).

  `Addressed probe T` is the invariant of a table in which nothing is ever deleted: each key is
  stored once, and on the way of its probe sequence to it there is no free slot. A free slot met
  before the key therefore says that the key is not stored (`Addressed.absent`), and a key stored
  in the first free slot of its sequence keeps the invariant (`Addressed.insert`).
-/
import Mathlib.Data.Fintype.EquivFin
import Mathlib.Data.Nat.ModEq
import Mathlib.Data.Nat.Prime.Basic

namespace Librecompat.Lib

/-! ## Double hashing -/

/-- The index after `j` steps of `h` downwards modulo `n` from `i`. -/
def probeAt (n h i j : Nat) : Nat := (i + j * (n - h)) % n

variable {n h i : Nat}

theorem probeAt_zero (hi : i < n) : probeAt n h i 0 = i := by
  rw [probeAt, Nat.zero_mul, Nat.add_zero, Nat.mod_eq_of_lt hi]

theorem probeAt_lt (hn : 0 < n) (j : Nat) : probeAt n h i j < n := Nat.mod_lt _ hn

/-- One step: subtract `h`, and add `n` where that would go below zero. -/
theorem probeAt_succ (hh : h < n) (j : Nat) :
    probeAt n h i (j + 1) =
      if probeAt n h i j < h then n + probeAt n h i j - h else probeAt n h i j - h := by
  have hlt : probeAt n h i j < n := probeAt_lt (Nat.zero_lt_of_lt hh) j
  have hstep : probeAt n h i (j + 1) = (probeAt n h i j + (n - h)) % n := by
    unfold probeAt
    rw [Nat.mod_add_mod, Nat.succ_mul, Nat.add_assoc]
  rw [hstep]
  split
  · next hx =>
    rw [Nat.mod_eq_of_lt (by omega)]
    omega
  · next hx =>
    rw [Nat.mod_eq_sub_mod (by omega), Nat.mod_eq_of_lt (by omega)]
    omega

theorem probeAt_inj (hn : n.Prime) (h0 : 0 < h) (hh : h < n) {j k : Nat} (hj : j < n) (hk : k < n)
    (heq : probeAt n h i j = probeAt n h i k) : j = k := by
  have hcop : n.gcd (n - h) = 1 :=
    Nat.coprime_of_lt_prime (by omega : n - h ≠ 0) (by omega) hn
  have hmul : j * (n - h) ≡ k * (n - h) [MOD n] :=
    Nat.ModEq.add_left_cancel' i heq
  exact (Nat.ModEq.cancel_right_of_coprime hcop hmul).eq_of_lt_of_lt hj hk

theorem exists_probeAt (hn : n.Prime) (h0 : 0 < h) (hh : h < n) {x : Nat} (hx : x < n) :
    ∃ j, j < n ∧ probeAt n h i j = x := by
  let f : Fin n → Fin n := fun j => ⟨probeAt n h i j, probeAt_lt hn.pos j⟩
  have hinj : Function.Injective f := fun j k heq =>
    Fin.ext (probeAt_inj hn h0 hh j.isLt k.isLt (Fin.mk.inj heq))
  obtain ⟨j, hj⟩ := Finite.injective_iff_surjective.mp hinj ⟨x, hx⟩
  exact ⟨j, j.isLt, Fin.mk.inj hj⟩

theorem probeAt_period (j : Nat) : probeAt n h i (j + n) = probeAt n h i j := by
  unfold probeAt
  rw [Nat.add_mul, ← Nat.add_assoc, Nat.add_mul_mod_self_left]

theorem probeAt_eq_start_iff (hn : n.Prime) (h0 : 0 < h) (hh : h < n) (hi : i < n) {j : Nat}
    (hj : j ≤ n) : probeAt n h i j = i ↔ j = 0 ∨ j = n := by
  constructor
  · intro heq
    rcases Nat.lt_or_eq_of_le hj with hlt | rfl
    · exact .inl (probeAt_inj hn h0 hh hlt hn.pos (heq.trans (probeAt_zero hi).symm))
    · exact .inr rfl
  · rintro (rfl | rfl)
    · exact probeAt_zero hi
    · have hper := probeAt_period (n := j) (h := h) (i := i) 0
      rw [Nat.zero_add] at hper
      exact hper.trans (probeAt_zero hi)

/-! ## Open addressing -/

variable {I K : Type} {probe : K → Nat → I} {T : I → Option K}

/-- Every key is stored once and is found along its probe sequence before any free slot. -/
structure Addressed (probe : K → Nat → I) (T : I → Option K) : Prop where
  reach : ∀ i k, T i = some k → ∃ j, probe k j = i ∧ ∀ m < j, T (probe k m) ≠ none
  unique : ∀ i i' k, T i = some k → T i' = some k → i = i'

theorem addressed_empty : Addressed probe fun _ => none := ⟨nofun, nofun⟩

/-- Nothing is stored under a key whose sequence meets a free slot first. -/
theorem Addressed.absent (hT : Addressed probe T) {k : K} {j : Nat}
    (hfree : T (probe k j) = none) (hpass : ∀ m < j, T (probe k m) ≠ some k) (i : I) :
    T i ≠ some k := by
  intro hi
  obtain ⟨j', rfl, hway⟩ := hT.reach i k hi
  rcases Nat.lt_trichotomy j j' with hlt | rfl | hlt
  · exact hway j hlt hfree
  · exact Option.some_ne_none k (hi.symm.trans hfree)
  · exact hpass j' hlt hi

/-- Nothing is stored under a key that is in no slot of a sequence that covers the table. -/
theorem not_stored_of_covers {k : K} {j : Nat} {s : I → Prop} (hs : ∀ i, T i ≠ none → s i)
    (hcover : ∀ i, s i → ∃ m < j, probe k m = i) (hpass : ∀ m < j, T (probe k m) ≠ some k) (i : I) :
    T i ≠ some k := by
  intro hi
  obtain ⟨m, hm, rfl⟩ := hcover i (hs i (hi ▸ Option.some_ne_none k))
  exact hpass m hm hi

/-- The first free slot of its sequence takes a new key. -/
theorem Addressed.insert [DecidableEq I] (hT : Addressed probe T) {k : K} {j : Nat}
    (hway : ∀ m < j, T (probe k m) ≠ none) (hnew : ∀ i, T i ≠ some k) :
    Addressed probe (Function.update T (probe k j) (some k)) := by
  have hkeep : ∀ i, T i ≠ none → Function.update T (probe k j) (some k) i ≠ none := by
    intro i hi
    rcases eq_or_ne i (probe k j) with rfl | hne
    · simp
    · rwa [Function.update_of_ne hne]
  refine ⟨fun i k' hi => ?_, fun i i' k' hi hi' => ?_⟩
  · rcases eq_or_ne i (probe k j) with rfl | hne
    · rw [Function.update_self] at hi
      obtain rfl := Option.some.inj hi
      exact ⟨j, rfl, fun m hm => hkeep _ (hway m hm)⟩
    · rw [Function.update_of_ne hne] at hi
      obtain ⟨j', hj', hway'⟩ := hT.reach i k' hi
      exact ⟨j', hj', fun m hm => hkeep _ (hway' m hm)⟩
  · rcases eq_or_ne i (probe k j) with rfl | hne <;> rcases eq_or_ne i' (probe k j) with rfl | hne'
    · rfl
    · rw [Function.update_self] at hi
      rw [Function.update_of_ne hne'] at hi'
      exact absurd (hi'.trans hi.symm) (hnew i')
    · rw [Function.update_self] at hi'
      rw [Function.update_of_ne hne] at hi
      exact absurd (hi.trans hi'.symm) (hnew i)
    · rw [Function.update_of_ne hne] at hi
      rw [Function.update_of_ne hne'] at hi'
      exact hT.unique i i' k' hi hi'

end Librecompat.Lib
