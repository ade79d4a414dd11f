/-
  The walk of the probe loop over the indices, for every hash value.

  `index` is the sequence of values of `idx`, computed with the wrap of the C code. It follows the
  walk modulo `size` (`index_toNat`), so it visits every index once before it is back at the first
  one. The loop compares `idx` with the first index in every pass, and so it ends whatever the
  table holds (`probeLoop_ends`).
-/
import Librecompat.Hsearch.Search

namespace Librecompat.Hsearch

open Librecompat.Lib

/-- `idx` at the start and after each step of the loop. -/
def index (size hval : UInt32) : Nat → UInt32
  | 0 => hval % size + 1
  | j + 1 => nextIdx size (1 + hval % (size - 2)) (index size hval j)

variable {size : UInt32}

theorem index_toNat (hs : Size size) (hval : UInt32) (j : Nat) :
    (index size hval j).toNat =
      probeAt size.toNat (1 + hval.toNat % (size.toNat - 2)) (hval.toNat % size.toNat) j + 1 := by
  induction j with
  | zero =>
    have hlt := Nat.mod_lt hval.toNat hs.prime.pos
    have hle := hs.le
    rw [probeAt_zero hlt, index, UInt32.toNat_add, UInt32.toNat_mod]
    show (hval.toNat % size.toNat + 1) % 2 ^ 32 = _
    exact Nat.mod_eq_of_lt (by omega)
  | succ j ih => exact nextIdx_probeAt hs ih

theorem index_range (hs : Size size) (hval : UInt32) (j : Nat) :
    1 ≤ (index size hval j).toNat ∧ (index size hval j).toNat ≤ size.toNat := by
  have hlt := probeAt_lt (h := 1 + hval.toNat % (size.toNat - 2)) (i := hval.toNat % size.toNat)
    hs.prime.pos j
  rw [index_toNat hs]
  omega

/-- The index is the first one again after `size` steps and no earlier. -/
theorem index_eq_first_iff (hs : Size size) (hval : UInt32) {j : Nat} (hj : j ≤ size.toNat) :
    index size hval j = index size hval 0 ↔ j = 0 ∨ j = size.toNat := by
  obtain ⟨h0, hlt⟩ := step_lt hs.three hval.toNat
  have hi := Nat.mod_lt hval.toNat hs.prime.pos
  rw [← UInt32.toNat_inj, index_toNat hs, index_toNat hs, probeAt_zero hi,
    Nat.add_right_cancel_iff]
  exact probeAt_eq_start_iff hs.prime h0 hlt hi hj

theorem existsUnique_index (hs : Size size) (hval : UInt32) {i : Nat} (h1 : 1 ≤ i)
    (hi : i ≤ size.toNat) : ∃! j, j < size.toNat ∧ (index size hval j).toNat = i := by
  obtain ⟨h0, hlt⟩ := step_lt hs.three hval.toNat
  obtain ⟨j, hj, heq⟩ := exists_probeAt (i := hval.toNat % size.toNat) hs.prime h0 hlt
    (show i - 1 < size.toNat by omega)
  refine ⟨j, ⟨hj, by rw [index_toNat hs]; omega⟩, ?_⟩
  intro k ⟨hk, hk'⟩
  rw [index_toNat hs] at hk'
  exact probeAt_inj (i := hval.toNat % size.toNat) hs.prime h0 hlt hk hj (by omega)

/-- The induction is on the passes that are left. -/
theorem probeLoop_ends (hs : Size size) (hval : UInt32) (str : Nat → CString) {table : List Slot}
    (htable : table.length = size.toNat + 1) (key : CString) : ∀ (n j : Nat),
    j + n = size.toNat → 0 < n → ∃ p,
      loop (probeBody str table size hval (1 + hval % (size - 2)) (index size hval 0) key) n
        (index size hval j) = some (some p) := by
  intro n
  induction n with
  | zero =>
    intro j _ h
    exact absurd h (Nat.lt_irrefl 0)
  | succ n ih =>
    intro j hn _
    have hnext : nextIdx size (1 + hval % (size - 2)) (index size hval j) =
        index size hval (j + 1) := rfl
    have hiff := index_eq_first_iff hs hval (show j + 1 ≤ size.toNat by omega)
    by_cases hend : j + 1 = size.toNat
    · refine ⟨.bucket (index size hval (j + 1)), loop_succ_inr ?_⟩
      rw [probeBody, hnext, if_pos (hiff.mpr (.inr hend))]
    · have hne : index size hval (j + 1) ≠ index size hval 0 := fun heq => by
        rcases hiff.mp heq with h | h <;> omega
      have hlt : (index size hval (j + 1)).toNat < table.length := by
        have := (index_range hs hval (j + 1)).2
        omega
      have hslot := List.getElem?_eq_getElem hlt
      generalize table[(index size hval (j + 1)).toNat] = slot at hslot
      have hbody : probeBody str table size hval (1 + hval % (size - 2)) (index size hval 0) key
          (index size hval j) =
          if slot.used = hval ∧ key = str slot.entry.key then
            .inr (some (.found (index size hval (j + 1))))
          else if slot.used ≠ 0 then .inl (index size hval (j + 1))
          else .inr (some (.bucket (index size hval (j + 1)))) := by
        rw [probeBody, hnext, if_neg hne, hslot]
      by_cases hkey : slot.used = hval ∧ key = str slot.entry.key
      · rw [if_pos hkey] at hbody
        exact ⟨_, loop_succ_inr hbody⟩
      · rw [if_neg hkey] at hbody
        by_cases hused : slot.used ≠ 0
        · rw [if_pos hused] at hbody
          rw [loop_succ_inl hbody]
          exact ih (j + 1) (by omega) (by omega)
        · rw [if_neg hused] at hbody
          exact ⟨_, loop_succ_inr hbody⟩

/-- For every prime size and every hash value: the indices stay in the table, each is visited once
    before the first one is met again, and the loop ends on every table. -/
theorem probe_covers (hs : Size size) (hval : UInt32) :
    (∀ j, 1 ≤ (index size hval j).toNat ∧ (index size hval j).toNat ≤ size.toNat) ∧
    (∀ i, 1 ≤ i → i ≤ size.toNat → ∃! j, j < size.toNat ∧ (index size hval j).toNat = i) ∧
    (∀ j, 0 < j → j ≤ size.toNat →
      (index size hval j = index size hval 0 ↔ j = size.toNat)) ∧
    ∀ (str : Nat → CString) (table : List Slot) (key : CString),
      table.length = size.toNat + 1 → ∃ p,
        loop (probeBody str table size hval (1 + hval % (size - 2)) (index size hval 0) key)
          size.toNat (index size hval 0) = some (some p) := by
  refine ⟨index_range hs hval, fun i => existsUnique_index hs hval, fun j h0 hj => ?_,
    fun str table key htable => ?_⟩
  · rw [index_eq_first_iff hs hval hj]
    omega
  · exact probeLoop_ends hs hval str htable key size.toNat 0 (Nat.zero_add _) hs.prime.pos

theorem probe_covers_seven : ∃! j, j < 7 ∧ (index 7 4294967295 j).toNat = 3 :=
  (@probe_covers 7 ⟨by decide, by decide, by decide⟩ 4294967295).2.1 3 (by decide) (by decide)

end Librecompat.Hsearch
