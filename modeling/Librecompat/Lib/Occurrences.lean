/-
  The occurrences of one list in another, from the left and without overlap.

  `pieces pat s` is what lies between the occurrences: the scan goes from the left and steps over
  each occurrence as a whole. `replaceAll` puts another list in their place, `occurrences` counts
  them. `FirstAt pat s n` says that the first occurrence starts at `n`; the three functions are
  unfolded at it (`pieces_first`) or, when there is none, all at once (`pieces_none`).
-/
import Mathlib.Data.List.Basic

namespace Librecompat.Lib

variable {α : Type}

/-! ## The first occurrence -/

/-- `pat` starts at `n` and nowhere before. -/
structure FirstAt (pat s : List α) (n : Nat) : Prop where
  here : pat <+: s.drop n
  first : ∀ m < n, ¬ pat <+: s.drop m

theorem FirstAt.le_length {pat s : List α} {n : Nat} (h : FirstAt pat s n) (hpat : pat ≠ []) :
    n + pat.length ≤ s.length := by
  have hle := h.here.length_le
  have hpos := List.length_pos_iff.mpr hpat
  rw [List.length_drop] at hle
  omega

theorem FirstAt.occurs {pat s : List α} {n : Nat} (h : FirstAt pat s n) : pat <:+: s :=
  h.here.isInfix.trans (List.drop_suffix n s).isInfix

theorem FirstAt.cons {pat s : List α} {n : Nat} {c : α} (h : FirstAt pat s n)
    (hc : ¬ pat <+: c :: s) : FirstAt pat (c :: s) (n + 1) := by
  refine ⟨h.here, fun m hm => ?_⟩
  cases m with
  | zero => exact hc
  | succ m => exact h.first m (Nat.lt_of_succ_lt_succ hm)

theorem FirstAt.tail {pat s : List α} {n : Nat} {c : α} (h : FirstAt pat (c :: s) (n + 1)) :
    ¬ pat <+: c :: s ∧ FirstAt pat s n :=
  ⟨h.first 0 (Nat.succ_pos n), h.here, fun m hm => h.first (m + 1) (Nat.succ_lt_succ hm)⟩

/-! ## The pieces between the occurrences -/

section Pieces

variable [DecidableEq α] (pat : List α)

/-- The pieces from a place where `skip` cells of an occurrence are still ahead. -/
def piecesFrom : Nat → List α → List (List α)
  | _, [] => [[]]
  | skip + 1, _ :: s => piecesFrom skip s
  | 0, c :: s =>
    if pat.isPrefixOf (c :: s) then [] :: piecesFrom (pat.length - 1) s
    else (piecesFrom 0 s).modifyHead (c :: ·)

def pieces (s : List α) : List (List α) := piecesFrom pat 0 s

/-- Every occurrence of `pat` in `s` replaced by `wth`. -/
def replaceAll (wth s : List α) : List α := wth.intercalate (pieces pat s)

/-- The number of occurrences. -/
def occurrences (s : List α) : Nat := (pieces pat s).length - 1

theorem piecesFrom_eq (skip : Nat) (s : List α) : piecesFrom pat skip s = pieces pat (s.drop skip) := by
  induction s generalizing skip with
  | nil => cases skip <;> rfl
  | cons c s ih =>
    cases skip with
    | zero => rfl
    | succ skip => exact ih skip

variable {pat}

theorem pieces_cons_here {c : α} {s : List α} (h : pat <+: c :: s) (hpat : pat ≠ []) :
    pieces pat (c :: s) = [] :: pieces pat ((c :: s).drop pat.length) := by
  obtain ⟨k, hk⟩ := Nat.exists_eq_succ_of_ne_zero (Nat.ne_of_gt (List.length_pos_iff.mpr hpat))
  rw [pieces, piecesFrom, if_pos (List.isPrefixOf_iff_prefix.mpr h), piecesFrom_eq, hk]
  rfl

theorem pieces_cons {c : α} {s : List α} (h : ¬ pat <+: c :: s) :
    pieces pat (c :: s) = (pieces pat s).modifyHead (c :: ·) := by
  rw [pieces, piecesFrom, if_neg fun hc => h (List.isPrefixOf_iff_prefix.mp hc)]
  rfl

theorem pieces_first (hpat : pat ≠ []) {s : List α} {n : Nat} (h : FirstAt pat s n) :
    pieces pat s = s.take n :: pieces pat (s.drop (n + pat.length)) := by
  induction n generalizing s with
  | zero =>
    cases s with
    | nil => exact absurd (List.prefix_nil.mp h.here) hpat
    | cons c s =>
      rw [pieces_cons_here h.here hpat, List.take_zero, Nat.zero_add]
  | succ n ih =>
    cases s with
    | nil => exact absurd (List.prefix_nil.mp h.here) hpat
    | cons c s =>
      obtain ⟨hc, htail⟩ := h.tail
      rw [pieces_cons hc, ih htail, List.modifyHead_cons, List.take_succ_cons,
        Nat.add_right_comm, List.drop_succ_cons]

theorem pieces_none {s : List α} (h : ¬ pat <:+: s) : pieces pat s = [s] := by
  induction s with
  | nil => rfl
  | cons c s ih =>
    have htail : ¬ pat <:+: s := fun hs => h (hs.trans (List.infix_cons (List.infix_refl s)))
    rw [pieces_cons fun hc => h hc.isInfix, ih htail]
    rfl

theorem pieces_ne_nil (pat s : List α) : pieces pat s ≠ [] := by
  have hfrom : ∀ skip, piecesFrom pat skip s ≠ [] := by
    induction s with
    | nil =>
      intro skip
      cases skip <;> exact List.cons_ne_nil _ _
    | cons c s ih =>
      intro skip
      cases skip with
      | succ skip => exact ih skip
      | zero =>
        unfold piecesFrom
        split
        · exact List.cons_ne_nil _ _
        · simpa using ih 0
  exact hfrom 0

theorem subset_of_mem_piecesFrom {skip : Nat} {s e : List α} (he : e ∈ piecesFrom pat skip s) :
    e ⊆ s := by
  induction s generalizing skip e with
  | nil => cases skip <;> exact List.mem_singleton.mp he ▸ List.Subset.refl _
  | cons c s ih =>
    cases skip with
    | succ skip => exact List.subset_cons_of_subset c (ih he)
    | zero =>
      unfold piecesFrom at he
      split at he
      · rcases List.mem_cons.mp he with rfl | he
        · exact List.nil_subset _
        · exact List.subset_cons_of_subset c (ih he)
      · cases hs : piecesFrom pat 0 s with
        | nil => exact absurd hs (pieces_ne_nil pat s)
        | cons p ps =>
          rw [hs] at he
          have hps : ∀ q ∈ p :: ps, q ⊆ s := fun q hq => ih (hs ▸ hq)
          rcases List.mem_cons.mp he with rfl | he
          · exact List.cons_subset_cons c (hps p List.mem_cons_self)
          · exact List.subset_cons_of_subset c (hps e (List.mem_cons_of_mem p he))

/-! ## Replacing and counting -/

theorem replaceAll_first (hpat : pat ≠ []) (wth : List α) {s : List α} {n : Nat}
    (h : FirstAt pat s n) :
    replaceAll pat wth s = s.take n ++ wth ++ replaceAll pat wth (s.drop (n + pat.length)) := by
  obtain ⟨p, ps, hps⟩ := List.exists_cons_of_ne_nil
    (pieces_ne_nil pat (s.drop (n + pat.length)))
  rw [replaceAll, pieces_first hpat h, replaceAll, hps, List.intercalate_cons_cons]

theorem replaceAll_none (wth : List α) {s : List α} (h : ¬ pat <:+: s) :
    replaceAll pat wth s = s := by
  rw [replaceAll, pieces_none h]
  simp

theorem occurrences_first (hpat : pat ≠ []) {s : List α} {n : Nat} (h : FirstAt pat s n) :
    occurrences pat s = occurrences pat (s.drop (n + pat.length)) + 1 := by
  have hpos := List.length_pos_iff.mpr (pieces_ne_nil pat (s.drop (n + pat.length)))
  rw [occurrences, pieces_first hpat h, List.length_cons, occurrences]
  omega

theorem occurrences_none {s : List α} (h : ¬ pat <:+: s) : occurrences pat s = 0 := by
  rw [occurrences, pieces_none h]
  rfl

end Pieces

theorem mem_intercalate {c : α} {sep : List α} {l : List (List α)} (h : c ∈ sep.intercalate l) :
    c ∈ sep ∨ ∃ e ∈ l, c ∈ e := by
  induction l with
  | nil => exact absurd h List.not_mem_nil
  | cons e l ih =>
    cases l with
    | nil => exact .inr ⟨e, List.mem_cons_self, by simpa using h⟩
    | cons e' l =>
      rw [List.intercalate_cons_cons, List.append_assoc] at h
      rcases List.mem_append.mp h with h | h
      · exact .inr ⟨e, List.mem_cons_self, h⟩
      · rcases List.mem_append.mp h with h | h
        · exact .inl h
        · exact (ih h).imp id fun ⟨d, hd, hc⟩ => ⟨d, List.mem_cons_of_mem e hd, hc⟩

theorem mem_replaceAll [DecidableEq α] {pat wth s : List α} {c : α}
    (h : c ∈ replaceAll pat wth s) : c ∈ wth ∨ c ∈ s :=
  (mem_intercalate h).imp id fun ⟨_, he, hc⟩ => subset_of_mem_piecesFrom he hc

end Librecompat.Lib
