/-
  Lists of words stored one after the other, each closed by a terminator.

  `terminate t l` is the stored form of the list `l` of words, `entries t bs` reads the words
  back. The two are inverse on words free of the terminator (`entries_terminate`) and on byte
  strings that are empty or end in the terminator (`exists_terminate`). `starts a l` is the
  list of the addresses of the first bytes of the words when the stored form lies at address
  `a`; `mem_starts` and `idxOf_starts` cut the list at a word given by its address.
-/
import Mathlib.Data.List.Basic

namespace Librecompat.Lib

variable {α : Type} (t : α)

/-! ## The stored form -/

/-- The words of `l` one after the other, each followed by `t`. -/
def terminate (l : List (List α)) : List α := l.flatMap (· ++ [t])

@[simp] theorem terminate_nil : terminate t [] = [] := rfl

@[simp] theorem terminate_cons (e : List α) (l : List (List α)) :
    terminate t (e :: l) = e ++ t :: terminate t l := by
  simp [terminate]

@[simp] theorem terminate_append (l l' : List (List α)) :
    terminate t (l ++ l') = terminate t l ++ terminate t l' := by
  simp [terminate]

theorem terminate_eq_nil {l : List (List α)} : terminate t l = [] ↔ l = [] := by
  cases l <;> simp

theorem length_le_terminate (l : List (List α)) : l.length ≤ (terminate t l).length := by
  induction l with
  | nil => exact Nat.le_refl 0
  | cons e l ih =>
    rw [terminate_cons, List.length_append, List.length_cons, List.length_cons]
    omega

theorem getLast?_terminate {l : List (List α)} (hl : l ≠ []) :
    (terminate t l).getLast? = some t := by
  obtain ⟨l', e, rfl⟩ := List.eq_nil_or_concat l |>.resolve_left hl
  simp

/-! ## Reading the words back -/

section Entries

variable [DecidableEq α]

/-- The words of a stored list: the pieces between the terminators, without what follows the
    last one. -/
def entries (bs : List α) : List (List α) := (bs.splitOn t).dropLast

/-- The pieces between the terminators are the words and the rest. -/
theorem splitOn_terminate_append {l : List (List α)} (hl : ∀ e ∈ l, t ∉ e) {r : List α}
    (hr : t ∉ r) : (terminate t l ++ r).splitOn t = l ++ [r] := by
  induction l with
  | nil => exact List.splitOn_eq_singleton hr
  | cons e l ih =>
    rw [List.forall_mem_cons] at hl
    rw [terminate_cons, List.append_assoc, List.cons_append,
      List.splitOn_append_cons_self_of_not_mem hl.1, ih hl.2, List.cons_append]

/-- Reading back what was stored. -/
theorem entries_terminate {l : List (List α)} (hl : ∀ e ∈ l, t ∉ e) :
    entries t (terminate t l) = l := by
  have hsplit := splitOn_terminate_append t hl List.not_mem_nil
  rw [List.append_nil] at hsplit
  rw [entries, hsplit, List.dropLast_concat]

/-- Every list is a stored list of words followed by a rest, all free of the terminator. -/
theorem exists_terminate_append (bs : List α) :
    ∃ l r, (∀ e ∈ l, t ∉ e) ∧ t ∉ r ∧ bs = terminate t l ++ r := by
  induction bs with
  | nil => exact ⟨[], [], by simp⟩
  | cons b bs ih =>
    obtain ⟨l, r, hl, hr, rfl⟩ := ih
    by_cases hb : b = t
    · exact ⟨[] :: l, r, by simpa using hl, hr, by simp [hb]⟩
    · -- `b` goes in front of the first word, which is `r` when there is none
      cases l with
      | nil => exact ⟨[], b :: r, by simp, by simp [Ne.symm hb, hr], by simp⟩
      | cons e l =>
        refine ⟨(b :: e) :: l, r, ?_, hr, by simp⟩
        simp only [List.mem_cons, forall_eq_or_imp] at hl ⊢
        exact ⟨by simp [Ne.symm hb, hl.1], hl.2⟩

/-- A list that ends in the terminator stores a list of words. -/
theorem exists_terminate {bs : List α} (h : bs.getLast? = some t) :
    ∃ l, l ≠ [] ∧ (∀ e ∈ l, t ∉ e) ∧ bs = terminate t l := by
  obtain ⟨l, r, hl, hr, rfl⟩ := exists_terminate_append t bs
  rcases List.eq_nil_or_concat r with rfl | ⟨r', c, rfl⟩
  · refine ⟨l, ?_, hl, by simp⟩
    rintro rfl
    simp at h
  · have hc : c = t := by simpa using h
    simp [hc] at hr

end Entries

/-! ## Where the words stand -/

/-- The addresses of the first bytes of the words of `l`, stored at address `a`. -/
def starts : Nat → List (List α) → List Nat
  | _, [] => []
  | a, e :: l => a :: starts (a + e.length + 1) l

@[simp] theorem starts_nil (a : Nat) : starts a ([] : List (List α)) = [] := rfl

@[simp] theorem starts_cons (a : Nat) (e : List α) (l : List (List α)) :
    starts a (e :: l) = a :: starts (a + e.length + 1) l := rfl

@[simp] theorem length_starts (a : Nat) (l : List (List α)) : (starts a l).length = l.length := by
  induction l generalizing a with
  | nil => rfl
  | cons e l ih => simp [ih]

theorem starts_append (a : Nat) (l l' : List (List α)) :
    starts a (l ++ l') = starts a l ++ starts (a + (terminate t l).length) l' := by
  induction l generalizing a with
  | nil => simp
  | cons e l ih =>
    simp only [List.cons_append, starts_cons, terminate_cons, List.length_append,
      List.length_cons, ih]
    congr 3
    omega

theorem lt_of_mem_starts {a p : Nat} {l : List (List α)} (h : p ∈ starts a l) :
    a ≤ p ∧ p < a + (terminate t l).length := by
  induction l generalizing a with
  | nil => simp at h
  | cons e l ih =>
    rw [terminate_cons, List.length_append, List.length_cons]
    rcases List.mem_cons.mp h with rfl | h
    · omega
    · have := ih h
      omega

/-- A word's address cuts the list at the word. -/
theorem mem_starts {a p : Nat} {l : List (List α)} (h : p ∈ starts a l) :
    ∃ pre e post, l = pre ++ e :: post ∧ p = a + (terminate t pre).length := by
  induction l generalizing a with
  | nil => simp at h
  | cons e l ih =>
    rcases List.mem_cons.mp h with rfl | h
    · exact ⟨[], e, l, rfl, rfl⟩
    · obtain ⟨pre, e', post, rfl, rfl⟩ := ih h
      refine ⟨e :: pre, e', post, rfl, ?_⟩
      simp only [terminate_cons, List.length_append, List.length_cons]
      omega

/-- Every byte of the stored form is a byte of one word or its terminator. -/
theorem exists_containing {l : List (List α)} {off : Nat} (h : off < (terminate t l).length) :
    ∃ pre e post j, l = pre ++ e :: post ∧ off = (terminate t pre).length + j ∧ j ≤ e.length := by
  induction l generalizing off with
  | nil => exact absurd h (Nat.not_lt_zero off)
  | cons e l ih =>
    rw [terminate_cons, List.length_append, List.length_cons] at h
    by_cases hoff : off ≤ e.length
    · exact ⟨[], e, l, off, rfl, by simp, hoff⟩
    · obtain ⟨pre, e', post, j, rfl, hj, hle⟩ := @ih (off - (e.length + 1)) (by omega)
      refine ⟨e :: pre, e', post, j, rfl, ?_, hle⟩
      rw [terminate_cons, List.length_append, List.length_cons]
      omega

theorem idxOf_starts (a : Nat) (pre : List (List α)) (e : List α) (post : List (List α)) :
    (starts a (pre ++ e :: post)).idxOf (a + (terminate t pre).length) = pre.length := by
  rw [starts_append t, starts_cons, List.idxOf_append_of_notMem, List.idxOf_cons_self]
  · simp
  · intro h
    have := lt_of_mem_starts t h
    omega

end Librecompat.Lib
