/-
  Lists of tokens in one string: a separator between them, and an escape character before a
  character that is meant literally.

  `splitEscaped` cuts a string at every separator that is not escaped, `unescape` removes the
  escape characters of a piece; a lone escape character at the very end is kept. `joinEscaped`
  escapes tokens and puts separators between them, and `unescape_splitEscaped_join` says that
  the tokens come back.
-/
import Mathlib.Data.List.Basic

namespace Librecompat.Lib

variable {α : Type}

/-- `xs` in front of the first piece. -/
def consPiece (xs : List α) : List (List α) → List (List α)
  | [] => [xs]
  | p :: ps => (xs ++ p) :: ps

theorem consPiece_ne_nil (xs : List α) (ps : List (List α)) : consPiece xs ps ≠ [] := by
  cases ps <;> simp [consPiece]

theorem consPiece_nil {ps : List (List α)} (h : ps ≠ []) : consPiece [] ps = ps := by
  cases ps with
  | nil => exact absurd rfl h
  | cons p ps => rfl

theorem consPiece_append (xs ys : List α) (ps : List (List α)) :
    consPiece (xs ++ ys) ps = consPiece xs (consPiece ys ps) := by
  cases ps <;> simp [consPiece]

theorem length_consPiece (xs : List α) {ps : List (List α)} (h : ps ≠ []) :
    (consPiece xs ps).length = ps.length := by
  cases ps with
  | nil => exact absurd rfl h
  | cons p ps => rfl

variable [DecidableEq α]

/-- The pieces between the separators that are not escaped. -/
def splitEscaped (esc sep : α) : List α → List (List α)
  | [] => [[]]
  | [c] => if c = sep ∧ c ≠ esc then [[], []] else [[c]]
  | c :: d :: cs =>
    if c = esc then consPiece [c, d] (splitEscaped esc sep cs)
    else if c = sep then [] :: splitEscaped esc sep (d :: cs)
    else consPiece [c] (splitEscaped esc sep (d :: cs))

/-- An escape character is removed, and the next character is taken literally. -/
def unescape (esc : α) : List α → List α
  | [] => []
  | [c] => [c]
  | c :: d :: cs => if c = esc then d :: unescape esc cs else c :: unescape esc (d :: cs)

/-- An escape character before each separator and each escape character. -/
def escape (esc sep : α) : List α → List α
  | [] => []
  | c :: cs => if c = esc ∨ c = sep then esc :: c :: escape esc sep cs else c :: escape esc sep cs

def joinEscaped (esc sep : α) (ts : List (List α)) : List α :=
  [sep].intercalate (ts.map (escape esc sep))

/-! ## Pieces -/

variable {esc sep : α}

theorem splitEscaped_ne_nil (w : List α) : splitEscaped esc sep w ≠ [] := by
  fun_induction splitEscaped esc sep w <;> simp [consPiece_ne_nil]

theorem length_splitEscaped (w : List α) : (splitEscaped esc sep w).length ≤ w.length + 1 := by
  fun_induction splitEscaped esc sep w with
  | case1 => simp
  | case2 c h => simp
  | case3 c h => simp
  | case4 d cs ih =>
    rw [length_consPiece _ (splitEscaped_ne_nil cs)]
    simp only [List.length_cons]
    omega
  | case5 d cs h ih =>
    simp only [List.length_cons] at ih ⊢
    omega
  | case6 c d cs h h' ih =>
    rw [length_consPiece _ (splitEscaped_ne_nil (d :: cs))]
    simp only [List.length_cons] at ih ⊢
    omega

theorem mem_unescape {w : List α} {a : α} (h : a ∈ unescape esc w) : a ∈ w := by
  fun_induction unescape esc w with
  | case1 => exact h
  | case2 c => exact h
  | case3 d cs ih =>
    rcases List.mem_cons.mp h with rfl | h
    · simp
    · exact List.mem_cons_of_mem _ (List.mem_cons_of_mem _ (ih h))
  | case4 c d cs hc ih =>
    rcases List.mem_cons.mp h with rfl | h
    · simp
    · exact List.mem_cons_of_mem _ (ih h)

/-! ## The round trip -/

theorem unescape_cons_ne {c : α} (hc : c ≠ esc) (w : List α) :
    unescape esc (c :: w) = c :: unescape esc w := by
  cases w with
  | nil => rfl
  | cons d w => rw [unescape, if_neg hc]

theorem unescape_escape (t : List α) : unescape esc (escape esc sep t) = t := by
  induction t with
  | nil => rfl
  | cons c t ih =>
    unfold escape
    split
    · rw [unescape, if_pos rfl, ih]
    · next h => rw [unescape_cons_ne (not_or.mp h).1, ih]

theorem splitEscaped_cons_ne {c : α} (he : c ≠ esc) (hs : c ≠ sep) (w : List α) :
    splitEscaped esc sep (c :: w) = consPiece [c] (splitEscaped esc sep w) := by
  cases w with
  | nil => simp [splitEscaped, hs, consPiece]
  | cons d w => rw [splitEscaped, if_neg he, if_neg hs]

theorem splitEscaped_sep (hne : sep ≠ esc) (w : List α) :
    splitEscaped esc sep (sep :: w) = [] :: splitEscaped esc sep w := by
  cases w with
  | nil => simp [splitEscaped, hne]
  | cons d w => rw [splitEscaped, if_neg hne, if_pos rfl]

/-- An escaped token is one piece. -/
theorem splitEscaped_escape (t w : List α) :
    splitEscaped esc sep (escape esc sep t ++ w) =
      consPiece (escape esc sep t) (splitEscaped esc sep w) := by
  induction t with
  | nil => exact (consPiece_nil (splitEscaped_ne_nil w)).symm
  | cons c t ih =>
    unfold escape
    split
    · rw [List.cons_append, List.cons_append, splitEscaped, if_pos rfl, ih, ← consPiece_append]
      rfl
    · next h =>
      rw [List.cons_append, splitEscaped_cons_ne (not_or.mp h).1 (not_or.mp h).2, ih,
        ← consPiece_append]
      rfl

/-- The tokens come back. -/
theorem unescape_splitEscaped_join (hne : sep ≠ esc) {ts : List (List α)} (hts : ts ≠ []) :
    (splitEscaped esc sep (joinEscaped esc sep ts)).map (unescape esc) = ts := by
  unfold joinEscaped
  induction ts with
  | nil => exact absurd rfl hts
  | cons t ts ih =>
    cases ts with
    | nil =>
      have hsplit : splitEscaped esc sep (escape esc sep t ++ []) = _ := splitEscaped_escape t []
      rw [List.append_nil] at hsplit
      rw [List.map_singleton, List.intercalate_singleton, hsplit]
      simp [splitEscaped, consPiece, unescape_escape]
    | cons t' ts =>
      have hih := ih (List.cons_ne_nil t' ts)
      rw [List.map_cons, List.map_cons, List.intercalate_cons_cons, ← List.map_cons,
        List.append_assoc, List.singleton_append, splitEscaped_escape, splitEscaped_sep hne]
      rw [consPiece, List.append_nil, List.map_cons, unescape_escape, hih]

end Librecompat.Lib
