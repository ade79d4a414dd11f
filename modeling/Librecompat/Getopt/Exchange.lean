/-
  `exchange` rotates two adjacent blocks of `argv`.

  Each pass of its loop swaps the shorter block with the far end of the longer one, which puts the
  shorter one in place; what is left is again two adjacent blocks (`exchange_loop`).
-/
import Librecompat.Getopt.Model

namespace Librecompat.Getopt

open Librecompat.Lib

variable {pre xs xs₁ xs₂ ys ys₁ ys₂ post : List (Option CString)}

/-- The bottom block is the short one: it goes to the end of the top block. -/
theorem exchangeBody_bottom (hpos : 0 < xs.length) (hlen : xs.length = ys₂.length)
    (hys : 0 < ys₁.length) :
    exchangeBody { argv := pre ++ (xs ++ (ys₁ ++ ys₂ ++ post)), bottom := pre.length,
                   middle := pre.length + xs.length,
                   top := pre.length + xs.length + (ys₁.length + ys₂.length) } =
      .inl { argv := pre ++ (ys₂ ++ (ys₁ ++ (xs ++ post))), bottom := pre.length,
             middle := pre.length + ys₂.length,
             top := pre.length + ys₂.length + ys₁.length } := by
  unfold exchangeBody
  dsimp only
  rw [if_pos (by omega), if_pos (by omega), List.append_assoc,
    show pre.length + xs.length - pre.length = xs.length by omega,
    show pre.length + xs.length + (ys₁.length + ys₂.length) - xs.length =
      pre.length + (xs.length + ys₁.length) by omega, swapRange_blocks post pre ys₁ hlen]
  dsimp only
  rw [hlen, Nat.add_assoc]

/-- The top block is the short one: it goes to the start of the bottom block. -/
theorem exchangeBody_top (hpos : 0 < ys.length) (hlen : xs₁.length = ys.length) :
    exchangeBody { argv := pre ++ (xs₁ ++ xs₂ ++ (ys ++ post)), bottom := pre.length,
                   middle := pre.length + (xs₁.length + xs₂.length),
                   top := pre.length + (xs₁.length + xs₂.length) + ys.length } =
      .inl { argv := pre ++ ys ++ (xs₂ ++ (xs₁ ++ post)), bottom := (pre ++ ys).length,
             middle := (pre ++ ys).length + xs₂.length,
             top := (pre ++ ys).length + xs₂.length + xs₁.length } := by
  unfold exchangeBody
  dsimp only
  rw [if_pos (by omega), if_neg (by omega), List.append_assoc,
    show pre.length + (xs₁.length + xs₂.length) + ys.length -
      (pre.length + (xs₁.length + xs₂.length)) = xs₁.length by omega,
    swapRange_blocks post pre xs₂ hlen, List.append_assoc, List.length_append, ← hlen,
    show pre.length + xs₁.length + xs₂.length = pre.length + (xs₁.length + xs₂.length) by omega]

/-- The induction is on the passes; every pass leaves a smaller part to rotate. -/
theorem exchange_loop : ∀ (n : Nat) (pre xs ys post : List (Option CString)),
    xs.length + ys.length < n →
    loop exchangeBody n { argv := pre ++ (xs ++ (ys ++ post)), bottom := pre.length,
                          middle := pre.length + xs.length,
                          top := pre.length + xs.length + ys.length } =
      some (some (pre ++ (ys ++ (xs ++ post)))) := by
  intro n
  induction n with
  | zero =>
    intro pre xs ys post h
    omega
  | succ n ih =>
    intro pre xs ys post h
    by_cases hempty : xs = [] ∨ ys = []
    · refine loop_succ_inr ?_
      unfold exchangeBody
      dsimp only
      rw [if_neg (by rcases hempty with rfl | rfl <;> simp)]
      rcases hempty with rfl | rfl <;> simp
    · obtain ⟨hx, hy⟩ := not_or.mp hempty
      have hxpos := List.length_pos_iff.mpr hx
      have hypos := List.length_pos_iff.mpr hy
      by_cases hshort : xs.length < ys.length
      · obtain ⟨ys₁, ys₂, rfl, hlen⟩ : ∃ ys₁ ys₂, ys = ys₁ ++ ys₂ ∧ xs.length = ys₂.length :=
          ⟨ys.take (ys.length - xs.length), ys.drop (ys.length - xs.length),
            (List.take_append_drop _ _).symm, by rw [List.length_drop]; omega⟩
        have hrest := ih pre ys₂ ys₁ (xs ++ post) (by rw [List.length_append] at h; omega)
        rw [List.length_append] at hshort ⊢
        rw [loop_succ_inl (exchangeBody_bottom hxpos hlen (by omega)), hrest, List.append_assoc]
      · obtain ⟨xs₁, xs₂, rfl, hlen⟩ : ∃ xs₁ xs₂, xs = xs₁ ++ xs₂ ∧ xs₁.length = ys.length :=
          ⟨xs.take ys.length, xs.drop ys.length, (List.take_append_drop _ _).symm,
            by rw [List.length_take]; omega⟩
        have hrest := ih (pre ++ ys) xs₂ xs₁ post (by rw [List.length_append] at h; omega)
        rw [List.length_append]
        rw [loop_succ_inl (exchangeBody_top hypos hlen), hrest, List.append_assoc,
          List.append_assoc]

/-- `exchange` on the blocks `xs` of skipped non-options and `ys` of options. -/
theorem exchange_eq {w : World} {pre xs ys post : List (Option CString)}
    (hargv : w.argv = pre ++ (xs ++ (ys ++ post))) (hfirst : w.data.firstNonopt = pre.length)
    (hlast : w.data.lastNonopt = pre.length + xs.length)
    (hoptind : w.data.optind = pre.length + xs.length + ys.length) :
    exchange w = some { w with
      argv := pre ++ (ys ++ (xs ++ post))
      data := { w.data with firstNonopt := pre.length + ys.length,
                            lastNonopt := w.data.optind } } := by
  unfold exchange
  dsimp only
  rw [hargv, hfirst, hlast, hoptind, exchange_loop _ _ _ _ _ (by omega)]
  simp

/-- The pieces of a list between three indices. -/
theorem pieces_between {argv : List (Option CString)} {bottom middle top : Nat}
    (hbottom : bottom ≤ middle) (hmiddle : middle ≤ top) (htop : top ≤ argv.length) :
    argv = argv.take bottom ++ (argv.extract bottom middle ++
        (argv.extract middle top ++ argv.drop top)) ∧
      (argv.take bottom).length = bottom ∧ (argv.extract bottom middle).length = middle - bottom ∧
      (argv.extract middle top).length = top - middle := by
  have hrest : argv.extract middle top ++ argv.drop top = argv.drop middle := by
    have hdrop : argv.drop top = (argv.drop middle).drop (top - middle) := by
      rw [List.drop_drop, Nat.add_sub_cancel' hmiddle]
    rw [hdrop, List.extract_eq_take_drop, List.take_append_drop]
  have hback : argv.extract bottom middle ++ argv.drop middle = argv.drop bottom := by
    have hdrop : argv.drop middle = (argv.drop bottom).drop (middle - bottom) := by
      rw [List.drop_drop, Nat.add_sub_cancel' hbottom]
    rw [hdrop, List.extract_eq_take_drop, List.take_append_drop]
  refine ⟨by rw [hrest, hback, List.take_append_drop], ?_, ?_, ?_⟩
  · exact List.length_take_of_le (by omega)
  · simp
    omega
  · simp
    omega

/-- Wherever the three indices are, the two blocks between them change places. -/
theorem exchange_rotates {w : World} (hfirst : w.data.firstNonopt ≤ w.data.lastNonopt)
    (hlast : w.data.lastNonopt ≤ w.data.optind) (hoptind : w.data.optind ≤ w.argv.length) :
    ∃ argv first,
      exchange w = some { w with
        argv := argv
        data := { w.data with firstNonopt := first, lastNonopt := w.data.optind } } ∧
      argv = w.argv.take w.data.firstNonopt ++
        (w.argv.extract w.data.lastNonopt w.data.optind ++
          (w.argv.extract w.data.firstNonopt w.data.lastNonopt ++ w.argv.drop w.data.optind)) ∧
      first = w.data.firstNonopt + (w.data.optind - w.data.lastNonopt) ∧
      argv.extract first w.data.optind =
        w.argv.extract w.data.firstNonopt w.data.lastNonopt := by
  obtain ⟨hsplit, hpre, hxs, hys⟩ := pieces_between hfirst hlast hoptind
  have hexchange := exchange_eq hsplit hpre.symm (by omega) (by omega)
  rw [hpre, hys] at hexchange
  refine ⟨_, _, hexchange, rfl, rfl, ?_⟩
  rw [List.extract_eq_take_drop, ← List.append_assoc, List.drop_left' (by simp [hpre, hys]),
    List.take_left' (by omega)]

/-- `g h i -j k`, when `-j` has just been scanned. -/
def twoSkipped : World :=
  ⟨[some ⟨[103], by decide⟩, some ⟨[104], by decide⟩, some ⟨[105], by decide⟩,
      some ⟨[45, 106], by decide⟩, some ⟨[107], by decide⟩, none],
    ⟨4, true, 63, none, true, none, .permute, 1, 3⟩, none, none, none⟩

theorem exchange_rotates_two :
    ∃ argv, exchange twoSkipped = some { twoSkipped with
        argv := argv
        data := { twoSkipped.data with firstNonopt := 2, lastNonopt := 4 } } ∧
      argv = [some ⟨[103], by decide⟩, some ⟨[45, 106], by decide⟩, some ⟨[104], by decide⟩,
        some ⟨[105], by decide⟩, some ⟨[107], by decide⟩, none] := by
  obtain ⟨argv, first, hexchange, hargv, rfl, _⟩ :=
    exchange_rotates (w := twoSkipped) (by decide) (by decide) (by decide)
  exact ⟨argv, hexchange, hargv.trans (by decide)⟩

end Librecompat.Getopt
