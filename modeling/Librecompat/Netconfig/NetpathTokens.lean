/-
  The tokenizer of getnetpath.c.

  `pieces w` are the tokens of the string `w`, the empty ones included: it is cut at the colons
  that are not escaped, and each piece is unescaped. `netpathNextToken_spec` says that a call on
  the rest `w` of the buffer leaves the first piece at the place where it was called and moves
  the cursor to the rest behind the colon; what lies behind the rest is not touched.
-/
import Librecompat.Lib.Escape
import Librecompat.Netconfig.Netpath

namespace Librecompat.Netconfig

open Librecompat.Lib

/-- The tokens of `w`, the empty ones included. -/
def pieces (w : List UInt8) : List (List UInt8) :=
  (splitEscaped backslash colon w).map (unescape backslash)

theorem length_pieces_le (w : List UInt8) : (pieces w).length ≤ w.length + 1 := by
  rw [pieces, List.length_map]
  exact length_splitEscaped w

/-! ## The loops -/

theorem getElem?_length_append {α : Type} (a : List α) (c : α) (b : List α) :
    (a ++ c :: b)[a.length]? = some c := by simp

theorem writeAt_length_append {α : Type} (a : List α) (x c : α) (b : List α) :
    writeAt (a ++ x :: b) a.length [c] = some (a ++ c :: b) := by
  have h : writeAt (a ++ [x] ++ b) a.length [c] = some (a ++ [c] ++ b) := writeAt_append rfl
  simpa using h

/-- One character is written where the gap between the two pointers begins. -/
theorem writeAt_gap {α : Type} (pre gap : List α) (x c : α) (rest : List α) :
    ∃ gap', writeAt (pre ++ (gap ++ x :: rest)) pre.length [c] = some ((pre ++ [c]) ++ (gap' ++ rest)) ∧
      gap'.length = gap.length := by
  cases gap with
  | nil => exact ⟨[], by rw [List.nil_append, writeAt_length_append]; simp, rfl⟩
  | cons g gap =>
    refine ⟨gap ++ [x], ?_, by simp⟩
    rw [List.cons_append, writeAt_length_append]
    simp

theorem getElem?_readp {α : Type} (pre gap : List α) (c : α) (rest : List α) :
    (pre ++ (gap ++ c :: rest))[pre.length + gap.length]? = some c := by
  rw [← List.append_assoc, ← List.length_append]
  exact getElem?_length_append _ _ _

theorem getElem?_readp_succ {α : Type} (pre gap : List α) (c d : α) (rest : List α) :
    (pre ++ (gap ++ c :: d :: rest))[pre.length + gap.length + 1]? = some d := by
  have h := getElem?_readp pre (gap ++ [c]) d rest
  simp only [List.append_assoc, List.singleton_append, List.length_append,
    List.length_singleton] at h
  exact h

/-- A pass that takes the character it reads first. -/
theorem unescapeLoop_plain {n : Nat} (pre gap : List UInt8) {c d : UInt8} (rest : List UInt8)
    (hc : c ≠ 0) (hd : c = backslash → d = 0) :
    ∃ gap', gap'.length = gap.length ∧
      unescapeLoop (n + 1) (pre ++ (gap ++ c :: d :: rest)) (pre.length + gap.length) pre.length =
        unescapeLoop n ((pre ++ [c]) ++ (gap' ++ d :: rest)) ((pre ++ [c]).length + gap'.length)
          (pre ++ [c]).length := by
  obtain ⟨gap', hwrite, hlen⟩ := writeAt_gap pre gap c c (d :: rest)
  refine ⟨gap', hlen, ?_⟩
  have hreadp : (if c = backslash then
      ((pre ++ (gap ++ c :: d :: rest))[pre.length + gap.length + 1]?).map fun d =>
        if d ≠ 0 then pre.length + gap.length + 1 else pre.length + gap.length
      else some (pre.length + gap.length)) = some (pre.length + gap.length) := by
    split
    · next h =>
      rw [getElem?_readp_succ, hd h]
      rfl
    · rfl
  have hnext : pre.length + gap.length + 1 = (pre ++ [c]).length + gap'.length := by
    rw [List.length_append, List.length_singleton, hlen]
    omega
  rw [unescapeLoop, getElem?_readp]
  simp only [Option.bind_eq_bind, Option.bind_some, if_neg hc, hreadp, getElem?_readp, hwrite]
  rw [hnext, List.length_append, List.length_singleton]

/-- A pass that takes the character behind a backslash. -/
theorem unescapeLoop_escaped {n : Nat} (pre gap : List UInt8) {d : UInt8} (rest : List UInt8)
    (hd : d ≠ 0) :
    ∃ gap', gap'.length = gap.length + 1 ∧
      unescapeLoop (n + 1) (pre ++ (gap ++ backslash :: d :: rest)) (pre.length + gap.length)
          pre.length =
        unescapeLoop n ((pre ++ [d]) ++ (gap' ++ rest)) ((pre ++ [d]).length + gap'.length)
          (pre ++ [d]).length := by
  obtain ⟨gap', hwrite, hlen⟩ := writeAt_gap pre (gap ++ [backslash]) d d rest
  simp only [List.append_assoc, List.singleton_append, List.length_append,
    List.length_singleton] at hwrite hlen
  refine ⟨gap', hlen, ?_⟩
  have hnext : pre.length + gap.length + 1 + 1 = (pre ++ [d]).length + gap'.length := by
    rw [List.length_append, List.length_singleton, hlen]
    omega
  rw [unescapeLoop, getElem?_readp]
  simp only [Option.bind_eq_bind, Option.bind_some, if_neg (by decide : ¬ backslash = 0),
    if_true, getElem?_readp_succ, Option.map_some, if_pos hd, hwrite]
  rw [hnext, List.length_append, List.length_singleton, List.append_assoc, List.singleton_append]

/-- The pass that reads the NUL. -/
theorem unescapeLoop_end (n : Nat) (pre gap after : List UInt8) :
    ∃ junk, unescapeLoop (n + 1) (pre ++ (gap ++ 0 :: after)) (pre.length + gap.length)
        pre.length = some (pre ++ 0 :: (junk ++ after)) ∧ junk.length = gap.length := by
  obtain ⟨junk, hwrite, hlen⟩ := writeAt_gap pre gap (0 : UInt8) 0 after
  refine ⟨junk, ?_, hlen⟩
  rw [unescapeLoop, getElem?_readp]
  simp only [Option.bind_eq_bind, Option.bind_some, if_true, hwrite]
  simp

/-- The loop of `netpath_unescape`: `w` is what it still has to read, and the gap what it has
    read and not overwritten. -/
theorem unescapeLoop_spec {w : List UInt8} (hw : 0 ∉ w) (after : List UInt8) :
    ∀ {n : Nat} (pre gap : List UInt8), w.length < n →
      ∃ junk, unescapeLoop n (pre ++ (gap ++ (w ++ 0 :: after))) (pre.length + gap.length)
          pre.length = some (pre ++ (unescape backslash w ++ 0 :: (junk ++ after))) ∧
        (unescape backslash w).length + junk.length = gap.length + w.length := by
  fun_induction unescape backslash w with
  | case1 =>
    intro n pre gap hn
    obtain ⟨n, rfl⟩ := Nat.exists_eq_succ_of_ne_zero (Nat.ne_zero_of_lt hn)
    obtain ⟨junk, hend, hlen⟩ := unescapeLoop_end n pre gap after
    exact ⟨junk, hend, by simp [hlen]⟩
  | case2 c =>
    intro n pre gap hn
    obtain ⟨n, rfl⟩ := Nat.exists_eq_succ_of_ne_zero (Nat.ne_zero_of_lt hn)
    have hc : c ≠ 0 := fun h => hw (by simp [h])
    obtain ⟨gap', hlen, hstep⟩ := unescapeLoop_plain (n := n) pre gap after hc fun _ => rfl
    rw [List.length_singleton] at hn
    obtain ⟨k, rfl⟩ := Nat.exists_eq_succ_of_ne_zero (show n ≠ 0 by omega)
    obtain ⟨junk, hend, hjunk⟩ := unescapeLoop_end k (pre ++ [c]) gap' after
    refine ⟨junk, ?_, ?_⟩
    · rw [List.singleton_append, hstep, hend]
      simp
    · simp only [List.length_singleton]
      omega
  | case3 d cs ih =>
    intro n pre gap hn
    obtain ⟨n, rfl⟩ := Nat.exists_eq_succ_of_ne_zero (Nat.ne_zero_of_lt hn)
    have hd : d ≠ 0 := fun h => hw (by simp [h])
    obtain ⟨gap', hlen, hstep⟩ := unescapeLoop_escaped (n := n) pre gap (cs ++ 0 :: after) hd
    simp only [List.length_cons] at hn
    obtain ⟨junk, hrest, hjunk⟩ := ih (fun h => hw (by simp [h])) (pre ++ [d]) gap'
      (show cs.length < n by omega)
    refine ⟨junk, ?_, ?_⟩
    · rw [List.cons_append, List.cons_append, hstep, hrest]
      simp
    · simp only [List.length_cons]
      omega
  | case4 c d cs hc ih =>
    intro n pre gap hn
    obtain ⟨n, rfl⟩ := Nat.exists_eq_succ_of_ne_zero (Nat.ne_zero_of_lt hn)
    have hc0 : c ≠ 0 := fun h => hw (by simp [h])
    obtain ⟨gap', hlen, hstep⟩ := unescapeLoop_plain (n := n) (d := d) pre gap (cs ++ 0 :: after)
      hc0 fun h => absurd h hc
    simp only [List.length_cons] at hn
    obtain ⟨junk, hrest, hjunk⟩ := ih (fun h => hw (by simp_all)) (pre ++ [c]) gap'
      (show (d :: cs).length < n by simp only [List.length_cons]; omega)
    refine ⟨junk, ?_, ?_⟩
    · rw [List.cons_append, List.cons_append, hstep]
      rw [List.cons_append] at hrest
      rw [hrest]
      simp
    · simp only [List.length_cons] at hjunk ⊢
      omega

/-- The scan stops at the first colon that is not escaped, or at the NUL. -/
theorem scanToken_spec {w : List UInt8} (hw : 0 ∉ w) (t : List UInt8) :
    (splitEscaped backslash colon w = [w] ∧
      scanToken colon false (w ++ 0 :: t) = some (w.length, false)) ∨
    ∃ p w', w = p ++ colon :: w' ∧
      splitEscaped backslash colon w = p :: splitEscaped backslash colon w' ∧
      scanToken colon false (w ++ 0 :: t) = some (p.length, true) := by
  have hzero : ∀ (escaped : Bool) (s : List UInt8),
      scanToken colon escaped (0 :: s) = some (0, false) := fun _ _ => rfl
  fun_induction splitEscaped backslash colon w with
  | case1 => exact .inl ⟨rfl, rfl⟩
  | case2 c h =>
    refine .inr ⟨[], [], by rw [h.1]; rfl, rfl, ?_⟩
    rw [h.1]
    rfl
  | case3 c h =>
    have hc : c ≠ 0 := fun h0 => hw (by simp [h0])
    refine .inl ⟨rfl, ?_⟩
    rw [List.singleton_append, scanToken, if_neg hc, hzero, hzero]
    by_cases he : c = backslash
    · simp [he]
    · have hd : c ≠ colon := fun hd => h ⟨hd, he⟩
      simp [he, hd]
  | case4 d cs ih =>
    have hd : d ≠ 0 := fun h0 => hw (by simp [h0])
    have hstep : scanToken colon false (backslash :: d :: (cs ++ 0 :: t)) =
        (scanToken colon false (cs ++ 0 :: t)).map fun r => (r.1 + 2, r.2) := by
      rw [scanToken, if_neg (by decide), if_pos (by decide), scanToken, if_neg hd]
      simp only [Bool.not_true, Bool.false_and, Bool.false_eq_true, if_false, Option.map_map]
      rfl
    rw [List.cons_append, List.cons_append, hstep]
    rcases ih (fun h => hw (by simp [h])) with ⟨hsplit, hscan⟩ | ⟨p, w', hp, hsplit, hscan⟩ <;>
      rw [hsplit, hscan]
    · exact .inl ⟨rfl, rfl⟩
    · exact .inr ⟨backslash :: d :: p, w', by rw [hp]; rfl, rfl, rfl⟩
  | case5 d cs h ih =>
    exact .inr ⟨[], d :: cs, rfl, rfl, rfl⟩
  | case6 c d cs h h' ih =>
    have hc : c ≠ 0 := fun h0 => hw (by simp [h0])
    have hstep : scanToken colon false (c :: (d :: cs ++ 0 :: t)) =
        (scanToken colon false (d :: cs ++ 0 :: t)).map fun r => (r.1 + 1, r.2) := by
      rw [scanToken, if_neg hc]
      simp [h, h']
    rw [List.cons_append, hstep]
    rcases ih (fun h => hw (by simp_all)) with ⟨hsplit, hscan⟩ | ⟨p, w', hp, hsplit, hscan⟩ <;>
      rw [hsplit, hscan]
    · exact .inl ⟨rfl, rfl⟩
    · exact .inr ⟨c :: p, w', by rw [hp]; rfl, rfl, rfl⟩

/-! ## One call -/

theorem netpathUnescape_spec {w : List UInt8} (hw : 0 ∉ w) (pre after : List UInt8) :
    ∃ junk, netpathUnescape (pre ++ (w ++ 0 :: after)) pre.length =
        some (pre ++ (unescape backslash w ++ 0 :: (junk ++ after))) ∧
      (unescape backslash w).length + junk.length = w.length := by
  obtain ⟨junk, hloop, hlen⟩ := unescapeLoop_spec hw after
    (n := (pre ++ (w ++ 0 :: after)).length + 1) pre []
    (by simp only [List.length_append, List.length_cons]; omega)
  refine ⟨junk, hloop, ?_⟩
  rw [List.length_nil] at hlen
  omega

theorem unescape_nulFree {w : List UInt8} (hw : 0 ∉ w) : 0 ∉ unescape backslash w :=
  fun h => hw (mem_unescape h)

/-- A call on the rest `w` of the buffer: the string at the old cursor is the first token, and
    the rest behind the new one is what is behind the colon. -/
theorem netpathNextToken_spec {w : List UInt8} (hw : 0 ∉ w) (pre t : List UInt8) :
    ∃ bs' cursor, netpathNextToken (pre ++ (w ++ 0 :: t)) pre.length colon = some (bs', cursor) ∧
      bs'.length = (pre ++ (w ++ 0 :: t)).length ∧
      ((cursor = none ∧ pieces w = [cstr (bs'.drop pre.length)]) ∨
       ∃ pre' w', cursor = some pre'.length ∧ bs' = pre' ++ (w' ++ 0 :: t) ∧ 0 ∉ w' ∧
         w'.length < w.length ∧ pieces w = cstr (bs'.drop pre.length) :: pieces w') := by
  unfold netpathNextToken
  cases w with
  | nil =>
    refine ⟨_, none, ?_, rfl, .inl ⟨rfl, ?_⟩⟩
    · rw [List.nil_append, getElem?_length_append]
      rfl
    · rw [List.drop_left]
      rfl
  | cons c w =>
    have hc : c ≠ 0 := fun h0 => hw (by simp [h0])
    rw [List.cons_append, getElem?_length_append, ← List.cons_append, List.drop_left]
    simp only [Option.bind_eq_bind, Option.bind_some, if_neg hc]
    rcases scanToken_spec hw t with ⟨hsplit, hscan⟩ | ⟨p, w', hp, hsplit, hscan⟩
    · obtain ⟨junk, hunescape, hlen⟩ := netpathUnescape_spec hw pre t
      simp only [hscan, Option.bind_some, hunescape]
      refine ⟨_, none, rfl, ?_, .inl ⟨rfl, ?_⟩⟩
      · simp only [List.length_append, List.length_cons] at hlen ⊢
        omega
      · rw [List.drop_left, cstr_of_append (unescape_nulFree hw), pieces, hsplit]
        rfl
    · have hpw : 0 ∉ p := fun h => hw (by rw [hp]; simp [h])
      have hw' : 0 ∉ w' := fun h => hw (by rw [hp]; simp [h])
      have hcut : writeAt (pre ++ (c :: w ++ 0 :: t)) (pre.length + p.length) [0] =
          some (pre ++ (p ++ 0 :: (w' ++ 0 :: t))) := by
        have h := writeAt_length_append (pre ++ p) colon 0 (w' ++ 0 :: t)
        rw [hp]
        simpa using h
      obtain ⟨junk, hunescape, hlen⟩ := netpathUnescape_spec hpw pre (w' ++ 0 :: t)
      simp only [hscan, Option.bind_some, hcut, hunescape]
      refine ⟨_, _, rfl, ?_, .inr ⟨pre ++ (unescape backslash p ++ 0 :: junk), w', ?_, ?_, hw',
        ?_, ?_⟩⟩
      · rw [hp]
        simp only [List.length_append, List.length_cons] at hlen ⊢
        omega
      · simp only [List.length_append, List.length_cons]
        congr 1
        omega
      · simp
      · rw [hp]
        simp only [List.length_append, List.length_cons]
        omega
      · rw [List.drop_left, cstr_of_append (unescape_nulFree hpw), pieces, hsplit]
        rfl

end Librecompat.Netconfig
