/-
  The number functions of the C library in base ten: `strtol`, `strtoul`, `atol`, and the decimal
  digits that `printf` writes.

  All of them read a `Numeral`: blanks, a sign and digits at the start of a string. Its value is
  an integer of any size; `strtol` saturates it at the ends of `long`, `strtoul` saturates its
  size and then negates in `unsigned long`. The second component of a result is how far `*endptr`
  is from the start. `char`s above 127 are no blanks.
-/
import Librecompat.Darwin
import Mathlib.Data.Nat.Digits.Defs
import Mathlib.Data.Nat.Digits.Lemmas

namespace Librecompat

/-- `isspace`. -/
def isSpace (c : UInt8) : Bool := c = 32 || (9 ≤ c && c ≤ 13)

/-- `isdigit`. -/
def isDigit (c : UInt8) : Bool := 48 ≤ c && c ≤ 57

/-- The number that starts a string, and where it ends. -/
structure Numeral where
  negative : Bool
  digits : List UInt8
  stop : Nat
  deriving DecidableEq

/-- Is there a minus sign, and what follows the sign? -/
def sign : List UInt8 → Bool × List UInt8
  | [] => (false, [])
  | c :: cs => if c = 45 then (true, cs) else if c = 43 then (false, cs) else (false, c :: cs)

/-- The number that the functions read, `none` when there is none. -/
def numeral (s : List UInt8) : Option Numeral :=
  let (negative, rest) := sign (s.dropWhile isSpace)
  let digits := rest.takeWhile isDigit
  if digits = [] then none
  else some { negative := negative, digits := digits,
              stop := s.length - rest.length + digits.length }

/-- The value of a string of digits. -/
def digitsValue (ds : List UInt8) : Nat := ds.foldl (fun acc c => acc * 10 + (c.toNat - 48)) 0

def Numeral.size (n : Numeral) : Nat := digitsValue n.digits

/-- The integer that it denotes. -/
def Numeral.val (n : Numeral) : Int := if n.negative then -n.size else n.size

def ERANGE : Errno := 34
def LONG_MIN : Int := -0x8000000000000000
def LONG_MAX : Int := 0x7fffffffffffffff
def ULONG_MAX : Nat := 2 ^ 64 - 1

/-- `strtol (s, &end, 10)`. -/
def strtol (s : List UInt8) : Int × Nat :=
  match numeral s with
  | none => (0, 0)
  | some n => (max LONG_MIN (min LONG_MAX n.val), n.stop)

/-- `errno` behind `strtol`, when it was `0` before. -/
def strtolErrno (s : List UInt8) : Errno :=
  match numeral s with
  | none => 0
  | some n => if n.val < LONG_MIN ∨ LONG_MAX < n.val then ERANGE else 0

/-- `strtoul (s, &end, 10)`. -/
def strtoul (s : List UInt8) : Nat × Nat :=
  match numeral s with
  | none => (0, 0)
  | some n =>
    (if n.size > ULONG_MAX then ULONG_MAX
      else if n.negative then (2 ^ 64 - n.size) % 2 ^ 64 else n.size, n.stop)

/-- `atol`. -/
def atol (s : List UInt8) : Int := (strtol s).1

/-! ## Printed numbers -/

/-- `%u`. -/
def decimal (n : Nat) : List UInt8 :=
  if n = 0 then [48] else ((Nat.digits 10 n).map fun d => UInt8.ofNat (48 + d)).reverse

/-- `%ld`. -/
def signedDecimal (i : Int) : List UInt8 :=
  if i < 0 then 45 :: decimal (-i).toNat else decimal i.toNat

theorem digit_toNat {d : Nat} (hd : d < 10) : (UInt8.ofNat (48 + d)).toNat = 48 + d := by
  rw [UInt8.toNat_ofNat']
  omega

theorem decimal_ne_nil (n : Nat) : decimal n ≠ [] := by
  unfold decimal
  split
  · exact List.cons_ne_nil _ _
  · next h =>
    rw [ne_eq, List.reverse_eq_nil_iff, List.map_eq_nil_iff]
    exact Nat.digits_ne_nil_iff_ne_zero.mpr h

theorem isDigit_of_mem_decimal {n : Nat} {c : UInt8} (hc : c ∈ decimal n) : isDigit c = true := by
  unfold decimal at hc
  split at hc
  · obtain rfl := List.mem_singleton.mp hc
    decide
  · obtain ⟨d, hd, rfl⟩ := List.mem_map.mp (List.mem_reverse.mp hc)
    have hlt := Nat.digits_lt_base (by decide) hd
    have hnat := digit_toNat hlt
    simp only [isDigit, Bool.and_eq_true, decide_eq_true_eq, UInt8.le_iff_toNat_le, hnat]
    exact ⟨Nat.le_add_right _ _, show 48 + d ≤ 57 by omega⟩

theorem digitsValue_decimal (n : Nat) : digitsValue (decimal n) = n := by
  unfold decimal digitsValue
  split
  · next h => rw [h]; rfl
  · rw [List.foldl_reverse, List.foldr_map]
    calc (Nat.digits 10 n).foldr (fun d acc => acc * 10 + ((UInt8.ofNat (48 + d)).toNat - 48)) 0
        = (Nat.digits 10 n).foldr (fun d acc => d + 10 * acc) 0 := by
          refine List.foldr_ext _ _ _ fun d hd acc => ?_
          have hlt := Nat.digits_lt_base (by decide) hd
          rw [digit_toNat hlt]
          omega
      _ = n := by simpa [Nat.ofDigits_eq_foldr] using Nat.ofDigits_digits 10 n

/-! ## Reading them -/

theorem sign_length_le (s : List UInt8) : (sign s).2.length ≤ s.length := by
  unfold sign
  split
  · exact le_refl _
  · split
    · exact Nat.le_succ _
    · split
      · exact Nat.le_succ _
      · exact le_refl _

/-- A number does not reach over the end of the string. -/
theorem numeral_stop_le {s : List UInt8} {n : Numeral} (h : numeral s = some n) :
    n.stop ≤ s.length := by
  unfold numeral at h
  dsimp only at h
  split at h
  · cases h
  · obtain rfl := Option.some.inj h
    have hsign := sign_length_le (s.dropWhile isSpace)
    have hblank := (List.dropWhile_sublist isSpace (l := s)).length_le
    have hdigits := (List.takeWhile_sublist isDigit (l := (sign (s.dropWhile isSpace)).2)).length_le
    dsimp only
    omega

theorem strtol_stop_le (s : List UInt8) : (strtol s).2 ≤ s.length := by
  unfold strtol
  cases h : numeral s with
  | none => exact Nat.zero_le _
  | some n => exact numeral_stop_le h

theorem strtoul_stop_le (s : List UInt8) : (strtoul s).2 ≤ s.length := by
  unfold strtoul
  cases h : numeral s with
  | none => exact Nat.zero_le _
  | some n => exact numeral_stop_le h

theorem isDigit_iff {c : UInt8} : isDigit c = true ↔ 48 ≤ c.toNat ∧ c.toNat ≤ 57 := by
  simp only [isDigit, Bool.and_eq_true, decide_eq_true_eq, UInt8.le_iff_toNat_le]
  rfl

theorem isSpace_of_isDigit {c : UInt8} (h : isDigit c = true) : isSpace c = false := by
  obtain ⟨hlo, hhi⟩ := isDigit_iff.mp h
  have h32 : c ≠ 32 := fun hc => absurd (hc ▸ hlo) (by decide)
  have h13 : ¬ c ≤ 13 := fun hc => absurd (UInt8.le_iff_toNat_le.mp hc)
    (Nat.not_le.mpr (Nat.lt_of_lt_of_le (by decide) hlo))
  simp [isSpace, h32, h13]

/-- The digits at the start of a text, with the sign in front of them. -/
theorem numeral_of_sign {s ds t : List UInt8} {negative : Bool}
    (hblank : s.dropWhile isSpace = s) (hsign : sign s = (negative, ds ++ t))
    (hds : ∀ c ∈ ds, isDigit c = true) (hne : ds ≠ []) (ht : ∀ c ∈ t.head?, isDigit c = false) :
    numeral s = some ⟨negative, ds, s.length - t.length⟩ := by
  have hdigits : (ds ++ t).takeWhile isDigit = ds := by
    rw [List.takeWhile_append_of_pos hds]
    cases t with
    | nil => simp
    | cons c t => rw [List.takeWhile_cons_of_neg (by simpa using ht c rfl), List.append_nil]
  have hlen : (ds ++ t).length ≤ s.length := by
    have hle := sign_length_le s
    rwa [hsign] at hle
  rw [List.length_append] at hlen
  unfold numeral
  rw [hblank, hsign]
  simp only [hdigits, hne, if_false, List.length_append]
  congr 2
  omega

/-- Blanks in front of a number move it, and what follows its word does not matter. -/
theorem numeral_append {g w r : List UInt8} (hg : ∀ c ∈ g, isSpace c = true) (hne : w ≠ [])
    (hw : ∀ c ∈ w.head?, isSpace c = false) (hr : ∀ c ∈ r.head?, isDigit c = false) :
    numeral (g ++ (w ++ r)) = (numeral w).map fun n => { n with stop := g.length + n.stop } := by
  obtain ⟨c, w, rfl⟩ := List.exists_cons_of_ne_nil hne
  have hc : ¬ isSpace c = true := by simpa using hw c rfl
  have hword : (c :: w).dropWhile isSpace = c :: w := List.dropWhile_cons_of_neg hc
  have hdrop : (g ++ (c :: w ++ r)).dropWhile isSpace = c :: w ++ r := by
    rw [List.dropWhile_append_of_pos hg, List.cons_append, List.dropWhile_cons_of_neg hc]
  have hsign : sign (c :: w ++ r) = ((sign (c :: w)).1, (sign (c :: w)).2 ++ r) := by
    simp only [List.cons_append, sign]
    split
    · rfl
    · split <;> rfl
  have hlen := sign_length_le (c :: w)
  rcases hs : sign (c :: w) with ⟨negative, rest⟩
  rw [hs] at hsign hlen
  have hdigits : (rest ++ r).takeWhile isDigit = rest.takeWhile isDigit := by
    rw [List.takeWhile_append]
    split
    · next hall =>
      have htake : r.takeWhile isDigit = [] := by
        cases r with
        | nil => rfl
        | cons d r => exact List.takeWhile_cons_of_neg (by simpa using hr d rfl)
      rw [htake, List.append_nil,
        (List.takeWhile_sublist isDigit).eq_of_length hall]
    · rfl
  unfold numeral
  rw [hword, hdrop, hsign, hs]
  dsimp only
  rw [hdigits]
  split
  · rfl
  · rw [Option.map_some]
    simp only [List.length_append]
    dsimp only at hlen
    congr 2
    omega

theorem numeral_stop_pos {s : List UInt8} {n : Numeral} (h : numeral s = some n) : 0 < n.stop := by
  unfold numeral at h
  dsimp only at h
  split at h
  · cases h
  · next hne =>
    obtain rfl := Option.some.inj h
    have := List.length_pos_iff.mpr hne
    dsimp only
    omega

/-- `strtoul` skips blanks and stops at the end of the number. -/
theorem strtoul_append {g w r : List UInt8} (hg : ∀ c ∈ g, isSpace c = true) (hne : w ≠ [])
    (hw : ∀ c ∈ w.head?, isSpace c = false) (hr : ∀ c ∈ r.head?, isDigit c = false) :
    strtoul (g ++ (w ++ r)) =
      ((strtoul w).1, if (strtoul w).2 = 0 then 0 else g.length + (strtoul w).2) := by
  unfold strtoul
  rw [numeral_append hg hne hw hr]
  cases h : numeral w with
  | none => rfl
  | some n =>
    dsimp only [Option.map_some]
    rw [if_neg (Nat.ne_of_gt (numeral_stop_pos h))]
    rfl

theorem strtoul_spaces {s : List UInt8} (hs : ∀ c ∈ s, isSpace c = true) : strtoul s = (0, 0) := by
  have hdrop : s.dropWhile isSpace = [] := List.dropWhile_eq_nil_iff.mpr hs
  unfold strtoul numeral
  rw [hdrop]
  rfl

/-- A number is a sign and digits, when no blanks stand in front of it. -/
theorem numeral_split {s : List UInt8} {n : Numeral} (hs : ∀ c ∈ s.head?, isSpace c = false)
    (h : numeral s = some n) :
    ∃ sgn, s = sgn ++ (n.digits ++ s.drop n.stop) ∧ n.digits ≠ [] ∧
      (∀ c ∈ n.digits, isDigit c = true) ∧
      (n.negative = false ∧ (sgn = [] ∨ sgn = [43]) ∨ n.negative = true ∧ sgn = [45]) := by
  have hblank : s.dropWhile isSpace = s := by
    cases s with
    | nil => rfl
    | cons c s => exact List.dropWhile_cons_of_neg (by simpa using hs c rfl)
  obtain ⟨sgn, hsgn, hkind⟩ : ∃ sgn, s = sgn ++ (sign s).2 ∧
      ((sign s).1 = false ∧ (sgn = [] ∨ sgn = [43]) ∨ (sign s).1 = true ∧ sgn = [45]) := by
    cases s with
    | nil => exact ⟨[], rfl, .inl ⟨rfl, .inl rfl⟩⟩
    | cons c s =>
      rw [sign]
      by_cases h45 : c = 45
      · rw [if_pos h45]
        exact ⟨[45], by rw [h45]; rfl, .inr ⟨rfl, rfl⟩⟩
      · rw [if_neg h45]
        by_cases h43 : c = 43
        · rw [if_pos h43]
          exact ⟨[43], by rw [h43]; rfl, .inl ⟨rfl, .inr rfl⟩⟩
        · rw [if_neg h43]
          exact ⟨[], rfl, .inl ⟨rfl, .inl rfl⟩⟩
  unfold numeral at h
  rw [hblank] at h
  generalize sign s = q at h hsgn hkind
  obtain ⟨negative, rest⟩ := q
  dsimp only at h hsgn hkind
  split at h
  · cases h
  · next hne =>
    obtain rfl := Option.some.inj h
    refine ⟨sgn, ?_, hne, fun c hc => List.mem_takeWhile_imp hc, hkind⟩
    have hlen : s.length - rest.length = sgn.length := by
      rw [hsgn, List.length_append, Nat.add_sub_cancel]
    have hsplit : rest = rest.takeWhile isDigit ++ rest.dropWhile isDigit :=
      List.takeWhile_append_dropWhile.symm
    have hdrop : s.drop (sgn.length + (rest.takeWhile isDigit).length) =
        rest.dropWhile isDigit := by
      rw [hsgn, List.drop_append, List.drop_of_length_le (Nat.le_add_right _ _), List.nil_append,
        Nat.add_sub_cancel_left]
      exact (congrArg (List.drop _) hsplit).trans List.drop_left
    dsimp only
    rw [hlen, hdrop, ← hsplit, ← hsgn]

theorem dropWhile_isSpace_digits {ds : List UInt8} (hds : ∀ c ∈ ds, isDigit c = true)
    (hne : ds ≠ []) (t : List UInt8) : (ds ++ t).dropWhile isSpace = ds ++ t := by
  obtain ⟨d, ds, rfl⟩ := List.exists_cons_of_ne_nil hne
  rw [List.cons_append, List.dropWhile_cons_of_neg]
  simpa using isSpace_of_isDigit (hds d List.mem_cons_self)

theorem sign_digits {ds : List UInt8} (hds : ∀ c ∈ ds, isDigit c = true) (hne : ds ≠ [])
    (t : List UInt8) : sign (ds ++ t) = (false, ds ++ t) := by
  obtain ⟨d, ds, rfl⟩ := List.exists_cons_of_ne_nil hne
  obtain ⟨hlo, hhi⟩ := isDigit_iff.mp (hds d List.mem_cons_self)
  have h45 : d ≠ 45 := fun hc => absurd (hc ▸ hlo) (by decide)
  have h43 : d ≠ 43 := fun hc => absurd (hc ▸ hlo) (by decide)
  rw [List.cons_append, sign, if_neg h45, if_neg h43]

theorem numeral_decimal (n : Nat) :
    numeral (decimal n) = some ⟨false, decimal n, (decimal n).length⟩ := by
  have hds : ∀ c ∈ decimal n, isDigit c = true := fun c hc => isDigit_of_mem_decimal hc
  have hblank := dropWhile_isSpace_digits hds (decimal_ne_nil n) []
  have hsign := sign_digits hds (decimal_ne_nil n) []
  rw [List.append_nil] at hblank hsign
  exact numeral_of_sign (t := []) hblank (by rw [hsign, List.append_nil]) hds (decimal_ne_nil n)
    nofun

/-- `strtol` reads back what `%u` has printed of a value that a `long` holds. -/
theorem strtol_decimal {n : Nat} (hn : (n : Int) ≤ LONG_MAX) :
    strtol (decimal n) = ((n : Int), (decimal n).length) := by
  have hmin : LONG_MIN ≤ (n : Int) := Int.le_trans (by decide) (Int.natCast_nonneg n)
  rw [strtol, numeral_decimal]
  simp only [Numeral.val, Numeral.size, digitsValue_decimal, Bool.false_eq_true, if_false]
  rw [min_eq_right hn, max_eq_right hmin]

/-- `atol` reads back what `%ld` has printed. -/
theorem atol_signedDecimal {i : Int} (hlo : LONG_MIN ≤ i) (hhi : i ≤ LONG_MAX) :
    atol (signedDecimal i) = i := by
  unfold atol signedDecimal
  by_cases hneg : i < 0
  · have hds : ∀ c ∈ decimal (-i).toNat, isDigit c = true := fun c hc => isDigit_of_mem_decimal hc
    have hnum : numeral (45 :: decimal (-i).toNat) = some ⟨true, decimal (-i).toNat, _⟩ :=
      numeral_of_sign (t := []) rfl (by rw [List.append_nil]; rfl) hds (decimal_ne_nil _) nofun
    rw [if_pos hneg, strtol, hnum]
    simp only [Numeral.val, Numeral.size, digitsValue_decimal, if_true]
    have hval : -((-i).toNat : Int) = i := by omega
    rw [hval, min_eq_right hhi, max_eq_right hlo]
  · have hval : (i.toNat : Int) = i := by omega
    rw [if_neg hneg, strtol_decimal (hval.symm ▸ hhi), hval]

end Librecompat
