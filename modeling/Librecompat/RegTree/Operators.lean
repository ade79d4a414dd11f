/-
  How repetition operators are spelled, and what `parse_dup_op` reads from them.

  `Spelled token regexp n m rest` says that the operator asks for `n` repetitions at least and for
  `m` at most, without a limit where `m` is `none`: one of `*`, `+` and `?`, or the tokens of an
  interval up to its closing brace. Numbers are digits (`Number`); `fetch_number` cuts them off
  behind `RE_DUP_MAX`, which does not change a number that is allowed.
-/
import Librecompat.RegTree.Model

namespace Librecompat.RegTree

open Librecompat.Regex (RegErrcode REG_NOERROR REG_ESPACE)

/-! ## Numbers -/

def Token.IsDigit (token : Token) : Prop :=
  token.type = .character ∧ 0x30 ≤ token.c ∧ token.c ≤ 0x39

def Token.IsComma (token : Token) : Prop := token.type = .character ∧ token.c = 0x2c

/-- The value of a row of digits. -/
def numberValue (ds : List Token) : Nat := ds.foldl (fun num d => num * 10 + (d.c - 0x30)) 0

/-- The digits spell the number, which is allowed as a bound. -/
structure Number (ds : List Token) (n : Nat) : Prop where
  digits : ∀ d ∈ ds, d.IsDigit
  nonempty : ds ≠ []
  value : numberValue ds = n
  le_max : (n : Int) ≤ RE_DUP_MAX

theorem number_singleton {d : Token} (h : d.IsDigit) : Number [d] (d.c - 0x30) := by
  refine ⟨by simpa using h, by simp, by simp [numberValue], ?_⟩
  obtain ⟨_, _, hhigh⟩ := h
  unfold RE_DUP_MAX
  omega

/-- A digit is read. -/
def readDigit (num : Int) (d : Token) : Int :=
  if num = -1 then d.c - 0x30 else min (RE_DUP_MAX + 1) (num * 10 + d.c - 0x30)

theorem fetchNumber_digit {num : Int} {token d : Token} {regexp : List Token} (hd : d.IsDigit)
    (hnum : num ≠ -2) :
    fetchNumber num token (d :: regexp) = fetchNumber (readDigit num d) d regexp := by
  obtain ⟨htype, hlow, hhigh⟩ := hd
  have hend : d.type ≠ .endOfRe := by simp [htype]
  have hclose : ¬ (d.type = .opCloseDupNum ∨ d.c = 0x2c) := by
    rw [htype]
    simp
    omega
  have hgood : ¬ (d.type ≠ .character ∨ d.c < 0x30 ∨ 0x39 < d.c ∨ num = -2) := by
    simp only [htype, ne_eq, not_true_eq_false, false_or, not_or, not_lt]
    exact ⟨hlow, hhigh, hnum⟩
  rw [fetchNumber, if_neg hend, if_neg hclose, if_neg hgood, readDigit]

/-- The digits of a number are read up to a closing brace or a comma. -/
theorem fetchNumber_digits {close : Token} {rest : List Token}
    (hclose : close.type = .opCloseDupNum ∨ close.IsComma) :
    ∀ {ds : List Token} {num : Int} {token : Token}, (∀ d ∈ ds, d.IsDigit) → num ≠ -2 →
    fetchNumber num token (ds ++ close :: rest) = (ds.foldl readDigit num, close, rest)
  | [], num, token, _, _ => by
    have hend : close.type ≠ .endOfRe := by
      obtain h | h := hclose
      · simp [h]
      · simp [h.1]
    have hstop : close.type = .opCloseDupNum ∨ close.c = 0x2c := hclose.imp_right (·.2)
    rw [List.nil_append, fetchNumber, if_neg hend, if_pos hstop, List.foldl_nil]
  | d :: ds, num, token, hds, hnum => by
    have hd := hds d List.mem_cons_self
    have hnext : readDigit num d ≠ -2 := by
      obtain ⟨_, hlow, _⟩ := hd
      unfold readDigit RE_DUP_MAX
      split <;> omega
    rw [List.cons_append, fetchNumber_digit hd hnum,
      fetchNumber_digits hclose (fun e he => hds e (List.mem_cons_of_mem d he)) hnext,
      List.foldl_cons]

theorem foldl_readDigit : ∀ {ds : List Token} (num : Nat), (∀ d ∈ ds, d.IsDigit) →
    ds.foldl readDigit (min (RE_DUP_MAX + 1) num) =
      min (RE_DUP_MAX + 1) (ds.foldl (fun num d => num * 10 + (d.c - 0x30)) num : Nat)
  | [], _, _ => rfl
  | d :: ds, num, hds => by
    obtain ⟨_, hlow, _⟩ := hds d List.mem_cons_self
    have hread : readDigit (min (RE_DUP_MAX + 1) num) d =
        min (RE_DUP_MAX + 1) (num * 10 + (d.c - 0x30) : Nat) := by
      unfold readDigit RE_DUP_MAX
      rw [if_neg (by omega)]
      omega
    rw [List.foldl_cons, List.foldl_cons, hread,
      foldl_readDigit _ fun e he => hds e (List.mem_cons_of_mem d he)]

/-- `fetch_number` returns the number. -/
theorem fetchNumber_number {ds rest : List Token} {n : Nat} {token close : Token}
    (hn : Number ds n) (hclose : close.type = .opCloseDupNum ∨ close.IsComma) :
    fetchNumber (-1) token (ds ++ close :: rest) = ((n : Int), close, rest) := by
  obtain ⟨hdigits, hne, hvalue, hmax⟩ := hn
  rw [fetchNumber_digits hclose hdigits (by decide)]
  cases ds with
  | nil => exact absurd rfl hne
  | cons d ds =>
    obtain ⟨_, hlow, hhigh⟩ := hdigits d List.mem_cons_self
    have hfirst : readDigit (-1) d =
        min (RE_DUP_MAX + 1) ((0 * 10 + (d.c - 0x30) : Nat) : Int) := by
      unfold readDigit RE_DUP_MAX
      rw [if_pos rfl]
      omega
    have hvalue' : ds.foldl (fun num d => num * 10 + (d.c - 0x30)) (0 * 10 + (d.c - 0x30)) = n :=
      hvalue
    rw [List.foldl_cons, hfirst,
      foldl_readDigit _ fun e he => hdigits e (List.mem_cons_of_mem d he), hvalue',
      min_eq_right (by omega)]

/-! ## Operators -/

/-- The token and the tokens behind it are an operator, which is followed by `rest`. -/
inductive Spelled : Token → List Token → Nat → Option Nat → List Token → Prop
  | asterisk {token : Token} (rest : List Token) (h : token.type = .opDupAsterisk) :
      Spelled token rest 0 none rest
  | plus {token : Token} (rest : List Token) (h : token.type = .opDupPlus) :
      Spelled token rest 1 none rest
  | question {token : Token} (rest : List Token) (h : token.type = .opDupQuestion) :
      Spelled token rest 0 (some 1) rest
  /-- `{n}` -/
  | exactly {token close : Token} {ds : List Token} {n : Nat} (rest : List Token)
      (h : token.type = .opOpenDupNum) (hn : Number ds n) (hc : close.type = .opCloseDupNum) :
      Spelled token (ds ++ close :: rest) n (some n) rest
  /-- `{n,}` -/
  | atLeast {token comma close : Token} {ds : List Token} {n : Nat} (rest : List Token)
      (h : token.type = .opOpenDupNum) (hn : Number ds n) (hcomma : comma.IsComma)
      (hc : close.type = .opCloseDupNum) :
      Spelled token (ds ++ comma :: close :: rest) n none rest
  /-- `{n,m}` -/
  | between {token comma close : Token} {ds es : List Token} {n m : Nat} (rest : List Token)
      (h : token.type = .opOpenDupNum) (hn : Number ds n) (hcomma : comma.IsComma)
      (hm : Number es m) (hle : n ≤ m) (hc : close.type = .opCloseDupNum) :
      Spelled token (ds ++ comma :: (es ++ close :: rest)) n (some m) rest
  /-- `{,m}` -/
  | atMost {token comma close : Token} {es : List Token} {m : Nat} (rest : List Token)
      (h : token.type = .opOpenDupNum) (hcomma : comma.IsComma) (hm : Number es m)
      (hc : close.type = .opCloseDupNum) :
      Spelled token (comma :: (es ++ close :: rest)) 0 (some m) rest

/-- The bound in `end`. -/
def stopOf : Option Nat → Int
  | none => -1
  | some m => m

/-- The bounds are in order. -/
theorem Spelled.le {token : Token} {regexp rest : List Token} {n : Nat} {m : Option Nat}
    (h : Spelled token regexp n m rest) : ∀ e ∈ m, n ≤ e := by
  cases h with
  | between _ _ _ _ _ hle _ => simpa using hle
  | _ => simp

theorem fetchNumber_comma {token comma : Token} {rest : List Token} (h : comma.IsComma) :
    fetchNumber (-1) token (comma :: rest) = (-1, comma, rest) := by
  have hread : fetchNumber (-1) token ([] ++ comma :: rest) = (-1, comma, rest) :=
    fetchNumber_digits (.inr h) (by simp) (by decide)
  simpa using hread

theorem fetchNumber_close {token close : Token} {rest : List Token}
    (h : close.type = .opCloseDupNum) :
    fetchNumber (-1) token (close :: rest) = (-1, close, rest) := by
  have hread : fetchNumber (-1) token ([] ++ close :: rest) = (-1, close, rest) :=
    fetchNumber_digits (.inl h) (by simp) (by decide)
  simpa using hread

theorem natCast_ne (n : Nat) : (n : Int) ≠ -1 ∧ (n : Int) ≠ -2 := by omega

/-- An operator is accepted with its bounds. -/
theorem dupBounds_spelled {token : Token} {regexp rest : List Token} {n : Nat} {m : Option Nat}
    (h : Spelled token regexp n m rest) (invalidOrd : Bool) :
    ∃ tok, dupBounds invalidOrd token regexp = (.accepted n (stopOf m), tok, rest) := by
  cases h with
  | asterisk _ h => exact ⟨token, by simp [dupBounds, h, stopOf]⟩
  | plus _ h => exact ⟨token, by simp [dupBounds, h, stopOf]⟩
  | question _ h => exact ⟨token, by simp [dupBounds, h, stopOf]⟩
  | @exactly close ds _ _ h hn hc =>
    refine ⟨close, ?_⟩
    simp [dupBounds, h, fetchNumber_number hn (.inl hc), hc, stopOf, natCast_ne n, hn.le_max]
  | @atLeast comma close ds _ _ h hn hcomma hc =>
    refine ⟨close, ?_⟩
    simp [dupBounds, h, fetchNumber_number hn (.inr hcomma), hcomma.1, hcomma.2, hc, stopOf,
      fetchNumber_close hc, natCast_ne n, hn.le_max]
  | @between comma close ds es _ m _ h hn hcomma hm hle hc =>
    refine ⟨close, ?_⟩
    simp [dupBounds, h, fetchNumber_number hn (.inr hcomma), hcomma.1, hcomma.2, hc, stopOf,
      fetchNumber_number hm (.inl hc), natCast_ne n, natCast_ne m, hle.not_gt,
      hm.le_max.not_gt]
  | @atMost comma close es m _ h hcomma hm hc =>
    refine ⟨close, ?_⟩
    simp [dupBounds, h, fetchNumber_comma hcomma, hcomma.1, hcomma.2, hc, stopOf,
      fetchNumber_number hm (.inl hc), natCast_ne m, (Int.natCast_nonneg m).not_gt,
      hm.le_max.not_gt]

end Librecompat.RegTree
