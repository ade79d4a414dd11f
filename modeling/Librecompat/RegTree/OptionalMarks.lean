/-
  Which copies get the mark of an optional subexpression.

  `parse_dup_op` marks the first optional copy before it makes the others, and `duplicate_tree`
  leaves the mark out: with more than one optional copy the others are not marked. And the walk
  that marks the copy goes on to the last mandatory copy when there are two of them at least. So the
  marks are as intended for at most one mandatory and a single optional copy only
  (`parseDupOp_marks_iff`).
-/
import Librecompat.RegTree.Expansion

namespace Librecompat.RegTree

open Librecompat.Regex (RegErrcode REG_NOERROR REG_ESPACE)

/-! ## The copies in a result -/

def Tree.left : Tree → Tree
  | nil => nil
  | node _ _ l _ => l

def Tree.right : Tree → Tree
  | nil => nil
  | node _ _ _ r => r

/-- `n` copies under CONCAT nodes. -/
def chainCopies : Nat → Tree → List Tree
  | n + 2, .node _ _ l r => chainCopies (n + 1) l ++ [r]
  | 1, t => [t]
  | _, _ => []

/-- `n` copies in nested options. -/
def nestCopies : Nat → Tree → List Tree
  | n + 2, .node _ _ (.node _ _ l r) _ => nestCopies (n + 1) l ++ [r]
  | 1, .node _ _ c _ => [c]
  | _, _ => []

/-- The first `n` copies in the result for an operator that allows more than `n`. -/
def mandatoryOf (n : Nat) (R : Tree) : List Tree :=
  if n = 0 then [] else chainCopies n R.left

/-- The copies beyond; without an upper bound it is the one under the star. -/
def optionalOf (n : Nat) (m : Option Nat) (R : Tree) : List Tree :=
  nestCopies (m.elim 1 (· - n)) (if n = 0 then R else R.right)

/-- The mark is set on the SUBEXP node of every optional copy, and of no mandatory one. -/
def MarkedExactly (n : Nat) (m : Option Nat) (R : Tree) : Prop :=
  (∀ c ∈ mandatoryOf n R, c.marked = false) ∧ ∀ c ∈ optionalOf n m R, c.marked = true

theorem Chain.chainCopies_eq {cs : List Tree} {M : Tree} (h : Chain cs M) :
    chainCopies cs.length M = cs := by
  induction h with
  | one c => rfl
  | @more cs M h a c ih =>
    obtain ⟨k, hk⟩ := Nat.exists_eq_succ_of_ne_zero h.length_pos.ne'
    rw [hk] at ih
    rw [List.length_append, hk, List.length_singleton, chainCopies, ih]

theorem Nest.nestCopies_eq {type : TokenType} {cs : List Tree} {O : Tree} (h : Nest type cs O) :
    nestCopies cs.length O = cs := by
  induction h with
  | one a c => rfl
  | @more cs O h a b c ih =>
    obtain ⟨k, hk⟩ := Nat.exists_eq_succ_of_ne_zero h.length_pos.ne'
    rw [hk] at ih
    rw [List.length_append, hk, List.length_singleton, nestCopies, ih]

variable {T R : Tree} {n : Nat} {m : Option Nat} {ms os : List Tree}

theorem Expanded.length_optional (h : Expanded T n (stopOf m) ms os R) (hlt : ∀ e ∈ m, n < e) :
    os.length = m.elim 1 (· - n) := by
  have hlen := h.optional
  cases m with
  | none => exact Int.ofNat_inj.mp hlen
  | some m =>
    have hnm : n < m := hlt m rfl
    rw [stopOf, if_neg (natCast_ne m).1] at hlen
    change os.length = m - n
    omega

/-- The copies are found in the result. -/
theorem Expanded.copies_eq (h : Expanded T n (stopOf m) ms os R) (hlt : ∀ e ∈ m, n < e) :
    mandatoryOf n R = ms ∧ optionalOf n m R = os := by
  have hlen := h.length_optional hlt
  have hn : ms.length = n := Int.ofNat_inj.mp h.mandatory
  have hassembled := h.assembled
  unfold mandatoryOf optionalOf
  rw [← hlen]
  cases hassembled with
  | mandatory hM =>
    cases m with
    | none => exact absurd hlen Nat.zero_ne_one
    | some m =>
      have hnm : n < m := hlt m rfl
      change 0 = m - n at hlen
      omega
  | optional hO =>
    obtain rfl : 0 = n := hn
    exact ⟨rfl, hO.nestCopies_eq⟩
  | both hM hO a =>
    have hpos : n ≠ 0 := hn ▸ hM.length_pos.ne'
    rw [if_neg hpos, if_neg hpos, ← hn]
    exact ⟨hM.chainCopies_eq, hO.nestCopies_eq⟩

/-- The marks of a result for a group that was not marked. -/
theorem Expanded.marks_iff (h : Expanded T n (stopOf m) ms os R) (hlt : ∀ e ∈ m, n < e)
    (hsub : T.isSubexp) (hT : T.marked = false) :
    MarkedExactly n m R ↔ n ≤ 1 ∧ ∀ e ∈ m, e = n + 1 := by
  obtain ⟨hms, hos⟩ := h.copies_eq hlt
  have hlen := h.length_optional hlt
  have hn : ms.length = n := Int.ofNat_inj.mp h.mandatory
  have hone : os.length = 1 ↔ ∀ e ∈ m, e = n + 1 := by
    rw [hlen]
    cases m with
    | none => simp
    | some m =>
      have hnm : n < m := hlt m rfl
      simp only [Option.elim_some, Option.mem_some_iff, forall_eq']
      omega
  rw [MarkedExactly, hms, hos, ← hone, ← hn]
  obtain ⟨c, rest, rfl⟩ : ∃ c rest, os = c :: rest := by
    refine List.exists_cons_of_length_pos ?_
    rw [hlen]
    cases m with
    | none => exact Nat.one_pos
    | some m => exact Nat.sub_pos_of_lt (hlt m rfl)
  constructor
  · rintro ⟨hmandatory, hoptional⟩
    refine ⟨Nat.not_lt.mp fun htwo => ?_, ?_⟩
    · -- from two copies on the last mandatory one is marked
      obtain ⟨d, hd, hmark⟩ := h.beside hsub htwo (List.cons_ne_nil c rest)
      rw [hmandatory d hd] at hmark
      exact Bool.noConfusion hmark
    · cases rest with
      | nil => rfl
      | cons d rest =>
        have hmark := hoptional d (by simp)
        rw [h.others d List.mem_cons_self] at hmark
        exact Bool.noConfusion hmark
  · rintro ⟨hle, hlength⟩
    obtain rfl : rest = [] := by simpa using hlength
    refine ⟨fun d hd => (h.alone hle d hd).trans hT, fun d hd => ?_⟩
    obtain rfl : d = c := by simpa using hd
    exact h.first hsub d rfl

/-! ## The call -/

/-- After `parse_dup_op` the marks of a group are as intended exactly when there are at most one
    mandatory copy and one optional copy. -/
theorem parseDupOp_marks_iff {ok : Nat → Bool} (hok : ∀ k, ok k = true) {dfa : Dfa}
    {elem : Option Nat} {token : Token} {regexp rest : List Token} {fuel : Nat}
    (hT : Stands dfa elem T) (hsub : T.isSubexp) (hmarked : T.marked = false)
    (hop : Spelled token regexp n m rest) (hlt : ∀ e ∈ m, n < e)
    (hfuel : 4 * T.size + 2 ≤ fuel) (invalidOrd : Bool) :
    ∃ r R, parseDupOp ok fuel elem regexp dfa token invalidOrd = some r ∧ r.err = REG_NOERROR ∧
      Stands r.dfa r.tree R ∧ (MarkedExactly n m R ↔ n ≤ 1 ∧ ∀ e ∈ m, e = n + 1) := by
  cases elem with
  | none =>
    obtain rfl := Tree.root_eq_none.mp hT.root
    simp [Tree.isSubexp] at hsub
  | some elem =>
    have hpos : ¬ (n = 0 ∧ m = some 0) := by
      rintro ⟨rfl, rfl⟩
      exact absurd (hlt 0 rfl) (lt_irrefl 0)
    obtain ⟨r, R, ms, os, hrun, herr, hR, hexp⟩ :=
      parseDupOp_expanded hok hT hop invalidOrd hpos hfuel
    exact ⟨r, R, hrun, herr, hR, hexp.marks_iff hlt hsub hmarked⟩

/-! ## The group `(a)` -/

/-- The nodes of `(a)`. -/
def groupDfa : Dfa :=
  { trees := [⟨some 1, none, none, { type := .character, opr := 0x61 }⟩,
      ⟨none, some 0, none, { type := .subexp }⟩]
    strTreeStorageIdx := 2
    chunks := 1
    freed := [] }

def group : Tree :=
  .node 1 { type := .subexp } (.node 0 { type := .character, opr := 0x61 } .nil .nil) .nil

/-- The tokens of `{l,h}` behind the opening brace, for two digits. -/
def intervalTokens (l h : Nat) : List Token :=
  [{ type := .character, opr := 0x30 + l }, { type := .character, opr := 0x2c },
    { type := .character, opr := 0x30 + h }, { type := .opCloseDupNum }]

theorem stands_group : Stands groupDfa (some 1) group :=
  ⟨rfl, ⟨rfl, ⟨rfl, trivial, trivial⟩, trivial⟩, by simp [group, Tree.addrs]⟩

/-- `(a){1,2}` -/
theorem parseDupOp_marks_iff_one_two :
    ∃ r R, parseDupOp (fun _ => true) 10 (some 1) (intervalTokens 1 2) groupDfa
        { type := .opOpenDupNum } false = some r ∧ r.err = REG_NOERROR ∧
      Stands r.dfa r.tree R ∧
      (MarkedExactly 1 (some 2) R ↔ 1 ≤ 1 ∧ ∀ e ∈ some 2, e = 1 + 1) :=
  parseDupOp_marks_iff (fun _ => rfl) stands_group rfl rfl
    (.between [] rfl (number_singleton ⟨rfl, by decide, by decide⟩) ⟨rfl, rfl⟩
      (number_singleton ⟨rfl, by decide, by decide⟩) (by decide) rfl)
    (fun _ he => Option.some.inj he ▸ (by decide)) (by decide) false

/-- The nodes of the result for `(a){2,3}`; the second mandatory copy and the optional one, that
    is nodes 2 and 5, are marked. -/
def twoThreeDfa : Dfa :=
  { trees := [⟨some 1, none, none, { type := .character, opr := 0x61 }⟩,
      ⟨some 4, some 0, none, { type := .subexp }⟩,
      ⟨some 4, some 3, none, { type := .subexp, duplicated := true, optSubexp := true }⟩,
      ⟨some 2, none, none, { type := .character, opr := 0x61, duplicated := true }⟩,
      ⟨some 8, some 1, some 2, { type := .concat }⟩,
      ⟨some 7, some 6, none, { type := .subexp, duplicated := true, optSubexp := true }⟩,
      ⟨some 5, none, none, { type := .character, opr := 0x61, duplicated := true }⟩,
      ⟨some 8, some 5, none, { type := .opAlt }⟩,
      ⟨none, some 4, some 7, { type := .concat }⟩]
    strTreeStorageIdx := 9
    chunks := 1
    freed := [] }

def twoThree : Tree :=
  .node 8 { type := .concat }
    (.node 4 { type := .concat } group
      (.node 2 { type := .subexp, duplicated := true, optSubexp := true }
        (.node 3 { type := .character, opr := 0x61, duplicated := true } .nil .nil) .nil))
    (.node 7 { type := .opAlt }
      (.node 5 { type := .subexp, duplicated := true, optSubexp := true }
        (.node 6 { type := .character, opr := 0x61, duplicated := true } .nil .nil) .nil) .nil)

theorem linked_twoThree : Linked twoThreeDfa.trees none twoThree := by
  simp [twoThree, twoThreeDfa, group, Linked]

/-- The marks of `(a){2,3}` are not as intended. -/
theorem marks_two_three :
    Stands groupDfa (some 1) group ∧ group.isSubexp = true ∧ group.marked = false ∧
    ∃ r, parseDupOp (fun _ => true) 10 (some 1) (intervalTokens 2 3) groupDfa
        { type := .opOpenDupNum } false = some r ∧ Stands r.dfa r.tree twoThree ∧
      ∀ R, Stands r.dfa r.tree R → ¬ MarkedExactly 2 (some 3) R := by
  refine ⟨stands_group, rfl, rfl, ⟨some 8, REG_NOERROR, { type := .endOfRe }, [], twoThreeDfa⟩,
    rfl, ⟨rfl, linked_twoThree, by simp [twoThree, group, Tree.addrs]⟩, ?_⟩
  rintro R ⟨hroot, hlinked, _⟩ ⟨hmandatory, _⟩
  obtain rfl : R = twoThree := hlinked.unique linked_twoThree hroot
  have hmark := hmandatory (.node 2 { type := .subexp, duplicated := true, optSubexp := true }
    (.node 3 { type := .character, opr := 0x61, duplicated := true } .nil .nil) .nil)
    (by simp [mandatoryOf, chainCopies, twoThree, Tree.left])
  exact Bool.noConfusion hmark

end Librecompat.RegTree
