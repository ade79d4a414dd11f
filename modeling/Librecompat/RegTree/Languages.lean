/-
  Bounded repetition means repetition.

  A tree stands for a language, given the languages of its leaves. A chain of copies is a power of
  the operand's language (`Chain.language`), a nest of options all powers up to the number of the
  copies (`Nest.language`), and copies have the language of the operand since that depends on the
  shape only. `parseDupOp_language` puts this together for every operator.
-/
import Librecompat.RegTree.Expansion
import Librecompat.Lib.Repetition

namespace Librecompat.RegTree

open Librecompat.Lib
open Librecompat.Regex (RegErrcode REG_NOERROR REG_ESPACE)
open scoped Computability

variable {α : Type*}

/-- The language of a tree; a missing tree stands for the empty string. -/
def Tree.language (leaf : TokenType → Nat → Language α) : Tree → Language α
  | nil => 1
  | node _ token l r =>
    match token.type with
    | .concat => l.language leaf * r.language leaf
    | .opAlt => l.language leaf + r.language leaf
    | .opDupAsterisk => (l.language leaf)∗
    | .subexp => l.language leaf
    | type => leaf type token.opr

variable {leaf : TokenType → Nat → Language α}

theorem language_shape (t : Tree) : t.shape.language leaf = t.language leaf := by
  induction t with
  | nil => rfl
  | node a token l r ihl ihr => simp only [Tree.shape, Tree.language, ihl, ihr]

theorem language_eq_of_shape {t t' : Tree} (h : t.shape = t'.shape) :
    t.language leaf = t'.language leaf := by
  rw [← language_shape, h, language_shape]

theorem Chain.language {cs : List Tree} {M : Tree} {L : Language α} (h : Chain cs M)
    (hL : ∀ c ∈ cs, c.language leaf = L) : M.language leaf = L ^ cs.length := by
  induction h with
  | one c =>
    rw [hL c List.mem_cons_self, List.length_singleton, pow_one]
  | @more cs M _ a c ih =>
    have hM := ih fun d hd => hL d (List.mem_append_left _ hd)
    have hc : c.language leaf = L := hL c (by simp)
    calc (Tree.node a { type := .concat } M c).language leaf
        = M.language leaf * c.language leaf := rfl
      _ = L ^ cs.length * L := by rw [hM, hc]
      _ = L ^ (cs ++ [c]).length := by rw [List.length_append, List.length_singleton, pow_succ]

theorem Nest.language {cs : List Tree} {O : Tree} {L : Language α} (h : Nest .opAlt cs O)
    (hL : ∀ c ∈ cs, c.language leaf = L) :
    O.language leaf = repetition L 0 (some cs.length) := by
  induction h with
  | one a c =>
    calc (Tree.node a { type := .opAlt } c .nil).language leaf
        = c.language leaf + 1 := rfl
      _ = repetition L 0 (some 0) * L + 1 := by
          rw [hL c List.mem_cons_self, repetition_exact, pow_zero, one_mul]
      _ = repetition L 0 (some [c].length) := (repetition_succ L 0).symm
  | @more cs O _ a b c ih =>
    have hO := ih fun d hd => hL d (List.mem_append_left _ hd)
    have hc : c.language leaf = L := hL c (by simp)
    calc (Tree.node b { type := .opAlt } (.node a { type := .concat } O c) .nil).language leaf
        = O.language leaf * c.language leaf + 1 := rfl
      _ = repetition L 0 (some cs.length) * L + 1 := by rw [hO, hc]
      _ = repetition L 0 (some (cs ++ [c]).length) := by
          rw [List.length_append, List.length_singleton, repetition_succ]

/-- A single copy under a star. -/
theorem Nest.language_star {cs : List Tree} {O : Tree} {L : Language α}
    (h : Nest .opDupAsterisk cs O) (hL : ∀ c ∈ cs, c.language leaf = L) (hone : cs.length = 1) :
    O.language leaf = repetition L 0 none := by
  cases h with
  | one a c =>
    rw [repetition_star, ← hL c List.mem_cons_self]
    rfl
  | more h a b c =>
    have hpos := h.length_pos
    rw [List.length_append, List.length_singleton] at hone
    omega

/-- The parts of the result give the bounds of the operator. -/
theorem Expanded.language {T R : Tree} {n : Nat} {m : Option Nat} {ms os : List Tree}
    (h : Expanded T n (stopOf m) ms os R) :
    R.language leaf = repetition (T.language leaf) n m := by
  have hL : ∀ c ∈ ms ++ os, c.language leaf = T.language leaf := fun c hc =>
    language_eq_of_shape (h.shapes c hc)
  have hms : ∀ c ∈ ms, c.language leaf = T.language leaf := fun c hc =>
    hL c (List.mem_append_left _ hc)
  have hos : ∀ c ∈ os, c.language leaf = T.language leaf := fun c hc =>
    hL c (List.mem_append_right _ hc)
  have hn : ms.length = n := Int.ofNat_inj.mp h.mandatory
  -- the optional part repeats up to what the mandatory copies leave of the upper bound
  have hoptional : ∀ O, Nest (optionalType (stopOf m)) os O →
      O.language leaf = repetition (T.language leaf) 0 (m.map fun _ => os.length) := by
    intro O hO
    cases m with
    | none => exact hO.language_star hos (Int.ofNat_inj.mp h.optional)
    | some m =>
      have htype : optionalType (stopOf (some m)) = .opAlt := if_neg (natCast_ne m).1
      rw [htype] at hO
      exact hO.language hos
  have hbound : m.map (fun _ => n + os.length) = m := by
    cases m with
    | none => rfl
    | some m =>
      have hlen := h.optional
      rw [stopOf, if_neg (natCast_ne m).1] at hlen
      rw [Option.map_some, Option.some_inj]
      omega
  have hassembled := h.assembled
  cases hassembled with
  | mandatory hM =>
    cases m with
    | none => exact absurd (h.optional.trans (if_pos rfl)) (by decide)
    | some m =>
      obtain rfl : n = m := by simpa using hbound
      rw [hM.language hms, hn, repetition_exact]
  | optional hO =>
    obtain rfl : 0 = n := hn
    rw [hoptional R hO]
    simpa using congrArg (repetition (T.language leaf) 0) hbound
  | @both _ _ M O hM hO a =>
    calc (Tree.node a { type := .concat } M O).language leaf
        = M.language leaf * O.language leaf := rfl
      _ = T.language leaf ^ n * repetition (T.language leaf) 0 (m.map fun _ => os.length) := by
          rw [hM.language hms, hn, hoptional O hO]
      _ = repetition (T.language leaf) n m := by
          rw [pow_mul_repetition, Option.map_map]
          exact congrArg (repetition (T.language leaf) n) hbound

/-- The tree that `parse_dup_op` returns stands for the repetition of the operand as often as the
    operator says. -/
theorem parseDupOp_language {ok : Nat → Bool} (hok : ∀ k, ok k = true)
    (leaf : TokenType → Nat → Language α) {dfa : Dfa} {elem : Option Nat} {T : Tree}
    {token : Token} {regexp rest : List Token} {n : Nat} {m : Option Nat} {fuel : Nat}
    (hT : Stands dfa elem T) (hop : Spelled token regexp n m rest)
    (hfuel : 4 * T.size + 2 ≤ fuel) (invalidOrd : Bool) :
    ∃ r R, parseDupOp ok fuel elem regexp dfa token invalidOrd = some r ∧ r.err = REG_NOERROR ∧
      Stands r.dfa r.tree R ∧ R.language leaf = repetition (T.language leaf) n m := by
  cases elem with
  | none =>
    obtain rfl := Tree.root_eq_none.mp hT.root
    obtain ⟨r, hrun, herr, htree⟩ := parseDupOp_none ok hop invalidOrd fuel dfa
    refine ⟨r, .nil, hrun, herr, ⟨htree.symm, trivial, List.nodup_nil⟩, ?_⟩
    exact (repetition_one hop.le).symm
  | some elem =>
    by_cases hzero : n = 0 ∧ m = some 0
    · obtain ⟨r, hrun, herr, htree⟩ := parseDupOp_free ok hT hop invalidOrd hzero.1
        hzero.2 (by omega : 2 * T.size ≤ fuel)
      refine ⟨r, .nil, hrun, herr, ⟨htree.symm, trivial, List.nodup_nil⟩, ?_⟩
      rw [hzero.1, hzero.2, repetition_exact, pow_zero]
      rfl
    · obtain ⟨r, R, ms, os, hrun, herr, hR, hexp⟩ :=
        parseDupOp_expanded hok hT hop invalidOrd hzero hfuel
      exact ⟨r, R, hrun, herr, hR, hexp.language⟩

/-- `a{2,3}`, where every leaf stands for the one word of its character. -/
theorem parseDupOp_language_two_three :
    ∃ r R, parseDupOp (fun _ => true) 6 (some 0)
        [{ type := .character, opr := 0x32 }, { type := .character, opr := 0x2c },
          { type := .character, opr := 0x33 }, { type := .opCloseDupNum }]
        ⟨[⟨none, none, none, { type := .character, opr := 0x61 }⟩], 1, 1, []⟩
        { type := .opOpenDupNum } false = some r ∧ r.err = REG_NOERROR ∧
      Stands r.dfa r.tree R ∧ R.language (fun _ opr => ({[opr]} : Language Nat)) =
        repetition ({[0x61]} : Language Nat) 2 (some 3) := by
  have hT : Stands ⟨[⟨none, none, none, { type := .character, opr := 0x61 }⟩], 1, 1, []⟩ (some 0)
      (.node 0 { type := .character, opr := 0x61 } .nil .nil) :=
    ⟨rfl, ⟨rfl, trivial, trivial⟩, by simp [Tree.addrs]⟩
  exact parseDupOp_language (fun _ => rfl) _ hT
    (.between [] rfl (number_singleton ⟨rfl, by decide, by decide⟩) ⟨rfl, rfl⟩
      (number_singleton ⟨rfl, by decide, by decide⟩) (by decide) rfl) (by decide) false

end Librecompat.RegTree
