/-
  The trees that the parser makes.

  In a proper tree a CONCAT has two children, a repetition its operand, and the tokens that stand for
  themselves have none. Of copies of a proper tree `parse_dup_op` makes a proper one
  (`Expanded.proper`). The tree of a whole pattern has its end on the right (`Rooted`).
-/
import Librecompat.RegTree.Expansion

namespace Librecompat.RegTree

def Tree.Proper : Tree → Prop
  | nil => True
  | node _ token l r =>
    match token.type with
    | .concat => (l ≠ nil ∧ r ≠ nil) ∧ l.Proper ∧ r.Proper
    | .opAlt => l.Proper ∧ r.Proper
    | .opDupAsterisk => l ≠ nil ∧ l.Proper ∧ r = nil
    | .subexp => l.Proper ∧ r = nil
    | .endOfRe => False
    | _ => l = nil ∧ r = nil

/-- The tree of a whole pattern: the end, behind the tree of the expression if there is one. -/
inductive Rooted : Tree → Tree → Prop
  | empty (a : Nat) : Rooted .nil (.node a { type := .endOfRe } .nil .nil)
  | full (a e : Nat) {t : Tree} (ht : t.Proper) (hne : t ≠ .nil) :
      Rooted t (.node a { type := .concat } t (.node e { type := .endOfRe } .nil .nil))

theorem shape_eq_nil {t : Tree} : t.shape = .nil ↔ t = .nil := by
  cases t with
  | nil => exact Iff.rfl
  | node a token l r => simp [Tree.shape]

theorem proper_shape (t : Tree) : t.shape.Proper ↔ t.Proper := by
  induction t with
  | nil => exact Iff.rfl
  | node a token l r ihl ihr =>
    simp only [Tree.shape, Tree.Proper, ihl, ihr, ne_eq, shape_eq_nil]

theorem Tree.Proper.of_shape {t t' : Tree} (h : t.Proper) (heq : t'.shape = t.shape) :
    t'.Proper := by
  rwa [← proper_shape, heq, proper_shape]

theorem ne_nil_of_shape {t t' : Tree} (h : t ≠ .nil) (heq : t'.shape = t.shape) : t' ≠ .nil := by
  rwa [ne_eq, ← shape_eq_nil, heq, shape_eq_nil]

variable {cs : List Tree} {M O T R : Tree}

theorem Chain.proper (h : Chain cs M) (hcs : ∀ c ∈ cs, c.Proper ∧ c ≠ .nil) :
    M.Proper ∧ M ≠ .nil := by
  induction h with
  | one c => exact hcs c List.mem_cons_self
  | @more cs M _ a c ih =>
    have hM := ih fun d hd => hcs d (List.mem_append_left _ hd)
    have hc := hcs c (by simp)
    exact ⟨⟨⟨hM.2, hc.2⟩, hM.1, hc.1⟩, by simp⟩

theorem Nest.proper {type : TokenType} (htype : type = .opAlt ∨ type = .opDupAsterisk)
    (h : Nest type cs O) (hcs : ∀ c ∈ cs, c.Proper ∧ c ≠ .nil) : O.Proper ∧ O ≠ .nil := by
  induction h with
  | one a c =>
    obtain ⟨hc, hne⟩ := hcs c List.mem_cons_self
    obtain rfl | rfl := htype
    · exact ⟨⟨hc, trivial⟩, by simp⟩
    · exact ⟨⟨hne, hc, rfl⟩, by simp⟩
  | @more cs O _ a b c ih =>
    have hO := ih fun d hd => hcs d (List.mem_append_left _ hd)
    have hc := hcs c (by simp)
    exact ⟨⟨⟨⟨hO.2, hc.2⟩, hO.1, hc.1⟩, trivial⟩, by simp⟩

theorem Expanded.proper {start stop : Int} {ms os : List Tree} (h : Expanded T start stop ms os R)
    (hT : T.Proper) (hne : T ≠ .nil) : R.Proper := by
  have hcs : ∀ c ∈ ms ++ os, c.Proper ∧ c ≠ .nil := fun c hc =>
    ⟨hT.of_shape (h.shapes c hc), ne_nil_of_shape hne (h.shapes c hc)⟩
  have htype : optionalType stop = .opAlt ∨ optionalType stop = .opDupAsterisk := by
    unfold optionalType
    split
    · exact .inr rfl
    · exact .inl rfl
  have hassembled := h.assembled
  cases hassembled with
  | mandatory hM => exact (hM.proper fun c hc => hcs c (List.mem_append_left _ hc)).1
  | optional hO => exact (hO.proper htype fun c hc => hcs c (List.mem_append_right _ hc)).1
  | both hM hO a =>
    have hM := hM.proper fun c hc => hcs c (List.mem_append_left _ hc)
    have hO := hO.proper htype fun c hc => hcs c (List.mem_append_right _ hc)
    exact ⟨⟨hM.2, hO.2⟩, hM.1, hO.1⟩

end Librecompat.RegTree
