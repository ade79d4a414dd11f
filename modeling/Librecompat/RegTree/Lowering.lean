/-
  What becomes of the subexpressions of a tree.

  `optimize_subexps` takes away a group that is all of another group (`Stripped`), and
  `lower_subexps` puts the operand of each group between two parentheses or in the place of the
  group (`Lowers`). Neither changes the language: parentheses stand for the empty string. Behind
  both walks no group is left (`Subexpless`).
-/
import Librecompat.RegTree.Languages
import Librecompat.RegTree.Proper
import Librecompat.RegTree.Rewriting

namespace Librecompat.RegTree

open scoped Computability

/-! ## Types of nodes -/

/-- The types of all nodes have the property. -/
def Tree.Types (P : TokenType → Prop) : Tree → Prop
  | nil => True
  | node _ token l r => P token.type ∧ l.Types P ∧ r.Types P

theorem Tree.Types.mono {P Q : TokenType → Prop} (hPQ : ∀ type, P type → Q type) :
    ∀ {t : Tree}, t.Types P → t.Types Q
  | .nil, _ => trivial
  | .node _ _ _ _, ⟨htype, hl, hr⟩ => ⟨hPQ _ htype, hl.mono hPQ, hr.mono hPQ⟩

theorem Tree.Types.and {P Q : TokenType → Prop} : ∀ {t : Tree}, t.Types P → t.Types Q →
    t.Types fun type => P type ∧ Q type
  | .nil, _, _ => trivial
  | .node _ _ _ _, ⟨htype, hl, hr⟩, ⟨htype', hl', hr'⟩ => ⟨⟨htype, htype'⟩, hl.and hl', hr.and hr'⟩

/-- No node but the root is a group. -/
def Subexpless : Tree → Prop
  | .nil => True
  | .node _ _ l r => l.Types (· ≠ .subexp) ∧ r.Types (· ≠ .subexp)

/-! ## The two changes -/

/-- What `optimize_subexps` does to a tree. -/
inductive Stripped : Tree → Tree → Prop
  | keep (t : Tree) : Stripped t t
  | strip {token token' : Token} (a b : Nat) (x r r' : Tree) (h : token.type = .subexp)
      (h' : token'.type = .subexp) :
      Stripped (.node a token (.node b token' x r') r) (.node a token x r)
  | backRef {token : Token} (a idx : Nat) (l r : Tree) (h : token.type = .opBackRef) :
      Stripped (.node a token l r) (.node a { token with opr := idx } l r)

/-- What `lower_subexps` does to the child of a node. -/
inductive Lowers : Tree → Tree → Prop
  | nil : Lowers .nil .nil
  | keep {token : Token} (a : Nat) (l r : Tree) (h : token.type ≠ .subexp) :
      Lowers (.node a token l r) (.node a token l r)
  | strip {token : Token} (a : Nat) {x : Tree} (r : Tree) (h : token.type = .subexp)
      (hx : x ≠ .nil) : Lowers (.node a token x r) x
  | empty {token op cls : Token} (a : Nat) (r : Tree) (h : token.type = .subexp) (b o k : Nat)
      (hop : op.type = .opOpenSubexp) (hcls : cls.type = .opCloseSubexp) :
      Lowers (.node a token .nil r)
        (.node b { type := .concat } (.node o op .nil .nil) (.node k cls .nil .nil))
  | group {token op cls : Token} (a : Nat) {x : Tree} (r : Tree) (h : token.type = .subexp)
      (hx : x ≠ .nil) (b d o k : Nat) (hop : op.type = .opOpenSubexp)
      (hcls : cls.type = .opCloseSubexp) :
      Lowers (.node a token x r) (.node b { type := .concat } (.node o op .nil .nil)
        (.node d { type := .concat } x (.node k cls .nil .nil)))

variable {t t' : Tree}

theorem Stripped.size_le (h : Stripped t t') : t'.size ≤ t.size := by
  cases h with
  | keep => exact Nat.le_refl _
  | strip =>
    simp only [Tree.size]
    omega
  | backRef => exact Nat.le_refl _

/-! ## Languages -/

section language

variable {α : Type*} {leaf : TokenType → Nat → Language α}

theorem language_congr {a b : Nat} {token : Token} {l l' r r' : Tree}
    (hl : l'.language leaf = l.language leaf) (hr : r'.language leaf = r.language leaf) :
    (Tree.node b token l' r').language leaf = (Tree.node a token l r).language leaf := by
  simp only [Tree.language, hl, hr]

theorem language_subexp {a : Nat} {token : Token} (h : token.type = .subexp) (l r : Tree) :
    (Tree.node a token l r).language leaf = l.language leaf := by
  simp only [Tree.language, h]

theorem language_leaf {a : Nat} {token : Token} {type : TokenType} (h : token.type = type)
    (htype : type = .opOpenSubexp ∨ type = .opCloseSubexp) (l r : Tree) :
    (Tree.node a token l r).language leaf = leaf type token.opr := by
  obtain rfl | rfl := htype
  · simp only [Tree.language, h]
  · simp only [Tree.language, h]

theorem Stripped.language (h : Stripped t t') (hback : t.Types (· ≠ .opBackRef)) :
    t'.language leaf = t.language leaf := by
  cases h with
  | keep => rfl
  | strip a b x r r' h h' => rw [language_subexp h, language_subexp h, language_subexp h']
  | backRef a idx l r h => exact absurd h hback.1

theorem Stripped.types {P : TokenType → Prop} (h : Stripped t t') (ht : t.Types P) :
    t'.Types P := by
  cases h with
  | keep => exact ht
  | strip a b x r r' h h' => exact ⟨ht.1, ht.2.1.2.1, ht.2.2⟩
  | backRef a idx l r h => exact ht

/-- The parentheses stand for the empty string. -/
theorem Lowers.language (h : Lowers t t') (hop : ∀ idx, leaf .opOpenSubexp idx = 1)
    (hcls : ∀ idx, leaf .opCloseSubexp idx = 1) : t'.language leaf = t.language leaf := by
  cases h with
  | nil => rfl
  | keep => rfl
  | strip a r h hx => exact (language_subexp h _ _).symm
  | empty a r h b o k ho hk =>
    change (Tree.node o _ _ _).language leaf * (Tree.node k _ _ _).language leaf = _
    rw [language_leaf ho (.inl rfl), language_leaf hk (.inr rfl), hop, hcls, language_subexp h,
      mul_one]
    rfl
  | @group token op cls a x r h hx b d o k ho hk =>
    change (Tree.node o _ _ _).language leaf *
      (x.language leaf * (Tree.node k _ _ _).language leaf) = _
    rw [language_leaf ho (.inl rfl), language_leaf hk (.inr rfl), hop, hcls, language_subexp h,
      mul_one, one_mul]

end language

/-! ## Proper trees -/

theorem proper_congr {a b : Nat} {token : Token} {l l' r r' : Tree}
    (h : (Tree.node a token l r).Proper) (hl : l.Proper → l'.Proper) (hr : r.Proper → r'.Proper)
    (hlnil : l' = .nil ↔ l = .nil) (hrnil : r' = .nil ↔ r = .nil) :
    (Tree.node b token l' r').Proper := by
  unfold Tree.Proper at h ⊢
  split
  · next htype =>
    simp only [htype] at h
    exact ⟨⟨mt hlnil.mp h.1.1, mt hrnil.mp h.1.2⟩, hl h.2.1, hr h.2.2⟩
  · next htype =>
    simp only [htype] at h
    exact ⟨hl h.1, hr h.2⟩
  · next htype =>
    simp only [htype] at h
    exact ⟨mt hlnil.mp h.1, hl h.2.1, hrnil.mpr h.2.2⟩
  · next htype =>
    simp only [htype] at h
    exact ⟨hl h.1, hrnil.mpr h.2⟩
  · next htype => simp [htype] at h
  · next h₁ h₂ h₃ h₄ h₅ =>
    split at h
    all_goals first | contradiction | exact ⟨hlnil.mpr h.1, hrnil.mpr h.2⟩

theorem proper_subexp {a : Nat} {token : Token} (h : token.type = .subexp) (l r : Tree) :
    (Tree.node a token l r).Proper ↔ l.Proper ∧ r = .nil := by
  simp only [Tree.Proper, h]

theorem Stripped.proper (h : Stripped t t') (ht : t.Proper) : t'.Proper := by
  cases h with
  | keep => exact ht
  | strip a b x r r' h h' =>
    rw [proper_subexp h, proper_subexp h'] at ht
    exact (proper_subexp h _ _).mpr ⟨ht.1.1, ht.2⟩
  | backRef a idx l r h =>
    simp only [Tree.Proper, h] at ht ⊢
    exact ht

theorem proper_paren {a : Nat} {token : Token}
    (h : token.type = .opOpenSubexp ∨ token.type = .opCloseSubexp) :
    (Tree.node a token .nil .nil).Proper := by
  obtain h | h := h
  · simp [Tree.Proper, h]
  · simp [Tree.Proper, h]

theorem Lowers.proper (h : Lowers t t') (ht : t.Proper) : t'.Proper := by
  cases h with
  | nil => trivial
  | keep => exact ht
  | strip a r h hx => exact ((proper_subexp h _ _).mp ht).1
  | empty a r h b o k ho hk =>
    exact ⟨⟨by simp, by simp⟩, proper_paren (.inl ho), proper_paren (.inr hk)⟩
  | group a r h hx b d o k ho hk =>
    exact ⟨⟨by simp, by simp⟩, proper_paren (.inl ho), ⟨hx, by simp⟩,
      ((proper_subexp h _ _).mp ht).1, proper_paren (.inr hk)⟩

theorem Lowers.eq_nil (h : Lowers t t') : t' = .nil ↔ t = .nil := by
  cases h with
  | nil => exact Iff.rfl
  | keep => simp
  | strip a r h hx => simp [hx]
  | empty => simp
  | group => simp

/-- In the place of a group there is none. -/
theorem Lowers.types (h : Lowers t t') (ht : Subexpless t) : t'.Types (· ≠ .subexp) := by
  cases h with
  | nil => trivial
  | keep a l r h => exact ⟨h, ht⟩
  | strip a r h hx => exact ht.1
  | empty a r h b o k ho hk => simp [Tree.Types, ho, hk]
  | group a r h hx b d o k ho hk =>
    refine ⟨by simp, ⟨by simp [ho], trivial, trivial⟩, by simp, ht.1, by simp [hk], trivial, trivial⟩

theorem Lowers.keeps {P : TokenType → Prop} (hconcat : P .concat) (hop : P .opOpenSubexp)
    (hcls : P .opCloseSubexp) (h : Lowers t t') (ht : t.Types P) : t'.Types P := by
  cases h with
  | nil => trivial
  | keep => exact ht
  | strip a r h hx => exact ht.2.1
  | empty a r h b o k ho hk =>
    exact ⟨hconcat, ⟨ho ▸ hop, trivial, trivial⟩, hk ▸ hcls, trivial, trivial⟩
  | group a r h hx b d o k ho hk =>
    exact ⟨hconcat, ⟨ho ▸ hop, trivial, trivial⟩, hconcat, ht.2.1, hk ▸ hcls, trivial, trivial⟩

/-! ## The walks -/

theorem PreRewritten.language {α : Type*} {leaf : TokenType → Nat → Language α}
    (h : PreRewritten Stripped t t') (hback : t.Types (· ≠ .opBackRef)) :
    t'.language leaf = t.language leaf := by
  induction h with
  | nil => rfl
  | node a h hl hr ihl ihr =>
    obtain ⟨-, hl', hr'⟩ := h.types hback
    rw [← h.language hback]
    exact language_congr (ihl hl') (ihr hr')

theorem PreRewritten.types {P : TokenType → Prop} (h : PreRewritten Stripped t t')
    (ht : t.Types P) : t'.Types P := by
  induction h with
  | nil => trivial
  | node a h hl hr ihl ihr =>
    obtain ⟨htype, hl', hr'⟩ := h.types ht
    exact ⟨htype, ihl hl', ihr hr'⟩

theorem eq_nil_of_root (h : t'.root = t.root) : t' = .nil ↔ t = .nil := by
  rw [← Tree.root_eq_none, h, Tree.root_eq_none]

theorem PreRewritten.proper (h : PreRewritten Stripped t t') (ht : t.Proper) : t'.Proper := by
  induction h with
  | nil => trivial
  | node a h hl hr ihl ihr =>
    exact proper_congr (h.proper ht) ihl ihr (eq_nil_of_root hl.root) (eq_nil_of_root hr.root)

theorem PostRewritten.language {α : Type*} {leaf : TokenType → Nat → Language α}
    (h : PostRewritten Lowers t t') (hop : ∀ idx, leaf .opOpenSubexp idx = 1)
    (hcls : ∀ idx, leaf .opCloseSubexp idx = 1) : t'.language leaf = t.language leaf := by
  induction h with
  | nil => rfl
  | node a token hl hr hl' hr' ihl ihr =>
    exact language_congr ((hl'.language hop hcls).trans ihl) ((hr'.language hop hcls).trans ihr)

theorem PostRewritten.proper (h : PostRewritten Lowers t t') (ht : t.Proper) : t'.Proper := by
  induction h with
  | nil => trivial
  | node a token hl hr hl' hr' ihl ihr =>
    exact proper_congr ht (fun h => hl'.proper (ihl h)) (fun h => hr'.proper (ihr h))
      (hl'.eq_nil.trans (eq_nil_of_root hl.root)) (hr'.eq_nil.trans (eq_nil_of_root hr.root))

theorem PostRewritten.types {P : TokenType → Prop} (hconcat : P .concat) (hop : P .opOpenSubexp)
    (hcls : P .opCloseSubexp) (h : PostRewritten Lowers t t') (ht : t.Types P) : t'.Types P := by
  induction h with
  | nil => trivial
  | node a token hl hr hl' hr' ihl ihr =>
    exact ⟨ht.1, hl'.keeps hconcat hop hcls (ihl ht.2.1), hr'.keeps hconcat hop hcls (ihr ht.2.2)⟩

theorem PostRewritten.subexpless (h : PostRewritten Lowers t t') : Subexpless t' := by
  induction h with
  | nil => trivial
  | node a token hl hr hl' hr' ihl ihr => exact ⟨hl'.types ihl, hr'.types ihr⟩

/-! ## Trees without groups -/

/-- A tree whose nodes become nodes of the automaton: there are no groups, and the end is a leaf. -/
def Tree.Fitted : Tree → Prop
  | nil => True
  | node _ token l r =>
    match token.type with
    | .concat => (l ≠ nil ∧ r ≠ nil) ∧ l.Fitted ∧ r.Fitted
    | .opAlt => l.Fitted ∧ r.Fitted
    | .opDupAsterisk => l ≠ nil ∧ l.Fitted ∧ r = nil
    | _ => l = nil ∧ r = nil

theorem Tree.Proper.fitted : ∀ {t : Tree}, t.Proper → t.Types (· ≠ .subexp) → t.Fitted
  | .nil, _, _ => trivial
  | .node a token l r, h, ⟨htype, hl, hr⟩ => by
    unfold Tree.Proper at h
    unfold Tree.Fitted
    split
    · next hconcat =>
      simp only [hconcat] at h
      exact ⟨h.1, h.2.1.fitted hl, h.2.2.fitted hr⟩
    · next halt =>
      simp only [halt] at h
      exact ⟨h.1.fitted hl, h.2.fitted hr⟩
    · next hdup =>
      simp only [hdup] at h
      exact ⟨h.1, h.2.1.fitted hl, h.2.2⟩
    · next hconcat halt hdup =>
      split at h
      all_goals first | contradiction | exact h

/-! ## The tree of a whole pattern -/

variable {T T' : Tree}

/-- What the two walks make of the tree of an expression. -/
def Simplifies (t t' : Tree) : Prop :=
  ∃ t₁ t₂, PreRewritten Stripped t t₁ ∧ PostRewritten Lowers t₁ t₂ ∧ Lowers t₂ t'

theorem Simplifies.types {P : TokenType → Prop} (hconcat : P .concat) (hop : P .opOpenSubexp)
    (hcls : P .opCloseSubexp) (h : Simplifies t t') (ht : t.Types P) : t'.Types P := by
  obtain ⟨t₁, t₂, h₁, h₂, h₃⟩ := h
  exact h₃.keeps hconcat hop hcls (h₂.types hconcat hop hcls (h₁.types ht))

theorem Simplifies.language {α : Type*} {leaf : TokenType → Nat → Language α}
    (h : Simplifies t t') (hback : t.Types (· ≠ .opBackRef)) (hop : ∀ idx, leaf .opOpenSubexp idx = 1)
    (hcls : ∀ idx, leaf .opCloseSubexp idx = 1) : t'.language leaf = t.language leaf := by
  obtain ⟨t₁, t₂, h₁, h₂, h₃⟩ := h
  rw [h₃.language hop hcls, h₂.language hop hcls, h₁.language hback]

theorem Rooted.stripped (h : Rooted t T) (hT : PreRewritten Stripped T T') :
    ∃ t', Rooted t' T' ∧ PreRewritten Stripped t t' := by
  have hend : ∀ {e : Nat} {r : Tree},
      PreRewritten Stripped (.node e { type := .endOfRe } .nil .nil) r →
      r = .node e { type := .endOfRe } .nil .nil := by
    intro e r hr
    cases hr with
    | node e h hl hr =>
      cases h with
      | keep =>
        cases hl
        cases hr
        rfl
      | backRef e idx l r h => cases h
  cases h with
  | empty a =>
    rw [hend hT]
    exact ⟨.nil, .empty a, .nil⟩
  | full a e ht hne =>
    cases hT with
    | node a h hl hr =>
      cases h with
      | keep =>
        rw [hend hr]
        exact ⟨_, .full a e (hl.proper ht) (mt (eq_nil_of_root hl.root).mp hne), hl⟩
      | strip a b x r r' h => cases h
      | backRef a idx l r h => cases h

theorem Rooted.lowered (h : Rooted t T) (hT : PostRewritten Lowers T T') :
    ∃ t₁ t', Rooted t' T' ∧ PostRewritten Lowers t t₁ ∧ Lowers t₁ t' := by
  cases h with
  | empty a =>
    cases hT with
    | node a token hl hr hl' hr' =>
      cases hl
      cases hr
      cases hl'
      cases hr'
      exact ⟨.nil, .nil, .empty a, .nil, .nil⟩
  | full a e ht hne =>
    cases hT with
    | node a token hl hr hl' hr' =>
      cases hr with
      | node e token hrl hrr hrl' hrr' =>
        cases hrl
        cases hrr
        cases hrl'
        cases hrr'
        cases hr' with
        | keep e l r h =>
          refine ⟨_, _, .full a e (hl'.proper (hl.proper ht)) ?_, hl, hl'⟩
          exact mt (hl'.eq_nil.trans (eq_nil_of_root hl.root)).mp hne
        | strip e r h hx => cases h
        | empty e r h => cases h
        | group e r h => cases h

theorem Rooted.fitted (h : Rooted t T) (hT : Subexpless T) : T.Fitted := by
  cases h with
  | empty a => exact ⟨rfl, rfl⟩
  | full a e ht hne => exact ⟨⟨hne, by simp⟩, ht.fitted hT.1, rfl, rfl⟩

end Librecompat.RegTree
