/-
  What `analyze` keeps of the nodes.

  Without `word_ops_used` no node has a constraint about words, and what is stored as an epsilon
  closure is a set of nodes (`Nfa.Sound`). The sets of the nodes that are in progress are marked with
  `-1`; behind a call of `calc_eclosure_iter` the only ones are those before it.
-/
import Librecompat.NodeSet.Within
import Librecompat.Regcomp.Analyze
import Librecompat.Regcomp.Words

namespace Librecompat.Regcomp

open Librecompat.Lib Librecompat.NodeSet
open Librecompat.RegTree (BinTree Visitor AllTokens HasType setParent createTree andThen)
open Librecompat.Regex (RegErrcode REG_NOERROR REG_ESPACE)

/-- `words` is `word_ops_used`, the nodes `pending` may be in progress, and there are `n` nodes or
    more. -/
structure Nfa.Sound (words : Bool) (pending : Set Int) (n : Nat) (nfa : Nfa) : Prop where
  trees : words = false → AllTokens NoWordAnchor nfa.tree.trees
  nodes : words = false → ∀ node ∈ nfa.graph.nodes, Wordless node.constraint
  oprs : nfa.oprs.length = nfa.graph.nodes.length
  edests : nfa.graph.edests.length = nfa.graph.nodes.length
  closures : ∀ i set, getAt nfa.graph.eclosures i = some set →
    (set.nelem = -1 ∧ i ∈ pending) ∨ set.nelem = 0 ∨ Within nfa.graph.nodes.length set
  grown : n ≤ nfa.graph.nodes.length

variable {words : Bool} {pending : Set Int} {n : Nat} {nfa nfa' : Nfa}
variable {okTree ok : Nat → Bool} {fresh : Nat → Int} {fuel : Nat}

/-- Where the program goes on with such an automaton. -/
abbrev Sounds {β : Type} (words : Bool) (pending : Set Int) (n : Nat) (r : Option (Nfa × β)) :
    Prop :=
  Yields (fun q => q.1.Sound words pending n) r

theorem Nfa.Sound.below (h : nfa.Sound words pending n) :
    nfa.Sound words pending nfa.graph.nodes.length :=
  ⟨h.trees, h.nodes, h.oprs, h.edests, h.closures, Nat.le_refl _⟩

theorem Nfa.Sound.above {n' : Nat} (h : nfa.Sound words pending n') (hle : n ≤ n') :
    nfa.Sound words pending n :=
  ⟨h.trees, h.nodes, h.oprs, h.edests, h.closures, hle.trans h.grown⟩

/-- A step that changes other things. -/
theorem Nfa.Sound.same (h : nfa.Sound words pending n) (htrees : nfa'.tree.trees = nfa.tree.trees)
    (hnodes : nfa'.graph.nodes = nfa.graph.nodes) (hoprs : nfa'.oprs = nfa.oprs)
    (hedests : nfa'.graph.edests.length = nfa.graph.edests.length)
    (hclosures : nfa'.graph.eclosures = nfa.graph.eclosures) : nfa'.Sound words pending n := by
  refine ⟨?_, ?_, ?_, ?_, ?_, ?_⟩
  · rw [htrees]
    exact h.trees
  · rw [hnodes]
    exact h.nodes
  · rw [hoprs, hnodes, h.oprs]
  · rw [hedests, hnodes, h.edests]
  · rw [hclosures, hnodes]
    exact h.closures
  · rw [hnodes]
    exact h.grown

theorem Nfa.Sound.withTrees (h : nfa.Sound words pending n) {tree : RegTree.Dfa}
    (htree : words = false → AllTokens NoWordAnchor tree.trees) :
    Nfa.Sound words pending n { nfa with tree := tree } :=
  ⟨htree, h.nodes, h.oprs, h.edests, h.closures, h.grown⟩

/-! ## Trees -/

theorem Nfa.Sound.modify (h : nfa.Sound words pending n) {node : Nat} {f : BinTree → BinTree}
    (hf : ∀ tree, nfa.tree.trees[node]? = some tree → NoWordAnchor tree.token →
      NoWordAnchor (f tree).token) :
    Yields (Nfa.Sound words pending n) (nfa.modify node f) :=
  yields_bind fun dfa hdfa => yields_some.mpr (h.withTrees fun hwords =>
    (h.trees hwords).modify (fun tree htree => hf tree htree ((h.trees hwords).get htree)) dfa hdfa)

theorem Nfa.Sound.setParent (h : nfa.Sound words pending n) {node : Nat} {child : Option Nat}
    {trees : List BinTree} (htrees : setParent nfa.trees node child = some trees) :
    Nfa.Sound words pending n { nfa with tree := { nfa.tree with trees := trees } } :=
  h.withTrees fun hwords => (h.trees hwords).setParent child trees htrees

theorem Nfa.Sound.create (h : nfa.Sound words pending n) {left right : Option Nat}
    {type : RegTree.TokenType} (htype : type ≠ .anchor) :
    Sounds words pending n (nfa.create okTree left right type) :=
  yields_bind fun q hq => yields_some.mpr (h.withTrees fun hwords =>
    (h.trees hwords).createTree flagless_noWordAnchor (noWordAnchor htype) q hq)

/-- What `create_tree` does to the types. -/
theorem create_types {left right : Option Nat} {type : RegTree.TokenType} :
    Yields (fun q => (∀ i t, HasType nfa.tree.trees i t → HasType q.1.tree.trees i t) ∧
      ∀ tree, q.2 = some tree → HasType q.1.tree.trees tree type)
      (nfa.create okTree left right type) :=
  yields_bind fun q hq => yields_some.mpr (RegTree.createTokenTree_types q hq)

theorem modify_types {node i : Nat} {f : BinTree → BinTree} {t : RegTree.TokenType}
    (h : HasType nfa.tree.trees i t) (hf : ∀ tree, (f tree).token.type = tree.token.type) :
    Yields (fun nfa' => HasType nfa'.tree.trees i t) (nfa.modify node f) :=
  yields_bind fun dfa hdfa => yields_some.mpr <|
    (yields_bind fun trees htrees => yields_some.mpr (h.modifyTree hf trees htrees) :
      Yields (fun dfa' => HasType dfa'.trees i t) (nfa.tree.modify node f)) dfa hdfa

/-! ## optimize_subexps, lower_subexps -/

/-- What a visiting function keeps. -/
def Visits (words : Bool) (pending : Set Int) (n : Nat) (fn : Visitor Nfa) : Prop :=
  ∀ node nfa, Nfa.Sound words pending n nfa → Sounds words pending n (fn node nfa)

theorem stripSubexp_sound (h : nfa.Sound words pending n) {node inner : Nat}
    {tree innerTree : BinTree} :
    Yields (Nfa.Sound words pending n) (stripSubexp nfa node inner tree innerTree) := by
  refine Yields.bind (P := Nfa.Sound words pending n) (h.modify fun _ _ htoken => ?_)
    fun nfa₁ _ h₁ => ?_
  · exact htoken
  refine yields_bind fun trees htrees => yields_bind fun map _ => yields_bind fun outer _ => ?_
  dsimp only
  split
  · exact yields_some.mpr ((h₁.setParent htrees).same rfl rfl rfl rfl rfl)
  · exact yields_none

theorem visits_optimizeSubexps : Visits words pending n optimizeSubexps := by
  intro node nfa h
  refine yields_bind fun tree htree => ?_
  split
  · next hbackRef _ =>
    refine yields_bind fun idx _ => ?_
    refine Yields.bind (P := Nfa.Sound words pending n) (h.modify fun tree' htree' _ => ?_)
      fun nfa₁ _ h₁ => yields_some.mpr (h₁.same rfl rfl rfl rfl rfl)
    obtain rfl := Option.some.inj (htree.symm.trans htree')
    exact noWordAnchor (by simp [hbackRef])
  · split
    · exact yields_some.mpr h
    · refine yields_bind fun leftTree _ => ?_
      split
      · exact (stripSubexp_sound h).bind fun nfa₁ _ h₁ => yields_some.mpr h₁
      · exact yields_some.mpr h
  · exact yields_some.mpr h

/-- The parentheses that get the number of the group are no anchors. -/
theorem lowerSubexp_sound (h : nfa.Sound words pending n) (node : Nat) :
    Sounds words pending n (lowerSubexp okTree nfa node) := by
  refine yields_bind fun tree _ => ?_
  dsimp only
  split
  · exact yields_some.mpr h
  refine ((h.create (by simp)).and create_types).bind fun q₁ _ h₁ => ?_
  refine ((h₁.1.create (by simp)).and create_types).bind fun q₂ _ h₂ => ?_
  have hbody : Yields (fun q => q.1.Sound words pending n ∧
      ∀ i t, HasType q₂.1.tree.trees i t → HasType q.1.tree.trees i t)
      (if tree.left.isSome then q₂.1.create okTree tree.left q₂.2 .concat
        else some (q₂.1, q₂.2)) := by
    split
    · exact ((h₂.1.create (by simp)).and create_types).mono fun q hq => ⟨hq.1, hq.2.1⟩
    · exact yields_some.mpr ⟨h₂.1, fun _ _ ht => ht⟩
  refine hbody.bind fun q₃ _ h₃ => ?_
  refine ((h₃.1.create (by simp)).and create_types).bind fun q₄ _ h₄ => ?_
  split
  · next op cls tree1 new hop hcls _ _ =>
    have hopType : HasType q₄.1.tree.trees op .opOpenSubexp :=
      h₄.2.1 _ _ (h₃.2 _ _ (h₂.2.1 _ _ (h₁.2.2 op hop)))
    have hclsType : HasType q₄.1.tree.trees cls .opCloseSubexp :=
      h₄.2.1 _ _ (h₃.2 _ _ (h₂.2.2 cls hcls))
    refine Yields.bind (P := fun nfa => nfa.Sound words pending n ∧
        HasType nfa.tree.trees cls .opCloseSubexp)
      ((h₄.1.modify fun tree' htree' _ => ?_).and (modify_types hclsType ?_)) fun nfa₅ _ h₅ => ?_
    · obtain ⟨_, hread, htype⟩ := hopType
      obtain rfl := Option.some.inj (htree'.symm.trans hread)
      exact noWordAnchor (by simp [htype])
    · exact fun _ => rfl
    · refine Yields.bind (P := Nfa.Sound words pending n) (h₅.1.modify fun tree' htree' _ => ?_)
        fun nfa₆ _ h₆ => yields_some.mpr h₆
      obtain ⟨_, hread, htype⟩ := h₅.2
      obtain rfl := Option.some.inj (htree'.symm.trans hread)
      exact noWordAnchor (by simp [htype])
  · exact yields_some.mpr h₄.1

theorem lowerChild_sound (h : nfa.Sound words pending n) {put : BinTree → Option Nat → BinTree}
    (hput : ∀ tree child, (put tree child).token = tree.token) (node : Nat) (child : Option Nat)
    (err : RegErrcode) : Sounds words pending n (lowerChild okTree put node child nfa err) := by
  cases child with
  | none => exact yields_some.mpr h
  | some child =>
    refine yields_bind fun tree _ => ?_
    split
    · refine (lowerSubexp_sound h child).bind fun q _ hq => ?_
      refine Yields.bind (P := Nfa.Sound words pending n)
        (hq.modify fun tree' _ htoken => ?_) fun nfa₁ _ h₁ => ?_
      · rwa [hput]
      · exact yields_bind fun trees htrees => yields_some.mpr (h₁.setParent htrees)
    · exact yields_some.mpr h

theorem visits_lowerSubexps : Visits words pending n (lowerSubexps okTree) := by
  intro node nfa h
  refine yields_bind fun tree _ => ?_
  refine Yields.bind (lowerChild_sound h ?_ node tree.left _) fun q _ hq =>
    lowerChild_sound hq ?_ node tree.right _
  · exact fun _ _ => rfl
  · exact fun _ _ => rfl

/-! ## Nodes -/

theorem Nfa.Sound.tick (h : nfa.Sound words pending n) :
    Nfa.Sound words pending n { nfa with graph := nfa.graph.tick } :=
  h.same rfl rfl rfl rfl rfl

theorem Nfa.Sound.setEdests (h : nfa.Sound words pending n) (idx : Int) (set : ReNodeSet) :
    Yields (Nfa.Sound words pending n) (nfa.setEdests idx set) :=
  yields_bind fun _ hedests => yields_some.mpr (h.same rfl rfl rfl (length_setAt hedests) rfl)

theorem Nfa.Sound.setNext (h : nfa.Sound words pending n) (idx next : Int) :
    Yields (Nfa.Sound words pending n) (nfa.setNext idx next) :=
  yields_bind fun _ _ => yields_some.mpr (h.same rfl rfl rfl rfl rfl)

theorem Nfa.Sound.setConstraint (h : nfa.Sound words pending n) {idx : Int} {constraint : Nat}
    (hconstraint : words = false → Wordless constraint) :
    Yields (Nfa.Sound words pending n) (nfa.setConstraint idx constraint) := by
  refine yields_bind fun node _ => yields_bind fun nodes hnodes => yields_some.mpr ?_
  have hlen := length_setAt hnodes
  refine ⟨h.trees, fun hwords node' hnode' => ?_, h.oprs.trans hlen.symm, h.edests.trans hlen.symm,
    ?_, h.grown.trans hlen.ge⟩
  · obtain rfl | hold := mem_setAt hnodes hnode'
    · exact hconstraint hwords
    · exact h.nodes hwords node' hold
  · dsimp only
    rw [hlen]
    exact h.closures

theorem Nfa.Sound.addNode (h : nfa.Sound words pending n) (type : Regex.TokenType) (opr : Nat)
    (duplicated : Bool) : (nfa.addNode ok fresh type opr duplicated).1.Sound words pending n := by
  unfold Nfa.addNode
  split
  · exact h.tick
  · refine ⟨h.trees, fun hwords node hnode => ?_, ?_, ?_, fun i set hset => ?_, ?_⟩
    · obtain hnode | hnode := List.mem_append.mp hnode
      · exact h.nodes hwords node hnode
      · rw [List.mem_singleton.mp hnode]
        exact wordless_zero
    · simp [h.oprs]
    · simpa using h.edests
    · obtain ⟨hi, hget⟩ := getAt_eq_some.mp hset
      rw [List.getElem?_append] at hget
      split at hget
      · obtain hpend | hzero | hwithin := h.closures i set (getAt_eq_some.mpr ⟨hi, hget⟩)
        · exact .inl hpend
        · exact .inr (.inl hzero)
        · exact .inr (.inr (hwithin.mono (by simp)))
      · obtain rfl : reNodeSetInitEmpty = set := by
          have hmem := List.mem_of_getElem? hget
          exact (List.mem_singleton.mp hmem).symm
        exact .inr (.inl rfl)
    · simpa using Nat.le_succ_of_le h.grown

/-! ## calc_first, calc_next, link_nfa_nodes -/

theorem visits_calcFirst : Visits words pending n (calcFirst ok fresh) := by
  intro node nfa h
  refine yields_bind fun tree htree => ?_
  split
  · exact yields_bind fun left _ => yields_some.mpr (h.same rfl rfl rfl rfl rfl)
  · refine yields_bind fun type htype => ?_
    have hadd : ∀ first nodeIdx, Nfa.Sound words pending n
        { (nfa.addNode ok fresh type tree.token.opr tree.token.duplicated).1 with
          first := first, nodeIdx := nodeIdx } := fun _ _ =>
      (h.addNode type _ _).same rfl rfl rfl rfl rfl
    dsimp only
    split
    · exact yields_some.mpr (hadd _ _)
    split
    · next hanchor =>
      have htoken : tree.token.type = .anchor := by
        subst hanchor
        revert htype
        cases tree.token.type <;> simp [nodeType]
      refine Yields.bind ((hadd _ _).setConstraint fun hwords => ?_) fun nfa₁ _ h₁ =>
        yields_some.mpr h₁
      exact (h.trees hwords).get htree htoken
    · exact yields_some.mpr (hadd _ _)

theorem Nfa.Sound.putNext (h : nfa.Sound words pending n) (next node : Option Nat) :
    (nfa.putNext next node).Sound words pending n := by
  cases node with
  | none => exact h
  | some node => exact h.same rfl rfl rfl rfl rfl

theorem visits_calcNext : Visits words pending n calcNext := by
  intro node nfa h
  refine yields_bind fun tree _ => ?_
  split
  · exact yields_bind fun left _ => yields_some.mpr (h.putNext (some node) (some left))
  · exact yields_bind fun left _ => yields_bind fun right _ =>
      yields_some.mpr ((h.putNext _ (some left)).putNext _ (some right))
  · exact yields_some.mpr ((h.putNext _ _).putNext _ _)

theorem Nfa.Sound.initEdests (h : nfa.Sound words pending n) (idx : Int)
    (r : Option (ReNodeSet × RegErrcode)) : Sounds words pending n (nfa.initEdests idx r) :=
  yields_bind fun _ _ => Yields.bind (h.tick.setEdests idx _) fun _ _ h₁ => yields_some.mpr h₁

theorem visits_linkNfaNodes : Visits words pending n (linkNfaNodes ok) := by
  intro node nfa h
  refine yields_bind fun tree _ => ?_
  have hlink : Sounds words pending n (do
      let left ← nfa.branchIdx node tree.left
      let right ← nfa.branchIdx node tree.right
      let set ← getAt nfa.graph.edests (nfa.nodeIdx node)
      nfa.initEdests (nfa.nodeIdx node) (reNodeSetInit2 (ok nfa.graph.calls) set left right)) :=
    yields_bind fun _ _ => yields_bind fun _ _ => yields_bind fun _ _ => h.initEdests _ _
  have hone : Sounds words pending n (do
      nfa.initEdests (nfa.nodeIdx node)
        (reNodeSetInit1 (ok nfa.graph.calls) (← nfa.nextIdx node))) :=
    yields_bind fun _ _ => h.initEdests _ _
  dsimp only
  split
  · exact yields_some.mpr h
  · exact yields_some.mpr h
  · exact hlink
  · exact hlink
  · exact hone
  · exact hone
  · exact hone
  · exact yields_bind fun next _ => (h.setNext _ next).bind fun _ _ h₁ => h₁.initEdests _ _
  · exact yields_bind fun next _ => (h.setNext _ next).bind fun _ _ h₁ => yields_some.mpr h₁

end Librecompat.Regcomp
