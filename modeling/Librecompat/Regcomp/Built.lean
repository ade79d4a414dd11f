/-
  The automaton that `analyze` makes of a tree, in front of `calc_eclosure`.

  The tree loses its groups, its nodes become those of the automaton, and these lead where the tree
  says (`Built`).
-/
import Librecompat.Regcomp.Compile
import Librecompat.Regcomp.Linking
import Librecompat.Regcomp.Locations
import Librecompat.Regcomp.Overflow
import Librecompat.Regcomp.Plain
import Librecompat.Regcomp.Trees

namespace Librecompat.Regcomp

open Librecompat.Lib Librecompat.NodeSet Librecompat.RegTree
open Librecompat.Regex (RegErrcode REG_NOERROR REG_ESPACE)

variable {okTree ok : Nat → Bool} {fresh : Nat → Int} {fuel : Nat} {nfa nfa' : Nfa} {T T' t : Tree}

/-! ## Before there are nodes -/

/-- No node of the tree has become a node of the automaton. -/
structure Blank (nfa : Nfa) : Prop where
  next : nfa.next = fun _ => none
  nodes : nfa.graph.nodes = []
  edests : nfa.graph.edests = []
  eclosures : nfa.graph.eclosures = []
  oprs : nfa.oprs = []
  nexts : nfa.nexts = []

/-- A step that changes the tree and the map of the groups. -/
theorem Blank.same (h : Blank nfa) (hnext : nfa'.next = nfa.next)
    (hnodes : nfa'.graph.nodes = nfa.graph.nodes) (hedests : nfa'.graph.edests = nfa.graph.edests)
    (heclosures : nfa'.graph.eclosures = nfa.graph.eclosures) (hoprs : nfa'.oprs = nfa.oprs)
    (hnexts : nfa'.nexts = nfa.nexts) : Blank nfa' :=
  ⟨hnext.trans h.next, hnodes.trans h.nodes, hedests.trans h.edests,
    heclosures.trans h.eclosures, hoprs.trans h.oprs, hnexts.trans h.nexts⟩

theorem Blank.tree (h : Blank nfa) (tree : RegTree.Dfa) : Blank { nfa with tree := tree } :=
  h.same rfl rfl rfl rfl rfl rfl

theorem Blank.modify (h : Blank nfa) (node : Nat) (f : BinTree → BinTree) :
    Yields Blank (nfa.modify node f) :=
  yields_bind fun tree _ => yields_some.mpr (h.tree tree)

theorem Blank.create (h : Blank nfa) (left right : Option Nat) (type : TokenType) :
    Yields (fun q => Blank q.1) (nfa.create okTree left right type) :=
  yields_bind fun q _ => yields_some.mpr (h.tree q.1)

theorem Blank.optimizeSubexps (node : Nat) (nfa : Nfa) (h : Blank nfa) :
    Yields (fun q => Blank q.1 ∧ q.2 = REG_NOERROR) (optimizeSubexps node nfa) := by
  refine yields_bind fun tree _ => ?_
  split
  · refine yields_bind fun idx _ => (h.modify node _).bind fun nfa₁ _ h₁ => ?_
    exact yields_some.mpr ⟨h₁.same rfl rfl rfl rfl rfl rfl, rfl⟩
  · split
    · exact yields_some.mpr ⟨h, rfl⟩
    · refine yields_bind fun leftTree _ => ?_
      split
      · refine Yields.bind (P := Blank) ?_ fun nfa₁ _ h₁ => yields_some.mpr ⟨h₁, rfl⟩
        refine (h.modify node _).bind fun nfa₁ _ h₁ => yields_bind fun trees _ =>
          yields_bind fun map _ => yields_bind fun outer _ => ?_
        dsimp only
        split
        · exact yields_some.mpr (h₁.same rfl rfl rfl rfl rfl rfl)
        · exact yields_none
      · exact yields_some.mpr ⟨h, rfl⟩
  · exact yields_some.mpr ⟨h, rfl⟩

theorem Blank.lowerSubexp (h : Blank nfa) (node : Nat) :
    Yields (fun q => Blank q.1) (lowerSubexp okTree nfa node) := by
  refine yields_bind fun tree _ => ?_
  dsimp only
  split
  · exact yields_some.mpr h
  refine (h.create _ _ _).bind fun q₁ _ h₁ => (h₁.create _ _ _).bind fun q₂ _ h₂ => ?_
  refine Yields.bind (P := fun q : Nfa × Option Nat => Blank q.1) ?_ fun q₃ _ h₃ =>
    (h₃.create _ _ _).bind fun q₄ _ h₄ => ?_
  · split
    · exact h₂.create _ _ _
    · exact yields_some.mpr h₂
  · split
    · exact (h₄.modify _ _).bind fun nfa₅ _ h₅ => (h₅.modify _ _).bind fun nfa₆ _ h₆ =>
        yields_some.mpr h₆
    · exact yields_some.mpr h₄

theorem Blank.lowerChild (h : Blank nfa) (put : BinTree → Option Nat → BinTree) (node : Nat)
    (child : Option Nat) (err : RegErrcode) :
    Yields (fun q => Blank q.1) (lowerChild okTree put node child nfa err) := by
  cases child with
  | none => exact yields_some.mpr h
  | some child =>
    refine yields_bind fun tree _ => ?_
    split
    · exact (h.lowerSubexp child).bind fun q _ hq => (hq.modify _ _).bind fun nfa₁ _ h₁ =>
        yields_bind fun trees _ => yields_some.mpr (h₁.tree _)
    · exact yields_some.mpr h

theorem Blank.lowerSubexps (node : Nat) (nfa : Nfa) (h : Blank nfa) :
    Yields (fun q => Blank q.1) (lowerSubexps okTree node nfa) :=
  yields_bind fun tree _ => (h.lowerChild _ node tree.left _).bind fun _ _ hq =>
    hq.lowerChild _ node tree.right _

/-! ## The tree without groups -/

theorem preRewritten_refl {S : Tree → Tree → Prop} (h : ∀ t, S t t) (t : Tree) :
    PreRewritten S t t := by
  induction t with
  | nil => exact .nil
  | node a token l r ihl ihr => exact .node a (h _) ihl ihr

/-- A walk reports no error if the function never does. -/
theorem yields_preorder_noerror {M : Type} {trees : M → List BinTree} {fn : Visitor M}
    {I : M → Prop} (hfn : ∀ node m, I m → Yields (fun q => I q.1 ∧ q.2 = REG_NOERROR) (fn node m))
    {m : M} (h : I m) (root : Nat) :
    Yields (fun q => I q.1 ∧ q.2 = REG_NOERROR) (Visitor.preorder trees fn fuel m root) := by
  refine yields_tryLoop (I := fun s : M × Visitor.PreAt => I s.1) (fun s hs => ?_) h
  unfold Visitor.prePass
  split
  · refine (hfn _ _ hs).bind fun q _ hq => ?_
    rw [if_neg (not_not.mpr hq.2)]
    refine yields_bind fun tree _ => ?_
    split
    · exact yields_some.mpr hq.1
    · exact yields_some.mpr hq.1
  · refine yields_bind fun tree _ => ?_
    split
    · split
      · exact yields_some.mpr ⟨hs, rfl⟩
      · exact yields_some.mpr hs
    · exact yields_bind fun right _ => yields_some.mpr hs

/-- Groups that are all of a group are taken away. -/
theorem withSubexpMap_rewrites {root : Nat} (h : Blank nfa) (hT : Stands nfa.tree (some root) T) :
    Yields (fun q => q.2 = REG_NOERROR → Blank q.1 ∧ ∃ T', PreRewritten Stripped T T' ∧
        Stands q.1.tree (some root) T') (withSubexpMap ok fuel root nfa) := by
  unfold withSubexpMap
  split
  · exact yields_some.mpr fun _ => ⟨h.same rfl rfl rfl rfl rfl rfl, T,
      preRewritten_refl .keep T, hT⟩
  · let nfa₁ : Nfa := { nfa with
      graph := nfa.graph.tick
      subexpMap := some (List.range nfa.reNsub) }
    have h₁ : Blank nfa₁ := h.same rfl rfl rfl rfl rfl rfl
    have hwalk : Yields (fun q => q.2 = REG_NOERROR → ∃ T', PreRewritten Stripped T T' ∧
        Rewrites nfa.trees q.1.trees none T T')
        (Visitor.preorder Nfa.trees optimizeSubexps fuel nfa₁ root) :=
      yields_preorder_rewrites optimizeSubexps_rewrites (fun _ _ => Stripped.size_le) hT.root
        hT.linked hT.nodup
    refine Yields.bind (hwalk.and (yields_preorder_noerror Blank.optimizeSubexps h₁ root))
      fun q _ hq => ?_
    refine yields_some.mpr fun _ => ?_
    obtain ⟨T', hT', hrew⟩ := hq.1 hq.2.2
    refine ⟨?_, T', hT', hT'.root.trans hT.root, ?_, hrew.nodup⟩
    · split
      · exact hq.2.1.same rfl rfl rfl rfl rfl rfl
      · exact hq.2.1
    · split
      · exact hrew.linked
      · exact hrew.linked

/-- Groups become parentheses. -/
theorem lowerSubexps_lowers (hok : ∀ k, okTree k = true) {root : Nat} (h : Blank nfa)
    (hT : Stands nfa.tree (some root) T) :
    Yields (fun q => q.2 = REG_NOERROR → Blank q.1 ∧ ∃ T', PostRewritten Lowers T T' ∧
        Stands q.1.tree (some root) T')
      (Visitor.postorder Nfa.trees (lowerSubexps okTree) fuel nfa root) := by
  have hwalk : Yields (fun q => q.2 = REG_NOERROR → ∃ T', PostRewritten Lowers T T' ∧
      Rewrites nfa.trees q.1.trees none T T')
      (Visitor.postorder Nfa.trees (lowerSubexps okTree) fuel nfa root) :=
    yields_postorder_rewrites (lowerSubexps_rewrites hok) hT.root hT.linked hT.nodup
  refine (hwalk.and (yields_visitPostorder Blank.lowerSubexps h root)).mono fun q hq herr => ?_
  obtain ⟨T', hT', hrew⟩ := hq.1 herr
  exact ⟨hq.2, T', hT', hT'.root.trans hT.root, hrew.linked, hrew.nodup⟩

/-! ## The walks that keep the tree -/

theorem calcFirst_tree (node : Nat) (nfa : Nfa) :
    Yields (fun q => q.1.tree = nfa.tree) (calcFirst ok fresh node nfa) := by
  have hadd : ∀ type opr duplicated,
      (nfa.addNode ok fresh type opr duplicated).1.tree = nfa.tree := by
    intro type opr duplicated
    unfold Nfa.addNode
    split
    · rfl
    · rfl
  refine yields_bind fun tree _ => ?_
  split
  · exact yields_bind fun left _ => yields_some.mpr rfl
  · refine yields_bind fun type _ => ?_
    dsimp only
    split
    · exact yields_some.mpr (hadd _ _ _)
    split
    · exact yields_bind fun nfa₁ hnfa₁ => yields_some.mpr <| by
        obtain ⟨token, -, hnfa₁⟩ := Option.bind_eq_some_iff.mp hnfa₁
        obtain ⟨nodes, -, hnfa₁⟩ := Option.bind_eq_some_iff.mp hnfa₁
        rw [← Option.some.inj hnfa₁]
        exact hadd _ _ _
    · exact yields_some.mpr (hadd _ _ _)

theorem putNext_tree (k node : Option Nat) : (nfa.putNext k node).tree = nfa.tree := by
  rw [putNext_same]

theorem calcNext_tree (node : Nat) (nfa : Nfa) :
    Yields (fun q => q.1.tree = nfa.tree) (calcNext node nfa) := by
  refine yields_bind fun tree _ => ?_
  split
  · exact yields_bind fun left _ => yields_some.mpr (putNext_tree _ _)
  · exact yields_bind fun left _ => yields_bind fun right _ =>
      yields_some.mpr ((putNext_tree _ _).trans (putNext_tree _ _))
  · exact yields_some.mpr ((putNext_tree _ _).trans (putNext_tree _ _))

theorem initEdests_tree (idx : Int) (r : Option (ReNodeSet × RegErrcode)) :
    Yields (fun q => q.1.tree = nfa.tree) (nfa.initEdests idx r) :=
  yields_bind fun _ _ => Yields.bind (P := fun nfa' : Nfa => nfa'.tree = nfa.tree)
    (yields_bind fun _ _ => yields_some.mpr rfl) fun _ _ h => yields_some.mpr h

theorem linkNfaNodes_tree (node : Nat) (nfa : Nfa) :
    Yields (fun q => q.1.tree = nfa.tree) (linkNfaNodes ok node nfa) := by
  have hnext : ∀ idx next, Yields (fun nfa' => nfa'.tree = nfa.tree) (nfa.setNext idx next) :=
    fun idx next => yields_bind fun nexts _ => yields_some.mpr rfl
  refine yields_bind fun tree _ => ?_
  dsimp only
  split
  · exact yields_some.mpr rfl
  · exact yields_some.mpr rfl
  · exact yields_bind fun _ _ => yields_bind fun _ _ => yields_bind fun _ _ => initEdests_tree _ _
  · exact yields_bind fun _ _ => yields_bind fun _ _ => yields_bind fun _ _ => initEdests_tree _ _
  · exact yields_bind fun _ _ => initEdests_tree _ _
  · exact yields_bind fun _ _ => initEdests_tree _ _
  · exact yields_bind fun _ _ => initEdests_tree _ _
  · exact yields_bind fun next _ => (hnext _ next).bind fun nfa₁ _ h₁ =>
      (initEdests_tree _ _).mono fun q hq => hq.trans h₁
  · exact yields_bind fun next _ => (hnext _ next).bind fun nfa₁ _ h₁ => yields_some.mpr h₁

/-! ## The automaton of a tree -/

/-- The automaton has the nodes of the tree, and they lead where the tree says. -/
structure Built (nfa : Nfa) (T : Tree) : Prop where
  nodes : nfa.graph.nodes = (emits T).map fun p => tokenNode p.2
  oprs : nfa.oprs = (emits T).map fun p => p.2.opr
  types : ∀ p ∈ emits T, (nodeType p.2.type).isSome
  nodeIdx : ∀ (k : Nat) p, (emits T)[k]? = some p → nfa.nodeIdx p.1 = (k : Int)
  starting : Starting nfa.first T
  arcs : Arcs nfa T none
  edests : nfa.graph.edests.length = (emits T).length
  nexts : nfa.nexts.length = (emits T).length
  eclosures : nfa.graph.eclosures = (emits T).map fun _ => reNodeSetInitEmpty

/-! ## What a node leads to -/

theorem firstNode_emits {t : Tree} (hfit : t.Fitted) (hne : t ≠ .nil) :
    ∃ b token, firstNode t = some b ∧ (b, token) ∈ emits t := by
  induction t with
  | nil => exact absurd rfl hne
  | node a token l r ihl ihr =>
    by_cases htype : token.type = .concat
    · unfold Tree.Fitted at hfit
      simp only [htype] at hfit
      obtain ⟨b, token', hb, hmem⟩ := ihl hfit.2.1 hfit.1.1
      refine ⟨b, token', by rw [firstNode, if_pos htype, hb], ?_⟩
      rw [emits]
      exact List.mem_append_left _ (List.mem_append_left _ hmem)
    · refine ⟨a, token, by rw [firstNode, if_neg htype], ?_⟩
      rw [emits, if_neg htype]
      exact List.mem_append_right _ List.mem_cons_self

theorem branch_of_ne {t : Tree} (hne : t ≠ .nil) (k : Option Nat) : branch t k = firstNode t := by
  cases t with
  | nil => exact absurd rfl hne
  | node a token l r => rfl

/-- Where a tree is entered is a node of it, or what comes behind it. -/
theorem branch_emits {t : Tree} (hfit : t.Fitted) (k : Nat) :
    ∃ b, branch t (some k) = some b ∧ (b = k ∨ ∃ token, (b, token) ∈ emits t) := by
  by_cases hne : t = .nil
  · rw [hne]
    exact ⟨k, rfl, .inl rfl⟩
  · obtain ⟨b, token, hb, hmem⟩ := firstNode_emits hfit hne
    exact ⟨b, by rw [branch_of_ne hne, hb], .inr ⟨token, hmem⟩⟩

/-- Where a node leads, there is a node of the automaton. -/
def Targeted (nfa : Nfa) (T : Tree) (p : Nat × Token) : Prop :=
  ∃ l r k, Arc nfa p.1 p.2 l r k ∧
    ∀ d, (d ∈ dests p.2 l r k ∨ d ∈ follow p.2 k) → ∃ x token, d = some x ∧ (x, token) ∈ emits T

theorem leftNext_emits {a k : Nat} {token : Token} {l r : Tree}
    (hfit : (RegTree.Tree.node a token l r).Fitted)
    (hsub : ∀ p ∈ emits (.node a token l r), p ∈ emits T) (hk : ∃ token, (k, token) ∈ emits T) :
    ∃ x, leftNext a token r (some k) = some x ∧ ∃ token, (x, token) ∈ emits T := by
  rw [leftNext]
  split
  · next hstar =>
    refine ⟨a, rfl, token, hsub _ (List.mem_append_right _ ?_)⟩
    simp [hstar]
  · next hconcat =>
    unfold Tree.Fitted at hfit
    simp only [hconcat] at hfit
    obtain ⟨b, token', hb, hmem⟩ := firstNode_emits hfit.2.2 hfit.1.2
    exact ⟨b, hb, token', hsub _ (List.mem_append_left _ (List.mem_append_right _ hmem))⟩
  · exact ⟨k, rfl, hk⟩

theorem Arcs.targeted {k : Nat} (harcs : Arcs nfa t (some k)) (hfit : t.Fitted)
    (hsub : ∀ p ∈ emits t, p ∈ emits T) (hk : ∃ token, (k, token) ∈ emits T) :
    ∀ p ∈ emits t, Targeted nfa T p := by
  induction t generalizing k with
  | nil => exact fun p hp => absurd hp List.not_mem_nil
  | node a token l r ihl ihr =>
    obtain ⟨harc, hal, har⟩ := harcs
    obtain ⟨hfitl, hfitr⟩ := Fitted.children hfit
    have hl : ∀ p ∈ emits l, p ∈ emits T := fun p hp =>
      hsub p (List.mem_append_left _ (List.mem_append_left _ hp))
    have hr : ∀ p ∈ emits r, p ∈ emits T := fun p hp =>
      hsub p (List.mem_append_left _ (List.mem_append_right _ hp))
    have hbranch : ∀ {s : Tree}, s.Fitted → (∀ p ∈ emits s, p ∈ emits T) →
        ∃ x token, branch s (some k) = some x ∧ (x, token) ∈ emits T := by
      intro s hs hsub
      obtain ⟨b, hb, rfl | ⟨token', hmem⟩⟩ := branch_emits hs k
      · exact ⟨b, _, hb, hk.choose_spec⟩
      · exact ⟨b, token', hb, hsub _ hmem⟩
    intro p hp
    obtain hp | hp := List.mem_append.mp hp
    · obtain hp | hp := List.mem_append.mp hp
      · obtain ⟨x, hx, hmem⟩ := leftNext_emits hfit hsub hk
        exact ihl (hx ▸ hal) hfitl hl hmem p hp
      · exact ihr har hfitr hr hk p hp
    · split at hp
      · cases hp
      next hne =>
      obtain rfl := List.mem_singleton.mp hp
      refine ⟨l, r, some k, harc hne, fun d hd => ?_⟩
      obtain hd | hd := hd
      · dsimp only at hd
        unfold dests at hd
        split at hd
        · simp only [List.mem_cons, List.not_mem_nil, or_false] at hd
          obtain rfl | rfl := hd
          · exact hbranch hfitl hl
          · exact hbranch hfitr hr
        · simp only [List.mem_cons, List.not_mem_nil, or_false] at hd
          obtain rfl | rfl := hd
          · exact hbranch hfitl hl
          · exact hbranch hfitr hr
        all_goals first
          | exact absurd hd List.not_mem_nil
          | exact ⟨k, hk.choose, List.mem_singleton.mp hd, hk.choose_spec⟩
      · have hdk : d = some k := by
          unfold follow at hd
          split at hd
          all_goals first
            | exact absurd hd (Option.not_mem_none _)
            | exact (Option.some.inj hd).symm
        exact ⟨k, hk.choose, hdk, hk.choose_spec⟩

/-- In the automaton of a whole pattern all nodes lead to nodes. -/
theorem Built.targeted (h : Built nfa T) (hrooted : Rooted t T) (hfit : T.Fitted) :
    ∀ p ∈ emits T, Targeted nfa T p := by
  have hend : ∀ {e : Nat} {k : Option Nat}, Arcs nfa (.node e { type := .endOfRe } .nil .nil) k →
      Targeted nfa T (e, { type := .endOfRe }) := by
    intro e k harcs
    exact ⟨.nil, .nil, k, harcs.1 (by simp), fun d hd => by simp [dests, follow] at hd⟩
  have harcs := h.arcs
  intro p hp
  cases hrooted with
  | empty a =>
    obtain rfl : p = (a, { type := .endOfRe }) := by simpa [emits] using hp
    exact hend harcs
  | full a e ht hne =>
    have hmem : (e, ({ type := .endOfRe } : Token)) ∈ emits (.node a { type := .concat } t
        (.node e { type := .endOfRe } .nil .nil)) := by simp [emits]
    obtain hp | hp := List.mem_append.mp hp
    · obtain hp | hp := List.mem_append.mp hp
      · exact Arcs.targeted harcs.2.1 hfit.2.1
          (fun p hp => List.mem_append_left _ (List.mem_append_left _ hp)) ⟨_, hmem⟩ p hp
      · obtain rfl : p = (e, { type := .endOfRe }) := by simpa [emits] using hp
        exact hend harcs.2.2
    · simp at hp

/-! ## The graph of the nodes -/

theorem types_emits {P : TokenType → Prop} (h : T.Types P) : ∀ p ∈ emits T, P p.2.type := by
  induction T with
  | nil => exact fun p hp => absurd hp List.not_mem_nil
  | node a token l r ihl ihr =>
    intro p hp
    obtain hp | hp := List.mem_append.mp hp
    · exact (List.mem_append.mp hp).elim (ihl h.2.1 p) (ihr h.2.2 p)
    · split at hp
      · cases hp
      · rw [List.mem_singleton.mp hp]
        exact h.1

theorem Built.plain (h : Built nfa T) (hT : T.Types (· ≠ .anchor)) : nfa.Plain := by
  intro token htoken
  rw [h.nodes] at htoken
  obtain ⟨p, hp, rfl⟩ := List.mem_map.mp htoken
  exact if_neg (types_emits hT p hp)

/-- A node has its index. -/
theorem Built.index (h : Built nfa T) {p : Nat × Token} (hp : p ∈ emits T) :
    ∃ k : Nat, nfa.nodeIdx p.1 = (k : Int) ∧ k < nfa.graph.nodes.length ∧
      nfa.graph.nodes[k]? = some (tokenNode p.2) := by
  obtain ⟨k, hk, rfl⟩ := List.getElem_of_mem hp
  have hget := List.getElem?_eq_getElem hk
  have hnode : nfa.graph.nodes[k]? = some (tokenNode (emits T)[k].2) := by
    rw [h.nodes, List.getElem?_map, hget]
    rfl
  exact ⟨k, h.nodeIdx k _ hget, (List.getElem?_eq_some_iff.mp hnode).1, hnode⟩

theorem Built.length_nodes (h : Built nfa T) : nfa.graph.nodes.length = (emits T).length := by
  rw [h.nodes, List.length_map]

/-- The destinations are sets of nodes. -/
theorem Built.edests_within (h : Built nfa T) (htargets : ∀ p ∈ emits T, Targeted nfa T p)
    {set : ReNodeSet} (hset : set ∈ nfa.graph.edests) :
    ∃ xs, Holds set xs ∧ ∀ x ∈ xs, 0 ≤ x ∧ x < nfa.graph.nodes.length := by
  obtain ⟨k, hk, rfl⟩ := List.getElem_of_mem hset
  have hlt : k < (emits T).length := h.edests ▸ hk
  have hidx := h.nodeIdx k _ (List.getElem?_eq_getElem hlt)
  obtain ⟨l, r, j, ⟨⟨set, xs, hset, hxs, hmem⟩, -⟩, hall⟩ := htargets _ (List.getElem_mem hlt)
  rw [hidx, getAt_natCast, List.getElem?_eq_getElem hk] at hset
  obtain rfl := Option.some.inj hset
  refine ⟨xs, hxs, fun x hx => ?_⟩
  obtain ⟨d, hd, hx⟩ := (hmem x).mp hx
  obtain ⟨y, token, rfl, hy⟩ := hall d (.inl hd)
  obtain ⟨i, hi, hilt, -⟩ := h.index hy
  obtain rfl := (Option.some.inj hx).symm
  dsimp only at hi ⊢
  rw [hi]
  exact ⟨Int.natCast_nonneg i, Int.ofNat_lt.mpr hilt⟩

theorem Built.graph (h : Built nfa T) (htargets : ∀ p ∈ emits T, Targeted nfa T p)
    (hplain : nfa.Plain) : Eclosure.Graph { nfa.graph with
      inveclosures := nfa.graph.nodes.map fun _ => reNodeSetInitEmpty } where
  lengthEdests := by rw [h.edests, h.length_nodes]
  lengthEclosures := by rw [h.eclosures, List.length_map, h.length_nodes]
  lengthInveclosures := List.length_map _
  edests := fun _ => h.edests_within htargets
  unconstrained := hplain

/-! ## The walks of analyze -/

/-- The numbers of the nodes are the places where they stand. -/
theorem indices_eq_range (hidx : ∀ (k : Nat) p, (emits T)[k]? = some p → nfa.nodeIdx p.1 = (k : Int)) :
    indices nfa T = (List.range (emits T).length).map fun (k : Nat) => (k : Int) := by
  refine List.ext_getElem? fun k => ?_
  rw [indices, List.getElem?_map, List.getElem?_map]
  cases hk : (emits T)[k]? with
  | none =>
    rw [List.getElem?_eq_none (by simpa using List.getElem?_eq_none_iff.mp hk)]
    rfl
  | some p =>
    rw [List.getElem?_range (List.getElem?_eq_some_iff.mp hk).1, Option.map_some, Option.map_some,
      hidx k p hk]

/-- The three walks behind those that change the tree. -/
theorem walks_built {root : Nat} (h : Blank nfa) (hT : Stands nfa.tree (some root) T)
    (hfit : T.Fitted) {rest : Nfa → Option (Nfa × RegErrcode)} {Q : Nfa → Prop}
    (hrest : ∀ nfa', Built nfa' T → nfa'.first root = firstNode T →
      Yields (fun q => q.2 = REG_NOERROR → Q q.1) (rest nfa')) :
    Yields (fun q => q.2 = REG_NOERROR → Q q.1)
      (andThen (Visitor.postorder Nfa.trees (calcFirst ok fresh) fuel nfa root) fun nfa =>
        andThen (Visitor.preorder Nfa.trees calcNext fuel nfa root) fun nfa =>
        andThen (Visitor.preorder Nfa.trees (linkNfaNodes ok) fuel nfa root) rest) := by
  have hkeeps : ∀ {fn : Visitor Nfa}, (∀ node nfa, Yields (fun q => q.1.tree = nfa.tree) (fn node nfa)) →
      ∀ b m m', fn b m = some (m', REG_NOERROR) → Nfa.trees m' = Nfa.trees m :=
    fun hfn b m m' hcall => congrArg RegTree.Dfa.trees (hfn b m _ hcall)
  refine yields_andThen (I := fun nfa₁ => Numbers nfa nfa₁ T) (J := Q)
    (yields_postorder_of hT.root hT.linked hT.nodup (hkeeps calcFirst_tree)
      (calcFirst_walk hT.linked hT.nodup)) fun nfa₁ h₁ => ?_
  have hlinked₁ : Linked nfa₁.trees none T := by
    rw [Nfa.trees, h₁.adds.tree]
    exact hT.linked
  refine yields_andThen (I := fun nfa₂ => Nexts nfa₁ nfa₂ T none) (J := Q)
    (yields_preorder_of hT.root hlinked₁ hT.nodup (hkeeps calcNext_tree)
      (calcNext_walk hlinked₁ hT.nodup hfit h₁.starting fun a _ => ?_)) fun nfa₂ h₂ => ?_
  · rw [h₁.adds.next, h.next]
  have hlinked₂ : Linked nfa₂.trees none T := by
    rw [h₂.same]
    exact hlinked₁
  have hidx₂ : ∀ (k : Nat) p, (emits T)[k]? = some p → nfa₂.nodeIdx p.1 = (k : Int) := by
    intro k p hp
    rw [h₂.same, h₁.nodeIdx k p hp, h.nodes, List.length_nil, Nat.zero_add]
  have hedests₂ : nfa₂.graph.edests = (emits T).map fun _ => reNodeSetInitEmpty := by
    rw [h₂.same, h₁.adds.edests, h.edests, List.nil_append]
  have hlinkable : Linkable nfa₂ none T none := by
    refine ⟨hlinked₂, ?_, h₂.continues, ?_, fun i hi => ?_⟩
    · rw [h₂.same]
      exact h₁.starting
    · rw [indices_eq_range hidx₂]
      exact List.nodup_range.map fun i j hij => by omega
    · rw [indices_eq_range hidx₂] at hi
      obtain ⟨k, hk, rfl⟩ := List.mem_map.mp hi
      rw [hedests₂, getAt_natCast, List.getElem?_map,
        List.getElem?_eq_getElem (List.mem_range.mp hk)]
      rfl
  refine yields_andThen (I := fun nfa₃ => Links nfa₂ nfa₃ (indices nfa₂ T) ∧ Arcs nfa₃ T none)
    (J := Q) (yields_preorder_of hT.root hlinked₂ hT.nodup (hkeeps linkNfaNodes_tree)
      (linkNfaNodes_walk hlinkable)) fun nfa₃ h₃ => ?_
  obtain ⟨hlinks, harcs⟩ := h₃
  refine hrest nfa₃ ⟨?_, ?_, h₁.adds.types, fun k p hp => ?_, ?_, harcs, ?_, ?_, ?_⟩ ?_
  · rw [hlinks.same, h₂.same, h₁.adds.nodes, h.nodes, List.nil_append]
  · rw [hlinks.same, h₂.same, h₁.adds.oprs, h.oprs, List.nil_append]
  · rw [hlinks.nodeIdx, hidx₂ k p hp]
  · rw [hlinks.same, h₂.same]
    exact h₁.starting
  · rw [hlinks.edests_length, hedests₂, List.length_map]
  · rw [hlinks.nexts_length, h₂.same, h₁.adds.nexts, h.nexts, List.nil_append, List.length_map]
  · rw [hlinks.same, h₂.same, h₁.adds.eclosures, h.eclosures, List.nil_append]
  · rw [hlinks.same, h₂.same, h₁.starting.root hT.root]

/-- Up to `calc_eclosure` the function makes an automaton of the tree without its groups. -/
theorem analyze_built (hok : ∀ k, okTree k = true) {root : Nat} (h : Blank nfa)
    (hT : Stands nfa.tree (some root) T) (hrooted : Rooted t T) :
    Yields (fun q => q.2 = REG_NOERROR → ∃ nfa' t' T', Simplifies t t' ∧ Rooted t' T' ∧ T'.Fitted ∧
        Built nfa' T' ∧ nfa'.first root = firstNode T' ∧
        calcEclosure ok fresh fuel nfa' = some (q.1, REG_NOERROR))
      (analyze okTree ok fresh fuel root nfa) := by
  let Q := fun nfa'' => ∃ nfa' t' T', Simplifies t t' ∧ Rooted t' T' ∧ T'.Fitted ∧
    Built nfa' T' ∧ nfa'.first root = firstNode T' ∧
    calcEclosure ok fresh fuel nfa' = some (nfa'', REG_NOERROR)
  unfold analyze
  split
  · exact yields_some.mpr fun hfail => absurd hfail (by simp [REG_NOERROR, REG_ESPACE])
  refine yields_andThen (I := fun nfa₁ => Blank nfa₁ ∧ ∃ T₁, PreRewritten Stripped T T₁ ∧
    Stands nfa₁.tree (some root) T₁) (J := Q)
    (withSubexpMap_rewrites (h.same rfl rfl rfl rfl rfl rfl) hT) fun nfa₁ h₁ => ?_
  obtain ⟨hblank₁, T₁, hstripped, hT₁⟩ := h₁
  refine yields_andThen (I := fun nfa₂ => Blank nfa₂ ∧ ∃ T₂, PostRewritten Lowers T₁ T₂ ∧
    Stands nfa₂.tree (some root) T₂) (J := Q) (lowerSubexps_lowers hok hblank₁ hT₁) fun nfa₂ h₂ => ?_
  obtain ⟨hblank₂, T₂, hlowered, hT₂⟩ := h₂
  obtain ⟨t₁, hrooted₁, hstripped'⟩ := hrooted.stripped hstripped
  obtain ⟨t₂, t', hrooted', hlowered', hlast⟩ := hrooted₁.lowered hlowered
  have hfit : T₂.Fitted := hrooted'.fitted hlowered.subexpless
  refine walks_built (Q := Q) hblank₂ hT₂ hfit fun nfa' hbuilt hfirst q hq herr => ?_
  obtain ⟨nfa'', err⟩ := q
  obtain rfl : err = REG_NOERROR := herr
  exact ⟨nfa', t', T₂, ⟨t₁, t₂, hstripped', hlowered', hlast⟩, hrooted', hfit, hbuilt, hfirst, hq⟩

/-! ## re_compile_internal -/

variable {loc : Locale} {trans : Option (UInt8 → UInt8)} {okSet : Nat → Bool}
variable {syn : RegSyntax} {noSub : Bool} {pattern : List UInt8}

variable (okTree fuel loc trans okSet syn pattern) in
/-- The parser makes the tree `t` of the pattern. -/
def Parses (t : Tree) : Prop :=
  ∃ s root T, parse (singleByte loc trans okTree okSet syn) okTree syn fuel
      (construct loc trans syn pattern) = some (s, some root) ∧
    Stands s.dfa (some root) T ∧ Rooted t T

theorem Parses.unique {t' : Tree} (h : Parses okTree fuel loc trans okSet syn pattern t)
    (h' : Parses okTree fuel loc trans okSet syn pattern t') : t = t' := by
  obtain ⟨s, root, T, hparse, hT, hrooted⟩ := h
  obtain ⟨s', root', T', hparse', hT', hrooted'⟩ := h'
  obtain ⟨rfl, heq⟩ := Prod.mk.inj (Option.some.inj (hparse.symm.trans hparse'))
  obtain rfl := hT.linked.unique hT'.linked (hT.root.trans (heq.trans hT'.root.symm))
  cases hrooted with
  | empty a =>
    cases hrooted' with
    | empty a => rfl
  | full a e ht hne =>
    cases hrooted' with
    | full a e ht hne => rfl

variable (ok fresh fuel) in
/-- From the tree `t` of a pattern to the compiled one, by the automaton `nfa` of the tree `t'`. -/
structure Compiles (t t' T : Tree) (nfa : Nfa) (root : Nat) (c : Compiled) : Prop where
  simplifies : Simplifies t t'
  rooted : Rooted t' T
  fitted : T.Fitted
  built : Built nfa T
  first : nfa.first root = firstNode T
  eclosures : calcEclosure ok fresh fuel nfa = some (c.nfa, REG_NOERROR)
  initial : createInitialState ok fuel root c.nfa = some (.ok (c.initNodes, c.initStates))
  backRefs : c.nbackref = 0 → t.Types (· ≠ .opBackRef)

theorem types_of_trees {P : TokenType → Prop} {trees : List BinTree}
    (h : ∀ tree ∈ trees, P tree.token.type) : ∀ {t : Tree} {par : Option Nat},
    Linked trees par t → t.Types P
  | .nil, _, _ => trivial
  | .node _ _ _ _, _, ⟨ha, hl, hr⟩ =>
    ⟨h _ (List.mem_of_getElem? ha), types_of_trees h hl, types_of_trees h hr⟩

/-- If no back references are counted, there are none. -/
theorem types_of_parse {s : State Input} {root : Nat} {T₀ : Tree}
    (hparse : parse (singleByte loc trans okTree okSet syn) okTree syn fuel
      (construct loc trans syn pattern) = some (s, some root))
    (hT : Linked s.dfa.trees none T₀) (hrooted : Rooted t T₀) (hzero : s.nbackref = 0) :
    t.Types (· ≠ .opBackRef) := by
  obtain ⟨-, place, hgood⟩ | ⟨-, hnone⟩ := parse_ends _ s (some root) hparse
  · have hrefs : refs s.marks = [] := by
      rw [← List.length_eq_zero_iff, ← hgood.logged.nbackref, hzero]
    have htypes : T₀.Types (· ≠ .opBackRef) := types_of_trees (fun tree htree htype => by
      have hmem := hgood.logged.copies _ (List.mem_map_of_mem htree) htype
      rw [hrefs] at hmem
      cases hmem) hT
    cases hrooted with
    | empty a => trivial
    | full a e ht hne => exact htypes.2.1
  · cases hnone

theorem compile_built (hok : ∀ k, okTree k = true) :
    Yields (fun r => ∀ c, r = .ok c → ∃ t t' T nfa root,
        Parses okTree fuel loc trans okSet syn pattern t ∧
        Compiles ok fresh fuel t t' T nfa root c)
      (compile ok loc trans okSet okTree fresh syn noSub fuel pattern) := by
  refine Yields.bind (parse_rooted hok (singleByte_plants hok) _) fun q hparse hq => ?_
  obtain ⟨s, tree⟩ := q
  cases tree with
  | none => exact yields_some.mpr fun c hc => by cases hc
  | some root =>
    obtain ⟨t, T₀, hrooted, hstands⟩ := hq root rfl
    have hblank : Blank (s.nfa noSub) := ⟨rfl, rfl, rfl, rfl, rfl, rfl⟩
    refine Yields.bind (analyze_built hok hblank hstands hrooted) fun q₂ _ hq₂ => ?_
    dsimp only
    split
    · exact yields_some.mpr fun c hc => by cases hc
    next hzero =>
    obtain ⟨nfa, t', T, hsimple, hrooted', hfit, hbuilt, hfirst, hclosures⟩ :=
      hq₂ (not_not.mp hzero)
    refine yields_bind fun r hr => ?_
    cases r with
    | error err => exact yields_some.mpr fun c hc => by cases hc
    | ok q₃ =>
      refine yields_some.mpr fun c hc => ?_
      rw [← Except.ok.inj hc]
      exact ⟨t, t', T, nfa, root, ⟨s, root, T₀, hparse, hstands, hrooted⟩, hsimple, hrooted', hfit,
        hbuilt, hfirst, hclosures, hr, types_of_parse hparse hstands.linked hrooted⟩

/-- `analyze` makes the automaton of a tree that has the language of the parser's. -/
theorem compile_keeps_language (hok : ∀ k, okTree k = true) {c : Compiled}
    (h : compile ok loc trans okSet okTree fresh syn noSub fuel pattern = some (.ok c)) :
    ∃ t t' T nfa, Parses okTree fuel loc trans okSet syn pattern t ∧ Simplifies t t' ∧
      Rooted t' T ∧ Built nfa T ∧
      calcEclosure ok fresh fuel nfa = some (c.nfa, REG_NOERROR) ∧
      (t.Types (· ≠ .opBackRef) → ∀ {α : Type} (leaf : TokenType → Nat → Language α),
        (∀ idx, leaf .opOpenSubexp idx = 1) → (∀ idx, leaf .opCloseSubexp idx = 1) →
        t'.language leaf = t.language leaf) := by
  obtain ⟨t, t', T, nfa, root, hparse, hcompiles⟩ := compile_built hok _ h _ rfl
  exact ⟨t, t', T, nfa, hparse, hcompiles.simplifies, hcompiles.rooted, hcompiles.built,
    hcompiles.eclosures, fun hback _ _ hop hcls => hcompiles.simplifies.language hback hop hcls⟩

/-- `\(\(a\)\)*`: of the two groups one is left, and it becomes two parentheses. -/
theorem compile_keeps_language_groups : ∃ c,
    compile (fun _ => true) cLocale none (fun _ => true) (fun _ => true) (fun _ => 0) 0 false 300
      (chars "\\(\\(a\\)\\)*") = some (.ok c) ∧
    ∃ t t' T nfa, Parses (fun _ => true) 300 cLocale none (fun _ => true) 0
        (chars "\\(\\(a\\)\\)*") t ∧ Simplifies t t' ∧ Rooted t' T ∧ Built nfa T ∧
      calcEclosure (fun _ => true) (fun _ => 0) 300 nfa = some (c.nfa, REG_NOERROR) ∧
      (t.Types (· ≠ .opBackRef) → ∀ {α : Type} (leaf : TokenType → Nat → Language α),
        (∀ idx, leaf .opOpenSubexp idx = 1) → (∀ idx, leaf .opCloseSubexp idx = 1) →
        t'.language leaf = t.language leaf) := by
  obtain ⟨c, -, hcompile, -⟩ := @initially_some (chars "\\(\\(a\\)\\)*") (fun _ _ => true)
    (by decide +kernel)
  exact ⟨c, hcompile, compile_keeps_language (fun _ => rfl) hcompile⟩

end Librecompat.Regcomp
