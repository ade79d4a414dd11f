/-
  `calc_first` numbers the nodes.

  In the order of `postorder` each node of the tree that is no CONCAT becomes the next node of the
  automaton (`emits`), and every node of the tree gets the one that its tree starts with.
-/
import Librecompat.Regcomp.Closures
import Librecompat.Regcomp.Lowering

namespace Librecompat.Regcomp

open Librecompat.Lib Librecompat.NodeSet Librecompat.RegTree
open Librecompat.Regex (RegErrcode REG_NOERROR REG_ESPACE)

variable {ok : Nat → Bool} {fresh : Nat → Int} {nfa nfa' nfa'' : Nfa} {par : Option Nat} {t : Tree}

/-! ## The nodes of a tree -/

/-- The node that a tree starts with. -/
def firstNode : Tree → Option Nat
  | .nil => none
  | .node a token l _ => if token.type = .concat then firstNode l else some a

/-- The nodes of the tree that become nodes of the automaton, the children before their parent. -/
def emits : Tree → List (Nat × Token)
  | .nil => []
  | .node a token l r =>
    emits l ++ emits r ++ if token.type = .concat then [] else [(a, token)]

/-- Each node knows the one that its tree starts with. -/
def Starting (first : Nat → Option Nat) : Tree → Prop
  | .nil => True
  | .node a token l r => first a = firstNode (.node a token l r) ∧ Starting first l ∧
      Starting first r

/-- The node of the automaton that a token becomes. -/
def tokenNode (token : Token) : Eclosure.Token where
  type := (nodeType token.type).getD .endOfRe
  constraint := if token.type = .anchor then token.opr else 0
  duplicated := token.duplicated

theorem nodeType_anchor {type : TokenType} : nodeType type = some .anchor ↔ type = .anchor := by
  cases type <;> simp [nodeType]

theorem mem_addrs_of_mem_emits {p : Nat × Token} (h : p ∈ emits t) : p.1 ∈ t.addrs := by
  induction t with
  | nil => cases h
  | node a token l r ihl ihr =>
    simp only [emits, List.mem_append] at h
    obtain (h | h) | h := h
    · exact List.mem_cons_of_mem _ (List.mem_append_left _ (ihl h))
    · exact List.mem_cons_of_mem _ (List.mem_append_right _ (ihr h))
    · split at h
      · cases h
      · rw [List.mem_singleton.mp h]
        exact List.mem_cons_self

theorem Starting.congr {first first' : Nat → Option Nat} (h : Starting first t)
    (heq : ∀ a ∈ t.addrs, first' a = first a) : Starting first' t := by
  induction t with
  | nil => trivial
  | node a token l r ihl ihr =>
    simp only [Tree.addrs, List.forall_mem_cons, List.mem_append] at heq
    exact ⟨heq.1 ▸ h.1, ihl h.2.1 fun b hb => heq.2 b (.inl hb),
      ihr h.2.2 fun b hb => heq.2 b (.inr hb)⟩

theorem Starting.root {first : Nat → Option Nat} (h : Starting first t) {a : Nat}
    (ha : t.root = some a) : first a = firstNode t := by
  cases t with
  | nil => cases ha
  | node b token l r =>
    obtain rfl := Option.some.inj ha
    exact h.1

/-! ## calc_first -/

/-- The nodes `es` have been added behind those that were there. -/
structure Adds (nfa nfa' : Nfa) (es : List (Nat × Token)) : Prop where
  tree : nfa'.tree = nfa.tree
  next : nfa'.next = nfa.next
  nodes : nfa'.graph.nodes = nfa.graph.nodes ++ es.map fun p => tokenNode p.2
  oprs : nfa'.oprs = nfa.oprs ++ es.map fun p => p.2.opr
  edests : nfa'.graph.edests = nfa.graph.edests ++ es.map fun _ => reNodeSetInitEmpty
  eclosures : nfa'.graph.eclosures = nfa.graph.eclosures ++ es.map fun _ => reNodeSetInitEmpty
  nexts : nfa'.nexts = nfa.nexts ++ es.map fun _ => -1
  types : ∀ p ∈ es, (nodeType p.2.type).isSome

theorem Adds.trans {es es' : List (Nat × Token)} (h : Adds nfa nfa' es) (h' : Adds nfa' nfa'' es') :
    Adds nfa nfa'' (es ++ es') := by
  constructor
  · rw [h'.tree, h.tree]
  · rw [h'.next, h.next]
  · rw [h'.nodes, h.nodes, List.map_append, List.append_assoc]
  · rw [h'.oprs, h.oprs, List.map_append, List.append_assoc]
  · rw [h'.edests, h.edests, List.map_append, List.append_assoc]
  · rw [h'.eclosures, h.eclosures, List.map_append, List.append_assoc]
  · rw [h'.nexts, h.nexts, List.map_append, List.append_assoc]
  · exact fun p hp => (List.mem_append.mp hp).elim (h.types p) (h'.types p)

/-- What `calc_first` does to one node. -/
structure Emits (nfa nfa' : Nfa) (a : Nat) (token : Token) (first : Option Nat) : Prop where
  adds : Adds nfa nfa' (if token.type = .concat then [] else [(a, token)])
  first : nfa'.first = Function.update nfa.first a first
  nodeIdx : ∀ b, b ≠ a → nfa'.nodeIdx b = nfa.nodeIdx b
  self : token.type ≠ .concat → nfa'.nodeIdx a = nfa.graph.nodes.length

/-- A new node at the end. -/
def Nfa.emit (nfa : Nfa) (a : Nat) (token : Token) (org : Int) : Nfa := { nfa with
  first := Function.update nfa.first a (some a)
  nodeIdx := Function.update nfa.nodeIdx a nfa.graph.nodes.length
  graph := { nfa.graph.tick with
    nodes := nfa.graph.nodes ++ [tokenNode token]
    edests := nfa.graph.edests ++ [reNodeSetInitEmpty]
    eclosures := nfa.graph.eclosures ++ [reNodeSetInitEmpty] }
  oprs := nfa.oprs ++ [token.opr]
  nexts := nfa.nexts ++ [-1]
  orgIndices := nfa.orgIndices ++ [org] }

theorem emits_emit {a : Nat} {token : Token} (org : Int) (htype : token.type ≠ .concat)
    (hnode : (nodeType token.type).isSome) :
    Emits nfa (nfa.emit a token org) a token (some a) := by
  refine ⟨?_, rfl, fun b hb => Function.update_of_ne hb _ _, fun _ => Function.update_self _ _ _⟩
  rw [if_neg htype]
  exact ⟨rfl, rfl, rfl, rfl, rfl, rfl, rfl, fun p hp => List.mem_singleton.mp hp ▸ hnode⟩

theorem calcFirst_spec {a : Nat} {token : Token} {l r : Option Nat}
    (ha : nfa.trees[a]? = some ⟨par, l, r, token⟩) :
    Yields (fun q => q.2 = REG_NOERROR → Emits nfa q.1 a token
        (if token.type = .concat then l.bind nfa.first else some a))
      (calcFirst ok fresh a nfa) := by
  unfold calcFirst
  simp only [ha, Option.bind_eq_bind, Option.bind_some]
  split
  · next htype =>
    refine yields_bind fun left hleft => yields_some.mpr fun _ => ⟨?_, ?_, fun b hb => ?_, ?_⟩
    · rw [if_pos htype]
      constructor
      all_goals simp
    · rw [hleft]
      rfl
    · exact Function.update_of_ne hb _ _
    · exact fun hne => absurd htype hne
  · next htype =>
    refine yields_bind fun type hnode => ?_
    have hemit : Emits nfa (nfa.emit a token (fresh nfa.orgIndices.length)) a token (some a) :=
      emits_emit _ htype (by simp [hnode])
    unfold Nfa.emit at hemit
    unfold Nfa.addNode
    split
    · exact yields_some.mpr fun hfail => absurd hfail (by simp [REG_NOERROR, REG_ESPACE])
    · dsimp only
      rw [if_neg (by omega)]
      split
      · next hanchor =>
        subst hanchor
        have htype' : token.type = .anchor := nodeType_anchor.mp hnode
        simp only [Nfa.setConstraint, getAt_append_cons _ [] _ rfl, setAt_append_cons _ [] _ _ rfl,
          Option.bind_eq_bind, Option.bind_some]
        simp only [tokenNode, hnode, Option.getD_some, if_pos htype'] at hemit
        exact yields_some.mpr fun _ => hemit
      · next hanchor =>
        have htype' : token.type ≠ .anchor := fun heq =>
          hanchor (Option.some.inj (hnode.symm.trans (nodeType_anchor.mpr heq)))
        simp only [tokenNode, hnode, Option.getD_some, if_neg htype'] at hemit
        exact yields_some.mpr fun _ => hemit

/-- What the walk does to the nodes of a tree. -/
structure Numbers (nfa nfa' : Nfa) (t : Tree) : Prop where
  adds : Adds nfa nfa' (emits t)
  starting : Starting nfa'.first t
  nodeIdx : ∀ k p, (emits t)[k]? = some p →
    nfa'.nodeIdx p.1 = ((nfa.graph.nodes.length + k : Nat) : Int)
  first_kept : ∀ b ∉ t.addrs, nfa'.first b = nfa.first b
  nodeIdx_kept : ∀ b ∉ t.addrs, nfa'.nodeIdx b = nfa.nodeIdx b

theorem Numbers.node {a : Nat} {token : Token} {l r : Tree} {nfa₁ nfa₂ nfa₃ : Nfa}
    (hnd : (RegTree.Tree.node a token l r).addrs.Nodup) (hl : Numbers nfa nfa₁ l) (hr : Numbers nfa₁ nfa₂ r)
    (ha : Emits nfa₂ nfa₃ a token
      (if token.type = .concat then l.root.bind nfa₂.first else some a)) :
    Numbers nfa nfa₃ (.node a token l r) := by
  simp only [Tree.addrs, List.nodup_cons, List.mem_append, not_or, List.nodup_append'] at hnd
  obtain ⟨⟨hal, har⟩, hndl, hndr, hdisj⟩ := hnd
  have hlr : ∀ b ∈ l.addrs, b ∉ r.addrs := fun b hb hmem => hdisj hb hmem
  have hfirst : ∀ b, b ≠ a → nfa₃.first b = nfa₂.first b := fun b hb => by
    rw [ha.first, Function.update_of_ne hb]
  have hl₂ : Starting nfa₂.first l := hl.starting.congr fun b hb => hr.first_kept b (hlr b hb)
  refine ⟨?_, ⟨?_, ?_, ?_⟩, ?_, fun b hb => ?_, fun b hb => ?_⟩
  · rw [emits]
    exact (hl.adds.trans hr.adds).trans ha.adds
  · rw [ha.first, Function.update_self, firstNode]
    split
    · cases hroot : l.root with
      | none =>
        rw [Tree.root_eq_none.mp hroot]
        rfl
      | some b => exact hl₂.root hroot
    · rfl
  · exact hl₂.congr fun b hb => hfirst b fun heq => hal (heq ▸ hb)
  · exact hr.starting.congr fun b hb => hfirst b fun heq => har (heq ▸ hb)
  · intro k p hk
    have hlen₁ : nfa₁.graph.nodes.length = nfa.graph.nodes.length + (emits l).length := by
      rw [hl.adds.nodes, List.length_append, List.length_map]
    have hlen₂ : nfa₂.graph.nodes.length = nfa₁.graph.nodes.length + (emits r).length := by
      rw [hr.adds.nodes, List.length_append, List.length_map]
    rw [emits, List.append_assoc, List.getElem?_append] at hk
    split at hk
    · have hp := mem_addrs_of_mem_emits (List.mem_of_getElem? hk)
      rw [ha.nodeIdx p.1 fun heq => hal (heq ▸ hp), hr.nodeIdx_kept p.1 (hlr _ hp), hl.nodeIdx k p hk]
    rw [List.getElem?_append] at hk
    split at hk
    · have hp := mem_addrs_of_mem_emits (List.mem_of_getElem? hk)
      rw [ha.nodeIdx p.1 fun heq => har (heq ▸ hp), hr.nodeIdx _ p hk, hlen₁]
      congr 1
      omega
    · split at hk
      · simp at hk
      · next htype =>
        obtain ⟨hlt, hp⟩ := List.getElem?_eq_some_iff.mp hk
        obtain rfl : (a, token) = p := by simpa using hp
        have hlt' : k - (emits l).length - (emits r).length < 1 := hlt
        rw [ha.self htype, hlen₂, hlen₁]
        congr 1
        omega
  · simp only [Tree.addrs, List.mem_cons, List.mem_append, not_or] at hb
    rw [hfirst b hb.1, hr.first_kept b hb.2.2, hl.first_kept b hb.2.1]
  · simp only [Tree.addrs, List.mem_cons, List.mem_append, not_or] at hb
    rw [ha.nodeIdx b hb.1, hr.nodeIdx_kept b hb.2.2, hl.nodeIdx_kept b hb.2.1]

theorem calcFirst_walk : ∀ {t : Tree} {nfa : Nfa} {par : Option Nat}, Linked nfa.trees par t →
    t.addrs.Nodup → Yields (fun q => q.2 = REG_NOERROR → Numbers nfa q.1 t)
      (t.postorder (calcFirst ok fresh) nfa)
  | .nil, nfa, _, _, _ => yields_some.mpr fun _ => by
    refine ⟨?_, trivial, ?_, fun _ _ => rfl, fun _ _ => rfl⟩
    · constructor
      all_goals simp [emits]
    · simp [emits]
  | .node a token l r, nfa, par, ⟨ha, hl, hr⟩, hnd => by
    have hparts := hnd
    simp only [Tree.addrs, List.nodup_cons, List.nodup_append'] at hparts
    let J := fun nfa' => Numbers nfa nfa' (.node a token l r)
    refine yields_andThen (I := fun nfa₁ => Numbers nfa nfa₁ l) (J := J)
      (calcFirst_walk hl hparts.2.1) fun nfa₁ h₁ => ?_
    have htrees₁ : nfa₁.trees = nfa.trees := congrArg RegTree.Dfa.trees h₁.adds.tree
    refine yields_andThen (I := fun nfa₂ => Numbers nfa₁ nfa₂ r) (J := J)
      (calcFirst_walk (htrees₁ ▸ hr) hparts.2.2.1) fun nfa₂ h₂ => ?_
    have htrees₂ : nfa₂.trees = nfa₁.trees := congrArg RegTree.Dfa.trees h₂.adds.tree
    refine (calcFirst_spec (by rw [htrees₂, htrees₁]; exact ha)).mono fun q hq herr => ?_
    exact h₁.node hnd h₂ (hq herr)

end Librecompat.Regcomp
