/-
  `calc_eclosure` leaves sets of nodes.

  The copies that `duplicate_node_closure` makes have the constraint of the node that it is called
  for, in addition to their own (`duplicateNodeClosure_sound`). Each call of `calc_eclosure_iter` has
  one more node in progress (`calcEclosureIter_sound`, by induction on the fuel), and stores a set of
  nodes for it, or nothing, before it returns. So behind `analyze` no node is in progress.
-/
import Librecompat.Regcomp.Nodes

namespace Librecompat.Regcomp

open Librecompat.Lib Librecompat.NodeSet
open Librecompat.RegTree (Visitor andThen)
open Librecompat.Regex (RegErrcode REG_NOERROR REG_ESPACE)
open Librecompat.Eclosure (storeClosure)

variable {words : Bool} {pending : Set Int} {n : Nat} {nfa nfa' : Nfa}
variable {okTree ok : Nat → Bool} {fresh : Nat → Int} {fuel : Nat} {constraint : Nat}

/-! ## duplicate_node_closure -/

theorem Nfa.Sound.wordless (h : nfa.Sound words pending n) {i : Int} {node : Eclosure.Token}
    (hnode : getAt nfa.graph.nodes i = some node) (hwords : words = false) :
    Wordless node.constraint :=
  h.nodes hwords node (mem_of_getAt hnode)

theorem duplicateNode_sound (h : nfa.Sound words pending n) {orgIdx : Int}
    (hconstraint : words = false → Wordless constraint) :
    Sounds words pending n (duplicateNode ok fresh nfa orgIdx constraint) := by
  refine yields_bind fun org horg => yields_bind fun opr _ => ?_
  have hadd : (nfa.addNode ok fresh org.type opr true).1.Sound words pending n :=
    h.addNode org.type opr true
  dsimp only
  split
  · exact yields_some.mpr hadd
  · refine Yields.bind (hadd.setConstraint fun hwords => ?_) fun nfa₁ _ h₁ => ?_
    · exact (hconstraint hwords).or (h.wordless horg hwords)
    · exact yields_bind fun _ _ => yields_some.mpr (h₁.same rfl rfl rfl rfl rfl)

theorem Nfa.Sound.insertEdest (h : nfa.Sound words pending n) (node dest : Int) :
    Sounds words pending n (nfa.insertEdest ok node dest) :=
  yields_bind fun _ _ => yields_bind fun _ _ =>
    Yields.bind (h.tick.setEdests node _) fun _ _ h₁ => yields_some.mpr h₁

theorem Nfa.Sound.emptyEdests (h : nfa.Sound words pending n) (node : Int) :
    Yields (Nfa.Sound words pending n) (nfa.emptyEdests node) :=
  yields_bind fun _ _ => h.setEdests node _

theorem copyDest_sound (h : nfa.Sound words pending n) {orgDest cloneNode : Int}
    (hconstraint : words = false → Wordless constraint) {k : Nfa → Int → Option (Nfa × RegErrcode)}
    (hk : ∀ nfa dest, nfa.Sound words pending n → Sounds words pending n (k nfa dest)) :
    Sounds words pending n (copyDest ok fresh nfa orgDest cloneNode constraint k) := by
  refine (duplicateNode_sound h hconstraint).bind fun q _ h₁ => ?_
  dsimp only
  split
  · exact yields_some.mpr h₁
  · refine (h₁.insertEdest cloneNode q.2).bind fun q₂ _ h₂ => ?_
    split
    · exact yields_some.mpr h₂
    · exact hk _ _ h₂

theorem duplicateNodeClosure_sound : ∀ (fuel : Nat) (nfa : Nfa) (orgNode cloneNode rootNode : Int)
    (constraint : Nat), nfa.Sound words pending n → (words = false → Wordless constraint) →
    Sounds words pending n
      (duplicateNodeClosure ok fresh fuel nfa orgNode cloneNode rootNode constraint)
  | 0, _, _, _, _, _, _, _ => yields_none
  | fuel + 1, nfa, orgNode, cloneNode, rootNode, constraint, h, hconstraint => by
    rw [duplicateNodeClosure]
    refine yields_bind fun node hnode => yields_bind fun edests _ => ?_
    split
    · refine yields_bind fun orgDest _ => (h.emptyEdests cloneNode).bind fun nfa₁ _ h₁ => ?_
      refine (duplicateNode_sound h₁ hconstraint).bind fun q₂ _ h₂ => ?_
      dsimp only
      split
      · exact yields_some.mpr h₂
      · refine yields_bind fun next _ => (h₂.setNext cloneNode next).bind fun nfa₃ _ h₃ => ?_
        refine (h₃.insertEdest cloneNode q₂.2).bind fun q₄ _ h₄ => ?_
        split
        · exact yields_some.mpr h₄
        · exact duplicateNodeClosure_sound fuel _ _ _ _ _ h₄ hconstraint
    split
    · exact yields_bind fun next _ => (h.setNext cloneNode next).bind fun _ _ h₁ =>
        yields_some.mpr h₁
    split
    · refine yields_bind fun orgDest _ => (h.emptyEdests cloneNode).bind fun nfa₁ _ h₁ => ?_
      split
      · exact h₁.insertEdest _ _
      · -- the destinations inherit the constraint of the node too
        have hinherit : words = false → Wordless (constraint ||| node.constraint) := fun hwords =>
          (hconstraint hwords).or (h.wordless hnode hwords)
        exact copyDest_sound h₁ hinherit fun nfa₂ dest h₂ =>
          duplicateNodeClosure_sound fuel nfa₂ _ dest rootNode _ h₂ hinherit
    · have hcopy : ∀ {nfa' orgDest}, Nfa.Sound words pending n nfa' → Sounds words pending n
          (copyDest ok fresh nfa' orgDest cloneNode constraint fun nfa cloneDest =>
            duplicateNodeClosure ok fresh fuel nfa orgDest cloneDest rootNode constraint) :=
        fun h' => copyDest_sound h' hconstraint fun nfa₂ dest h₂ =>
          duplicateNodeClosure_sound fuel nfa₂ _ dest rootNode _ h₂ hconstraint
      refine yields_bind fun orgDest _ => (h.emptyEdests cloneNode).bind fun nfa₁ _ h₁ => ?_
      refine yields_bind fun found _ => ?_
      have hfirst : Sounds words pending n
          (if found = -1 then
            copyDest ok fresh nfa₁ orgDest cloneNode constraint fun nfa cloneDest =>
              duplicateNodeClosure ok fresh fuel nfa orgDest cloneDest rootNode constraint
          else nfa₁.insertEdest ok cloneNode found) := by
        split
        · exact hcopy h₁
        · exact h₁.insertEdest _ _
      refine hfirst.bind fun q₂ _ h₂ => ?_
      dsimp only
      split
      · exact yields_some.mpr h₂
      · exact yields_bind fun _ _ => yields_bind fun _ _ => hcopy h₂

theorem inheritConstraint_sound (h : nfa.Sound words pending n) (node : Int) :
    Sounds words pending n (inheritConstraint ok fresh fuel nfa node) := by
  refine yields_bind fun token htoken => yields_bind fun edests _ => ?_
  split
  · refine yields_bind fun first _ => yields_bind fun dest _ => ?_
    split
    · exact yields_some.mpr h
    · exact duplicateNodeClosure_sound fuel nfa _ _ _ _ h fun hwords => h.wordless htoken hwords
  · exact yields_some.mpr h

/-! ## calc_eclosure_iter -/

/-- A node is in progress. -/
theorem Nfa.Sound.start (h : nfa.Sound words pending n) {node : Int} {graph : Eclosure.Dfa}
    (hgraph : nfa.graph.setNelem node (-1) = some graph) :
    Nfa.Sound words (insert node pending) n { nfa with graph := graph } := by
  obtain ⟨old, hold, hgraph⟩ := Option.bind_eq_some_iff.mp hgraph
  obtain ⟨eclosures, hset, hgraph⟩ := Option.bind_eq_some_iff.mp hgraph
  obtain rfl := Option.some.inj hgraph
  refine ⟨h.trees, h.nodes, h.oprs, h.edests, fun i set hi => ?_, h.grown⟩
  obtain ⟨rfl, rfl⟩ | ⟨-, hi⟩ := getAt_setAt hset hi
  · exact .inl ⟨rfl, Set.mem_insert _ _⟩
  · obtain ⟨hneg, hmem⟩ | hrest := h.closures i set hi
    · exact .inl ⟨hneg, Set.mem_insert_of_mem _ hmem⟩
    · exact .inr hrest

/-- A set is stored for the node, or the mark is taken away. -/
theorem Nfa.Sound.stored {node : Int} (h : nfa.Sound words (insert node pending) n)
    {eclosures : List ReNodeSet} {new : ReNodeSet}
    (hset : setAt nfa.graph.eclosures node new = some eclosures)
    (hnew : new.nelem = 0 ∨ Within nfa.graph.nodes.length new) :
    Nfa.Sound words pending n { nfa with graph := { nfa.graph with eclosures := eclosures } } := by
  refine ⟨h.trees, h.nodes, h.oprs, h.edests, fun i set hi => ?_, h.grown⟩
  obtain ⟨rfl, rfl⟩ | ⟨hne, hi⟩ := getAt_setAt hset hi
  · exact .inr hnew
  · obtain ⟨hneg, hmem⟩ | hrest := h.closures i set hi
    · exact .inl ⟨hneg, hmem.resolve_left hne⟩
    · exact .inr hrest

theorem Nfa.Sound.storeClosure {node : Int} {root : Bool} {s : Eclosure.Expand}
    (h : Nfa.Sound words (insert node pending) n { nfa with graph := s.dfa })
    (hset : Within s.dfa.nodes.length s.eclosure) :
    Yields (fun graph => Nfa.Sound words pending n { nfa with graph := graph } ∧
      graph.nodes = s.dfa.nodes) (storeClosure s node root) := by
  unfold Eclosure.storeClosure
  split
  · exact yields_bind fun old _ => yields_bind fun eclosures heclosures =>
      yields_some.mpr ⟨h.stored heclosures (.inl rfl), rfl⟩
  · exact yields_bind fun eclosures heclosures =>
      yields_some.mpr ⟨h.stored heclosures (.inr hset), rfl⟩

/-- What a call of `calc_eclosure_iter` leaves that reports no error. -/
def Closes (words : Bool) (pending : Set Int) (n : Nat) (q : Nfa × ReNodeSet × RegErrcode) : Prop :=
  q.2.2 = REG_NOERROR → q.1.Sound words pending n ∧ Within q.1.graph.nodes.length q.2.1

/-- The loop over the destinations, as long as there is no error. -/
def Expand.Sound (words : Bool) (pending : Set Int) (n : Nat) (s : Expand) : Prop :=
  s.err = REG_NOERROR → s.nfa.Sound words pending n ∧ Within s.nfa.graph.nodes.length s.eclosure

theorem expandPass_sound {iter : Nfa → Int → Option (Nfa × ReNodeSet × RegErrcode)} {node : Int}
    (hiter : ∀ n nfa edest, Nfa.Sound words pending n nfa →
      Yields (Closes words pending n) (iter nfa edest)) (s : Expand) (i : Nat)
    (h : s.Sound words pending n) : Yields (Expand.Sound words pending n)
      (expandPass ok iter node s i) := by
  unfold expandPass
  by_cases herr : s.err = REG_NOERROR
  · obtain ⟨hnfa, hset⟩ := h herr
    rw [if_neg (not_not.mpr herr)]
    refine yields_bind fun edests _ => yields_bind fun edest _ => yields_bind fun set hget => ?_
    split
    · exact yields_some.mpr fun _ => ⟨hnfa, hset⟩
    · next hdone =>
      have hcall : Yields (Closes words pending s.nfa.graph.nodes.length)
          (if set.nelem = 0 then iter s.nfa edest else some (s.nfa, set, REG_NOERROR)) := by
        split
        · exact hiter _ _ _ hnfa.below
        · next hne =>
          refine yields_some.mpr fun _ => ⟨hnfa.below, ?_⟩
          exact ((hnfa.closures edest set hget).resolve_left fun hneg => hdone hneg.1).resolve_left
            hne
      refine hcall.bind fun q _ hq => ?_
      dsimp only
      split
      · next hfail => exact yields_some.mpr fun hzero => absurd hzero hfail
      · next hzero =>
        obtain ⟨hnfa', helem⟩ := hq (not_not.mp hzero)
        refine ((hset.mono hnfa'.grown).merge (.inr helem)).bind fun q₂ _ hmerged => ?_
        exact yields_bind fun set₂ _ => yields_some.mpr fun hok =>
          ⟨(hnfa'.above hnfa.grown).tick, hmerged hok⟩
  · rw [if_pos herr]
    exact yields_some.mpr h

/-- The loop, for a node of either kind. -/
theorem expandAll_sound {iter : Nfa → Int → Option (Nfa × ReNodeSet × RegErrcode)} {node : Int}
    (hiter : ∀ n nfa edest, Nfa.Sound words pending n nfa →
      Yields (Closes words pending n) (iter nfa edest)) {set : ReNodeSet}
    (h : nfa.Sound words pending n) (hset : Within nfa.graph.nodes.length set) {k : Nat}
    {epsilon : Bool} :
    Yields (Expand.Sound words pending n)
      (if epsilon then
        (List.range k).foldlM (expandPass ok iter node) ⟨nfa, set, false, REG_NOERROR⟩
      else some ⟨nfa, set, false, REG_NOERROR⟩) := by
  have hbegin : Expand.Sound words pending n ⟨nfa, set, false, REG_NOERROR⟩ := fun _ => ⟨h, hset⟩
  split
  · exact yields_foldlM (expandPass_sound hiter) hbegin
  · exact yields_some.mpr hbegin

/-- The epsilon closure of a node starts with the node. -/
theorem alloc_within {okAlloc : Bool} {size node : Int} {m : Nat} {elems : Cells}
    (hnode : 0 ≤ node ∧ node < m)
    (herr : (reNodeSetAlloc okAlloc size).2 = REG_NOERROR)
    (helems : setAt (reNodeSetAlloc okAlloc size).1.elems (reNodeSetAlloc okAlloc size).1.nelem
      (some node) = some elems) :
    Within m { (reNodeSetAlloc okAlloc size).1 with
      elems := elems, nelem := (reNodeSetAlloc okAlloc size).1.nelem + 1 } := by
  cases okAlloc with
  | false => exact absurd herr (show REG_ESPACE ≠ REG_NOERROR by decide)
  | true =>
    have hlen := length_setAt helems
    simp only [reNodeSetAlloc, if_true, reMalloc, setAt, List.length_replicate] at helems hlen
    split at helems
    · next hlt =>
      rw [← Option.some.inj helems]
      refine ⟨[node], ⟨List.pairwise_singleton _ _, rfl, ?_,
        List.replicate (size.toNat - 1) none, ?_⟩, by simpa using hnode⟩
      · simp only [reNodeSetAlloc, if_true, List.length_set, List.length_replicate]
        omega
      · obtain ⟨k, hk⟩ : ∃ k, size.toNat = k + 1 := ⟨size.toNat - 1, by omega⟩
        rw [hk, List.replicate_succ]
        rfl
    · cases helems

theorem calcEclosureIter_sound : ∀ (fuel : Nat) (pending : Set Int) (n : Nat) (nfa : Nfa)
    (node : Int) (root : Bool), nfa.Sound words pending n →
    Yields (Closes words pending n) (calcEclosureIter ok fresh fuel nfa node root)
  | 0, _, _, _, _, _, _ => yields_none
  | fuel + 1, pending, n, nfa, node, root, h => by
    rw [calcEclosureIter]
    refine yields_bind fun edests hedests => ?_
    dsimp only
    split
    · next hfail => exact yields_some.mpr fun hzero => absurd hzero hfail
    next hzero =>
    refine yields_bind fun elems helems => yields_bind fun graph hgraph => ?_
    have hnode : 0 ≤ node ∧ node < nfa.graph.nodes.length := by
      obtain ⟨hge, hread⟩ := getAt_eq_some.mp hedests
      have hlt := (List.getElem?_eq_some_iff.mp hread).1
      rw [h.edests] at hlt
      omega
    have hself := alloc_within hnode (not_not.mp hzero) helems
    have hstart := h.below.tick.start hgraph
    refine (inheritConstraint_sound hstart node).bind fun q _ hq => ?_
    split
    · next hfail => exact yields_some.mpr fun hno => absurd hno hfail
    refine yields_bind fun token _ => yields_bind fun edests₁ _ => ?_
    refine (expandAll_sound (fun n nfa edest h' =>
      calcEclosureIter_sound fuel _ n nfa edest false h') hq
      (hself.mono hq.grown)).bind fun s _ hs => ?_
    split
    · next hfail => exact yields_some.mpr fun hno => absurd hno hfail
    · next hok =>
      obtain ⟨hnfa, hset⟩ := hs (not_not.mp hok)
      have hstore : Nfa.Sound words (insert node pending) n
          { s.nfa with graph := s.nfa.graph } := hnfa.above h.grown
      refine (Nfa.Sound.storeClosure (s := ⟨s.nfa.graph, s.eclosure, s.incomplete, s.err⟩) hstore
        hset).bind fun graph' _ hgraph' => yields_some.mpr fun _ => ⟨hgraph'.1, ?_⟩
      dsimp only
      rw [hgraph'.2]
      exact hset

/-! ## calc_eclosure, analyze -/

theorem calcEclosure_sound (h : nfa.Sound words ∅ n) :
    Yields (fun q => q.2 = REG_NOERROR → q.1.Sound words ∅ n) (calcEclosure ok fresh fuel nfa) := by
  refine yields_tryLoop (I := fun s : Outer => s.nfa.Sound words ∅ n) (fun s hs => ?_) h
  unfold eclosurePass
  split
  · exact yields_some.mpr fun _ => hs
  · refine yields_bind fun set _ => ?_
    split
    · refine yields_some.mpr ?_
      dsimp only [Sum.elim_inl]
      split
      · exact hs
      · exact hs
    · refine (calcEclosureIter_sound fuel ∅ n _ _ true (by split <;> exact hs)).bind fun q _ hq => ?_
      dsimp only
      split
      · next hfail => exact yields_some.mpr fun hno => absurd hno hfail
      · next hok =>
        exact yields_bind fun set₁ _ => yields_some.mpr (hq (not_not.mp hok)).1

theorem yields_andThen {M : Type} {I J : M → Prop} {r : Option (M × RegErrcode)}
    {f : M → Option (M × RegErrcode)} (h : Yields (fun q => q.2 = REG_NOERROR → I q.1) r)
    (hf : ∀ m, I m → Yields (fun q => q.2 = REG_NOERROR → J q.1) (f m)) :
    Yields (fun q => q.2 = REG_NOERROR → J q.1) (andThen r f) := by
  refine h.bind fun q _ hq => ?_
  split
  · next herr => exact hf _ (hq herr)
  · next herr => exact yields_some.mpr fun hzero => absurd hzero herr

theorem withSubexpMap_sound (h : nfa.Sound words pending n) (root : Nat) :
    Sounds words pending n (withSubexpMap ok fuel root nfa) := by
  unfold withSubexpMap
  split
  · exact yields_some.mpr (h.same rfl rfl rfl rfl rfl)
  · have hstart : Nfa.Sound words pending n { nfa with
        graph := nfa.graph.tick, subexpMap := some (List.range nfa.reNsub) } :=
      h.same rfl rfl rfl rfl rfl
    refine (RegTree.yields_visitPreorder visits_optimizeSubexps hstart root).bind fun q _ hq =>
      yields_some.mpr ?_
    dsimp only
    split
    · exact hq.same rfl rfl rfl rfl rfl
    · exact hq

theorem analyze_sound (h : nfa.Sound words ∅ n) (root : Nat) :
    Yields (fun q => q.2 = REG_NOERROR → q.1.Sound words ∅ n)
      (analyze okTree ok fresh fuel root nfa) := by
  have hwalk : ∀ {r : Option (Nfa × RegErrcode)}, Sounds words ∅ n r →
      Yields (fun q => q.2 = REG_NOERROR → q.1.Sound words ∅ n) r := fun hr =>
    hr.mono fun _ hq _ => hq
  unfold analyze
  split
  · exact yields_some.mpr fun _ => h.tick
  · refine yields_andThen (hwalk (withSubexpMap_sound h.tick root)) fun nfa₁ h₁ => ?_
    refine yields_andThen (hwalk (RegTree.yields_visitPostorder visits_lowerSubexps h₁ root))
      fun nfa₂ h₂ => ?_
    refine yields_andThen (hwalk (RegTree.yields_visitPostorder visits_calcFirst h₂ root))
      fun nfa₃ h₃ => ?_
    refine yields_andThen (hwalk (RegTree.yields_visitPreorder visits_calcNext h₃ root))
      fun nfa₄ h₄ => ?_
    exact yields_andThen (hwalk (RegTree.yields_visitPreorder visits_linkNfaNodes h₄ root))
      fun nfa₅ h₅ => calcEclosure_sound h₅

end Librecompat.Regcomp
