/-
  `calc_next` and `link_nfa_nodes`.

  Each node of the tree gets the node that comes behind it (`Continues`); a node of the automaton then
  leads to the nodes that its children start with, or to the one behind (`Arcs`).
-/
import Librecompat.Regcomp.Numbering

namespace Librecompat.Regcomp

open Librecompat.Lib Librecompat.NodeSet Librecompat.RegTree
open Librecompat.Regex (RegErrcode REG_NOERROR REG_ESPACE)

variable {ok : Nat → Bool} {nfa nfa' nfa'' : Nfa} {par : Option Nat} {t : Tree}

/-! ## calc_next -/

/-- What comes behind the left child of a node. -/
def leftNext (a : Nat) (token : Token) (r : Tree) (k : Option Nat) : Option Nat :=
  match token.type with
  | .opDupAsterisk => some a
  | .concat => firstNode r
  | _ => k

theorem leftNext_other {a : Nat} {token : Token} {r : Tree} {k : Option Nat}
    (hdup : token.type ≠ .opDupAsterisk) (hconcat : token.type ≠ .concat) :
    leftNext a token r k = k := by
  unfold leftNext
  split
  · contradiction
  · contradiction
  · rfl

/-- Behind the tree comes `k`, and each node below knows what comes behind it. -/
def Continues (next : Nat → Option Nat) : Tree → Option Nat → Prop
  | .nil, _ => True
  | .node a token l r, k => next a = k ∧ Continues next l (leftNext a token r k) ∧
      Continues next r k

theorem Continues.congr {next next' : Nat → Option Nat} : ∀ {t : Tree} {k : Option Nat},
    Continues next t k → (∀ a ∈ t.addrs, next' a = next a) → Continues next' t k
  | .nil, _, _, _ => trivial
  | .node a token l r, k, ⟨ha, hl, hr⟩, heq => by
    simp only [Tree.addrs, List.forall_mem_cons, List.mem_append] at heq
    exact ⟨heq.1.trans ha, hl.congr fun b hb => heq.2 b (.inl hb),
      hr.congr fun b hb => heq.2 b (.inr hb)⟩

theorem putNext_next (k node : Option Nat) (b : Nat) :
    (nfa.putNext k node).next b = if node = some b then k else nfa.next b := by
  cases node with
  | none => rfl
  | some c => simp only [Nfa.putNext, Function.update_apply, Option.some.injEq, eq_comm]

theorem putNext_same (k node : Option Nat) :
    nfa.putNext k node = { nfa with next := (nfa.putNext k node).next } := by
  cases node with
  | none => rfl
  | some c => rfl

/-- `calc_next` changes the field `next` of the children only. -/
structure Puts (nfa nfa' : Nfa) (l r : Tree) (kl kr : Option Nat) : Prop where
  same : nfa' = { nfa with next := nfa'.next }
  left : ∀ b, l.root = some b → nfa'.next b = kl
  right : ∀ b, r.root = some b → nfa'.next b = kr
  kept : ∀ b, l.root ≠ some b → r.root ≠ some b → nfa'.next b = nfa.next b

theorem puts_both {l r : Tree} (hdisj : List.Disjoint l.addrs r.addrs) (kl kr : Option Nat) :
    Puts nfa ((nfa.putNext kl l.root).putNext kr r.root) l r kl kr := by
  have hne : ∀ b, l.root = some b → r.root ≠ some b := fun b hl hr =>
    hdisj (Tree.root_mem hl) (Tree.root_mem hr)
  refine ⟨?_, fun b hb => ?_, fun b hb => ?_, fun b hl hr => ?_⟩
  · rw [putNext_same, putNext_same kl]
  · rw [putNext_next, if_neg (hne b hb), putNext_next, if_pos hb]
  · rw [putNext_next, if_pos hb]
  · rw [putNext_next, if_neg hr, putNext_next, if_neg hl]

theorem calcNext_spec {a : Nat} {token : Token} {l r : Tree} {k : Option Nat}
    (ha : nfa.trees[a]? = some ⟨par, l.root, r.root, token⟩)
    (hnd : (RegTree.Tree.node a token l r).addrs.Nodup)
    (hfit : (RegTree.Tree.node a token l r).Fitted)
    (hstart : Starting nfa.first r) (hk : nfa.next a = k) :
    Yields (fun q => Puts nfa q.1 l r (leftNext a token r k) k) (calcNext a nfa) := by
  simp only [Tree.addrs, List.nodup_cons, List.mem_append, not_or, List.nodup_append'] at hnd
  obtain ⟨⟨hal, har⟩, hndl, hndr, hdisj⟩ := hnd
  -- the second assignment reads the field of the node itself
  have hroot : ∀ kl, (nfa.putNext kl l.root).next a = k := fun kl => by
    rw [putNext_next, if_neg fun heq => hal (Tree.root_mem heq), hk]
  unfold calcNext
  simp only [ha, Option.bind_eq_bind, Option.bind_some]
  by_cases hdup : token.type = .opDupAsterisk
  · unfold Tree.Fitted at hfit
    unfold leftNext
    simp only [hdup] at hfit ⊢
    obtain ⟨-, -, rfl⟩ := hfit
    refine yields_bind fun left hleft => yields_some.mpr ?_
    rw [← hleft]
    exact puts_both hdisj (some a) k
  by_cases hconcat : token.type = .concat
  · unfold leftNext
    simp only [hconcat]
    refine yields_bind fun left hleft => yields_bind fun right hright => yields_some.mpr ?_
    rw [← hleft, hroot, hstart.root hright, ← hright]
    exact puts_both hdisj _ k
  rw [leftNext_other hdup hconcat]
  split
  · contradiction
  · contradiction
  · rw [hroot, hk]
    exact yields_some.mpr (puts_both hdisj k k)

theorem Fitted.children {a : Nat} {token : Token} {l r : Tree}
    (h : (RegTree.Tree.node a token l r).Fitted) : l.Fitted ∧ r.Fitted := by
  unfold Tree.Fitted at h
  split at h
  · exact h.2
  · exact h
  · exact ⟨h.2.1, h.2.2 ▸ trivial⟩
  · exact ⟨h.1 ▸ trivial, h.2 ▸ trivial⟩

/-- What the walk does to the nodes of a tree behind which comes `k`. -/
structure Nexts (nfa nfa' : Nfa) (t : Tree) (k : Option Nat) : Prop where
  same : nfa' = { nfa with next := nfa'.next }
  continues : Continues nfa'.next t k
  kept : ∀ b ∉ t.addrs, nfa'.next b = nfa.next b

theorem calcNext_walk : ∀ {t : Tree} {nfa : Nfa} {par k : Option Nat}, Linked nfa.trees par t →
    t.addrs.Nodup → t.Fitted → Starting nfa.first t → (∀ a, t.root = some a → nfa.next a = k) →
    Yields (fun q => q.2 = REG_NOERROR → Nexts nfa q.1 t k) (t.preorder calcNext nfa)
  | .nil, nfa, _, _, _, _, _, _, _ => yields_some.mpr fun _ => ⟨rfl, trivial, fun _ _ => rfl⟩
  | .node a token l r, nfa, par, k, ⟨ha, hl, hr⟩, hnd, hfit, hstart, hk => by
    have hparts := hnd
    simp only [Tree.addrs, List.nodup_cons, List.mem_append, not_or, List.nodup_append'] at hparts
    obtain ⟨⟨hal, har⟩, hndl, hndr, hdisj⟩ := hparts
    obtain ⟨hfitl, hfitr⟩ := Fitted.children hfit
    let J := fun nfa' => Nexts nfa nfa' (.node a token l r) k
    refine yields_andThen (I := fun nfa₁ => Puts nfa nfa₁ l r (leftNext a token r k) k) (J := J)
      ((calcNext_spec ha hnd hfit hstart.2.2 (hk a rfl)).mono fun q hq _ => hq) fun nfa₁ h₁ => ?_
    have hl₁ : Linked nfa₁.trees (some a) l := by
      rw [h₁.same]
      exact hl
    have hstart₁ : nfa₁.first = nfa.first := by rw [h₁.same]
    refine yields_andThen (I := fun nfa₂ => Nexts nfa₁ nfa₂ l (leftNext a token r k)) (J := J)
      (calcNext_walk hl₁ hndl hfitl (hstart₁ ▸ hstart.2.1) h₁.left) fun nfa₂ h₂ => ?_
    have hr₂ : Linked nfa₂.trees (some a) r := by
      rw [h₂.same, h₁.same]
      exact hr
    have hstart₂ : nfa₂.first = nfa.first := by rw [h₂.same, ← hstart₁]
    refine (calcNext_walk (k := k) hr₂ hndr hfitr (hstart₂ ▸ hstart.2.2) fun b hb => ?_).mono
      fun q hq herr => ?_
    · rw [h₂.kept b fun hmem => hdisj hmem (Tree.root_mem hb), h₁.right b hb]
    · have h₃ := hq herr
      have hkept : ∀ b, b ∉ l.addrs → b ∉ r.addrs → q.1.next b = nfa.next b := fun b hbl hbr => by
        rw [h₃.kept b hbr, h₂.kept b hbl, h₁.kept b (fun heq => hbl (Tree.root_mem heq))
          (fun heq => hbr (Tree.root_mem heq))]
      refine ⟨by rw [h₃.same, h₂.same, h₁.same], ⟨?_, h₂.continues.congr fun b hb => ?_,
        h₃.continues⟩, fun b hb => ?_⟩
      · rw [hkept a hal har, hk a rfl]
      · exact h₃.kept b fun hmem => hdisj hb hmem
      · simp only [Tree.addrs, List.mem_cons, List.mem_append, not_or] at hb
        exact hkept b hb.2.1 hb.2.2

/-! ## link_nfa_nodes -/

/-- What a child starts with; without the child it is what comes behind. -/
def branch : Tree → Option Nat → Option Nat
  | .nil, k => k
  | t, _ => firstNode t

/-- The epsilon destinations of a node. -/
def dests (token : Token) (l r : Tree) (k : Option Nat) : List (Option Nat) :=
  match token.type with
  | .opDupAsterisk | .opAlt => [branch l k, branch r k]
  | .anchor | .opOpenSubexp | .opCloseSubexp | .opBackRef => [k]
  | _ => []

/-- Where a node goes with a character. -/
def follow (token : Token) (k : Option Nat) : Option (Option Nat) :=
  match token.type with
  | .concat | .endOfRe | .opDupAsterisk | .opAlt | .anchor | .opOpenSubexp | .opCloseSubexp => none
  | _ => some k

/-- The set of the epsilon destinations and the node behind are those of the tree. -/
structure Arc (nfa : Nfa) (a : Nat) (token : Token) (l r : Tree) (k : Option Nat) : Prop where
  edests : ∃ set xs, getAt nfa.graph.edests (nfa.nodeIdx a) = some set ∧ Holds set xs ∧
    ∀ x, x ∈ xs ↔ ∃ d ∈ dests token l r k, d.map nfa.nodeIdx = some x
  next : ∀ p ∈ follow token k, ∃ next, p.map nfa.nodeIdx = some next ∧
    getAt nfa.nexts (nfa.nodeIdx a) = some next

/-- All nodes lead where they are to lead. -/
def Arcs (nfa : Nfa) : Tree → Option Nat → Prop
  | .nil, _ => True
  | .node a token l r, k => (token.type ≠ .concat → Arc nfa a token l r k) ∧
      Arcs nfa l (leftNext a token r k) ∧ Arcs nfa r k

/-- `link_nfa_nodes` changes what one index leads to. -/
structure Links (nfa nfa' : Nfa) (is : List Int) : Prop where
  same : nfa' = { nfa with
    graph := { nfa.graph with edests := nfa'.graph.edests, calls := nfa'.graph.calls }
    nexts := nfa'.nexts }
  edests_length : nfa'.graph.edests.length = nfa.graph.edests.length
  nexts_length : nfa'.nexts.length = nfa.nexts.length
  edests : ∀ j ∉ is, getAt nfa'.graph.edests j = getAt nfa.graph.edests j
  nexts : ∀ j ∉ is, getAt nfa'.nexts j = getAt nfa.nexts j

theorem Links.refl (nfa : Nfa) (is : List Int) : Links nfa nfa is :=
  ⟨rfl, rfl, rfl, fun _ _ => rfl, fun _ _ => rfl⟩

theorem Links.mono {is is' : List Int} (h : Links nfa nfa' is) (hsub : is ⊆ is') :
    Links nfa nfa' is' :=
  ⟨h.same, h.edests_length, h.nexts_length, fun j hj => h.edests j fun hmem => hj (hsub hmem),
    fun j hj => h.nexts j fun hmem => hj (hsub hmem)⟩

theorem Links.trans {is is' : List Int} (h : Links nfa nfa' is) (h' : Links nfa' nfa'' is') :
    Links nfa nfa'' (is ++ is') := by
  refine ⟨by rw [h'.same, h.same], h'.edests_length.trans h.edests_length,
    h'.nexts_length.trans h.nexts_length, fun j hj => ?_, fun j hj => ?_⟩
  · rw [List.mem_append, not_or] at hj
    rw [h'.edests j hj.2, h.edests j hj.1]
  · rw [List.mem_append, not_or] at hj
    rw [h'.nexts j hj.2, h.nexts j hj.1]

/-- The set at an index becomes another one. -/
theorem initEdests_links {idx : Int} {r r' : Option (ReNodeSet × RegErrcode)} {set : ReNodeSet}
    (hr : OrFails r r') (hr' : r' = some (set, REG_NOERROR)) :
    Yields (fun q => q.2 = REG_NOERROR → Links nfa q.1 [idx] ∧
      getAt q.1.graph.edests idx = some set ∧ q.1.nexts = nfa.nexts) (nfa.initEdests idx r) := by
  unfold Nfa.initEdests Nfa.setEdests
  refine yields_bind fun p hp => yields_bind fun nfa' hnfa' => yields_some.mpr fun herr => ?_
  obtain ⟨edests, hset, hnfa'⟩ := Option.bind_eq_some_iff.mp hnfa'
  obtain rfl := Option.some.inj hnfa'
  obtain rfl : p = (set, REG_NOERROR) := by
    obtain heq | ⟨set', hfail⟩ := hr
    · exact Option.some.inj (hp.symm.trans (heq.trans hr'))
    · rw [hfail] at hp
      rw [← Option.some.inj hp] at herr
      simp [REG_NOERROR, REG_ESPACE] at herr
  obtain ⟨hself, hother⟩ := setAt_spec hset
  refine ⟨⟨rfl, length_setAt hset, rfl, fun j hj => ?_, fun _ _ => rfl⟩, hself, rfl⟩
  exact hother j fun heq => hj (heq ▸ List.mem_cons_self)

theorem setNext_links (idx next : Int) :
    Yields (fun nfa' => Links nfa nfa' [idx] ∧ getAt nfa'.nexts idx = some next ∧
      nfa'.graph = nfa.graph) (nfa.setNext idx next) := by
  refine yields_bind fun nexts hset => yields_some.mpr ?_
  obtain ⟨hself, hother⟩ := setAt_spec hset
  refine ⟨⟨rfl, rfl, length_setAt hset, fun _ _ => rfl, fun j hj => ?_⟩, hself, rfl⟩
  exact hother j fun heq => hj (heq ▸ List.mem_cons_self)

/-- The destination that is read for a child. -/
theorem branchIdx_eq {a : Nat} {child : Tree} {k : Option Nat} (hstart : Starting nfa.first child)
    (hk : nfa.next a = k) :
    nfa.branchIdx a child.root = (branch child k).map nfa.nodeIdx := by
  cases child with
  | nil =>
    rw [← hk]
    rfl
  | node b token l r =>
    change (nfa.first b).map nfa.nodeIdx = _
    rw [hstart.root rfl]
    rfl

/-- The number of the node, if it is one of the automaton. -/
def index (nfa : Nfa) (a : Nat) (token : Token) : List Int :=
  if token.type = .concat then [] else [nfa.nodeIdx a]

/-- A node with two destinations. -/
theorem linkBoth_spec {a : Nat} {token : Token} {l r : Tree} {k : Option Nat}
    (htype : token.type = .opDupAsterisk ∨ token.type = .opAlt) (hl : Starting nfa.first l)
    (hr : Starting nfa.first r) (hk : nfa.next a = k) :
    Yields (fun q => q.2 = REG_NOERROR → Links nfa q.1 [nfa.nodeIdx a] ∧ Arc q.1 a token l r k) (do
      let left ← nfa.branchIdx a l.root
      let right ← nfa.branchIdx a r.root
      let set ← getAt nfa.graph.edests (nfa.nodeIdx a)
      nfa.initEdests (nfa.nodeIdx a) (reNodeSetInit2 (ok nfa.graph.calls) set left right)) := by
  refine yields_bind fun left hleft => yields_bind fun right hright => yields_bind fun set _ => ?_
  obtain ⟨set', xs, hinit, hxs, hmem⟩ := init2_spec set left right
  refine (initEdests_links (init2_orFails _ set left right) hinit).mono fun q hq herr => ?_
  obtain ⟨hlinks, hset, -⟩ := hq herr
  have hidx : q.1.nodeIdx = nfa.nodeIdx := by rw [hlinks.same]
  rw [branchIdx_eq hl hk] at hleft
  rw [branchIdx_eq hr hk] at hright
  refine ⟨hlinks, ⟨set', xs, hidx ▸ hset, hxs, fun x => ?_⟩, fun p hp => ?_⟩
  · have hdests : dests token l r k = [branch l k, branch r k] := by
      unfold dests
      obtain htype | htype := htype
      · rw [htype]
      · rw [htype]
    rw [hmem, hdests, hidx]
    simp only [List.mem_cons, List.not_mem_nil, or_false, exists_eq_or_imp, exists_eq_left, hleft,
      hright, Option.some.injEq, eq_comm]
  · obtain htype | htype := htype
    · simp [follow, htype] at hp
    · simp [follow, htype] at hp

/-- A node with one destination. -/
theorem linkOne_spec {a : Nat} {token : Token} {l r : Tree} {k : Option Nat}
    (hdests : dests token l r k = [k]) (hfollow : follow token k = none) (hk : nfa.next a = k) :
    Yields (fun q => q.2 = REG_NOERROR → Links nfa q.1 [nfa.nodeIdx a] ∧ Arc q.1 a token l r k) (do
      nfa.initEdests (nfa.nodeIdx a) (reNodeSetInit1 (ok nfa.graph.calls) (← nfa.nextIdx a))) := by
  refine yields_bind fun next hnext => ?_
  obtain ⟨set', hinit, hxs⟩ := init1_spec next
  refine (initEdests_links (init1_orFails _ next) hinit).mono fun q hq herr => ?_
  obtain ⟨hlinks, hset, -⟩ := hq herr
  have hidx : q.1.nodeIdx = nfa.nodeIdx := by rw [hlinks.same]
  rw [Nfa.nextIdx, hk] at hnext
  refine ⟨hlinks, ⟨set', _, hidx ▸ hset, hxs, fun x => ?_⟩, fun p hp => ?_⟩
  · simp only [hdests, hidx, List.mem_singleton, exists_eq_left, hnext, Option.some.injEq]
    exact eq_comm
  · simp [hfollow] at hp

theorem holds_initEmpty : Holds reNodeSetInitEmpty [] :=
  ⟨List.Pairwise.nil, rfl, rfl, [], rfl⟩

theorem linkNfaNodes_spec {a : Nat} {token : Token} {l r : Tree} {k : Option Nat}
    (ha : nfa.trees[a]? = some ⟨par, l.root, r.root, token⟩) (hl : Starting nfa.first l)
    (hr : Starting nfa.first r) (hk : nfa.next a = k)
    (hfresh : ∀ i ∈ index nfa a token, getAt nfa.graph.edests i = some reNodeSetInitEmpty) :
    Yields (fun q => q.2 = REG_NOERROR → Links nfa q.1 (index nfa a token) ∧
        (token.type ≠ .concat → Arc q.1 a token l r k)) (linkNfaNodes ok a nfa) := by
  unfold linkNfaNodes
  simp only [ha, Option.bind_eq_bind, Option.bind_some]
  by_cases hconcat : token.type = .concat
  · rw [hconcat]
    exact yields_some.mpr fun _ => ⟨Links.refl _ _, fun hne => absurd rfl hne⟩
  have hindex : index nfa a token = [nfa.nodeIdx a] := if_neg hconcat
  rw [hindex] at hfresh ⊢
  have hfresh := hfresh _ List.mem_cons_self
  refine Yields.mono (P := fun q => q.2 = REG_NOERROR → Links nfa q.1 [nfa.nodeIdx a] ∧
    Arc q.1 a token l r k) ?_ fun q hq herr => ⟨(hq herr).1, fun _ => (hq herr).2⟩
  split
  · contradiction
  · next htype =>
    refine yields_some.mpr fun _ => ⟨Links.refl _ _, ⟨_, [], hfresh, holds_initEmpty, ?_⟩, ?_⟩
    · simp [dests, htype]
    · simp [follow, htype]
  · next htype => exact linkBoth_spec (.inl htype) hl hr hk
  · next htype => exact linkBoth_spec (.inr htype) hl hr hk
  · next htype => exact linkOne_spec (by simp [dests, htype]) (by simp [follow, htype]) hk
  · next htype => exact linkOne_spec (by simp [dests, htype]) (by simp [follow, htype]) hk
  · next htype => exact linkOne_spec (by simp [dests, htype]) (by simp [follow, htype]) hk
  · next htype =>
    refine yields_bind fun next hnext => ?_
    rw [Nfa.nextIdx, hk] at hnext
    refine (setNext_links (nfa.nodeIdx a) next).bind fun nfa₁ _ h₁ => ?_
    obtain ⟨hlinks₁, hnext₁, hgraph₁⟩ := h₁
    obtain ⟨set, hinit, hxs⟩ := init1_spec next
    refine (initEdests_links (init1_orFails _ next) hinit).mono fun q hq herr => ?_
    obtain ⟨hlinks₂, hset, hnexts⟩ := hq herr
    have hidx : q.1.nodeIdx = nfa.nodeIdx := by rw [hlinks₂.same, hlinks₁.same]
    refine ⟨(hlinks₁.trans hlinks₂).mono (by simp), ⟨set, _, hidx ▸ hset, hxs, fun x => ?_⟩,
      fun p hp => ?_⟩
    · have hdests : dests token l r k = [k] := by simp [dests, htype]
      simp only [hdests, hidx, List.mem_singleton, exists_eq_left, hnext, Option.some.injEq]
      exact eq_comm
    · obtain rfl : k = p := by simpa [follow, htype] using hp
      exact ⟨next, by rw [hidx, hnext], by rw [hidx, hnexts, hnext₁]⟩
  · next h₁ h₂ h₃ h₄ h₅ h₆ h₇ h₈ =>
    refine yields_bind fun next hnext => ?_
    rw [Nfa.nextIdx, hk] at hnext
    refine (setNext_links (nfa.nodeIdx a) next).bind fun nfa₁ _ h₁ => yields_some.mpr fun _ => ?_
    obtain ⟨hlinks₁, hnext₁, hgraph₁⟩ := h₁
    have hidx : nfa₁.nodeIdx = nfa.nodeIdx := by rw [hlinks₁.same]
    refine ⟨hlinks₁, ⟨_, [], ?_, holds_initEmpty, ?_⟩, fun p hp => ?_⟩
    · rw [hidx, hgraph₁]
      exact hfresh
    · have hdests : dests token l r k = [] := by
        unfold dests
        split
        all_goals first | contradiction | rfl
      simp [hdests]
    · obtain rfl : k = p := by
        unfold follow at hp
        split at hp
        all_goals first | contradiction | exact Option.some.inj hp
      exact ⟨next, by rw [hidx, hnext], by rw [hidx, hnext₁]⟩

/-- The numbers of the nodes of a tree. -/
def indices (nfa : Nfa) (t : Tree) : List Int := (emits t).map fun p => nfa.nodeIdx p.1

theorem indices_node (nfa : Nfa) (a : Nat) (token : Token) (l r : Tree) :
    indices nfa (.node a token l r) = indices nfa l ++ indices nfa r ++ index nfa a token := by
  rw [indices, emits, List.map_append, List.map_append, index]
  split
  · rfl
  · rfl

theorem Arc.congr {a : Nat} {token : Token} {l r : Tree} {k : Option Nat}
    (h : Arc nfa a token l r k) (hidx : nfa'.nodeIdx = nfa.nodeIdx)
    (hedests : getAt nfa'.graph.edests (nfa.nodeIdx a) = getAt nfa.graph.edests (nfa.nodeIdx a))
    (hnexts : getAt nfa'.nexts (nfa.nodeIdx a) = getAt nfa.nexts (nfa.nodeIdx a)) :
    Arc nfa' a token l r k := by
  obtain ⟨⟨set, xs, hset, hxs, hmem⟩, hnext⟩ := h
  refine ⟨⟨set, xs, by rw [hidx, hedests, hset], hxs, hidx ▸ hmem⟩, fun p hp => ?_⟩
  rw [hidx, hnexts]
  exact hnext p hp

theorem Arcs.congr (hidx : nfa'.nodeIdx = nfa.nodeIdx) : ∀ {t : Tree} {k : Option Nat},
    Arcs nfa t k →
    (∀ i ∈ indices nfa t, getAt nfa'.graph.edests i = getAt nfa.graph.edests i ∧
      getAt nfa'.nexts i = getAt nfa.nexts i) → Arcs nfa' t k
  | .nil, _, _, _ => trivial
  | .node a token l r, k, ⟨ha, hl, hr⟩, heq => by
    simp only [indices_node, List.mem_append] at heq
    refine ⟨fun hconcat => ?_, Arcs.congr hidx hl fun i hi => heq i (.inl (.inl hi)),
      Arcs.congr hidx hr fun i hi => heq i (.inl (.inr hi))⟩
    have hself := heq (nfa.nodeIdx a) (.inr (by simp [index, hconcat]))
    exact (ha hconcat).congr hidx hself.1 hself.2

theorem Links.nodeIdx {is : List Int} (h : Links nfa nfa' is) : nfa'.nodeIdx = nfa.nodeIdx := by
  rw [h.same]

theorem Links.kept {is : List Int} (h : Links nfa nfa' is) {i : Int} (hi : i ∉ is) :
    getAt nfa'.graph.edests i = getAt nfa.graph.edests i ∧ getAt nfa'.nexts i = getAt nfa.nexts i :=
  ⟨h.edests i hi, h.nexts i hi⟩

/-- What the walk through a tree needs. -/
structure Linkable (nfa : Nfa) (par : Option Nat) (t : Tree) (k : Option Nat) : Prop where
  linked : Linked nfa.trees par t
  starting : Starting nfa.first t
  continues : Continues nfa.next t k
  nodup : (indices nfa t).Nodup
  empty : ∀ i ∈ indices nfa t, getAt nfa.graph.edests i = some reNodeSetInitEmpty

/-- The walk through other nodes changes nothing of it. -/
theorem Linkable.later {is : List Int} {k : Option Nat} (h : Linkable nfa par t k)
    (hlinks : Links nfa nfa' is) (hdisj : ∀ i ∈ indices nfa t, i ∉ is) : Linkable nfa' par t k := by
  obtain ⟨hlinked, hstart, hcont, hnd, hempty⟩ := h
  have hindices : indices nfa' t = indices nfa t := by
    unfold indices
    rw [hlinks.nodeIdx]
  refine ⟨?_, ?_, ?_, hindices ▸ hnd, fun i hi => ?_⟩
  · rw [hlinks.same]
    exact hlinked
  · rw [hlinks.same]
    exact hstart
  · rw [hlinks.same]
    exact hcont
  · rw [hindices] at hi
    rw [hlinks.edests i (hdisj i hi), hempty i hi]

theorem linkNfaNodes_walk : ∀ {t : Tree} {nfa : Nfa} {par k : Option Nat}, Linkable nfa par t k →
    Yields (fun q => q.2 = REG_NOERROR → Links nfa q.1 (indices nfa t) ∧ Arcs q.1 t k)
      (t.preorder (linkNfaNodes ok) nfa)
  | .nil, nfa, _, _, _ => yields_some.mpr fun _ => ⟨Links.refl _ _, trivial⟩
  | .node a token l r, nfa, par, k, ⟨⟨ha, hl, hr⟩, ⟨hstart, hstartl, hstartr⟩,
      ⟨hk, hcontl, hcontr⟩, hnd, hempty⟩ => by
    rw [indices_node] at hnd hempty ⊢
    obtain ⟨hndlr, hnda, hdisja⟩ := List.nodup_append'.mp hnd
    obtain ⟨hndl, hndr, hdisj⟩ := List.nodup_append'.mp hndlr
    have hal : ∀ i ∈ indices nfa l, i ∉ index nfa a token := fun i hi hmem =>
      hdisja (List.mem_append_left _ hi) hmem
    have har : ∀ i ∈ indices nfa r, i ∉ index nfa a token := fun i hi hmem =>
      hdisja (List.mem_append_right _ hi) hmem
    have hl₀ : Linkable nfa (some a) l (leftNext a token r k) := ⟨hl, hstartl, hcontl, hndl,
      fun i hi => hempty i (List.mem_append_left _ (List.mem_append_left _ hi))⟩
    have hr₀ : Linkable nfa (some a) r k := ⟨hr, hstartr, hcontr, hndr,
      fun i hi => hempty i (List.mem_append_left _ (List.mem_append_right _ hi))⟩
    let J := fun nfa' => Links nfa nfa' (indices nfa l ++ indices nfa r ++ index nfa a token) ∧
      Arcs nfa' (.node a token l r) k
    refine yields_andThen (I := fun nfa₁ => Links nfa nfa₁ (index nfa a token) ∧
        (token.type ≠ .concat → Arc nfa₁ a token l r k)) (J := J)
      (linkNfaNodes_spec ha hstartl hstartr hk fun i hi => hempty i (List.mem_append_right _ hi))
      fun nfa₁ h₁ => ?_
    obtain ⟨hlinks₁, harc⟩ := h₁
    have hl₁ := hl₀.later hlinks₁ hal
    have hr₁ := hr₀.later hlinks₁ har
    have hindices : ∀ t, indices nfa₁ t = indices nfa t := fun t => by
      unfold indices
      rw [hlinks₁.nodeIdx]
    refine yields_andThen (I := fun nfa₂ => Links nfa₁ nfa₂ (indices nfa₁ l) ∧
        Arcs nfa₂ l (leftNext a token r k)) (J := J) (linkNfaNodes_walk hl₁) fun nfa₂ h₂ => ?_
    obtain ⟨hlinks₂, harcs₂⟩ := h₂
    have hr₂ := hr₁.later hlinks₂ fun i hi hmem => by
      rw [hindices] at hi hmem
      exact hdisj hmem hi
    refine (linkNfaNodes_walk hr₂).mono fun q hq herr => ?_
    obtain ⟨hlinks₃, harcs₃⟩ := hq herr
    have hidx₂ : nfa₂.nodeIdx = nfa.nodeIdx := hlinks₂.nodeIdx.trans hlinks₁.nodeIdx
    have hindices₂ : ∀ t, indices nfa₂ t = indices nfa t := fun t => by
      unfold indices
      rw [hidx₂]
    rw [hindices] at hlinks₂
    rw [hindices₂] at hlinks₃
    refine ⟨((hlinks₁.trans hlinks₂).trans hlinks₃).mono fun i hi => ?_, fun hconcat => ?_, ?_,
      harcs₃⟩
    · simp only [List.mem_append] at hi ⊢
      tauto
    · have hself : nfa.nodeIdx a ∈ index nfa a token := by simp [index, hconcat]
      have hl₂ := hlinks₂.kept fun hmem => hal _ hmem hself
      have hr₃ := hlinks₃.kept fun hmem => har _ hmem hself
      have hidx₁ := hlinks₁.nodeIdx
      refine (harc hconcat).congr (hlinks₃.nodeIdx.trans (hidx₂.trans hidx₁.symm)) ?_ ?_
      · rw [hidx₁, hr₃.1, hl₂.1]
      · rw [hidx₁, hr₃.2, hl₂.2]
    · refine harcs₂.congr hlinks₃.nodeIdx fun i hi => hlinks₃.kept fun hmem => ?_
      rw [hindices₂] at hi
      exact hdisj hi hmem

end Librecompat.Regcomp
