/-
  What the functions on trees leave alone.

  `Apart base trees` says that the memory `base` is still the front of `trees`, and that no node
  behind it leads to one of its nodes. A function that gets pointers behind `base` follows links and
  changes nodes behind `base` only, so it keeps this, and so a tree that was built in `base` stands
  as it did.
-/
import Librecompat.Lib.Yields
import Librecompat.RegTree.Duplicate

namespace Librecompat.RegTree

open Librecompat.Lib
open Librecompat.Regex (RegErrcode REG_NOERROR REG_ESPACE)

/-- The pointer leads to no node below `n`. -/
def From (n : Nat) (p : Option Nat) : Prop := ∀ i ∈ p, n ≤ i

theorem from_none (n : Nat) : From n none := fun _ h => absurd h (by simp)

theorem from_some {n i : Nat} : From n (some i) ↔ n ≤ i := by simp [From]

theorem From.mono {m n : Nat} {p : Option Nat} (h : From n p) (hle : m ≤ n) : From m p :=
  fun i hi => hle.trans (h i hi)

structure BinTree.From (n : Nat) (node : BinTree) : Prop where
  parent : RegTree.From n node.parent
  left : RegTree.From n node.left
  right : RegTree.From n node.right

structure Apart (base trees : List BinTree) : Prop where
  kept : base <+: trees
  links : ∀ i node, base.length ≤ i → trees[i]? = some node → node.From base.length

variable {base trees mid : List BinTree} {ok : Nat → Bool} {dfa : Dfa} {fuel : Nat}

theorem Apart.refl (base : List BinTree) : Apart base base :=
  ⟨List.prefix_refl _, fun i node hi hnode => by
    rw [List.getElem?_eq_none hi] at hnode
    cases hnode⟩

theorem Apart.length_le (h : Apart base trees) : base.length ≤ trees.length := h.kept.length_le

theorem Apart.get (h : Apart base trees) {i : Nat} (hi : i < base.length) : trees[i]? = base[i]? := by
  obtain ⟨more, rfl⟩ := h.kept
  exact List.getElem?_append_left hi

theorem Apart.trans (h : Apart base mid) (h' : Apart mid trees) : Apart base trees := by
  refine ⟨h.kept.trans h'.kept, fun i node hi hnode => ?_⟩
  by_cases hmid : i < mid.length
  · rw [h'.get hmid] at hnode
    exact h.links i node hi hnode
  · obtain ⟨hparent, hleft, hright⟩ := h'.links i node (Nat.le_of_not_lt hmid) hnode
    exact ⟨hparent.mono h.length_le, hleft.mono h.length_le, hright.mono h.length_le⟩

/-- A tree that stood in memory stands there still. -/
theorem Apart.linked (h : Apart base trees) {par : Option Nat} {t : Tree} (ht : Linked base par t) :
    Linked trees par t :=
  ht.congr fun a ha => h.get (ht.lt a ha)

theorem Apart.le_of_mem (h : Apart base trees) : ∀ {t : Tree} {par : Option Nat},
    Linked trees par t → From base.length t.root → ∀ a ∈ t.addrs, base.length ≤ a
  | .nil, _, _, _, a, ha => absurd ha (by simp [Tree.addrs])
  | .node b token l r, _, ⟨hb, hl, hr⟩, hroot, a, ha => by
    have hle : base.length ≤ b := from_some.mp hroot
    have hlinks := h.links b _ hle hb
    simp only [Tree.addrs, List.mem_cons, List.mem_append] at ha
    obtain rfl | ha | ha := ha
    · exact hle
    · exact h.le_of_mem hl hlinks.left a ha
    · exact h.le_of_mem hr hlinks.right a ha

/-! ## Changes of one node -/

theorem Apart.modifyTree (h : Apart base trees) {i : Nat} (hi : base.length ≤ i)
    {f : BinTree → BinTree} (hf : ∀ node, node.From base.length → (f node).From base.length) :
    Yields (Apart base) (modifyTree trees i f) := by
  unfold RegTree.modifyTree
  split
  · refine yields_some.mpr ⟨?_, fun j node hj hnode => ?_⟩
    · obtain ⟨more, rfl⟩ := h.kept
      rw [modify_append hi]
      exact List.prefix_append _ _
    · rw [List.getElem?_modify] at hnode
      obtain ⟨old, hold, rfl⟩ := Option.map_eq_some_iff.mp hnode
      have hlinks := h.links j old hj hold
      by_cases heq : i = j
      · rw [if_pos heq]
        exact hf old hlinks
      · rw [if_neg heq]
        exact hlinks
  · exact yields_none

theorem Apart.modify (h : Apart base dfa.trees) {i : Nat} (hi : base.length ≤ i)
    {f : BinTree → BinTree} (hf : ∀ node, node.From base.length → (f node).From base.length) :
    Yields (fun dfa' => Apart base dfa'.trees) (dfa.modify i f) :=
  (h.modifyTree hi hf).bind fun _ _ h' => yields_some.mpr h'

theorem Apart.setParent (h : Apart base trees) {tree : Nat} (htree : base.length ≤ tree)
    {child : Option Nat} (hchild : From base.length child) :
    Yields (Apart base) (setParent trees tree child) := by
  cases child with
  | none => exact yields_some.mpr h
  | some child =>
    exact h.modifyTree (from_some.mp hchild) fun node hnode =>
      ⟨from_some.mpr htree, hnode.left, hnode.right⟩

/-! ## Making trees -/

/-- What a call leaves that makes a tree. -/
def Makes (base : List BinTree) (q : Dfa × Option Nat) : Prop :=
  Apart base q.1.trees ∧ From base.length q.2

theorem Apart.createTokenTree (h : Apart base dfa.trees) {left right : Option Nat}
    (hleft : From base.length left) (hright : From base.length right) (token : Token) :
    Yields (Makes base) (createTokenTree ok dfa left right token) := by
  unfold RegTree.createTokenTree
  split
  · exact yields_some.mpr ⟨h, from_none _⟩
  · have hnew : Apart base (dfa.trees ++
        [⟨none, left, right, { token with duplicated := false, optSubexp := false }⟩]) := by
      refine ⟨h.kept.trans (List.prefix_append _ _), fun i node hi hnode => ?_⟩
      rw [List.getElem?_append] at hnode
      split at hnode
      · exact h.links i node hi hnode
      · have hmem := List.mem_of_getElem? hnode
        rw [List.mem_singleton.mp hmem]
        exact ⟨from_none _, hleft, hright⟩
    dsimp only
    split
    all_goals
      exact (hnew.setParent h.length_le hleft).bind fun _ _ h₁ =>
        (h₁.setParent h.length_le hright).bind fun _ _ h₂ =>
          yields_some.mpr ⟨h₂, from_some.mpr h.length_le⟩

theorem Apart.createTree (h : Apart base dfa.trees) {left right : Option Nat}
    (hleft : From base.length left) (hright : From base.length right) (type : TokenType) :
    Yields (Makes base) (createTree ok dfa left right type) :=
  h.createTokenTree hleft hright _

/-! ## duplicate_tree -/

def Slot.From (n : Nat) : Slot → Prop
  | .dupRoot => True
  | .left tree | .right tree => n ≤ tree

def DupAt.From (n : Nat) : DupAt → Prop
  | .copy node pNew dupNode => n ≤ node ∧ pNew.From n ∧ RegTree.From n dupNode
  | .climb node dupNode _ => n ≤ node ∧ RegTree.From n dupNode

structure Dup.Apart (base : List BinTree) (s : Dup) : Prop where
  trees : RegTree.Apart base s.dfa.trees
  dupRoot : From base.length s.dupRoot
  pos : s.pos.From base.length

theorem Dup.Apart.store {s : Dup} (h : s.Apart base) {slot : Slot} (hslot : slot.From base.length)
    {new : Option Nat} (hnew : From base.length new) :
    Yields (Dup.Apart base) (s.store slot new) := by
  cases slot with
  | dupRoot => exact yields_some.mpr ⟨h.trees, hnew, h.pos⟩
  | left node =>
    refine (h.trees.modify hslot fun node hnode => ?_).bind fun _ _ h' =>
      yields_some.mpr ⟨h', h.dupRoot, h.pos⟩
    exact ⟨hnode.parent, hnew, hnode.right⟩
  | right node =>
    refine (h.trees.modify hslot fun node hnode => ?_).bind fun _ _ h' =>
      yields_some.mpr ⟨h', h.dupRoot, h.pos⟩
    exact ⟨hnode.parent, hnode.left, hnew⟩

theorem dupPass_apart {s : Dup} (h : s.Apart base) :
    Yields (Sum.elim (Dup.Apart base) (Makes base)) (dupPass ok s) := by
  have hpos := h.pos
  unfold dupPass
  split
  · next node pNew dupNode hcopy =>
    rw [hcopy] at hpos
    obtain ⟨hnode, hslot, hdup⟩ := hpos
    refine yields_bind fun src hsrc => ?_
    have hlinks := h.trees.links node src hnode hsrc
    refine (h.trees.createTokenTree (from_none _) (from_none _) src.token).bind fun q _ hq => ?_
    refine (Dup.Apart.store (s := { s with dfa := q.1 }) ⟨hq.1, h.dupRoot, h.pos⟩ hslot
      hq.2).bind fun s₂ _ h₂ => ?_
    dsimp only
    split
    · exact yields_some.mpr ⟨h₂.trees, from_none _⟩
    · next tree htree =>
      have hle : base.length ≤ tree := from_some.mp (htree ▸ hq.2)
      refine Yields.bind (h₂.trees.modify hle fun node hnode => ?_) fun dfa₃ _ h₃ => ?_
      · exact ⟨hdup, hnode.left, hnode.right⟩
      split
      · next left hleft =>
        exact yields_some.mpr ⟨h₃, h₂.dupRoot, from_some.mp (hleft ▸ hlinks.left), hle,
          from_some.mpr hle⟩
      · exact yields_some.mpr ⟨h₃, h₂.dupRoot, hnode, from_some.mpr hle⟩
  · next node dupNode prev hclimb =>
    rw [hclimb] at hpos
    obtain ⟨hnode, hdup⟩ := hpos
    refine yields_bind fun src hsrc => yields_bind fun dupIdx hdupIdx =>
      yields_bind fun dup hread => ?_
    have hlinks := h.trees.links node src hnode hsrc
    have hdupLe : base.length ≤ dupIdx := hdup dupIdx hdupIdx
    split
    · split
      · exact yields_some.mpr ⟨h.trees, h.dupRoot⟩
      · next parent hparent =>
        exact yields_some.mpr ⟨h.trees, h.dupRoot, from_some.mp (hparent ▸ hlinks.parent),
          (h.trees.links dupIdx dup hdupLe hread).parent⟩
    · refine yields_bind fun right hright => yields_some.mpr ⟨h.trees, h.dupRoot, ?_, hdupLe, hdup⟩
      exact from_some.mp (hright ▸ hlinks.right)

theorem Apart.duplicateTree (h : Apart base dfa.trees) {root : Nat} (hroot : base.length ≤ root) :
    Yields (Makes base) (duplicateTree ok fuel dfa root) := by
  refine yields_bind fun tree htree => yields_tryLoop (I := Dup.Apart base)
    (fun s hs => dupPass_apart hs) ⟨h, from_none _, hroot, trivial, ?_⟩
  exact (h.links root tree hroot htree).parent

/-! ## postorder -/

def PostAt.node : PostAt → Nat
  | .descend node | .visit node => node

theorem Apart.postorder {fn : Nat → Dfa → Option Dfa}
    (hfn : ∀ node dfa, base.length ≤ node → Apart base dfa.trees →
      Yields (fun dfa' => Apart base dfa'.trees) (fn node dfa))
    (h : Apart base dfa.trees) {root : Nat} (hroot : base.length ≤ root) :
    Yields (fun dfa' => Apart base dfa'.trees) (postorder fuel fn dfa root) := by
  refine yields_tryLoop (I := fun s : Dfa × PostAt => Apart base s.1.trees ∧
    base.length ≤ s.2.node) (fun s hs => ?_) ⟨h, hroot⟩
  obtain ⟨hs, hle⟩ := hs
  unfold postPass
  split
  · next node hpos =>
    rw [hpos] at hle
    refine yields_bind fun tree htree => ?_
    have hlinks := hs.links node tree hle htree
    split
    · next left _ hleft => exact yields_some.mpr ⟨hs, from_some.mp (hleft ▸ hlinks.left)⟩
    · next right _ hright => exact yields_some.mpr ⟨hs, from_some.mp (hright ▸ hlinks.right)⟩
    · exact yields_some.mpr ⟨hs, hle⟩
  · next node hpos =>
    rw [hpos] at hle
    refine (hfn node s.1 hle hs).bind fun dfa' _ h' => yields_bind fun tree htree => ?_
    have hlinks := h'.links node tree hle htree
    split
    · exact yields_some.mpr h'
    · next parent hparent =>
      have hup : base.length ≤ parent := from_some.mp (hparent ▸ hlinks.parent)
      refine yields_bind fun up hread => ?_
      split
      · exact yields_some.mpr ⟨h', hup⟩
      · refine yields_bind fun right hright => yields_some.mpr ⟨h', ?_⟩
        exact from_some.mp (hright ▸ (h'.links parent up hup hread).right)

theorem Apart.free (h : Apart base dfa.trees) {root : Nat} (hroot : base.length ≤ root) :
    Yields (fun dfa' => Apart base dfa'.trees) (RegTree.postorder fuel freeTree dfa root) := by
  refine Apart.postorder (fun node dfa _ hdfa => yields_bind fun tree _ => ?_) h hroot
  split
  · exact yields_some.mpr hdfa
  · exact yields_some.mpr hdfa

theorem Apart.markOptSubexp (h : Apart base dfa.trees) (idx : Nat) {root : Nat}
    (hroot : base.length ≤ root) :
    Yields (fun dfa' => Apart base dfa'.trees)
      (RegTree.postorder fuel (RegTree.markOptSubexp idx) dfa root) := by
  refine Apart.postorder (fun node dfa hnode hdfa => ?_) h hroot
  exact Apart.modify hdfa hnode fun _ hlinks => ⟨hlinks.parent, hlinks.left, hlinks.right⟩

/-! ## parse_dup_op -/

/-- What the loops over the copies leave. -/
def MakesCopies (base : List BinTree) (r : Dfa × Option (Nat × Nat)) : Prop :=
  Apart base r.1.trees ∧ ∀ p ∈ r.2, base.length ≤ p.1 ∧ base.length ≤ p.2

theorem makesCopies_none {dfa : Dfa} (h : Apart base dfa.trees) : MakesCopies base (dfa, none) :=
  ⟨h, fun _ hp => absurd hp (by simp)⟩

theorem Apart.mandatoryCopies : ∀ {n : Nat} {dfa : Dfa} {elem tree : Nat}, Apart base dfa.trees →
    base.length ≤ elem → base.length ≤ tree →
    Yields (MakesCopies base) (mandatoryCopies ok fuel n dfa elem tree)
  | 0, _, _, _, h, helem, htree => yields_some.mpr ⟨h, by simpa using ⟨helem, htree⟩⟩
  | n + 1, dfa, elem, tree, h, helem, htree => by
    refine (h.duplicateTree helem).bind fun q₁ _ h₁ => ?_
    refine (h₁.1.createTree (from_some.mpr htree) h₁.2 _).bind fun q₂ _ h₂ => ?_
    dsimp only
    split
    · next elem' tree' helem' htree' =>
      exact Apart.mandatoryCopies h₂.1 (h₁.2 elem' helem') (h₂.2 tree' htree')
    · exact yields_some.mpr (makesCopies_none h₂.1)

theorem Apart.optionalCopies : ∀ {n : Nat} {dfa : Dfa} {elem tree : Nat}, Apart base dfa.trees →
    base.length ≤ elem → base.length ≤ tree →
    Yields (MakesCopies base) (optionalCopies ok fuel n dfa elem tree)
  | 0, _, _, _, h, helem, htree => yields_some.mpr ⟨h, by simpa using ⟨helem, htree⟩⟩
  | n + 1, dfa, elem, tree, h, helem, htree => by
    refine (h.duplicateTree helem).bind fun q₁ _ h₁ => ?_
    refine (h₁.1.createTree (from_some.mpr htree) h₁.2 _).bind fun q₂ _ h₂ => ?_
    dsimp only
    split
    · next elem' tree' helem' htree' =>
      refine (h₂.1.createTree (from_some.mpr (h₂.2 tree' htree')) (from_none _) _).bind
        fun q₃ _ h₃ => ?_
      split
      · next tree₃ htree₃ => exact Apart.optionalCopies h₃.1 (h₁.2 elem' helem') (h₃.2 tree₃ htree₃)
      · exact yields_some.mpr (makesCopies_none h₃.1)
    · exact yields_some.mpr (makesCopies_none h₂.1)

theorem Apart.expandOptional (h : Apart base dfa.trees) {elem : Nat} (helem : base.length ≤ elem)
    {oldTree : Option Nat} (hold : From base.length oldTree) {start stop : Int} :
    Yields (fun r => Makes base (r.1, r.2.1))
      (expandOptional ok fuel dfa elem oldTree start stop) := by
  refine yields_bind fun node _ => ?_
  have hmark : Yields (fun dfa' => Apart base dfa'.trees)
      (if node.token.type = .subexp then
        RegTree.postorder fuel (RegTree.markOptSubexp node.token.opr) dfa elem
      else some dfa) := by
    split
    · exact h.markOptSubexp _ helem
    · exact yields_some.mpr h
  refine hmark.bind fun dfa₁ _ h₁ => ?_
  refine (h₁.createTree (from_some.mpr helem) (from_none _) _).bind fun q₂ _ h₂ => ?_
  dsimp only
  split
  · exact yields_some.mpr ⟨h₂.1, from_none _⟩
  · next tree htree =>
    refine (h₂.1.optionalCopies helem (h₂.2 tree htree)).bind fun q₃ _ h₃ => ?_
    split
    · exact yields_some.mpr ⟨h₃.1, from_none _⟩
    · next elem' tree' hcopies =>
      exact yields_some.mpr ⟨h₃.1, from_some.mpr (h₃.2 _ hcopies).2⟩
    · next elem' tree' old hcopies =>
      exact (h₃.1.createTree hold (from_some.mpr (h₃.2 _ hcopies).2) _).bind fun q₄ _ h₄ =>
        yields_some.mpr h₄

theorem Apart.expandDup (h : Apart base dfa.trees) {elem : Nat} (helem : base.length ≤ elem)
    {start stop : Int} :
    Yields (fun r => Makes base (r.1, r.2.1)) (expandDup ok fuel dfa elem start stop) := by
  unfold RegTree.expandDup
  split
  · refine (h.mandatoryCopies helem helem).bind fun q₁ _ h₁ => ?_
    dsimp only
    split
    · exact yields_some.mpr ⟨h₁.1, from_none _⟩
    · next elem' tree hcopies =>
      obtain ⟨helem', htree⟩ := h₁.2 _ hcopies
      split
      · exact yields_some.mpr ⟨h₁.1, from_some.mpr htree⟩
      · refine (h₁.1.duplicateTree helem').bind fun q₂ _ h₂ => ?_
        split
        · exact yields_some.mpr ⟨h₂.1, from_none _⟩
        · next elem₂ helem₂ => exact h₂.1.expandOptional (h₂.2 elem₂ helem₂) (from_some.mpr htree)
  · exact h.expandOptional helem (from_none _)

end Librecompat.RegTree
