/-
  Trees in memory.

  A `Tree` is a binary tree whose nodes know their addresses; `Linked` says that the nodes stand in
  memory with the links of the tree, the root under a given parent. What is said of a tree depends
  on its own nodes only (`Linked.congr`). `createTree_spec` puts two trees under a new node.
-/
import Librecompat.RegTree.Model
import Mathlib.Data.List.Nodup

namespace Librecompat.RegTree

open Librecompat.Lib
open Librecompat.Regex (RegErrcode REG_NOERROR REG_ESPACE)

/-! ## Trees -/

/-- A binary tree with the addresses and the tokens of its nodes; `nil` is a null pointer. -/
inductive Tree where
  | nil
  | node (addr : Nat) (token : Token) (left right : Tree)

namespace Tree

/-- The pointer to the tree. -/
def root : Tree → Option Nat
  | nil => none
  | node a _ _ _ => some a

/-- The addresses of the nodes. -/
def addrs : Tree → List Nat
  | nil => []
  | node a _ l r => a :: (l.addrs ++ r.addrs)

def size : Tree → Nat
  | nil => 0
  | node _ _ l r => l.size + r.size + 1

/-- Another token in every node. -/
def map (f : Token → Token) : Tree → Tree
  | nil => nil
  | node a token l r => node a (f token) (l.map f) (r.map f)

@[simp] theorem root_nil : nil.root = none := rfl

@[simp] theorem root_node (a : Nat) (token : Token) (l r : Tree) :
    (node a token l r).root = some a := rfl

@[simp] theorem length_addrs (t : Tree) : t.addrs.length = t.size := by
  induction t with
  | nil => rfl
  | node a token l r ihl ihr => simp [addrs, size, ihl, ihr]

@[simp] theorem root_map (f : Token → Token) (t : Tree) : (t.map f).root = t.root := by
  cases t <;> rfl

@[simp] theorem addrs_map (f : Token → Token) (t : Tree) : (t.map f).addrs = t.addrs := by
  induction t with
  | nil => rfl
  | node a token l r ihl ihr => simp [map, addrs, ihl, ihr]

theorem root_mem {t : Tree} {a : Nat} (h : t.root = some a) : a ∈ t.addrs := by
  cases t with
  | nil => simp at h
  | node b token l r =>
    obtain rfl : b = a := by simpa using h
    simp [addrs]

theorem root_eq_none {t : Tree} : t.root = none ↔ t = nil := by
  cases t <;> simp

end Tree

/-! ## Trees in memory -/

/-- The nodes of the tree stand in memory, the root with the parent `par`. -/
def Linked (trees : List BinTree) : Option Nat → Tree → Prop
  | _, .nil => True
  | par, .node a token l r => trees[a]? = some ⟨par, l.root, r.root, token⟩ ∧
      Linked trees (some a) l ∧ Linked trees (some a) r

variable {trees trees' : List BinTree} {par : Option Nat}

theorem Linked.nil (trees : List BinTree) (par : Option Nat) : Linked trees par .nil := trivial

theorem Linked.congr : ∀ {t : Tree} {par : Option Nat}, Linked trees par t →
    (∀ a ∈ t.addrs, trees'[a]? = trees[a]?) → Linked trees' par t
  | .nil, _, _, _ => trivial
  | .node a token l r, _, ⟨ha, hl, hr⟩, h => by
    simp only [Tree.addrs, List.forall_mem_cons, List.mem_append] at h
    exact ⟨by rw [h.1, ha], hl.congr fun b hb => h.2 b (.inl hb),
      hr.congr fun b hb => h.2 b (.inr hb)⟩

theorem Linked.lt : ∀ {t : Tree} {par : Option Nat}, Linked trees par t →
    ∀ a ∈ t.addrs, a < trees.length
  | .nil, _, _, _, ha => by simp [Tree.addrs] at ha
  | .node b token l r, _, ⟨hb, hl, hr⟩, a, ha => by
    simp only [Tree.addrs, List.mem_cons, List.mem_append] at ha
    rcases ha with rfl | ha | ha
    · exact (List.getElem?_eq_some_iff.mp hb).1
    · exact hl.lt a ha
    · exact hr.lt a ha

theorem Linked.append {t : Tree} (h : Linked trees par t) (more : List BinTree) :
    Linked (trees ++ more) par t :=
  h.congr fun a ha => List.getElem?_append_left (h.lt a ha)

/-- The cell of the root. -/
theorem Linked.exists_root {t : Tree} {a : Nat} (h : Linked trees par t) (ha : t.root = some a) :
    ∃ n, trees[a]? = some n ∧ n.parent = par := by
  cases t with
  | nil => simp at ha
  | node b token l r =>
    obtain rfl : b = a := by simpa using ha
    exact ⟨_, h.1, rfl⟩

/-- The memory decides which tree a pointer leads to. -/
theorem Linked.unique : ∀ {t t' : Tree} {par par' : Option Nat}, Linked trees par t →
    Linked trees par' t' → t.root = t'.root → t = t'
  | .nil, .nil, _, _, _, _, _ => rfl
  | .nil, .node _ _ _ _, _, _, _, _, hroot => by simp at hroot
  | .node _ _ _ _, .nil, _, _, _, _, hroot => by simp at hroot
  | .node a token l r, .node b token' l' r', _, _, ⟨ha, hl, hr⟩, ⟨hb, hl', hr'⟩, hroot => by
    obtain rfl : a = b := by simpa using hroot
    obtain ⟨-, hleft, hright, rfl⟩ := BinTree.mk.inj (Option.some.inj (ha.symm.trans hb))
    rw [hl.unique hl' hleft, hr.unique hr' hright]

/-- A pointer to a tree without a parent, as the functions that parse leave it. -/
structure Stands (dfa : Dfa) (tree : Option Nat) (t : Tree) : Prop where
  root : t.root = tree
  linked : Linked dfa.trees none t
  nodup : t.addrs.Nodup

/-! ## Changes of one node -/

theorem modifyTree_spec {a : Nat} (h : a < trees.length) (f : BinTree → BinTree) :
    ∃ trees', modifyTree trees a f = some trees' ∧ trees'.length = trees.length ∧
      trees'[a]? = trees[a]?.map f ∧ ∀ i, i ≠ a → trees'[i]? = trees[i]? := by
  refine ⟨trees.modify a f, if_pos h, List.length_modify _ _ _, ?_, fun i hi => ?_⟩
  · rw [List.getElem?_modify_eq]
    rfl
  · rw [List.getElem?_modify_ne _ _ (Ne.symm hi)]

/-- A tree gets another parent. -/
theorem setParent_spec {t : Tree} (h : Linked trees par t) (hnd : t.addrs.Nodup) (b : Nat) :
    ∃ trees', setParent trees b t.root = some trees' ∧ Linked trees' (some b) t ∧
      trees'.length = trees.length ∧ ∀ i, t.root ≠ some i → trees'[i]? = trees[i]? := by
  cases t with
  | nil => exact ⟨trees, rfl, trivial, rfl, fun _ _ => rfl⟩
  | node a token l r =>
    obtain ⟨ha, hl, hr⟩ := h
    have hlt : a < trees.length := (List.getElem?_eq_some_iff.mp ha).1
    obtain ⟨trees', hmod, hlen, hself, hother⟩ := modifyTree_spec hlt
      (fun node : BinTree => { node with parent := some b })
    simp only [Tree.addrs, List.nodup_cons, List.mem_append, not_or] at hnd
    have hne : ∀ {s : Tree}, a ∉ s.addrs → ∀ i ∈ s.addrs, trees'[i]? = trees[i]? :=
      fun hs i hi => hother i fun heq => hs (heq ▸ hi)
    refine ⟨trees', hmod, ⟨by rw [hself, ha]; rfl, hl.congr (hne hnd.1.1), hr.congr (hne hnd.1.2)⟩,
      hlen, fun i hi => hother i fun heq => hi (by rw [heq]; rfl)⟩

/-! ## create_tree -/

variable {ok : Nat → Bool} {dfa : Dfa}

/-- The record after the storage has been found. -/
theorem createTokenTree_ok (hok : ∀ k, ok k = true) (left right : Option Nat) (token : Token)
    {trees₁ trees₂ : List BinTree}
    (h₁ : setParent (dfa.trees ++ [⟨none, left, right,
      { token with duplicated := false, optSubexp := false }⟩]) dfa.trees.length left = some trees₁)
    (h₂ : setParent trees₁ dfa.trees.length right = some trees₂) :
    ∃ dfa', createTokenTree ok dfa left right token = some (dfa', some dfa.trees.length) ∧
      dfa'.trees = trees₂ := by
  unfold createTokenTree
  rw [if_neg (by simp [hok])]
  by_cases hfull : dfa.strTreeStorageIdx = BIN_TREE_STORAGE_SIZE
  · simp only [hfull, if_true, h₁, h₂, Option.bind_eq_bind, Option.bind_some]
    exact ⟨_, rfl, rfl⟩
  · simp only [hfull, if_false, h₁, h₂, Option.bind_eq_bind, Option.bind_some]
    exact ⟨_, rfl, rfl⟩

/-- A node without children. -/
theorem createTokenTree_leaf (hok : ∀ k, ok k = true) (dfa : Dfa) (token : Token) :
    ∃ dfa', createTokenTree ok dfa none none token = some (dfa', some dfa.trees.length) ∧
      dfa'.trees = dfa.trees ++ [⟨none, none, none,
        { token with duplicated := false, optSubexp := false }⟩] :=
  createTokenTree_ok hok none none token rfl rfl

/-- Two trees are put under a new node; of the other nodes none changes. -/
theorem createTree_spec (hok : ∀ k, ok k = true) {l r : Tree} {pl pr : Option Nat}
    (hl : Linked dfa.trees pl l) (hr : Linked dfa.trees pr r) (hnd : (l.addrs ++ r.addrs).Nodup)
    (type : TokenType) :
    ∃ dfa', createTree ok dfa l.root r.root type = some (dfa', some dfa.trees.length) ∧
      Linked dfa'.trees none (.node dfa.trees.length { type := type } l r) ∧
      dfa'.trees.length = dfa.trees.length + 1 ∧
      ∀ i < dfa.trees.length, l.root ≠ some i → r.root ≠ some i →
        dfa'.trees[i]? = dfa.trees[i]? := by
  obtain ⟨hndl, hndr, hdisj⟩ := List.nodup_append'.mp hnd
  have hroot : ∀ {t : Tree} {p : Option Nat}, Linked dfa.trees p t →
      t.root ≠ some dfa.trees.length := fun h heq => lt_irrefl _ (h.lt _ (Tree.root_mem heq))
  obtain ⟨trees₁, h₁, hl₁, hlen₁, hframe₁⟩ := setParent_spec (hl.append [⟨none, l.root, r.root,
    { type := type }⟩]) hndl dfa.trees.length
  have hr₁ : Linked trees₁ pr r := by
    refine (hr.append _).congr fun a ha => hframe₁ a fun heq => ?_
    exact hdisj (Tree.root_mem heq) ha
  obtain ⟨trees₂, h₂, hr₂, hlen₂, hframe₂⟩ := setParent_spec hr₁ hndr dfa.trees.length
  have hl₂ : Linked trees₂ (some dfa.trees.length) l := by
    refine hl₁.congr fun a ha => hframe₂ a fun heq => ?_
    exact hdisj ha (Tree.root_mem heq)
  obtain ⟨dfa', hcreate, htrees⟩ := createTokenTree_ok hok l.root r.root { type := type } h₁ h₂
  refine ⟨dfa', hcreate, ?_, ?_, ?_⟩
  · rw [htrees]
    refine ⟨?_, hl₂, hr₂⟩
    rw [hframe₂ _ (hroot hr), hframe₁ _ (hroot hl)]
    simp
  · rw [htrees, hlen₂, hlen₁, List.length_append, List.length_singleton]
  · intro i hi hil hir
    rw [htrees, hframe₂ i hir, hframe₁ i hil, List.getElem?_append_left hi]

end Librecompat.RegTree
