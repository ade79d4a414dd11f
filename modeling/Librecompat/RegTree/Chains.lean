/-
  The two loops of `parse_dup_op`.

  Both put one more copy of the operand under a CONCAT (`append_copy`): the mandatory copies form a
  chain (`Chain`), the optional ones a nest (`Nest`), whose innermost node has one copy only. The
  copy that is duplicated next is the last one, and from there the walk upwards ends after at most
  two steps, since nothing stands on its right (`Chain.last`, `Nest.last`).
-/
import Librecompat.RegTree.Duplicate
import Librecompat.RegTree.Postorder

namespace Librecompat.RegTree

open Librecompat.Lib
open Librecompat.Regex (RegErrcode REG_NOERROR REG_ESPACE)

variable {ok : Nat → Bool} {dfa : Dfa}

/-! ## Shapes of copies -/

namespace Tree

/-- The tree without addresses and flags. -/
def shape : Tree → Tree
  | nil => nil
  | node _ token l r => node 0 { type := token.type, opr := token.opr } l.shape r.shape

/-- The mark of the root. -/
def marked : Tree → Bool
  | nil => false
  | node _ token _ _ => token.optSubexp

@[simp] theorem shape_copyAt (base : Nat) (t : Tree) : (t.copyAt base).shape = t.shape := by
  induction t generalizing base with
  | nil => rfl
  | node a token l r ihl ihr => simp [copyAt, shape, ihl, ihr, Token.dup]

@[simp] theorem shape_mark (idx : Nat) (t : Tree) : (t.map (Token.mark idx)).shape = t.shape := by
  induction t with
  | nil => rfl
  | node a token l r ihl ihr =>
    have htoken : (token.mark idx).type = token.type ∧ (token.mark idx).opr = token.opr := by
      unfold Token.mark
      split <;> exact ⟨rfl, rfl⟩
    simp [map, shape, ihl, ihr, htoken]

theorem size_shape (t : Tree) : t.shape.size = t.size := by
  induction t with
  | nil => rfl
  | node a token l r ihl ihr => simp [shape, size, ihl, ihr]

theorem size_eq_of_shape {t t' : Tree} (h : t.shape = t'.shape) : t.size = t'.size := by
  rw [← size_shape, h, size_shape]

/-- One more tree of the same shape. -/
theorem shapes_concat {T c : Tree} {cs : List Tree} (h : ∀ d ∈ cs, d.shape = T.shape)
    (hc : c.shape = T.shape) : ∀ d ∈ cs ++ [c], d.shape = T.shape := by
  intro d hd
  obtain hd | hd := List.mem_append.mp hd
  · exact h d hd
  · rw [List.mem_singleton.mp hd, hc]

@[simp] theorem marked_copyAt (base : Nat) (t : Tree) : (t.copyAt base).marked = false := by
  cases t <;> rfl

end Tree

/-! ## New nodes beside another tree -/

/-- Two trees are put under a new node, beside a tree that stays. -/
theorem createTree_beside (hok : ∀ k, ok k = true) {B l r : Tree} {pb pl pr : Option Nat}
    (hB : Linked dfa.trees pb B) (hl : Linked dfa.trees pl l) (hr : Linked dfa.trees pr r)
    (hnd : (B.addrs ++ (l.addrs ++ r.addrs)).Nodup) (type : TokenType) :
    ∃ dfa', createTree ok dfa l.root r.root type = some (dfa', some dfa.trees.length) ∧
      Linked dfa'.trees none (.node dfa.trees.length { type := type } l r) ∧
      Linked dfa'.trees pb B ∧
      (B.addrs ++ (Tree.node dfa.trees.length { type := type } l r).addrs).Nodup := by
  obtain ⟨hndB, hndlr, hdisj⟩ := List.nodup_append'.mp hnd
  obtain ⟨dfa', hcreate, hnew, hlen, hframe⟩ := createTree_spec hok hl hr hndlr type
  refine ⟨dfa', hcreate, hnew, hB.congr fun a ha => ?_, ?_⟩
  · exact hframe a (hB.lt a ha)
      (fun heq => hdisj ha (List.mem_append_left _ (Tree.root_mem heq)))
      (fun heq => hdisj ha (List.mem_append_right _ (Tree.root_mem heq)))
  · have hfresh : dfa.trees.length ∉ B.addrs ++ (l.addrs ++ r.addrs) := by
      simp only [List.mem_append, not_or]
      exact ⟨fun h => lt_irrefl _ (hB.lt _ h), fun h => lt_irrefl _ (hl.lt _ h),
        fun h => lt_irrefl _ (hr.lt _ h)⟩
    exact List.nodup_middle.mpr (List.nodup_cons.mpr ⟨hfresh, hnd⟩)

/-- One more copy: `elem`, which is the root of `c`, is duplicated, and the copy is put on the
    right of the tree `M`, beside a tree that stays. -/
theorem append_copy (hok : ∀ k, ok k = true) {B M c : Tree} {tree elem k fuel : Nat}
    {par : Option Nat} (hB : Linked dfa.trees none B) (hM : Linked dfa.trees none M)
    (hroot : M.root = some tree) (hnd : (B.addrs ++ M.addrs).Nodup) (hc : Linked dfa.trees par c)
    (helem : c.root = some elem) (hcnd : c.addrs.Nodup) (hclimbs : Climbs dfa.trees elem par k)
    (hfuel : 3 * c.size + k ≤ fuel) :
    ∃ dfa₁ dfa₂ a, duplicateTree ok fuel dfa elem = some (dfa₁, some dfa.trees.length) ∧
      createTree ok dfa₁ (some tree) (some dfa.trees.length) .concat = some (dfa₂, some a) ∧
      Linked dfa₂.trees none (.node a { type := .concat } M (c.copyAt dfa.trees.length)) ∧
      Linked dfa₂.trees none B ∧
      (B.addrs ++ (Tree.node a { type := .concat } M (c.copyAt dfa.trees.length)).addrs).Nodup := by
  obtain ⟨dfa₁, hdup, htrees₁⟩ := duplicateTree_spec hok helem hc hcnd hclimbs hfuel
  have hnew : Linked dfa₁.trees par (c.copyAt dfa.trees.length) := by
    have hcells := linked_cells c par dfa.trees []
    rwa [List.append_nil, ← htrees₁] at hcells
  have hndnew : (B.addrs ++ (M.addrs ++ (c.copyAt dfa.trees.length).addrs)).Nodup := by
    rw [← List.append_assoc, addrs_copyAt]
    refine List.nodup_append'.mpr ⟨hnd, List.nodup_range', fun a ha hmem => ?_⟩
    have hge := (List.mem_range'_1.mp hmem).1
    obtain h | h := List.mem_append.mp ha
    · exact absurd (hB.lt a h) (Nat.not_lt.mpr hge)
    · exact absurd (hM.lt a h) (Nat.not_lt.mpr hge)
  obtain ⟨dfa₂, hcreate, hlinked, hB₂, hnd₂⟩ := createTree_beside hok
    (htrees₁ ▸ hB.append _) (htrees₁ ▸ hM.append _) hnew hndnew .concat
  rw [hroot, root_copyAt helem] at hcreate
  exact ⟨dfa₁, dfa₂, _, hdup, hcreate, hlinked, hB₂, hnd₂⟩

/-! ## The mandatory copies -/

/-- The copies one after the other under CONCAT nodes, the last one on top. -/
inductive Chain : List Tree → Tree → Prop
  | one (c : Tree) : Chain [c] c
  | more {cs : List Tree} {M : Tree} (h : Chain cs M) (a : Nat) (c : Tree) :
      Chain (cs ++ [c]) (.node a { type := .concat } M c)

theorem Chain.length_pos {cs : List Tree} {M : Tree} (h : Chain cs M) : 0 < cs.length := by
  cases h <;> simp

/-- The last copy of a chain is the whole tree, or on the right of its root. -/
theorem Chain.last {cs : List Tree} {M c : Tree} {elem : Nat} {trees : List BinTree}
    (h : Chain cs M) (hM : Linked trees none M) (hnd : M.addrs.Nodup)
    (hlast : cs.getLast? = some c) (helem : c.root = some elem) :
    ∃ par k, Linked trees par c ∧ Climbs trees elem par k ∧ k ≤ 2 ∧ c.addrs.Nodup := by
  cases h with
  | one =>
    obtain rfl : M = c := by simpa using hlast
    exact ⟨none, 0, hM, .top elem, by omega, hnd⟩
  | more h a c' =>
    obtain rfl : c' = c := by simpa using hlast
    obtain ⟨ha, _, hc⟩ := hM
    simp only [Tree.addrs, List.nodup_cons, List.nodup_append'] at hnd
    exact ⟨some a, 1, hc, .up ha (.inl helem) (.top a), by omega, hnd.2.2.1⟩

/-- The state of the loop: the copies so far, of which `elem` is the last and `tree` the chain. -/
structure Mandatory (T : Tree) (dfa : Dfa) (elem tree : Nat) (cs : List Tree) (M : Tree) :
    Prop where
  chain : Chain cs M
  root : M.root = some tree
  linked : Linked dfa.trees none M
  nodup : M.addrs.Nodup
  shapes : ∀ c ∈ cs, c.shape = T.shape
  last : ∃ c, cs.getLast? = some c ∧ c.root = some elem

/-- One more mandatory copy. -/
theorem Mandatory.next (hok : ∀ k, ok k = true) {T M : Tree} {elem tree fuel : Nat}
    {cs : List Tree} (hfuel : 3 * T.size + 2 ≤ fuel) (h : Mandatory T dfa elem tree cs M) :
    ∃ dfa₁ dfa₂ elem' tree' c M', duplicateTree ok fuel dfa elem = some (dfa₁, some elem') ∧
      createTree ok dfa₁ (some tree) (some elem') .concat = some (dfa₂, some tree') ∧
      Mandatory T dfa₂ elem' tree' (cs ++ [c]) M' := by
  obtain ⟨hchain, hroot, hlinked, hnd, hshapes, c, hlast, helem⟩ := h
  have hshape := hshapes c (List.mem_of_getLast? hlast)
  obtain ⟨par, k, hc, hclimbs, hk, hcnd⟩ := hchain.last hlinked hnd hlast helem
  have hsize : 3 * c.size + k ≤ fuel := by
    rw [Tree.size_eq_of_shape hshape]
    omega
  obtain ⟨dfa₁, dfa₂, a, hdup, hcreate, hlinked₂, _, hnd₂⟩ :=
    append_copy hok (.nil _ none) hlinked hroot hnd hc helem hcnd hclimbs hsize
  exact ⟨dfa₁, dfa₂, _, a, c.copyAt dfa.trees.length, _, hdup, hcreate,
    { chain := .more hchain a _
      root := rfl
      linked := hlinked₂
      nodup := hnd₂
      shapes := Tree.shapes_concat hshapes (by rw [Tree.shape_copyAt, hshape])
      last := ⟨_, by simp, root_copyAt helem _⟩ }⟩

theorem mandatoryCopies_spec (hok : ∀ k, ok k = true) {T : Tree} {fuel : Nat}
    (hfuel : 3 * T.size + 2 ≤ fuel) : ∀ (n : Nat) {dfa : Dfa} {elem tree : Nat} {cs : List Tree}
    {M : Tree}, Mandatory T dfa elem tree cs M → ∃ dfa' elem' tree' cs' M',
      mandatoryCopies ok fuel n dfa elem tree = some (dfa', some (elem', tree')) ∧
      Mandatory T dfa' elem' tree' (cs ++ cs') M' ∧ cs'.length = n
  | 0, dfa, elem, tree, cs, M, h =>
    ⟨dfa, elem, tree, [], M, rfl, by rwa [List.append_nil], rfl⟩
  | n + 1, dfa, elem, tree, cs, M, h => by
    obtain ⟨dfa₁, dfa₂, elem₂, tree₂, c, M₂, hdup, hcreate, hnext⟩ := h.next hok hfuel
    obtain ⟨dfa', elem', tree', cs', M', hrun, hinv, hlen⟩ :=
      mandatoryCopies_spec hok hfuel n hnext
    refine ⟨dfa', elem', tree', c :: cs', M', ?_, ?_, by simp [hlen]⟩
    · simp only [mandatoryCopies, hdup, hcreate, Option.bind_eq_bind, Option.bind_some]
      exact hrun
    · rwa [List.append_assoc, List.singleton_append] at hinv

/-! ## The optional copies -/

/-- The copies in nested options; the node of the first one is of the given type. -/
inductive Nest (type : TokenType) : List Tree → Tree → Prop
  | one (a : Nat) (c : Tree) : Nest type [c] (.node a { type := type } c .nil)
  | more {cs : List Tree} {O : Tree} (h : Nest type cs O) (a b : Nat) (c : Tree) :
      Nest type (cs ++ [c])
        (.node b { type := .opAlt } (.node a { type := .concat } O c) .nil)

theorem Nest.length_pos {type : TokenType} {cs : List Tree} {O : Tree} (h : Nest type cs O) :
    0 < cs.length := by
  cases h <;> simp

/-- On the way up from the last copy of a nest nothing is on the right. -/
theorem Nest.last {type : TokenType} {cs : List Tree} {O c : Tree} {elem : Nat}
    {trees : List BinTree} (h : Nest type cs O) (hO : Linked trees none O) (hnd : O.addrs.Nodup)
    (hlast : cs.getLast? = some c) (helem : c.root = some elem) :
    ∃ par k, Linked trees par c ∧ Climbs trees elem par k ∧ k ≤ 2 ∧ c.addrs.Nodup := by
  cases h with
  | one a c' =>
    obtain rfl : c' = c := by simpa using hlast
    obtain ⟨ha, hc, _⟩ := hO
    simp only [Tree.addrs, List.append_nil, List.nodup_cons] at hnd
    exact ⟨some a, 1, hc, .up ha (.inr rfl) (.top a), by omega, hnd.2⟩
  | more h a b c' =>
    obtain rfl : c' = c := by simpa using hlast
    obtain ⟨hb, ⟨ha, _, hc⟩, _⟩ := hO
    simp only [Tree.addrs, List.append_nil, List.nodup_cons, List.nodup_append'] at hnd
    exact ⟨some a, 2, hc, .up ha (.inl helem) (.up hb (.inr rfl) (.top b)), by omega,
      hnd.2.2.2.1⟩

/-- The state of the loop, beside the tree `B` of the mandatory copies. -/
structure Optional (T B : Tree) (type : TokenType) (dfa : Dfa) (elem tree : Nat)
    (cs : List Tree) (O : Tree) : Prop where
  nest : Nest type cs O
  root : O.root = some tree
  linked : Linked dfa.trees none O
  before : Linked dfa.trees none B
  nodup : (B.addrs ++ O.addrs).Nodup
  shapes : ∀ c ∈ cs, c.shape = T.shape
  last : ∃ c, cs.getLast? = some c ∧ c.root = some elem

/-- One more optional copy, which is not marked. -/
theorem Optional.next (hok : ∀ k, ok k = true) {T B O : Tree} {type : TokenType}
    {elem tree fuel : Nat} {cs : List Tree} (hfuel : 3 * T.size + 2 ≤ fuel)
    (h : Optional T B type dfa elem tree cs O) :
    ∃ dfa₁ dfa₂ dfa₃ elem' mid tree' c O',
      duplicateTree ok fuel dfa elem = some (dfa₁, some elem') ∧
      createTree ok dfa₁ (some tree) (some elem') .concat = some (dfa₂, some mid) ∧
      createTree ok dfa₂ (some mid) none .opAlt = some (dfa₃, some tree') ∧
      Optional T B type dfa₃ elem' tree' (cs ++ [c]) O' ∧ c.marked = false := by
  obtain ⟨hnest, hroot, hlinked, hbefore, hnd, hshapes, c, hlast, helem⟩ := h
  have hshape := hshapes c (List.mem_of_getLast? hlast)
  have hndO := (List.nodup_append'.mp hnd).2.1
  obtain ⟨par, k, hc, hclimbs, hk, hcnd⟩ := hnest.last hlinked hndO hlast helem
  have hsize : 3 * c.size + k ≤ fuel := by
    rw [Tree.size_eq_of_shape hshape]
    omega
  obtain ⟨dfa₁, dfa₂, a, hdup, hcreate, hlinked₂, hbefore₂, hnd₂⟩ :=
    append_copy hok hbefore hlinked hroot hnd hc helem hcnd hclimbs hsize
  obtain ⟨dfa₃, hcreate₃, hlinked₃, hbefore₃, hnd₃⟩ := createTree_beside hok hbefore₂ hlinked₂
    (.nil _ none) (by simpa [Tree.addrs] using hnd₂) .opAlt
  exact ⟨dfa₁, dfa₂, dfa₃, _, a, _, c.copyAt dfa.trees.length, _, hdup, hcreate, hcreate₃,
    { nest := .more hnest a _ _
      root := rfl
      linked := hlinked₃
      before := hbefore₃
      nodup := hnd₃
      shapes := Tree.shapes_concat hshapes (by rw [Tree.shape_copyAt, hshape])
      last := ⟨_, by simp, root_copyAt helem _⟩ }, Tree.marked_copyAt _ c⟩

theorem optionalCopies_spec (hok : ∀ k, ok k = true) {T B : Tree} {type : TokenType} {fuel : Nat}
    (hfuel : 3 * T.size + 2 ≤ fuel) : ∀ (n : Nat) {dfa : Dfa} {elem tree : Nat} {cs : List Tree}
    {O : Tree}, Optional T B type dfa elem tree cs O → ∃ dfa' elem' tree' cs' O',
      optionalCopies ok fuel n dfa elem tree = some (dfa', some (elem', tree')) ∧
      Optional T B type dfa' elem' tree' (cs ++ cs') O' ∧ cs'.length = n ∧
      ∀ c ∈ cs', c.marked = false
  | 0, dfa, elem, tree, cs, O, h =>
    ⟨dfa, elem, tree, [], O, rfl, by rwa [List.append_nil], rfl, by simp⟩
  | n + 1, dfa, elem, tree, cs, O, h => by
    obtain ⟨dfa₁, dfa₂, dfa₃, elem₃, mid, tree₃, c, O₃, hdup, hcreate, hcreate₃, hnext, hmark⟩ :=
      h.next hok hfuel
    obtain ⟨dfa', elem', tree', cs', O', hrun, hinv, hlen, hmarks⟩ :=
      optionalCopies_spec hok hfuel n hnext
    refine ⟨dfa', elem', tree', c :: cs', O', ?_, ?_, by simp [hlen],
      List.forall_mem_cons.mpr ⟨hmark, hmarks⟩⟩
    · simp only [optionalCopies, hdup, hcreate, hcreate₃, Option.bind_eq_bind, Option.bind_some]
      exact hrun
    · rwa [List.append_assoc, List.singleton_append] at hinv

end Librecompat.RegTree
