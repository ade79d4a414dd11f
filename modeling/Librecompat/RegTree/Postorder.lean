/-
  `postorder` with a visiting function that never fails, and what it finds above a tree.

  A visiting function that keeps the links (`KeepsLinks`) is called on the nodes one after the
  other (`visitAll`); as a visiting function with an error code it is `sure fn`, and the walk is the
  one of Walkers. At the root the walk does not stop: it goes on upwards until there is no parent.
  So the walk from a tree without a parent visits that tree
  (`postorder_root`), but a tree that has been copied from the right child of a node still has
  this node as its parent, without being a child of it, and then the walk goes through the right
  child too (`postorder_beside`).
-/
import Librecompat.RegTree.Walkers

namespace Librecompat.RegTree

open Librecompat.Lib
open Librecompat.Regex (RegErrcode REG_NOERROR)

/-! ## Links -/

/-- The same nodes up to their tokens. -/
def SameLinks (trees trees' : List BinTree) : Prop :=
  trees'.map BinTree.links = trees.map BinTree.links

/-- Visiting a node works out and leaves all links. -/
def KeepsLinks (fn : Nat → Dfa → Option Dfa) : Prop :=
  ∀ node dfa, node < dfa.trees.length →
    ∃ dfa', fn node dfa = some dfa' ∧ SameLinks dfa.trees dfa'.trees

theorem SameLinks.refl (trees : List BinTree) : SameLinks trees trees := rfl

theorem SameLinks.trans {trees trees' trees'' : List BinTree} (h : SameLinks trees trees')
    (h' : SameLinks trees' trees'') : SameLinks trees trees'' := Eq.trans h' h

theorem SameLinks.length_eq {trees trees' : List BinTree} (h : SameLinks trees trees') :
    trees'.length = trees.length := by
  simpa using congrArg List.length h

theorem SameLinks.links {trees trees' : List BinTree} (h : SameLinks trees trees') (a : Nat) :
    trees'[a]?.map BinTree.links = trees[a]?.map BinTree.links := by
  simpa using congrArg (fun links => links[a]?) h

theorem Framed.same {trees trees' : List BinTree} (h : SameLinks trees trees') :
    ∀ {t : Tree} {par : Option Nat}, Framed trees par t → Framed trees' par t
  | .nil, _, _ => trivial
  | .node a _ _ _, _, ⟨ha, hl, hr⟩ => ⟨(h.links a).trans ha, hl.same h, hr.same h⟩

/-! ## A function that never fails -/

/-- The calls of the visiting function. -/
def visitAll (fn : Nat → Dfa → Option Dfa) (nodes : List Nat) (dfa : Dfa) : Option Dfa :=
  nodes.foldlM (fun dfa node => fn node dfa) dfa

/-- With the error code that is never an error. -/
def sure (fn : Nat → Dfa → Option Dfa) : Visitor Dfa := fun node dfa =>
  (fn node dfa).map fun dfa' => (dfa', REG_NOERROR)

variable {fn : Nat → Dfa → Option Dfa}

theorem visitAll_append (vs ws : List Nat) (dfa : Dfa) :
    visitAll fn (vs ++ ws) dfa = (visitAll fn vs dfa).bind (visitAll fn ws) := by
  rw [visitAll, List.foldlM_append]
  rfl

theorem visitAll_singleton (a : Nat) (dfa : Dfa) : visitAll fn [a] dfa = fn a dfa := by
  simp [visitAll]

theorem andThen_sure (a : Nat) (dfa : Dfa) (f : Dfa → Option (Dfa × RegErrcode)) :
    andThen (sure fn a dfa) f = (fn a dfa).bind f := by
  cases h : fn a dfa <;> simp [sure, andThen, h]

theorem calls_sure (vs : List Nat) (dfa : Dfa) :
    (sure fn).calls vs dfa = (visitAll fn vs dfa).map fun dfa' => (dfa', REG_NOERROR) := by
  induction vs generalizing dfa with
  | nil => rfl
  | cons a vs ih =>
    rw [Visitor.calls, andThen_sure, visitAll, List.foldlM_cons, Option.bind_eq_bind,
      Option.map_bind]
    exact congrArg _ (funext ih)

theorem postPass_sure (s : Dfa × PostAt) :
    Visitor.postPass Dfa.trees (sure fn) s = (postPass fn s).map (Sum.map id (·, REG_NOERROR)) := by
  obtain ⟨dfa, node | node⟩ := s
  · cases h : dfa.trees[node]? with
    | none => simp [Visitor.postPass, postPass, h]
    | some tree =>
      obtain ⟨par, l, r, token⟩ := tree
      cases l <;> cases r <;> simp [Visitor.postPass, postPass, h]
  · cases hfn : fn node dfa with
    | none => simp [Visitor.postPass, postPass, sure, hfn]
    | some dfa' =>
      simp only [Visitor.postPass, postPass, sure, hfn, Option.map_some, Option.bind_eq_bind,
        Option.bind_some, ne_eq, not_true_eq_false, if_false]
      cases htree : dfa'.trees[node]? with
      | none => simp
      | some tree =>
        cases hparent : tree.parent with
        | none => simp [hparent]
        | some parent =>
          cases hup : dfa'.trees[parent]? with
          | none => simp [hparent, hup]
          | some up =>
            obtain ⟨par, l, r, token⟩ := up
            cases r with
            | none => simp [hparent, hup]
            | some r => by_cases hr : r = node <;> simp [hparent, hup, hr]

theorem sure_inj {r r' : Option Dfa} (h : r.map (fun dfa' => (dfa', REG_NOERROR)) =
    r'.map fun dfa' => (dfa', REG_NOERROR)) : r = r' :=
  Option.map_injective (fun _ _ h => (Prod.mk.inj h).1) h

/-- The walk with the error code is the walk without. -/
theorem postorder_sure (fuel : Nat) (dfa : Dfa) (root : Nat) :
    Visitor.postorder Dfa.trees (sure fn) fuel dfa root =
      (postorder fuel fn dfa root).map fun dfa' => (dfa', REG_NOERROR) :=
  tryLoop_map postPass_sure fuel (dfa, .descend root)

theorem visitAll_spec (hfn : KeepsLinks fn) : ∀ {vs : List Nat} {dfa : Dfa},
    (∀ v ∈ vs, v < dfa.trees.length) →
    ∃ dfa', visitAll fn vs dfa = some dfa' ∧ SameLinks dfa.trees dfa'.trees
  | [], dfa, _ => ⟨dfa, rfl, .refl _⟩
  | v :: vs, dfa, hlt => by
    obtain ⟨dfa₁, hvisit, hsame⟩ := hfn v dfa (hlt v List.mem_cons_self)
    obtain ⟨dfa', hall, hsame'⟩ := @visitAll_spec hfn vs dfa₁ fun w hw => by
      rw [hsame.length_eq]
      exact hlt w (List.mem_cons_of_mem v hw)
    refine ⟨dfa', ?_, hsame.trans hsame'⟩
    rw [← List.singleton_append, visitAll_append, visitAll_singleton, hvisit, Option.bind_some,
      hall]

theorem KeepsLinks.keeps (hfn : KeepsLinks fn) {X : List BinTree} {a : Nat} (ha : a < X.length) :
    Keeps (sure fn) (fun dfa => SameLinks X dfa.trees) a := by
  intro dfa dfa' hX hcall
  obtain ⟨dfa₁, hvisit, hsame⟩ := hfn a dfa (by rwa [hX.length_eq])
  rw [sure, hvisit] at hcall
  obtain rfl := (Prod.mk.inj (Option.some.inj hcall)).1
  exact hX.trans hsame

/-! ## The whole walk -/

variable {dfa : Dfa} {t : Tree} {a fuel : Nat}

/-- The walk visits a tree without a parent. -/
theorem postorder_root (hfn : KeepsLinks fn) (hroot : t.root = some a)
    (ht : Linked dfa.trees none t) (hnd : t.addrs.Nodup) (hfuel : 2 * t.size ≤ fuel) :
    ∃ dfa', postorder fuel fn dfa a = some dfa' ∧ visitAll fn t.visits dfa = some dfa' := by
  obtain ⟨dfa', hall, _⟩ := visitAll_spec hfn fun v hv => ht.lt v (mem_visits.mp hv)
  refine ⟨dfa', ?_, hall⟩
  have hkeeps : ∀ b ∈ t.addrs, Keeps (sure fn) (fun dfa' => SameLinks dfa.trees dfa'.trees) b :=
    fun b hb => hfn.keeps (ht.lt b hb)
  have hwalk := postorder_eq hroot (fun m hm => ht.framed.same hm) hnd hkeeps (.refl _) hfuel
  rw [postorder_sure, postorder_eq_calls, calls_sure, hall] at hwalk
  exact sure_inj hwalk

/-- From a tree whose root has the parent `p` without being its right child, the walk also visits
    the tree on the right of `p`, and `p`. -/
theorem postorder_beside (hfn : KeepsLinks fn) {q : Tree} {p qa : Nat} {left : Option Nat}
    {token : Token} (hroot : t.root = some a) (ht : Linked dfa.trees (some p) t)
    (hnd : t.addrs.Nodup) (hp : dfa.trees[p]? = some ⟨none, left, some qa, token⟩)
    (hqroot : q.root = some qa) (hq : Linked dfa.trees (some p) q) (hqnd : q.addrs.Nodup)
    (hne : qa ≠ a) (hfuel : 2 * t.size + 2 * q.size < fuel) :
    ∃ dfa', postorder fuel fn dfa a = some dfa' ∧
      visitAll fn (t.visits ++ q.visits ++ [p]) dfa = some dfa' := by
  have hlt : p < dfa.trees.length := (List.getElem?_eq_some_iff.mp hp).1
  have hlinks : ∀ dfa' : Dfa, SameLinks dfa.trees dfa'.trees →
      dfa'.trees[p]?.map BinTree.links = some (none, left, some qa) := fun dfa' h => by
    rw [h.links, hp]
    rfl
  have hkt : ∀ b ∈ t.addrs, Keeps (sure fn) (fun dfa' => SameLinks dfa.trees dfa'.trees) b :=
    fun b hb => hfn.keeps (ht.lt b hb)
  have hkq : ∀ b ∈ q.addrs, Keeps (sure fn) (fun dfa' => SameLinks dfa.trees dfa'.trees) b :=
    fun b hb => hfn.keeps (hq.lt b hb)
  obtain ⟨k, hk, hwalk⟩ := PostWalks.child (post_walks t) hroot
    (fun m hm => ht.framed.same hm) hnd hkt hlinks
  obtain ⟨j, hj, hwalk'⟩ := PostWalks.child (post_walks q) hqroot
    (fun m hm => hq.framed.same hm) hqnd hkq hlinks
  have hall_lt : ∀ v ∈ t.visits ++ q.visits ++ [p], v < dfa.trees.length := fun v hv => by
    simp only [List.mem_append, List.mem_singleton, mem_visits] at hv
    obtain (hv | hv) | rfl := hv
    exacts [ht.lt v hv, hq.lt v hv, hlt]
  obtain ⟨dfa', hall, _⟩ := visitAll_spec hfn hall_lt
  refine ⟨dfa', ?_, hall⟩
  obtain ⟨n, rfl⟩ : ∃ n, fuel = n + 1 + j + k := ⟨fuel - 1 - j - k, by omega⟩
  have hrun : Visitor.postorder Dfa.trees (sure fn) (n + 1 + j + k) dfa a =
      (sure fn).calls (t.visits ++ q.visits ++ [p]) dfa := by
    rw [Visitor.postorder, hwalk dfa _ (.refl _), behind_left hne, List.append_assoc, calls_append]
    refine andThen_congr fun m hm => ?_
    have hm' : SameLinks dfa.trees m.trees :=
      calls_keep (fun b hb => hkt b (mem_visits.mp hb)) (SameLinks.refl _) hm
    rw [hwalk' m (n + 1) hm', behind_right, calls_append]
    refine andThen_congr fun m' hm'' => ?_
    rw [calls_singleton]
    exact post_top (fun m hm => ⟨_, _, hlinks m hm⟩) (hfn.keeps hlt)
      (calls_keep (fun b hb => hkq b (mem_visits.mp hb)) hm' hm'') n
  rw [postorder_sure, calls_sure, hall] at hrun
  exact sure_inj hrun

/-! ## mark_opt_subexp -/

@[simp] theorem Token.mark_mark (idx : Nat) (token : Token) :
    (token.mark idx).mark idx = token.mark idx := by
  unfold Token.mark
  split_ifs <;> simp_all

/-- What the visit of a node does to it. -/
def BinTree.mark (idx : Nat) (node : BinTree) : BinTree :=
  { node with token := node.token.mark idx }

@[simp] theorem BinTree.mark_mark (idx : Nat) (node : BinTree) :
    (node.mark idx).mark idx = node.mark idx := by
  simp [BinTree.mark]

theorem markOptSubexp_spec {idx node : Nat} (h : node < dfa.trees.length) :
    markOptSubexp idx node dfa =
      some { dfa with trees := dfa.trees.modify node (BinTree.mark idx) } := by
  unfold markOptSubexp Dfa.modify modifyTree
  rw [if_pos h]
  rfl

theorem keepsLinks_mark (idx : Nat) : KeepsLinks (markOptSubexp idx) := by
  refine fun node dfa h => ⟨_, markOptSubexp_spec h, List.ext_getElem? fun i => ?_⟩
  simp only [List.getElem?_map, List.getElem?_modify]
  by_cases hi : node = i
  · cases dfa.trees[i]? <;> simp [hi, BinTree.links, BinTree.mark]
  · simp [hi]

/-- The nodes visited are marked, the others stay. -/
theorem visitAll_mark {idx : Nat} : ∀ {vs : List Nat} {dfa dfa' : Dfa},
    (∀ v ∈ vs, v < dfa.trees.length) → visitAll (markOptSubexp idx) vs dfa = some dfa' →
    ∀ i, dfa'.trees[i]? =
      if i ∈ vs then dfa.trees[i]?.map (BinTree.mark idx) else dfa.trees[i]?
  | [], dfa, dfa', _, h, i => by
    obtain rfl : dfa = dfa' := by simpa [visitAll] using h
    simp
  | v :: vs, dfa, dfa', hlt, h, i => by
    rw [← List.singleton_append, visitAll_append, visitAll_singleton,
      markOptSubexp_spec (hlt v List.mem_cons_self), Option.bind_some] at h
    rw [visitAll_mark (by simpa using fun w hw => hlt w (List.mem_cons_of_mem v hw)) h i]
    simp only [List.getElem?_modify, List.mem_cons]
    by_cases hv : v = i
    · subst hv
      by_cases hmem : v ∈ vs
      · cases dfa.trees[v]? <;> simp [hmem]
      · simp [hmem]
    · simp [hv, Ne.symm hv]

/-- A tree whose nodes are all visited gets the marks. -/
theorem Linked.mark {idx : Nat} {trees trees' : List BinTree} : ∀ {t : Tree} {par : Option Nat},
    Linked trees par t → (∀ a ∈ t.addrs, trees'[a]? = trees[a]?.map (BinTree.mark idx)) →
    Linked trees' par (t.map (Token.mark idx))
  | .nil, _, _, _ => trivial
  | .node a token l r, _, ⟨ha, hl, hr⟩, h => by
    simp only [Tree.addrs, List.forall_mem_cons, List.mem_append] at h
    refine ⟨?_, hl.mark fun b hb => h.2 b (.inl hb), hr.mark fun b hb => h.2 b (.inr hb)⟩
    rw [h.1, ha, Tree.root_map, Tree.root_map]
    rfl

/-! ## free_tree -/

theorem freeTree_spec {node : Nat} (h : node < dfa.trees.length) :
    ∃ dfa', freeTree node dfa = some dfa' ∧ dfa'.trees = dfa.trees := by
  unfold freeTree
  rw [List.getElem?_eq_getElem h]
  simp only [Option.bind_eq_bind, Option.bind_some]
  split
  · exact ⟨_, rfl, rfl⟩
  · exact ⟨_, rfl, rfl⟩

theorem keepsLinks_free : KeepsLinks freeTree := fun node dfa h => by
  obtain ⟨dfa', hfree, htrees⟩ := @freeTree_spec dfa node h
  exact ⟨dfa', hfree, by rw [htrees]; exact .refl _⟩

end Librecompat.RegTree
