/-
  `postorder` and `preorder` for any visiting function.

  A visiting function sees a node and the memory, `M`, that the tree nodes are only a part of. It
  is called until it gives an error (`calls`). Neither walk has a stack: from where it is, and from
  which side, it finds the way by the links. `PostWalks` and `PreWalks` follow a walk through
  one subtree and say in which state it leaves it, for any number of passes left over; the
  induction is on the tree. So both walks are the recursive ones (`postorder_eq`, `preorder_eq`).
-/
import Librecompat.RegTree.Duplicate

namespace Librecompat.RegTree

open Librecompat.Lib
open Librecompat.Regex (RegErrcode REG_NOERROR REG_ESPACE)

/-- `fn (extra, node)`: the memory and the error that it leaves, `none` when it goes wrong. -/
abbrev Visitor (M : Type) := Nat → M → Option (M × RegErrcode)

variable {M : Type}

/-- Go on unless there is an error. -/
def andThen (r : Option (M × RegErrcode)) (f : M → Option (M × RegErrcode)) :
    Option (M × RegErrcode) :=
  r.bind fun p => if p.2 = REG_NOERROR then f p.1 else some p

/-! ## The walks -/

namespace Visitor

variable (trees : M → List BinTree) (fn : Visitor M)

/-- One pass of either loop of `postorder`. -/
def postPass (s : M × PostAt) : Option ((M × PostAt) ⊕ (M × RegErrcode)) :=
  match s.2 with
  | .descend node => do
    let tree ← (trees s.1)[node]?
    match tree.left, tree.right with
    | some left, _ => some (.inl (s.1, .descend left))
    | none, some right => some (.inl (s.1, .descend right))
    | none, none => some (.inl (s.1, .visit node))
  | .visit node => do
    let r ← fn node s.1
    if r.2 ≠ REG_NOERROR then some (.inr r)
    else do
      let tree ← (trees r.1)[node]?
      match tree.parent with
      | none => some (.inr (r.1, REG_NOERROR))
      | some parent => do
        let up ← (trees r.1)[parent]?
        -- go up while we have a node that is reached from the right
        if up.right = some node ∨ up.right = none then some (.inl (r.1, .visit parent))
        else do some (.inl (r.1, .descend (← up.right)))

def postorder (fuel : Nat) (m : M) (root : Nat) : Option (M × RegErrcode) :=
  tryLoop (postPass trees fn) fuel (m, .descend root)

/-- The heads of the two loops of `preorder`: a node is visited, or the walk goes up from it. -/
inductive PreAt where
  | visit (node : Nat)
  | climb (node : Nat) (prev : Option Nat)

/-- One pass of either loop of `preorder`. -/
def prePass (s : M × PreAt) : Option ((M × PreAt) ⊕ (M × RegErrcode)) :=
  match s.2 with
  | .visit node => do
    let r ← fn node s.1
    if r.2 ≠ REG_NOERROR then some (.inr r)
    else do
      let tree ← (trees r.1)[node]?
      -- go to the left node, or up and to the right
      match tree.left with
      | some left => some (.inl (r.1, .visit left))
      | none => some (.inl (r.1, .climb node none))
  | .climb node prev => do
    let tree ← (trees s.1)[node]?
    if tree.right = prev ∨ tree.right = none then
      match tree.parent with
      | none => some (.inr (s.1, REG_NOERROR))
      | some parent => some (.inl (s.1, .climb parent (some node)))
    else do some (.inl (s.1, .visit (← tree.right)))

def preorder (fuel : Nat) (m : M) (root : Nat) : Option (M × RegErrcode) :=
  tryLoop (prePass trees fn) fuel (m, .visit root)

/-! ## What they are to be -/

/-- The function is called on one node after the other. -/
def calls : List Nat → M → Option (M × RegErrcode)
  | [], m => some (m, REG_NOERROR)
  | a :: nodes, m => andThen (fn a m) (calls nodes)

end Visitor

/-- The recursive traversal, children first. -/
def Tree.postorder (fn : Visitor M) : Tree → M → Option (M × RegErrcode)
  | nil, m => some (m, REG_NOERROR)
  | node a _ l r, m => andThen (l.postorder fn m) fun m => andThen (r.postorder fn m) (fn a)

/-- The recursive traversal, the node before its children. -/
def Tree.preorder (fn : Visitor M) : Tree → M → Option (M × RegErrcode)
  | nil, m => some (m, REG_NOERROR)
  | node a _ l r, m => andThen (fn a m) fun m => andThen (l.preorder fn m) (r.preorder fn)

/-- The nodes, the children before their parent. -/
def Tree.visits : Tree → List Nat
  | nil => []
  | node a _ l r => l.visits ++ r.visits ++ [a]

theorem mem_visits {t : Tree} {a : Nat} : a ∈ t.visits ↔ a ∈ t.addrs := by
  induction t with
  | nil => rfl
  | node b token l r ihl ihr =>
    rw [Tree.visits, Tree.addrs, List.mem_append, List.mem_append, List.mem_singleton,
      List.mem_cons, List.mem_append, ihl, ihr]
    exact or_comm

theorem visits_perm (t : Tree) : t.visits.Perm t.addrs := by
  induction t with
  | nil => exact .refl _
  | node a token l r ihl ihr =>
    rw [Tree.visits, Tree.addrs]
    exact List.perm_append_comm.trans ((ihl.append ihr).cons a)

section calls

variable {fn : Visitor M} {m : M}

theorem andThen_ok (m : M) (f : M → Option (M × RegErrcode)) :
    andThen (some (m, REG_NOERROR)) f = f m := rfl

theorem andThen_assoc (r : Option (M × RegErrcode)) (f g : M → Option (M × RegErrcode)) :
    andThen (andThen r f) g = andThen r fun m => andThen (f m) g := by
  cases r with
  | none => rfl
  | some p =>
    by_cases h : p.2 = REG_NOERROR
    · simp [andThen, h]
    · simp [andThen, h]

theorem andThen_done (r : Option (M × RegErrcode)) :
    andThen r (fun m => some (m, REG_NOERROR)) = r := by
  cases r with
  | none => rfl
  | some p =>
    obtain ⟨m, err⟩ := p
    by_cases h : err = REG_NOERROR
    · simp [andThen, h]
    · simp [andThen, h]

theorem andThen_congr {r : Option (M × RegErrcode)} {f g : M → Option (M × RegErrcode)}
    (h : ∀ m, r = some (m, REG_NOERROR) → f m = g m) : andThen r f = andThen r g := by
  cases r with
  | none => rfl
  | some p =>
    obtain ⟨m, err⟩ := p
    by_cases herr : err = REG_NOERROR
    · subst herr
      exact h m rfl
    · simp [andThen, herr]

theorem andThen_eq_ok {r : Option (M × RegErrcode)} {f : M → Option (M × RegErrcode)} {m' : M}
    (h : andThen r f = some (m', REG_NOERROR)) :
    ∃ m, r = some (m, REG_NOERROR) ∧ f m = some (m', REG_NOERROR) := by
  cases r with
  | none => simp [andThen] at h
  | some p =>
    obtain ⟨m, err⟩ := p
    by_cases herr : err = REG_NOERROR
    · subst herr
      exact ⟨m, rfl, h⟩
    · simp [andThen, herr] at h

theorem calls_singleton (a : Nat) : fn.calls [a] m = fn a m := andThen_done _

theorem calls_append (vs ws : List Nat) (m : M) :
    fn.calls (vs ++ ws) m = andThen (fn.calls vs m) (fn.calls ws) := by
  induction vs generalizing m with
  | nil => rfl
  | cons a vs ih =>
    rw [List.cons_append, Visitor.calls, Visitor.calls, andThen_assoc]
    exact andThen_congr fun m' _ => ih m'

theorem postorder_eq_calls (t : Tree) (m : M) : t.postorder fn m = fn.calls t.visits m := by
  induction t generalizing m with
  | nil => rfl
  | node a token l r ihl ihr =>
    rw [Tree.postorder, Tree.visits, List.append_assoc, calls_append, ihl]
    refine andThen_congr fun m' _ => ?_
    rw [calls_append, ihr]
    exact andThen_congr fun m'' _ => (calls_singleton a).symm

theorem preorder_eq_calls (t : Tree) (m : M) : t.preorder fn m = fn.calls t.addrs m := by
  induction t generalizing m with
  | nil => rfl
  | node a token l r ihl ihr =>
    rw [Tree.preorder, Tree.addrs, Visitor.calls]
    refine andThen_congr fun m' _ => ?_
    rw [calls_append, ihl]
    exact andThen_congr fun m'' _ => ihr m''

/-- The function keeps `P` when it gives no error. -/
def Keeps (fn : Visitor M) (P : M → Prop) (a : Nat) : Prop :=
  ∀ m m', P m → fn a m = some (m', REG_NOERROR) → P m'

theorem calls_keep {P : M → Prop} {vs : List Nat} (h : ∀ a ∈ vs, Keeps fn P a) (hm : P m) {m' : M}
    (hcalls : fn.calls vs m = some (m', REG_NOERROR)) : P m' := by
  induction vs generalizing m with
  | nil => exact (Prod.mk.inj (Option.some.inj hcalls)).1 ▸ hm
  | cons a vs ih =>
    rw [Visitor.calls] at hcalls
    obtain ⟨m₁, hcall, hrest⟩ := andThen_eq_ok hcalls
    exact ih (fun b hb => h b (List.mem_cons_of_mem a hb)) (h a List.mem_cons_self m m₁ hm hcall)
      hrest

end calls

/-! ## Trees whose tokens do not matter -/

def BinTree.links (node : BinTree) : Option Nat × Option Nat × Option Nat :=
  (node.parent, node.left, node.right)

/-- The nodes of the tree stand in memory with the links of the tree, whatever their tokens. -/
def Framed (trees : List BinTree) : Option Nat → Tree → Prop
  | _, .nil => True
  | par, .node a _ l r => trees[a]?.map BinTree.links = some (par, l.root, r.root) ∧
      Framed trees (some a) l ∧ Framed trees (some a) r

theorem Linked.framed {X : List BinTree} : ∀ {t : Tree} {par : Option Nat}, Linked X par t →
    Framed X par t
  | .nil, _, _ => trivial
  | .node _ _ _ _, _, ⟨ha, hl, hr⟩ => ⟨by rw [ha]; rfl, hl.framed, hr.framed⟩

theorem read_links {X : List BinTree} {a : Nat} {par l r : Option Nat}
    (h : X[a]?.map BinTree.links = some (par, l, r)) :
    ∃ token, X[a]? = some ⟨par, l, r, token⟩ := by
  obtain ⟨⟨par', l', r', token⟩, hnode, hlinks⟩ := Option.map_eq_some_iff.mp h
  obtain ⟨rfl, rfl, rfl⟩ : par' = par ∧ l' = l ∧ r' = r := by simpa [BinTree.links] using hlinks
  exact ⟨token, hnode⟩

theorem Framed.exists_root {X : List BinTree} {par : Option Nat} {t : Tree} {a : Nat}
    (h : Framed X par t) (ha : t.root = some a) :
    ∃ l r, X[a]?.map BinTree.links = some (par, l, r) := by
  cases t with
  | nil => simp at ha
  | node b token l r =>
    obtain rfl : b = a := by simpa using ha
    exact ⟨_, _, h.1⟩

/-! ## postorder -/

section postorder

variable {trees : M → List BinTree} {fn : Visitor M} {P : M → Prop}

/-- Where `postorder` goes from the node `c` with the parent `p` whose right child is given. -/
def PostAt.behind (c p : Nat) : Option Nat → PostAt
  | none => .visit p
  | some r => if r = c then .visit p else .descend r

theorem behind_right (c p : Nat) : PostAt.behind c p (some c) = .visit p := if_pos rfl

theorem behind_left {c r : Nat} (h : r ≠ c) (p : Nat) :
    PostAt.behind c p (some r) = .descend r := if_neg h

theorem post_visit {c p : Nat} {par left right : Option Nat}
    (hc : ∀ m, P m → ∃ l r, (trees m)[c]?.map BinTree.links = some (some p, l, r))
    (hp : ∀ m, P m → (trees m)[p]?.map BinTree.links = some (par, left, right))
    (hkeeps : Keeps fn P c) {m : M} (hm : P m) (n : Nat) :
    tryLoop (Visitor.postPass trees fn) (n + 1) (m, .visit c) = andThen (fn c m) fun m' =>
      tryLoop (Visitor.postPass trees fn) n (m', .behind c p right) := by
  cases hcall : fn c m with
  | none => simp [tryLoop, Visitor.postPass, andThen, hcall]
  | some ret =>
    obtain ⟨m', err⟩ := ret
    by_cases herr : err = REG_NOERROR
    · subst herr
      have hm' : P m' := hkeeps m m' hm hcall
      obtain ⟨l, r, hlinks⟩ := hc m' hm'
      obtain ⟨token, hread⟩ := read_links hlinks
      obtain ⟨token', hread'⟩ := read_links (hp m' hm')
      rw [andThen_ok]
      refine tryLoop_succ_inl ?_
      cases right with
      | none => simp [Visitor.postPass, hcall, hread, hread', PostAt.behind]
      | some r =>
        by_cases hr : r = c
        · simp [Visitor.postPass, hcall, hread, hread', PostAt.behind, hr]
        · simp [Visitor.postPass, hcall, hread, hread', PostAt.behind, hr]
    · simp [tryLoop, Visitor.postPass, andThen, hcall, herr]

theorem post_top {a : Nat}
    (ha : ∀ m, P m → ∃ l r, (trees m)[a]?.map BinTree.links = some (none, l, r))
    (hkeeps : Keeps fn P a) {m : M} (hm : P m) (n : Nat) :
    tryLoop (Visitor.postPass trees fn) (n + 1) (m, .visit a) = fn a m := by
  cases hcall : fn a m with
  | none => simp [tryLoop, Visitor.postPass, hcall]
  | some ret =>
    obtain ⟨m', err⟩ := ret
    refine tryLoop_succ_inr ?_
    by_cases herr : err = REG_NOERROR
    · subst herr
      obtain ⟨l, r, hlinks⟩ := ha m' (hkeeps m m' hm hcall)
      obtain ⟨token, hread⟩ := read_links hlinks
      simp [Visitor.postPass, hcall, hread]
    · simp [Visitor.postPass, hcall, herr]

variable (trees fn P) in
/-- From the root of the subtree `t` the walk comes back to the root when the function has been
    called on the rest of the subtree. -/
def PostWalks (t : Tree) : Prop :=
  ∀ {par : Option Nat} {a : Nat}, t.root = some a → (∀ m, P m → Framed (trees m) par t) →
    t.addrs.Nodup → (∀ b ∈ t.addrs, Keeps fn P b) →
    ∃ k vs, k < 2 * t.size ∧ t.visits = vs ++ [a] ∧ ∀ m n, P m →
      tryLoop (Visitor.postPass trees fn) (n + k) (m, .descend a) =
        andThen (fn.calls vs m) fun m' => tryLoop (Visitor.postPass trees fn) n (m', .visit a)

/-- A tree is visited whose root has the parent `p`, and the walk goes on behind it. -/
theorem PostWalks.child {t : Tree} (h : PostWalks trees fn P t) {c p : Nat}
    {par left right : Option Nat} (hroot : t.root = some c)
    (ht : ∀ m, P m → Framed (trees m) (some p) t) (hnd : t.addrs.Nodup)
    (hkeeps : ∀ b ∈ t.addrs, Keeps fn P b)
    (hp : ∀ m, P m → (trees m)[p]?.map BinTree.links = some (par, left, right)) :
    ∃ k, k ≤ 2 * t.size ∧ ∀ m n, P m →
      tryLoop (Visitor.postPass trees fn) (n + k) (m, .descend c) =
        andThen (fn.calls t.visits m) fun m' =>
          tryLoop (Visitor.postPass trees fn) n (m', .behind c p right) := by
  obtain ⟨k, vs, hk, hvs, hwalk⟩ := h hroot ht hnd hkeeps
  have hrest : ∀ b ∈ vs, Keeps fn P b := fun b hb =>
    hkeeps b (mem_visits.mp (hvs ▸ List.mem_append_left [c] hb))
  refine ⟨k + 1, hk, fun m n hm => ?_⟩
  rw [show n + (k + 1) = n + 1 + k by omega, hwalk m (n + 1) hm, hvs, calls_append, andThen_assoc]
  refine andThen_congr fun m' hm' => ?_
  rw [calls_singleton]
  exact post_visit (fun m hm => (ht m hm).exists_root hroot) hp
    (hkeeps c (Tree.root_mem hroot)) (calls_keep hrest hm hm') n

theorem post_walks (t : Tree) : PostWalks trees fn P t := by
  induction t with
  | nil => exact fun hroot => by simp at hroot
  | node a token l r ihl ihr =>
    intro par a' hroot hframed hnd hkeeps
    obtain rfl : a = a' := by simpa using hroot
    simp only [Tree.addrs, List.nodup_cons, List.nodup_append'] at hnd
    obtain ⟨_, hndl, hndr, hdisj⟩ := hnd
    simp only [Tree.addrs, List.forall_mem_cons, List.mem_append] at hkeeps
    have hl : ∀ m, P m → Framed (trees m) (some a) l := fun m hm => (hframed m hm).2.1
    have hr : ∀ m, P m → Framed (trees m) (some a) r := fun m hm => (hframed m hm).2.2
    have hkl : ∀ b ∈ l.addrs, Keeps fn P b := fun b hb => hkeeps.2 b (.inl hb)
    have hkr : ∀ b ∈ r.addrs, Keeps fn P b := fun b hb => hkeeps.2 b (.inr hb)
    have ha : ∀ m, P m → (trees m)[a]?.map BinTree.links = some (par, l.root, r.root) :=
      fun m hm => (hframed m hm).1
    cases hlroot : l.root with
    | none =>
      obtain rfl := Tree.root_eq_none.mp hlroot
      cases hrroot : r.root with
      | none =>
        obtain rfl := Tree.root_eq_none.mp hrroot
        refine ⟨1, [], by simp only [Tree.size]; omega, rfl, fun m n hm => ?_⟩
        obtain ⟨token', hread⟩ := read_links (ha m hm)
        exact tryLoop_succ_inl (by simp [Visitor.postPass, hread])
      | some rr =>
        obtain ⟨k, hk, hwalk⟩ := ihr.child hrroot hr hndr hkr ha
        refine ⟨k + 1, _, by simp only [Tree.size]; omega, rfl, fun m n hm => ?_⟩
        obtain ⟨token', hread⟩ := read_links (ha m hm)
        have hpass : Visitor.postPass trees fn (m, .descend a) = some (.inl (m, .descend rr)) := by
          simp [Visitor.postPass, hread, hrroot]
        rw [← Nat.add_assoc, tryLoop_succ_inl hpass, hwalk m n hm, hrroot, behind_right]
        rfl
    | some ll =>
      obtain ⟨k, hk, hwalk⟩ := ihl.child hlroot hl hndl hkl ha
      have hdown : ∀ m n, P m → tryLoop (Visitor.postPass trees fn) (n + 1) (m, .descend a) =
          tryLoop (Visitor.postPass trees fn) n (m, .descend ll) := fun m n hm => by
        obtain ⟨token', hread⟩ := read_links (ha m hm)
        exact tryLoop_succ_inl (by simp [Visitor.postPass, hread, hlroot])
      cases hrroot : r.root with
      | none =>
        obtain rfl := Tree.root_eq_none.mp hrroot
        refine ⟨k + 1, _, by simp only [Tree.size]; omega, rfl, fun m n hm => ?_⟩
        rw [← Nat.add_assoc, hdown m _ hm, hwalk m n hm, Tree.visits, List.append_nil]
        rfl
      | some rr =>
        -- the walk turns to the right child, and comes back from there
        have hne : rr ≠ ll := fun heq =>
          hdisj (Tree.root_mem hlroot) (Tree.root_mem (heq ▸ hrroot))
        obtain ⟨j, hj, hwalk'⟩ := ihr.child hrroot hr hndr hkr ha
        refine ⟨k + j + 1, _, by simp only [Tree.size]; omega, rfl, fun m n hm => ?_⟩
        rw [show n + (k + j + 1) = n + j + k + 1 by omega, hdown m _ hm, hwalk m _ hm,
          calls_append, andThen_assoc, hrroot, behind_left hne]
        refine andThen_congr fun m' hm' => ?_
        rw [hwalk' m' n (calls_keep (fun b hb => hkl b (mem_visits.mp hb)) hm hm'), hrroot,
          behind_right]

/-- From a root without a parent the walk is the recursive traversal. -/
theorem postorder_eq {t : Tree} {a : Nat} (hroot : t.root = some a)
    (ht : ∀ m, P m → Framed (trees m) none t) (hnd : t.addrs.Nodup)
    (hkeeps : ∀ b ∈ t.addrs, Keeps fn P b) {m : M} (hm : P m) {fuel : Nat}
    (hfuel : 2 * t.size ≤ fuel) :
    Visitor.postorder trees fn fuel m a = t.postorder fn m := by
  obtain ⟨k, vs, hk, hvs, hwalk⟩ := post_walks t hroot ht hnd hkeeps
  obtain ⟨n, rfl⟩ : ∃ n, fuel = n + 1 + k := ⟨fuel - 1 - k, by omega⟩
  rw [Visitor.postorder, hwalk m (n + 1) hm, postorder_eq_calls, hvs, calls_append]
  refine andThen_congr fun m' hm' => ?_
  rw [calls_singleton]
  exact post_top (fun m hm => (ht m hm).exists_root hroot) (hkeeps a (Tree.root_mem hroot))
    (calls_keep (fun b hb => hkeeps b (mem_visits.mp (hvs ▸ List.mem_append_left [a] hb))) hm hm')
    n

end postorder

/-! ## preorder -/

section preorder

variable {trees : M → List BinTree} {fn : Visitor M} {P : M → Prop}

/-- The child that `preorder` comes back from last. -/
def Tree.lastChild : Tree → Option Nat
  | nil => none
  | node _ _ l r => r.root <|> l.root

theorem pre_visit {a : Nat} {par left right : Option Nat}
    (ha : ∀ m, P m → (trees m)[a]?.map BinTree.links = some (par, left, right))
    (hkeeps : Keeps fn P a) {m : M} (hm : P m) (n : Nat) :
    tryLoop (Visitor.prePass trees fn) (n + 1) (m, .visit a) = andThen (fn a m) fun m' =>
      tryLoop (Visitor.prePass trees fn) n (m', left.elim (.climb a none) .visit) := by
  cases hcall : fn a m with
  | none => simp [tryLoop, Visitor.prePass, andThen, hcall]
  | some ret =>
    obtain ⟨m', err⟩ := ret
    by_cases herr : err = REG_NOERROR
    · subst herr
      obtain ⟨token, hread⟩ := read_links (ha m' (hkeeps m m' hm hcall))
      rw [andThen_ok]
      refine tryLoop_succ_inl ?_
      cases left with
      | none => simp [Visitor.prePass, hcall, hread]
      | some left => simp [Visitor.prePass, hcall, hread]
    · simp [tryLoop, Visitor.prePass, andThen, hcall, herr]

theorem pre_up {m : M} {a p : Nat} {prev left right : Option Nat}
    (ha : (trees m)[a]?.map BinTree.links = some (some p, left, right))
    (hleaves : right = prev ∨ right = none) (n : Nat) :
    tryLoop (Visitor.prePass trees fn) (n + 1) (m, .climb a prev) =
      tryLoop (Visitor.prePass trees fn) n (m, .climb p (some a)) := by
  obtain ⟨token, hread⟩ := read_links ha
  exact tryLoop_succ_inl (by simp [Visitor.prePass, hread, hleaves])

theorem pre_top {m : M} {a : Nat} {prev left right : Option Nat}
    (ha : (trees m)[a]?.map BinTree.links = some (none, left, right))
    (hleaves : right = prev ∨ right = none) (n : Nat) :
    tryLoop (Visitor.prePass trees fn) (n + 1) (m, .climb a prev) = some (m, REG_NOERROR) := by
  obtain ⟨token, hread⟩ := read_links ha
  exact tryLoop_succ_inr (by simp [Visitor.prePass, hread, hleaves])

theorem pre_right {m : M} {a r : Nat} {par prev left : Option Nat}
    (ha : (trees m)[a]?.map BinTree.links = some (par, left, some r)) (hne : prev ≠ some r)
    (n : Nat) :
    tryLoop (Visitor.prePass trees fn) (n + 1) (m, .climb a prev) =
      tryLoop (Visitor.prePass trees fn) n (m, .visit r) := by
  obtain ⟨token, hread⟩ := read_links ha
  exact tryLoop_succ_inl (by simp [Visitor.prePass, hread, Ne.symm hne])

theorem lastChild_leaves {X : List BinTree} {par : Option Nat} {t : Tree} {a : Nat}
    (h : Framed X par t) (ha : t.root = some a) :
    ∃ left right, X[a]?.map BinTree.links = some (par, left, right) ∧
      (right = t.lastChild ∨ right = none) := by
  cases t with
  | nil => simp at ha
  | node b token l r =>
    obtain rfl : b = a := by simpa using ha
    refine ⟨_, _, h.1, ?_⟩
    cases hr : r.root with
    | none => exact .inr rfl
    | some c => exact .inl (by simp [Tree.lastChild, hr])

variable (trees fn P) in
/-- From the root of the subtree `t` the walk comes back to the root, last from a child or from
    nowhere, when the function has been called on the whole subtree. -/
def PreWalks (t : Tree) : Prop :=
  ∀ {par : Option Nat} {a : Nat}, t.root = some a → (∀ m, P m → Framed (trees m) par t) →
    t.addrs.Nodup → (∀ b ∈ t.addrs, Keeps fn P b) →
    ∃ k, k + 2 ≤ 3 * t.size ∧ ∀ m n, P m →
      tryLoop (Visitor.prePass trees fn) (n + k) (m, .visit a) =
        andThen (fn.calls t.addrs m) fun m' =>
          tryLoop (Visitor.prePass trees fn) n (m', .climb a t.lastChild)

/-- A tree is visited whose root has the parent `p`, and the walk goes up to the parent. -/
theorem PreWalks.child {t : Tree} (h : PreWalks trees fn P t) {c p : Nat}
    (hroot : t.root = some c) (ht : ∀ m, P m → Framed (trees m) (some p) t)
    (hnd : t.addrs.Nodup) (hkeeps : ∀ b ∈ t.addrs, Keeps fn P b) :
    ∃ k, k + 1 ≤ 3 * t.size ∧ ∀ m n, P m →
      tryLoop (Visitor.prePass trees fn) (n + k) (m, .visit c) =
        andThen (fn.calls t.addrs m) fun m' =>
          tryLoop (Visitor.prePass trees fn) n (m', .climb p (some c)) := by
  obtain ⟨k, hk, hwalk⟩ := h hroot ht hnd hkeeps
  refine ⟨k + 1, by omega, fun m n hm => ?_⟩
  rw [show n + (k + 1) = n + 1 + k by omega, hwalk m (n + 1) hm]
  refine andThen_congr fun m' hm' => ?_
  obtain ⟨left, right, hlinks, hleaves⟩ :=
    lastChild_leaves (ht m' (calls_keep hkeeps hm hm')) hroot
  exact pre_up hlinks hleaves n

theorem pre_walks (t : Tree) : PreWalks trees fn P t := by
  induction t with
  | nil => exact fun hroot => by simp at hroot
  | node a token l r ihl ihr =>
    intro par a' hroot hframed hnd hkeeps
    obtain rfl : a = a' := by simpa using hroot
    simp only [Tree.addrs, List.nodup_cons, List.nodup_append'] at hnd
    obtain ⟨_, hndl, hndr, hdisj⟩ := hnd
    simp only [Tree.addrs, List.forall_mem_cons, List.mem_append] at hkeeps
    have hl : ∀ m, P m → Framed (trees m) (some a) l := fun m hm => (hframed m hm).2.1
    have hr : ∀ m, P m → Framed (trees m) (some a) r := fun m hm => (hframed m hm).2.2
    have hkl : ∀ b ∈ l.addrs, Keeps fn P b := fun b hb => hkeeps.2 b (.inl hb)
    have hkr : ∀ b ∈ r.addrs, Keeps fn P b := fun b hb => hkeeps.2 b (.inr hb)
    have ha : ∀ m, P m → (trees m)[a]?.map BinTree.links = some (par, l.root, r.root) :=
      fun m hm => (hframed m hm).1
    -- on the left the walk goes through `l`, or there is nothing
    obtain ⟨i, hi, hleft⟩ : ∃ i, i ≤ 3 * l.size ∧ ∀ m n, P m →
        tryLoop (Visitor.prePass trees fn) (n + i) (m, l.root.elim (.climb a none) .visit) =
          andThen (fn.calls l.addrs m) fun m' =>
            tryLoop (Visitor.prePass trees fn) n (m', .climb a l.root) := by
      cases hlroot : l.root with
      | none =>
        obtain rfl := Tree.root_eq_none.mp hlroot
        exact ⟨0, Nat.zero_le _, fun m n hm => rfl⟩
      | some ll =>
        obtain ⟨i, hi, hwalk⟩ := ihl.child hlroot hl hndl hkl
        exact ⟨i, by omega, hwalk⟩
    -- then through `r`
    obtain ⟨j, hj, hright⟩ : ∃ j, j ≤ 3 * r.size ∧ ∀ m n, P m →
        tryLoop (Visitor.prePass trees fn) (n + j) (m, .climb a l.root) =
          andThen (fn.calls r.addrs m) fun m' =>
            tryLoop (Visitor.prePass trees fn) n (m', .climb a (r.root <|> l.root)) := by
      cases hrroot : r.root with
      | none =>
        obtain rfl := Tree.root_eq_none.mp hrroot
        exact ⟨0, Nat.zero_le _, fun m n hm => rfl⟩
      | some rr =>
        obtain ⟨j, hj, hwalk⟩ := ihr.child hrroot hr hndr hkr
        have hne : l.root ≠ some rr := fun heq =>
          hdisj (Tree.root_mem heq) (Tree.root_mem hrroot)
        refine ⟨j + 1, hj, fun m n hm => ?_⟩
        rw [← Nat.add_assoc, pre_right (hrroot ▸ ha m hm) hne, hwalk m n hm]
        rfl
    refine ⟨i + j + 1, by simp only [Tree.size]; omega, fun m n hm => ?_⟩
    rw [show n + (i + j + 1) = n + j + i + 1 by omega,
      pre_visit ha hkeeps.1 hm (n + j + i), Tree.addrs, Visitor.calls, andThen_assoc]
    refine andThen_congr fun m₁ hm₁ => ?_
    have hP₁ : P m₁ := hkeeps.1 m m₁ hm hm₁
    rw [hleft m₁ (n + j) hP₁, calls_append, andThen_assoc]
    exact andThen_congr fun m₂ hm₂ => hright m₂ n (calls_keep hkl hP₁ hm₂)

/-- From a root without a parent the walk is the recursive traversal. -/
theorem preorder_eq {t : Tree} {a : Nat} (hroot : t.root = some a)
    (ht : ∀ m, P m → Framed (trees m) none t) (hnd : t.addrs.Nodup)
    (hkeeps : ∀ b ∈ t.addrs, Keeps fn P b) {m : M} (hm : P m) {fuel : Nat}
    (hfuel : 3 * t.size ≤ fuel) :
    Visitor.preorder trees fn fuel m a = t.preorder fn m := by
  obtain ⟨k, hk, hwalk⟩ := pre_walks t hroot ht hnd hkeeps
  obtain ⟨n, rfl⟩ : ∃ n, fuel = n + 1 + k := ⟨fuel - 1 - k, by omega⟩
  rw [Visitor.preorder, hwalk m (n + 1) hm, preorder_eq_calls]
  refine Eq.trans (andThen_congr fun m' hm' => ?_) (andThen_done _)
  obtain ⟨left, right, hlinks, hleaves⟩ :=
    lastChild_leaves (ht m' (calls_keep hkeeps hm hm')) hroot
  exact pre_top hlinks hleaves n

end preorder

/-! ## The three walkers -/

/-- The second tree is the first with other nodes, whose tokens are the copied ones. -/
inductive Copied : Tree → Tree → Prop
  | nil : Copied .nil .nil
  | node {l r l' r' : Tree} (a a' : Nat) (token : Token) (hl : Copied l l') (hr : Copied r r') :
      Copied (.node a token l r)
        (.node a' { token with duplicated := true, optSubexp := false } l' r')

theorem copied_copyAt (t : Tree) (base : Nat) : Copied t (t.copyAt base) := by
  induction t generalizing base with
  | nil => exact .nil
  | node a token l r ihl ihr => exact .node a base token (ihl _) (ihr _)

/-- From a root without a parent the copy is a tree without a parent, made of new nodes. -/
theorem duplicateTree_root {ok : Nat → Bool} (hok : ∀ k, ok k = true) {dfa : Dfa} {t : Tree}
    {a fuel : Nat} (ht : Stands dfa (some a) t) (hfuel : 3 * t.size ≤ fuel) :
    ∃ dfa' copy, duplicateTree ok fuel dfa a = some (dfa', copy.root) ∧
      Stands dfa' copy.root copy ∧ Copied t copy ∧
      (∀ b ∈ copy.addrs, dfa.trees.length ≤ b) ∧
      ∀ b < dfa.trees.length, dfa'.trees[b]? = dfa.trees[b]? := by
  obtain ⟨dfa', hrun, htrees⟩ :=
    duplicateTree_spec hok ht.root ht.linked ht.nodup (.top a) hfuel
  refine ⟨dfa', t.copyAt dfa.trees.length, by rw [hrun, root_copyAt ht.root], ⟨rfl, ?_, ?_⟩,
    copied_copyAt t _, fun b hb => ?_, fun b hb => by rw [htrees, List.getElem?_append_left hb]⟩
  · have hcells := linked_cells t none dfa.trees []
    rwa [List.append_nil, ← htrees] at hcells
  · rw [addrs_copyAt]
    exact List.nodup_range'
  · rw [addrs_copyAt] at hb
    exact (List.mem_range'_1.mp hb).1

/-- `postorder` and `preorder` are the recursive traversals, which call the function on every node
    once until it gives an error; `duplicate_tree` makes an isomorphic tree. -/
theorem walkers_recursive (trees : M → List BinTree) (fn : Visitor M) {t : Tree} {a : Nat}
    (hroot : t.root = some a) (hnd : t.addrs.Nodup)
    (hkeeps : ∀ b ∈ t.addrs, ∀ m m', Framed (trees m) none t →
      fn b m = some (m', REG_NOERROR) → Framed (trees m') none t) :
    (∀ m fuel, Framed (trees m) none t → 2 * t.size ≤ fuel →
      Visitor.postorder trees fn fuel m a = t.postorder fn m ∧
      t.postorder fn m = fn.calls t.visits m) ∧
    (∀ m fuel, Framed (trees m) none t → 3 * t.size ≤ fuel →
      Visitor.preorder trees fn fuel m a = t.preorder fn m ∧
      t.preorder fn m = fn.calls t.addrs m) ∧
    (t.visits.Nodup ∧ ∀ b, b ∈ t.visits ↔ b ∈ t.addrs) ∧
    ∀ (ok : Nat → Bool) (dfa : Dfa) (fuel : Nat), (∀ k, ok k = true) → Stands dfa (some a) t →
      3 * t.size ≤ fuel → ∃ dfa' copy, duplicateTree ok fuel dfa a = some (dfa', copy.root) ∧
        Stands dfa' copy.root copy ∧ Copied t copy ∧
        (∀ b ∈ copy.addrs, dfa.trees.length ≤ b) ∧
        ∀ b < dfa.trees.length, dfa'.trees[b]? = dfa.trees[b]? := by
  refine ⟨fun m fuel hm hfuel => ⟨?_, postorder_eq_calls t m⟩,
    fun m fuel hm hfuel => ⟨?_, preorder_eq_calls t m⟩,
    ⟨(visits_perm t).nodup_iff.mpr hnd, fun b => mem_visits⟩,
    fun ok dfa fuel hok ht hfuel => duplicateTree_root hok ht hfuel⟩
  · exact postorder_eq (P := fun m => Framed (trees m) none t) hroot (fun m hm => hm) hnd hkeeps
      hm hfuel
  · exact preorder_eq (P := fun m => Framed (trees m) none t) hroot (fun m hm => hm) hnd hkeeps
      hm hfuel

/-- A root with two children, of which the left one has a child on the right only. -/
def bentTree (token : Token) : Tree :=
  .node 0 token (.node 1 token .nil (.node 3 token .nil .nil)) (.node 2 token .nil .nil)

def bentCells (token : Token) : List BinTree :=
  [⟨none, some 1, some 2, token⟩, ⟨some 0, none, some 3, token⟩, ⟨some 0, none, none, token⟩,
    ⟨some 1, none, none, token⟩]

/-- Writes down the nodes; at the node `stop` there is an error. -/
def noted (stop : Nat) : Visitor (List BinTree × List Nat) := fun node m =>
  some ((m.1, m.2 ++ [node]), if node = stop then REG_ESPACE else REG_NOERROR)

theorem walkers_recursive_bent :
    Visitor.postorder Prod.fst (noted 2) 8 (bentCells ⟨.concat, 0, false, false⟩, []) 0 =
      some ((bentCells ⟨.concat, 0, false, false⟩, [3, 1, 2]), REG_ESPACE) ∧
    Visitor.preorder Prod.fst (noted 1) 12 (bentCells ⟨.concat, 0, false, false⟩, []) 0 =
      some ((bentCells ⟨.concat, 0, false, false⟩, [0, 1]), REG_ESPACE) ∧
    ∃ dfa' copy, duplicateTree (fun _ => true) 12
        ⟨bentCells ⟨.concat, 0, false, false⟩, 0, 0, []⟩ 0 = some (dfa', copy.root) ∧
      Stands dfa' copy.root copy ∧ Copied (bentTree ⟨.concat, 0, false, false⟩) copy := by
  have hkeeps : ∀ stop, ∀ b ∈ (bentTree ⟨.concat, 0, false, false⟩).addrs, ∀ m m',
      Framed m.1 none (bentTree ⟨.concat, 0, false, false⟩) →
      noted stop b m = some (m', REG_NOERROR) →
      Framed m'.1 none (bentTree ⟨.concat, 0, false, false⟩) := by
    intro stop b _ m m' hm h
    obtain rfl := (Prod.mk.inj (Option.some.inj h)).1
    exact hm
  have hlinked : Linked (bentCells ⟨.concat, 0, false, false⟩) none
      (bentTree ⟨.concat, 0, false, false⟩) :=
    ⟨rfl, ⟨rfl, trivial, rfl, trivial, trivial⟩, rfl, trivial, trivial⟩
  refine ⟨?_, ?_, ?_⟩
  · exact ((walkers_recursive Prod.fst (noted 2) rfl (by decide) (hkeeps 2)).1 _ 8
      hlinked.framed (by decide)).1.trans (by decide)
  · exact ((walkers_recursive Prod.fst (noted 1) rfl (by decide) (hkeeps 1)).2.1 _ 12
      hlinked.framed (by decide)).1.trans (by decide)
  · obtain ⟨dfa', copy, hrun, hstands, hcopied, _⟩ :=
      (walkers_recursive Prod.fst (noted 0) rfl (by decide) (hkeeps 0)).2.2.2 (fun _ => true)
        ⟨bentCells ⟨.concat, 0, false, false⟩, 0, 0, []⟩ 12 (fun _ => rfl)
        ⟨rfl, hlinked, by decide⟩ (by decide)
    exact ⟨dfa', copy, hrun, hstands, hcopied⟩

end Librecompat.RegTree
