/-
  `duplicate_tree` makes a copy.

  The copy stands behind the nodes made before, in preorder (`copyAt`, `cells`). `copies` follows
  the walk through one subtree, by induction on the tree: it starts where the root is to be copied
  and ends where the walk is about to leave the root upwards. From the root of the whole
  tree it goes on upwards (`Climbs`) until there is no parent: that works out as long as every
  node on the way is reached from the right or has no right child.
-/
import Librecompat.RegTree.Shapes

namespace Librecompat.RegTree

open Librecompat.Lib

/-! ## The copy -/

/-- What becomes of the token of a copied node. -/
def Token.dup (token : Token) : Token := { token with duplicated := true, optSubexp := false }

/-- The copy whose nodes have the addresses from `base` on. -/
def Tree.copyAt (base : Nat) : Tree → Tree
  | nil => nil
  | node _ token l r =>
    node base token.dup (l.copyAt (base + 1)) (r.copyAt (base + 1 + l.size))

/-- The nodes in memory, in preorder. -/
def Tree.cells (par : Option Nat) : Tree → List BinTree
  | nil => []
  | node a token l r => ⟨par, l.root, r.root, token⟩ :: (l.cells (some a) ++ r.cells (some a))

@[simp] theorem size_copyAt (base : Nat) (t : Tree) : (t.copyAt base).size = t.size := by
  induction t generalizing base with
  | nil => rfl
  | node a token l r ihl ihr => simp [Tree.copyAt, Tree.size, ihl, ihr]

@[simp] theorem length_cells (par : Option Nat) (t : Tree) : (t.cells par).length = t.size := by
  induction t generalizing par with
  | nil => rfl
  | node a token l r ihl ihr => simp [Tree.cells, Tree.size, ihl, ihr]

theorem root_copyAt {t : Tree} {a : Nat} (h : t.root = some a) (base : Nat) :
    (t.copyAt base).root = some base := by
  cases t with
  | nil => simp at h
  | node b token l r => rfl

theorem addrs_copyAt (base : Nat) (t : Tree) :
    (t.copyAt base).addrs = List.range' base t.size := by
  induction t generalizing base with
  | nil => rfl
  | node a token l r ihl ihr =>
    rw [Tree.copyAt, Tree.addrs, ihl, ihr, Tree.size, List.range'_succ, List.range'_append_1]

/-- The cells of a copy are linked wherever they start at its first address. -/
theorem linked_cells (t : Tree) : ∀ (par : Option Nat) (before after : List BinTree),
    Linked (before ++ (t.copyAt before.length).cells par ++ after) par
      (t.copyAt before.length) := by
  induction t with
  | nil => exact fun _ _ _ => trivial
  | node a token l r ihl ihr =>
    intro par before after
    simp only [Tree.copyAt, Tree.cells]
    generalize hcell : (⟨par, (l.copyAt (before.length + 1)).root,
      (r.copyAt (before.length + 1 + l.size)).root, token.dup⟩ : BinTree) = cell
    have hl := ihl (some before.length) (before ++ [cell])
      ((r.copyAt (before.length + 1 + l.size)).cells (some before.length) ++ after)
    have hr := ihr (some before.length)
      (before ++ cell :: (l.copyAt (before.length + 1)).cells (some before.length)) after
    have hlen : (before ++ cell ::
        (l.copyAt (before.length + 1)).cells (some before.length)).length =
        before.length + 1 + l.size := by
      simp
      omega
    rw [hlen] at hr
    rw [List.length_append, List.length_singleton] at hl
    refine ⟨?_, by simpa using hl, by simpa using hr⟩
    rw [← hcell]
    simp

/-! ## Slots -/

/-- What storing the address of a new node in the slot does to the nodes. -/
def Slot.apply (new : Nat) (trees : List BinTree) : Slot → List BinTree
  | .dupRoot => trees
  | .left node => trees.modify node fun tree => { tree with left := some new }
  | .right node => trees.modify node fun tree => { tree with right := some new }

/-- What it does to the root of the copy. -/
def Slot.applyRoot (new : Nat) (dupRoot : Option Nat) : Slot → Option Nat
  | .dupRoot => some new
  | .left _ | .right _ => dupRoot

/-- The slot is in a node at or behind `lo`. -/
def Slot.Within (lo hi : Nat) : Slot → Prop
  | .dupRoot => True
  | .left node | .right node => lo ≤ node ∧ node < hi

@[simp] theorem length_apply (new : Nat) (trees : List BinTree) (slot : Slot) :
    (slot.apply new trees).length = trees.length := by
  cases slot <;> simp [Slot.apply]

theorem modify_append {before : List BinTree} : ∀ {i : Nat}, before.length ≤ i →
    ∀ (after : List BinTree) (f : BinTree → BinTree),
    (before ++ after).modify i f = before ++ after.modify (i - before.length) f := by
  induction before with
  | nil => exact fun _ _ _ => rfl
  | cons c before ih =>
    intro i h after f
    cases i with
    | zero => simp at h
    | succ i =>
      rw [List.length_cons, Nat.add_le_add_iff_right] at h
      simp [ih h]

theorem modify_append_left {before : List BinTree} : ∀ {i : Nat}, i < before.length →
    ∀ (after : List BinTree) (f : BinTree → BinTree),
    (before ++ after).modify i f = before.modify i f ++ after := by
  induction before with
  | nil => exact fun h => absurd h (Nat.not_lt_zero _)
  | cons c before ih =>
    intro i h after f
    cases i with
    | zero => simp
    | succ i =>
      rw [List.length_cons, Nat.add_lt_add_iff_right] at h
      simp [ih h]

theorem apply_append_left {trees : List BinTree} {slot : Slot} {lo : Nat}
    (h : slot.Within lo trees.length) (more : List BinTree) (new : Nat) :
    slot.apply new (trees ++ more) = slot.apply new trees ++ more := by
  cases slot with
  | dupRoot => rfl
  | left node => exact modify_append_left h.2 more _
  | right node => exact modify_append_left h.2 more _

/-- The nodes in front of those that the slots are in stay. -/
theorem apply_append {before : List BinTree} {slot : Slot} {hi : Nat}
    (h : slot.Within before.length hi) (after : List BinTree) (new : Nat) :
    ∃ after', slot.apply new (before ++ after) = before ++ after' := by
  cases slot with
  | dupRoot => exact ⟨after, rfl⟩
  | left node => exact ⟨_, modify_append h.1 after _⟩
  | right node => exact ⟨_, modify_append h.1 after _⟩

theorem store_spec {s : Dup} {lo : Nat} {slot : Slot} (h : slot.Within lo s.dfa.trees.length)
    (new : Nat) :
    s.store slot (some new) = some { s with
      dfa := { s.dfa with trees := slot.apply new s.dfa.trees }
      dupRoot := slot.applyRoot new s.dupRoot } := by
  cases slot with
  | dupRoot => rfl
  | left node => simp [Dup.store, Dfa.modify, modifyTree, h.2, Slot.apply, Slot.applyRoot]
  | right node => simp [Dup.store, Dfa.modify, modifyTree, h.2, Slot.apply, Slot.applyRoot]

/-! ## The walk through a subtree -/

variable {ok : Nat → Bool} {X : List BinTree}

/-- The node is left upwards: it is reached from the right, or has no right child. -/
def Leaves (trees : List BinTree) (a : Nat) (prev : Option Nat) : Prop :=
  ∃ n, trees[a]? = some n ∧ (n.right = prev ∨ n.right = none)

/-- The copy of the subtree `t`, whose root is to be copied in state `s`, has been made in state
    `s'` behind the nodes of `s`. -/
structure Walked (X : List BinTree) (t : Tree) (a : Nat) (slot : Slot) (dup : Option Nat)
    (s s' : Dup) : Prop where
  pos : ∃ prev, s'.pos = .climb a (some s.dfa.trees.length) prev ∧ Leaves X a prev
  trees : s'.dfa.trees = slot.apply s.dfa.trees.length s.dfa.trees ++
    (t.copyAt s.dfa.trees.length).cells dup
  dupRoot : s'.dupRoot = slot.applyRoot s.dfa.trees.length s.dupRoot

/-- The walk copies the subtree `t`, which stands in `X`. -/
def Copies (ok : Nat → Bool) (X : List BinTree) (t : Tree) : Prop :=
  ∀ {par : Option Nat} {a : Nat}, t.root = some a → Linked X par t → t.addrs.Nodup →
    ∀ {s : Dup} {Z : List BinTree} {slot : Slot} {dup : Option Nat}, s.dfa.trees = X ++ Z →
    slot.Within X.length s.dfa.trees.length → s.pos = .copy a slot dup →
    ∃ k s', k < 3 * t.size ∧ TryPasses (dupPass ok) k s s' ∧ Walked X t a slot dup s s'

/-- The pass that copies one node. -/
theorem copyPass_spec (hok : ∀ k, ok k = true) {s : Dup} {Z : List BinTree} {slot : Slot}
    {dup : Option Nat} {a : Nat} {src : BinTree} (hs : s.dfa.trees = X ++ Z)
    (hslot : slot.Within X.length s.dfa.trees.length) (hpos : s.pos = .copy a slot dup)
    (hsrc : X[a]? = some src) :
    ∃ s', dupPass ok s = some (.inl s') ∧
      s'.dfa.trees = slot.apply s.dfa.trees.length s.dfa.trees ++
        [⟨dup, none, none, src.token.dup⟩] ∧
      s'.dupRoot = slot.applyRoot s.dfa.trees.length s.dupRoot ∧
      s'.pos = match src.left with
        | some left => .copy left (.left s.dfa.trees.length) (some s.dfa.trees.length)
        | none => .climb a (some s.dfa.trees.length) none := by
  obtain ⟨d, root, pos⟩ := s
  simp only at hpos hs hslot
  subst hpos
  have hread : d.trees[a]? = some src := by
    rw [hs, List.getElem?_append_left (List.getElem?_eq_some_iff.mp hsrc).1, hsrc]
  obtain ⟨dfa, hcreate, htrees⟩ := createTokenTree_leaf hok d src.token
  have hwithin : slot.Within X.length dfa.trees.length := by
    have hle : d.trees.length ≤ dfa.trees.length := by simp [htrees]
    cases slot with
    | dupRoot => trivial
    | left node => exact ⟨hslot.1, hslot.2.trans_le hle⟩
    | right node => exact ⟨hslot.1, hslot.2.trans_le hle⟩
  have hstore := store_spec (s := ⟨dfa, root, .copy a slot dup⟩) hwithin d.trees.length
  simp only [htrees, apply_append_left hslot] at hstore
  unfold dupPass
  simp only [hread, hcreate, hstore, Option.bind_eq_bind, Option.bind_some, Dfa.modify, modifyTree]
  rw [if_pos (by simp), modify_append (by simp)]
  simp only [length_apply, Nat.sub_self, List.modify_zero_cons, Option.bind_some]
  cases src.left with
  | none => exact ⟨_, rfl, rfl, rfl, rfl⟩
  | some left => exact ⟨_, rfl, rfl, rfl, rfl⟩

variable (ok) in
/-- The pass that goes up from a node. -/
theorem climbPass_up {s : Dup} {a d p : Nat} {prev : Option Nat} {src dup : BinTree}
    (hpos : s.pos = .climb a (some d) prev) (hsrc : s.dfa.trees[a]? = some src)
    (hdup : s.dfa.trees[d]? = some dup) (hleaves : src.right = prev ∨ src.right = none)
    (hp : src.parent = some p) :
    dupPass ok s = some (.inl { s with pos := .climb p dup.parent (some a) }) := by
  obtain ⟨dfa, root, pos⟩ := s
  simp only at hpos hsrc hdup
  subst hpos
  simp [dupPass, hsrc, hdup, hleaves, hp]

variable (ok) in
/-- The pass that turns to the right child. -/
theorem climbPass_right {s : Dup} {a d r : Nat} {prev : Option Nat} {src dup : BinTree}
    (hpos : s.pos = .climb a (some d) prev) (hsrc : s.dfa.trees[a]? = some src)
    (hdup : s.dfa.trees[d]? = some dup) (hr : src.right = some r) (hne : prev ≠ some r) :
    dupPass ok s = some (.inl { s with pos := .copy r (.right d) (some d) }) := by
  obtain ⟨dfa, root, pos⟩ := s
  simp only at hpos hsrc hdup
  subst hpos
  simp [dupPass, hsrc, hdup, hr, Ne.symm hne]

/-- A child is copied, and the walk goes up again to its parent. -/
theorem Copies.child {t : Tree} (h : Copies ok X t) {a c : Nat} (hroot : t.root = some c)
    (ht : Linked X (some a) t) (hnd : t.addrs.Nodup) {s : Dup} {Z : List BinTree} {slot : Slot}
    {d : Nat} (hs : s.dfa.trees = X ++ Z) (hslot : slot.Within X.length s.dfa.trees.length)
    (hpos : s.pos = .copy c slot (some d)) :
    ∃ k s', k ≤ 3 * t.size ∧ TryPasses (dupPass ok) k s s' ∧
      s'.pos = .climb a (some d) (some c) ∧
      s'.dfa.trees = slot.apply s.dfa.trees.length s.dfa.trees ++
        (t.copyAt s.dfa.trees.length).cells (some d) ∧
      s'.dupRoot = slot.applyRoot s.dfa.trees.length s.dupRoot := by
  obtain ⟨k, s', hk, hpasses, ⟨prev, hpos', src, hsrc, hleaves⟩, htrees, hdupRoot⟩ :=
    h hroot ht hnd hs hslot hpos
  obtain ⟨src', hsrc', hparent⟩ := ht.exists_root hroot
  obtain rfl := Option.some.inj (hsrc.symm.trans hsrc')
  obtain ⟨Z', hZ'⟩ := apply_append hslot Z s.dfa.trees.length
  rw [← hs] at hZ'
  have hread : s'.dfa.trees[c]? = some src := by
    rw [htrees, hZ', List.append_assoc,
      List.getElem?_append_left (List.getElem?_eq_some_iff.mp hsrc).1, hsrc]
  have hnew : Linked s'.dfa.trees (some d) (t.copyAt s.dfa.trees.length) := by
    have hcells := linked_cells t (some d) (slot.apply s.dfa.trees.length s.dfa.trees) []
    rw [length_apply, List.append_nil] at hcells
    rwa [htrees]
  obtain ⟨dup, hdup, hdparent⟩ := hnew.exists_root (root_copyAt hroot _)
  have hup := climbPass_up ok hpos' hread hdup hleaves hparent
  refine ⟨k + 1, _, by omega, hpasses.trans (.single hup), ?_, htrees, hdupRoot⟩
  simp only [hdparent]

/-- The left child: the new node gets it, and the walk is back at the node. -/
theorem Copies.left {l : Tree} (h : Copies ok X l) {a len : Nat} {pre Z : List BinTree}
    {dup : Option Nat} {token : Token} (hl : Linked X (some a) l) (hnd : l.addrs.Nodup)
    (hpre : pre = X ++ Z) (hlen : pre.length = len) {s : Dup}
    (htrees : s.dfa.trees = pre ++ [⟨dup, none, none, token⟩])
    (hpos : s.pos = match l.root with
      | some left => .copy left (.left len) (some len)
      | none => .climb a (some len) none) :
    ∃ k s' prev, k ≤ 3 * l.size ∧ TryPasses (dupPass ok) k s s' ∧
      s'.pos = .climb a (some len) prev ∧ (prev = none ∨ prev = l.root) ∧
      s'.dfa.trees = pre ++ ⟨dup, (l.copyAt (len + 1)).root, none, token⟩ ::
        (l.copyAt (len + 1)).cells (some len) ∧ s'.dupRoot = s.dupRoot := by
  cases hroot : l.root with
  | none =>
    obtain rfl := Tree.root_eq_none.mp hroot
    exact ⟨0, s, none, by omega, .refl _, hpos, .inl rfl, htrees, rfl⟩
  | some c =>
    have hlen' : s.dfa.trees.length = len + 1 := by simp [htrees, hlen]
    have hs : s.dfa.trees = X ++ (Z ++ [⟨dup, none, none, token⟩]) := by
      rw [htrees, hpre, List.append_assoc]
    have hslot : (Slot.left len).Within X.length s.dfa.trees.length := by
      refine ⟨?_, by rw [hlen']; exact Nat.lt_succ_self len⟩
      rw [← hlen, hpre, List.length_append]
      exact Nat.le_add_right _ _
    rw [hroot] at hpos
    obtain ⟨k, s', hk, hpasses, hpos', htrees', hdupRoot⟩ := h.child hroot hl hnd hs hslot hpos
    refine ⟨k, s', some c, hk, hpasses, hpos', .inr rfl, ?_, hdupRoot⟩
    rw [htrees', hlen', htrees, Slot.apply, modify_append hlen.le, hlen, Nat.sub_self,
      List.modify_zero_cons, root_copyAt hroot, List.append_assoc]
    rfl

/-- The right child, or none: the walk turns to it and comes back, and then leaves the node. -/
theorem Copies.right {r : Tree} (h : Copies ok X r) {a len : Nat} {pre Z lcells : List BinTree}
    {par left right dup prev : Option Nat} {token token' : Token}
    (hsrc : X[a]? = some ⟨par, left, r.root, token⟩) (hr : Linked X (some a) r)
    (hnd : r.addrs.Nodup) (hne : r.root = none ∨ prev ≠ r.root) (hpre : pre = X ++ Z)
    (hlen : pre.length = len) {s : Dup}
    (htrees : s.dfa.trees = pre ++ ⟨dup, right, none, token'⟩ :: lcells)
    (hpos : s.pos = .climb a (some len) prev) :
    ∃ k s', k ≤ 3 * r.size + 1 ∧ TryPasses (dupPass ok) k s s' ∧
      (∃ prev', s'.pos = .climb a (some len) prev' ∧ Leaves X a prev') ∧
      s'.dfa.trees = pre ++ ⟨dup, right, (r.copyAt s.dfa.trees.length).root, token'⟩ :: lcells ++
        (r.copyAt s.dfa.trees.length).cells (some len) ∧ s'.dupRoot = s.dupRoot := by
  cases hroot : r.root with
  | none =>
    obtain rfl := Tree.root_eq_none.mp hroot
    exact ⟨0, s, by omega, .refl _, ⟨prev, hpos, _, hsrc, .inr rfl⟩,
      by rw [htrees]; exact (List.append_nil _).symm, rfl⟩
  | some c =>
    have hs : s.dfa.trees = X ++ (Z ++ ⟨dup, right, none, token'⟩ :: lcells) := by
      rw [htrees, hpre, List.append_assoc]
    have hread : s.dfa.trees[a]? = some ⟨par, left, r.root, token⟩ := by
      rw [hs, List.getElem?_append_left (List.getElem?_eq_some_iff.mp hsrc).1, hsrc]
    have hdup : s.dfa.trees[len]? = some ⟨dup, right, none, token'⟩ := by
      rw [htrees, List.getElem?_append_right hlen.le, hlen, Nat.sub_self]
      rfl
    have hslot : (Slot.right len).Within X.length s.dfa.trees.length := by
      refine ⟨?_, (List.getElem?_eq_some_iff.mp hdup).1⟩
      rw [← hlen, hpre, List.length_append]
      exact Nat.le_add_right _ _
    have hprev : prev ≠ some c := by
      rw [← hroot]
      exact hne.resolve_left (by simp [hroot])
    have hturn := climbPass_right ok hpos hread hdup hroot hprev
    obtain ⟨k, s', hk, hpasses, hpos', htrees', hdupRoot⟩ :=
      h.child (s := { s with pos := .copy c (.right len) (some len) }) hroot hr hnd hs hslot rfl
    refine ⟨k + 1, s', by omega, .head hturn hpasses, ⟨some c, hpos', _, hsrc, .inl hroot⟩, ?_,
      hdupRoot⟩
    rw [htrees']
    simp only
    rw [htrees, Slot.apply, modify_append hlen.le, hlen, Nat.sub_self, List.modify_zero_cons,
      root_copyAt hroot]

/-- The walk copies every subtree: the node, then the left child, then the right one. -/
theorem copies (hok : ∀ k, ok k = true) (X : List BinTree) (t : Tree) : Copies ok X t := by
  induction t with
  | nil => exact fun hroot => by simp at hroot
  | node a token l r ihl ihr =>
    intro par a' hroot hlinked hnd s Z slot dup hs hslot hpos
    obtain rfl : a = a' := by simpa using hroot
    obtain ⟨hsrc, hl, hr⟩ := hlinked
    simp only [Tree.addrs, List.nodup_cons, List.nodup_append'] at hnd
    obtain ⟨_, hndl, hndr, hdisj⟩ := hnd
    obtain ⟨Z', hpre⟩ := apply_append hslot Z s.dfa.trees.length
    rw [← hs] at hpre
    have hlen := length_apply s.dfa.trees.length s.dfa.trees slot
    obtain ⟨s₁, hpass, htrees₁, hroot₁, hpos₁⟩ := copyPass_spec hok hs hslot hpos hsrc
    obtain ⟨i, s₂, prev, hi, hpasses₂, hpos₂, hprev, htrees₂, hroot₂⟩ :=
      ihl.left hl hndl hpre hlen htrees₁ hpos₁
    have hne : r.root = none ∨ prev ≠ r.root := by
      refine or_iff_not_imp_left.mpr fun hsome heq => ?_
      obtain ⟨c, hc⟩ := Option.ne_none_iff_exists'.mp hsome
      obtain rfl | hlroot := hprev
      · exact hsome heq.symm
      · exact hdisj (Tree.root_mem (hlroot.symm.trans (heq.trans hc))) (Tree.root_mem hc)
    obtain ⟨j, s₃, hj, hpasses₃, hpos₃, htrees₃, hroot₃⟩ :=
      ihr.right hsrc hr hndr hne hpre hlen htrees₂ hpos₂
    have hlen₂ : s₂.dfa.trees.length = s.dfa.trees.length + 1 + l.size := by
      rw [htrees₂, List.length_append, hlen, List.length_cons, length_cells, size_copyAt]
      omega
    refine ⟨i + j + 1, s₃, by simp only [Tree.size]; omega, .head hpass (hpasses₂.trans hpasses₃),
      hpos₃, ?_, by rw [hroot₃, hroot₂, hroot₁]⟩
    rw [htrees₃, hlen₂, List.append_assoc]
    rfl

/-! ## The walk out of the tree -/

/-- From a node with the parent `par` the walk goes upwards `k` times, and there is no parent. -/
inductive Climbs (trees : List BinTree) : Nat → Option Nat → Nat → Prop
  | top (child : Nat) : Climbs trees child none 0
  | up {child p k : Nat} {n : BinTree} (hn : trees[p]? = some n)
      (hright : n.right = some child ∨ n.right = none) (hp : Climbs trees p n.parent k) :
      Climbs trees child (some p) (k + 1)

theorem Climbs.append {trees : List BinTree} {child k : Nat} {par : Option Nat}
    (h : Climbs trees child par k) (more : List BinTree) :
    Climbs (trees ++ more) child par k := by
  induction h with
  | top child => exact .top child
  | up hn hright _ ih =>
    refine .up ?_ hright ih
    rwa [List.getElem?_append_left (List.getElem?_eq_some_iff.mp hn).1]

variable (ok) in
/-- The walk leaves the tree whose copy is complete. -/
theorem Climbs.walk {trees : List BinTree} {a k : Nat} {par : Option Nat}
    (h : Climbs trees a par k) : ∀ {s : Dup} {d : Nat} {prev : Option Nat} {src dup : BinTree},
    s.dfa.trees = trees → s.pos = .climb a (some d) prev → trees[a]? = some src →
    src.parent = par → trees[d]? = some dup → dup.parent = par →
    (src.right = prev ∨ src.right = none) →
    ∃ s', TryPasses (dupPass ok) k s s' ∧ dupPass ok s' = some (.inr (s.dfa, s.dupRoot)) := by
  induction h with
  | top child =>
    intro s d prev src dup hs hpos hsrc hpar hdup hdpar hleaves
    refine ⟨s, .refl s, ?_⟩
    obtain ⟨dfa, root, pos⟩ := s
    simp only at hs hpos
    subst hs hpos
    simp [dupPass, hsrc, hdup, hleaves, hpar]
  | @up child p k n hn hright hp ih =>
    intro s d prev src dup hs hpos hsrc hpar hdup hdpar hleaves
    have hup := climbPass_up ok hpos (hs ▸ hsrc) (hs ▸ hdup) hleaves hpar
    rw [hdpar] at hup
    obtain ⟨s', hpasses, hres⟩ := ih (s := { s with pos := .climb p (some p) (some child) })
      hs rfl hn rfl hn rfl hright
    exact ⟨s', .head hup hpasses, hres⟩

/-- `duplicate_tree` puts a copy with the same parent behind the nodes that there are. -/
theorem duplicateTree_spec (hok : ∀ k, ok k = true) {dfa : Dfa} {t : Tree} {par : Option Nat}
    {a k fuel : Nat} (hroot : t.root = some a) (ht : Linked dfa.trees par t)
    (hnd : t.addrs.Nodup) (hclimbs : Climbs dfa.trees a par k) (hfuel : 3 * t.size + k ≤ fuel) :
    ∃ dfa', duplicateTree ok fuel dfa a = some (dfa', some dfa.trees.length) ∧
      dfa'.trees = dfa.trees ++ (t.copyAt dfa.trees.length).cells par := by
  obtain ⟨src, hsrc, hpar⟩ := ht.exists_root hroot
  have hslot : Slot.dupRoot.Within dfa.trees.length dfa.trees.length := trivial
  obtain ⟨j, s', hj, hpasses, ⟨prev, hpos, src', hsrc', hleaves⟩, htrees, hdupRoot⟩ :=
    copies hok dfa.trees t hroot ht hnd (s := ⟨dfa, none, .copy a .dupRoot par⟩)
      (List.append_nil _).symm hslot rfl
  obtain rfl := Option.some.inj (hsrc.symm.trans hsrc')
  simp only [Slot.apply, Slot.applyRoot] at htrees hdupRoot hpos
  have hnew : Linked s'.dfa.trees par (t.copyAt dfa.trees.length) := by
    have hcells := linked_cells t par dfa.trees []
    rwa [List.append_nil, ← htrees] at hcells
  obtain ⟨dup, hdup, hdpar⟩ := hnew.exists_root (root_copyAt hroot _)
  have hout := hclimbs.append ((t.copyAt dfa.trees.length).cells par)
  rw [← htrees] at hout
  obtain ⟨s'', hwalk, hres⟩ := hout.walk ok rfl hpos
    (by rw [htrees, List.getElem?_append_left (List.getElem?_eq_some_iff.mp hsrc).1, hsrc])
    hpar hdup hdpar hleaves
  refine ⟨s'.dfa, ?_, htrees⟩
  unfold duplicateTree
  simp only [hsrc, hpar, Option.bind_eq_bind, Option.bind_some]
  rw [(hpasses.trans hwalk).result hres (by omega), hdupRoot]

end Librecompat.RegTree
