/-
  Walks that change the tree they are on.

  A visiting function may replace what is below the node that it is called on, and take new nodes for
  it. `postorder` has been below the node already, so it does not see the new trees; `preorder` goes
  on through them. Neither is disturbed, as long as the function leaves alone what is not below the
  node (`Rewrites`). So behind a walk there is the tree that the recursive traversal makes
  (`PostRewritten`, `PreRewritten`). The proofs follow the walk through one subtree and say where it
  goes on; the induction is on the tree.
-/
import Librecompat.Lib.Fuel
import Librecompat.RegTree.Walkers

namespace Librecompat.RegTree

open Librecompat.Lib
open Librecompat.Regex (RegErrcode REG_NOERROR REG_ESPACE)

variable {M : Type} {trees : M → List BinTree} {fn : Visitor M}

/-! ## Changes below a node -/

/-- In the place of `t` there is `t'`, made of nodes of `t` and new ones; all other nodes are as they
    were. -/
structure Rewrites (before after : List BinTree) (par : Option Nat) (t t' : Tree) : Prop where
  linked : Linked after par t'
  nodup : t'.addrs.Nodup
  addrs : ∀ b ∈ t'.addrs, b ∈ t.addrs ∨ before.length ≤ b
  kept : ∀ b < before.length, b ∉ t.addrs → after[b]? = before[b]?
  length_le : before.length ≤ after.length

variable {before mid after : List BinTree} {par : Option Nat} {t t' t'' : Tree}

theorem Rewrites.refl (h : Linked before par t) (hnd : t.addrs.Nodup) :
    Rewrites before before par t t :=
  ⟨h, hnd, fun _ hb => .inl hb, fun _ _ _ => rfl, Nat.le_refl _⟩

theorem Rewrites.trans {par' : Option Nat} (h : Rewrites before mid par' t t')
    (h' : Rewrites mid after par t' t'') : Rewrites before after par t t'' := by
  refine ⟨h'.linked, h'.nodup, fun b hb => ?_, fun b hb hout => ?_, h.length_le.trans h'.length_le⟩
  · obtain hb | hb := h'.addrs b hb
    · exact h.addrs b hb
    · exact .inr (h.length_le.trans hb)
  · have hout' : b ∉ t'.addrs := fun hmem =>
      (h.addrs b hmem).elim hout (Nat.not_le.mpr hb)
    rw [h'.kept b (hb.trans_le h.length_le) hout', h.kept b hb hout]

/-- Another left child. -/
theorem rewrites_left {a : Nat} {token : Token} {l l' r : Tree}
    (ht : Linked before par (.node a token l r)) (hnd : (Tree.node a token l r).addrs.Nodup)
    (ha' : after[a]? = some ⟨par, l'.root, r.root, token⟩) (hl' : Linked after (some a) l')
    (hnd' : l'.addrs.Nodup) (haddrs : ∀ b ∈ l'.addrs, b ∈ l.addrs ∨ before.length ≤ b)
    (hkept : ∀ b < before.length, b ≠ a → b ∉ l.addrs → after[b]? = before[b]?)
    (hle : before.length ≤ after.length) :
    Rewrites before after par (.node a token l r) (.node a token l' r) := by
  obtain ⟨ha, hl, hr⟩ := ht
  simp only [Tree.addrs, List.nodup_cons, List.mem_append, not_or, List.nodup_append'] at hnd
  obtain ⟨⟨hal, har⟩, hndl, hndr, hdisj⟩ := hnd
  have hout : a ∉ l'.addrs := fun hmem =>
    (haddrs a hmem).elim hal (Nat.not_le.mpr (List.getElem?_eq_some_iff.mp ha).1)
  refine ⟨⟨ha', hl', hr.congr fun b hb => ?_⟩, ?_, ?_, ?_, hle⟩
  · exact hkept b (hr.lt b hb) (fun heq => har (heq ▸ hb)) fun hmem => hdisj hmem hb
  · simp only [Tree.addrs, List.nodup_cons, List.mem_append, not_or, List.nodup_append']
    refine ⟨⟨hout, har⟩, hnd', hndr, fun b hb hb' => ?_⟩
    exact (haddrs b hb).elim (fun hmem => hdisj hmem hb') (Nat.not_le.mpr (hr.lt b hb'))
  · intro b hb
    simp only [Tree.addrs, List.mem_cons, List.mem_append] at hb ⊢
    obtain rfl | hb | hb := hb
    · exact .inl (.inl rfl)
    · exact (haddrs b hb).imp_left fun hb => .inr (.inl hb)
    · exact .inl (.inr (.inr hb))
  · intro b hb hmem
    simp only [Tree.addrs, List.mem_cons, List.mem_append, not_or] at hmem
    exact hkept b hb hmem.1 hmem.2.1

/-- Another right child. -/
theorem rewrites_right {a : Nat} {token : Token} {l r r' : Tree}
    (ht : Linked before par (.node a token l r)) (hnd : (Tree.node a token l r).addrs.Nodup)
    (ha' : after[a]? = some ⟨par, l.root, r'.root, token⟩) (hr' : Linked after (some a) r')
    (hnd' : r'.addrs.Nodup) (haddrs : ∀ b ∈ r'.addrs, b ∈ r.addrs ∨ before.length ≤ b)
    (hkept : ∀ b < before.length, b ≠ a → b ∉ r.addrs → after[b]? = before[b]?)
    (hle : before.length ≤ after.length) :
    Rewrites before after par (.node a token l r) (.node a token l r') := by
  obtain ⟨ha, hl, hr⟩ := ht
  simp only [Tree.addrs, List.nodup_cons, List.mem_append, not_or, List.nodup_append'] at hnd
  obtain ⟨⟨hal, har⟩, hndl, hndr, hdisj⟩ := hnd
  have hout : a ∉ r'.addrs := fun hmem =>
    (haddrs a hmem).elim har (Nat.not_le.mpr (List.getElem?_eq_some_iff.mp ha).1)
  refine ⟨⟨ha', hl.congr fun b hb => ?_, hr'⟩, ?_, ?_, ?_, hle⟩
  · exact hkept b (hl.lt b hb) (fun heq => hal (heq ▸ hb)) fun hmem => hdisj hb hmem
  · simp only [Tree.addrs, List.nodup_cons, List.mem_append, not_or, List.nodup_append']
    refine ⟨⟨hal, hout⟩, hndl, hnd', fun b hb hb' => ?_⟩
    exact (haddrs b hb').elim (fun hmem => hdisj hb hmem) (Nat.not_le.mpr (hl.lt b hb))
  · intro b hb
    simp only [Tree.addrs, List.mem_cons, List.mem_append] at hb ⊢
    obtain rfl | hb | hb := hb
    · exact .inl (.inl rfl)
    · exact .inl (.inr (.inl hb))
    · exact (haddrs b hb).imp_left fun hb => .inr (.inr hb)
  · intro b hb hmem
    simp only [Tree.addrs, List.mem_cons, List.mem_append, not_or] at hmem
    exact hkept b hb hmem.1 hmem.2.2

/-- A change of the left child is one of the whole tree. -/
theorem Rewrites.left {a : Nat} {token : Token} {l l' r : Tree}
    (h : Rewrites before after (some a) l l') (hroot : l'.root = l.root)
    (ht : Linked before par (.node a token l r)) (hnd : (Tree.node a token l r).addrs.Nodup) :
    Rewrites before after par (.node a token l r) (.node a token l' r) := by
  have hal : a ∉ l.addrs := fun hmem =>
    (List.nodup_cons.mp hnd).1 (List.mem_append_left _ hmem)
  refine rewrites_left ht hnd ?_ h.linked h.nodup h.addrs (fun b hb _ => h.kept b hb) h.length_le
  rw [h.kept a (List.getElem?_eq_some_iff.mp ht.1).1 hal, ht.1, hroot]

/-- A change of the right child is one of the whole tree. -/
theorem Rewrites.right {a : Nat} {token : Token} {l r r' : Tree}
    (h : Rewrites before after (some a) r r') (hroot : r'.root = r.root)
    (ht : Linked before par (.node a token l r)) (hnd : (Tree.node a token l r).addrs.Nodup) :
    Rewrites before after par (.node a token l r) (.node a token l r') := by
  have har : a ∉ r.addrs := fun hmem =>
    (List.nodup_cons.mp hnd).1 (List.mem_append_right _ hmem)
  refine rewrites_right ht hnd ?_ h.linked h.nodup h.addrs (fun b hb _ => h.kept b hb) h.length_le
  rw [h.kept a (List.getElem?_eq_some_iff.mp ht.1).1 har, ht.1, hroot]

/-! ## postorder -/

variable {R : Tree → Tree → Prop}

variable (trees fn R) in
/-- Called on a node, the function puts other trees in the places of its children. -/
def PostVisits : Prop :=
  ∀ {m : M} {par : Option Nat} {a : Nat} {token : Token} {l r : Tree},
    Linked (trees m) par (.node a token l r) → (Tree.node a token l r).addrs.Nodup →
    Yields (fun q => q.2 = REG_NOERROR → ∃ l' r', R l l' ∧ R r r' ∧
      Rewrites (trees m) (trees q.1) par (.node a token l r) (.node a token l' r')) (fn a m)

/-- What the walk makes of a tree: the children of each node are replaced behind the nodes below
    them. -/
inductive PostRewritten (R : Tree → Tree → Prop) : Tree → Tree → Prop
  | nil : PostRewritten R .nil .nil
  | node {l l₁ l₂ r r₁ r₂ : Tree} (a : Nat) (token : Token) (hl : PostRewritten R l l₁)
      (hr : PostRewritten R r r₁) (hl' : R l₁ l₂) (hr' : R r₁ r₂) :
      PostRewritten R (.node a token l r) (.node a token l₂ r₂)

theorem PostRewritten.root (h : PostRewritten R t t') : t'.root = t.root := by
  cases h with
  | nil => rfl
  | node a token hl hr hl' hr' => rfl

variable {Q : M × RegErrcode → Prop}

variable (trees fn R Q) in
/-- The walk through a tree under a node, up to the place behind it. -/
def PostArrives (t : Tree) : Prop :=
  ∀ {p c : Nat} {m : M} {up : BinTree}, t.root = some c → Linked (trees m) (some p) t →
    t.addrs.Nodup → (trees m)[p]? = some up → p ∉ t.addrs →
    (∀ m' t', PostRewritten R t t' → Rewrites (trees m) (trees m') (some p) t t' →
      Arrives (Visitor.postPass trees fn) Q (m', .behind c p up.right)) →
    Arrives (Visitor.postPass trees fn) Q (m, .descend c)

/-- From a node down to where the function is called on it. -/
theorem post_below {m : M} {a : Nat} {token : Token} {l r : Tree}
    (ihl : PostArrives trees fn R Q l) (ihr : PostArrives trees fn R Q r)
    (ht : Linked (trees m) par (.node a token l r)) (hnd : (Tree.node a token l r).addrs.Nodup)
    (hvisit : ∀ m' l' r', PostRewritten R l l' → PostRewritten R r r' →
      Rewrites (trees m) (trees m') par (.node a token l r) (.node a token l' r') →
      Arrives (Visitor.postPass trees fn) Q (m', .visit a)) :
    Arrives (Visitor.postPass trees fn) Q (m, .descend a) := by
  obtain ⟨ha, hl, hr⟩ := id ht
  have hparts := hnd
  simp only [Tree.addrs, List.nodup_cons, List.mem_append, not_or, List.nodup_append'] at hparts
  obtain ⟨⟨hal, har⟩, hndl, hndr, hdisj⟩ := hparts
  -- on the right of a left tree that has been walked through
  have hright : ∀ m₁ l₁, PostRewritten R l l₁ →
      Rewrites (trees m) (trees m₁) par (.node a token l r) (.node a token l₁ r) →
      ∀ rr, r.root = some rr → Arrives (Visitor.postPass trees fn) Q (m₁, .descend rr) := by
    intro m₁ l₁ hl₁ hrew rr hrr
    obtain ⟨ha₁, -, hr₁⟩ := hrew.linked
    have hnd₁ := hrew.nodup
    simp only [Tree.addrs, List.nodup_cons, List.mem_append, not_or, List.nodup_append'] at hnd₁
    refine ihr hrr hr₁ hndr ha₁ har fun m₂ r₂ hr₂ hrew₂ => ?_
    rw [hrr, behind_right]
    exact hvisit m₂ l₁ r₂ hl₁ hr₂ (hrew.trans (hrew₂.right hr₂.root hrew.linked hrew.nodup))
  cases hlroot : l.root with
  | none =>
    obtain rfl := Tree.root_eq_none.mp hlroot
    have hrefl := Rewrites.refl ht hnd
    cases hrroot : r.root with
    | none =>
      obtain rfl := Tree.root_eq_none.mp hrroot
      exact (hvisit m .nil .nil .nil .nil hrefl).head (by simp [Visitor.postPass, ha])
    | some rr =>
      exact (hright m .nil .nil hrefl rr hrroot).head (by simp [Visitor.postPass, ha, hrroot])
  | some ll =>
    refine Arrives.head ?_ (by simp [Visitor.postPass, ha, hlroot] :
      Visitor.postPass trees fn (m, .descend a) = some (.inl (m, .descend ll)))
    refine ihl hlroot hl hndl ha hal fun m₁ l₁ hl₁ hrew => ?_
    have hrew₁ := hrew.left hl₁.root ht hnd
    cases hrroot : r.root with
    | none =>
      obtain rfl := Tree.root_eq_none.mp hrroot
      exact hvisit m₁ l₁ .nil hl₁ .nil hrew₁
    | some rr =>
      have hne : rr ≠ ll := by
        rintro rfl
        exact hdisj (Tree.root_mem hlroot) (Tree.root_mem hrroot)
      dsimp only
      rw [behind_left hne]
      exact hright m₁ l₁ hl₁ hrew₁ rr hrroot

/-- The function is called on a node under another one. -/
theorem post_visit_under (hfn : PostVisits trees fn R) (hQ : ∀ q, q.2 ≠ REG_NOERROR → Q q) {m : M}
    {p a : Nat} {token : Token} {l r : Tree} {up : BinTree}
    (ht : Linked (trees m) (some p) (.node a token l r)) (hnd : (Tree.node a token l r).addrs.Nodup)
    (hp : (trees m)[p]? = some up) (hout : p ∉ (Tree.node a token l r).addrs)
    (hnext : ∀ m' l' r', R l l' → R r r' →
      Rewrites (trees m) (trees m') (some p) (.node a token l r) (.node a token l' r') →
      Arrives (Visitor.postPass trees fn) Q (m', .behind a p up.right)) :
    Arrives (Visitor.postPass trees fn) Q (m, .visit a) := by
  refine arrives_of ((hfn ht hnd).bind fun q _ hq => ?_)
  split
  · next herr => exact yields_some.mpr (hQ q herr)
  · next herr =>
    obtain ⟨l', r', hl', hr', hrew⟩ := hq (not_not.mp herr)
    have hplt : p < (trees m).length := (List.getElem?_eq_some_iff.mp hp).1
    have hp' : (trees q.1)[p]? = some up := by rw [hrew.kept p hplt hout, hp]
    have hgo := hnext q.1 l' r' hl' hr' hrew
    simp only [hrew.linked.1, hp', Option.bind_eq_bind, Option.bind_some]
    cases hright : up.right with
    | none =>
      rw [hright, PostAt.behind] at hgo
      simpa using hgo
    | some rr =>
      rw [hright] at hgo
      by_cases heq : rr = a
      · subst heq
        rw [behind_right] at hgo
        simpa using hgo
      · rw [behind_left heq] at hgo
        simpa [heq] using hgo

theorem post_arrives (hfn : PostVisits trees fn R) (hQ : ∀ q, q.2 ≠ REG_NOERROR → Q q) (t : Tree) :
    PostArrives trees fn R Q t := by
  induction t with
  | nil => exact fun hroot => by simp at hroot
  | node a token l r ihl ihr =>
    intro p c m up hroot ht hnd hp hout hgo
    obtain rfl : a = c := by simpa using hroot
    refine post_below ihl ihr ht hnd fun m₁ l₁ r₁ hl₁ hr₁ hrew => ?_
    have hplt : p < (trees m).length := (List.getElem?_eq_some_iff.mp hp).1
    have hout₁ : p ∉ (Tree.node a token l₁ r₁).addrs := fun hmem =>
      (hrew.addrs p hmem).elim hout (Nat.not_le.mpr hplt)
    refine post_visit_under hfn hQ hrew.linked hrew.nodup
      (by rw [hrew.kept p hplt hout, hp] : (trees m₁)[p]? = some up) hout₁
      fun m₂ l₂ r₂ hl₂ hr₂ hrew₂ => ?_
    exact hgo m₂ _ (.node a token hl₁ hr₁ hl₂ hr₂) (hrew.trans hrew₂)

/-- From a root without a parent the walk makes the tree that the traversal makes. -/
theorem yields_postorder_rewrites (hfn : PostVisits trees fn R) {m : M} {a fuel : Nat}
    (hroot : t.root = some a) (ht : Linked (trees m) none t) (hnd : t.addrs.Nodup) :
    Yields (fun q => q.2 = REG_NOERROR → ∃ t', PostRewritten R t t' ∧
      Rewrites (trees m) (trees q.1) none t t') (Visitor.postorder trees fn fuel m a) := by
  cases t with
  | nil => simp at hroot
  | node b token l r =>
    obtain rfl : b = a := by simpa using hroot
    have hQ : ∀ q : M × RegErrcode, q.2 ≠ REG_NOERROR → (q.2 = REG_NOERROR →
        ∃ t', PostRewritten R (.node b token l r) t' ∧
          Rewrites (trees m) (trees q.1) none (.node b token l r) t') :=
      fun q hne h => absurd h hne
    refine post_below (post_arrives hfn hQ l) (post_arrives hfn hQ r) ht hnd
      (fun m₁ l₁ r₁ hl₁ hr₁ hrew => ?_) fuel
    refine arrives_of ((hfn hrew.linked hrew.nodup).bind fun q _ hq => ?_)
    split
    · next herr => exact yields_some.mpr fun hzero => absurd hzero herr
    · next herr =>
      obtain ⟨l₂, r₂, hl₂, hr₂, hrew₂⟩ := hq (not_not.mp herr)
      simp only [hrew₂.linked.1, Option.bind_eq_bind, Option.bind_some]
      exact yields_some.mpr fun _ => ⟨_, .node b token hl₁ hr₁ hl₂ hr₂, hrew.trans hrew₂⟩

/-! ## preorder -/

variable {S : Tree → Tree → Prop}

variable (trees fn S) in
/-- Called on a node, the function puts another tree with the same root in its place. -/
def PreVisits : Prop :=
  ∀ {m : M} {par : Option Nat} {a : Nat} {token : Token} {l r : Tree},
    Linked (trees m) par (.node a token l r) → (Tree.node a token l r).addrs.Nodup →
    Yields (fun q => q.2 = REG_NOERROR → ∃ token' l' r',
      S (.node a token l r) (.node a token' l' r') ∧
      Rewrites (trees m) (trees q.1) par (.node a token l r) (.node a token' l' r')) (fn a m)

/-- What the walk makes of a tree: each node is replaced in front of the nodes below it. -/
inductive PreRewritten (S : Tree → Tree → Prop) : Tree → Tree → Prop
  | nil : PreRewritten S .nil .nil
  | node {token token' : Token} {l l₁ l₂ r r₁ r₂ : Tree} (a : Nat)
      (h : S (.node a token l r) (.node a token' l₁ r₁)) (hl : PreRewritten S l₁ l₂)
      (hr : PreRewritten S r₁ r₂) : PreRewritten S (.node a token l r) (.node a token' l₂ r₂)

theorem PreRewritten.root (h : PreRewritten S t t') : t'.root = t.root := by
  cases h with
  | nil => rfl
  | node a h hl hr => rfl

variable (trees fn S Q) in
/-- The walk through a tree under a node, up to the place behind it. -/
def PreArrives (t : Tree) : Prop :=
  ∀ {p c : Nat} {m : M} {up : BinTree}, t.root = some c → Linked (trees m) (some p) t →
    t.addrs.Nodup → (trees m)[p]? = some up → p ∉ t.addrs →
    (∀ m' t', PreRewritten S t t' → Rewrites (trees m) (trees m') (some p) t t' →
      Arrives (Visitor.prePass trees fn) Q (m', .climb p (some c))) →
    Arrives (Visitor.prePass trees fn) Q (m, .visit c)

/-- From a node to where the walk leaves it upwards. -/
theorem pre_below (hfn : PreVisits trees fn S) (hQ : ∀ q, q.2 ≠ REG_NOERROR → Q q)
    (hsize : ∀ t t', S t t' → t'.size ≤ t.size) {m : M} {a : Nat} {token : Token} {l r : Tree}
    (ih : ∀ s : Tree, s.size < (Tree.node a token l r).size → PreArrives trees fn Q S s)
    (ht : Linked (trees m) par (.node a token l r)) (hnd : (Tree.node a token l r).addrs.Nodup)
    (hup : ∀ m' t' cell prev, PreRewritten S (.node a token l r) t' →
      Rewrites (trees m) (trees m') par (.node a token l r) t' → (trees m')[a]? = some cell →
      cell.parent = par → cell.right = prev ∨ cell.right = none →
      Arrives (Visitor.prePass trees fn) Q (m', .climb a prev)) :
    Arrives (Visitor.prePass trees fn) Q (m, .visit a) := by
  refine arrives_of ((hfn ht hnd).bind fun q _ hq => ?_)
  split
  · next herr => exact yields_some.mpr (hQ q herr)
  next herr =>
  obtain ⟨token', l₁, r₁, hS, hrew⟩ := hq (not_not.mp herr)
  have hle := hsize _ _ hS
  simp only [Tree.size] at hle ih
  obtain ⟨ha, hl, -⟩ := hrew.linked
  have hparts := hrew.nodup
  simp only [Tree.addrs, List.nodup_cons, List.mem_append, not_or, List.nodup_append'] at hparts
  obtain ⟨⟨hal, har⟩, hndl, hndr, hdisj⟩ := hparts
  -- behind the left tree
  have hright : ∀ m₂ l₂, PreRewritten S l₁ l₂ →
      Rewrites (trees m) (trees m₂) par (.node a token l r) (.node a token' l₂ r₁) →
      Arrives (Visitor.prePass trees fn) Q (m₂, .climb a l₁.root) := by
    intro m₂ l₂ hl₂ hrew₂
    obtain ⟨ha₂, -, hr₂⟩ := hrew₂.linked
    cases hrroot : r₁.root with
    | none =>
      obtain rfl := Tree.root_eq_none.mp hrroot
      exact hup m₂ _ _ _ (.node a hS hl₂ .nil) hrew₂ ha₂ rfl (.inr rfl)
    | some rr =>
      have hne : ¬ l₁.root = some rr := fun heq =>
        hdisj (Tree.root_mem heq) (Tree.root_mem hrroot)
      refine Arrives.head ?_ (by simp [Visitor.prePass, ha₂, hrroot, Ne.symm hne] :
        Visitor.prePass trees fn (m₂, .climb a l₁.root) = some (.inl (m₂, .visit rr)))
      refine ih r₁ (by omega) hrroot hr₂ hndr ha₂ har fun m₃ r₃ hr₃ hrew₃ => ?_
      have hrew' := hrew₂.trans (hrew₃.right hr₃.root hrew₂.linked hrew₂.nodup)
      exact hup m₃ _ _ _ (.node a hS hl₂ hr₃) hrew' hrew'.linked.1 rfl
        (.inl (by rw [hr₃.root, hrroot]))
  cases hlroot : l₁.root with
  | none =>
    obtain rfl := Tree.root_eq_none.mp hlroot
    simp only [ha, Tree.root_nil, Option.bind_eq_bind, Option.bind_some]
    exact yields_some.mpr (hright q.1 .nil .nil hrew)
  | some ll =>
    simp only [ha, hlroot, Option.bind_eq_bind, Option.bind_some]
    refine yields_some.mpr ?_
    refine ih l₁ (by omega) hlroot hl hndl ha hal fun m₂ l₂ hl₂ hrew₂ => ?_
    rw [← hlroot]
    exact hright m₂ l₂ hl₂ (hrew.trans (hrew₂.left hl₂.root hrew.linked hrew.nodup))

theorem pre_arrives (hfn : PreVisits trees fn S) (hQ : ∀ q, q.2 ≠ REG_NOERROR → Q q)
    (hsize : ∀ t t', S t t' → t'.size ≤ t.size) : ∀ (n : Nat) (t : Tree), t.size < n →
    PreArrives trees fn Q S t
  | 0, _, h => absurd h (Nat.not_lt_zero _)
  | n + 1, .nil, _ => fun hroot => by simp at hroot
  | n + 1, .node a token l r, h => by
    intro hroot ht hnd hp hout hgo
    obtain rfl := Option.some.inj hroot
    refine pre_below hfn hQ hsize (fun s hs => pre_arrives hfn hQ hsize n s (by omega)) ht hnd ?_
    rintro m' t' ⟨cpar, cleft, cright, ctoken⟩ prev ht' hrew hcell rfl hleaves
    refine (hgo m' t' ht' hrew).head ?_
    simp only [Visitor.prePass, hcell, Option.bind_eq_bind, Option.bind_some]
    rw [if_pos hleaves]

/-- From a root without a parent the walk makes the tree that the traversal makes. -/
theorem yields_preorder_rewrites (hfn : PreVisits trees fn S)
    (hsize : ∀ t t', S t t' → t'.size ≤ t.size) {m : M} {a fuel : Nat} (hroot : t.root = some a)
    (ht : Linked (trees m) none t) (hnd : t.addrs.Nodup) :
    Yields (fun q => q.2 = REG_NOERROR → ∃ t', PreRewritten S t t' ∧
      Rewrites (trees m) (trees q.1) none t t') (Visitor.preorder trees fn fuel m a) := by
  cases t with
  | nil => simp at hroot
  | node b token l r =>
    obtain rfl : b = a := by simpa using hroot
    have hQ : ∀ q : M × RegErrcode, q.2 ≠ REG_NOERROR → (q.2 = REG_NOERROR →
        ∃ t', PreRewritten S (.node b token l r) t' ∧
          Rewrites (trees m) (trees q.1) none (.node b token l r) t') :=
      fun q hne h => absurd h hne
    refine pre_below hfn hQ hsize (fun s _ => pre_arrives hfn hQ hsize _ s (Nat.lt_succ_self _)) ht
      hnd ?_ fuel
    rintro m' t' ⟨cpar, cleft, cright, ctoken⟩ prev ht' hrew hcell rfl hleaves
    refine arrives_of ?_
    simp only [Visitor.prePass, hcell, Option.bind_eq_bind, Option.bind_some]
    rw [if_pos hleaves]
    exact yields_some.mpr fun _ => ⟨t', ht', hrew⟩

/-! ## Walks that keep the links -/

/-- Where the function leaves the trees alone, the walk is the recursive traversal. -/
theorem yields_postorder_of {m : M} {a fuel : Nat} (hroot : t.root = some a)
    (ht : Linked (trees m) none t) (hnd : t.addrs.Nodup)
    (hkeeps : ∀ b m m', fn b m = some (m', REG_NOERROR) → trees m' = trees m)
    (h : Yields Q (t.postorder fn m)) : Yields Q (Visitor.postorder trees fn fuel m a) := by
  have heq := postorder_eq (P := fun m' => trees m' = trees m) hroot
    (fun m' hm' => hm' ▸ ht.framed) hnd
    (fun b _ m₁ m₂ h₁ hcall => (hkeeps b m₁ m₂ hcall).trans h₁) rfl (le_max_right fuel (2 * t.size))
  rw [← heq] at h
  exact Below.yields (tryLoop_below _ (le_max_left fuel (2 * t.size))) h

theorem yields_preorder_of {m : M} {a fuel : Nat} (hroot : t.root = some a)
    (ht : Linked (trees m) none t) (hnd : t.addrs.Nodup)
    (hkeeps : ∀ b m m', fn b m = some (m', REG_NOERROR) → trees m' = trees m)
    (h : Yields Q (t.preorder fn m)) : Yields Q (Visitor.preorder trees fn fuel m a) := by
  have heq := preorder_eq (P := fun m' => trees m' = trees m) hroot
    (fun m' hm' => hm' ▸ ht.framed) hnd
    (fun b _ m₁ m₂ h₁ hcall => (hkeeps b m₁ m₂ hcall).trans h₁) rfl (le_max_right fuel (3 * t.size))
  rw [← heq] at h
  exact Below.yields (tryLoop_below _ (le_max_left fuel (3 * t.size))) h

end Librecompat.RegTree
