/-
  `optimize_subexps` and `lower_subexps` in memory.

  Each puts the tree in the place of a node that `RegTree.Lowering` speaks of. As long as storage can
  be allocated, `lower_subexps` reports no error.
-/
import Librecompat.Regcomp.Analyze
import Librecompat.RegTree.Lowering

namespace Librecompat.Regcomp

open Librecompat.Lib Librecompat.RegTree
open Librecompat.Regex (RegErrcode REG_NOERROR REG_ESPACE)

variable {okTree : Nat → Bool} {nfa : Nfa} {par : Option Nat} {a : Nat} {token : Token} {l r : Tree}

/-! ## Changes of one node -/

theorem modify_spec {i : Nat} (h : i < nfa.trees.length) (f : BinTree → BinTree) :
    ∃ nfa', nfa.modify i f = some nfa' ∧ nfa'.trees.length = nfa.trees.length ∧
      nfa'.trees[i]? = nfa.trees[i]?.map f ∧ ∀ j, j ≠ i → nfa'.trees[j]? = nfa.trees[j]? := by
  obtain ⟨trees', hmod, hlen, hself, hother⟩ := modifyTree_spec h f
  have hmod' : modifyTree nfa.tree.trees i f = some trees' := hmod
  refine ⟨{ nfa with tree := { nfa.tree with trees := trees' } }, ?_, hlen, hself, hother⟩
  simp only [Nfa.modify, Dfa.modify, hmod', Option.bind_eq_bind, Option.bind_some]

/-- Another token in the root of a tree. -/
theorem modify_rewrites (ht : Linked nfa.trees par (.node a token l r))
    (hnd : (RegTree.Tree.node a token l r).addrs.Nodup) (f : Token → Token) :
    Yields (fun nfa' => Rewrites nfa.trees nfa'.trees par (.node a token l r) (.node a (f token) l r))
      (nfa.modify a fun tree => { tree with token := f tree.token }) := by
  obtain ⟨ha, hl, hr⟩ := ht
  have hout := (List.nodup_cons.mp hnd).1
  obtain ⟨nfa', hmod, hlen, hself, hother⟩ := modify_spec (List.getElem?_eq_some_iff.mp ha).1
    (fun tree : BinTree => { tree with token := f tree.token })
  rw [hmod]
  refine yields_some.mpr ⟨⟨by rw [hself, ha]; rfl, ?_, ?_⟩, hnd, fun _ hb => .inl hb, ?_, hlen.ge⟩
  · exact hl.congr fun b hb => hother b fun heq => hout (heq ▸ List.mem_append_left _ hb)
  · exact hr.congr fun b hb => hother b fun heq => hout (heq ▸ List.mem_append_right _ hb)
  · intro b _ hb
    refine hother b fun heq => hb ?_
    rw [heq]
    exact List.mem_cons_self

/-! ## optimize_subexps -/

/-- The inner group is taken away. -/
theorem stripSubexp_rewrites {b : Nat} {token' : Token} {x r' : Tree}
    (ht : Linked nfa.trees par (.node a token (.node b token' x r') r))
    (hnd : (RegTree.Tree.node a token (.node b token' x r') r).addrs.Nodup) {tree : BinTree} :
    Yields (fun nfa' => Rewrites nfa.trees nfa'.trees par (.node a token (.node b token' x r') r)
        (.node a token x r))
      (stripSubexp nfa a b tree ⟨some a, x.root, r'.root, token'⟩) := by
  obtain ⟨ha, ⟨hb, hx, hr'⟩, hr⟩ := ht
  simp only [Tree.addrs, List.nodup_cons, List.mem_append, List.mem_cons, not_or,
    List.nodup_append', List.cons_append] at hnd
  obtain ⟨⟨hab, ⟨hax, har'⟩, har⟩, ⟨⟨hbx, hbr'⟩, hbr⟩, ⟨hndx, hndr', hxr'⟩, hndr, hdisj⟩ := hnd
  have hxr : ∀ i ∈ x.addrs, i ∉ r.addrs := fun i hi hmem =>
    hdisj (List.mem_append_left _ hi) hmem
  obtain ⟨nfa₁, hmod, hlen, hself, hother⟩ := modify_spec (List.getElem?_eq_some_iff.mp ha).1
    (fun tree : BinTree => { tree with left := x.root })
  have hx₁ : Linked nfa₁.trees (some b) x := hx.congr fun i hi => hother i fun heq => hax (heq ▸ hi)
  obtain ⟨trees₂, hset, hx₂, hlen₂, hother₂⟩ := setParent_spec hx₁ hndx a
  have hroot : ∀ {i : Nat}, i ∉ x.addrs → x.root ≠ some i := fun hi heq => hi (Tree.root_mem heq)
  have ha₂ : trees₂[a]? = some ⟨par, x.root, r.root, token⟩ := by
    rw [hother₂ a (hroot hax), hself, ha]
    rfl
  have hr₂ : Linked trees₂ (some a) r := hr.congr fun i hi => by
    rw [hother₂ i (hroot fun hmem => hxr i hmem hi), hother i fun heq => har (heq ▸ hi)]
  have hkept : ∀ i, i ≠ a → i ∉ x.addrs → trees₂[i]? = nfa.trees[i]? := fun i hia hix => by
    rw [hother₂ i (hroot hix), hother i hia]
  have hrew : Rewrites nfa.trees trees₂ par (.node a token (.node b token' x r') r)
      (.node a token x r) := by
    refine ⟨⟨ha₂, hx₂, hr₂⟩, ?_, fun i hi => ?_, fun i _ hi => ?_, (hlen₂.trans hlen).ge⟩
    · simp only [Tree.addrs, List.nodup_cons, List.mem_append, not_or, List.nodup_append']
      exact ⟨⟨hax, har⟩, hndx, hndr, fun i hi hi' => hxr i hi hi'⟩
    · simp only [Tree.addrs, List.mem_cons, List.mem_append] at hi ⊢
      obtain rfl | hi | hi := hi
      · exact .inl (.inl rfl)
      · exact .inl (.inr (.inl (.inr (.inl hi))))
      · exact .inl (.inr (.inr hi))
    · simp only [Tree.addrs, List.mem_cons, List.mem_append, not_or] at hi
      exact hkept i hi.1 hi.2.1.2.1
  unfold stripSubexp
  dsimp only
  simp only [hmod, hset, Option.bind_eq_bind, Option.bind_some]
  refine yields_bind fun map _ => yields_bind fun outer _ => ?_
  split
  · exact yields_some.mpr hrew
  · exact yields_none

theorem optimizeSubexps_rewrites : PreVisits Nfa.trees optimizeSubexps Stripped := by
  intro nfa par a token l r ht hnd
  have hrefl : Rewrites nfa.trees nfa.trees par (.node a token l r) (.node a token l r) :=
    Rewrites.refl ht hnd
  have hkeep : ∃ token' l' r', Stripped (.node a token l r) (.node a token' l' r') ∧
      Rewrites nfa.trees nfa.trees par (.node a token l r) (.node a token' l' r') :=
    ⟨_, _, _, .keep _, hrefl⟩
  unfold optimizeSubexps
  simp only [ht.1, Option.bind_eq_bind, Option.bind_some]
  split
  · next htype _ =>
    refine yields_bind fun idx _ => ?_
    exact (modify_rewrites ht hnd fun token => { token with opr := idx }).bind fun nfa' _ hnfa' =>
      yields_some.mpr fun _ => ⟨_, l, r, .backRef a idx l r htype, hnfa'⟩
  · next htype =>
    cases l with
    | nil => exact yields_some.mpr fun _ => hkeep
    | node b token' x r' =>
      simp only [Tree.root_node, ht.2.1.1, Option.bind_some]
      split
      · next htype' =>
        exact (stripSubexp_rewrites ht hnd).bind fun nfa' _ hnfa' => yields_some.mpr fun _ =>
          ⟨_, x, r, .strip a b x r r' htype htype', hnfa'⟩
      · exact yields_some.mpr fun _ => hkeep
  · exact yields_some.mpr fun _ => hkeep

/-! ## New nodes -/

theorem create_leaf (hok : ∀ k, okTree k = true) (nfa : Nfa) (type : TokenType) :
    ∃ nfa', nfa.create okTree none none type = some (nfa', some nfa.trees.length) ∧
      nfa'.trees = nfa.trees ++ [⟨none, none, none, { type := type }⟩] := by
  obtain ⟨dfa', hcreate, htrees⟩ := createTokenTree_leaf hok nfa.tree { type := type }
  refine ⟨{ nfa with tree := dfa' }, ?_, htrees⟩
  have hcreate' : createTree okTree nfa.tree none none type =
    some (dfa', some nfa.tree.trees.length) := hcreate
  simp only [Nfa.create, hcreate', Option.bind_eq_bind, Option.bind_some]
  rfl

theorem create_join (hok : ∀ k, okTree k = true) {pl pr : Option Nat}
    (hl : Linked nfa.trees pl l) (hr : Linked nfa.trees pr r) (hnd : (l.addrs ++ r.addrs).Nodup)
    (type : TokenType) :
    ∃ nfa', nfa.create okTree l.root r.root type = some (nfa', some nfa.trees.length) ∧
      Linked nfa'.trees none (.node nfa.trees.length { type := type } l r) ∧
      nfa'.trees.length = nfa.trees.length + 1 ∧
      ∀ i < nfa.trees.length, l.root ≠ some i → r.root ≠ some i →
        nfa'.trees[i]? = nfa.trees[i]? := by
  obtain ⟨dfa', hcreate, hspec⟩ := createTree_spec hok hl hr hnd type
  refine ⟨{ nfa with tree := dfa' }, ?_, hspec⟩
  simp only [Nfa.create, hcreate, Option.bind_eq_bind, Option.bind_some]
  rfl

/-- Another token in the node at an address. -/
def tokenAt (i : Nat) (f : Token → Token) : Tree → Tree
  | .nil => .nil
  | .node a token l r =>
    .node a (if a = i then f token else token) (tokenAt i f l) (tokenAt i f r)

@[simp] theorem root_tokenAt (i : Nat) (f : Token → Token) (t : Tree) :
    (tokenAt i f t).root = t.root := by
  cases t <;> rfl

theorem tokenAt_of_notMem {i : Nat} (f : Token → Token) {t : Tree} (h : i ∉ t.addrs) :
    tokenAt i f t = t := by
  induction t with
  | nil => rfl
  | node a token l r ihl ihr =>
    simp only [Tree.addrs, List.mem_cons, List.mem_append, not_or] at h
    rw [tokenAt, if_neg (Ne.symm h.1), ihl h.2.1, ihr h.2.2]

theorem linked_tokenAt {trees trees' : List BinTree} {i : Nat} {f : Token → Token}
    (hself : trees'[i]? = trees[i]?.map fun node => { node with token := f node.token })
    (hother : ∀ j, j ≠ i → trees'[j]? = trees[j]?) :
    ∀ {t : Tree} {par : Option Nat}, Linked trees par t → Linked trees' par (tokenAt i f t)
  | .nil, _, _ => trivial
  | .node a token l r, par, ⟨ha, hl, hr⟩ => by
    refine ⟨?_, linked_tokenAt hself hother hl, linked_tokenAt hself hother hr⟩
    by_cases heq : a = i
    · rw [heq] at ha
      rw [heq, hself, ha, if_pos rfl]
      simp
    · rw [hother a heq, ha, if_neg heq]
      simp

/-! ## lower_subexps -/

/-- What `lower_subexp` leaves of a group. -/
def Lowered (nfa : Nfa) (t : Tree) (q : Nfa × Option Nat × RegErrcode) : Prop :=
  q.2.2 = REG_NOERROR ∧ ∃ par' t', Lowers t t' ∧ t'.root = q.2.1 ∧
    Rewrites nfa.trees q.1.trees par' t t'

/-- The parentheses get the number of the group. -/
theorem markBoth_spec {nfa : Nfa} {t : Tree} (ht : Linked nfa.trees par t) {o k : Nat}
    (ho : o < nfa.trees.length) (hk : k < nfa.trees.length) (f : Token → Token) :
    ∃ nfa₁ nfa₂, nfa.modify o (fun tree => { tree with token := f tree.token }) = some nfa₁ ∧
      nfa₁.modify k (fun tree => { tree with token := f tree.token }) = some nfa₂ ∧
      Linked nfa₂.trees par (tokenAt k f (tokenAt o f t)) ∧
      nfa₂.trees.length = nfa.trees.length ∧
      ∀ i, i ≠ o → i ≠ k → nfa₂.trees[i]? = nfa.trees[i]? := by
  obtain ⟨nfa₁, hmod₁, hlen₁, hself₁, hother₁⟩ := modify_spec ho
    (fun tree : BinTree => { tree with token := f tree.token })
  obtain ⟨nfa₂, hmod₂, hlen₂, hself₂, hother₂⟩ := modify_spec
    (hlen₁.symm ▸ hk : k < nfa₁.trees.length)
    (fun tree : BinTree => { tree with token := f tree.token })
  exact ⟨nfa₁, nfa₂, hmod₁, hmod₂, linked_tokenAt hself₂ hother₂ (linked_tokenAt hself₁ hother₁ ht),
    hlen₂.trans hlen₁, fun i hio hik => (hother₂ i hik).trans (hother₁ i hio)⟩

/-- The two parentheses, before they stand around anything. -/
structure Parens (nfa nfa' : Nfa) : Prop where
  op : Linked nfa'.trees none (.node nfa.trees.length { type := .opOpenSubexp } .nil .nil)
  cls : Linked nfa'.trees none (.node (nfa.trees.length + 1) { type := .opCloseSubexp } .nil .nil)
  length : nfa'.trees.length = nfa.trees.length + 2
  kept : ∀ i < nfa.trees.length, nfa'.trees[i]? = nfa.trees[i]?

theorem create_parens (hok : ∀ k, okTree k = true) (nfa : Nfa) :
    ∃ nfa₁ nfa₂, nfa.create okTree none none .opOpenSubexp = some (nfa₁, some nfa.trees.length) ∧
      nfa₁.create okTree none none .opCloseSubexp = some (nfa₂, some (nfa.trees.length + 1)) ∧
      Parens nfa nfa₂ := by
  obtain ⟨nfa₁, hop, htrees₁⟩ := create_leaf hok nfa .opOpenSubexp
  obtain ⟨nfa₂, hcls, htrees₂⟩ := create_leaf hok nfa₁ .opCloseSubexp
  have hlen₁ : nfa₁.trees.length = nfa.trees.length + 1 := by
    rw [htrees₁, List.length_append]
    rfl
  have hkept : ∀ i < nfa₁.trees.length, nfa₂.trees[i]? = nfa₁.trees[i]? := fun i hi => by
    rw [htrees₂, List.getElem?_append_left hi]
  rw [hlen₁] at hcls hkept
  refine ⟨nfa₁, nfa₂, hop, hcls, ⟨?_, trivial, trivial⟩, ⟨?_, trivial, trivial⟩, ?_, fun i hi => ?_⟩
  · rw [hkept _ (Nat.lt_succ_self _), htrees₁, List.getElem?_concat_length]
    rfl
  · rw [← hlen₁, htrees₂, List.getElem?_concat_length]
    rfl
  · rw [htrees₂, List.length_append, hlen₁]
    rfl
  · rw [hkept i (Nat.lt_succ_of_lt hi), htrees₁, List.getElem?_append_left hi]

/-- A parenthesis of the group `token`. -/
def numbered (token token' : Token) : Token :=
  { token' with opr := token.opr, optSubexp := token.optSubexp }

/-- The parentheses become a tree with what stands at `tree1`, and the tree takes the place of the
    group `t`. -/
def Encloses (okTree : Nat → Bool) (nfa nfa' : Nfa) (tree1 : Nat) (token : Token) (t : Tree) : Prop :=
  ∃ nfa₁ nfa₂ nfa₃ new t',
    nfa'.create okTree (some nfa.trees.length) (some tree1) .concat = some (nfa₁, some new) ∧
    nfa₁.modify nfa.trees.length (fun tree => { tree with token := numbered token tree.token }) =
      some nfa₂ ∧
    nfa₂.modify (nfa.trees.length + 1) (fun tree => { tree with token := numbered token tree.token }) =
      some nfa₃ ∧
    Lowers t t' ∧ t'.root = some new ∧ Rewrites nfa.trees nfa₃.trees none t t'

/-- Without an operand they stand side by side. -/
theorem Parens.encloses_nil (hok : ∀ k, okTree k = true) {nfa' : Nfa} (h : Parens nfa nfa')
    (htype : token.type = .subexp) :
    Encloses okTree nfa nfa' (nfa.trees.length + 1) token (.node a token .nil r) := by
  have hlength := h.length
  obtain ⟨nfa₁, hnew, hnew₁, hlen₁, hkept₁⟩ :=
    create_join hok h.op h.cls (by simp [Tree.addrs]) .concat
  obtain ⟨nfa₂, nfa₃, hmod₂, hmod₃, hlinked, hlen₃, hkept₃⟩ := markBoth_spec hnew₁
    (o := nfa.trees.length) (k := nfa.trees.length + 1) (by omega) (by omega) (numbered token)
  have ho : nfa'.trees.length ≠ nfa.trees.length := by omega
  have hk : nfa'.trees.length ≠ nfa.trees.length + 1 := by omega
  simp only [tokenAt, if_neg ho, if_neg hk, if_neg (Nat.succ_ne_self _),
    if_neg (Nat.succ_ne_self _).symm, if_pos] at hlinked
  refine ⟨nfa₁, nfa₂, nfa₃, _, _, hnew, hmod₂, hmod₃, .empty a r htype _ _ _ rfl rfl, rfl, hlinked,
    ?_, fun b hb => ?_, fun b hb _ => ?_, by omega⟩
  · simp [Tree.addrs, ho, hk]
  · simp only [Tree.addrs, List.append_nil, List.mem_cons, List.mem_append, List.not_mem_nil,
      or_false] at hb
    omega
  · rw [hkept₃ b (by omega) (by omega), hkept₁ b (by omega) (by simp; omega) (by simp; omega),
      h.kept b hb]

/-- An operand is first joined with the one behind it. -/
theorem Parens.encloses_tree (hok : ∀ k, okTree k = true) {nfa' : Nfa} (h : Parens nfa nfa')
    (htype : token.type = .subexp) {x : Tree} {par' : Option Nat} (hx : Linked nfa.trees par' x)
    (hnd : x.addrs.Nodup) (hne : x ≠ .nil) :
    ∃ nfa₁, nfa'.create okTree x.root (some (nfa.trees.length + 1)) .concat =
        some (nfa₁, some nfa'.trees.length) ∧
      Encloses okTree nfa nfa₁ nfa'.trees.length token (.node a token x r) := by
  have hlength := h.length
  -- the new nodes are none of the operand's
  have hout : ∀ i, nfa.trees.length ≤ i → i ∉ x.addrs := fun i hi hmem =>
    absurd (hx.lt i hmem) (by omega)
  have hx' := hx.congr fun i hi => h.kept i (hx.lt i hi)
  obtain ⟨nfa₁, hjoin, hjoin₁, hlen₁, hkept₁⟩ := create_join hok hx' h.cls
    (List.nodup_append'.mpr ⟨hnd, List.nodup_singleton _, fun i hi hmem =>
      hout i (by rw [List.mem_singleton.mp hmem]; omega) hi⟩) .concat
  have hop₁ : Linked nfa₁.trees none
      (.node nfa.trees.length { type := .opOpenSubexp } .nil .nil) := by
    refine h.op.congr fun i hi => ?_
    obtain rfl := List.mem_singleton.mp hi
    refine hkept₁ _ (by omega) (fun heq => hout _ le_rfl (Tree.root_mem heq)) ?_
    simp
  have hnd₁ : ((RegTree.Tree.node nfa.trees.length { type := .opOpenSubexp } .nil .nil).addrs ++
      (RegTree.Tree.node nfa'.trees.length { type := .concat } x
        (.node (nfa.trees.length + 1) { type := .opCloseSubexp } .nil .nil)).addrs).Nodup := by
    simp only [Tree.addrs, List.append_nil, List.nil_append, List.cons_append, List.nodup_cons,
      List.mem_cons, List.mem_append, List.not_mem_nil, or_false, not_or, List.nodup_append']
    refine ⟨⟨by omega, hout _ le_rfl, by omega⟩, ⟨hout _ (by omega), by omega⟩, hnd,
      ⟨not_false, List.nodup_nil⟩, fun i hi hmem => hout i ?_ hi⟩
    rw [List.mem_singleton.mp hmem]
    omega
  obtain ⟨nfa₂, hnew, hnew₂, hlen₂, hkept₂⟩ := create_join hok hop₁ hjoin₁ hnd₁ .concat
  obtain ⟨nfa₃, nfa₄, hmod₃, hmod₄, hlinked, hlen₄, hkept₄⟩ := markBoth_spec hnew₂
    (o := nfa.trees.length) (k := nfa.trees.length + 1) (by omega) (by omega) (numbered token)
  have hd : nfa'.trees.length ≠ nfa.trees.length ∧ nfa'.trees.length ≠ nfa.trees.length + 1 := by
    omega
  have hb : nfa₁.trees.length ≠ nfa.trees.length ∧ nfa₁.trees.length ≠ nfa.trees.length + 1 := by
    omega
  simp only [tokenAt, if_neg hd.1, if_neg hd.2, if_neg hb.1, if_neg hb.2,
    if_neg (Nat.succ_ne_self _), if_neg (Nat.succ_ne_self _).symm, if_pos,
    tokenAt_of_notMem (numbered token) (hout _ le_rfl),
    tokenAt_of_notMem (numbered token) (hout (nfa.trees.length + 1) (by omega))] at hlinked
  refine ⟨nfa₁, hjoin, nfa₂, nfa₃, nfa₄, _, _, hnew, hmod₃, hmod₄,
    .group a r htype hne _ _ _ _ rfl rfl, rfl, hlinked, List.nodup_cons.mpr ⟨?_, hnd₁⟩,
    fun b hb => ?_, fun b hb hmem => ?_, by omega⟩
  · simp only [Tree.addrs, List.append_nil, List.nil_append, List.cons_append,
      List.mem_cons, List.mem_append, List.not_mem_nil, or_false, not_or]
    exact ⟨hb.1, by omega, hout _ (by omega), hb.2⟩
  · simp only [Tree.addrs, List.append_nil, List.nil_append, List.cons_append,
      List.mem_cons, List.mem_append, List.not_mem_nil, or_false] at hb ⊢
    obtain rfl | rfl | rfl | hb | rfl := hb
    · exact .inr (by omega)
    · exact .inr le_rfl
    · exact .inr (by omega)
    · exact .inl (.inr (.inl hb))
    · exact .inr (by omega)
  · have hbx : x.root ≠ some b := fun heq =>
      hmem (List.mem_cons_of_mem _ (List.mem_append_left _ (Tree.root_mem heq)))
    rw [hkept₄ b (by omega) (by omega), hkept₂ b (by omega) (by simp; omega) (by simp; omega),
      hkept₁ b (by omega) hbx (by simp; omega), h.kept b hb]

/-- In the place of the group there is its operand, or two parentheses around it. -/
theorem lowerSubexp_spec (hok : ∀ k, okTree k = true) {x : Tree} (htype : token.type = .subexp)
    (ht : Linked nfa.trees par (.node a token x r)) (hnd : (RegTree.Tree.node a token x r).addrs.Nodup) :
    ∃ q, lowerSubexp okTree nfa a = some q ∧ Lowered nfa (.node a token x r) q := by
  obtain ⟨ha, hx, hr⟩ := ht
  simp only [Tree.addrs, List.nodup_cons, List.mem_append, not_or, List.nodup_append'] at hnd
  unfold lowerSubexp
  simp only [ha, Option.bind_eq_bind, Option.bind_some]
  split
  · next hstrip =>
    simp only [Bool.and_eq_true] at hstrip
    have hne : x ≠ .nil := by
      rintro rfl
      simp at hstrip
    refine ⟨_, rfl, rfl, some a, x, .strip a r htype hne, rfl, hx, hnd.2.1, fun b hb => ?_,
      fun _ _ _ => rfl, Nat.le_refl _⟩
    exact .inl (List.mem_cons_of_mem _ (List.mem_append_left _ hb))
  · obtain ⟨nfa₁, nfa₂, hop, hcls, hparens⟩ := create_parens hok nfa
    simp only [hop, hcls, Option.bind_some]
    by_cases hne : x = .nil
    · subst hne
      obtain ⟨nfa₃, nfa₄, nfa₅, new, t', hnew, hmod₄, hmod₅, hlowers, hroot, hrew⟩ :=
        hparens.encloses_nil (a := a) (r := r) hok htype
      simp only [numbered] at hmod₄ hmod₅
      simp only [Tree.root_nil, Option.isSome_none, Bool.false_eq_true, if_false, Option.bind_some,
        hnew, hmod₄, hmod₅]
      exact ⟨_, rfl, rfl, none, t', hlowers, hroot, hrew⟩
    · have hsome : x.root.isSome = true := Option.isSome_iff_ne_none.mpr (mt Tree.root_eq_none.mp hne)
      obtain ⟨nfa₃, hjoin, nfa₄, nfa₅, nfa₆, new, t', hnew, hmod₅, hmod₆, hlowers, hroot, hrew⟩ :=
        hparens.encloses_tree (a := a) (r := r) hok htype hx hnd.2.1 hne
      simp only [numbered] at hmod₅ hmod₆
      simp only [hsome, if_true, Option.bind_some, hjoin, hnew, hmod₅, hmod₆]
      exact ⟨_, rfl, rfl, none, t', hlowers, hroot, hrew⟩

/-- A tree is put in the place of a child. -/
theorem putChild_spec {before : List BinTree} {par' : Option Nat} {cell : BinTree} {s s' : Tree}
    (hs : Rewrites before nfa.trees par' s s') (ha : before[a]? = some cell) (hout : a ∉ s.addrs)
    (put : BinTree → BinTree) :
    ∃ nfa' trees', nfa.modify a put = some nfa' ∧ setParent nfa'.trees a s'.root = some trees' ∧
      trees'[a]? = some (put cell) ∧ Linked trees' (some a) s' ∧
      trees'.length = nfa.trees.length ∧
      ∀ b < before.length, b ≠ a → b ∉ s.addrs → trees'[b]? = before[b]? := by
  have halt : a < before.length := (List.getElem?_eq_some_iff.mp ha).1
  have hnew : ∀ b < before.length, b ∉ s.addrs → s'.root ≠ some b := fun b hb hbs heq =>
    (hs.addrs b (Tree.root_mem heq)).elim hbs (Nat.not_le.mpr hb)
  have hout' : a ∉ s'.addrs := fun hmem =>
    (hs.addrs a hmem).elim hout (Nat.not_le.mpr halt)
  obtain ⟨nfa', hmod, hlen, hself, hother⟩ := modify_spec (halt.trans_le hs.length_le) put
  have hlinked : Linked nfa'.trees par' s' := hs.linked.congr fun i hi =>
    hother i fun heq => hout' (heq ▸ hi)
  obtain ⟨trees', hset, hlinked', hlen', hother'⟩ := setParent_spec hlinked hs.nodup a
  refine ⟨nfa', trees', hmod, hset, ?_, hlinked', hlen'.trans hlen, fun b hb hba hbs => ?_⟩
  · rw [hother' a (hnew a halt hout), hself, hs.kept a halt hout, ha]
    rfl
  · rw [hother' b (hnew b hb hbs), hother b hba, hs.kept b hb hbs]

/-- The left child is lowered. -/
theorem lowerLeft_spec (hok : ∀ k, okTree k = true)
    (ht : Linked nfa.trees par (.node a token l r)) (hnd : (RegTree.Tree.node a token l r).addrs.Nodup) :
    ∃ nfa' l', lowerChild okTree (fun tree new => { tree with left := new }) a l.root nfa
        REG_NOERROR = some (nfa', REG_NOERROR) ∧ Lowers l l' ∧
      Rewrites nfa.trees nfa'.trees par (.node a token l r) (.node a token l' r) := by
  have hal : a ∉ l.addrs := fun hmem => (List.nodup_cons.mp hnd).1 (List.mem_append_left _ hmem)
  cases l with
  | nil => exact ⟨nfa, .nil, rfl, .nil, Rewrites.refl ht hnd⟩
  | node b token' x r' =>
    unfold lowerChild
    simp only [Tree.root_node, ht.2.1.1, Option.bind_eq_bind, Option.bind_some]
    by_cases htype : token'.type = .subexp
    · obtain ⟨⟨nfa₁, new, err⟩, hlower, rfl, par', l', hlowers, rfl, hrew⟩ := lowerSubexp_spec hok
        htype ht.2.1 (List.nodup_append'.mp (List.nodup_cons.mp hnd).2).1
      obtain ⟨nfa₂, trees', hmod, hset, ha', hl', hlen, hkept⟩ :=
        putChild_spec hrew ht.1 hal fun tree => { tree with left := l'.root }
      simp only [if_pos htype, hlower, hmod, hset, Option.bind_some, ne_eq, not_true_eq_false,
        if_false]
      exact ⟨_, l', rfl, hlowers, rewrites_left ht hnd ha' hl' hrew.nodup hrew.addrs hkept
        (hrew.length_le.trans hlen.ge)⟩
    · rw [if_neg htype]
      exact ⟨nfa, _, rfl, .keep b x r' htype, Rewrites.refl ht hnd⟩

/-- The right child is lowered. -/
theorem lowerRight_spec (hok : ∀ k, okTree k = true)
    (ht : Linked nfa.trees par (.node a token l r)) (hnd : (RegTree.Tree.node a token l r).addrs.Nodup) :
    ∃ nfa' r', lowerChild okTree (fun tree new => { tree with right := new }) a r.root nfa
        REG_NOERROR = some (nfa', REG_NOERROR) ∧ Lowers r r' ∧
      Rewrites nfa.trees nfa'.trees par (.node a token l r) (.node a token l r') := by
  have har : a ∉ r.addrs := fun hmem => (List.nodup_cons.mp hnd).1 (List.mem_append_right _ hmem)
  cases r with
  | nil => exact ⟨nfa, .nil, rfl, .nil, Rewrites.refl ht hnd⟩
  | node b token' x r' =>
    unfold lowerChild
    simp only [Tree.root_node, ht.2.2.1, Option.bind_eq_bind, Option.bind_some]
    by_cases htype : token'.type = .subexp
    · obtain ⟨⟨nfa₁, new, err⟩, hlower, rfl, par', r₁, hlowers, rfl, hrew⟩ := lowerSubexp_spec hok
        htype ht.2.2 (List.nodup_append'.mp (List.nodup_cons.mp hnd).2).2.1
      obtain ⟨nfa₂, trees', hmod, hset, ha', hr', hlen, hkept⟩ :=
        putChild_spec hrew ht.1 har fun tree => { tree with right := r₁.root }
      simp only [if_pos htype, hlower, hmod, hset, Option.bind_some, ne_eq, not_true_eq_false,
        if_false]
      exact ⟨_, r₁, rfl, hlowers, rewrites_right ht hnd ha' hr' hrew.nodup hrew.addrs hkept
        (hrew.length_le.trans hlen.ge)⟩
    · rw [if_neg htype]
      exact ⟨nfa, _, rfl, .keep b x r' htype, Rewrites.refl ht hnd⟩

/-- Of a node both children are lowered. -/
theorem lowerSubexps_spec (hok : ∀ k, okTree k = true)
    (ht : Linked nfa.trees par (.node a token l r)) (hnd : (RegTree.Tree.node a token l r).addrs.Nodup) :
    ∃ nfa' l' r', lowerSubexps okTree a nfa = some (nfa', REG_NOERROR) ∧ Lowers l l' ∧
      Lowers r r' ∧ Rewrites nfa.trees nfa'.trees par (.node a token l r) (.node a token l' r') := by
  obtain ⟨nfa₁, l', hleft, hl', hrew⟩ := lowerLeft_spec hok ht hnd
  obtain ⟨nfa₂, r', hright, hr', hrew'⟩ := lowerRight_spec hok hrew.linked hrew.nodup
  refine ⟨nfa₂, l', r', ?_, hl', hr', hrew.trans hrew'⟩
  unfold lowerSubexps
  simp only [ht.1, hleft, Option.bind_eq_bind, Option.bind_some]
  exact hright

theorem lowerSubexps_rewrites (hok : ∀ k, okTree k = true) :
    PostVisits Nfa.trees (lowerSubexps okTree) Lowers := by
  intro nfa par a token l r ht hnd
  obtain ⟨nfa', l', r', hlower, hl', hr', hrew⟩ := lowerSubexps_spec hok ht hnd
  rw [hlower]
  exact yields_some.mpr fun _ => ⟨l', r', hl', hr', hrew⟩

end Librecompat.Regcomp
