/-
  The automaton of a pattern accepts the language of its tree.

  A pattern is simple if it has no anchors and no back references. No node has a constraint then, and
  nothing is duplicated. So between a node and the one behind it the automaton reads the language of
  the tree (`Reads.spells`), by induction on the tree.
-/
import Librecompat.Lib.Fragments
import Librecompat.Regcomp.Built
import Librecompat.Regcomp.Plain
import Librecompat.Regexec.Automaton

namespace Librecompat.Regexec

open Librecompat.Lib Librecompat.NodeSet Librecompat.Regcomp
open Librecompat.RegTree (Tree Rooted Simplifies)
open Librecompat.Grouping (NEWLINE_CHAR)
open Librecompat.Regex (RegErrcode REG_NOERROR SBC_MAX TokenType bitsetContain)
open scoped Computability

/-! ## Simple patterns -/

/-- The types of the nodes of a simple pattern. -/
def Simple (type : RegTree.TokenType) : Prop :=
  type = .character ∨ type = .simpleBracket ∨ type = .opPeriod ∨ type = .concat ∨ type = .opAlt ∨
    type = .opDupAsterisk ∨ type = .subexp ∨ type = .opOpenSubexp ∨ type = .opCloseSubexp

instance (type : RegTree.TokenType) : Decidable (Simple type) :=
  inferInstanceAs (Decidable (_ ∨ _))

variable (loc : Regcomp.Locale) (syn : RegSyntax)

/-- The characters of a leaf. -/
def leafChars (type : RegTree.TokenType) (opr : Nat) : Set UInt8 :=
  match type with
  | .character => {UInt8.ofNat opr}
  | .simpleBracket => {ch | bitsetContain (BitVec.ofNat SBC_MAX opr) ch.toNat = true}
  | .opPeriod => {ch | (syn.has RE_DOT_NEWLINE = false → ch.toNat ≠ NEWLINE_CHAR) ∧
      (syn.has RE_DOT_NOT_NULL = true → ch ≠ 0)}
  | _ => ∅

/-- The language of a leaf; a parenthesis stands for the empty string. -/
def leafLanguage (type : RegTree.TokenType) (opr : Nat) : Language UInt8 :=
  if type = .opOpenSubexp ∨ type = .opCloseSubexp then 1
  else letters (leafChars syn type opr)

/-! ## The moves of the automaton -/

variable (c : Compiled)

/-- The graph of the nodes: to take a character leads to the node behind. -/
def moves : Moves Nat UInt8 where
  empty p q := Eclosure.Edge c.nfa.graph p q
  letter p ch q := takes loc syn c p ch = true ∧ getAt c.nfa.nexts p = some (q : Int)
  final p := isEnd (regexNodes c) p = true

variable {loc syn c} {T : Tree}

/-- The number of a node of the tree. -/
def num (nfa : Nfa) (a : Nat) : Nat := (nfa.nodeIdx a).toNat

/-- What `regexec.c` reads of the automaton that `analyze` has built. -/
structure Reads (c : Compiled) (nfa : Nfa) (T : Tree) : Prop where
  built : Built nfa T
  nodes : c.nfa.graph.nodes = nfa.graph.nodes
  edests : c.nfa.graph.edests = nfa.graph.edests
  oprs : c.nfa.oprs = nfa.oprs
  nexts : c.nfa.nexts = nfa.nexts

variable {nfa : Nfa}

theorem Reads.index (h : Reads c nfa T) {p : Nat × RegTree.Token} (hp : p ∈ emits T) :
    nfa.nodeIdx p.1 = (num nfa p.1 : Int) ∧
      c.nfa.graph.nodes[num nfa p.1]? = some (tokenNode p.2) ∧
      c.nfa.oprs[num nfa p.1]? = some p.2.opr := by
  obtain ⟨k, hk, rfl⟩ := List.getElem_of_mem hp
  have hget := List.getElem?_eq_getElem hk
  have hidx := h.built.nodeIdx k _ hget
  have hnum : num nfa (emits T)[k].1 = k := by
    rw [num, hidx]
    exact Int.toNat_natCast k
  refine ⟨by rw [hnum, hidx], ?_, ?_⟩
  · rw [hnum, h.nodes, h.built.nodes, List.getElem?_map, hget]
    rfl
  · rw [hnum, h.oprs, h.built.oprs, List.getElem?_map, hget]
    rfl

theorem Reads.edge (h : Reads c nfa T) {p : Nat × RegTree.Token} (hp : p ∈ emits T) {l r : Tree}
    {k : Option Nat} (harc : Arc nfa p.1 p.2 l r k) (j : Nat) :
    (moves loc syn c).empty (num nfa p.1) j ↔ (tokenNode p.2).type.isEpsilonNode = true ∧
      ∃ d ∈ dests p.2 l r k, d.map nfa.nodeIdx = some (j : Int) := by
  obtain ⟨hidx, hnode, -⟩ := h.index hp
  obtain ⟨⟨set, xs, hset, hxs, hmem⟩, -⟩ := harc
  rw [hidx] at hset
  constructor
  · rintro ⟨token, set', htoken, heps, hset', hj⟩
    rw [getAt_natCast, hnode] at htoken
    obtain rfl := Option.some.inj htoken
    rw [h.edests, hset] at hset'
    obtain rfl := Option.some.inj hset'
    rw [hxs.members] at hj
    exact ⟨heps, (hmem j).mp hj⟩
  · rintro ⟨heps, hdest⟩
    refine ⟨_, set, by rw [getAt_natCast, hnode], heps, by rw [h.edests, hset], ?_⟩
    rw [hxs.members]
    exact (hmem j).mpr hdest

theorem isEnd_iff (h : Reads c nfa T) {p : Nat × RegTree.Token} (hp : p ∈ emits T) :
    isEnd (regexNodes c) (num nfa p.1) = true ↔ (tokenNode p.2).type = .endOfRe := by
  rw [isEnd, regexNodes, List.getElem?_map, (h.index hp).2.1]
  simp

/-- A node of the tree, as `group_nodes_into_DFAstates` reads it. -/
theorem takes_iff (h : Reads c nfa T) {p : Nat × RegTree.Token} (hp : p ∈ emits T) (ch : UInt8) :
    takes loc syn c (num nfa p.1) ch =
      (groupingToken loc (tokenNode p.2) p.2.opr).accepts (c.dfa loc syn) ch.toFin := by
  rw [takes, Compiled.dfa, List.getElem?_zipWith, (h.index hp).2.1, (h.index hp).2.2]
  rfl

variable (loc syn) in
theorem takes_eq_false (h : Reads c nfa T) {p : Nat × RegTree.Token} (hp : p ∈ emits T)
    (htype : takesChar (tokenNode p.2).type = false) (ch : UInt8) :
    takes loc syn c (num nfa p.1) ch = false := by
  rw [takes_iff h hp, Bool.eq_false_iff]
  intro haccepts
  have := takesChar_of_accepts haccepts
  rw [groupingToken, htype] at this
  cases this

variable (loc syn) in
/-- A node with empty moves. -/
theorem Reads.branches (h : Reads c nfa T) {p : Nat × RegTree.Token} (hp : p ∈ emits T) {l r : Tree}
    {k : Option Nat} (harc : Arc nfa p.1 p.2 l r k)
    (heps : (tokenNode p.2).type.isEpsilonNode = true) :
    (moves loc syn c).Branches (num nfa p.1)
      {j | ∃ d ∈ dests p.2 l r k, d.map nfa.nodeIdx = some (j : Int)} := by
  refine ⟨fun j => ?_, fun ch j hmove => ?_, fun hfinal => ?_⟩
  · rw [h.edge hp harc]
    exact and_iff_right heps
  · have htype : takesChar (tokenNode p.2).type = false := by
      revert heps
      cases (tokenNode p.2).type <;> simp [TokenType.isEpsilonNode, takesChar]
    have hno := takes_eq_false loc syn h hp htype ch
    rw [hmove.1] at hno
    cases hno
  · have hend := (isEnd_iff h hp).mp hfinal
    rw [hend] at heps
    cases heps

/-- The tokens that take a character. -/
def charType (type : RegTree.TokenType) : Prop :=
  type = .character ∨ type = .simpleBracket ∨ type = .opPeriod

theorem takes_charType (h : Reads c nfa T) {p : Nat × RegTree.Token} (hp : p ∈ emits T)
    (htype : charType p.2.type) (ch : UInt8) :
    takes loc syn c (num nfa p.1) ch = true ↔ ch ∈ leafChars syn p.2.type p.2.opr := by
  have hfree : ∀ {node : Grouping.Token}, node.constraint = 0 →
      node.inContext (c.dfa loc syn) ch.toFin = true := by
    intro node hzero
    simp [Grouping.Token.inContext, hzero]
  have hne : p.2.type ≠ .anchor := by
    rintro heq
    simp [charType, heq] at htype
  rw [takes_iff h hp, Grouping.Token.accepts, hfree (by simp [groupingToken, tokenNode, hne]),
    Bool.and_true]
  obtain htype | htype | htype := htype
  · have heq : ch.toFin = (UInt8.ofNat p.2.opr).toFin ↔ ch = UInt8.ofNat p.2.opr :=
      UInt8.toFin_inj
    simpa [Grouping.Token.has, groupingToken, tokenNode, htype, nodeType, leafChars] using heq
  · simp [Grouping.Token.has, groupingToken, tokenNode, htype, nodeType, leafChars]
  · have hzero : ch.toNat = 0 ↔ ch = 0 := ⟨fun h => UInt8.toNat_inj.mp h, fun h => h ▸ rfl⟩
    simp only [Grouping.Token.has, groupingToken, tokenNode, htype, nodeType, leafChars,
      Option.getD_some, Grouping.dotHas, Compiled.dfa, Set.mem_ofPred_eq]
    cases syn.has RE_DOT_NEWLINE
    · cases syn.has RE_DOT_NOT_NULL <;> simp [hzero]
    · cases syn.has RE_DOT_NOT_NULL <;> simp [hzero]

/-- A node that takes a character. -/
theorem Reads.letters (h : Reads c nfa T) {p : Nat × RegTree.Token} (hp : p ∈ emits T) {l r : Tree}
    {k : Nat} (harc : Arc nfa p.1 p.2 l r (some k)) (htype : charType p.2.type) {token : RegTree.Token}
    (hk : (k, token) ∈ emits T) :
    (moves loc syn c).Fragment (num nfa p.1) (letters (leafChars syn p.2.type p.2.opr))
      (num nfa k) := by
  have hnode : (tokenNode p.2).type.isEpsilonNode = false ∧ (tokenNode p.2).type ≠ .endOfRe := by
    obtain htype | htype | htype := htype
    all_goals simp [tokenNode, htype, nodeType, TokenType.isEpsilonNode]
  have hnext : getAt c.nfa.nexts (num nfa p.1) = some (num nfa k : Int) := by
    have hfollow : some k ∈ follow p.2 (some k) := by
      obtain htype | htype | htype := htype
      all_goals simp [follow, htype]
    obtain ⟨next, hmap, hget⟩ := harc.next (some k) hfollow
    obtain rfl := Option.some.inj hmap
    rw [← (h.index hp).1, h.nexts, hget, (h.index hk).1]
  refine Moves.fragment_letter (fun j hmove => ?_) (fun ch j => ?_) fun hfinal => ?_
  · have heps := ((h.edge hp harc j).mp hmove).1
    rw [hnode.1] at heps
    cases heps
  · change (takes loc syn c (num nfa p.1) ch = true ∧ _) ↔ _
    rw [takes_charType h hp htype, hnext]
    simp [eq_comm]
  · exact hnode.2 ((isEnd_iff h hp).mp hfinal)

/-! ## The fragment of a tree -/

theorem setOf_single {nodeIdx : Nat → Int} {x i : Nat} (hx : nodeIdx x = (i : Int)) :
    {j : Nat | ∃ d ∈ [some x], d.map nodeIdx = some (j : Int)} = {i} := by
  ext j
  simp [hx, eq_comm]

theorem setOf_pair {nodeIdx : Nat → Int} {x y i i' : Nat} (hx : nodeIdx x = (i : Int))
    (hy : nodeIdx y = (i' : Int)) :
    {j : Nat | ∃ d ∈ [some x, some y], d.map nodeIdx = some (j : Int)} = {i, i'} := by
  ext j
  simp [hx, hy, eq_comm]

theorem mem_emits_left {a : Nat} {token : RegTree.Token} {l r : Tree} {p : Nat × RegTree.Token}
    (h : p ∈ emits l) : p ∈ emits (.node a token l r) :=
  List.mem_append_left _ (List.mem_append_left _ h)

theorem mem_emits_right {a : Nat} {token : RegTree.Token} {l r : Tree} {p : Nat × RegTree.Token}
    (h : p ∈ emits r) : p ∈ emits (.node a token l r) :=
  List.mem_append_left _ (List.mem_append_right _ h)

theorem mem_emits_self {a : Nat} {token : RegTree.Token} {l r : Tree}
    (hne : token.type ≠ .concat) : (a, token) ∈ emits (.node a token l r) :=
  List.mem_append_right _ (by rw [if_neg hne]; exact List.mem_cons_self)

theorem branch_of_ne_concat {a b : Nat} {token : RegTree.Token} {l r : Tree} {k : Option Nat}
    (hne : token.type ≠ .concat) (hb : branch (.node a token l r) k = some b) : a = b := by
  change firstNode (.node a token l r) = some b at hb
  rw [firstNode, if_neg hne] at hb
  exact Option.some.inj hb

variable (loc syn c) in
/-- Between where the tree is entered and the node behind it, its language is read. -/
def Spells (nfa : Nfa) (T t : Tree) : Prop :=
  ∀ (k b : Nat) (token : RegTree.Token), Arcs nfa t (some k) → (k, token) ∈ emits T →
    branch t (some k) = some b →
    (moves loc syn c).Fragment (num nfa b) (t.language (leafLanguage syn)) (num nfa k)

/-- Where the tree is entered there is a node of the automaton. -/
theorem Reads.index_branch (h : Reads c nfa T) {t : Tree} (hfit : t.Fitted)
    (hsub : ∀ p ∈ emits t, p ∈ emits T) {k b : Nat} {token : RegTree.Token}
    (hk : (k, token) ∈ emits T) (hb : branch t (some k) = some b) :
    nfa.nodeIdx b = (num nfa b : Int) := by
  obtain ⟨b', hb', rfl | ⟨token', hmem⟩⟩ := branch_emits hfit k
  · obtain rfl := Option.some.inj (hb.symm.trans hb')
    exact (h.index hk).1
  · obtain rfl := Option.some.inj (hb.symm.trans hb')
    exact (h.index (hsub _ hmem)).1

section nodes

variable {a : Nat} {token : RegTree.Token} {l r : Tree}

/-- The first child leads to the second one. -/
theorem spells_concat (htype : token.type = .concat)
    (hfit : (RegTree.Tree.node a token l r).Fitted)
    (hsub : ∀ p ∈ emits (.node a token l r), p ∈ emits T) (hl : Spells loc syn c nfa T l)
    (hr : Spells loc syn c nfa T r) : Spells loc syn c nfa T (.node a token l r) := by
  intro k b token' ⟨harc, hal, har⟩ hk hb
  unfold Tree.Fitted at hfit
  simp only [htype] at hfit
  obtain ⟨⟨hnel, hner⟩, hfitl, hfitr⟩ := hfit
  change firstNode (.node a token l r) = some b at hb
  rw [firstNode, if_pos htype] at hb
  obtain ⟨y, token₁, hy, hmem⟩ := firstNode_emits hfitr hner
  have hal' : Arcs nfa l (some y) := by
    rw [leftNext] at hal
    simpa only [htype, hy] using hal
  unfold Tree.language
  rw [htype]
  exact (hl y b token₁ hal' (hsub _ (mem_emits_right hmem)) (by rw [branch_of_ne hnel, hb])).concat
    (hr k y token' har hk (by rw [branch_of_ne hner, hy]))

/-- The node leads to both children, and both lead behind it. -/
theorem Reads.spells_alternation (h : Reads c nfa T) (htype : token.type = .opAlt)
    (hfit : (RegTree.Tree.node a token l r).Fitted)
    (hsub : ∀ p ∈ emits (.node a token l r), p ∈ emits T) (hl : Spells loc syn c nfa T l)
    (hr : Spells loc syn c nfa T r) : Spells loc syn c nfa T (.node a token l r) := by
  intro k b token' ⟨harc, hal, har⟩ hk hb
  unfold Tree.Fitted at hfit
  simp only [htype] at hfit
  obtain ⟨hfitl, hfitr⟩ := hfit
  have hne : token.type ≠ .concat := by simp [htype]
  obtain rfl := branch_of_ne_concat hne hb
  obtain ⟨x, hx, -⟩ := branch_emits hfitl k
  obtain ⟨y, hy, -⟩ := branch_emits hfitr k
  have hal' : Arcs nfa l (some k) := by
    rw [leftNext] at hal
    simpa only [htype] using hal
  have hx' := h.index_branch hfitl (fun p hp => hsub p (mem_emits_left hp)) hk hx
  have hy' := h.index_branch hfitr (fun p hp => hsub p (mem_emits_right hp)) hk hy
  have hbranches := h.branches loc syn (hsub _ (mem_emits_self hne)) (harc hne)
    (by simp [tokenNode, htype, nodeType, TokenType.isEpsilonNode])
  rw [dests] at hbranches
  simp only [htype, hx, hy, setOf_pair hx' hy'] at hbranches
  unfold Tree.language
  rw [htype]
  exact hbranches.alternation (hl k x token' hal' hk hx) (hr k y token' har hk hy)

/-- The node leads to its child and behind it, and the child leads back. -/
theorem Reads.spells_star (h : Reads c nfa T) (htype : token.type = .opDupAsterisk)
    (hfit : (RegTree.Tree.node a token l r).Fitted)
    (hsub : ∀ p ∈ emits (.node a token l r), p ∈ emits T) (hl : Spells loc syn c nfa T l) :
    Spells loc syn c nfa T (.node a token l r) := by
  intro k b token' ⟨harc, hal, har⟩ hk hb
  unfold Tree.Fitted at hfit
  simp only [htype] at hfit
  obtain ⟨hnel, hfitl, rfl⟩ := hfit
  have hne : token.type ≠ .concat := by simp [htype]
  obtain rfl := branch_of_ne_concat hne hb
  have hself := hsub _ (mem_emits_self hne)
  obtain ⟨x, token₁, hx, hmem⟩ := firstNode_emits hfitl hnel
  have hal' : Arcs nfa l (some a) := by
    rw [leftNext] at hal
    simpa only [htype] using hal
  have hx' := (h.index (hsub _ (mem_emits_left hmem))).1
  have hbranches := h.branches loc syn hself (harc hne)
    (by simp [tokenNode, htype, nodeType, TokenType.isEpsilonNode])
  rw [dests] at hbranches
  simp only [htype, hx, branch, setOf_pair hx' (h.index hk).1] at hbranches
  unfold Tree.language
  rw [htype]
  exact hbranches.star (hl a x token hal' hself (by rw [branch_of_ne hnel, hx]))

/-- A parenthesis leads behind it, any other leaf takes a character. -/
theorem Reads.spells_leaf (h : Reads c nfa T) (hne : token.type ≠ .concat)
    (hleaf : (RegTree.Tree.node a token l r).language (leafLanguage syn) =
      leafLanguage syn token.type token.opr)
    (htype : charType token.type ∨ token.type = .opOpenSubexp ∨ token.type = .opCloseSubexp)
    (hsub : ∀ p ∈ emits (.node a token l r), p ∈ emits T) :
    Spells loc syn c nfa T (.node a token l r) := by
  intro k b token' ⟨harc, hal, har⟩ hk hb
  obtain rfl := branch_of_ne_concat hne hb
  have hself := hsub _ (mem_emits_self hne)
  rw [hleaf, leafLanguage]
  by_cases hparen : token.type = .opOpenSubexp ∨ token.type = .opCloseSubexp
  · have hdests : dests token l r (some k) = [some k] := by
      obtain hparen | hparen := hparen
      all_goals simp [dests, hparen]
    have heps : (tokenNode token).type.isEpsilonNode = true := by
      obtain hparen | hparen := hparen
      all_goals simp [tokenNode, hparen, nodeType, TokenType.isEpsilonNode]
    have hbranches := h.branches loc syn hself (harc hne) heps
    rw [hdests, setOf_single (h.index hk).1] at hbranches
    rw [if_pos hparen]
    exact hbranches.fragment
  · rw [if_neg hparen]
    exact h.letters hself (harc hne) (htype.resolve_right hparen) hk

end nodes

theorem Reads.spells (h : Reads c nfa T) : ∀ {t : Tree}, t.Fitted → t.Types Simple →
    (∀ p ∈ emits t, p ∈ emits T) → Spells loc syn c nfa T t
  | .nil, _, _, _ => fun k b token _ _ hb => by
    obtain rfl : k = b := Option.some.inj hb
    exact Moves.fragment_refl _
  | .node a token l r, hfit, ⟨htype, hsl, hsr⟩, hsub => by
    have hl : l.Fitted → Spells loc syn c nfa T l := fun hfitl =>
      h.spells hfitl hsl fun p hp => hsub p (mem_emits_left hp)
    have hr : r.Fitted → Spells loc syn c nfa T r := fun hfitr =>
      h.spells hfitr hsr fun p hp => hsub p (mem_emits_right hp)
    have hfit' := hfit
    unfold Tree.Fitted at hfit'
    by_cases hconcat : token.type = .concat
    · simp only [hconcat] at hfit'
      exact spells_concat hconcat hfit hsub (hl hfit'.2.1) (hr hfit'.2.2)
    by_cases halt : token.type = .opAlt
    · simp only [halt] at hfit'
      exact h.spells_alternation halt hfit hsub (hl hfit'.1) (hr hfit'.2)
    by_cases hstar : token.type = .opDupAsterisk
    · simp only [hstar] at hfit'
      exact h.spells_star hstar hfit hsub (hl hfit'.2.1)
    -- the groups have been lowered, and only leaves are left
    have hsubexp : token.type ≠ .subexp := by
      intro hsubexp
      have hnode := h.built.types _ (hsub _ (mem_emits_self hconcat))
      rw [hsubexp] at hnode
      cases hnode
    refine h.spells_leaf hconcat ?_ ?_ hsub
    · unfold Tree.language
      split
      all_goals first | contradiction | rfl
    · unfold Simple at htype
      unfold charType
      tauto

/-- At the end nothing is left to read. -/
theorem Reads.accepts_end (h : Reads c nfa T) {p : Nat × RegTree.Token} (hp : p ∈ emits T)
    (htype : p.2.type = .endOfRe) {w : List UInt8} :
    (∃ n, (moves loc syn c).Accepts n (num nfa p.1) w) ↔ w = [] := by
  have hend : (tokenNode p.2).type = .endOfRe := by simp [tokenNode, htype, nodeType]
  constructor
  · rintro ⟨n, hw⟩
    cases hw with
    | final => rfl
    | empty hmove hw =>
      obtain ⟨token, set, htoken, heps, -⟩ := hmove
      rw [getAt_natCast, (h.index hp).2.1] at htoken
      obtain rfl := Option.some.inj htoken
      rw [hend] at heps
      cases heps
    | letter hmove hw =>
      have htakes : takes loc syn c (num nfa p.1) _ = true := hmove.1
      rw [takes_eq_false loc syn h hp (by simp [hend, takesChar])] at htakes
      cases htakes
  · rintro rfl
    exact ⟨0, .final ((isEnd_iff h hp).mpr hend)⟩

/-- From the first node the language of the expression is accepted. -/
theorem Reads.accepts (h : Reads c nfa T) {t : Tree} (hrooted : Rooted t T) (hfit : T.Fitted)
    (hsimple : t.Types Simple) {b : Nat} (hb : firstNode T = some b) {w : List UInt8} :
    (∃ n, (moves loc syn c).Accepts n (num nfa b) w) ↔ w ∈ t.language (leafLanguage syn) := by
  cases hrooted with
  | empty a =>
    obtain rfl : a = b := by simpa [firstNode] using hb
    have hmem : (a, ({ type := .endOfRe } : RegTree.Token)) ∈
        emits (.node a { type := .endOfRe } .nil .nil) := by simp [emits]
    rw [h.accepts_end hmem rfl]
    exact (Language.mem_one w).symm
  | full a e ht hne =>
    have hmem : (e, ({ type := .endOfRe } : RegTree.Token)) ∈ emits (.node a { type := .concat } t
        (.node e { type := .endOfRe } .nil .nil)) := by simp [emits]
    have harcs : Arcs nfa t (some e) := h.built.arcs.2.1
    have hfitt : t.Fitted := hfit.2.1
    have hbt : branch t (some e) = some b := by
      rw [branch_of_ne hne]
      simpa [firstNode] using hb
    have hfragment : (moves loc syn c).Fragment (num nfa b) (t.language (leafLanguage syn))
        (num nfa e) := h.spells hfitt hsimple (fun p hp => mem_emits_left hp) e b _ harcs hmem hbt
    constructor
    · rintro ⟨n, hw⟩
      obtain ⟨u, hu, v, m, rfl, hv, -⟩ := hfragment.splits n w hw
      obtain rfl := (h.accepts_end hmem rfl).mp ⟨m, hv⟩
      rwa [List.append_nil]
    · intro hw
      obtain ⟨n, hend⟩ : ∃ n, (moves loc syn c).Accepts n (num nfa e) [] :=
        (h.accepts_end hmem rfl).mpr rfl
      obtain ⟨m, hm⟩ := hfragment.reads w hw [] n hend
      exact ⟨m, by rwa [List.append_nil] at hm⟩

end Librecompat.Regexec
