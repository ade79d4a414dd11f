/-
  Simple patterns, compiled.

  Behind `re_compile_internal` the closures of a simple pattern are what is reached in the graph of
  its nodes, and no context matters. So the automaton accepts the language of the tree that the
  parser has made (`compile_language`), and the matcher works with it (`compile_ready`).
-/
import Librecompat.Regexec.Language
import Librecompat.Regexec.Wired

namespace Librecompat.Regexec

open Relation
open Librecompat.Lib Librecompat.NodeSet Librecompat.Regcomp
open Librecompat.RegTree (Tree Rooted Simplifies Stands)
open Librecompat.Regex

variable {loc : Regcomp.Locale} {syn : RegSyntax} {c : Compiled}

/-! ## Automata without contexts -/

/-- The closures are what is reached, and the initial nodes are those reached from `first`. -/
structure Closed (c : Compiled) (first : Nat) : Prop where
  plain : c.nfa.Plain
  edges : ∀ n m, Eclosure.Edge c.nfa.graph n m → 0 ≤ m
  nexts : ∀ (q : Nat) (node : Eclosure.Token), c.nfa.graph.nodes[q]? = some node →
    takesChar node.type = true → ∃ k : Nat, getAt c.nfa.nexts q = some (k : Int) ∧
      k < c.nfa.graph.nodes.length
  closures : ∀ n : Int, 0 ≤ n ∧ n < c.nfa.graph.nodes.length → ∃ set,
    getAt c.nfa.graph.eclosures n = some set ∧ Eclosure.Complete c.nfa.graph n set
  initNodes : Eclosure.Complete c.nfa.graph first c.initNodes

variable {first : Nat}

theorem Closed.reach (loc : Regcomp.Locale) (syn : RegSyntax) (h : Closed c first) {n : Nat} {m : Int}
    (hreach : ReflTransGen (Eclosure.Edge c.nfa.graph) n m) :
    ∃ p : Nat, m = p ∧ ReflTransGen (moves loc syn c).empty n p := by
  induction hreach with
  | refl => exact ⟨n, rfl, .refl⟩
  | tail _ hedge ih =>
    obtain ⟨p, rfl, hp⟩ := ih
    obtain ⟨q, rfl⟩ := Int.eq_ofNat_of_zero_le (h.edges _ _ hedge)
    exact ⟨q, rfl, hp.tail hedge⟩

theorem reach_cast {n p : Nat} (hreach : ReflTransGen (moves loc syn c).empty n p) :
    ReflTransGen (Eclosure.Edge c.nfa.graph) n p := by
  induction hreach with
  | refl => exact .refl
  | tail _ hedge ih => exact ih.tail hedge

/-- The nodes of a closure. -/
theorem Closed.mem_nodeList (h : Closed c first) {n : Nat} {set : ReNodeSet}
    (hset : Eclosure.Complete c.nfa.graph n set) {p : Nat} :
    p ∈ nodeList set ↔ ReflTransGen (moves loc syn c).empty n p := by
  obtain ⟨xs, hxs, hmem⟩ := hset
  have hpos : ∀ x ∈ xs, 0 ≤ x := by
    intro x hx
    obtain ⟨q, rfl, -⟩ := h.reach loc syn ((hmem x).mp hx)
    exact Int.natCast_nonneg q
  rw [nodeList_eq hxs, mem_toNat hpos, hmem]
  constructor
  · intro hreach
    obtain ⟨q, hq, hreach⟩ := h.reach loc syn hreach
    obtain rfl := Int.ofNat.inj hq
    exact hreach
  · exact reach_cast

theorem Closed.constraint (h : Closed c first) (q : Nat) :
    ((regexNodes c)[q]?).elim 0 Token.constraint = 0 := by
  rw [regexNodes, List.getElem?_map]
  cases hq : c.nfa.graph.nodes[q]? with
  | none => rfl
  | some token => exact h.plain token (List.mem_of_getElem? hq)

theorem Closed.allows (h : Closed c first) (context p : Nat) : allows c context p = true := by
  rw [Regexec.allows, satisfiesPrev, h.constraint]
  simp [notSatisfyPrevConstraint]

theorem Closed.ends (h : Closed c first) (context q : Nat) :
    ends c context q ↔ isEnd (regexNodes c) q = true := by
  have hzero := h.constraint q
  rw [Regexec.ends, checkHaltNodeContext, isEnd]
  cases hq : (regexNodes c)[q]? with
  | none => simp
  | some token =>
    rw [hq] at hzero
    have hzero : token.constraint = 0 := hzero
    simp [hzero]

theorem takesChar_of_takes {q : Nat} {ch : UInt8} (h : takes loc syn c q ch = true) :
    ∃ token, c.nfa.graph.nodes[q]? = some token ∧ takesChar token.type = true := by
  rw [takes, Option.any_eq_true] at h
  obtain ⟨node, hnode, haccepts⟩ := h
  obtain ⟨token, opr, htoken, -, rfl⟩ := dfa_node hnode
  exact ⟨token, htoken, takesChar_of_accepts haccepts⟩

/-- With a character one comes to what is reached from the next node. -/
theorem Closed.mem_behind (h : Closed c first) {q p : Nat} {ch : UInt8}
    (htakes : takes loc syn c q ch = true) : p ∈ behind c q ↔
      ∃ k : Nat, getAt c.nfa.nexts q = some (k : Int) ∧
        ReflTransGen (moves loc syn c).empty k p := by
  obtain ⟨token, htoken, htype⟩ := takesChar_of_takes htakes
  obtain ⟨k, hk, hlt⟩ := h.nexts q token htoken htype
  obtain ⟨set, hset, hcomplete⟩ := h.closures k ⟨Int.natCast_nonneg k, Int.ofNat_lt.mpr hlt⟩
  have hne : ¬ (k : Int) = -1 := by omega
  have hmem : p ∈ nodeList set ↔ ReflTransGen (moves loc syn c).empty k p := h.mem_nodeList hcomplete
  rw [behind, hk]
  simp only [if_neg hne, hset, Option.elim_some]
  constructor
  · intro hp
    exact ⟨k, rfl, hmem.mp hp⟩
  · rintro ⟨k', hk', hreach⟩
    obtain rfl := Int.ofNat.inj (Option.some.inj hk')
    exact hmem.mpr hreach

/-- Whatever the contexts, the automaton accepts what the graph does. -/
theorem Closed.mem_accepts (h : Closed c first) (before after : Nat) {w : List UInt8} :
    w ∈ (automaton loc syn c before after).accepts ↔
      ∃ n, (moves loc syn c).Accepts n first w := by
  have hstart : (automaton loc syn c before after).start =
      {p | ReflTransGen (moves loc syn c).empty first p} := by
    ext p
    change (p ∈ nodeList c.initNodes ∧ _) ↔ _
    rw [h.mem_nodeList h.initNodes]
    exact and_iff_left (h.allows before p)
  have hstep : ∀ q ch p, p ∈ (automaton loc syn c before after).step q ch ↔
      ∃ k, (moves loc syn c).letter q ch k ∧ ReflTransGen (moves loc syn c).empty k p := by
    intro q ch p
    change (takes loc syn c q ch = true ∧ p ∈ behind c q ∧ _) ↔
      ∃ k, (takes loc syn c q ch = true ∧ _) ∧ _
    rw [and_iff_left (h.allows _ p)]
    constructor
    · rintro ⟨htakes, hp⟩
      obtain ⟨k, hk, hreach⟩ := (h.mem_behind htakes).mp hp
      exact ⟨k, ⟨htakes, hk⟩, hreach⟩
    · rintro ⟨k, ⟨htakes, hk⟩, hreach⟩
      exact ⟨htakes, (h.mem_behind htakes).mpr ⟨k, hk, hreach⟩⟩
  rw [NFA.accepts_eq_acceptsFrom_start, hstart]
  exact Moves.mem_acceptsFrom_closure hstep fun q => h.ends after q

/-! ## What the compiler leaves -/

variable {nfa : Nfa} {T t : Tree}

/-- Of the graph only the nodes and their destinations count. -/
theorem complete_congr {g g' : Eclosure.Dfa} (hnodes : g'.nodes = g.nodes)
    (hedests : g'.edests = g.edests) {n : Int} {set : ReNodeSet} (h : Eclosure.Complete g n set) :
    Eclosure.Complete g' n set := by
  have hedge : Eclosure.Edge g' = Eclosure.Edge g := by
    funext n m
    rw [Eclosure.Edge, Eclosure.Edge, hnodes, hedests]
  obtain ⟨xs, hxs, hmem⟩ := h
  exact ⟨xs, hxs, fun m => by rw [hmem, hedge]⟩

variable {ok : Nat → Bool} {fresh : Nat → Int} {fuel root : Nat}

/-! ## Simple patterns -/

variable {t' : Tree}

theorem Simple.ne {type : RegTree.TokenType} (h : Simple type) :
    type ≠ .anchor ∧ type ≠ .opBackRef := by
  unfold Simple at h
  refine ⟨?_, ?_⟩
  · rintro rfl
    simp at h
  · rintro rfl
    simp at h

theorem types_of_simple (h : Compiles ok fresh fuel t t' T nfa root c) (hsimple : t.Types Simple) :
    T.Types (· ≠ .anchor) := by
  have hsimple' : t'.Types Simple := h.simplifies.types (by decide) (by decide) (by decide) hsimple
  exact rooted_types h.rooted (hsimple'.mono fun _ htype => htype.ne.1) (by decide) (by decide)

/-- A simple pattern, compiled. -/
theorem closed_of_compiles (hok : ∀ k, ok k = true) (h : Compiles ok fresh fuel t t' T nfa root c)
    (hsimple : t.Types Simple) :
    Reads c nfa T ∧ ∃ b, firstNode T = some b ∧ Closed c (num nfa b) := by
  have htargets := h.built.targeted h.rooted h.fitted
  have hplain : nfa.Plain := h.built.plain (types_of_simple h hsimple)
  have hempty : ∀ set ∈ nfa.graph.eclosures, set.nelem = 0 := by
    intro set hset
    rw [h.built.eclosures] at hset
    obtain ⟨p, -, rfl⟩ := List.mem_map.mp hset
    rfl
  obtain ⟨hsame, hnodes, hedests, hlength, hclosures⟩ := calcEclosure_plain hok hplain
    (h.built.graph htargets hplain) hempty _ h.eclosures
  dsimp only at hsame hnodes hedests hclosures
  have hreads : Reads c nfa T := ⟨h.built, hnodes, hedests, by rw [hsame], by rw [hsame]⟩
  -- the first node
  have hne : T ≠ .nil := by
    rintro rfl
    cases h.rooted
  obtain ⟨b, token, hb, hmem⟩ := firstNode_emits h.fitted hne
  obtain ⟨hidx, hnode, -⟩ := hreads.index hmem
  have hlt := (List.getElem?_eq_some_iff.mp hnode).1
  have hcomplete : ∀ n : Int, 0 ≤ n ∧ n < c.nfa.graph.nodes.length → ∃ set,
      getAt c.nfa.graph.eclosures n = some set ∧ Eclosure.Complete c.nfa.graph n set := by
    intro n hn
    rw [hnodes] at hn
    obtain ⟨set, hset, hset'⟩ := hclosures n hn
    exact ⟨set, hset, complete_congr hnodes hedests hset'⟩
  refine ⟨hreads, b, hb, ⟨?_, fun n m hedge => ?_, fun q node hq htype => ?_, hcomplete, ?_⟩⟩
  · intro token htoken
    exact hplain token (hnodes ▸ htoken)
  · obtain ⟨token, set, htoken, heps, hset, hm⟩ := hedge
    rw [hedests] at hset
    obtain ⟨xs, hxs, hlt⟩ := h.built.edests_within htargets (mem_of_getAt hset)
    rw [hxs.members] at hm
    exact (hlt m hm).1
  · rw [hnodes] at hq ⊢
    rw [hreads.nexts]
    exact nexts_of_built h.built htargets hq htype
  · have hfirst : c.nfa.first root = some b := by rw [hsame, ← hb, ← h.first]
    have hidx' : c.nfa.nodeIdx b = (num nfa b : Int) := by rw [hsame, ← hidx]
    obtain ⟨set, hset, xs, hxs, hreach⟩ :=
      hcomplete (num nfa b) ⟨Int.natCast_nonneg _, Int.ofNat_lt.mpr hlt⟩
    have hback := nodes_of_types h (hsimple.mono fun _ htype => htype.ne.2)
    exact ⟨xs, createInitialState_nodes hok hback hfirst (hidx' ▸ hset) hxs _ h.initial _ rfl, hreach⟩

/-- The automaton of a simple pattern accepts the language of the tree that the parser has made. -/
theorem language_of_compiles (hok : ∀ k, ok k = true) (h : Compiles ok fresh fuel t t' T nfa root c)
    (hsimple : t.Types Simple) (before after : Nat) :
    (automaton loc syn c before after).accepts = t.language (leafLanguage syn) := by
  obtain ⟨hreads, b, hb, hclosed⟩ := closed_of_compiles hok h hsimple
  have hsimple' : t'.Types Simple := h.simplifies.types (by decide) (by decide) (by decide) hsimple
  have hlanguage : t'.language (leafLanguage syn) = t.language (leafLanguage syn) :=
    h.simplifies.language (hsimple.mono fun _ htype => htype.ne.2) (fun _ => rfl) fun _ => rfl
  ext w
  rw [hclosed.mem_accepts, hreads.accepts h.rooted h.fitted hsimple' hb, hlanguage]

/-! ## Patterns -/

/-- All trees that the parser makes of a pattern are of simple types. -/
def parsesSimple (syn : RegSyntax) (pattern : List UInt8) : Bool :=
  match parse (singleByte cLocale none (fun _ => true) (fun _ => true) syn) (fun _ => true) syn 300
      (construct cLocale none syn pattern) with
  | some (s, _) => s.dfa.trees.all fun tree =>
      tree.token.type = .endOfRe || decide (Simple tree.token.type)
  | none => false

theorem simple_of_parses {t : Tree} {syn : RegSyntax} (h : parsesSimple syn pattern = true)
    (hparse : Parses (fun _ => true) 300 cLocale none (fun _ => true) syn pattern t) :
    t.Types Simple := by
  obtain ⟨s, root, T, hparse, hT, hrooted⟩ := hparse
  rw [parsesSimple, hparse] at h
  have hall : ∀ tree ∈ s.dfa.trees, tree.token.type = .endOfRe ∨ Simple tree.token.type := by
    intro tree htree
    simpa using List.all_eq_true.mp h tree htree
  have htypes : T.Types fun type => type = .endOfRe ∨ Simple type :=
    types_of_trees hall hT.linked
  cases hrooted with
  | empty a => trivial
  | full a e hproper hne =>
    refine (htypes.2.1.and (types_of_proper hproper)).mono fun type htype => ?_
    exact htype.1.resolve_left htype.2

variable {loc : Regcomp.Locale} {trans : Option (UInt8 → UInt8)} {okSet okTree : Nat → Bool}
variable {noSub : Bool} {pattern : List UInt8}

/-- The automaton of a simple pattern accepts the language of the tree that the parser has made, in
    all contexts. -/
theorem compile_language (hok : ∀ k, ok k = true) (hokTree : ∀ k, okTree k = true)
    (h : compile ok loc trans okSet okTree fresh syn noSub fuel pattern = some (.ok c))
    (hparse : Parses okTree fuel loc trans okSet syn pattern t) (hsimple : t.Types Simple)
    (before after : Nat) :
    (automaton loc syn c before after).accepts = t.language (leafLanguage syn) := by
  obtain ⟨t₀, t', T, nfa, root, hparse₀, hcompiles⟩ := compile_built hokTree _ h _ rfl
  obtain rfl := hparse₀.unique hparse
  exact language_of_compiles hok hcompiles hsimple before after

/-- `\(a\|b\)*c`, with the operators that the flags enable. -/
theorem compile_language_abc : ∃ c t,
    compile (fun _ => true) cLocale none (fun _ => true) (fun _ => true) (fun _ => 0) 0 false 300
      (chars "\\(a\\|b\\)*c") = some (.ok c) ∧
    Parses (fun _ => true) 300 cLocale none (fun _ => true) 0 (chars "\\(a\\|b\\)*c") t ∧
    ∀ before after, (automaton cLocale 0 c before after).accepts =
      t.language (leafLanguage 0) := by
  obtain ⟨c, -, hcompile, -⟩ := @initially_some (chars "\\(a\\|b\\)*c") (fun _ _ => true)
    (by decide +kernel)
  obtain ⟨t, -, -, -, -, hparse, -⟩ := compile_built (fun _ => rfl) _ hcompile _ rfl
  have hsimple : t.Types Simple := simple_of_parses (by decide +kernel) hparse
  exact ⟨c, t, hcompile, hparse,
    compile_language (fun _ => rfl) (fun _ => rfl) hcompile hparse hsimple⟩

end Librecompat.Regexec
