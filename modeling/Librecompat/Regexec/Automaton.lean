/-
  The automaton of a compiled pattern.

  Its states are the nodes that take a character, and the end. From a node that takes a character
  it goes to those nodes of the closure of the next node whose constraint the character satisfies:
  `automaton`, for the context in front of the first character and the one behind the last.
  `Ready` is what `build_trtable` relies on.
-/
import Librecompat.Regexec.Internal
import Librecompat.Regcomp.Overflow
import Librecompat.Regex.States
import Mathlib.Computability.NFA

namespace Librecompat.Regexec

open Librecompat.Lib Librecompat.NodeSet Librecompat.Regcomp
open Librecompat.Grouping (NEWLINE_CHAR acceptors emptyBrackets)
open Librecompat.Regex

/-! ## The nodes -/

def isEnd (nodes : List Regex.Token) (q : Nat) : Bool :=
  nodes[q]?.any fun token => token.type = .endOfRe

def isConstrained (nodes : List Regex.Token) (q : Nat) : Bool :=
  nodes[q]?.any fun token => token.constraint ≠ 0

/-- The nodes of the closure behind a node. -/
def behind (c : Compiled) (q : Nat) : List Nat :=
  match getAt c.nfa.nexts q with
  | none => []
  | some next =>
    if next = -1 then [] else (getAt c.nfa.graph.eclosures next).elim [] nodeList

/-- The types of the nodes that take a character. -/
def takesChar (type : TokenType) : Bool :=
  type = .character || type = .simpleBracket || type = .opPeriod || type = .opUtf8Period

variable (loc : Regcomp.Locale) (syn : RegSyntax) (c : Compiled)

/-- The node takes the character, also under its constraint on what comes behind it. -/
def takes (q : Nat) (ch : UInt8) : Bool :=
  (c.dfa loc syn).nodes[q]?.any fun node => node.accepts (c.dfa loc syn) ch.toFin

/-- The context that a character makes in the transition tables. -/
def byteContext (wordChar : Bitset) (ch : UInt8) : Nat :=
  if ch.toNat = NEWLINE_CHAR then CONTEXT_NEWLINE
  else if bitsetContain wordChar ch.toNat then CONTEXT_WORD else 0

/-- The nodes behind a character. -/
def follows (nodes : List Nat) (ch : UInt8) : Set Nat :=
  {p | ∃ q ∈ nodes, takes loc syn c q ch = true ∧ p ∈ behind c q}

/-- The constraint of the node on the context before it holds. -/
def allows (context p : Nat) : Bool := satisfiesPrev (regexNodes c) context p

/-- The node is the end of the regular expression, and the context behind it is allowed. -/
def ends (context q : Nat) : Prop := checkHaltNodeContext (regexNodes c) q context = some true

def automaton (before after : Nat) : NFA UInt8 Nat where
  step q ch := {p | takes loc syn c q ch = true ∧ p ∈ behind c q ∧
    allows c (byteContext (c.dfa loc syn).wordChar ch) p = true}
  start := {p | p ∈ nodeList c.initNodes ∧ allows c before p = true}
  accept := {q | ends c after q}

/-! ## What is needed of a pattern -/

structure Ready (c : Compiled) : Prop where
  sound : c.Sound
  nexts : ∀ (q : Nat) (node : Eclosure.Token), c.nfa.graph.nodes[q]? = some node →
    takesChar node.type = true → ∃ next set, getAt c.nfa.nexts q = some next ∧ next ≠ -1 ∧
      getAt c.nfa.graph.eclosures next = some set ∧ set.nelem ≠ 0
  brackets : ∀ (q : Nat) (node : Eclosure.Token) (opr : Nat), c.nfa.graph.nodes[q]? = some node →
    c.nfa.oprs[q]? = some opr → node.type = .simpleBracket → BitVec.ofNat SBC_MAX opr ≠ 0#256
  initNodes : c.initNodes.nelem ≠ 0
  endNode : isEnd (regexNodes c) 0 = true → ∀ q, isConstrained (regexNodes c) q = false

variable {loc syn c}

@[simp] theorem length_regexNodes : (regexNodes c).length = c.nfa.graph.nodes.length :=
  List.length_map _

/-! ## Node sets as lists -/

theorem nodeList_eq {set : ReNodeSet} {xs : List Int} (h : NodeSet.Holds set xs) :
    nodeList set = xs.map Int.toNat := by
  rw [nodeList, h.members]

theorem mem_toNat {xs : List Int} (hpos : ∀ x ∈ xs, 0 ≤ x) {p : Nat} :
    p ∈ xs.map Int.toNat ↔ (p : Int) ∈ xs := by
  rw [List.mem_map]
  constructor
  · rintro ⟨x, hx, rfl⟩
    rwa [Int.toNat_of_nonneg (hpos x hx)]
  · intro hp
    exact ⟨p, hp, Int.toNat_natCast p⟩

theorem sorted_toNat {xs : List Int} (hpos : ∀ x ∈ xs, 0 ≤ x) (h : xs.Pairwise (· < ·)) :
    (xs.map Int.toNat).Pairwise (· < ·) := by
  rw [List.pairwise_map]
  refine h.imp_of_mem fun {a b} ha hb hab => ?_
  have := hpos a ha
  omega

/-- The nodes of a state, as a set. -/
theorem holds_nodeSet {nodes : List Nat} (h : nodes.Pairwise (· < ·)) :
    NodeSet.Holds (nodeSet nodes) (nodes.map fun (q : Nat) => (q : Int)) := by
  refine ⟨?_, ?_, ?_, [], ?_⟩
  · rw [List.pairwise_map]
    exact h.imp fun hab => Int.ofNat_lt.mpr hab
  · simp [nodeSet]
  · simp [nodeSet]
  · simp [nodeSet]

/-! ## What a node takes -/

theorem dfa_node {q : Nat} {node : Grouping.Token} (h : (c.dfa loc syn).nodes[q]? = some node) :
    ∃ token opr, c.nfa.graph.nodes[q]? = some token ∧ c.nfa.oprs[q]? = some opr ∧
      node = groupingToken loc token opr := by
  rw [Compiled.dfa, List.getElem?_zipWith] at h
  cases htoken : c.nfa.graph.nodes[q]? with
  | none => simp [htoken] at h
  | some token =>
    cases hopr : c.nfa.oprs[q]? with
    | none => simp [htoken, hopr] at h
    | some opr =>
      rw [htoken, hopr] at h
      exact ⟨token, opr, rfl, rfl, (Option.some.inj h).symm⟩

/-- A node that takes a character is of such a type. -/
theorem takesChar_of_accepts {node : Grouping.Token} {dfa : Grouping.Dfa} {ch : Fin SBC_MAX}
    (h : node.accepts dfa ch = true) : takesChar node.type = true := by
  rw [Grouping.Token.accepts, Bool.and_eq_true] at h
  have hhas := h.1
  unfold Grouping.Token.has at hhas
  unfold takesChar
  split at hhas
  all_goals simp_all

theorem Ready.noEmptyBracket (h : Ready c) {xs : List Int} :
    emptyBrackets (c.dfa loc syn) xs = 0 := by
  rw [emptyBrackets, List.countP_eq_zero]
  intro x _
  rw [Bool.not_eq_true, Option.any_eq_false]
  intro node hnode
  obtain ⟨hpos, hget⟩ := getAt_eq_some.mp hnode
  obtain ⟨token, opr, htoken, hopr, rfl⟩ := dfa_node hget
  unfold Grouping.Token.emptyBracket
  rw [Bool.and_eq_false_iff]
  left
  by_cases htype : token.type = .simpleBracket
  · have hne := h.brackets _ token opr htoken hopr htype
    simp [groupingToken, htype, hne]
  · simp [groupingToken, htype]

/-- Behind a node that takes a character there is a node. -/
theorem Ready.next (h : Ready c) {q : Nat} {ch : UInt8} (htakes : takes loc syn c q ch = true) :
    ∃ next set xs, getAt c.nfa.nexts q = some next ∧ next ≠ -1 ∧
      getAt c.nfa.graph.eclosures next = some set ∧ NodeSet.Holds set xs ∧ xs ≠ [] ∧
      behind c q = xs.map Int.toNat ∧ ∀ x ∈ xs, 0 ≤ x ∧ x < c.nfa.graph.nodes.length := by
  rw [takes, Option.any_eq_true] at htakes
  obtain ⟨node, hnode, haccepts⟩ := htakes
  obtain ⟨token, opr, htoken, -, rfl⟩ := dfa_node hnode
  obtain ⟨next, set, hnext, hne, hset, hnelem⟩ :=
    h.nexts q token htoken (takesChar_of_accepts haccepts)
  obtain ⟨xs, hxs, hlt⟩ := (h.sound.nfa.closure hset).resolve_left hnelem
  refine ⟨next, set, xs, hnext, hne, hset, hxs, ?_, ?_, hlt⟩
  · rintro rfl
    exact hnelem (by simpa using hxs.nelem)
  · rw [behind, hnext]
    simp only [if_neg hne, hset, Option.elim_some]
    exact nodeList_eq hxs

theorem mem_acceptors {xs : List Int} {ch : UInt8} {q : Nat} :
    (q : Int) ∈ acceptors (c.dfa loc syn) xs ch.toFin ↔
      (q : Int) ∈ xs ∧ takes loc syn c q ch = true := by
  rw [acceptors, List.mem_filter, getAt_natCast]
  rfl

end Librecompat.Regexec
