/-
  When the groups of a state fit their arrays.

  In a compiled pattern a character node with a constraint about words knows whether its byte is a
  word character (`Compiled.Sound.wordCharRight`), and every state has a set of nodes
  (`Reached.within`). So `Grouping.Partition` tells the number of groups. There are as many as there
  are non-empty sets of nodes that accept one and the same byte, and one more for each bracket
  without bytes: with 256 of the former one such bracket is too many (`overfull`).
-/
import Librecompat.Grouping.Failed
import Librecompat.Regcomp.Closures
import Librecompat.Regcomp.States

namespace Librecompat.Regcomp

open Librecompat.Lib Librecompat.NodeSet Librecompat.Grouping
open Librecompat.Regex

variable {loc : Locale} {trans : Option (UInt8 → UInt8)} {ok okSet okTree : Nat → Bool}
variable {fresh : Nat → Int} {syn : RegSyntax} {noSub : Bool} {fuel : Nat} {c : Compiled}

/-! ## The table of word characters -/

/-- The characters below 128 are those of ASCII. -/
def Locale.Ascii (loc : Locale) : Prop :=
  ∀ ch : UInt8, ch < 0x80 → loc.ctype .isalnum ch = cLocale.ctype .isalnum ch

theorem contain_setAll (p : Nat → Bool) (i : Fin SBC_MAX) : ∀ (l : List Nat) (set : Bitset),
    bitsetContain (l.foldl (fun set ch => if p ch then bitsetSet set ch else set) set) i =
      (bitsetContain set i || (decide ((i : Nat) ∈ l) && p i))
  | [], set => by simp
  | ch :: l, set => by
    rw [List.foldl_cons, contain_setAll p i l]
    by_cases heq : (i : Nat) = ch
    · subst heq
      cases hp : p i <;> simp
    · split
      · simp [heq]
      · simp [heq]

theorem contain_asciiWords : ∀ i : Fin SBC_MAX, bitsetContain asciiWords i =
    (decide ((i : Nat) < 128) && cLocale.isWordChar (UInt8.ofNat i)) := by decide +kernel

theorem contain_wordChars (hascii : loc.Ascii) (i : Fin SBC_MAX) :
    bitsetContain (wordChars loc) i = loc.isWordChar (UInt8.ofNat i) := by
  rw [wordChars, contain_setAll (fun ch => loc.isWordChar (UInt8.ofNat ch)), contain_asciiWords]
  have hlt : (i : Nat) < 256 := i.isLt
  by_cases hi : (i : Nat) < 128
  · have hsmall : UInt8.ofNat i < 0x80 := by
      rw [UInt8.lt_iff_toNat_lt, UInt8.toNat_ofNat']
      exact (Nat.mod_le _ _).trans_lt hi
    have hout : (i : Nat) ∉ List.range' 128 128 := fun hmem =>
      not_le.mpr hi (List.mem_range'_1.mp hmem).1
    rw [decide_eq_true hi, decide_eq_false hout, Bool.true_and, Bool.false_and, Bool.or_false,
      Locale.isWordChar, Locale.isWordChar, hascii _ hsmall]
  · have hin : (i : Nat) ∈ List.range' 128 128 := List.mem_range'_1.mpr (by omega)
    rw [decide_eq_false hi, decide_eq_true hin, Bool.false_and, Bool.false_or, Bool.true_and]

/-! ## What the compiler leaves -/

structure Compiled.Sound (c : Compiled) : Prop where
  nfa : c.nfa.Sound c.wordOpsUsed ∅ 0
  initNodes : Within c.nfa.graph.nodes.length c.initNodes

theorem Nfa.Sound.closure {words : Bool} {nfa : Nfa} {n : Nat} (h : nfa.Sound words ∅ n) {i : Int}
    {set : ReNodeSet} (hset : getAt nfa.graph.eclosures i = some set) :
    set.nelem = 0 ∨ Within nfa.graph.nodes.length set :=
  (h.closures i set hset).resolve_left fun hpending => hpending.2

theorem initialPass_within {words : Bool} {nfa : Nfa} {n : Nat} (h : nfa.Sound words ∅ n)
    (s : Initial) (hs : Within nfa.graph.nodes.length s.nodes) :
    Yields (Sum.elim (fun s => Within nfa.graph.nodes.length s.nodes) fun q =>
      q.2 = REG_NOERROR → Within nfa.graph.nodes.length q.1.nodes) (initialPass ok nfa s) := by
  unfold initialPass
  split
  · exact yields_some.mpr fun _ => hs
  refine yields_bind fun nodeIdx _ => yields_bind fun node _ => yields_bind fun opr _ => ?_
  split
  · exact yields_some.mpr hs
  refine yields_bind fun closed _ => ?_
  split
  · exact yields_some.mpr hs
  refine yields_bind fun edests _ => yields_bind fun destIdx _ => yields_bind fun found _ => ?_
  split
  · exact yields_some.mpr hs
  refine yields_bind fun dest hdest => (hs.merge (h.closure hdest)).bind fun q _ hq => ?_
  dsimp only
  split
  · next hfail => exact yields_some.mpr fun hzero => absurd hzero hfail
  · next hzero => exact yields_some.mpr (hq (not_not.mp hzero))

theorem createInitialState_within {words : Bool} {nfa : Nfa} {n root : Nat}
    (h : nfa.Sound words ∅ n) :
    Yields (fun r => ∀ q, r = .ok q → Within nfa.graph.nodes.length q.1)
      (createInitialState ok fuel root nfa) := by
  refine yields_bind fun first _ => yields_bind fun eclosure heclosure => ?_
  refine (Within.initCopy (h.closure heclosure)).bind fun q₁ _ hq₁ => ?_
  dsimp only
  split
  · exact yields_some.mpr fun q hq => by cases hq
  next hzero =>
  refine (yields_tryLoop (initialPass_within h) (hq₁ (not_not.mp hzero))).bind fun q₂ _ hq₂ => ?_
  split
  · exact yields_some.mpr fun q hq => by cases hq
  next hzero₂ =>
  split
  · exact yields_some.mpr fun q hq => by cases hq
  refine yields_bind fun contexts _ => yields_bind fun states _ => yields_some.mpr fun q hq => ?_
  rw [← Except.ok.inj hq]
  exact hq₂ (not_not.mp hzero₂)

theorem State.Calm.nfa_sound {σ : Type} {s : State σ} (h : s.Calm) :
    (s.nfa noSub).Sound s.wordOpsUsed ∅ 0 :=
  ⟨h, fun _ _ hnode => absurd hnode List.not_mem_nil, rfl, rfl,
    fun _ _ hset => absurd (mem_of_getAt hset) List.not_mem_nil, Nat.le_refl _⟩

theorem compile_sound {pattern : List UInt8} :
    Yields (fun r => ∀ c, r = .ok c → c.Sound)
      (compile ok loc trans okSet okTree fresh syn noSub fuel pattern) := by
  refine Yields.bind (calms_parse singleByte_plain _) fun q _ hcalm => ?_
  dsimp only
  split
  · exact yields_some.mpr fun c hc => by cases hc
  · refine (analyze_sound (hcalm.nfa_sound) _).bind fun q₂ _ hq₂ => ?_
    split
    · exact yields_some.mpr fun c hc => by cases hc
    next hzero =>
    have hnfa := hq₂ (not_not.mp hzero)
    refine (createInitialState_within hnfa).bind fun r _ hr => ?_
    cases r with
    | error err => exact yields_some.mpr fun c hc => by cases hc
    | ok states =>
      refine yields_some.mpr fun c hc => ?_
      rw [← Except.ok.inj hc]
      exact ⟨hnfa, hr states rfl⟩

/-! ## States -/

theorem contextNodes_within {nfa : Nfa} {n context : Nat} {set : ReNodeSet} (h : Within n set) :
    Yields (Within n) (contextNodes nfa set context) := by
  refine Yields.bind (yields_foldlM (I := fun s : ReNodeSet × Nat => Within n s.1)
    (fun s i hs => ?_) h) fun s _ hs => yields_some.mpr hs
  refine yields_bind fun idx _ => yields_bind fun node _ => ?_
  split
  · exact (hs.removeAt _).bind fun set' _ hset' => yields_some.mpr hset'
  · exact yields_some.mpr hs

/-- The loop over one group, as long as there is no error. -/
def Follows.Within (n : Nat) (s : Follows) : Prop := s.err = REG_NOERROR → NodeSet.Within n s.set

theorem followPass_within {words : Bool} {nfa : Nfa} {n : Nat} (h : nfa.Sound words ∅ n)
    {node : ReNodeSet} (s : Follows) (j : Nat) (hs : s.Within nfa.graph.nodes.length) :
    Yields (Follows.Within nfa.graph.nodes.length) (followPass ok nfa node s j) := by
  unfold followPass
  split
  · exact yields_some.mpr hs
  next hzero =>
  refine yields_bind fun elem _ => yields_bind fun next _ => ?_
  split
  · exact yields_some.mpr hs
  · refine yields_bind fun closure hclosure => ?_
    exact ((hs (not_not.mp hzero)).merge (h.closure hclosure)).bind fun q _ hq => yields_some.mpr hq

theorem destStates_within {words : Bool} {nfa : Nfa} {n : Nat} (h : nfa.Sound words ∅ n) :
    ∀ (dests : List Dest) (s : Follows), NodeSet.Within nfa.graph.nodes.length s.set →
    Yields (fun q => ∀ set ∈ q.2, NodeSet.Within nfa.graph.nodes.length set)
      (destStates ok nfa dests s)
  | [], _, _ => yields_some.mpr (by simp)
  | d :: dests, s, hs => by
    have hbegin : Follows.Within nfa.graph.nodes.length
        { s with set := { s.set with nelem := 0 } } := fun _ => hs.empty
    refine Yields.bind (yields_foldlM (followPass_within h) hbegin) fun t _ ht => ?_
    split
    · exact yields_some.mpr (by simp)
    next hzero =>
    have hset := ht (not_not.mp hzero)
    refine (destStates_within h dests t hset).bind fun q _ hq => yields_some.mpr ?_
    exact List.forall_mem_cons.mpr ⟨hset, hq⟩

theorem buildTrtable_within (hc : c.Sound) {okGroup okFollow : Nat → Bool} {nodes : ReNodeSet} :
    Yields (fun r => ∀ sets, r = .ok sets → ∀ set ∈ sets, Within c.nfa.graph.nodes.length set)
      (buildTrtable loc syn okGroup okFollow c nodes) := by
  refine yields_bind fun r _ => ?_
  split
  · exact yields_some.mpr fun sets hsets => by cases hsets
  · refine yields_some.mpr fun sets hsets => ?_
    rw [← Except.ok.inj hsets]
    simp
  · next dests _ _ =>
    dsimp only
    split
    · exact yields_some.mpr fun sets hsets => by cases hsets
    next hzero =>
    have hsize : 0 ≤ (dests.length : Int) + 1 := by omega
    have hfollows := within_alloc c.nfa.graph.nodes.length hsize (not_not.mp hzero)
    refine (destStates_within hc.nfa dests ⟨_, 1, REG_NOERROR⟩ hfollows).bind fun q _ hq => ?_
    refine yields_some.mpr fun sets hsets => ?_
    split at hsets
    · cases hsets
    · rwa [← Except.ok.inj hsets]

/-- A set that a state is made of is a set of nodes. -/
theorem Reached.within (hc : c.Sound) {set : ReNodeSet} (h : Reached loc syn c set) :
    Within c.nfa.graph.nodes.length set := by
  induction h with
  | initial => exact hc.initNodes
  | transit _ _ _ _ htable hfollows _ _ =>
    exact buildTrtable_within hc _ htable _ rfl _ hfollows
  | backRef emptyMatch _ _ _ _ hclosure hne _ =>
    obtain ⟨dest, -, hget⟩ := Option.bind_eq_some_iff.mp hclosure
    exact (hc.nfa.closure hget).resolve_left hne
  | merge ok' _ _ hnew ih ih' => exact Within.initUnion _ ih ih' _ hnew rfl

/-! ## Overflow -/

theorem wordless_bits {constraint : Nat} (h : Wordless constraint) :
    constraint &&& NEXT_WORD_CONSTRAINT = 0 ∧ constraint &&& NEXT_NOTWORD_CONSTRAINT = 0 := by
  rwa [Wordless, Nat.and_or_distrib_left, Nat.or_eq_zero_iff] at h

theorem Compiled.Sound.wordCharRight (hc : c.Sound) (hascii : loc.Ascii) {i : Int}
    (hi : 0 ≤ i ∧ i < c.nfa.graph.nodes.length) :
    ∃ node, getAt (c.dfa loc syn).nodes i = some node ∧ node.WordCharRight (c.dfa loc syn) := by
  obtain ⟨token, htoken⟩ := exists_getAt c.nfa.graph.nodes hi
  obtain ⟨opr, hopr⟩ := exists_getAt c.nfa.oprs (i := i) (by rw [hc.nfa.oprs]; exact hi)
  have hnode : getAt (c.dfa loc syn).nodes i = some (groupingToken loc token opr) := by
    rw [getAt_eq_some] at htoken hopr ⊢
    refine ⟨hi.1, ?_⟩
    rw [Compiled.dfa, List.getElem?_zipWith, htoken.2, hopr.2]
  refine ⟨_, hnode, fun _ hbits => ?_⟩
  have hchar : UInt8.ofNat ((UInt8.ofNat opr).toFin : Nat) = UInt8.ofNat opr :=
    UInt8.ofNat_toNat
  cases hwords : c.wordOpsUsed with
  | true =>
    simp only [Compiled.dfa, hwords, if_true, groupingToken]
    rw [contain_wordChars hascii, hchar]
  | false =>
    obtain ⟨hword, hnotword⟩ := wordless_bits (hc.nfa.wordless htoken hwords)
    exact absurd hbits (by simp [groupingToken, hword, hnotword])

/-- Without a bracket without bytes the groups always fit. -/
theorem count_le_of_noEmptyBracket {dfa : Grouping.Dfa} {xs : List Int}
    (h : emptyBrackets dfa xs = 0) : count (acceptors dfa xs) (emptyBrackets dfa xs) ≤ SBC_MAX := by
  rw [count, h, Nat.add_zero]
  exact (Finset.card_le_card (Finset.erase_subset _ _)).trans <|
    Finset.card_image_le.trans_eq (Finset.card_fin SBC_MAX)

/-- Of a state that is made for a compiled pattern the groups fit the arrays if and only if the sets
    of nodes that accept one byte, and the brackets without bytes, are no more than `SBC_MAX`. -/
theorem groups_fit_iff {pattern : List UInt8} (hascii : loc.Ascii)
    (hcompile : compile ok loc trans okSet okTree fresh syn noSub fuel pattern = some (.ok c))
    {set nodes : ReNodeSet} {context : Nat} (hset : Reached loc syn c set)
    (hnodes : contextNodes c.nfa set context = some nodes) :
    (∀ okGroup, overflows (groupNodesIntoDFAstates (c.dfa loc syn) okGroup nodes) = false) ↔
      count (acceptors (c.dfa loc syn) nodes.members) (emptyBrackets (c.dfa loc syn) nodes.members)
        ≤ SBC_MAX := by
  have hc : c.Sound := compile_sound _ hcompile c rfl
  obtain ⟨xs, hxs, hlt⟩ := contextNodes_within (hset.within hc) _ hnodes
  rw [never_overflows_iff, hxs.members, ← not_lt, ← overflows_iff (fun _ => rfl) (by rfl) hxs
    fun x hx => hc.wordCharRight hascii (hlt x hx), Bool.not_eq_true]

/-! ## The initial state in the C locale -/

/-- The pattern can be compiled, and `p` holds of the automaton and of the nodes of the initial
    state. -/
def initially (pattern : List UInt8) (p : Grouping.Dfa → ReNodeSet → Bool) : Bool :=
  match compile (fun _ => true) cLocale none (fun _ => true) (fun _ => true) (fun _ => 0) 0 false
    300 pattern with
  | some (.ok c) => (contextNodes c.nfa c.initNodes 0).any (p (c.dfa cLocale 0))
  | _ => false

theorem initially_some {pattern : List UInt8} {p : Grouping.Dfa → ReNodeSet → Bool}
    (h : initially pattern p = true) :
    ∃ c nodes, compile (fun _ => true) cLocale none (fun _ => true) (fun _ => true) (fun _ => 0) 0
      false 300 pattern = some (.ok c) ∧ contextNodes c.nfa c.initNodes 0 = some nodes ∧
      p (c.dfa cLocale 0) nodes = true := by
  unfold initially at h
  split at h
  · next c hcompile =>
    rw [Option.any_eq_true] at h
    obtain ⟨nodes, hnodes, hp⟩ := h
    exact ⟨c, nodes, hcompile, hnodes, hp⟩
  · exact absurd h (by simp)

/-- `a`. -/
theorem groups_fit_iff_one : ∃ c nodes,
    compile (fun _ => true) cLocale none (fun _ => true) (fun _ => true) (fun _ => 0) 0 false 300
      (chars "a") = some (.ok c) ∧ contextNodes c.nfa c.initNodes 0 = some nodes ∧
    ∀ okGroup, overflows (groupNodesIntoDFAstates (c.dfa cLocale 0) okGroup nodes) = false := by
  obtain ⟨c, nodes, hcompile, hnodes, hempty⟩ := @initially_some (chars "a")
    (fun dfa nodes => emptyBrackets dfa nodes.members = 0) (by decide +kernel)
  refine ⟨c, nodes, hcompile, hnodes, ?_⟩
  exact (groups_fit_iff (fun _ _ => rfl) hcompile .initial hnodes).mpr
    (count_le_of_noEmptyBracket (of_decide_eq_true hempty))

/-- A bracket with the bytes whose bit `i` is set, where `i` is not zero. -/
def bitBracket (i : Nat) : List UInt8 :=
  0x5b :: ((List.range (2 ^ (7 - i))).flatMap fun j =>
    let first := j * 2 ^ (i + 1) + 2 ^ i
    [UInt8.ofNat first, 0x2d, UInt8.ofNat (first + 2 ^ i - 1)]) ++ [0x5d]

/-- A bracket with the bytes whose bit 0 is set; for the hyphen and for the closing bracket it has
    the bytes in front of them. -/
def oddBracket : List UInt8 :=
  0x5b :: ((List.range 128).map fun j =>
    let odd := UInt8.ofNat (2 * j + 1)
    if odd = 0x2d ∨ odd = 0x5d then odd - 1 else odd) ++ [0x5d]

/-- `[odd]\|[bit 1]\|…\|[bit 7]\|.\|[b-a]`: the brackets in front tell all bytes apart. -/
def overfull : List UInt8 :=
  oddBracket ++ ((List.range' 1 7).flatMap fun i => chars "\\|" ++ bitBracket i) ++
    chars "\\|.\\|[b-a]"

/-- In the initial state each byte has a group, and the last bracket has one without bytes. -/
theorem groups_overflow : ∃ c set context nodes,
    compile (fun _ => true) cLocale none (fun _ => true) (fun _ => true) (fun _ => 0) 0 false 300
      overfull = some (.ok c) ∧ Reached cLocale 0 c set ∧
    contextNodes c.nfa set context = some nodes ∧
    overflows (groupNodesIntoDFAstates (c.dfa cLocale 0) (fun _ => true) nodes) = true := by
  obtain ⟨c, nodes, hcompile, hnodes, hbad⟩ := @initially_some overfull
    (fun dfa nodes => overflows (groupNodesIntoDFAstates dfa (fun _ => true) nodes))
    (by decide +kernel)
  exact ⟨c, c.initNodes, 0, nodes, hcompile, .initial, hnodes, hbad⟩

end Librecompat.Regcomp
