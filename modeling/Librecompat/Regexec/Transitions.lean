/-
  The transition tables that the matcher builds.

  A state is made of a set of nodes for a context (`Made`): it has those of them that the context
  allows. At a character it goes to the state of the nodes in `follows` for the context of the
  character, and where there is no such node, to no state (`Leads`). The entries of a table that
  `build_trtable` makes lead so (`buildTrtable_spec`), and this stays so while the matcher makes
  more states and tables (`Cached`, `transitState_spec`).
-/
import Librecompat.Regexec.Automaton
import Librecompat.Regexec.Tables

namespace Librecompat.Regexec

open Librecompat.Lib Librecompat.NodeSet Librecompat.Regcomp
open Librecompat.Grouping (Dest NEWLINE_CHAR acceptors emptyBrackets groupNodesIntoDFAstates)
open Librecompat.Regex

/-! ## States by their nodes -/

/-- The state at `q` is made of these nodes for the context; if they have no constraint, it is made
    for all contexts. -/
def Made (d : Regex.Dfa) (q : Nat) (S : Set Nat) (context : Nat) : Prop :=
  ∃ st, IsState d q st ∧ (∀ p, p ∈ st.entrance ↔ p ∈ S) ∧
    (st.hasConstraint = true → st.context = context)

variable (loc : Regcomp.Locale) (syn : RegSyntax) (c : Compiled)

/-- Of a set of nodes those that the context allows. -/
def allowed (context : Nat) (S : Set Nat) : Set Nat := {p | p ∈ S ∧ allows c context p = true}

/-- Where a state with these nodes goes to at a character. -/
def Leads (d : Regex.Dfa) (nodes : List Nat) (ch : UInt8) (q : Nat) : Prop :=
  (q = 0 ∧ follows loc syn c nodes ch = ∅) ∨
    Made d q (follows loc syn c nodes ch) (byteContext (c.dfa loc syn).wordChar ch)

/-- What the states and their tables are like. -/
structure Cached (m : Machine) : Prop where
  nodes : m.dfa.nodes = regexNodes c
  sound : Sound m.dfa
  tables : ∀ p entries, m.trtable p = some entries →
    ∃ st, IsState m.dfa p st ∧ ∀ ch, Leads loc syn c m.dfa st.nodes ch (entries ch)

variable {loc syn c} {d d' : Regex.Dfa} {A : Allocator DfaState} {okGroup okFollow : Nat → Bool}

theorem Made.grows {q context : Nat} {S : Set Nat} (h : Made d q S context) (hg : Grows d d') :
    Made d' q S context := by
  obtain ⟨st, hst, hS, hcontext⟩ := h
  exact ⟨st, hst.grows hg, hS, hcontext⟩

theorem Leads.grows {nodes : List Nat} {ch : UInt8} {q : Nat} (h : Leads loc syn c d nodes ch q)
    (hg : Grows d d') : Leads loc syn c d' nodes ch q :=
  h.imp_right fun hmade => hmade.grows hg

theorem Sane.nodes_subset {nodes : List Regex.Token} {st : DfaState} (h : Sane nodes st) {p : Nat}
    (hp : p ∈ st.nodes) : p ∈ st.entrance := by
  rw [h.kept] at hp
  exact List.mem_of_mem_filter hp

theorem Sane.nodes_sorted {nodes : List Regex.Token} {st : DfaState} (h : Sane nodes st) :
    st.nodes.Pairwise (· < ·) := by
  rw [h.kept]
  exact h.sorted.filter _

/-- Without a constraint all contexts allow a node. -/
theorem allows_of_free {p context : Nat} (h : isConstrained (regexNodes c) p = false) :
    allows c context p = true := by
  unfold allows satisfiesPrev
  cases hnode : (regexNodes c)[p]? with
  | none => simp [notSatisfyPrevConstraint]
  | some node =>
    have hzero : node.constraint = 0 := by simpa [isConstrained, hnode] using h
    simp [hzero, notSatisfyPrevConstraint]

/-- The nodes of a state. -/
theorem Made.mem_nodes {q context : Nat} {S : Set Nat} (h : Made d q S context)
    (hnodes : d.nodes = regexNodes c) (hd : Sound d) {st : DfaState} (hst : IsState d q st)
    (p : Nat) : p ∈ st.nodes ↔ p ∈ allowed c context S := by
  obtain ⟨st', hst', hS, hcontext⟩ := h
  obtain rfl := hst.unique hst'
  have hsane : Sane (regexNodes c) st := hnodes ▸ hd.sane q st hst
  rw [hsane.kept, List.mem_filter, hS]
  refine and_congr_right fun hp => ?_
  by_cases hhas : st.hasConstraint = true
  · rw [hcontext hhas]
    exact Iff.rfl
  · have hfree : isConstrained (regexNodes c) p = false := by
      rw [hsane.hasConstraint, Bool.not_eq_true, List.any_eq_false] at hhas
      exact Bool.eq_false_iff.mpr (hhas p ((hS p).mpr hp))
    exact iff_of_true (allows_of_free hfree) (allows_of_free hfree)

/-! ## The states of a destination -/

/-- The three states of a destination, for the nodes behind its characters. -/
structure Dests (d : Regex.Dfa) (S : Set Nat) (states : DestStates) : Prop where
  plain : Made d states.plain S 0
  word : Made d states.word S CONTEXT_WORD
  nl : Made d states.nl S CONTEXT_NEWLINE

theorem Dests.grows {S : Set Nat} {states : DestStates} (h : Dests d S states) (hg : Grows d d') :
    Dests d' S states :=
  ⟨h.plain.grows hg, h.word.grows hg, h.nl.grows hg⟩

theorem acquireDest_spec (hA : ∀ n, A.fails n = false) (hnodes : d.nodes = regexNodes c)
    (h : Sound d) {nodes : List Nat} (hsorted : nodes.Pairwise (· < ·))
    (hlt : ∀ q ∈ nodes, q < c.nfa.graph.nodes.length) (hne : nodes ≠ []) (ch : Bitset) :
    ∃ d' states, acquireDest A nodes ch d = some (d', some states) ∧ Grows d d' ∧ Sound d' ∧
      states.ch = ch ∧ Dests d' {p | p ∈ nodes} states := by
  have hlt' : ∀ {d₁ : Regex.Dfa}, d₁.nodes = regexNodes c → ∀ q ∈ nodes, q < d₁.nodes.length := by
    intro d₁ hd₁ q hq
    rw [hd₁, length_regexNodes]
    exact hlt q hq
  obtain ⟨d₁, plain, st₁, hrun₁, hg₁, hs₁, hst₁, hent₁, hctx₁⟩ :=
    acquire_spec hA h hsorted (hlt' hnodes) hne (by decide : 0 < 2 ^ 4) REG_NOERROR
  have hnodes₁ : d₁.nodes = regexNodes c := hg₁.nodes.trans hnodes
  unfold acquireDest
  simp only [hrun₁, Option.bind_eq_bind, Option.bind_some, hst₁.live, hs₁.ne_null hst₁, false_and,
    if_false]
  by_cases hhas : st₁.hasConstraint = true
  · obtain ⟨d₂, word, st₂, hrun₂, hg₂, hs₂, hst₂, hent₂, hctx₂⟩ :=
      acquire_spec hA hs₁ hsorted (hlt' hnodes₁) hne (by decide : CONTEXT_WORD < 2 ^ 4) REG_NOERROR
    have hnodes₂ : d₂.nodes = regexNodes c := hg₂.nodes.trans hnodes₁
    obtain ⟨d₃, nl, st₃, hrun₃, hg₃, hs₃, hst₃, hent₃, hctx₃⟩ :=
      acquire_spec hA hs₂ hsorted (hlt' hnodes₂) hne (by decide : CONTEXT_NEWLINE < 2 ^ 4)
        REG_NOERROR
    have hg₁₃ := hg₂.trans hg₃
    simp only [hhas, Bool.not_true, Bool.false_eq_true, if_false, hrun₂, hrun₃, Option.bind_some,
      hs₂.ne_null hst₂, hs₃.ne_null hst₃, false_and]
    refine ⟨d₃, _, rfl, hg₁.trans hg₁₃, hs₃, rfl, ?_, ?_, ?_⟩
    · exact Made.grows ⟨st₁, hst₁, by simp [hent₁], fun _ => hctx₁⟩ hg₁₃
    · exact Made.grows ⟨st₂, hst₂, by simp [hent₂], fun _ => hctx₂⟩ hg₃
    · exact ⟨st₃, hst₃, by simp [hent₃], fun _ => hctx₃⟩
  · have hany : ∀ context, Made d₁ plain {p | p ∈ nodes} context := fun context =>
      ⟨st₁, hst₁, by simp [hent₁], fun h => absurd h hhas⟩
    rw [Bool.not_eq_true] at hhas
    simp only [hhas, Bool.not_false, if_true]
    exact ⟨d₁, _, rfl, hg₁, hs₁, rfl, hany _, hany _, hany _⟩

/-! ## The nodes behind a group -/

/-- The nodes behind those of a group. -/
def behindAll (c : Compiled) (xs : List Int) : Set Nat :=
  {p | ∃ q : Nat, (q : Int) ∈ xs ∧ p ∈ behind c q}

/-- The set has these nodes, and there is no error. -/
structure Gathers (c : Compiled) (s : Follows) (S : Set Nat) : Prop where
  err : s.err = REG_NOERROR
  set : ∃ ys, NodeSet.Holds s.set ys ∧ (∀ y ∈ ys, 0 ≤ y ∧ y < c.nfa.graph.nodes.length) ∧
    ∀ p : Nat, (p : Int) ∈ ys ↔ p ∈ S

variable (loc syn c) in
/-- A group that accepts something. -/
structure Accepting (node : ReNodeSet) : Prop where
  holds : NodeSet.Holds node node.members
  nonempty : node.members ≠ []
  takes : ∀ x ∈ node.members, ∃ (q : Nat) (ch : UInt8), x = q ∧ takes loc syn c q ch = true

theorem followPass_spec (hc : Ready c) (hok : ∀ k, okFollow k = true) {node : ReNodeSet}
    {s : Follows} {S : Set Nat} (h : Gathers c s S) {j q : Nat} {ch : UInt8}
    (hread : readCell node.elems j = some (q : Int)) (htakes : takes loc syn c q ch = true) :
    ∃ t, followPass okFollow c.nfa node s j = some t ∧
      Gathers c t (S ∪ {p | p ∈ behind c q}) := by
  obtain ⟨ys, hys, hlt, hmem⟩ := h.set
  obtain ⟨next, set, xs, hnext, hne, hset, hxs, -, hbehind, hxlt⟩ := hc.next htakes
  obtain ⟨set', zs, hmerge, hzs, hmem'⟩ :=
    merge_spec hys (show HoldsOpt (some set) xs from hxs)
  refine ⟨⟨set', s.calls + 1, REG_NOERROR⟩, ?_, rfl, zs, hzs, fun z hz => ?_, fun p => ?_⟩
  · simp [followPass, h.err, hread, hnext, hne, hset, hok, hmerge]
  · exact ((hmem' z).mp hz).elim (hlt z) (hxlt z)
  · rw [hmem', hmem, Set.mem_union, Set.mem_ofPred_eq, hbehind, mem_toNat fun x hx => (hxlt x hx).1]

theorem followLoop_spec (hc : Ready c) (hok : ∀ k, okFollow k = true) {node : ReNodeSet}
    {xs : List Int} (hxs : NodeSet.Holds node xs)
    (htakes : ∀ x ∈ xs, ∃ (q : Nat) (ch : UInt8), x = q ∧ takes loc syn c q ch = true) :
    ∀ (rest pre : List Int) (s : Follows) (S : Set Nat), xs = pre ++ rest → Gathers c s S →
      ∃ t, (List.range' pre.length rest.length).foldlM (followPass okFollow c.nfa node) s = some t ∧
        Gathers c t (S ∪ behindAll c rest)
  | [], pre, s, S, _, hs => ⟨s, rfl, by simpa [behindAll] using hs⟩
  | x :: rest, pre, s, S, heq, hs => by
    obtain ⟨q, ch, rfl, hq⟩ := htakes x (by simp [heq])
    have hread : readCell node.elems pre.length = some (q : Int) := (heq ▸ hxs).read rfl
    obtain ⟨t, hpass, ht⟩ := followPass_spec hc hok hs hread hq
    obtain ⟨u, hrun, hu⟩ :=
      followLoop_spec hc hok hxs htakes rest (pre ++ [(q : Int)]) t _ (by simp [heq]) ht
    rw [List.length_append, List.length_singleton] at hrun
    rw [List.length_cons, List.range'_succ, List.foldlM_cons, hpass]
    refine ⟨u, hrun, ?_⟩
    have hsplit : S ∪ behindAll c ((q : Int) :: rest) =
        S ∪ {p | p ∈ behind c q} ∪ behindAll c rest := by
      ext p
      simp only [behindAll, Set.mem_union, Set.mem_ofPred_eq, List.mem_cons, Nat.cast_inj, or_and_right,
        exists_or, exists_eq_left, or_assoc]
    rwa [hsplit]

/-- The states for all groups. -/
theorem destLoop_spec (hc : Ready c) (hA : ∀ n, A.fails n = false) (hok : ∀ k, okFollow k = true) :
    ∀ (dests : List Dest) (s : Follows) (d : Regex.Dfa),
      (∀ dest ∈ dests, Accepting loc syn c dest.node) → s.err = REG_NOERROR →
      (∃ ys, NodeSet.Holds s.set ys) → d.nodes = regexNodes c → Sound d →
      ∃ d' states, destLoop A okFollow c.nfa dests s d = some (d', some states) ∧ Grows d d' ∧
        Sound d' ∧ List.Forall₂ (fun dest st => st.ch = dest.ch ∧
          Dests d' (behindAll c dest.node.members) st) dests states
  | [], _, d, _, _, _, _, hd => ⟨d, [], rfl, Grows.refl d, hd, .nil⟩
  | dest :: dests, s, d, hdests, herr, ⟨ys, hys⟩, hnodes, hd => by
    obtain ⟨hdest, hdests⟩ := List.forall_mem_cons.mp hdests
    have hempty : Gathers c { s with set := { s.set with nelem := 0 } } ∅ :=
      ⟨herr, [], ⟨List.Pairwise.nil, rfl, hys.alloc, s.set.elems, rfl⟩, by simp, by simp⟩
    obtain ⟨t, hfollow, ht⟩ :=
      followLoop_spec hc hok hdest.holds hdest.takes dest.node.members [] _ ∅ rfl hempty
    obtain ⟨zs, hzs, hlt, hmem⟩ := ht.set
    rw [Set.empty_union] at hmem
    have hpos : ∀ z ∈ zs, 0 ≤ z := fun z hz => (hlt z hz).1
    have hlist : ∀ p, p ∈ nodeList t.set ↔ p ∈ behindAll c dest.node.members := fun p => by
      rw [nodeList_eq hzs, mem_toNat hpos, hmem]
    have hne : nodeList t.set ≠ [] := by
      obtain ⟨x, hx⟩ := List.exists_mem_of_ne_nil _ hdest.nonempty
      obtain ⟨q, ch, rfl, hq⟩ := hdest.takes x hx
      obtain ⟨-, -, xs, -, -, -, -, hnonempty, hbehind, -⟩ := hc.next hq
      obtain ⟨y, hy⟩ := List.exists_mem_of_ne_nil _ hnonempty
      exact List.ne_nil_of_mem ((hlist y.toNat).mpr
        ⟨q, hx, by rw [hbehind]; exact List.mem_map_of_mem hy⟩)
    have hbound : ∀ q ∈ nodeList t.set, q < c.nfa.graph.nodes.length := fun q hq => by
      rw [nodeList_eq hzs, mem_toNat hpos] at hq
      exact Int.ofNat_lt.mp (hlt _ hq).2
    obtain ⟨d₁, st, hacquire, hg, hd₁, hch, hst⟩ := acquireDest_spec hA hnodes hd
      (nodeList_eq hzs ▸ sorted_toNat hpos hzs.sorted) hbound hne dest.ch
    obtain ⟨d₂, states, hrest, hg', hd₂, hstates⟩ :=
      destLoop_spec hc hA hok dests t d₁ hdests ht.err ⟨zs, hzs⟩ (hg.nodes.trans hnodes) hd₁
    refine ⟨d₂, st :: states, ?_, hg.trans hg', hd₂, .cons ⟨hch, ?_⟩ hstates⟩
    · have hcount : dest.node.nelem.toNat = dest.node.members.length := by
        rw [hdest.holds.nelem, Int.toNat_natCast]
      rw [List.length_nil] at hfollow
      rw [destLoop, hcount, List.range_eq_range', hfollow]
      simp [ht.err, hacquire, hrest]
    · have hset : {p | p ∈ nodeList t.set} = behindAll c dest.node.members := Set.ext hlist
      exact hset ▸ hst.grows hg'

/-! ## build_trtable -/

/-- The groups of a state, with their states. -/
theorem leads_entry {nodes : List Nat} {t : Grouping.Groups} {k : Nat}
    (ht : Grouping.Grouped
      (acceptors (c.dfa loc syn) (nodes.map fun (q : Nat) => (q : Int))) k t)
    {states : List DestStates} (hstates : List.Forall₂ (fun dest st => st.ch = dest.ch ∧
      Dests d (behindAll c dest.node.members) st) t.dests states) (ch : UInt8) :
    Leads loc syn c d nodes ch (tableEntry (c.dfa loc syn).wordChar states ch) := by
  unfold tableEntry
  cases hfind : states.find? fun st => bitsetContain st.ch ch.toNat with
  | none =>
    left
    refine ⟨rfl, Set.eq_empty_iff_forall_notMem.mpr ?_⟩
    rintro p ⟨q, hq, htakes, -⟩
    have hlabel : acceptors (c.dfa loc syn) (nodes.map fun (q : Nat) => (q : Int)) ch.toFin ≠ [] :=
      List.ne_nil_of_mem (mem_acceptors.mpr ⟨List.mem_map_of_mem hq, htakes⟩)
    obtain ⟨_, hblock, hch⟩ := ht.fibres.total _ hlabel
    obtain ⟨dest, hdest, rfl⟩ := List.mem_map.mp hblock
    obtain ⟨i, hi⟩ := List.getElem?_of_mem hdest
    obtain ⟨hlt, hget⟩ := List.getElem?_eq_some_iff.mp hi
    obtain ⟨hlen, hall⟩ := List.forall₂_iff_get.mp hstates
    obtain ⟨hset, -⟩ := hall i hlt (hlen ▸ hlt)
    have hnone := List.find?_eq_none.mp hfind _ (List.get_mem states ⟨i, hlen ▸ hlt⟩)
    rw [hset, List.get_eq_getElem, hget] at hnone
    exact hnone hch
  | some st =>
    right
    obtain ⟨i, hi⟩ := List.getElem?_of_mem (List.mem_of_find?_eq_some hfind)
    obtain ⟨hlt, rfl⟩ := List.getElem?_eq_some_iff.mp hi
    obtain ⟨hlen, hall⟩ := List.forall₂_iff_get.mp hstates
    obtain ⟨hset, hdests⟩ := hall i (hlen ▸ hlt) hlt
    have hch : bitsetContain t.dests[i].ch ch.toNat = true := by
      have hfound := List.find?_some hfind
      rwa [show states[i].ch = _ from hset] at hfound
    -- the group has the nodes that accept the character
    have hlabel := ht.fibres.eq_label (List.mem_map_of_mem (List.getElem_mem _)) (x := ch.toFin) hch
    have hfollows : behindAll c t.dests[i].node.members = follows loc syn c nodes ch := by
      ext p
      rw [show t.dests[i].node.members = _ from hlabel.symm]
      constructor
      · rintro ⟨q, hq, hp⟩
        obtain ⟨hq, htakes⟩ := mem_acceptors.mp hq
        obtain ⟨q', hq', heq⟩ := List.mem_map.mp hq
        exact ⟨q, Nat.cast_injective heq ▸ hq', htakes, hp⟩
      · rintro ⟨q, hq, htakes, hp⟩
        exact ⟨q, mem_acceptors.mpr ⟨List.mem_map_of_mem hq, htakes⟩, hp⟩
    have hdests : Dests d (follows loc syn c nodes ch) states[i] := hfollows ▸ hdests
    unfold byteContext
    dsimp only
    split
    · exact hdests.nl
    split
    · exact hdests.word
    · exact hdests.plain

/-- An allocation of something other than a state leaves the states as they are. -/
theorem grows_allocate (d : Regex.Dfa) : Grows d { d with mem := (allocate A d.mem).1 } :=
  ⟨rfl, rfl, fun _ spot h => ⟨spot, h, List.prefix_refl _⟩, Extends.refl _⟩

theorem Sound.allocate (h : Sound d) : Sound { d with mem := (Regex.allocate A d.mem).1 } :=
  ⟨⟨h.table, h.live⟩, fun p st hst => h.sane p st ⟨hst.live, hst.listed⟩,
    fun st hst => h.null st ⟨hst.live, hst.listed⟩⟩

theorem setTable_spec (hA : ∀ n, A.fails n = false) (m : Machine) (p : Nat)
    (entries : UInt8 → Nat) : m.setTable A p entries =
      (⟨{ m.dfa with mem := (allocate A m.dfa.mem).1 },
        Function.update m.trtable p (some entries)⟩, true) := by
  simp [Machine.setTable, allocate, hA]

/-- What is needed of the locale and of the pattern, and that no allocation fails. -/
structure Works (loc : Regcomp.Locale) (c : Compiled) (A : Allocator DfaState)
    (okGroup okFollow : Nat → Bool) : Prop where
  ascii : loc.Ascii
  ready : Ready c
  states : ∀ n, A.fails n = false
  groups : ∀ k, okGroup k = true
  follows : ∀ k, okFollow k = true

variable (syn) in
/-- `build_trtable` makes the table of a state. -/
theorem buildTrtable_spec (hw : Works loc c A okGroup okFollow) {m : Machine}
    (hnodes : m.dfa.nodes = regexNodes c) (hm : Sound m.dfa) {p : Nat} {st : DfaState}
    (hst : IsState m.dfa p st) :
    ∃ m' entries, buildTrtable A okGroup okFollow loc syn c m p = some (m', true) ∧
      Grows m.dfa m'.dfa ∧ Sound m'.dfa ∧
      m'.trtable = Function.update m.trtable p (some entries) ∧
      ∀ ch, Leads loc syn c m'.dfa st.nodes ch (entries ch) := by
  have hsane := hm.sane p st hst
  have hxs := holds_nodeSet hsane.nodes_sorted
  have hlt : ∀ x ∈ st.nodes.map (fun (q : Nat) => (q : Int)),
      0 ≤ x ∧ x < c.nfa.graph.nodes.length := by
    intro x hx
    obtain ⟨q, hq, rfl⟩ := List.mem_map.mp hx
    have hq := hsane.lt q (hsane.nodes_subset hq)
    rw [hnodes, length_regexNodes] at hq
    exact ⟨Int.natCast_nonneg q, Int.ofNat_lt.mpr hq⟩
  have hword : ∀ x ∈ st.nodes.map (fun (q : Nat) => (q : Int)), ∃ node,
      getAt (c.dfa loc syn).nodes x = some node ∧ node.WordCharRight (c.dfa loc syn) :=
    fun x hx => hw.ready.sound.wordCharRight hw.ascii (hlt x hx)
  obtain ⟨t, hgroup, ht, -⟩ | ⟨-, hbig⟩ :=
    Grouping.groupNodesIntoDFAstates_spec hw.groups (le_refl 1) hxs hword
  swap
  · exact absurd (count_le_of_noEmptyBracket hw.ready.noEmptyBracket) (not_le.mpr hbig)
  have haccepting : ∀ dest ∈ t.dests, Accepting loc syn c dest.node := by
    intro dest hdest
    have hblock := List.mem_map_of_mem (f := Dest.block) hdest
    obtain ⟨hne, hfibre⟩ := ht.fibres.fibre _ hblock
    have hnonempty : dest.ch ≠ 0#256 := by
      have hempties := ht.empties
      rw [hw.ready.noEmptyBracket, List.countP_eq_zero] at hempties
      simpa using hempties dest hdest
    obtain ⟨ch, hch⟩ : ∃ ch, ch ∈ dest.ch.chars :=
      Set.nonempty_iff_ne_empty.mpr (mt Bitset.chars_eq_empty.mp hnonempty)
    have hlabel := ht.fibres.eq_label hblock hch
    refine ⟨ht.sets dest hdest, hne, fun x hx => ?_⟩
    rw [show dest.node.members = _ from hlabel.symm] at hx
    obtain ⟨q, hq, rfl⟩ := List.mem_map.mp (List.mem_of_mem_filter hx)
    exact ⟨q, UInt8.ofFin ch, rfl, (@mem_acceptors loc syn c _ (UInt8.ofFin ch) _).mp hx |>.2⟩
  unfold buildTrtable
  simp only [hst.live, hgroup, Option.bind_eq_bind, Option.bind_some]
  cases hdests : t.dests with
  | nil =>
    have hleads : ∀ ch, Leads loc syn c m.dfa _ ch (tableEntry (c.dfa loc syn).wordChar [] ch) :=
      leads_entry ht (by rw [hdests]; exact .nil)
    refine ⟨_, _, congrArg some (setTable_spec hw.states m p fun _ => 0), grows_allocate m.dfa,
      hm.allocate, rfl, fun ch => (hleads ch).grows (grows_allocate m.dfa)⟩
  | cons dest dests =>
    have hsize : (0 : Int) ≤ (dest :: dests).length + 1 := by omega
    obtain ⟨set, halloc, hset, -⟩ := alloc_spec hsize
    obtain ⟨d', states, hloop, hg, hd', hstates⟩ := destLoop_spec hw.ready hw.states hw.follows
      t.dests ⟨set, 1, REG_NOERROR⟩ m.dfa haccepting rfl ⟨_, hset⟩ hnodes hm
    rw [hdests] at hloop
    simp only [hw.follows 0, halloc, ne_eq, not_true_eq_false, if_false, hloop, Option.bind_some]
    have hleads := leads_entry ht hstates
    have hstep := grows_allocate (A := A) d'
    exact ⟨_, _, congrArg some (setTable_spec hw.states { m with dfa := d' } p _),
      hg.trans hstep, hd'.allocate, rfl, fun ch => (hleads ch).grows hstep⟩

/-! ## transit_state -/

/-- More states, and a table of one of them. -/
theorem Cached.grows {m m' : Machine} (h : Cached loc syn c m) (hg : Grows m.dfa m'.dfa)
    (hs : Sound m'.dfa) {p : Nat} {st : DfaState} (hst : IsState m.dfa p st)
    {entries : UInt8 → Nat} (htable : m'.trtable = Function.update m.trtable p (some entries))
    (hleads : ∀ ch, Leads loc syn c m'.dfa st.nodes ch (entries ch)) : Cached loc syn c m' := by
  refine ⟨hg.nodes.trans h.nodes, hs, fun q entries' hq => ?_⟩
  rw [htable] at hq
  by_cases heq : q = p
  · subst heq
    rw [Function.update_self] at hq
    exact ⟨st, hst.grows hg, Option.some.inj hq ▸ hleads⟩
  · rw [Function.update_of_ne heq] at hq
    obtain ⟨st', hst', hold⟩ := h.tables q entries' hq
    exact ⟨st', hst'.grows hg, fun ch => (hold ch).grows hg⟩

/-- The matcher goes to the next state, and makes its table if it has none. -/
theorem transitState_spec (hw : Works loc c A okGroup okFollow) {m : Machine}
    (h : Cached loc syn c m) {s : ReString} {ch : UInt8} (hch : s.mbs[s.curIdx]? = some ch) {p : Nat}
    {st : DfaState} (hst : IsState m.dfa p st) :
    ∃ m' q, transitState A okGroup okFollow loc syn c m s p =
        some (m', { s with curIdx := s.curIdx + 1 }, q, REG_NOERROR) ∧
      Cached loc syn c m' ∧ Grows m.dfa m'.dfa ∧ Leads loc syn c m'.dfa st.nodes ch q := by
  have hfetch : s.fetchByte = some (ch, { s with curIdx := s.curIdx + 1 }) := by
    simp [ReString.fetchByte, hch]
  unfold transitState
  simp only [hfetch, Option.bind_eq_bind, Option.bind_some]
  cases htable : m.trtable p with
  | some entries =>
    obtain ⟨st', hst', hleads⟩ := h.tables p entries htable
    obtain rfl := hst.unique hst'
    exact ⟨m, _, rfl, h, Grows.refl _, hleads ch⟩
  | none =>
    obtain ⟨m', entries, hbuild, hg, hs, hupdate, hleads⟩ :=
      buildTrtable_spec syn hw h.nodes h.sound hst
    have hentry : m'.trtable p = some entries := by rw [hupdate, Function.update_self]
    simp only [hbuild, Option.bind_some, Bool.not_true, Bool.false_eq_true, if_false, hentry]
    exact ⟨m', _, rfl, h.grows hg hs hst hupdate hleads, hg, hleads ch⟩

end Librecompat.Regexec
