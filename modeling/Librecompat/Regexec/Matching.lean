/-
  What `check_matching` finds.

  `reach i j` are the nodes that are reached from `i` to `j`, and `Matches i j` says that the text
  between them is accepted in the contexts that it stands in. At a loop head the current state has
  the nodes that are reached, and the match found so far is the `Best` up to there (`Going`). As
  long as the initial state is the current one, a match from here on is one from the start too
  (`Idle`): this is what `next_start_idx` is for.
-/
import Librecompat.Regexec.Strings
import Librecompat.Regexec.Transitions

namespace Librecompat.Regexec

open Librecompat.Lib Librecompat.NodeSet Librecompat.Regcomp
open Librecompat.Grouping (NEWLINE_CHAR)
open Librecompat.Regex

variable (src : Source) (loc : Regcomp.Locale) (syn : RegSyntax) (c : Compiled)

/-! ## Matches -/

/-- The text from `i` to `j`. -/
def Source.slice (i j : Nat) : List UInt8 := (src.text.drop i).take (j - i)

def reach (i j : Nat) : Set Nat :=
  (automaton loc syn c (src.before i) (src.after j)).eval (src.slice i j)

/-- The text from `i` to `j` is accepted. -/
def Matches (i j : Nat) : Prop :=
  i ≤ j ∧ j ≤ src.text.length ∧
    src.slice i j ∈ (automaton loc syn c (src.before i) (src.after j)).accepts

/-- `last` is the length of the longest match at `i` that ends at `stop` or before it, or else of
    the shortest, and -1 if there is none. -/
def Best (longest : Bool) (i stop : Nat) (last : Int) : Prop :=
  (last = -1 ∧ ∀ j ≤ stop, ¬ Matches src loc syn c i j) ∨
    ∃ j ≤ stop, last = (j : Int) - i ∧ Matches src loc syn c i j ∧
      ∀ j' ≤ stop, Matches src loc syn c i j' → if longest then j' ≤ j else j ≤ j'

/-- From `i` to `j` no more is reached than what a match at `j` starts with. -/
def Idle (i j : Nat) : Prop :=
  reach src loc syn c i j = (automaton loc syn c (src.before j) (src.after j)).start

/-- The nodes behind those that take the character at `j`, whatever their constraints. -/
def targets (i j : Nat) (ch : UInt8) : Set Nat :=
  {p | ∃ q ∈ reach src loc syn c i j, takes loc syn c q ch = true ∧ p ∈ behind c q}

/-- What is needed of the string. -/
structure Searchable : Prop where
  buf : ∀ n, src.okBuf n = true
  caseFree : src.CaseFree
  stop : src.rawStop ≤ src.rawMbs.length
  small : src.rawMbs.length + 1 < BUFS_MAX
  words : src.wordChar = (c.dfa loc syn).wordChar

variable {src loc syn c} {i j : Nat} {longest : Bool}

theorem reach_self : reach src loc syn c i i =
    (automaton loc syn c (src.before i) (src.after i)).start := by
  rw [reach, Source.slice, Nat.sub_self, List.take_zero]
  rfl

theorem slice_succ (hij : i ≤ j) {ch : UInt8} (hch : src.text[j]? = some ch) :
    src.slice i (j + 1) = src.slice i j ++ [ch] := by
  rw [Source.slice, Source.slice, Nat.succ_sub hij, List.take_add_one, List.getElem?_drop,
    Nat.add_sub_cancel' hij, hch]
  rfl

/-- One character more. -/
theorem reach_succ (hij : i ≤ j) {ch : UInt8} (hch : src.text[j]? = some ch) {p : Nat} :
    p ∈ reach src loc syn c i (j + 1) ↔ ∃ q ∈ reach src loc syn c i j,
      takes loc syn c q ch = true ∧ p ∈ behind c q ∧
        allows c (byteContext (c.dfa loc syn).wordChar ch) p = true := by
  rw [reach, slice_succ hij hch, NFA.eval_append_singleton, NFA.mem_stepSet]
  exact Iff.rfl

theorem reach_eq_allowed (hij : i ≤ j) {ch : UInt8} (hch : src.text[j]? = some ch) :
    reach src loc syn c i (j + 1) =
      allowed c (byteContext (c.dfa loc syn).wordChar ch) (targets src loc syn c i j ch) := by
  ext p
  rw [reach_succ hij hch]
  constructor
  · rintro ⟨q, hq, htakes, hp, hallows⟩
    exact ⟨⟨q, hq, htakes, hp⟩, hallows⟩
  · rintro ⟨⟨q, hq, htakes, hp⟩, hallows⟩
    exact ⟨q, hq, htakes, hp, hallows⟩

theorem slice_append {k : Nat} (hij : i ≤ j) (hjk : j ≤ k) :
    src.slice i k = src.slice i j ++ src.slice j k := by
  have hdrop : src.text.drop j = (src.text.drop i).drop (j - i) := by
    rw [List.drop_drop, Nat.add_sub_cancel' hij]
  rw [Source.slice, Source.slice, Source.slice, hdrop, show k - i = (j - i) + (k - j) by omega,
    List.take_add]

theorem matches_iff : Matches src loc syn c i j ↔
    i ≤ j ∧ j ≤ src.text.length ∧ ∃ q ∈ reach src loc syn c i j, ends c (src.after j) q :=
  and_congr_right fun _ => and_congr_right fun _ =>
    ⟨fun ⟨q, hend, hq⟩ => ⟨q, hq, hend⟩, fun ⟨q, hq, hend⟩ => ⟨q, hend, hq⟩⟩

/-- Where nothing is reached, there is nothing behind it. -/
theorem not_matches_of_empty (hempty : reach src loc syn c i j = ∅) (hij : i ≤ j) {k : Nat}
    (hjk : j ≤ k) : ¬ Matches src loc syn c i k := by
  intro hmatch
  obtain ⟨-, -, q, hq, -⟩ := matches_iff.mp hmatch
  have hreach : reach src loc syn c i k = ∅ := by
    rw [reach, slice_append hij hjk, NFA.eval, NFA.evalFrom_append]
    show NFA.evalFrom _ (reach src loc syn c i j) _ = ∅
    rw [hempty]
    induction src.slice j k with
    | nil => rfl
    | cons ch rest ih => rw [NFA.evalFrom_cons, NFA.stepSet_empty, ih]
  rw [hreach] at hq
  exact hq

/-- A match behind an idle place starts at the front too. -/
theorem Idle.matches_iff (h : Idle src loc syn c i j) (hij : i ≤ j) {k : Nat} (hjk : j ≤ k) :
    Matches src loc syn c j k ↔ Matches src loc syn c i k := by
  have hreach : reach src loc syn c i k = reach src loc syn c j k := by
    rw [reach, slice_append hij hjk, NFA.eval, NFA.evalFrom_append]
    show NFA.evalFrom _ (reach src loc syn c i j) _ = _
    rw [show reach src loc syn c i j = _ from h]
    rfl
  rw [Regexec.matches_iff, Regexec.matches_iff, hreach]
  exact and_congr_left fun _ => iff_of_true hjk (hij.trans hjk)

/-! ## The best match -/

/-- Further on there is no match. -/
theorem Best.extend {last : Int} (h : Best src loc syn c longest i j last) {stop : Nat}
    (hle : j ≤ stop) (hnone : ∀ k, j < k → k ≤ stop → ¬ Matches src loc syn c i k) :
    Best src loc syn c longest i stop last := by
  have hup : ∀ k ≤ stop, Matches src loc syn c i k → k ≤ j := fun k hk hmatch =>
    not_lt.mp fun hlt => hnone k hlt hk hmatch
  obtain ⟨hlast, hno⟩ | ⟨k, hk, hlast, hmatch, hbest⟩ := h
  · exact .inl ⟨hlast, fun k hk hmatch => hno k (hup k hk hmatch) hmatch⟩
  · exact .inr ⟨k, hk.trans hle, hlast, hmatch, fun j' hj' h => hbest j' (hup j' hj' h) h⟩

/-- A match is the longest up to where it ends. -/
theorem best_longest (h : Matches src loc syn c i j) : Best src loc syn c true i j ((j : Int) - i) :=
  .inr ⟨j, le_refl j, rfl, h, fun _ hj' _ => hj'⟩

/-- The first match is the shortest. -/
theorem best_shortest (h : Matches src loc syn c i j)
    (hnone : ∀ k < j, ¬ Matches src loc syn c i k) {stop : Nat} (hle : j ≤ stop) :
    Best src loc syn c false i stop ((j : Int) - i) :=
  .inr ⟨j, hle, rfl, h, fun k _ hk => not_lt.mp fun hlt => hnone k hlt hk⟩

/-! ## Halt states -/

theorem ends_iff {context q : Nat} : ends c context q ↔ ∃ token, (regexNodes c)[q]? = some token ∧
    token.type = .endOfRe ∧
    (token.constraint ≠ 0 → notSatisfyNextConstraint token.constraint context = false) := by
  simp [ends, checkHaltNodeContext, or_iff_not_imp_left]

theorem isEnd_of_ends {context q : Nat} (h : ends c context q) :
    isEnd (regexNodes c) q = true := by
  obtain ⟨token, htoken, htype, -⟩ := ends_iff.mp h
  simp [isEnd, htoken, htype]

/-- The loop over the nodes finds one that halts. -/
theorem haltNode_spec {context : Nat} (hzero : ¬ ends c context 0) :
    ∀ {l : List Nat}, (∀ q ∈ l, q < c.nfa.graph.nodes.length) →
      ∃ r, haltNode (regexNodes c) context l = some r ∧ (r ≠ 0 ↔ ∃ q ∈ l, ends c context q)
  | [], _ => ⟨0, rfl, by simp⟩
  | q :: l, hlt => by
    obtain ⟨hq, hl⟩ := List.forall_mem_cons.mp hlt
    have hget := List.getElem?_eq_getElem (by rwa [length_regexNodes] : q < (regexNodes c).length)
    obtain ⟨b, hcheck⟩ : ∃ b, checkHaltNodeContext (regexNodes c) q context = some b := by
      simp [checkHaltNodeContext, hget]
    rw [haltNode, hcheck]
    cases b with
    | true =>
      refine ⟨q, rfl, iff_of_true ?_ ⟨q, List.mem_cons_self, hcheck⟩⟩
      rintro rfl
      exact hzero hcheck
    | false =>
      obtain ⟨r, hrun, hr⟩ := haltNode_spec hzero hl
      refine ⟨r, hrun, hr.trans ?_⟩
      have hno : ¬ ends c context q := by simp [ends, hcheck]
      simp [hno]

/-- Whether the state halts in a context. -/
theorem halts_spec (hc : Ready c) {m : Machine} (hm : Cached loc syn c m) {s : ReString}
    {p before context : Nat} {S : Set Nat} (hmade : Made m.dfa p S before)
    (hcontext : s.contextAt src s.curIdx = some context) :
    ∃ b, halts src m s p = some b ∧
      (b = true ↔ ∃ q ∈ allowed c before S, ends c context q) := by
  obtain ⟨st, hst, -⟩ := id hmade
  have hmem := hmade.mem_nodes hm.nodes hm.sound hst
  have hsane : Sane (regexNodes c) st := hm.nodes ▸ hm.sound.sane p st hst
  have hiff : (∃ q ∈ st.nodes, ends c context q) ↔
      ∃ q ∈ allowed c before S, ends c context q := by
    simp only [hmem]
  unfold halts
  simp only [hst.live, Option.bind_eq_bind, Option.bind_some, ← hiff]
  by_cases hhalt : st.halt = true
  swap
  · refine ⟨false, if_pos (by simpa using hhalt), iff_of_false Bool.false_ne_true ?_⟩
    rintro ⟨q, hq, hend⟩
    rw [hsane.halt] at hhalt
    exact hhalt (List.any_eq_true.mpr ⟨q, hsane.nodes_subset hq, isEnd_of_ends hend⟩)
  simp only [hhalt, Bool.not_true, Bool.false_eq_true, if_false]
  cases hhas : st.hasConstraint with
  | false =>
    refine ⟨true, rfl, iff_of_true rfl ?_⟩
    rw [hsane.halt, List.any_eq_true] at hhalt
    obtain ⟨q, hq, hend⟩ := hhalt
    have hfree : isConstrained (regexNodes c) q = false := by
      rw [hsane.hasConstraint, List.any_eq_false] at hhas
      exact Bool.eq_false_iff.mpr (hhas q hq)
    have hkept : q ∈ st.nodes := by
      rw [hsane.kept, List.mem_filter]
      exact ⟨hq, allows_of_free hfree⟩
    refine ⟨q, hkept, ends_iff.mpr ?_⟩
    rw [isEnd, Option.any_eq_true] at hend
    obtain ⟨token, htoken, htype⟩ := hend
    refine ⟨token, htoken, of_decide_eq_true htype, fun hne => ?_⟩
    simp [isConstrained, htoken, hne] at hfree
  | true =>
    have hzero : ¬ ends c context 0 := by
      intro hend
      have hfree := hc.endNode (isEnd_of_ends hend)
      rw [hsane.hasConstraint, List.any_eq_true] at hhas
      obtain ⟨q, -, hq⟩ := hhas
      rw [hfree q] at hq
      cases hq
    have hlt : ∀ q ∈ st.nodes, q < c.nfa.graph.nodes.length := fun q hq =>
      length_regexNodes ▸ hsane.lt q (hsane.nodes_subset hq)
    obtain ⟨r, hrun, hr⟩ := haltNode_spec hzero hlt
    refine ⟨decide (r ≠ 0), ?_, by rw [decide_eq_true_iff, hr]⟩
    simp [checkHaltStateContext, hcontext, hm.nodes, hrun]

/-! ## The initial state -/

/-- The nodes that a match starts with, in any context. -/
def initSet (c : Compiled) : Set Nat := {p | p ∈ nodeList c.initNodes}

/-- The initial states are made of these nodes. -/
structure Starts (c : Compiled) (d : Regex.Dfa) (init : InitStates) : Prop where
  plain : ∃ st, IsState d init.plain st ∧ st.entrance = nodeList c.initNodes ∧ st.context = 0
  word : Made d init.word (initSet c) CONTEXT_WORD
  nl : Made d init.nl (initSet c) CONTEXT_NEWLINE
  begbuf : Made d init.begbuf (initSet c) (CONTEXT_NEWLINE ||| CONTEXT_BEGBUF)

theorem Starts.grows {d d' : Regex.Dfa} {init : InitStates} (h : Starts c d init)
    (hg : Grows d d') : Starts c d' init := by
  obtain ⟨st, hst, hentrance, hcontext⟩ := h.plain
  exact ⟨⟨st, hst.grows hg, hentrance, hcontext⟩, h.word.grows hg, h.nl.grows hg, h.begbuf.grows hg⟩

theorem charContext_cases (src : Source) (ch : UInt8) : src.charContext ch = 0 ∨
    src.charContext ch = CONTEXT_WORD ∨
      src.charContext ch = CONTEXT_NEWLINE ∧ src.newlineAnchor = true := by
  unfold Source.charContext
  split
  · exact .inr (.inl rfl)
  split
  · next h => exact .inr (.inr ⟨rfl, h.2⟩)
  · exact .inl rfl

/-- The contexts in front of a character. -/
theorem before_cases (src : Source) (i : Nat) : src.before i = 0 ∨ src.before i = CONTEXT_WORD ∨
    src.before i = CONTEXT_NEWLINE ∧ src.newlineAnchor = true ∨ src.before i = CONTEXT_BEGBUF ∨
      src.before i = CONTEXT_NEWLINE ||| CONTEXT_BEGBUF := by
  cases i with
  | zero =>
    simp only [Source.before, Source.beginContext]
    split
    · exact .inr (.inr (.inr (.inl rfl)))
    · exact .inr (.inr (.inr (.inr rfl)))
  | succ i =>
    rw [Source.before]
    cases src.text[i]? with
    | none => exact .inl rfl
    | some ch =>
      obtain h | h | h := charContext_cases src ch
      · exact .inl h
      · exact .inr (.inl h)
      · exact .inr (.inr (.inl h))

theorem nodeList_initNodes (hc : Ready c) : (nodeList c.initNodes).Pairwise (· < ·) ∧
    (∀ q ∈ nodeList c.initNodes, q < c.nfa.graph.nodes.length) ∧ nodeList c.initNodes ≠ [] := by
  obtain ⟨xs, hxs, hlt⟩ := hc.sound.initNodes
  have hpos : ∀ x ∈ xs, 0 ≤ x := fun x hx => (hlt x hx).1
  rw [nodeList_eq hxs]
  refine ⟨sorted_toNat hpos hxs.sorted, fun q hq => ?_, ?_⟩
  · rw [mem_toNat hpos] at hq
    exact Int.ofNat_lt.mp (hlt _ hq).2
  · intro hnil
    have hempty := hc.initNodes
    rw [hxs.nelem, List.map_eq_nil_iff.mp hnil] at hempty
    exact hempty rfl

variable {A : Allocator DfaState} {okGroup okFollow : Nat → Bool}

/-- The state to start with has the initial nodes that the context allows. -/
theorem acquireInitStateContext_spec (hw : Works loc c A okGroup okFollow) {m : Machine}
    (hm : Cached loc syn c m) {init : InitStates} (hinit : Starts c m.dfa init) {s : ReString}
    (hcontext : s.contextAt src (-1) = some (src.before i)) :
    ∃ m' p, acquireInitStateContext src A init m s = some (m', p) ∧ Cached loc syn c m' ∧
      Grows m.dfa m'.dfa ∧ Made m'.dfa p (initSet c) (src.before i) := by
  obtain ⟨st, hst, hentrance, hzero⟩ := hinit.plain
  have hplain : ∀ context, (st.hasConstraint = true → context = 0) →
      Made m.dfa init.plain (initSet c) context := fun context h =>
    ⟨st, hst, fun p => by rw [hentrance]; rfl, fun hhas => hzero.trans (h hhas).symm⟩
  unfold acquireInitStateContext
  simp only [hst.live, Option.bind_eq_bind, Option.bind_some, hcontext]
  cases hhas : st.hasConstraint with
  | false =>
    exact ⟨m, _, rfl, hm, Grows.refl _, hplain _ fun h => absurd (hhas.symm.trans h) (by decide)⟩
  | true =>
    obtain h | h | ⟨h, -⟩ | h | h := before_cases src i
    · rw [h]
      exact ⟨m, _, rfl, hm, Grows.refl _, hplain 0 fun _ => rfl⟩
    · rw [h]
      exact ⟨m, _, rfl, hm, Grows.refl _, hinit.word⟩
    · rw [h]
      exact ⟨m, _, rfl, hm, Grows.refl _, hinit.nl⟩
    · obtain ⟨hsorted, hlt, hne⟩ := nodeList_initNodes hw.ready
      obtain ⟨d', p, st', hrun, hg, hd', hst', hent', hctx'⟩ :=
        acquire_spec hw.states hm.sound hsorted (by rwa [hm.nodes, length_regexNodes]) hne
          (by decide : CONTEXT_BEGBUF < 2 ^ 4) REG_NOERROR
      rw [h, hentrance, hrun]
      exact ⟨{ m with dfa := d' }, p, rfl, ⟨hg.nodes.trans hm.nodes, hd', fun q entries hq =>
          let ⟨st₀, hst₀, hleads⟩ := hm.tables q entries hq
          ⟨st₀, hst₀.grows hg, fun ch => (hleads ch).grows hg⟩⟩, hg,
        st', hst', fun p => by rw [hent']; rfl, fun _ => hctx'⟩
    · rw [h]
      exact ⟨m, _, rfl, hm, Grows.refl _, hinit.begbuf⟩

/-! ## Idle places -/

/-- A newline is not a word character. -/
theorem not_contain_newline (loc : Regcomp.Locale) (syn : RegSyntax) (c : Compiled) :
    bitsetContain (c.dfa loc syn).wordChar NEWLINE_CHAR = false := by
  simp only [Compiled.dfa]
  split
  · have hascii := contain_asciiWords ⟨NEWLINE_CHAR, by decide⟩
    have hall := contain_setAll (fun ch => loc.isWordChar (UInt8.ofNat ch)) ⟨NEWLINE_CHAR, by decide⟩
      (List.range' 128 128) asciiWords
    have hout : decide (NEWLINE_CHAR ∈ List.range' 128 128) = false := by decide
    dsimp only at hascii hall
    rw [hascii, hout, Bool.false_and, Bool.or_false] at hall
    exact hall.trans (by decide)
  · exact bitsetContain_zero _

/-- Where a state comes back to the initial context, the string has that context too. -/
theorem charContext_eq (hs : Searchable src loc syn c) {ch : UInt8}
    (h : src.before i = byteContext (c.dfa loc syn).wordChar ch) :
    src.charContext ch = byteContext (c.dfa loc syn).wordChar ch := by
  unfold byteContext at h ⊢
  rw [Source.charContext, hs.words]
  by_cases hnl : ch.toNat = NEWLINE_CHAR
  · have hanchor : src.newlineAnchor = true := by
      rw [if_pos hnl] at h
      obtain h' | h' | ⟨-, h'⟩ | h' | h' := before_cases src i
      · exact absurd (h'.symm.trans h) (by decide)
      · exact absurd (h'.symm.trans h) (by decide)
      · exact h'
      · exact absurd (h'.symm.trans h) (by decide)
      · exact absurd (h'.symm.trans h) (by decide)
    simp [hnl, not_contain_newline, hanchor]
  · simp [hnl]

variable (src loc syn c) in
/-- The character at `i` leads back to the state that a match at `i` starts in. -/
def Loops (i : Nat) : Prop :=
  ∃ ch, src.text[i]? = some ch ∧ targets src loc syn c i i ch = initSet c ∧
    (src.before i = byteContext (c.dfa loc syn).wordChar ch ∨
      ∀ q ∈ initSet c, isConstrained (regexNodes c) q = false)

/-- Where the states are the same, so are their nodes, and the contexts if there are constraints. -/
theorem made_eq {d : Regex.Dfa} (hnodes : d.nodes = regexNodes c) (hd : Sound d)
    {p context context' : Nat} {S S' : Set Nat} (h : Made d p S context)
    (h' : Made d p S' context') :
    S' = S ∧ (context = context' ∨ ∀ q ∈ S, isConstrained (regexNodes c) q = false) := by
  obtain ⟨st, hst, hS, hcontext⟩ := h
  obtain ⟨st', hst', hS', hcontext'⟩ := h'
  obtain rfl := hst.unique hst'
  refine ⟨Set.ext fun q => (hS' q).symm.trans (hS q), ?_⟩
  by_cases hhas : st.hasConstraint = true
  · exact .inl ((hcontext hhas).symm.trans (hcontext' hhas))
  · right
    have hsane : Sane (regexNodes c) st := hnodes ▸ hd.sane p st hst
    rw [hsane.hasConstraint, Bool.not_eq_true, List.any_eq_false] at hhas
    intro q hq
    exact Bool.eq_false_iff.mpr (hhas q ((hS q).mpr hq))

/-- Without constraints the context does not matter. -/
theorem allowed_of_free {S : Set Nat} (h : ∀ q ∈ S, isConstrained (regexNodes c) q = false)
    (context : Nat) : allowed c context S = S :=
  Set.ext fun q => and_iff_left_of_imp fun hq => allows_of_free (h q hq)

/-- The initial nodes again, with their context. -/
theorem idle_of_targets (hs : Searchable src loc syn c) {ch : UInt8} (hij : i ≤ j)
    (hch : src.text[j]? = some ch) (htargets : targets src loc syn c i j ch = initSet c)
    (hcontext : src.before i = byteContext (c.dfa loc syn).wordChar ch ∨
      ∀ q ∈ initSet c, isConstrained (regexNodes c) q = false) :
    Idle src loc syn c i (j + 1) := by
  rw [Idle, reach_eq_allowed hij hch, htargets]
  change _ = allowed c (src.before (j + 1)) (initSet c)
  obtain heq | hfree := hcontext
  · rw [before_succ hch, charContext_eq hs heq]
  · rw [allowed_of_free hfree, allowed_of_free hfree]

theorem Loops.idle (hs : Searchable src loc syn c) (h : Loops src loc syn c i) :
    Idle src loc syn c i (i + 1) := by
  obtain ⟨ch, hch, htargets, hcontext⟩ := h
  exact idle_of_targets hs (le_refl i) hch htargets hcontext

/-! ## The loop -/

variable (src loc syn c) in
/-- At the loop head, for a match that starts at `i`; the table was that of `m₀`. -/
structure Going (longest skips : Bool) (i : Nat) (m₀ : Machine) (s : Matching) : Prop where
  cached : Cached loc syn c s.machine
  grows : Grows m₀.dfa s.machine.dfa
  at' : At src s.input i
  room : s.input.curIdx < s.input.mbs.length ∨ (s.input.curIdx : Int) = s.input.len
  le : i + s.input.curIdx ≤ max i src.rawStop.toNat
  state : ∃ S context, Made s.machine.dfa s.curState S context ∧
    allowed c context S = reach src loc syn c i (i + s.input.curIdx)
  best : Best src loc syn c longest i (i + s.input.curIdx) s.matchLast
  none : longest = false → s.matchLast = -1
  idle : ∀ k ≤ s.nextStartIdx, Idle src loc syn c i (i + k)
  loops : 0 < s.nextStartIdx → Loops src loc syn c i
  nextLe : s.nextStartIdx ≤ s.input.curIdx
  init : s.atInitState = true → Made s.machine.dfa s.curState (initSet c) (src.before i) ∧
    s.nextStartIdx = s.input.curIdx
  skips : 0 < s.matchLast ∨ skips = false → s.skips = false

variable (src loc syn c) in
/-- What `check_matching` leaves. -/
structure Finds (longest skips : Bool) (i : Nat) (m : Machine) (r : Matched) : Prop where
  cached : Cached loc syn c r.machine
  grows : Grows m.dfa r.machine.dfa
  at' : At src r.input i
  best : Best src loc syn c longest i (max i src.rawStop.toNat) r.matchLast
  idle : ∀ k ≤ r.advance, Idle src loc syn c i (i + k)
  loops : 0 < r.advance → Loops src loc syn c i
  le : i + r.advance ≤ max i src.rawStop.toNat
  advance : 0 < r.matchLast ∨ skips = false → r.advance = 0

variable {skips : Bool} {m₀ : Machine} {s : Matching}

theorem idle_self : Idle src loc syn c i i := reach_self

/-- The loop ends here. -/
theorem Going.finds (h : Going src loc syn c longest skips i m₀ s) {m : Machine}
    {input : ReString} (hm : Cached loc syn c m) (hg : Grows s.machine.dfa m.dfa)
    (hat : At src input i)
    (hbest : Best src loc syn c longest i (max i src.rawStop.toNat) s.matchLast) :
    Finds src loc syn c longest skips i m₀ (Matching.finish { s with machine := m, input := input }) :=
    by
  have hle := h.le
  have hnext := h.nextLe
  refine ⟨hm, h.grows.trans hg, hat, hbest, ?_, ?_, ?_, ?_⟩
  · unfold Matching.finish
    dsimp only
    split
    · exact h.idle
    · intro k hk
      rw [Nat.le_zero.mp hk]
      exact idle_self
  · unfold Matching.finish
    dsimp only
    split
    · exact h.loops
    · exact fun h0 => absurd h0 (Nat.lt_irrefl 0)
  · unfold Matching.finish
    dsimp only
    split
    · omega
    · omega
  · intro hcase
    simp [Matching.finish, h.skips hcase]

/-- One character further; of the match only what is known there is needed. -/
theorem Going.arrived (hs : Searchable src loc syn c)
    (h : Going src loc syn c longest skips i m₀ s) {m : Machine} {input : ReString} {q : Nat}
    {ch : UInt8} (hm : Cached loc syn c m) (hg : Grows s.machine.dfa m.dfa)
    (hat : At src input i) (hcur : input.curIdx = s.input.curIdx + 1)
    (hroom : input.curIdx < input.mbs.length ∨ (input.curIdx : Int) = input.len)
    (hlt : i + s.input.curIdx < src.rawStop.toNat) (hch : src.text[i + s.input.curIdx]? = some ch)
    (hmade : Made m.dfa q (targets src loc syn c i (i + s.input.curIdx) ch)
      (byteContext (c.dfa loc syn).wordChar ch))
    {found sk : Bool} {last : Int}
    (hbest : Best src loc syn c longest i (i + (s.input.curIdx + 1)) last)
    (hnone : longest = false → last = -1) (hskips : 0 < last ∨ skips = false → sk = false) :
    Going src loc syn c longest skips i m₀ {
      machine := m
      input := input
      curState := q
      found := found
      matchLast := last
      atInitState := s.atInitState && s.curState = q
      nextStartIdx :=
        if (s.atInitState && s.curState = q) = true then s.input.curIdx + 1 else s.nextStartIdx
      skips := sk } := by
  have hnext := h.nextLe
  have hinit : (s.atInitState && decide (s.curState = q)) = true →
      Made m.dfa q (initSet c) (src.before i) ∧ s.nextStartIdx = s.input.curIdx := by
    intro hstays
    rw [Bool.and_eq_true, decide_eq_true_iff] at hstays
    obtain ⟨hfirst, hidx⟩ := h.init hstays.1
    exact ⟨hstays.2 ▸ hfirst.grows hg, hidx⟩
  -- the state is the initial one again
  have hsame : (s.atInitState && decide (s.curState = q)) = true →
      targets src loc syn c i (i + s.input.curIdx) ch = initSet c ∧
      (src.before i = byteContext (c.dfa loc syn).wordChar ch ∨
        ∀ q ∈ initSet c, isConstrained (regexNodes c) q = false) :=
    fun hstays => made_eq hm.nodes hm.sound (hinit hstays).1 hmade
  refine ⟨hm, h.grows.trans hg, hat, hroom, ?_, ⟨_, _, hmade, ?_⟩, ?_, hnone, ?_, ?_, ?_, ?_,
    hskips⟩
  · simp only [hcur]
    omega
  · simp only [hcur]
    exact (reach_eq_allowed (Nat.le_add_right i _) hch).symm
  · simp only [hcur]
    exact hbest
  · intro k hk
    dsimp only at hk
    split at hk
    · next hstays =>
      obtain ⟨hfirst, hidx⟩ := hinit hstays
      obtain hk | rfl := Nat.lt_or_eq_of_le hk
      · exact h.idle k (by omega)
      · exact idle_of_targets hs (Nat.le_add_right i _) hch (hsame hstays).1 (hsame hstays).2
    · exact h.idle k hk
  · intro hpos
    dsimp only at hpos
    split at hpos
    · next hstays =>
      by_cases hzero : s.input.curIdx = 0
      · obtain ⟨htargets, hcontext⟩ := hsame hstays
        rw [hzero, Nat.add_zero] at hch htargets
        exact ⟨ch, hch, htargets, hcontext⟩
      · refine h.loops ?_
        rw [(hinit hstays).2]
        exact Nat.pos_of_ne_zero hzero
    · exact h.loops hpos
  · simp only [hcur]
    split
    · exact le_refl _
    · omega
  · intro hstays
    refine ⟨(hinit hstays).1, ?_⟩
    simp only [hcur]
    exact if_pos hstays

/-- Without a match at the next place nothing changes. -/
theorem Best.next {last : Int} (h : Best src loc syn c longest i j last)
    (hno : ¬ Matches src loc syn c i (j + 1)) : Best src loc syn c longest i (j + 1) last := by
  refine h.extend (Nat.le_succ j) fun k hlt hle => ?_
  rw [show k = j + 1 by omega]
  exact hno

/-- Behind a transition to a state. -/
theorem arrive_spec (hw : Works loc c A okGroup okFollow) (hs : Searchable src loc syn c)
    (h : Going src loc syn c longest skips i m₀ s) {m : Machine} {input : ReString} {q : Nat}
    {ch : UInt8} (hm : Cached loc syn c m) (hg : Grows s.machine.dfa m.dfa)
    (hat : At src input i) (hcur : input.curIdx = s.input.curIdx + 1)
    (hroom : input.curIdx < input.mbs.length ∨ (input.curIdx : Int) = input.len)
    (hlt : i + s.input.curIdx < src.rawStop.toNat) (hch : src.text[i + s.input.curIdx]? = some ch)
    (hmade : Made m.dfa q (targets src loc syn c i (i + s.input.curIdx) ch)
      (byteContext (c.dfa loc syn).wordChar ch)) :
    (∃ s', s.arrive src longest m input q = some (.inl s') ∧ s'.input = input ∧
      Going src loc syn c longest skips i m₀ s') ∨
    ∃ r, s.arrive src longest m input q = some (.inr r) ∧
      Finds src loc syn c longest skips i m₀ r := by
  have hlen : i + (s.input.curIdx + 1) ≤ src.text.length := by
    have := (List.getElem?_eq_some_iff.mp hch).1
    omega
  obtain ⟨b, hhalts, hb⟩ := halts_spec hw.ready hm hmade (hat.contextAt hroom)
  rw [hcur, ← reach_eq_allowed (Nat.le_add_right i _) hch, Nat.add_assoc] at hb
  have hiff : b = true ↔ Matches src loc syn c i (i + (s.input.curIdx + 1)) := by
    rw [hb, matches_iff]
    exact ⟨fun hend => ⟨Nat.le_add_right _ _, hlen, hend⟩, fun hmatch => hmatch.2.2⟩
  unfold Matching.arrive
  simp only [hhalts, Option.bind_eq_bind, Option.bind_some]
  cases b with
  | false =>
    left
    have hno : ¬ Matches src loc syn c i (i + (s.input.curIdx + 1)) := by simp [← hiff]
    refine ⟨_, rfl, rfl, ?_⟩
    exact h.arrived hs hm hg hat hcur hroom hlt hch hmade (h.best.next hno) h.none h.skips
  | true =>
    have hmatch := hiff.mp rfl
    have hlast : (input.curIdx : Int) = ((i + (s.input.curIdx + 1) : Nat) : Int) - i := by
      rw [hcur]
      omega
    cases longest with
    | true =>
      left
      refine ⟨_, rfl, rfl, ?_⟩
      exact h.arrived hs hm hg hat hcur hroom hlt hch hmade
        (hlast ▸ best_longest hmatch) (by simp) fun _ => rfl
    | false =>
      right
      refine ⟨_, rfl, hm, h.grows.trans hg, hat, ?_, ?_, fun h0 => absurd h0 (Nat.lt_irrefl 0), ?_,
        fun _ => rfl⟩
      · obtain ⟨-, hnone⟩ | ⟨j, -, hj, hmatch', -⟩ := h.best
        · show Best src loc syn c false i _ input.curIdx
          rw [hlast]
          refine best_shortest hmatch (fun k hk => hnone k (by omega)) ?_
          omega
        · have hminus := h.none rfl
          have := hmatch'.1
          omega
      · intro k hk
        rw [Nat.le_zero.mp hk]
        exact idle_self
      · show i + 0 ≤ _
        omega

/-- The buffer is extended. -/
theorem Going.withInput (h : Going src loc syn c longest skips i m₀ s) {input : ReString}
    (hat : At src input i) (hcur : input.curIdx = s.input.curIdx)
    (hroom : input.curIdx < input.mbs.length ∨ (input.curIdx : Int) = input.len) :
    Going src loc syn c longest skips i m₀ { s with input := input } := by
  have hle := h.le
  have hstate := h.state
  have hbest := h.best
  have hnext := h.nextLe
  have hinit := h.init
  rw [← hcur] at hle hstate hbest hnext hinit
  exact ⟨h.cached, h.grows, hat, hroom, hle, hstate, hbest, h.none, h.idle, h.loops, hnext, hinit,
    h.skips⟩

/-- A pass of the loop. -/
theorem matchPass_spec (hw : Works loc c A okGroup okFollow) (hs : Searchable src loc syn c)
    (h : Going src loc syn c longest skips i m₀ s) :
    (∃ s', matchPass src A okGroup okFollow loc syn c longest s = some (.inl s') ∧
      Going src loc syn c longest skips i m₀ s' ∧
      (s'.input.stop - s'.input.curIdx).toNat < (s.input.stop - s.input.curIdx).toNat) ∨
    ∃ r, matchPass src A okGroup okFollow loc syn c longest s = some (.inr r) ∧
      Finds src loc syn c longest skips i m₀ r := by
  have hstop := h.at'.stop
  have hlens := h.at'.len
  have hle := h.le
  have hstop' := hs.stop
  unfold matchPass
  by_cases heoi : s.input.eoi = true
  · right
    have hend : i + s.input.curIdx = max i src.rawStop.toNat := by
      have := of_decide_eq_true heoi
      omega
    refine ⟨_, if_pos heoi, ?_⟩
    exact h.finds h.cached (Grows.refl _) h.at' (hend ▸ h.best)
  have hmore : s.input.curIdx < s.input.stop := not_le.mp fun hstop => heoi (decide_eq_true hstop)
  have hcur : s.input.curIdx < s.input.mbs.length := h.room.resolve_right (by omega)
  obtain ⟨input, hroomFor, hat, hsame, hbyte, hroom⟩ := roomFor_spec h.at' hs.buf hs.small hcur
  have hgoing := h.withInput hat hsame (.inl hbyte)
  have hlt : i + input.curIdx < src.rawStop.toNat := by omega
  have hlen : i + input.curIdx < src.text.length := by
    rw [length_text]
    omega
  obtain ⟨ch, hch⟩ : ∃ ch, src.text[i + input.curIdx]? = some ch :=
    ⟨_, List.getElem?_eq_getElem hlen⟩
  obtain ⟨S, context, hmade, hreach⟩ := hgoing.state
  obtain ⟨st, hst, -⟩ := id hmade
  have hmem := hmade.mem_nodes hgoing.cached.nodes hgoing.cached.sound hst
  obtain ⟨m, q, htransit, hm, hg, hleads⟩ :=
    transitState_spec hw hgoing.cached ((hat.get hbyte).trans hch) hst
  have hfollows : follows loc syn c st.nodes ch =
      targets src loc syn c i (i + input.curIdx) ch := by
    ext p
    refine exists_congr fun q => and_congr_left fun _ => ?_
    rw [hmem, hreach]
  rw [Leads, hfollows] at hleads
  have hmoved : At src { input with curIdx := input.curIdx + 1 } i := hat.atIdx _
  have hrun : matchPass src A okGroup okFollow loc syn c longest s =
      if q = 0 then some (.inr (Matching.finish
        { s with machine := m, input := { input with curIdx := input.curIdx + 1 } }))
      else Matching.arrive src longest { s with input := input } m
        { input with curIdx := input.curIdx + 1 } q := by
    unfold matchPass
    simp [heoi, hroomFor, htransit]
  unfold matchPass at hrun
  rw [hrun]
  obtain ⟨rfl, hempty⟩ | hmade' := hleads
  · right
    have hdead : reach src loc syn c i (i + input.curIdx + 1) = ∅ := by
      rw [reach_eq_allowed (Nat.le_add_right i _) hch, hempty]
      exact Set.eq_empty_iff_forall_notMem.mpr fun p hp => hp.1
    have hbest : Best src loc syn c longest i (i + input.curIdx) s.matchLast := hgoing.best
    refine ⟨_, if_pos rfl, hgoing.finds hm hg hmoved (hbest.extend (by omega) fun k hk _ => ?_)⟩
    exact not_matches_of_empty hdead (by omega) (by omega)
  · have hne : q ≠ 0 := by
      obtain ⟨st', hst', -⟩ := id hmade'
      exact hm.sound.ne_null hst'
    rw [if_neg hne]
    obtain ⟨s', harrive, hinput, hgoing'⟩ | hfinds := arrive_spec hw hs hgoing hm hg hmoved rfl
      (hroom.imp id fun h => by push_cast; exact h) hlt hch hmade'
    · left
      refine ⟨s', harrive, hgoing', ?_⟩
      have hstop₂ := hat.stop
      rw [hinput]
      simp only
      omega
    · exact .inr hfinds

/-! ## check_matching -/

/-- `check_matching` finds the longest or the shortest match at the start of the string, whatever
    states and tables there are already. -/
theorem checkMatching_spec (hw : Works loc c A okGroup okFollow) (hs : Searchable src loc syn c)
    {m : Machine} (hm : Cached loc syn c m) {init : InitStates} (hinit : Starts c m.dfa init)
    {input : ReString} (hat : At src input i) (hcur : input.curIdx = 0) (longest skips : Bool) :
    ∃ r, checkMatching src A okGroup okFollow loc syn c init longest skips m input = some r ∧
      Finds src loc syn c longest skips i m r := by
  obtain ⟨m', p, hacquire, hm', hg, hmade⟩ :=
    acquireInitStateContext_spec hw hm hinit hat.contextBegin
  have hne : p ≠ 0 := by
    obtain ⟨st, hst, -⟩ := id hmade
    exact hm'.sound.ne_null hst
  have hlens := hat.len
  have hpos := hat.pos
  have hlei := hat.le
  have hroom : input.curIdx < input.mbs.length ∨ (input.curIdx : Int) = input.len := by
    have hbuilt := hat.built
    split at hbuilt
    · omega
    · omega
  obtain ⟨b, hhalts, hb⟩ := halts_spec hw.ready hm' hmade (hat.contextAt hroom)
  have hstart : allowed c (src.before i) (initSet c) = reach src loc syn c i i := reach_self.symm
  rw [hcur, Nat.add_zero, hstart] at hb
  have hiff : b = true ↔ Matches src loc syn c i i := by
    rw [hb, matches_iff]
    refine ⟨fun hend => ⟨le_refl i, ?_, hend⟩, fun hmatch => hmatch.2.2⟩
    rwa [length_text]
  have hzero : ((i : Int) - i) = input.curIdx := by
    rw [hcur]
    omega
  unfold checkMatching
  simp only [hacquire, Option.bind_eq_bind, Option.bind_some, if_neg hne, hhalts]
  by_cases hshort : (b && !longest) = true
  · rw [if_pos hshort]
    rw [Bool.and_eq_true, Bool.not_eq_true'] at hshort
    obtain ⟨rfl, rfl⟩ := hshort
    refine ⟨_, rfl, hm', hg, hat, ?_, fun k hk => ?_, fun h0 => absurd h0 (Nat.lt_irrefl 0), ?_,
      fun _ => rfl⟩
    · rw [← hzero]
      exact best_shortest (hiff.mp rfl) (fun k hk hmatch => absurd hmatch.1 (not_le.mpr hk))
        (le_max_left _ _)
    · rw [Nat.le_zero.mp hk]
      exact idle_self
    · exact le_max_left _ _
  · rw [if_neg hshort]
    refine tryLoop_total (I := Going src loc syn c longest skips i m)
      (fun s => (s.input.stop - s.input.curIdx).toNat) (fun s h => matchPass_spec hw hs h) ?_
      (Nat.lt_succ_self _)
    have hbest : Best src loc syn c longest i i (if b then (input.curIdx : Int) else -1) := by
      cases b with
      | true =>
        obtain rfl : longest = true := by simpa using hshort
        rw [if_pos rfl, ← hzero]
        exact best_longest (hiff.mp rfl)
      | false =>
        refine .inl ⟨rfl, fun j hj hmatch => ?_⟩
        obtain rfl := Nat.le_antisymm hj hmatch.1
        exact Bool.false_ne_true (hiff.mpr hmatch)
    refine ⟨hm', hg, hat, hroom, ?_, ⟨_, _, hmade, ?_⟩, ?_, ?_, ?_, fun hpos => ?_, ?_, ?_, ?_⟩
    · simp [hcur]
    · rw [hstart, hcur, Nat.add_zero]
    · show Best src loc syn c longest i (i + input.curIdx) _
      rwa [show i + input.curIdx = i by omega]
    · rintro rfl
      cases b with
      | true => exact absurd rfl hshort
      | false => rfl
    · intro k hk
      rw [hcur] at hk
      rw [Nat.le_zero.mp hk]
      exact idle_self
    · rw [hcur] at hpos
      exact absurd hpos (Nat.lt_irrefl 0)
    · exact le_refl _
    · exact fun _ => ⟨hmade, rfl⟩
    · rintro (hlast | hskips)
      · rw [hcur] at hlast
        split at hlast
        · simp at hlast
        · simp at hlast
      · exact hskips

end Librecompat.Regexec
