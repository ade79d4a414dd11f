/-
  The initial states, and what the fastmap made of them covers.

  An initial state is made for each context in front of a match but the start of a buffer that is
  not that of a line; what starts there starts at the begin of a line too (`covered`). The fastmap
  has every character that a node of an initial state takes, and with upper case in the pattern the
  lower case too (`reCompileFastmap_spec`): so a match starts with a character in the fastmap
  (`Covers.mayStart`), if the lower case of a character's upper case is the character.
-/
import Librecompat.Regexec.Matching

namespace Librecompat.Regexec

open Librecompat.Lib Librecompat.NodeSet Librecompat.Regcomp
open Librecompat.Regex

variable {loc : Regcomp.Locale} {syn : RegSyntax} {c : Compiled} {A : Allocator DfaState}

/-! ## create_initial_state -/

/-- The table is sound as long as there are no states. -/
theorem sound_initDfa (c : Compiled) (patLen : Nat) : Sound (initDfa c patLen) := by
  have hnone : ∀ spot ∈ (initDfa c patLen).stateTable, spot.array = [] := fun spot hspot => by
    rw [(List.mem_replicate.mp hspot).2]
  refine ⟨⟨?_, fun spot hspot p hp => ?_⟩, fun p st hst => ?_, fun st hst => ?_⟩
  · have hpos := Nat.two_pow_pos patLen.size
    simp only [initDfa, List.length_replicate]
    omega
  · rw [hnone spot hspot] at hp
    cases hp
  · obtain ⟨spot, hspot, hp⟩ := hst.listed
    rw [hnone spot hspot] at hp
    cases hp
  · obtain ⟨spot, hspot, hp⟩ := hst.listed
    rw [hnone spot hspot] at hp
    cases hp

/-- The initial states. -/
theorem acquireInitStates_spec (hA : ∀ n, A.fails n = false) (hc : Ready c) (patLen : Nat) :
    ∃ d init, acquireInitStates A (nodeList c.initNodes) (initDfa c patLen) = some (d, .ok init) ∧
      Cached loc syn c ⟨d, fun _ => none⟩ ∧ Starts c d init := by
  obtain ⟨hsorted, hlt, hne⟩ := nodeList_initNodes hc
  have hlt' : ∀ {d : Regex.Dfa}, d.nodes = regexNodes c →
      ∀ q ∈ nodeList c.initNodes, q < d.nodes.length := by
    intro d hd q hq
    rw [hd, length_regexNodes]
    exact hlt q hq
  have hset : ∀ {st : DfaState}, st.entrance = nodeList c.initNodes →
      ∀ p, p ∈ st.entrance ↔ p ∈ initSet c := fun h p => by rw [h]; exact Iff.rfl
  obtain ⟨d₁, plain, st₁, hrun₁, hg₁, hs₁, hst₁, hent₁, hctx₁⟩ := acquire_spec hA
    (sound_initDfa c patLen) hsorted (hlt' rfl) hne (by decide : 0 < 2 ^ 4) REG_NOERROR
  unfold acquireInitStates
  simp only [hrun₁, Option.bind_eq_bind, Option.bind_some, hst₁.live, if_neg (hs₁.ne_null hst₁)]
  by_cases hhas : st₁.hasConstraint = true
  · obtain ⟨d₂, word, st₂, hrun₂, hg₂, hs₂, hst₂, hent₂, hctx₂⟩ := acquire_spec hA hs₁ hsorted
      (hlt' hg₁.nodes) hne (by decide : CONTEXT_WORD < 2 ^ 4) REG_NOERROR
    obtain ⟨d₃, nl, st₃, hrun₃, hg₃, hs₃, hst₃, hent₃, hctx₃⟩ := acquire_spec hA hs₂ hsorted
      (hlt' (hg₁.trans hg₂).nodes) hne (by decide : CONTEXT_NEWLINE < 2 ^ 4) REG_NOERROR
    obtain ⟨d₄, begbuf, st₄, hrun₄, hg₄, hs₄, hst₄, hent₄, hctx₄⟩ := acquire_spec hA hs₃ hsorted
      (hlt' ((hg₁.trans hg₂).trans hg₃).nodes) hne
      (by decide : CONTEXT_NEWLINE ||| CONTEXT_BEGBUF < 2 ^ 4) REG_NOERROR
    simp only [if_pos hhas, hrun₂, hrun₃, hrun₄, Option.bind_some, hs₂.ne_null hst₂,
      hs₃.ne_null hst₃, hs₄.ne_null hst₄, or_self, if_false]
    have hg₃₄ := hg₃.trans hg₄
    refine ⟨d₄, _, rfl, ⟨((hg₁.trans hg₂).trans hg₃₄).nodes, hs₄, by simp⟩, ?_, ?_, ?_, ?_⟩
    · exact ⟨st₁, hst₁.grows (hg₂.trans hg₃₄), hent₁, hctx₁⟩
    · exact Made.grows ⟨st₂, hst₂, hset hent₂, fun _ => hctx₂⟩ hg₃₄
    · exact Made.grows ⟨st₃, hst₃, hset hent₃, fun _ => hctx₃⟩ hg₄
    · exact ⟨st₄, hst₄, hset hent₄, fun _ => hctx₄⟩
  · have hany : ∀ context, Made d₁ plain (initSet c) context := fun context =>
      ⟨st₁, hst₁, hset hent₁, fun h => absurd h hhas⟩
    simp only [if_neg hhas]
    exact ⟨d₁, _, rfl, ⟨hg₁.nodes, hs₁, by simp⟩, ⟨st₁, hst₁, hent₁, hctx₁⟩, hany _, hany _, hany _⟩

/-! ## re_compile_fastmap -/

variable {tolower : UInt8 → UInt8} {icase : Bool}

/-- The fastmap has what the node takes, and says if it is the end or has all characters. -/
structure Fast (tolower : UInt8 → UInt8) (icase : Bool) (token : Grouping.Token)
    (dfa : Grouping.Dfa) (s : Fastmap) : Prop where
  chars : ∀ ch : UInt8, token.has dfa ch.toFin = true →
    s.map ch = true ∧ (icase = true → s.map (tolower ch) = true)
  isEnd : token.type = .endOfRe → s.canBeNull = true ∨ ∀ ch, s.map ch = true

/-- A fastmap with more characters. -/
structure Fastmap.Le (s t : Fastmap) : Prop where
  map : ∀ ch, s.map ch = true → t.map ch = true
  canBeNull : s.canBeNull = true → t.canBeNull = true

theorem Fastmap.Le.refl (s : Fastmap) : s.Le s := ⟨fun _ h => h, id⟩

theorem Fastmap.Le.trans {s t u : Fastmap} (h : s.Le t) (h' : t.Le u) : s.Le u :=
  ⟨fun ch hch => h'.map ch (h.map ch hch), fun hnull => h'.canBeNull (h.canBeNull hnull)⟩

theorem Fast.mono {token : Grouping.Token} {dfa : Grouping.Dfa} {s t : Fastmap}
    (h : Fast tolower icase token dfa s) (hle : s.Le t) : Fast tolower icase token dfa t :=
  ⟨fun ch hch => ⟨hle.map _ (h.chars ch hch).1, fun hi => hle.map _ ((h.chars ch hch).2 hi)⟩,
    fun hend => (h.isEnd hend).imp hle.canBeNull fun hall ch => hle.map ch (hall ch)⟩

theorem reSetFastmap_of_mem (tolower : UInt8 → UInt8) (icase : Bool) {map : UInt8 → Bool}
    (ch : UInt8) {ch' : UInt8} (h : map ch' = true) :
    reSetFastmap tolower icase map ch ch' = true := by
  unfold reSetFastmap
  split
  · simp only [Function.update_apply, h]
    split
    · rfl
    · exact ite_self true
  · simp only [Function.update_apply, h, ite_self]

theorem reSetFastmap_self (tolower : UInt8 → UInt8) (icase : Bool) (map : UInt8 → Bool)
    (ch : UInt8) : reSetFastmap tolower icase map ch ch = true ∧
      (icase = true → reSetFastmap tolower icase map ch (tolower ch) = true) := by
  unfold reSetFastmap
  split
  · next h =>
    refine ⟨?_, fun _ => Function.update_self ..⟩
    rw [Function.update_apply]
    split
    · rfl
    · exact Function.update_self ..
  · next h => exact ⟨Function.update_self .., fun h' => absurd h' h⟩

theorem setBracket_spec (tolower : UInt8 → UInt8) (icase : Bool) (set : Bitset) :
    ∀ (chars : List Nat) (map : UInt8 → Bool),
      (∀ ch, map ch = true → setBracket tolower icase set chars map ch = true) ∧
      ∀ ch ∈ chars, bitsetContain set ch = true →
        setBracket tolower icase set chars map (UInt8.ofNat ch) = true ∧
          (icase = true → setBracket tolower icase set chars map (tolower (UInt8.ofNat ch)) = true)
  | [], map => ⟨fun _ h => h, by simp⟩
  | first :: chars, map => by
    obtain ⟨hmono, hmem⟩ := setBracket_spec tolower icase set chars
      (if bitsetContain set first then reSetFastmap tolower icase map (UInt8.ofNat first) else map)
    refine ⟨fun ch hch => hmono ch ?_, List.forall_mem_cons.mpr ⟨fun hin => ?_, hmem⟩⟩
    · split
      · exact reSetFastmap_of_mem tolower icase _ hch
      · exact hch
    · obtain ⟨hself, hlower⟩ := reSetFastmap_self tolower icase map (UInt8.ofNat first)
      refine ⟨hmono _ ?_, fun hi => hmono _ ?_⟩
      · rwa [if_pos hin]
      · rw [if_pos hin]
        exact hlower hi

theorem fastmapNode_spec {token : Grouping.Token} {dfa : Grouping.Dfa} (s : Fastmap)
    (htype : token.type ≠ .opPeriod ∧ token.type ≠ .opUtf8Period ∧ token.type ≠ .endOfRe) :
    s.Le { s with map := fastmapNode tolower icase token s.map } ∧
      Fast tolower icase token dfa { s with map := fastmapNode tolower icase token s.map } := by
  unfold fastmapNode
  split
  · next hchar =>
    refine ⟨⟨fun ch hch => reSetFastmap_of_mem tolower icase _ hch, id⟩, fun ch hch => ?_,
      fun hend => absurd hend htype.2.2⟩
    have heq : ch = UInt8.ofFin token.c := by
      have heq : ch.toFin = token.c := by simpa [Grouping.Token.has, hchar] using hch
      rw [← heq]
      rfl
    rw [heq]
    exact reSetFastmap_self tolower icase _ _
  · next hbracket =>
    have hchars : ∀ ch : UInt8, ch.toNat ∈ List.range SBC_MAX := fun ch =>
      List.mem_range.mpr ch.toNat_lt
    revert hchars
    generalize List.range SBC_MAX = chars
    intro hchars
    obtain ⟨hmono, hmem⟩ := setBracket_spec tolower icase token.sbcset chars s.map
    refine ⟨⟨hmono, id⟩, fun ch hch => ?_, fun hend => absurd hend htype.2.2⟩
    have hin : bitsetContain token.sbcset ch.toNat = true := by
      simpa [Grouping.Token.has, hbracket] using hch
    have hall := hmem ch.toNat (hchars ch) hin
    rwa [UInt8.ofNat_toNat] at hall
  · next hother _ =>
    refine ⟨Fastmap.Le.refl _, fun ch hch => ?_, fun hend => absurd hend htype.2.2⟩
    unfold Grouping.Token.has at hch
    split at hch
    all_goals simp_all

/-- The loop over the nodes of a state. -/
theorem reCompileFastmapIter_spec {dfa : Grouping.Dfa} : ∀ (l : List Nat) (s : Fastmap),
    (∀ q ∈ l, q < dfa.nodes.length) →
      ∃ t, reCompileFastmapIter tolower icase dfa.nodes l s = some t ∧ s.Le t ∧
        ∀ q ∈ l, ∀ token, dfa.nodes[q]? = some token → Fast tolower icase token dfa t
  | [], s, _ => ⟨s, rfl, Fastmap.Le.refl s, by simp⟩
  | q :: l, s, hlt => by
    obtain ⟨hq, hl⟩ := List.forall_mem_cons.mp hlt
    obtain ⟨token, htoken⟩ : ∃ token, dfa.nodes[q]? = some token :=
      ⟨_, List.getElem?_eq_getElem hq⟩
    rw [reCompileFastmapIter, htoken]
    simp only [Option.bind_eq_bind, Option.bind_some]
    by_cases hall : token.type = .opPeriod ∨ token.type = .opUtf8Period ∨ token.type = .endOfRe
    · rw [if_pos hall]
      refine ⟨_, rfl, ⟨fun _ _ => rfl, fun hnull => ?_⟩, fun _ _ _ _ => ?_⟩
      · simp [hnull]
      · exact ⟨fun _ _ => ⟨rfl, fun _ => rfl⟩, fun _ => .inr fun _ => rfl⟩
    · rw [if_neg hall]
      rw [not_or, not_or] at hall
      obtain ⟨hle, hfast⟩ := @fastmapNode_spec tolower icase token dfa s hall
      obtain ⟨t, hrun, hle', hrest⟩ := reCompileFastmapIter_spec l _ hl
      refine ⟨t, hrun, hle.trans hle', List.forall_mem_cons.mpr ⟨fun token' htoken' => ?_, hrest⟩⟩
      obtain rfl := Option.some.inj (htoken.symm.trans htoken')
      exact hfast.mono hle'

variable (loc syn c) in
/-- The fastmap has the characters of the nodes of all initial states. -/
def Covers (tolower : UInt8 → UInt8) (icase : Bool) (s : Fastmap) : Prop :=
  ∀ context ∈ [0, CONTEXT_WORD, CONTEXT_NEWLINE, CONTEXT_NEWLINE ||| CONTEXT_BEGBUF],
    ∀ q ∈ allowed c context (initSet c), ∀ token, (c.dfa loc syn).nodes[q]? = some token →
      Fast tolower icase token (c.dfa loc syn) s

theorem length_dfa_nodes (hc : c.Sound) : (c.dfa loc syn).nodes.length = c.nfa.graph.nodes.length := by
  rw [Compiled.dfa, List.length_zipWith, hc.nfa.oprs, min_self]

/-- The fastmap has the characters of the nodes of a state. -/
def StateCovered (loc : Regcomp.Locale) (syn : RegSyntax) (c : Compiled) (tolower : UInt8 → UInt8)
    (icase : Bool) (d : Regex.Dfa) (p : Nat) (s : Fastmap) : Prop :=
  ∀ st, IsState d p st → ∀ q ∈ st.nodes, ∀ token, (c.dfa loc syn).nodes[q]? = some token →
    Fast tolower icase token (c.dfa loc syn) s

theorem StateCovered.mono {d : Regex.Dfa} {p : Nat} {s t : Fastmap}
    (h : StateCovered loc syn c tolower icase d p s) (hle : s.Le t) :
    StateCovered loc syn c tolower icase d p t :=
  fun st hst q hq token htoken => (h st hst q hq token htoken).mono hle

variable {m : Machine}

theorem fastmapState_spec (hc : Ready c) (hm : Cached loc syn c m) {p : Nat} {st : DfaState}
    (hst : IsState m.dfa p st) (s : Fastmap) :
    ∃ t, fastmapState tolower icase (c.dfa loc syn).nodes m.dfa.mem.heap p s = some t ∧ s.Le t ∧
      StateCovered loc syn c tolower icase m.dfa p t := by
  have hsane : Sane (regexNodes c) st := hm.nodes ▸ hm.sound.sane p st hst
  have hlt : ∀ q ∈ st.nodes, q < (c.dfa loc syn).nodes.length := fun q hq => by
    rw [length_dfa_nodes hc.sound, ← length_regexNodes]
    exact hsane.lt q (hsane.nodes_subset hq)
  obtain ⟨t, hrun, hle, hfast⟩ := reCompileFastmapIter_spec st.nodes s hlt
  refine ⟨t, ?_, hle, fun st' hst' => hst.unique hst' ▸ hfast⟩
  simp only [fastmapState, hst.live, Option.bind_eq_bind, Option.bind_some, hrun]

/-- A state that is another one than the first is passed too. -/
theorem fastmapOther_spec (hc : Ready c) (hm : Cached loc syn c m) {plain p : Nat} {st : DfaState}
    (hst : IsState m.dfa p st) {s : Fastmap}
    (hplain : StateCovered loc syn c tolower icase m.dfa plain s) :
    ∃ t, fastmapOther tolower icase (c.dfa loc syn).nodes m.dfa.mem.heap plain p s = some t ∧
      s.Le t ∧ StateCovered loc syn c tolower icase m.dfa p t := by
  unfold fastmapOther
  by_cases heq : plain = p
  · exact ⟨s, if_neg (not_not.mpr heq), Fastmap.Le.refl s, heq ▸ hplain⟩
  · rw [if_pos heq]
    exact fastmapState_spec hc hm hst s

/-- `re_compile_fastmap` covers what a match starts with. -/
theorem reCompileFastmap_spec (hc : Ready c) (hm : Cached loc syn c m) {init : InitStates}
    (hinit : Starts c m.dfa init) :
    ∃ s, reCompileFastmap tolower icase (c.dfa loc syn).nodes m.dfa.mem.heap init = some s ∧
      Covers loc syn c tolower icase s := by
  obtain ⟨st₁, hst₁, hent, hctx⟩ := hinit.plain
  obtain ⟨st₂, hst₂, -⟩ := id hinit.word
  obtain ⟨st₃, hst₃, -⟩ := id hinit.nl
  obtain ⟨st₄, hst₄, -⟩ := id hinit.begbuf
  have hplain : Made m.dfa init.plain (initSet c) 0 :=
    ⟨st₁, hst₁, fun p => by rw [hent]; exact Iff.rfl, fun _ => hctx⟩
  obtain ⟨s₁, hrun₁, -, hcov₁⟩ := @fastmapState_spec loc syn c tolower icase m hc hm _ _ hst₁
    ⟨fun _ => false, false⟩
  obtain ⟨s₂, hrun₂, hle₂, hcov₂⟩ := fastmapOther_spec hc hm hst₂ hcov₁
  obtain ⟨s₃, hrun₃, hle₃, hcov₃⟩ := fastmapOther_spec hc hm hst₃ (hcov₁.mono hle₂)
  obtain ⟨s₄, hrun₄, hle₄, hcov₄⟩ := fastmapOther_spec hc hm hst₄ (hcov₁.mono (hle₂.trans hle₃))
  have hof : ∀ {p context : Nat}, Made m.dfa p (initSet c) context →
      StateCovered loc syn c tolower icase m.dfa p s₄ → ∀ q ∈ allowed c context (initSet c),
        ∀ token, (c.dfa loc syn).nodes[q]? = some token →
          Fast tolower icase token (c.dfa loc syn) s₄ := by
    intro p context hmade hcovered q hq
    obtain ⟨st, hst, -⟩ := id hmade
    exact hcovered st hst q ((hmade.mem_nodes hm.nodes hm.sound hst q).mpr hq)
  refine ⟨s₄, ?_, ?_⟩
  · simp only [reCompileFastmap, hrun₁, hrun₂, hrun₃, hrun₄, Option.bind_eq_bind, Option.bind_some]
  · simp only [Covers, List.forall_mem_cons]
    exact ⟨hof hplain (hcov₁.mono (hle₂.trans (hle₃.trans hle₄))),
      hof hinit.word (hcov₂.mono (hle₃.trans hle₄)), hof hinit.nl (hcov₃.mono hle₄),
      hof hinit.begbuf hcov₄, by simp⟩

/-! ## What a match starts with -/

/-- The lower case of a character's upper case is the character, unless it has no other. -/
def CasePairs (toupper tolower : UInt8 → UInt8) : Prop :=
  ∀ ch, toupper ch = ch ∨ tolower (toupper ch) = ch

/-- What the start of a buffer allows that is not that of a line, the start of a line allows. -/
theorem allows_begbuf {p : Nat} (h : allows c CONTEXT_BEGBUF p = true) :
    allows c (CONTEXT_NEWLINE ||| CONTEXT_BEGBUF) p = true := by
  unfold allows satisfiesPrev notSatisfyPrevConstraint at h ⊢
  revert h
  generalize ((regexNodes c)[p]?).elim 0 Regex.Token.constraint = constraint
  have hword : (CONTEXT_NEWLINE ||| CONTEXT_BEGBUF) &&& CONTEXT_WORD = 0 := by decide
  have hword' : CONTEXT_BEGBUF &&& CONTEXT_WORD = 0 := by decide
  have hnl : (CONTEXT_NEWLINE ||| CONTEXT_BEGBUF) &&& CONTEXT_NEWLINE ≠ 0 := by decide
  have hbegbuf : (CONTEXT_NEWLINE ||| CONTEXT_BEGBUF) &&& CONTEXT_BEGBUF ≠ 0 := by decide
  simp only [hword, hword', hnl, hbegbuf]
  simpa using fun h _ _ => h

variable {src : Source} {i j : Nat}

/-- The fastmap covers what a match starts with, in any context. -/
theorem Covers.start {s : Fastmap} (h : Covers loc syn c tolower icase s) {q : Nat}
    (hq : q ∈ allowed c (src.before i) (initSet c)) {token : Grouping.Token}
    (htoken : (c.dfa loc syn).nodes[q]? = some token) :
    Fast tolower icase token (c.dfa loc syn) s := by
  obtain hctx | hctx | ⟨hctx, -⟩ | hctx | hctx := before_cases src i
  · exact h _ (by simp) q (hctx ▸ hq) token htoken
  · exact h _ (by simp) q (hctx ▸ hq) token htoken
  · exact h _ (by simp) q (hctx ▸ hq) token htoken
  · rw [hctx] at hq
    exact h _ (by simp) q ⟨hq.1, allows_begbuf hq.2⟩ token htoken
  · exact h _ (by simp) q (hctx ▸ hq) token htoken

/-- A match starts with a character in the fastmap. -/
theorem Covers.mayStart {s : Fastmap} (h : Covers loc syn c tolower src.icase s)
    (hnull : s.canBeNull = false) (hpairs : src.icase = true → CasePairs src.toupper tolower)
    (hc : c.Sound) (hmatch : Matches src loc syn c i j) :
    ∃ ch, src.firstByte i = some ch ∧ src.mayStart s.map ch = true := by
  obtain ⟨hij, hlen, q, hq, hend⟩ := matches_iff.mp hmatch
  rw [length_text] at hlen
  obtain rfl | hlt := Nat.eq_or_lt_of_le hij
  · -- the end is an initial node: the fastmap has all characters
    rw [reach_self] at hq
    have hqlt : q < (c.dfa loc syn).nodes.length := by
      obtain ⟨token, htoken, -⟩ := ends_iff.mp hend
      rw [length_dfa_nodes hc, ← length_regexNodes]
      exact (List.getElem?_eq_some_iff.mp htoken).1
    obtain ⟨node, hnode⟩ : ∃ node, (c.dfa loc syn).nodes[q]? = some node :=
      ⟨_, List.getElem?_eq_getElem hqlt⟩
    have hisEnd : node.type = .endOfRe := by
      obtain ⟨token, opr, htoken, -, rfl⟩ := dfa_node hnode
      obtain ⟨token', htoken', htype, -⟩ := ends_iff.mp hend
      rw [regexNodes, List.getElem?_map, htoken] at htoken'
      rw [← Option.some.inj htoken'] at htype
      exact htype
    have hall := ((h.start hq hnode).isEnd hisEnd).resolve_left (by simp [hnull])
    obtain ⟨ch, hch⟩ : ∃ ch, src.firstByte i = some ch := by
      unfold Source.firstByte
      split
      · exact ⟨0, rfl⟩
      · exact ⟨src.rawMbs[i], by rw [getAt_natCast, List.getElem?_eq_getElem]⟩
    exact ⟨ch, hch, hall _⟩
  · have hraw : i < src.rawMbs.length := by omega
    have hch : src.text[i]? = some (src.built src.rawMbs[i]) := by
      rw [Source.text, List.getElem?_map, List.getElem?_eq_getElem hraw, Option.map_some]
    have hne : (reach src loc syn c i (i + 1)).Nonempty := by
      rw [Set.nonempty_iff_ne_empty]
      intro hempty
      exact not_matches_of_empty hempty (Nat.le_succ i) hlt hmatch
    obtain ⟨p, hp⟩ := hne
    obtain ⟨q, hq, htakes, -⟩ := (reach_succ (le_refl i) hch).mp hp
    rw [reach_self] at hq
    rw [takes, Option.any_eq_true] at htakes
    obtain ⟨token, htoken, haccepts⟩ := htakes
    have hhas : token.has (c.dfa loc syn) (src.built src.rawMbs[i]).toFin = true :=
      (Bool.and_eq_true_iff.mp haccepts).1
    obtain ⟨hbuilt, hlower⟩ := (h.start hq htoken).chars _ hhas
    refine ⟨src.rawMbs[i], ?_, ?_⟩
    · rw [Source.firstByte, if_neg (by omega), getAt_natCast, List.getElem?_eq_getElem hraw]
    · unfold Source.mayStart
      unfold Source.built at hbuilt hlower
      cases hicase : src.icase with
      | false => rwa [if_neg (by simp [hicase])] at hbuilt
      | true =>
        rw [if_pos hicase] at hbuilt hlower
        obtain heq | heq := hpairs hicase (src.translate src.rawMbs[i])
        · rwa [heq] at hbuilt
        · have := hlower hicase
          rwa [heq] at this

end Librecompat.Regexec
