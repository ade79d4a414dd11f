/-
  Back references name groups that are completed on their own branch.

  A call of the parser either fails with a null pointer or leaves the run over the marks at the same
  place (`Next`), where each bit of `completed_bkref_map` is a group that the place sees. At the end
  of an alternation the map is only right for the place around the group (`parseRegExp_ends`): the
  branches have been merged.
-/
import Librecompat.Regcomp.Reader
import Librecompat.Regcomp.Scan

namespace Librecompat.Regcomp

open Librecompat.Lib Librecompat.RegTree
open Librecompat.Regex (RegErrcode REG_NOERROR REG_ESPACE)

variable {σ : Type} {rd : Reader σ} {ok : Nat → Bool} {syn : RegSyntax} {fuel : Nat}

/-! ## Calls -/

/-- The call ends without an error and with `P`, or with an error and a null pointer. -/
def Ends (P : State σ → Prop) (r : Option (Result σ)) : Prop :=
  ∀ s tree, r = some (s, tree) →
    s.err = REG_NOERROR ∧ P s ∨ s.err ≠ REG_NOERROR ∧ tree = none

variable {P Q : State σ → Prop} {r : Option (Result σ)} {s s' s'' : State σ}

theorem Ends.mono (h : Ends P r) (hPQ : ∀ s, P s → Q s) : Ends Q r := by
  intro s tree hr
  exact (h s tree hr).imp_left fun hP => ⟨hP.1, hPQ s hP.2⟩

theorem ends_none : Ends P (none : Option (Result σ)) := by
  intro s tree hr
  exact absurd hr (by simp)

theorem ends_some {tree : Option Nat} (herr : s.err = REG_NOERROR) (hP : P s) :
    Ends P (some (s, tree)) := by
  intro s' tree' hr
  obtain ⟨rfl, rfl⟩ := Prod.mk.inj (Option.some.inj hr)
  exact .inl ⟨herr, hP⟩

theorem ends_abandon (herr : s.err ≠ REG_NOERROR) : Ends P (abandon s) := by
  intro s' tree hr
  obtain ⟨rfl, rfl⟩ := Prod.mk.inj (Option.some.inj hr)
  exact .inr ⟨herr, rfl⟩

theorem ends_fail {err : RegErrcode} (herr : err ≠ REG_NOERROR) : Ends P (fail s err) := by
  intro s' tree hr
  obtain ⟨rfl, rfl⟩ := Prod.mk.inj (Option.some.inj hr)
  exact .inr ⟨herr, rfl⟩

theorem ends_bind {α : Type} {a : Option α} {k : α → Option (Result σ)}
    (h : ∀ x, a = some x → Ends P (k x)) : Ends P (a.bind k) := by
  cases a with
  | none => exact ends_none
  | some x => exact h x rfl

theorem freeAll_err {tree : Option Nat} (h : freeAll fuel s tree = some s') : s'.err = s.err := by
  cases tree with
  | none => rw [Option.some.inj h]
  | some tree =>
    obtain ⟨dfa, -, h⟩ := Option.bind_eq_some_iff.mp h
    rw [← Option.some.inj h]

theorem ends_discard {tree : Option Nat} (herr : s.err ≠ REG_NOERROR) :
    Ends P (discard fuel tree s) :=
  ends_bind fun s' hfree => ends_abandon (by rwa [freeAll_err hfree])

theorem Ends.checked {failed : State σ → Option (Result σ)}
    {k : State σ → Option Nat → Option (Result σ)} (h : Ends P r)
    (hfailed : ∀ s, s.err ≠ REG_NOERROR → Ends Q (failed s))
    (hk : ∀ s tree, s.err = REG_NOERROR → P s → Ends Q (k s tree)) :
    Ends Q (checked r failed k) := by
  refine ends_bind fun q hq => ?_
  obtain ⟨herr, hP⟩ | ⟨herr, htree⟩ := h q.1 q.2 hq
  · rw [if_neg fun hbad => hbad.1 herr]
    exact hk q.1 q.2 herr hP
  · rw [if_pos ⟨herr, htree⟩]
    exact hfailed q.1 herr

theorem ends_created {a : Option (Dfa × Option Nat)} {k : State σ → Nat → Option (Result σ)}
    (hk : ∀ dfa tree, a = some (dfa, some tree) → Ends P (k { s with dfa := dfa } tree)) :
    Ends P (created s a k) := by
  refine ends_bind fun q hq => ?_
  obtain ⟨dfa, tree⟩ := q
  cases tree with
  | none => exact ends_fail (by decide)
  | some tree => exact hk dfa tree hq

/-! ## What the map is about -/

/-- The place that the run over the marks has reached. -/
def State.here (s : State σ) : Place := (scan s.marks).here

/-- Each bit of the map is a group that the place sees. -/
def Covers (s : State σ) (place : Place) (map : Nat) : Prop :=
  ∀ k, map.testBit k = true → (scan s.marks).Sees place k

theorem Covers.mono {place : Place} {map : Nat} (h : Covers s place map)
    (hmarks : s.marks <+: s'.marks) : Covers s' place map :=
  fun k hk => (h k hk).mono (scan_groups_mono hmarks)

theorem Covers.of_cons {x : Nat × Nat} {place : Place} {map : Nat} (h : Covers s (x :: place) map) :
    Covers s place map :=
  fun k hk => (h k hk).of_cons

theorem Covers.or {place : Place} {m m' : Nat} (h : Covers s place m) (h' : Covers s place m') :
    Covers s place (m ||| m') := by
  intro k hk
  rw [Nat.testBit_or, Bool.or_eq_true] at hk
  exact hk.elim (h k) (h' k)

/-- The marks are about the nodes: each node of a group or a back reference that is no copy belongs
    to one mark, in the same order, and a copy of a back reference names what a mark names. -/
structure Logged (s : State σ) : Prop where
  subexps : (originals .subexp s.dfa.trees).map (· + 1) = (scan s.marks).groups.map Group.number
  backRefs : originals .opBackRef s.dfa.trees = refs s.marks
  copies : ∀ token ∈ treeTokens s.dfa.trees, token.type = .opBackRef → token.opr ∈ refs s.marks
  nbackref : s.nbackref = (refs s.marks).length
  usedBkrefMap : ∀ k, s.usedBkrefMap.testBit k = true ↔ k ∈ refs s.marks

/-- The invariant of the parser; `place` is where the map is right. -/
structure Good (rd : Reader σ) (place : Place) (s : State σ) : Prop where
  opened : (scan s.marks).opened = s.reNsub
  increasing : s.marks.Pairwise fun m m' => m.idx < m'.idx
  passed : ∀ m ∈ s.marks, m.idx ≤ rd.curIdx s.regexp
  seen : Seen s.marks
  covers : Covers s place s.completedBkrefMap
  logged : Logged s

/-- The current token is behind all marks, unless the string is at its end. -/
def Ahead (rd : Reader σ) (s : State σ) : Prop :=
  s.token.type ≠ .endOfRe → ∀ m ∈ s.marks, m.idx < rd.curIdx s.regexp

/-- What a call leaves that returns to its place. -/
structure Next (rd : Reader σ) (s s' : State σ) : Prop where
  good : Good rd s.here s'
  marks : s.marks <+: s'.marks
  here : s'.here = s.here

/-- The step only moves forward in the string. -/
structure Quiet (rd : Reader σ) (s s' : State σ) : Prop where
  marks : s'.marks = s.marks
  reNsub : s'.reNsub = s.reNsub
  map : s'.completedBkrefMap = s.completedBkrefMap
  nbackref : s'.nbackref = s.nbackref
  used : s'.usedBkrefMap = s.usedBkrefMap
  curIdx_le : rd.curIdx s.regexp ≤ rd.curIdx s'.regexp
  trees : SameRefs s.dfa.trees s'.dfa.trees

theorem Quiet.here_eq (h : Quiet rd s s') : s'.here = s.here := by
  rw [State.here, State.here, h.marks]

theorem Quiet.trans (h : Quiet rd s s') (h' : Quiet rd s' s'') : Quiet rd s s'' :=
  ⟨h'.marks.trans h.marks, h'.reNsub.trans h.reNsub, h'.map.trans h.map,
    h'.nbackref.trans h.nbackref, h'.used.trans h.used, h.curIdx_le.trans h'.curIdx_le,
    h.trees.trans h'.trees⟩

theorem quiet_fetch (caret : Bool) : Quiet rd s (s.fetch rd caret) :=
  ⟨rfl, rfl, rfl, rfl, rfl, rd.fetchToken_le caret s.token s.regexp, .refl _⟩

/-- Only trees are made. -/
theorem quiet_trees {dfa : Dfa} (h : SameRefs s.dfa.trees dfa.trees) :
    Quiet rd s { s with dfa := dfa } :=
  ⟨rfl, rfl, rfl, rfl, rfl, Nat.le_refl _, h⟩

/-- The marks stay, and so does what they are about. -/
theorem Logged.same (h : Logged s) (hmarks : s'.marks = s.marks)
    (hnbackref : s'.nbackref = s.nbackref) (hused : s'.usedBkrefMap = s.usedBkrefMap)
    (htrees : SameRefs s.dfa.trees s'.dfa.trees) : Logged s' := by
  refine ⟨?_, ?_, fun token htoken htype => ?_, ?_, ?_⟩
  · rw [htrees.subexps, hmarks, h.subexps]
  · rw [htrees.backRefs, hmarks, h.backRefs]
  · obtain ⟨token₀, hmem, htype₀, hopr⟩ := htrees.copies token htoken htype
    rw [hmarks, ← hopr]
    exact h.copies token₀ hmem htype₀
  · rw [hnbackref, hmarks, h.nbackref]
  · rw [hused, hmarks]
    exact h.usedBkrefMap

/-- A mark that is noted for neither a group nor a back reference. -/
theorem Logged.note {kind : MarkKind} (h : Logged s) (href : kind.ref = none)
    (hgroups : ((scan s.marks).step ⟨kind, rd.curIdx s.regexp⟩).groups = (scan s.marks).groups) :
    Logged (s.note rd kind) := by
  have hrefs : refs (s.note rd kind).marks = refs s.marks := by
    rw [State.note, refs_append_singleton, href]
    exact List.append_nil _
  refine ⟨?_, hrefs ▸ h.backRefs, hrefs ▸ h.copies, hrefs ▸ h.nbackref, hrefs ▸ h.usedBkrefMap⟩
  rw [State.note, scan_append_singleton, hgroups]
  exact h.subexps

theorem Good.quiet {place : Place} (h : Good rd place s) (hq : Quiet rd s s') :
    Good rd place s' := by
  obtain ⟨hmarks, hnsub, hmap, hnbackref, hused, hidx, htrees⟩ := hq
  refine ⟨by rw [hmarks, hnsub, h.opened], hmarks ▸ h.increasing, fun m hm => ?_,
    hmarks ▸ h.seen, ?_, h.logged.same hmarks hnbackref hused htrees⟩
  · exact (h.passed m (hmarks ▸ hm)).trans hidx
  · rw [Covers, hmarks, hmap]
    exact h.covers

theorem Good.here (h : Good rd s.here s) : Next rd s s := ⟨h, List.prefix_refl _, rfl⟩

theorem Next.quiet (h : Next rd s s') (hq : Quiet rd s' s'') : Next rd s s'' :=
  ⟨h.good.quiet hq, hq.marks ▸ h.marks, hq.here_eq.trans h.here⟩

theorem Next.trans (h : Next rd s s') (h' : Next rd s' s'') : Next rd s s'' :=
  ⟨h.here ▸ h'.good, h.marks.trans h'.marks, h'.here.trans h.here⟩

theorem Ahead.quiet (h : Ahead rd s) (hq : Quiet rd s s') (htoken : s.token.type ≠ .endOfRe) :
    Ahead rd s' := by
  intro _ m hm
  exact (h htoken m (hq.marks ▸ hm)).trans_le hq.curIdx_le

theorem Good.ahead_fetch {place : Place} (h : Good rd place s) (caret : Bool) :
    Ahead rd (s.fetch rd caret) := by
  intro htoken m hm
  exact (h.passed m hm).trans_lt (rd.fetchToken_lt caret s.token s.regexp htoken)

/-- A mark is noted at a token. -/
theorem Good.note {place place' : Place} (kind : MarkKind) (h : Good rd place s)
    (hahead : Ahead rd s) (htoken : s.token.type ≠ .endOfRe)
    (hopened : ((scan s.marks).step ⟨kind, rd.curIdx s.regexp⟩).opened = s'.reNsub)
    (hback : ∀ k, kind = .backRef k → (scan s.marks).Sees s.here k)
    (hmarks : s'.marks = (s.note rd kind).marks) (hregexp : s'.regexp = s.regexp)
    (hcovers : Covers s' place' s'.completedBkrefMap) (hlogged : Logged s') :
    Good rd place' s' := by
  have hlast : s'.marks = s.marks ++ [⟨kind, rd.curIdx s.regexp⟩] := hmarks
  refine ⟨?_, ?_, ?_, ?_, hcovers, hlogged⟩
  · rw [hlast, scan_append_singleton, hopened]
  · rw [hlast, List.pairwise_append]
    refine ⟨h.increasing, List.pairwise_singleton _ _, fun m hm m' hm' => ?_⟩
    rw [List.mem_singleton.mp hm']
    exact hahead htoken m hm
  · intro m hm
    rw [hregexp]
    rw [hlast, List.mem_append, List.mem_singleton] at hm
    obtain hm | rfl := hm
    · exact h.passed m hm
    · exact Nat.le_refl _
  · rw [hlast]
    exact h.seen.append_singleton hback

/-! ## Steps that only move forward -/

theorem createLeaf_ends (herr : s.err = REG_NOERROR) (hsubexp : s.token.type ≠ .subexp)
    (hbackRef : s.token.type ≠ .opBackRef) : Ends (Quiet rd s) (createLeaf ok s) :=
  ends_created fun _ _ hcreate => ends_some herr
    (quiet_trees (createTokenTree_sameRefs hsubexp hbackRef _ hcreate))

theorem normalChar_ends (herr : s.err = REG_NOERROR) : Ends (Quiet rd s) (normalChar ok s) := by
  unfold normalChar createLeaf
  refine ends_created fun _ _ hcreate => ends_some herr ?_
  exact ⟨rfl, rfl, rfl, rfl, rfl, Nat.le_refl _,
    createTokenTree_sameRefs (by simp) (by simp) _ hcreate⟩

theorem useWords_quiet (herr : s.err = REG_NOERROR) :
    (useWords s).err = REG_NOERROR ∧ Quiet rd s (useWords s) := by
  unfold useWords
  split
  · exact ⟨herr, rfl, rfl, rfl, rfl, rfl, Nat.le_refl _, .refl _⟩
  · exact ⟨herr, rfl, rfl, rfl, rfl, rfl, Nat.le_refl _, .refl _⟩

theorem restOfChar_ends {s₀ : State σ} : ∀ (n : Nat) (s : State σ) (tree : Option Nat),
    s.err = REG_NOERROR → Quiet rd s₀ s → Ends (Quiet rd s₀) (restOfChar rd ok n s tree)
  | 0, _, _, _, _ => ends_none
  | n + 1, s, tree, herr, hq => by
    rw [restOfChar]
    split
    · next hpartial =>
      have hchar : (s.fetch rd false).token.type = .character :=
        rd.fetchToken_partial false s.token s.regexp hpartial
      refine ends_bind fun mbcRemain hmbc => ends_bind fun new hnew => ?_
      dsimp only
      split
      · exact ends_fail (by decide)
      · have hleaf : SameRefs s.dfa.trees mbcRemain.1.trees :=
          createTokenTree_sameRefs (by simp [hchar]) (by simp [hchar]) _ hmbc
        have hjoin : SameRefs mbcRemain.1.trees new.1.trees :=
          (createTree_grown (.inl rfl) _ hnew).sameRefs
        have hfetch : Quiet rd s { s.fetch rd false with dfa := new.1 } :=
          (quiet_fetch false).trans (quiet_trees (hleaf.trans hjoin))
        exact restOfChar_ends n _ _ herr (hq.trans hfetch)
    · exact ends_some herr hq

theorem wordDelim_ends (herr : s.err = REG_NOERROR) (htoken : s.token.type = .anchor) :
    Ends (Quiet rd s) (wordDelim ok s) := by
  refine ends_bind fun first hfirst => ends_bind fun last hlast => ends_bind fun alt halt => ?_
  dsimp only
  split
  · exact ends_fail (by decide)
  · have h₁ : SameRefs s.dfa.trees first.1.trees :=
      createTokenTree_sameRefs (by simp [htoken]) (by simp [htoken]) _ hfirst
    have h₂ : SameRefs first.1.trees last.1.trees :=
      createTokenTree_sameRefs (by simp [htoken]) (by simp [htoken]) _ hlast
    have h₃ : SameRefs last.1.trees alt.1.trees :=
      (createTree_grown (.inr (.inl rfl)) _ halt).sameRefs
    exact ends_some herr ⟨rfl, rfl, rfl, rfl, rfl, Nat.le_refl _, (h₁.trans h₂).trans h₃⟩

theorem bracket_ends (herr : s.err = REG_NOERROR) : Ends (Quiet rd s) (bracket rd s) := by
  refine ends_bind fun q hq => ?_
  obtain ⟨dfa, token, regexp, tree, err⟩ := q
  intro s' tree' hr
  obtain ⟨rfl, rfl⟩ := Prod.mk.inj (Option.some.inj hr)
  by_cases hzero : err = REG_NOERROR
  · exact .inl ⟨by simp [hzero, herr], rfl, rfl, rfl, rfl, rfl, rd.parseBracketExp_le hq,
      rd.parseBracketExp_refs hq⟩
  · exact .inr ⟨by simp [hzero], rd.parseBracketExp_err hq hzero⟩

theorem charclassOp_ends (herr : s.err = REG_NOERROR) : Ends (Quiet rd s) (charclassOp rd s) := by
  refine ends_bind fun q hq => ?_
  obtain ⟨dfa, tree, err⟩ := q
  intro s' tree' hr
  obtain ⟨rfl, rfl⟩ := Prod.mk.inj (Option.some.inj hr)
  by_cases hzero : err = REG_NOERROR
  · exact .inl ⟨by simp [hzero, herr], rfl, rfl, rfl, rfl, rfl, Nat.le_refl _,
      rd.buildCharclassOp_refs hq⟩
  · exact .inr ⟨by simp [hzero], rd.buildCharclassOp_err hq hzero⟩

/-! ## Repetition operators -/

theorem tokensFrom_le : ∀ {n : Nat} {token : Token} {regexp : σ} {tokens : List (Token × σ)},
    tokensFrom rd n token regexp = some tokens →
    ∀ x ∈ tokens, rd.curIdx regexp ≤ rd.curIdx x.2
  | 0, _, _, _, h => absurd h (by simp [tokensFrom])
  | n + 1, token, regexp, tokens, h => by
    rw [tokensFrom] at h
    split at h
    · rw [← Option.some.inj h]
      exact fun x hx => absurd hx List.not_mem_nil
    · obtain ⟨rest, hrest, h⟩ := Option.bind_eq_some_iff.mp h
      have hle := rd.fetchToken_le false token regexp
      rw [← Option.some.inj h]
      intro x hx
      obtain rfl | hx := List.mem_cons.mp hx
      · exact hle
      · exact hle.trans (tokensFrom_le hrest x hx)

theorem expandOptional_err {dfa dfa' : Dfa} {elem : Nat} {oldTree tree : Option Nat}
    {start stop : Int} {err : RegErrcode}
    (h : expandOptional ok fuel dfa elem oldTree start stop = some (dfa', tree, err))
    (herr : err ≠ REG_NOERROR) : tree = none := by
  simp only [expandOptional, Option.bind_eq_bind, Option.bind_eq_some_iff] at h
  obtain ⟨node, -, dfa₁, -, ⟨dfa₂, top⟩, -, h⟩ := h
  cases top with
  | none => simp_all
  | some top =>
    obtain ⟨⟨dfa₃, last⟩, -, h⟩ := Option.bind_eq_some_iff.mp h
    cases last with
    | none => simp_all
    | some last =>
      cases oldTree with
      | none => simp_all
      | some oldTree =>
        obtain ⟨new, -, h⟩ := Option.bind_eq_some_iff.mp h
        simp_all

theorem expandDup_err {dfa dfa' : Dfa} {elem : Nat} {tree : Option Nat} {start stop : Int}
    {err : RegErrcode} (h : expandDup ok fuel dfa elem start stop = some (dfa', tree, err))
    (herr : err ≠ REG_NOERROR) : tree = none := by
  rw [expandDup] at h
  split at h
  · obtain ⟨⟨dfa₁, copies⟩, -, h⟩ := Option.bind_eq_some_iff.mp h
    cases copies with
    | none => simp_all
    | some copies =>
      dsimp only at h
      split at h
      · simp_all
      · obtain ⟨⟨dfa₂, dup⟩, -, h⟩ := Option.bind_eq_some_iff.mp h
        cases dup with
        | none => simp_all
        | some dup => exact expandOptional_err h herr
  · exact expandOptional_err h herr

theorem parseDupOp_err {tree : Option Nat} {regexp : List Token} {dfa : Dfa} {token : Token}
    {invalidOrd : Bool} {p : RegTree.Parsed}
    (h : parseDupOp ok fuel tree regexp dfa token invalidOrd = some p)
    (herr : p.err ≠ REG_NOERROR) : p.tree = none := by
  unfold parseDupOp at h
  split at h
  · rw [← Option.some.inj h]
  · rw [← Option.some.inj h] at herr
    exact absurd rfl herr
  · cases tree with
    | none => rw [← Option.some.inj h]
    | some elem =>
      dsimp only at h
      split at h
      · obtain ⟨dfa', -, h⟩ := Option.bind_eq_some_iff.mp h
        rw [← Option.some.inj h]
      · obtain ⟨⟨dfa', new, err⟩, hexpand, h⟩ := Option.bind_eq_some_iff.mp h
        rw [← Option.some.inj h] at herr ⊢
        exact expandDup_err hexpand herr

theorem parseDup_ends {tree : Option Nat} (herr : s.err = REG_NOERROR) :
    Ends (Quiet rd s) (parseDup rd ok syn fuel s tree) := by
  refine ends_bind fun tokens htokens => ends_bind fun p hp => ?_
  intro s' tree' hr
  obtain ⟨rfl, rfl⟩ := Prod.mk.inj (Option.some.inj hr)
  by_cases hzero : p.err = REG_NOERROR
  · refine .inl ⟨by simp [hzero, herr], rfl, rfl, rfl, rfl, rfl, ?_,
      (parseDupOp_grown p hp).sameRefs⟩
    dsimp only
    cases hlast : (tokens.take (tokens.length - p.regexp.length)).getLast? with
    | none => exact Nat.le_refl _
    | some x =>
      exact tokensFrom_le htokens x (List.mem_of_mem_take (List.mem_of_getLast? hlast))
  · exact .inr ⟨by simp [hzero], parseDupOp_err hp hzero⟩

theorem dupLoop_ends {s₀ : State σ} : ∀ (n : Nat) (s : State σ) (tree : Option Nat),
    s.err = REG_NOERROR → Next rd s₀ s → Ahead rd s →
    Ends (fun s' => Next rd s₀ s' ∧ Ahead rd s') (dupLoop rd ok syn fuel n s tree)
  | 0, _, _, _, _, _ => ends_none
  | n + 1, s, tree, herr, hnext, hahead => by
    rw [dupLoop]
    split
    · next htoken =>
      have hne : s.token.type ≠ .endOfRe := fun heq => by simp [heq] at htoken
      refine (parseDup_ends herr).checked (fun _ => ends_discard) fun s' dupTree herr' hq => ?_
      split
      · exact ends_bind fun _ _ => ends_fail (by decide)
      · exact dupLoop_ends n s' dupTree herr' (hnext.quiet hq) (hahead.quiet hq hne)
    · exact ends_some herr ⟨hnext, hahead⟩

/-- The end of `parse_expression` leaves a token that is behind all marks. -/
theorem Ends.repetition {s₀ : State σ} (h : Ends (Next rd s₀) r) :
    Ends (fun s' => Next rd s₀ s' ∧ Ahead rd s') (repetition rd ok syn fuel r) :=
  h.checked (fun _ => ends_abandon) fun s tree herr hnext =>
    dupLoop_ends fuel (s.fetch rd false) tree herr (hnext.quiet (quiet_fetch false))
      (hnext.good.ahead_fetch false)

/-! ## parse_expression -/

/-- What `parse_branch` and `parse_expression` do. -/
def Steps (rd : Reader σ) (f : State σ → Option (Result σ)) : Prop :=
  ∀ s, s.err = REG_NOERROR → Good rd s.here s → Ahead rd s →
    Ends (fun s' => Next rd s s' ∧ Ahead rd s') (f s)

/-- What is left inside of a group whose branches have been merged. -/
structure Inside (rd : Reader σ) (s : State σ) (group : Nat) (around : Place) (s' : State σ) :
    Prop where
  good : Good rd around s'
  marks : s.marks <+: s'.marks
  here : ∃ branch, s'.here = (group, branch) :: around
  ahead : Ahead rd s'

/-- What `parse_reg_exp` does: at its start the map is right in each branch. -/
def Descends (rd : Reader σ) (f : State σ → Option (Result σ)) : Prop :=
  ∀ s group branch around, s.err = REG_NOERROR → s.here = (group, branch) :: around →
    Good rd s.here s → (∀ b, Covers s ((group, b) :: around) s.completedBkrefMap) → Ahead rd s →
    Ends (Inside rd s group around) (f s)

theorem testBit_or_bit {m i k : Nat} :
    (m ||| 1 <<< i).testBit k = true ↔ m.testBit k = true ∨ k = i := by
  rw [Nat.testBit_or, Bool.or_eq_true, Nat.one_shiftLeft, Nat.testBit_two_pow, decide_eq_true_iff,
    eq_comm (a := i)]

/-- The mark and the node of a back reference. -/
theorem Logged.backRef {dfa : Dfa} {tree : Nat} (h : Logged s)
    (htoken : s.token.type = .opBackRef)
    (hcreate : createTokenTree ok s.dfa none none s.token = some (dfa, some tree)) :
    Logged { s.note rd (.backRef s.token.opr) with
      usedBkrefMap := s.usedBkrefMap ||| 1 <<< s.token.opr
      dfa := dfa
      nbackref := s.nbackref + 1 } := by
  obtain ⟨hnone, -⟩ | ⟨-, htokens⟩ := createTokenTree_tokens _ hcreate
  · cases hnone
  have hrefs : refs (s.note rd (.backRef s.token.opr)).marks = refs s.marks ++ [s.token.opr] :=
    refs_append_singleton s.marks _
  have hgroups : (scan (s.note rd (.backRef s.token.opr)).marks).groups = (scan s.marks).groups :=
    congrArg Scan.groups (scan_append_singleton s.marks _)
  refine ⟨?_, ?_, fun token hmem htype => ?_, ?_, fun k => ?_⟩
  · rw [hgroups, originals_append_ne htokens (by simp [htoken])]
    exact h.subexps
  · rw [hrefs, originals_append htokens htoken rfl, h.backRefs]
  · rw [hrefs, List.mem_append, List.mem_singleton]
    rw [htokens, List.mem_append, List.mem_singleton] at hmem
    obtain hmem | rfl := hmem
    · exact .inl (h.copies token hmem htype)
    · exact .inr rfl
  · rw [hrefs, List.length_append, h.nbackref]
    rfl
  · rw [hrefs, List.mem_append, List.mem_singleton, testBit_or_bit, h.usedBkrefMap]

theorem parseBackRef_ends (herr : s.err = REG_NOERROR) (hgood : Good rd s.here s)
    (hahead : Ahead rd s) (htoken : s.token.type = .opBackRef) :
    Ends (Next rd s) (parseBackRef rd ok s) := by
  rw [parseBackRef]
  split
  · exact ends_fail (by decide)
  · next hbit =>
    have hbit : s.completedBkrefMap.testBit s.token.opr = true := by simpa using hbit
    have hback : ∀ k, MarkKind.backRef s.token.opr = .backRef k →
        (scan s.marks).Sees s.here k := fun k hk => by
      rw [← MarkKind.backRef.inj hk]
      exact hgood.covers _ hbit
    have hgrow : s.marks <+: (s.note rd (.backRef s.token.opr)).marks := List.prefix_append _ _
    refine ends_created fun dfa tree hcreate => ends_some herr ⟨?_, hgrow, ?_⟩
    · exact hgood.note (.backRef s.token.opr) hahead (by simp [htoken]) hgood.opened hback rfl rfl
        (hgood.covers.mono hgrow) (hgood.logged.backRef htoken hcreate)
    · exact congrArg Scan.here (scan_append_singleton s.marks _)

/-- The mark and the node of a group. -/
theorem Logged.closeSubExp {dfa dfa' : Dfa} {curNsub new : Nat} {tree : Option Nat} {map : Nat}
    (h : Logged s)
    (hgroups : (scan (s.note rd .closeSubexp).marks).groups.map Group.number =
      (scan s.marks).groups.map Group.number ++ [curNsub + 1])
    (hcreate : createTree ok s.dfa tree none .subexp = some (dfa, some new))
    (hmodify : dfa.modify new (fun node =>
      { node with token := { node.token with opr := curNsub } }) = some dfa') :
    Logged { s.note rd .closeSubexp with completedBkrefMap := map, dfa := dfa' } := by
  obtain ⟨hnone, -⟩ | ⟨hnew, htokens⟩ := createTokenTree_tokens _ hcreate
  · cases hnone
  obtain rfl := Option.some.inj hnew
  obtain ⟨trees, htrees, hdfa'⟩ := Option.bind_eq_some_iff.mp hmodify
  obtain rfl := Option.some.inj hdfa'
  have hlast := tokens_modify_last (g := fun token => { token with opr := curNsub }) htokens
    (fun _ => rfl) _ htrees
  have hrefs : refs (s.note rd .closeSubexp).marks = refs s.marks :=
    (refs_append_singleton s.marks _).trans (List.append_nil _)
  refine ⟨?_, ?_, fun token hmem htype => ?_, hrefs ▸ h.nbackref, hrefs ▸ h.usedBkrefMap⟩
  · rw [hgroups, originals_append hlast rfl rfl, List.map_append, h.subexps]
    rfl
  · rw [hrefs, originals_append_ne hlast (by simp), h.backRefs]
  · rw [hrefs]
    rw [hlast, List.mem_append, List.mem_singleton] at hmem
    obtain hmem | rfl := hmem
    · exact h.copies token hmem htype
    · cases htype

/-- The place is around the group again, and the group can be named. -/
theorem closeSubExp_ends {s₀ : State σ} {curNsub : Nat} {around : Place} {tree : Option Nat}
    (herr : s.err = REG_NOERROR) (hs : Inside rd s₀ (curNsub + 1) around s)
    (htoken : s.token.type = .opCloseSubexp) :
    Ends (fun s' => Good rd around s' ∧ s₀.marks <+: s'.marks ∧ s'.here = around)
      (closeSubExp rd ok curNsub s tree) := by
  obtain ⟨hgood, hmarks, ⟨branch, hhere⟩, hahead⟩ := hs
  have hstep : (scan s.marks).step ⟨.closeSubexp, rd.curIdx s.regexp⟩ =
      { scan s.marks with
        here := around
        groups := (scan s.marks).groups ++ [⟨curNsub + 1, around, rd.curIdx s.regexp⟩] } := by
    rw [State.here] at hhere
    rw [Scan.step, hhere]
  have hscan : scan (s.note rd .closeSubexp).marks = _ :=
    (scan_append_singleton s.marks _).trans hstep
  have hgrow : s.marks <+: (s.note rd .closeSubexp).marks := List.prefix_append _ _
  have hself : SameBranches around around := by
    have hlt := (scan_numbered s.marks).here_lt
    rw [State.here] at hhere
    rw [hhere] at hlt
    exact sameBranches_self (List.pairwise_cons.mp hlt).2
  have hnew : (scan (s.note rd .closeSubexp).marks).Sees around curNsub := by
    rw [hscan]
    exact ⟨_, List.mem_append_right _ List.mem_cons_self, rfl, hself⟩
  have hgroups : (scan (s.note rd .closeSubexp).marks).groups.map Group.number =
      (scan s.marks).groups.map Group.number ++ [curNsub + 1] := by
    rw [hscan, List.map_append]
    rfl
  unfold closeSubExp
  refine ends_created fun dfa new hcreate => ends_bind fun dfa' hmodify => ?_
  refine ends_some herr ⟨?_, hmarks.trans hgrow, congrArg Scan.here hscan⟩
  refine hgood.note .closeSubexp hahead (by simp [htoken]) (by rw [hstep]; exact hgood.opened)
    (by simp) rfl rfl (fun k hk => ?_) (hgood.logged.closeSubExp hgroups hcreate hmodify)
  dsimp only at hk
  split at hk
  · obtain hk | rfl := testBit_or_bit.mp hk
    · exact hgood.covers.mono hgrow k hk
    · exact hnew
  · exact hgood.covers.mono hgrow k hk

/-- The state behind an opening parenthesis. -/
structure Opened (rd : Reader σ) (s s₁ : State σ) : Prop where
  good : ∀ place, Covers s₁ place s₁.completedBkrefMap → Good rd place s₁
  covers : ∀ b, Covers s₁ ((s.reNsub + 1, b) :: s.here) s₁.completedBkrefMap
  here : s₁.here = (s.reNsub + 1, 0) :: s.here
  marks : s.marks <+: s₁.marks
  ahead : Ahead rd s₁

theorem openSubExp_opened (hgood : Good rd s.here s) (hahead : Ahead rd s)
    (htoken : s.token.type = .opOpenSubexp) : Opened rd s (openSubExp rd s) := by
  have hgrow : s.marks <+: (openSubExp rd s).marks := List.prefix_append _ _
  have hgood₁ : ∀ place, Covers (openSubExp rd s) place s.completedBkrefMap →
      Good rd place { s.note rd .openSubexp with reNsub := s.reNsub + 1 } := fun place hcovers =>
    hgood.note .openSubexp hahead (by simp [htoken]) (by rw [← hgood.opened]; rfl) (by simp) rfl
      rfl hcovers ((hgood.logged.note rfl rfl).same rfl rfl rfl (.refl _))
  -- no closed group is inside of the one that is opened
  have hcovers : ∀ b, Covers (openSubExp rd s) ((s.reNsub + 1, b) :: s.here)
      s.completedBkrefMap := fun b k hk => by
    obtain ⟨g, hg, hnumber, hsame⟩ := hgood.covers k hk
    refine ⟨g, scan_groups_mono hgrow hg, hnumber, hsame.cons fun x hx => ?_⟩
    have hle := (scan_numbered s.marks).groups_le g hg x hx
    rw [hgood.opened] at hle
    omega
  refine ⟨fun place h => (hgood₁ place h).quiet (quiet_fetch true), hcovers, ?_, hgrow, ?_⟩
  · rw [← hgood.opened]
    exact congrArg Scan.here (scan_append_singleton s.marks _)
  · exact (hgood₁ s.here (hcovers 0).of_cons).ahead_fetch true

theorem groupBody_some {regExp : State σ → Option (Result σ)} {q : Option (Option Nat)}
    (hbody : Ends P (regExp s)) (h : groupBody regExp fuel s = some (s', q)) :
    (∃ tree, q = some tree ∧ s'.err = REG_NOERROR ∧ P s' ∧ s'.token.type = .opCloseSubexp) ∨
      s'.err ≠ REG_NOERROR ∧ q = none := by
  obtain ⟨⟨s₁, tree⟩, hcall, h⟩ := Option.bind_eq_some_iff.mp h
  dsimp only at h
  split at h
  · obtain ⟨s₂, hfree, h⟩ := Option.bind_eq_some_iff.mp h
    obtain ⟨rfl, rfl⟩ := Prod.mk.inj (Option.some.inj h)
    exact .inr ⟨(by decide : REG_EPAREN ≠ REG_NOERROR), rfl⟩
  · next hclose =>
    split at h
    · next herr =>
      obtain ⟨rfl, rfl⟩ := Prod.mk.inj (Option.some.inj h)
      exact .inr ⟨herr, rfl⟩
    · next herr =>
      obtain ⟨rfl, rfl⟩ := Prod.mk.inj (Option.some.inj h)
      obtain ⟨hzero, hP⟩ | ⟨hne, -⟩ := hbody s₁ tree hcall
      · exact .inl ⟨tree, rfl, hzero, hP, by simpa [hzero] using hclose⟩
      · exact absurd hne herr

theorem parseSubExp_ends {regExp : State σ → Option (Result σ)} (hregExp : Descends rd regExp)
    (herr : s.err = REG_NOERROR) (hgood : Good rd s.here s) (hahead : Ahead rd s)
    (htoken : s.token.type = .opOpenSubexp) :
    Ends (Next rd s) (parseSubExp rd ok regExp fuel s) := by
  have hopen := openSubExp_opened hgood hahead htoken
  have hherr : (openSubExp rd s).err = REG_NOERROR := herr
  unfold parseSubExp
  dsimp only
  split
  · next hclose =>
    have hin : Inside rd s (s.reNsub + 1) s.here (openSubExp rd s) :=
      ⟨hopen.good _ (hopen.covers 0).of_cons, hopen.marks, ⟨0, hopen.here⟩, hopen.ahead⟩
    exact (closeSubExp_ends hherr hin hclose).mono fun _ h => ⟨h.1, h.2.1, h.2.2⟩
  · refine ends_bind fun q hq => ?_
    obtain ⟨s', r⟩ := q
    have hbody := hregExp (openSubExp rd s) _ _ _ hherr hopen.here
      (hopen.good _ (hopen.here ▸ hopen.covers 0)) hopen.covers hopen.ahead
    obtain ⟨tree, rfl, herr', hin, hclose⟩ | ⟨herr', rfl⟩ := groupBody_some hbody hq
    · have hin' : Inside rd s (s.reNsub + 1) s.here s' :=
        ⟨hin.good, hopen.marks.trans hin.marks, hin.here, hin.ahead⟩
      exact (closeSubExp_ends herr' hin' hclose).mono fun _ h => ⟨h.1, h.2.1, h.2.2⟩
    · exact ends_abandon herr'

theorem parseAnchor_ends (herr : s.err = REG_NOERROR) (hgood : Good rd s.here s)
    (htoken : s.token.type = .anchor) :
    Ends (fun s' => Next rd s s' ∧ Ahead rd s') (parseAnchor rd ok s) := by
  obtain ⟨herr₁, hwords⟩ : _ ∧ Quiet rd s (useWords s) := useWords_quiet herr
  have htoken₁ : (useWords s).token.type = .anchor := by rw [useWords_token, htoken]
  have htrees : Ends (Quiet rd (useWords s))
      (if (useWords s).token.opr = WORD_DELIM ∨ (useWords s).token.opr = NOT_WORD_DELIM then
        wordDelim ok (useWords s)
      else createLeaf ok (useWords s)) := by
    split
    · exact wordDelim_ends herr₁ htoken₁
    · exact createLeaf_ends herr₁ (by simp [htoken]) (by simp [htoken])
  unfold parseAnchor
  refine htrees.checked (fun _ => ends_abandon) fun s' tree herr' hq => ?_
  have hnext : Next rd s s' := hgood.here.quiet (hwords.trans hq)
  exact ends_some herr' ⟨hnext.quiet (quiet_fetch false), hnext.good.ahead_fetch false⟩

theorem parseExpression_steps {regExp : State σ → Option (Result σ)}
    (hregExp : Descends rd regExp) : ∀ n : Nat,
    Steps rd (parseExpression rd ok syn regExp fuel n)
  | 0 => fun _ _ _ _ => ends_none
  | n + 1 => by
    intro s herr hgood hahead
    have hquiet : ∀ {r}, Ends (Quiet rd s) r → Ends (Next rd s) r := fun h =>
      h.mono fun _ hq => hgood.here.quiet hq
    have hnormal : Ends (Next rd s) (normalChar ok s) := hquiet (normalChar_ends herr)
    have hoperator : Ends (fun s' => Next rd s s' ∧ Ahead rd s')
        (if s.token.type = .opOpenDupNum ∧ syn.has RE_CONTEXT_INVALID_DUP then fail s REG_BADRPT
        else if syn.has RE_CONTEXT_INVALID_OPS then fail s REG_BADRPT
        else if syn.has RE_CONTEXT_INDEP_OPS then
          parseExpression rd ok syn regExp fuel n (s.fetch rd false)
        else repetition rd ok syn fuel (normalChar ok s)) := by
      split
      · exact ends_fail (by decide)
      split
      · exact ends_fail (by decide)
      split
      · have hfetch : Next rd s (s.fetch rd false) := hgood.here.quiet (quiet_fetch false)
        refine (parseExpression_steps hregExp n (s.fetch rd false) herr
          (hfetch.here ▸ hfetch.good) (hgood.ahead_fetch false)).mono fun s' hs' => ?_
        exact ⟨hfetch.trans hs'.1, hs'.2⟩
      · exact hnormal.repetition
    rw [parseExpression]
    split
    · next htoken =>
      have hleaf : Ends (Quiet rd s) (createLeaf ok s) :=
        createLeaf_ends herr (by simp [htoken]) (by simp [htoken])
      exact (hquiet (hleaf.checked (fun _ => ends_abandon)
        fun s' tree herr' hq => restOfChar_ends fuel s' tree herr' hq)).repetition
    · next htoken => exact (parseSubExp_ends hregExp herr hgood hahead htoken).repetition
    · exact (hquiet (bracket_ends herr)).repetition
    · next htoken => exact (parseBackRef_ends herr hgood hahead htoken).repetition
    · exact hoperator
    · exact hoperator
    · exact hoperator
    · exact hoperator
    · split
      · exact ends_fail (by decide)
      · exact hnormal.repetition
    · exact hnormal.repetition
    · next htoken => exact parseAnchor_ends herr hgood htoken
    · next htoken =>
      exact (hquiet (createLeaf_ends herr (by simp [htoken]) (by simp [htoken]))).repetition
    · exact (hquiet (charclassOp_ends herr)).repetition
    · exact (hquiet (charclassOp_ends herr)).repetition
    · exact (hquiet (charclassOp_ends herr)).repetition
    · exact (hquiet (charclassOp_ends herr)).repetition
    · exact ends_fail (by decide)
    · exact ends_some herr ⟨hgood.here, hahead⟩

/-! ## parse_branch, parse_reg_exp, parse -/

theorem branchLoop_ends {s₀ : State σ} {expression : State σ → Option (Result σ)} {nest : Nat}
    (hexpression : Steps rd expression) : ∀ (n : Nat) (s : State σ) (tree : Option Nat),
    s.err = REG_NOERROR → Next rd s₀ s → Ahead rd s →
    Ends (fun s' => Next rd s₀ s' ∧ Ahead rd s') (branchLoop ok expression fuel nest n s tree)
  | 0, _, _, _, _, _ => ends_none
  | n + 1, s, tree, herr, hnext, hahead => by
    rw [branchLoop]
    split
    · refine (hexpression s herr (hnext.here ▸ hnext.good) hahead).checked (fun _ => ends_discard)
        fun s' expr herr' hs' => ?_
      have hnext' : Next rd s₀ s' := hnext.trans hs'.1
      split
      · refine ends_bind fun new hnew => ?_
        dsimp only
        split
        · exact ends_bind fun _ _ => ends_bind fun _ _ => ends_fail (by decide)
        · exact branchLoop_ends hexpression n _ _ herr'
            (hnext'.quiet (quiet_trees (createTree_grown (.inl rfl) _ hnew).sameRefs)) hs'.2
      · exact branchLoop_ends hexpression n s' _ herr' hnext' hs'.2
    · exact ends_some herr ⟨hnext, hahead⟩

theorem parseBranch_steps {expression : State σ → Option (Result σ)} {nest : Nat}
    (hexpression : Steps rd expression) : Steps rd (parseBranch ok expression fuel nest) :=
  fun s herr hgood hahead => (hexpression s herr hgood hahead).checked (fun _ => ends_abandon)
    fun s' tree herr' hs' => branchLoop_ends hexpression fuel s' tree herr' hs'.1 hs'.2

/-- The next branch begins. -/
theorem Inside.alt {s₀ : State σ} {group : Nat} {around : Place} (hs : Inside rd s₀ group around s)
    (htoken : s.token.type = .opAlt) :
    Inside rd s₀ group around ((s.note rd .alt).fetch rd true) := by
  obtain ⟨hgood, hmarks, ⟨branch, hhere⟩, hahead⟩ := hs
  have hstep : ∀ idx, (scan s.marks).step ⟨.alt, idx⟩ =
      { scan s.marks with here := (group, branch + 1) :: around } := fun idx => by
    rw [State.here] at hhere
    rw [Scan.step, hhere]
  have hgrow : s.marks <+: (s.note rd .alt).marks := List.prefix_append _ _
  have hgood' : Good rd around (s.note rd .alt) :=
    hgood.note .alt hahead (by simp [htoken]) (by rw [hstep]; exact hgood.opened) (by simp) rfl rfl
      (hgood.covers.mono hgrow) (hgood.logged.note rfl (by rw [hstep]))
  refine ⟨hgood'.quiet (quiet_fetch true), hmarks.trans hgrow, ⟨branch + 1, ?_⟩,
    hgood'.ahead_fetch true⟩
  exact congrArg Scan.here ((scan_append_singleton s.marks _).trans (hstep _))

/-- A branch begins with the groups in front of all branches, and is merged with the branches
    before. -/
theorem altBranch_ends {s₀ : State σ} {branch : State σ → Option (Result σ)}
    {nest group m₀ : Nat} {around : Place} {tree : Option Nat}
    {k : State σ → Option Nat → Option (Result σ)} (hbranch : Steps rd branch)
    (herr : s.err = REG_NOERROR) (hs : Inside rd s₀ group around s)
    (hinit : ∀ b, Covers s ((group, b) :: around) m₀)
    (hk : ∀ s' br, s'.err = REG_NOERROR → Inside rd s₀ group around s' → s.marks <+: s'.marks →
      Ends P (k s' br)) :
    Ends P (altBranch branch fuel nest m₀ s tree k) := by
  obtain ⟨hgood, hmarks, ⟨b, hhere⟩, hahead⟩ := hs
  unfold altBranch
  split
  · have hgood₁ : Good rd s.here { s with completedBkrefMap := m₀ } :=
      ⟨hgood.opened, hgood.increasing, hgood.passed, hgood.seen, hhere ▸ hinit b,
        hgood.logged.same rfl rfl rfl (.refl _)⟩
    refine (hbranch { s with completedBkrefMap := m₀ } herr hgood₁ hahead).checked
      (fun _ => ends_discard) fun s' br herr' hs' => ?_
    obtain ⟨⟨hgood', hmarks', hhere'⟩, hahead'⟩ := hs'
    have hplace : s'.here = (group, b) :: around := hhere'.trans hhere
    have hown : Covers s' ((group, b) :: around) s'.completedBkrefMap := hhere ▸ hgood'.covers
    have hmerged : Covers s' around (s'.completedBkrefMap ||| s.completedBkrefMap) :=
      hown.of_cons.or (hgood.covers.mono hmarks')
    have hlogged : Logged
        { s' with completedBkrefMap := s'.completedBkrefMap ||| s.completedBkrefMap } :=
      hgood'.logged.same rfl rfl rfl (.refl _)
    exact hk _ br herr' ⟨⟨hgood'.opened, hgood'.increasing, hgood'.passed, hgood'.seen, hmerged,
      hlogged⟩, hmarks.trans hmarks', ⟨b, hplace⟩, hahead'⟩ hmarks'
  · exact hk s none herr ⟨hgood, hmarks, ⟨b, hhere⟩, hahead⟩ (List.prefix_refl _)

theorem altLoop_ends {s₀ : State σ} {branch : State σ → Option (Result σ)} {nest group m₀ : Nat}
    {around : Place} (hbranch : Steps rd branch) : ∀ (n : Nat) (s : State σ) (tree : Option Nat),
    s.err = REG_NOERROR → Inside rd s₀ group around s →
    (∀ b, Covers s ((group, b) :: around) m₀) →
    Ends (Inside rd s₀ group around) (altLoop rd ok branch fuel nest m₀ n s tree)
  | 0, _, _, _, _, _ => ends_none
  | n + 1, s, tree, herr, hs, hinit => by
    rw [altLoop]
    split
    · next htoken =>
      have hgrow : s.marks <+: ((s.note rd .alt).fetch rd true).marks := List.prefix_append _ _
      refine altBranch_ends hbranch herr (hs.alt htoken) (fun b => (hinit b).mono hgrow)
        fun s' br herr' hs' hmarks' => ends_created fun dfa tree hcreate => ?_
      have htrees : SameRefs s'.dfa.trees dfa.trees :=
        (createTree_grown (.inr (.inl rfl)) _ hcreate).sameRefs
      have hdfa : Inside rd s₀ group around { s' with dfa := dfa } :=
        ⟨hs'.good.quiet (quiet_trees htrees), hs'.marks, hs'.here, hs'.ahead⟩
      exact altLoop_ends hbranch n _ (some tree) herr' hdfa
        fun b => (hinit b).mono (hgrow.trans hmarks')
    · exact ends_some herr hs

theorem parseRegExp_descends : ∀ (n nest : Nat), Descends rd (parseRegExp rd ok syn n nest)
  | 0, _ => fun _ _ _ _ _ _ _ _ _ => ends_none
  | n + 1, nest => by
    intro s group branch around herr hhere hgood hinit hahead
    have hbranch : Steps rd (parseBranch ok
        (parseExpression rd ok syn (parseRegExp rd ok syn n (nest + 1)) n n) n nest) :=
      parseBranch_steps (parseExpression_steps (parseRegExp_descends n (nest + 1)) n)
    rw [parseRegExp]
    refine (hbranch s herr hgood hahead).checked (fun _ => ends_abandon) fun s' tree herr' hs' => ?_
    obtain ⟨⟨hgood', hmarks', hhere'⟩, hahead'⟩ := hs'
    have hin : Inside rd s group around s' :=
      ⟨⟨hgood'.opened, hgood'.increasing, hgood'.passed, hgood'.seen,
        (hhere ▸ hgood'.covers : Covers s' ((group, branch) :: around) _).of_cons,
        hgood'.logged⟩, hmarks',
        ⟨branch, hhere'.trans hhere⟩, hahead'⟩
    exact altLoop_ends hbranch n s' tree herr' hin fun b => (hinit b).mono hmarks'

/-- At the start no group is completed. -/
theorem initial_good (regexp : σ) (place : Place) : Good rd place (State.initial regexp) where
  opened := rfl
  increasing := List.Pairwise.nil
  passed := fun m hm => absurd hm List.not_mem_nil
  seen := seen_nil
  covers := fun k hk => absurd hk (by simp [State.initial])
  logged := ⟨rfl, rfl, fun _ htoken => absurd htoken List.not_mem_nil, rfl, fun k => by
    simp [State.initial, refs]⟩

theorem parse_ends (regexp : σ) :
    Ends (fun s => ∃ place, Good rd place s) (parse rd ok syn fuel regexp) := by
  have hfetch : Quiet rd (State.initial regexp) ((State.initial regexp).fetch rd true) :=
    quiet_fetch true
  have hgood : ∀ place, Good rd place ((State.initial regexp).fetch rd true) := fun place =>
    (initial_good regexp place).quiet hfetch
  refine (parseRegExp_descends fuel 0 ((State.initial regexp).fetch rd true) 0 0 [] rfl rfl
    (hgood _) (fun b => (hgood _).covers)
    ((initial_good regexp []).ahead_fetch true)).checked (fun _ => ends_abandon)
    fun s tree herr hs => ?_
  refine ends_bind fun eor heor => ends_bind fun root hroot => ?_
  have hend : SameRefs s.dfa.trees eor.1.trees :=
    createTokenTree_sameRefs (by simp) (by simp) _ heor
  have hjoin : SameRefs eor.1.trees root.1.trees := by
    split at hroot
    · exact (createTree_grown (.inl rfl) _ hroot).sameRefs
    · rw [← Option.some.inj hroot]
      exact .refl _
  dsimp only
  split
  · exact ends_fail (by decide)
  · exact ends_some herr ⟨[], hs.good.quiet (quiet_trees (hend.trans hjoin))⟩

/-- Each back reference stands behind the closing parenthesis of its group, and the group is in no
    other branch of an alternation around the back reference; and there are no back references but
    those, in the trees and in what the parser keeps about them. -/
theorem backRefs_completed {regexp : σ} {s : State σ} {root : Nat}
    (h : parse rd ok syn fuel regexp = some (s, some root)) :
    Logged s ∧ ∀ before after k idx, s.marks = before ++ ⟨.backRef k, idx⟩ :: after →
      ∃ g ∈ (scan before).groups, g.number = k + 1 ∧ g.closedAt < idx ∧
        SameBranches (scan before).here g.place := by
  obtain ⟨-, place, hgood⟩ | ⟨-, hnone⟩ := parse_ends regexp s (some root) h
  · refine ⟨hgood.logged, fun before after k idx hmarks => ?_⟩
    obtain ⟨g, hg, hnumber, hsame⟩ := hgood.seen before k idx after hmarks
    have hincreasing := hgood.increasing
    rw [hmarks, List.pairwise_append] at hincreasing
    exact ⟨g, hg, hnumber, hincreasing.2.2 _ (closedAt_mem hg) _ List.mem_cons_self, hsame⟩
  · exact absurd hnone (by simp)

/-- What `(a)(b\1|c)\2` consists of. -/
def branchMarks : List Mark :=
  [⟨.openSubexp, 1⟩, ⟨.closeSubexp, 3⟩, ⟨.openSubexp, 4⟩]

/-- `(a)(b\1|c)\2` under `RE_NO_BK_PARENS | RE_NO_BK_VBAR`: the first branch sees the first group. -/
theorem backRefs_completed_one : ∃ s root,
    parse (singleByte cLocale none (fun _ => true) (fun _ => true)
        (RE_NO_BK_PARENS ||| RE_NO_BK_VBAR)) (fun _ => true) (RE_NO_BK_PARENS ||| RE_NO_BK_VBAR) 100
      (construct cLocale none (RE_NO_BK_PARENS ||| RE_NO_BK_VBAR) (chars "(a)(b\\1|c)\\2")) =
        some (s, some root) ∧
      originals .opBackRef s.dfa.trees = [0, 1] ∧ Logged s ∧
      s.marks = branchMarks ++ ⟨.backRef 0, 7⟩ :: [⟨.alt, 8⟩, ⟨.closeSubexp, 10⟩, ⟨.backRef 1, 12⟩] ∧
      ∃ g ∈ (scan branchMarks).groups, g.number = 1 ∧ g.closedAt < 7 ∧
        SameBranches (scan branchMarks).here g.place := by
  have hrun : (parse (singleByte cLocale none (fun _ => true) (fun _ => true)
        (RE_NO_BK_PARENS ||| RE_NO_BK_VBAR)) (fun _ => true) (RE_NO_BK_PARENS ||| RE_NO_BK_VBAR) 100
      (construct cLocale none (RE_NO_BK_PARENS ||| RE_NO_BK_VBAR) (chars "(a)(b\\1|c)\\2"))).map
        (fun r => (r.1.marks, originals .opBackRef r.1.dfa.trees, r.2.isSome)) =
      some (branchMarks ++ ⟨.backRef 0, 7⟩ ::
        [⟨.alt, 8⟩, ⟨.closeSubexp, 10⟩, ⟨.backRef 1, 12⟩], [0, 1], true) := by
    decide +kernel
  obtain ⟨⟨s, tree⟩, hparse, heq⟩ := Option.map_eq_some_iff.mp hrun
  obtain ⟨hmarks, heq⟩ := Prod.mk.inj heq
  obtain ⟨hnodes, hsome⟩ := Prod.mk.inj heq
  obtain ⟨root, rfl⟩ := Option.isSome_iff_exists.mp hsome
  obtain ⟨hlogged, hback⟩ := backRefs_completed hparse
  exact ⟨s, root, hparse, hnodes, hlogged, hmarks, hback _ _ 0 7 hmarks⟩

end Librecompat.Regcomp
