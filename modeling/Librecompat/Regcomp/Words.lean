/-
  Anchors about words, in the parser.

  Such an anchor is accepted in `parseAnchor` only, where `init_word_char` is called. So as long as
  `word_ops_used` is not set no tree has one (`State.Calm`), and every function of the parser keeps
  this.
-/
import Librecompat.Grouping.Model
import Librecompat.Regcomp.Reader
import Librecompat.RegTree.Tokens

namespace Librecompat.Regcomp

open Librecompat.Lib Librecompat.RegTree
open Librecompat.Grouping (NEXT_WORD_CONSTRAINT NEXT_NOTWORD_CONSTRAINT)
open Librecompat.Regex (RegErrcode REG_NOERROR REG_ESPACE)

/-! ## Constraints about words -/

/-- The constraint does not ask whether a word character is next. -/
def Wordless (constraint : Nat) : Prop :=
  constraint &&& (NEXT_WORD_CONSTRAINT ||| NEXT_NOTWORD_CONSTRAINT) = 0

theorem wordless_zero : Wordless 0 := Nat.zero_and _

theorem Wordless.or {a b : Nat} (ha : Wordless a) (hb : Wordless b) : Wordless (a ||| b) := by
  rw [Wordless, Nat.and_or_distrib_right, ha, hb, Nat.or_zero]

/-- `init_word_char` is called for each anchor that has such a constraint. -/
theorem wordless_of_anchor {opr : Nat}
    (h : opr &&& (WORD_DELIM ||| NOT_WORD_DELIM ||| WORD_FIRST ||| WORD_LAST) = 0) :
    Wordless opr := by
  have hsub : NEXT_WORD_CONSTRAINT ||| NEXT_NOTWORD_CONSTRAINT =
      (WORD_DELIM ||| NOT_WORD_DELIM ||| WORD_FIRST ||| WORD_LAST) &&&
        (NEXT_WORD_CONSTRAINT ||| NEXT_NOTWORD_CONSTRAINT) := by decide
  rw [Wordless, hsub, ← Nat.and_assoc, h, Nat.zero_and]

/-- The token is no anchor about words. -/
def NoWordAnchor (token : Token) : Prop := token.type = .anchor → Wordless token.opr

theorem noWordAnchor {token : Token} (h : token.type ≠ .anchor) : NoWordAnchor token :=
  fun htype => absurd htype h

theorem flagless_noWordAnchor : Flagless NoWordAnchor := fun _ _ _ h => h

/-! ## Calls -/

variable {σ : Type} {rd : Reader σ} {ok : Nat → Bool} {syn : RegSyntax} {fuel : Nat}

def State.Calm (s : State σ) : Prop :=
  s.wordOpsUsed = false → AllTokens NoWordAnchor s.dfa.trees

/-- The call leaves such a state. -/
def Calms (r : Option (Result σ)) : Prop := Yields (fun q => q.1.Calm) r

variable {s : State σ} {r : Option (Result σ)}

theorem calms_some {tree : Option Nat} (h : s.Calm) : Calms (some (s, tree)) := yields_some.mpr h

theorem calms_fail {err : RegErrcode} (h : s.Calm) : Calms (fail s err) := yields_some.mpr h

theorem calms_abandon (h : s.Calm) : Calms (abandon s) := yields_some.mpr h

theorem State.Calm.freeAll (h : s.Calm) (tree : Option Nat) :
    Yields State.Calm (freeAll fuel s tree) := by
  cases tree with
  | none => exact yields_some.mpr h
  | some tree =>
    refine yields_bind fun dfa hdfa => yields_some.mpr fun hwords => ?_
    have htrees : dfa.trees = s.dfa.trees := free_trees tree dfa hdfa
    exact htrees ▸ h hwords

theorem calms_discard {tree : Option Nat} (h : s.Calm) : Calms (discard fuel tree s) :=
  (h.freeAll tree).bind fun _ _ h' => calms_some h'

theorem Calms.checked {failed : State σ → Option (Result σ)}
    {k : State σ → Option Nat → Option (Result σ)} (h : Calms r)
    (hfailed : ∀ s, s.Calm → Calms (failed s)) (hk : ∀ s tree, s.Calm → Calms (k s tree)) :
    Calms (checked r failed k) := by
  refine h.bind fun q _ hq => ?_
  split
  · exact hfailed q.1 hq
  · exact hk q.1 q.2 hq

theorem calms_created {a : Option (RegTree.Dfa × Option Nat)}
    {k : State σ → Nat → Option (Result σ)}
    (ha : s.wordOpsUsed = false → Yields (fun q => AllTokens NoWordAnchor q.1.trees) a)
    (hk : ∀ dfa tree, a = some (dfa, some tree) → State.Calm { s with dfa := dfa } →
      Calms (k { s with dfa := dfa } tree)) : Calms (created s a k) := by
  refine yields_bind fun q hq => ?_
  obtain ⟨dfa, tree⟩ := q
  have hdfa : State.Calm { s with dfa := dfa } := fun hwords => ha hwords _ hq
  cases tree with
  | none => exact calms_fail hdfa
  | some tree => exact hk dfa tree hq hdfa

theorem State.Calm.createTree (h : s.Calm) {left right : Option Nat} {type : TokenType}
    (htype : type ≠ .anchor) (hwords : s.wordOpsUsed = false) :
    Yields (fun q => AllTokens NoWordAnchor q.1.trees) (createTree ok s.dfa left right type) :=
  (h hwords).createTree flagless_noWordAnchor (noWordAnchor htype)

theorem calms_createLeaf (h : s.Calm) (htoken : s.token.type ≠ .anchor) :
    Calms (createLeaf ok s) :=
  calms_created (fun hwords => (h hwords).createTokenTree flagless_noWordAnchor
    (noWordAnchor htoken)) fun _ _ _ h' => calms_some h'

theorem calms_normalChar (h : s.Calm) : Calms (normalChar ok s) :=
  calms_createLeaf h (by simp)

/-! ## Repetition operators -/

theorem calms_parseDup (h : s.Calm) (tree : Option Nat) :
    Calms (parseDup rd ok syn fuel s tree) := by
  refine yields_bind fun tokens _ => yields_bind fun p hp => yields_some.mpr fun hwords => ?_
  refine (parseDupOp_grown p hp).allTokens flagless_noWordAnchor (fun token htype => ?_) (h hwords)
  refine noWordAnchor fun hanchor => ?_
  rw [hanchor] at htype
  exact absurd htype (by simp [TokenType.Repeats])

theorem calms_dupLoop : ∀ (n : Nat) (s : State σ) (tree : Option Nat), s.Calm →
    Calms (dupLoop rd ok syn fuel n s tree)
  | 0, _, _, _ => yields_none
  | n + 1, s, tree, h => by
    rw [dupLoop]
    split
    · refine (calms_parseDup h tree).checked (fun _ => calms_discard) fun s' dupTree h' => ?_
      split
      · exact (h'.freeAll dupTree).bind fun _ _ h₂ => calms_fail h₂
      · exact calms_dupLoop n s' dupTree h'
    · exact calms_some h

theorem Calms.repetition (h : Calms r) : Calms (repetition rd ok syn fuel r) :=
  h.checked (fun _ => calms_abandon) fun s tree h' => calms_dupLoop fuel (s.fetch rd false) tree h'

/-! ## parse_expression -/

/-- Every byte is the first of a character, and the sets become no anchors. -/
structure Reader.Plain (rd : Reader σ) : Prop where
  partialByte : ∀ s, rd.partialByte s = false
  bracket : ∀ {dfa : RegTree.Dfa} {token s}, AllTokens NoWordAnchor dfa.trees →
    Yields (fun r => AllTokens NoWordAnchor r.1.trees) (rd.parseBracketExp dfa token s)
  charclass : ∀ {type} {dfa : RegTree.Dfa}, AllTokens NoWordAnchor dfa.trees →
    Yields (fun r => AllTokens NoWordAnchor r.1.trees) (rd.buildCharclassOp type dfa)

theorem calms_restOfChar (hrd : rd.Plain) (h : s.Calm) {n : Nat} {tree : Option Nat} :
    Calms (restOfChar rd ok n s tree) := by
  cases n with
  | zero => exact yields_none
  | succ n =>
    rw [restOfChar, hrd.partialByte]
    exact calms_some h

theorem calms_bracket (hrd : rd.Plain) (h : s.Calm) : Calms (bracket rd s) :=
  yields_bind fun q hq => yields_some.mpr fun hwords => hrd.bracket (h hwords) q hq

theorem calms_charclassOp (hrd : rd.Plain) (h : s.Calm) : Calms (charclassOp rd s) :=
  yields_bind fun q hq => yields_some.mpr fun hwords => hrd.charclass (h hwords) q hq

/-- The word table is there if the anchor is about words. -/
theorem useWords_wordless :
    (useWords s).wordOpsUsed = true ∨
      Wordless s.token.opr ∧ s.token.opr ≠ WORD_DELIM ∧ s.token.opr ≠ NOT_WORD_DELIM := by
  unfold useWords
  split
  · exact .inl rfl
  · next hzero =>
    rw [not_not] at hzero
    refine .inr ⟨wordless_of_anchor hzero, ?_, ?_⟩
    · rintro heq
      rw [heq] at hzero
      exact absurd hzero (by decide)
    · rintro heq
      rw [heq] at hzero
      exact absurd hzero (by decide)

theorem State.Calm.useWords (h : s.Calm) : (useWords s).Calm := by
  unfold Regcomp.useWords
  split
  · exact fun hwords => absurd hwords (by simp)
  · exact h

/-- `WORD_DELIM` and `NOT_WORD_DELIM` are about words. -/
theorem calms_wordDelim (hwords : s.wordOpsUsed = true) : Calms (wordDelim ok s) := by
  refine yields_bind fun first _ => yields_bind fun last _ => yields_bind fun alt _ => ?_
  dsimp only
  split
  · exact calms_fail fun hno => absurd (hwords.symm.trans hno) (by simp)
  · exact calms_some fun hno => absurd (hwords.symm.trans hno) (by simp)

theorem calms_parseAnchor (h : s.Calm) : Calms (parseAnchor rd ok s) := by
  have htrees : Calms
      (if (useWords s).token.opr = WORD_DELIM ∨ (useWords s).token.opr = NOT_WORD_DELIM then
        wordDelim ok (useWords s)
      else createLeaf ok (useWords s)) := by
    rw [useWords_token]
    obtain hwords | ⟨hopr, hfirst, hlast⟩ := useWords_wordless (s := s)
    · split
      · exact calms_wordDelim hwords
      · exact calms_created (fun hno => absurd (hwords.symm.trans hno) (by simp)) fun _ _ _ h' =>
          calms_some h'
    · rw [if_neg (not_or.mpr ⟨hfirst, hlast⟩)]
      refine calms_created (fun hwords => ?_) fun _ _ _ h' => calms_some h'
      refine (h.useWords hwords).createTokenTree flagless_noWordAnchor fun _ => ?_
      rwa [useWords_token]
  unfold parseAnchor
  refine htrees.checked (fun _ => calms_abandon) fun s' tree h' => ?_
  have hfetch : (s'.fetch rd false).Calm := h'
  exact calms_some hfetch

theorem calms_parseBackRef (h : s.Calm) (htoken : s.token.type = .opBackRef) :
    Calms (parseBackRef rd ok s) := by
  rw [parseBackRef]
  split
  · exact calms_fail h
  · refine calms_created (fun hwords => ?_) fun _ _ _ h' => calms_some h'
    exact (h hwords).createTokenTree flagless_noWordAnchor
      (noWordAnchor (by simp [State.note, htoken]))

/-- The number of the group goes into a token of type `SUBEXP`. -/
theorem calms_closeSubExp (h : s.Calm) {curNsub : Nat} {tree : Option Nat} :
    Calms (closeSubExp rd ok curNsub s tree) := by
  have hnote : (s.note rd .closeSubexp).Calm := h
  have hnode : TokenType.subexp ≠ .anchor := by simp
  unfold closeSubExp
  refine calms_created (fun hwords => hnote.createTree hnode hwords) fun dfa new hnew h' => ?_
  refine yields_bind fun dfa' hdfa' => yields_some.mpr fun hwords => ?_
  refine (h' hwords).modify (fun node hnode => noWordAnchor ?_) dfa' hdfa'
  obtain ⟨node', hnode', htype⟩ := (createTokenTree_types _ hnew).2 new rfl
  obtain rfl := Option.some.inj (hnode.symm.trans hnode')
  simp [htype]

/-- What every function keeps that gets a state. -/
def CalmsAll (f : State σ → Option (Result σ)) : Prop := ∀ s, s.Calm → Calms (f s)

variable {f : State σ → Option (Result σ)}

theorem calms_parseSubExp (hf : CalmsAll f) (h : s.Calm) :
    Calms (parseSubExp rd ok f fuel s) := by
  have hopen : (openSubExp rd s).Calm := h
  unfold parseSubExp
  dsimp only
  split
  · exact calms_closeSubExp hopen
  · have hbody : Yields (fun q => q.1.Calm) (groupBody f fuel (openSubExp rd s)) := by
      refine (hf _ hopen).bind fun q _ hq => ?_
      dsimp only
      split
      · exact (hq.freeAll q.2).bind fun s' _ h' => yields_some.mpr h'
      split
      · exact yields_some.mpr hq
      · exact yields_some.mpr hq
    refine hbody.bind fun q _ hq => ?_
    split
    · exact calms_abandon hq
    · exact calms_closeSubExp hq

theorem calms_parseExpression (hrd : rd.Plain) (hf : CalmsAll f) : ∀ n : Nat,
    CalmsAll (parseExpression rd ok syn f fuel n)
  | 0 => fun _ _ => yields_none
  | n + 1 => by
    intro s h
    have hoperator : Calms
        (if s.token.type = .opOpenDupNum ∧ syn.has RE_CONTEXT_INVALID_DUP then fail s REG_BADRPT
        else if syn.has RE_CONTEXT_INVALID_OPS then fail s REG_BADRPT
        else if syn.has RE_CONTEXT_INDEP_OPS then
          parseExpression rd ok syn f fuel n (s.fetch rd false)
        else repetition rd ok syn fuel (normalChar ok s)) := by
      split
      · exact calms_fail h
      split
      · exact calms_fail h
      split
      · exact calms_parseExpression hrd hf n (s.fetch rd false) h
      · exact (calms_normalChar h).repetition
    rw [parseExpression]
    split
    · next htoken =>
      exact ((calms_createLeaf h (by simp [htoken])).checked (fun _ => calms_abandon)
        fun _ _ h' => calms_restOfChar hrd h').repetition
    · exact (calms_parseSubExp hf h).repetition
    · exact (calms_bracket hrd h).repetition
    · next htoken => exact (calms_parseBackRef h htoken).repetition
    · exact hoperator
    · exact hoperator
    · exact hoperator
    · exact hoperator
    · split
      · exact calms_fail h
      · exact (calms_normalChar h).repetition
    · exact (calms_normalChar h).repetition
    · exact calms_parseAnchor h
    · next htoken => exact (calms_createLeaf h (by simp [htoken])).repetition
    · exact (calms_charclassOp hrd h).repetition
    · exact (calms_charclassOp hrd h).repetition
    · exact (calms_charclassOp hrd h).repetition
    · exact (calms_charclassOp hrd h).repetition
    · exact calms_fail h
    · exact calms_abandon h

/-! ## parse_branch, parse_reg_exp, parse -/

theorem calms_branchLoop {nest : Nat} (hf : CalmsAll f) : ∀ (n : Nat) (s : State σ)
    (tree : Option Nat), s.Calm → Calms (branchLoop ok f fuel nest n s tree)
  | 0, _, _, _ => yields_none
  | n + 1, s, tree, h => by
    rw [branchLoop]
    split
    · refine (hf s h).checked (fun _ => calms_discard) fun s' expr h' => ?_
      split
      · refine yields_bind fun q hq => ?_
        have hnew : State.Calm { s' with dfa := q.1 } := fun hwords =>
          h'.createTree (by simp) hwords q hq
        dsimp only
        split
        · exact (hnew.freeAll expr).bind fun _ _ h₁ => (h₁.freeAll tree).bind fun _ _ h₂ =>
            calms_fail h₂
        · exact calms_branchLoop hf n _ _ hnew
      · exact calms_branchLoop hf n s' _ h'
    · exact calms_some h

theorem calms_parseBranch {nest : Nat} (hf : CalmsAll f) :
    CalmsAll (parseBranch ok f fuel nest) :=
  fun s h => (hf s h).checked (fun _ => calms_abandon) fun s' tree h' =>
    calms_branchLoop hf fuel s' tree h'

theorem calms_altLoop {nest m₀ : Nat} (hf : CalmsAll f) : ∀ (n : Nat) (s : State σ)
    (tree : Option Nat), s.Calm → Calms (altLoop rd ok f fuel nest m₀ n s tree)
  | 0, _, _, _ => yields_none
  | n + 1, s, tree, h => by
    have hnext : ∀ s' br, State.Calm s' → Calms
        (created s' (createTree ok s'.dfa tree br .opAlt) fun s tree =>
          altLoop rd ok f fuel nest m₀ n s (some tree)) := fun s' br h' =>
      calms_created (h'.createTree (by simp)) fun _ new _ hnew =>
        calms_altLoop hf n _ (some new) hnew
    have hbegin : State.Calm ((s.note rd .alt).fetch rd true) := h
    rw [altLoop]
    split
    · unfold altBranch
      split
      · have hfirst : State.Calm
            { (s.note rd .alt).fetch rd true with completedBkrefMap := m₀ } := h
        exact (hf _ hfirst).checked (fun _ => calms_discard) fun s' br h' => hnext _ br h'
      · exact hnext _ none hbegin
    · exact calms_some h

theorem calms_parseRegExp (hrd : rd.Plain) : ∀ (n nest : Nat),
    CalmsAll (parseRegExp rd ok syn n nest)
  | 0, _ => fun _ _ => yields_none
  | n + 1, nest => by
    intro s h
    have hbranch : CalmsAll (parseBranch ok
        (parseExpression rd ok syn (parseRegExp rd ok syn n (nest + 1)) n n) n nest) :=
      calms_parseBranch (calms_parseExpression hrd (calms_parseRegExp hrd n (nest + 1)) n)
    rw [parseRegExp]
    exact (hbranch s h).checked (fun _ => calms_abandon) fun s' tree h' =>
      calms_altLoop hbranch n s' tree h'

theorem calms_parse (hrd : rd.Plain) (regexp : σ) : Calms (parse rd ok syn fuel regexp) := by
  have hstart : State.Calm ((State.initial regexp).fetch rd true) := fun _ =>
    fun node hnode => absurd hnode List.not_mem_nil
  refine (calms_parseRegExp hrd fuel 0 _ hstart).checked (fun _ => calms_abandon)
    fun s tree h => ?_
  refine yields_bind fun q₁ hq₁ => ?_
  have h₁ : State.Calm { s with dfa := q₁.1 } := fun hwords => h.createTree (by simp) hwords q₁ hq₁
  refine yields_bind fun q₂ hq₂ => ?_
  have h₂ : State.Calm { s with dfa := q₂.1 } := fun hwords => by
    split at hq₂
    · exact h₁.createTree (by simp) hwords q₂ hq₂
    · rw [← Option.some.inj hq₂]
      exact h₁ hwords
  dsimp only
  split
  · exact calms_fail h₂
  · exact calms_some h₂

/-! ## The reader of a single-byte locale -/

variable {loc : Locale} {trans : Option (UInt8 → UInt8)} {okSet : Nat → Bool}

theorem bracketTree_noWordAnchor {dfa : RegTree.Dfa} {sbcset : Regex.Bitset}
    (h : AllTokens NoWordAnchor dfa.trees) :
    Yields (fun r => AllTokens NoWordAnchor r.1.trees) (bracketTree ok dfa sbcset) :=
  (h.createTokenTree flagless_noWordAnchor (noWordAnchor (by simp))).bind fun _ _ h' =>
    yields_some.mpr h'

theorem buildCharclassOp_noWordAnchor {dfa : RegTree.Dfa} {className extra : List UInt8}
    {nonMatch : Bool} (h : AllTokens NoWordAnchor dfa.trees) :
    Yields (fun r => AllTokens NoWordAnchor r.1.trees)
      (buildCharclassOp loc trans ok okSet className extra nonMatch dfa) := by
  unfold buildCharclassOp
  split
  · exact yields_some.mpr h
  split
  · exact yields_some.mpr h
  · exact bracketTree_noWordAnchor h

theorem singleByte_plain : (singleByte loc trans ok okSet syn).Plain where
  partialByte _ := rfl
  bracket {dfa token input} h := by
    simp only [singleByte, parseBracketExp]
    split
    · exact yields_some.mpr h
    · refine yields_bind fun r _ => ?_
      cases r with
      | error err => exact yields_some.mpr h
      | ok set => exact (bracketTree_noWordAnchor h).bind fun _ _ h' => yields_some.mpr h'
  charclass {type dfa} h := by
    simp only [singleByte, charclassTree]
    split
    · exact buildCharclassOp_noWordAnchor h
    · exact buildCharclassOp_noWordAnchor h

end Librecompat.Regcomp
