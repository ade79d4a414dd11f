/-
  The parser builds trees.

  As long as storage can be allocated, a call that reports no error leaves a tree whose nodes stand
  in memory with the links of the tree, behind everything that was there before (`Planted`). So the
  trees of two calls, one after the other, share no node and can be put under a new one
  (`Planted.create`). What holds of a call holds for any fuel that gives a result: the walks that
  copy and mark trees have nothing to choose.
-/
import Librecompat.RegTree.Apart
import Librecompat.RegTree.Fuel
import Librecompat.RegTree.Proper
import Librecompat.Regcomp.Words

namespace Librecompat.Regcomp

open Librecompat.Lib Librecompat.RegTree
open Librecompat.Regex (RegErrcode REG_NOERROR REG_ESPACE)

variable {σ : Type} {rd : Reader σ} {ok : Nat → Bool} {syn : RegSyntax} {fuel : Nat}

/-! ## Trees behind a memory -/

structure Planted (base : List BinTree) (dfa : Dfa) (tree : Option Nat) : Prop where
  stands : ∃ t, Stands dfa tree t ∧ t.Proper
  apart : Apart base dfa.trees
  behind : From base.length tree

variable {base : List BinTree} {dfa dfa₁ dfa₂ : Dfa}

theorem stands_nil (dfa : Dfa) : Stands dfa none .nil := ⟨rfl, trivial, List.nodup_nil⟩

theorem planted_none (dfa : Dfa) : Planted dfa.trees dfa none :=
  ⟨⟨.nil, stands_nil dfa, trivial⟩, Apart.refl _, from_none _⟩

/-- A tree that was planted first, behind what has been planted since. -/
theorem Planted.later {tree : Option Nat} (h : Planted base dfa₁ tree)
    (hapart : Apart dfa₁.trees dfa₂.trees) : Planted base dfa₂ tree := by
  obtain ⟨t, ht, hproper⟩ := h.stands
  exact ⟨⟨t, ⟨ht.root, hapart.linked ht.linked, ht.nodup⟩, hproper⟩, h.apart.trans hapart,
    h.behind⟩

/-- A tree that was planted behind another. -/
theorem Planted.earlier {tree tree' : Option Nat} (h : Planted base dfa₁ tree)
    (h' : Planted dfa₁.trees dfa₂ tree') : Planted base dfa₂ tree' :=
  ⟨h'.stands, h.apart.trans h'.apart, h'.behind.mono h.apart.length_le⟩

/-- Two trees, one made behind the other, are put under a new node. -/
theorem stands_join (hok : ∀ k, ok k = true) {L R : Tree} (hapart : Apart base dfa₁.trees)
    (hL : Stands dfa₁ L.root L) (hl : From base.length L.root) (hR : Stands dfa₂ R.root R)
    (hr : Makes dfa₁.trees (dfa₂, R.root)) (type : TokenType) :
    ∃ dfa' new, createTree ok dfa₂ L.root R.root type = some (dfa', some new) ∧
      Makes base (dfa', some new) ∧ Stands dfa' (some new) (.node new { type := type } L R) := by
  have hdisj : (L.addrs ++ R.addrs).Nodup := by
    refine List.nodup_append'.mpr ⟨hL.nodup, hR.nodup, fun a ha ha' => ?_⟩
    exact absurd (hL.linked.lt a ha) (Nat.not_lt.mpr (hr.1.le_of_mem hR.linked hr.2 a ha'))
  have hlt : ∀ a ∈ L.addrs ++ R.addrs, a < dfa₂.trees.length := fun a ha =>
    (List.mem_append.mp ha).elim ((hr.1.linked hL.linked).lt a) (hR.linked.lt a)
  obtain ⟨dfa', hcreate, hnew, -⟩ :=
    createTree_spec hok (hr.1.linked hL.linked) hR.linked hdisj type
  have hmakes := (hapart.trans hr.1).createTree hl (hr.2.mono hapart.length_le) type _ hcreate
  refine ⟨dfa', _, hcreate, hmakes, rfl, hnew, ?_⟩
  exact List.nodup_cons.mpr ⟨fun hmem => lt_irrefl _ (hlt _ hmem), hdisj⟩

/-- The new tree is a proper one. -/
theorem Planted.create (hok : ∀ k, ok k = true) {l r : Option Nat} (hl : Planted base dfa₁ l)
    (hr : Planted dfa₁.trees dfa₂ r) (type : TokenType)
    (hproper : ∀ new L R, L.root = l → R.root = r → L.Proper → R.Proper →
      (RegTree.Tree.node new { type := type } L R).Proper) :
    ∃ dfa' new, createTree ok dfa₂ l r type = some (dfa', some new) ∧
      Planted base dfa' (some new) := by
  obtain ⟨L, hL, hLproper⟩ := hl.stands
  obtain ⟨R, hR, hRproper⟩ := hr.stands
  obtain rfl := hL.root
  obtain rfl := hR.root
  obtain ⟨dfa', new, hcreate, hmakes, hnew⟩ :=
    stands_join hok hl.apart hL hl.behind hR ⟨hr.apart, hr.behind⟩ type
  exact ⟨dfa', new, hcreate, ⟨_, hnew, hproper new L R rfl rfl hLproper hRproper⟩, hmakes.1,
    hmakes.2⟩

/-- The types of the tokens that stand for themselves. -/
def IsLeaf (type : TokenType) : Prop :=
  type ≠ .concat ∧ type ≠ .opAlt ∧ type ≠ .opDupAsterisk ∧ type ≠ .subexp ∧ type ≠ .endOfRe

theorem proper_leaf {token : Token} (h : IsLeaf token.type) (a : Nat) :
    (RegTree.Tree.node a token .nil .nil).Proper := by
  obtain ⟨hconcat, halt, hdup, hsubexp, hend⟩ := h
  unfold Tree.Proper
  split
  all_goals first | contradiction | exact ⟨rfl, rfl⟩

theorem stands_leaf (hok : ∀ k, ok k = true) (dfa : Dfa) (token : Token) :
    ∃ dfa' new, createTokenTree ok dfa none none token = some (dfa', some new) ∧
      Makes dfa.trees (dfa', some new) ∧ Stands dfa' (some new)
        (.node new { token with duplicated := false, optSubexp := false } .nil .nil) := by
  obtain ⟨dfa', hcreate, htrees⟩ := createTokenTree_leaf hok dfa token
  have hmakes := (Apart.refl dfa.trees).createTokenTree (from_none _) (from_none _) token _ hcreate
  refine ⟨dfa', _, hcreate, hmakes, rfl, ⟨?_, trivial, trivial⟩, List.nodup_singleton _⟩
  rw [htrees, List.getElem?_concat_length]
  rfl

/-- A leaf. -/
theorem planted_leaf (hok : ∀ k, ok k = true) (dfa : Dfa) {token : Token}
    (htoken : IsLeaf token.type) :
    ∃ dfa' new, createTokenTree ok dfa none none token = some (dfa', some new) ∧
      Planted dfa.trees dfa' (some new) := by
  obtain ⟨dfa', new, hcreate, hmakes, hstands⟩ := stands_leaf hok dfa token
  refine ⟨dfa', new, hcreate, ⟨_, hstands, ?_⟩, hmakes.1, hmakes.2⟩
  exact proper_leaf htoken new

/-! ## Calls -/

/-- What a call leaves: a tree, or an error and a null pointer. -/
def Plants (base : List BinTree) (r : Option (Result σ)) : Prop :=
  Yields (fun q => q.1.err = REG_NOERROR ∧ Planted base q.1.dfa q.2 ∨
    q.1.err ≠ REG_NOERROR ∧ q.2 = none) r

variable {s : State σ} {r : Option (Result σ)}

theorem plants_some {tree : Option Nat} (herr : s.err = REG_NOERROR)
    (h : Planted base s.dfa tree) : Plants base (some (s, tree)) :=
  yields_some.mpr (.inl ⟨herr, h⟩)

theorem plants_fail {err : RegErrcode} (herr : err ≠ REG_NOERROR) : Plants base (fail s err) :=
  yields_some.mpr (.inr ⟨herr, rfl⟩)

theorem plants_abandon (herr : s.err ≠ REG_NOERROR) : Plants base (abandon s) :=
  yields_some.mpr (.inr ⟨herr, rfl⟩)

theorem yields_freeAll_err (s : State σ) (tree : Option Nat) :
    Yields (fun s' => s'.err = s.err) (freeAll fuel s tree) := by
  cases tree with
  | none => exact yields_some.mpr rfl
  | some tree => exact yields_bind fun dfa _ => yields_some.mpr rfl

theorem plants_discard {tree : Option Nat} (herr : s.err ≠ REG_NOERROR) :
    Plants base (discard fuel tree s) :=
  (yields_freeAll_err s tree).bind fun s' _ hs' => plants_abandon (by rwa [hs'])

theorem Plants.checked {base' : List BinTree} {failed : State σ → Option (Result σ)}
    {k : State σ → Option Nat → Option (Result σ)} (h : Plants base r)
    (hfailed : ∀ s, s.err ≠ REG_NOERROR → Plants base' (failed s))
    (hk : ∀ s tree, s.err = REG_NOERROR → Planted base s.dfa tree → Plants base' (k s tree)) :
    Plants base' (checked r failed k) := by
  refine h.bind fun q _ hq => ?_
  obtain ⟨herr, hplanted⟩ | ⟨herr, htree⟩ := hq
  · rw [if_neg fun hbad => hbad.1 herr]
    exact hk q.1 q.2 herr hplanted
  · rw [if_pos ⟨herr, htree⟩]
    exact hfailed q.1 herr

/-- A call that makes a tree. -/
theorem plants_created {a : Option (Dfa × Option Nat)} {k : State σ → Nat → Option (Result σ)}
    (ha : ∃ dfa' new, a = some (dfa', some new) ∧ Planted base dfa' (some new))
    (hk : ∀ dfa' new, Planted base dfa' (some new) → Plants base (k { s with dfa := dfa' } new)) :
    Plants base (created s a k) := by
  obtain ⟨dfa', new, rfl, hnew⟩ := ha
  exact hk dfa' new hnew

theorem plants_createLeaf (hok : ∀ k, ok k = true) (herr : s.err = REG_NOERROR)
    (htoken : IsLeaf s.token.type) : Plants s.dfa.trees (createLeaf ok s) :=
  plants_created (planted_leaf hok s.dfa htoken) fun _ _ hnew => plants_some herr hnew

theorem plants_normalChar (hok : ∀ k, ok k = true) (herr : s.err = REG_NOERROR) :
    Plants s.dfa.trees (normalChar ok s) :=
  @plants_createLeaf _ _ { s with token := { s.token with type := .character } } hok herr
    (by simp [IsLeaf])

/-! ## Repetition operators -/

theorem fetchNumber_cases {num : Int} {token : Token} {regexp : List Token} (h : -2 ≤ num) :
    -2 ≤ (fetchNumber num token regexp).1 := by
  induction regexp generalizing num token with
  | nil => exact le_refl _
  | cons next regexp ih =>
    rw [fetchNumber]
    split
    · exact le_refl _
    split
    · exact h
    · refine ih ?_
      unfold RE_DUP_MAX
      split
      · exact le_refl _
      split
      · omega
      · omega

/-- An error is one, and bounds that are accepted are in order. -/
def BoundsRight : Bounds → Prop
  | .error err => err ≠ REG_NOERROR
  | .rollback => True
  | .accepted start stop => 0 ≤ start ∧ (stop = -1 ∨ start ≤ stop)

theorem dupBounds_right (invalidOrd : Bool) (token : Token) (regexp : List Token) :
    BoundsRight (dupBounds invalidOrd token regexp).1 := by
  have hnumber : -2 ≤ (fetchNumber (-1) token regexp).1 := fetchNumber_cases (by decide)
  unfold dupBounds
  by_cases hopen : token.type = .opOpenDupNum
  · rw [if_pos hopen]
    dsimp only
    split
    · exact (by decide : REG_BADBR ≠ REG_NOERROR)
    generalize hfirst : (if (fetchNumber (-1) token regexp).1 = -1 then 0
      else (fetchNumber (-1) token regexp).1) = start
    have hstart : start = -2 ∨ 0 ≤ start := by
      rw [← hfirst]
      split
      · omega
      · omega
    generalize (if start = -2 then _ else _ : Int × Token × List Token) = q
    obtain ⟨stop, tok, rest⟩ := q
    dsimp only
    split
    · split
      · change (if tok.type = .endOfRe then REG_EBRACE else REG_BADBR) ≠ REG_NOERROR
        split
        · decide
        · decide
      · trivial
    next hbounds =>
    split
    · exact (by decide : REG_BADBR ≠ REG_NOERROR)
    next hle =>
    by_cases hmax : RE_DUP_MAX < (if stop = -1 then start else stop)
    · rw [if_pos hmax]
      exact (by decide : REG_ESIZE ≠ REG_NOERROR)
    · rw [if_neg hmax]
      change 0 ≤ start ∧ (stop = -1 ∨ start ≤ stop)
      omega
  · rw [if_neg hopen]
    change (0 : Int) ≤ (if token.type = .opDupPlus then 1 else 0) ∧
      ((if token.type = .opDupQuestion then (1 : Int) else -1) = -1 ∨
        (if token.type = .opDupPlus then (1 : Int) else 0) ≤
          (if token.type = .opDupQuestion then 1 else -1))
    split
    · split
      · omega
      · omega
    · split
      · omega
      · omega

/-- The expansion of an operand that stands stands behind the same memory. -/
theorem expandDup_planted (hok : ∀ k, ok k = true) {elem : Nat} {start stop : Int}
    (h : Planted base dfa (some elem)) (hstart : 0 ≤ start)
    (hstop : stop = -1 ∨ start ≤ stop ∧ 0 < stop) :
    Yields (fun q => q.2.2 = REG_NOERROR ∧ Planted base q.1 q.2.1)
      (expandDup ok fuel dfa elem start stop) := by
  obtain ⟨T, hT, hproper⟩ := h.stands
  obtain ⟨dfa', p, R, ms, os, hrun, hR, hexp⟩ :=
    expandDup_spec hok hT hstart hstop (Nat.le_max_right fuel (4 * T.size + 2))
  have hmakes := h.apart.expandDup (from_some.mp h.behind) _ hrun
  have hne : T ≠ .nil := fun hnil => by simpa [hnil] using hT.root
  exact (expandDup_below (Nat.le_max_left _ _) _ _ _ _).yields_of_eq hrun
    ⟨rfl, ⟨R, hR, hexp.proper hproper hne⟩, hmakes.1, hmakes.2⟩

theorem parseDupOp_planted (hok : ∀ k, ok k = true) {elem : Option Nat} {regexp : List Token}
    {token : Token} {invalidOrd : Bool} (h : Planted base dfa elem) :
    Yields (fun p => p.err = REG_NOERROR ∧ Planted base p.dfa p.tree ∨
      p.err ≠ REG_NOERROR ∧ p.tree = none)
      (parseDupOp ok fuel elem regexp dfa token invalidOrd) := by
  have hright := dupBounds_right invalidOrd token regexp
  unfold parseDupOp
  split
  · next hbounds =>
    rw [hbounds] at hright
    exact yields_some.mpr (.inr ⟨hright, rfl⟩)
  · exact yields_some.mpr (.inl ⟨rfl, h⟩)
  · next hbounds =>
    dsimp only
    split
    · exact yields_some.mpr (.inl ⟨rfl, h⟩)
    · rw [hbounds] at hright
      obtain ⟨hstart, hstop⟩ := hright
      split
      · refine (h.apart.free (from_some.mp h.behind)).bind fun dfa' _ hdfa' =>
          yields_some.mpr (.inl ⟨rfl, ?_⟩)
        exact ⟨⟨.nil, stands_nil dfa', trivial⟩, hdfa', from_none _⟩
      · next hzero =>
        refine (expandDup_planted hok h hstart (by omega)).bind fun q _ hq =>
          yields_some.mpr (.inl hq)

theorem plants_parseDup (hok : ∀ k, ok k = true) (herr : s.err = REG_NOERROR) {tree : Option Nat}
    (h : Planted base s.dfa tree) : Plants base (parseDup rd ok syn fuel s tree) := by
  refine yields_bind fun tokens _ => (parseDupOp_planted hok h).bind fun p _ hp =>
    yields_some.mpr ?_
  obtain ⟨hzero, hplanted⟩ | ⟨hne, hnone⟩ := hp
  · exact .inl ⟨by simp [hzero, herr], hplanted⟩
  · exact .inr ⟨by simp [hne], hnone⟩

theorem plants_dupLoop (hok : ∀ k, ok k = true) : ∀ (n : Nat) (s : State σ) (tree : Option Nat),
    s.err = REG_NOERROR → Planted base s.dfa tree → Plants base (dupLoop rd ok syn fuel n s tree)
  | 0, _, _, _, _ => yields_none
  | n + 1, s, tree, herr, h => by
    rw [dupLoop]
    split
    · refine (plants_parseDup hok herr h).checked (fun _ => plants_discard)
        fun s' dupTree herr' h' => ?_
      split
      · exact yields_bind fun _ _ => plants_fail (by decide)
      · exact plants_dupLoop hok n s' dupTree herr' h'
    · exact plants_some herr h

theorem Plants.repetition (hok : ∀ k, ok k = true) (h : Plants base r) :
    Plants base (repetition rd ok syn fuel r) :=
  h.checked (fun _ => plants_abandon) fun s tree herr h' =>
    plants_dupLoop hok fuel (s.fetch rd false) tree herr h'

/-! ## parse_expression -/

/-- Every byte is the first of a character, and a set is a leaf. -/
structure Reader.Plants (rd : Reader σ) : Prop where
  partialByte : ∀ s, rd.partialByte s = false
  bracket : ∀ {dfa : Dfa} {token s}, Yields (fun q => q.2.2.2.2 = REG_NOERROR →
    Planted dfa.trees q.1 q.2.2.2.1) (rd.parseBracketExp dfa token s)
  charclass : ∀ {type} {dfa : Dfa}, Yields (fun q => q.2.2 = REG_NOERROR →
    Planted dfa.trees q.1 q.2.1) (rd.buildCharclassOp type dfa)

theorem plants_restOfChar (hrd : rd.Plants) {tree : Option Nat} (herr : s.err = REG_NOERROR)
    (h : Planted base s.dfa tree) : ∀ n : Nat, Plants base (restOfChar rd ok n s tree)
  | 0 => yields_none
  | n + 1 => by
    rw [restOfChar, hrd.partialByte]
    exact plants_some herr h

theorem plants_bracket (hrd : rd.Plants) (herr : s.err = REG_NOERROR) :
    Plants s.dfa.trees (bracket rd s) := by
  refine hrd.bracket.bind fun q hq hplanted => yields_some.mpr ?_
  obtain ⟨dfa, token, regexp, tree, err⟩ := q
  by_cases hzero : err = REG_NOERROR
  · exact .inl ⟨by simp [hzero, herr], hplanted hzero⟩
  · exact .inr ⟨by simp [hzero], rd.parseBracketExp_err hq hzero⟩

theorem plants_charclassOp (hrd : rd.Plants) (herr : s.err = REG_NOERROR) :
    Plants s.dfa.trees (charclassOp rd s) := by
  refine hrd.charclass.bind fun q hq hplanted => yields_some.mpr ?_
  obtain ⟨dfa, tree, err⟩ := q
  by_cases hzero : err = REG_NOERROR
  · exact .inl ⟨by simp [hzero, herr], hplanted hzero⟩
  · exact .inr ⟨by simp [hzero], rd.buildCharclassOp_err hq hzero⟩

@[simp] theorem useWords_dfa (s : State σ) : (useWords s).dfa = s.dfa := by
  unfold useWords
  split <;> rfl

@[simp] theorem useWords_err (s : State σ) : (useWords s).err = s.err := by
  unfold useWords
  split <;> rfl

theorem plants_wordDelim (hok : ∀ k, ok k = true) (herr : s.err = REG_NOERROR)
    (htoken : IsLeaf s.token.type) : Plants s.dfa.trees (wordDelim ok s) := by
  unfold wordDelim
  generalize (if s.token.opr = WORD_DELIM then (WORD_FIRST, WORD_LAST)
    else (INSIDE_WORD, INSIDE_NOTWORD)) = ctx
  have hleaf : ∀ opr, IsLeaf ({ s.token with opr := opr } : Token).type := fun _ => htoken
  obtain ⟨dfa₁, first, h₁, hfirst⟩ := planted_leaf hok s.dfa (hleaf ctx.1)
  obtain ⟨dfa₂, last, h₂, hlast⟩ := planted_leaf hok dfa₁ (hleaf ctx.2)
  obtain ⟨dfa₃, new, h₃, hnew⟩ := hfirst.create hok hlast .opAlt
    fun _ _ _ _ _ hL hR => ⟨hL, hR⟩
  simp only [h₁, h₂, h₃, Option.bind_eq_bind, Option.bind_some, Option.some_ne_none, or_self,
    if_false]
  exact plants_some herr hnew

theorem plants_parseAnchor (hok : ∀ k, ok k = true) (herr : s.err = REG_NOERROR)
    (htoken : s.token.type = .anchor) : Plants s.dfa.trees (parseAnchor rd ok s) := by
  have hleaf : IsLeaf (useWords s).token.type := by
    rw [useWords_token, htoken]
    simp [IsLeaf]
  have htrees : Plants s.dfa.trees
      (if (useWords s).token.opr = WORD_DELIM ∨ (useWords s).token.opr = NOT_WORD_DELIM then
        wordDelim ok (useWords s)
      else createLeaf ok (useWords s)) := by
    rw [← useWords_dfa s]
    split
    · exact plants_wordDelim hok (by simpa using herr) hleaf
    · exact plants_createLeaf hok (by simpa using herr) hleaf
  exact htrees.checked (fun _ => plants_abandon) fun s' tree herr' h' =>
    @plants_some _ _ (s'.fetch rd false) _ herr' h'

theorem plants_parseBackRef (hok : ∀ k, ok k = true) (herr : s.err = REG_NOERROR)
    (htoken : s.token.type = .opBackRef) : Plants s.dfa.trees (parseBackRef rd ok s) := by
  rw [parseBackRef]
  split
  · exact plants_fail (by decide)
  · have hleaf : IsLeaf s.token.type := by
      rw [htoken]
      simp [IsLeaf]
    exact plants_created (planted_leaf hok s.dfa hleaf) fun _ _ hnew => plants_some herr hnew

/-- Another token in the root of a tree that stands. -/
theorem stands_token {a : Nat} {token : Token} {l r : Tree}
    (h : Stands dfa (some a) (.node a token l r)) (f : Token → Token) :
    ∃ dfa', dfa.modify a (fun node => { node with token := f node.token }) = some dfa' ∧
      Stands dfa' (some a) (.node a (f token) l r) := by
  obtain ⟨hroot, ⟨ha, hl, hr⟩, hnd⟩ := h
  obtain ⟨trees', hmod, -, hself, hother⟩ := modifyTree_spec
    (List.getElem?_eq_some_iff.mp ha).1 (fun node : BinTree => { node with token := f node.token })
  have hne := (List.nodup_cons.mp hnd).1
  refine ⟨{ dfa with trees := trees' }, by rw [Dfa.modify, hmod]; rfl, rfl,
    ⟨by rw [hself, ha]; rfl, ?_, ?_⟩, hnd⟩
  · exact hl.congr fun b hb => hother b fun heq => hne (heq ▸ List.mem_append_left _ hb)
  · exact hr.congr fun b hb => hother b fun heq => hne (heq ▸ List.mem_append_right _ hb)

theorem plants_closeSubExp (hok : ∀ k, ok k = true) (herr : s.err = REG_NOERROR)
    {curNsub : Nat} {tree : Option Nat} (h : Planted base s.dfa tree) :
    Plants base (closeSubExp rd ok curNsub s tree) := by
  obtain ⟨t, ht, hproper⟩ := h.stands
  obtain rfl := ht.root
  obtain ⟨dfa₁, new, hcreate, ⟨hapart, hfrom⟩, hnew⟩ := stands_join (R := .nil) hok h.apart ht
    h.behind (stands_nil s.dfa) ⟨Apart.refl _, from_none _⟩ .subexp
  obtain ⟨dfa₂, hmod, hnew'⟩ := stands_token hnew fun token => { token with opr := curNsub }
  have hapart' : Apart base dfa₂.trees := by
    refine hapart.modify (from_some.mp hfrom) (fun node hlinks => ?_) _ hmod
    exact ⟨hlinks.parent, hlinks.left, hlinks.right⟩
  unfold closeSubExp created
  simp only [State.note] at hcreate ⊢
  rw [Tree.root_nil] at hcreate
  simp only [hcreate, hmod, Option.bind_eq_bind, Option.bind_some]
  exact plants_some herr ⟨⟨_, hnew', hproper, rfl⟩, hapart', hfrom⟩

/-- What a function does that gets a state without an error. -/
def PlantsAll (f : State σ → Option (Result σ)) : Prop :=
  ∀ s, s.err = REG_NOERROR → Plants s.dfa.trees (f s)

variable {f : State σ → Option (Result σ)}

theorem plants_parseSubExp (hok : ∀ k, ok k = true) (hf : PlantsAll f)
    (herr : s.err = REG_NOERROR) : Plants s.dfa.trees (parseSubExp rd ok f fuel s) := by
  have hopen : (openSubExp rd s).err = REG_NOERROR := herr
  unfold parseSubExp
  dsimp only
  split
  · exact plants_closeSubExp hok hopen (planted_none s.dfa)
  · have hbody : Yields (fun q => q.1.err = REG_NOERROR ∧
        (∃ tree, q.2 = some tree ∧ Planted s.dfa.trees q.1.dfa tree) ∨
        q.1.err ≠ REG_NOERROR ∧ q.2 = none) (groupBody f fuel (openSubExp rd s)) := by
      refine (hf (openSubExp rd s) hopen).bind fun q _ hq => ?_
      dsimp only
      split
      · have hparen : REG_EPAREN ≠ REG_NOERROR := by decide
        exact yields_bind fun s' _ => yields_some.mpr (.inr ⟨hparen, rfl⟩)
      split
      · next herr' => exact yields_some.mpr (.inr ⟨herr', rfl⟩)
      · next herr' =>
        obtain ⟨hzero, hplanted⟩ | ⟨hne, -⟩ := hq
        · exact yields_some.mpr (.inl ⟨hzero, q.2, rfl, hplanted⟩)
        · exact absurd hne herr'
    refine hbody.bind fun q _ hq => ?_
    obtain ⟨s', tree⟩ := q
    obtain ⟨hzero, tree', rfl, hplanted⟩ | ⟨hne, rfl⟩ := hq
    · exact plants_closeSubExp hok hzero hplanted
    · exact plants_abandon hne

theorem plants_parseExpression (hok : ∀ k, ok k = true) (hrd : rd.Plants) (hf : PlantsAll f) :
    ∀ n : Nat, PlantsAll (parseExpression rd ok syn f fuel n)
  | 0 => fun _ _ => yields_none
  | n + 1 => by
    intro s herr
    have hoperator : Plants s.dfa.trees
        (if s.token.type = .opOpenDupNum ∧ syn.has RE_CONTEXT_INVALID_DUP then fail s REG_BADRPT
        else if syn.has RE_CONTEXT_INVALID_OPS then fail s REG_BADRPT
        else if syn.has RE_CONTEXT_INDEP_OPS then
          parseExpression rd ok syn f fuel n (s.fetch rd false)
        else repetition rd ok syn fuel (normalChar ok s)) := by
      split
      · exact plants_fail (by decide)
      split
      · exact plants_fail (by decide)
      split
      · exact plants_parseExpression hok hrd hf n (s.fetch rd false) herr
      · exact (plants_normalChar hok herr).repetition hok
    have hleaf : IsLeaf s.token.type → Plants s.dfa.trees (createLeaf ok s) :=
      plants_createLeaf hok herr
    rw [parseExpression]
    split
    · next htoken =>
      refine Plants.repetition hok ((hleaf ?_).checked (fun _ => plants_abandon)
        fun s' tree herr' h' => plants_restOfChar hrd herr' h' fuel)
      simp [IsLeaf, htoken]
    · exact (plants_parseSubExp hok hf herr).repetition hok
    · exact (plants_bracket hrd herr).repetition hok
    · next htoken => exact (plants_parseBackRef hok herr htoken).repetition hok
    · exact hoperator
    · exact hoperator
    · exact hoperator
    · exact hoperator
    · split
      · exact plants_fail (by decide)
      · exact (plants_normalChar hok herr).repetition hok
    · exact (plants_normalChar hok herr).repetition hok
    · next htoken => exact plants_parseAnchor hok herr htoken
    · next htoken => exact (hleaf (by simp [IsLeaf, htoken])).repetition hok
    · exact (plants_charclassOp hrd herr).repetition hok
    · exact (plants_charclassOp hrd herr).repetition hok
    · exact (plants_charclassOp hrd herr).repetition hok
    · exact (plants_charclassOp hrd herr).repetition hok
    · exact plants_fail (by decide)
    · exact plants_some herr (planted_none s.dfa)

/-! ## parse_branch, parse_reg_exp -/

theorem ne_nil_of_root {t : Tree} {tree : Option Nat} (hroot : t.root = tree) (hne : tree ≠ none) :
    t ≠ .nil := by
  rintro rfl
  exact hne hroot.symm

theorem plants_branchLoop (hok : ∀ k, ok k = true) {nest : Nat} (hf : PlantsAll f) :
    ∀ (n : Nat) (s : State σ) (tree : Option Nat), s.err = REG_NOERROR →
    Planted base s.dfa tree → Plants base (branchLoop ok f fuel nest n s tree)
  | 0, _, _, _, _ => yields_none
  | n + 1, s, tree, herr, h => by
    rw [branchLoop]
    split
    · refine (hf s herr).checked (fun _ => plants_discard) fun s' expr herr' h' => ?_
      split
      · next hboth =>
        obtain ⟨dfa', new, hcreate, hnew⟩ := h.create hok h' .concat
          fun _ _ _ hL hR hLproper hRproper =>
            ⟨⟨ne_nil_of_root hL hboth.1, ne_nil_of_root hR hboth.2⟩, hLproper, hRproper⟩
        simp only [hcreate, Option.bind_eq_bind, Option.bind_some, Option.some_ne_none, if_false]
        exact plants_branchLoop hok hf n { s' with dfa := dfa' } _ herr' hnew
      · refine plants_branchLoop hok hf n s' _ herr' ?_
        cases tree with
        | none => exact h.earlier h'
        | some tree => exact h.later h'.apart
    · exact plants_some herr h

theorem plants_parseBranch (hok : ∀ k, ok k = true) {nest : Nat} (hf : PlantsAll f) :
    PlantsAll (parseBranch ok f fuel nest) :=
  fun s herr => (hf s herr).checked (fun _ => plants_abandon) fun s' tree herr' h' =>
    plants_branchLoop hok hf fuel s' tree herr' h'

theorem plants_altLoop (hok : ∀ k, ok k = true) {nest m₀ : Nat} (hf : PlantsAll f) :
    ∀ (n : Nat) (s : State σ) (tree : Option Nat), s.err = REG_NOERROR →
    Planted base s.dfa tree → Plants base (altLoop rd ok f fuel nest m₀ n s tree)
  | 0, _, _, _, _ => yields_none
  | n + 1, s, tree, herr, h => by
    have hnext : ∀ s' br, State.err s' = REG_NOERROR → Planted s.dfa.trees s'.dfa br → Plants base
        (created s' (createTree ok s'.dfa tree br .opAlt) fun s tree =>
          altLoop rd ok f fuel nest m₀ n s (some tree)) := by
      intro s' br herr' h'
      refine plants_created (h.create hok h' .opAlt fun _ _ _ _ _ hL hR => ⟨hL, hR⟩) ?_
      intro dfa' new hnew
      exact plants_altLoop hok hf n { s' with dfa := dfa' } (some new) herr' hnew
    rw [altLoop]
    split
    · unfold altBranch
      split
      · exact (hf { (s.note rd .alt).fetch rd true with completedBkrefMap := m₀ } herr).checked
          (fun _ => plants_discard) fun s' br herr' h' =>
            hnext { s' with completedBkrefMap := _ } br herr' h'
      · exact hnext ((s.note rd .alt).fetch rd true) none herr (planted_none s.dfa)
    · exact plants_some herr h

theorem plants_parseRegExp (hok : ∀ k, ok k = true) (hrd : rd.Plants) : ∀ (n nest : Nat),
    PlantsAll (parseRegExp rd ok syn n nest)
  | 0, _ => fun _ _ => yields_none
  | n + 1, nest => by
    intro s herr
    have hbranch : PlantsAll (parseBranch ok
        (parseExpression rd ok syn (parseRegExp rd ok syn n (nest + 1)) n n) n nest) :=
      plants_parseBranch hok
        (plants_parseExpression hok hrd (plants_parseRegExp hok hrd n (nest + 1)) n)
    rw [parseRegExp]
    exact (hbranch s herr).checked (fun _ => plants_abandon) fun s' tree herr' h' =>
      plants_altLoop hok hbranch n s' tree herr' h'

/-! ## parse -/

/-- The parser leaves the tree of a whole pattern. -/
theorem parse_rooted (hok : ∀ k, ok k = true) (hrd : rd.Plants) (regexp : σ) :
    Yields (fun q => ∀ root, q.2 = some root → ∃ t T, Rooted t T ∧ Stands q.1.dfa (some root) T)
      (parse rd ok syn fuel regexp) := by
  have hregexp : PlantsAll (parseRegExp rd ok syn fuel 0) := plants_parseRegExp hok hrd fuel 0
  replace hregexp := hregexp ((State.initial regexp).fetch rd true) rfl
  refine hregexp.bind fun q _ hq => ?_
  obtain ⟨s, tree⟩ := q
  dsimp only at hq ⊢
  split
  · exact yields_some.mpr fun root hroot => by cases hroot
  next hgood =>
  obtain ⟨-, h⟩ | ⟨herr, hnone⟩ := hq
  · obtain ⟨dfa₁, eor, hend, hmakes, hend'⟩ := stands_leaf hok s.dfa { type := .endOfRe }
    have hcreate : createTree ok s.dfa none none .endOfRe = some (dfa₁, some eor) := hend
    obtain ⟨t, ht, hproper⟩ := h.stands
    obtain rfl := ht.root
    by_cases hnil : t.root = none
    · simp only [hcreate, hnil, ne_eq, not_true_eq_false, if_false, Option.bind_eq_bind,
        Option.bind_some, Option.some_ne_none, or_self]
      refine yields_some.mpr fun root hroot => ⟨.nil, _, .empty eor, ?_⟩
      rw [← hroot]
      exact hend'
    · obtain ⟨dfa₂, new, hjoin, -, hnew⟩ :=
        stands_join (R := .node eor { type := .endOfRe } .nil .nil) hok h.apart ht h.behind hend'
          hmakes .concat
      rw [Tree.root_node] at hjoin
      simp only [hcreate, hnil, ne_eq, not_false_eq_true, if_true, hjoin, Option.bind_eq_bind,
        Option.bind_some, Option.some_ne_none, or_self, if_false]
      refine yields_some.mpr fun root hroot =>
        ⟨t, _, .full new eor hproper fun h => hnil (by rw [h]; rfl), ?_⟩
      rw [← hroot]
      exact hnew
  · exact absurd ⟨herr, hnone⟩ hgood

/-! ## The reader of a single-byte locale -/

section SingleByte

variable {loc : Locale} {trans : Option (UInt8 → UInt8)} {okSet : Nat → Bool}

theorem bracketTree_planted (hok : ∀ k, ok k = true) (dfa : Dfa) (sbcset : Regex.Bitset) :
    Yields (fun q => Planted dfa.trees q.1 q.2.1) (bracketTree ok dfa sbcset) := by
  have hleaf : IsLeaf ({ type := .simpleBracket, opr := sbcset.toNat } : Token).type := by
    simp [IsLeaf]
  obtain ⟨dfa', new, hcreate, hnew⟩ := planted_leaf hok dfa hleaf
  unfold bracketTree
  simp only [hcreate, Option.bind_eq_bind, Option.bind_some]
  exact yields_some.mpr hnew

theorem buildCharclassOp_planted (hok : ∀ k, ok k = true) (className extra : List UInt8)
    (nonMatch : Bool) (dfa : Dfa) :
    Yields (fun q => q.2.2 = REG_NOERROR → Planted dfa.trees q.1 q.2.1)
      (buildCharclassOp loc trans ok okSet className extra nonMatch dfa) := by
  unfold buildCharclassOp
  split
  · exact yields_some.mpr fun _ => planted_none dfa
  split
  · exact yields_some.mpr fun _ => planted_none dfa
  · exact (bracketTree_planted hok dfa _).mono fun q hq _ => hq

theorem singleByte_plants (hok : ∀ k, ok k = true) :
    (singleByte loc trans ok okSet syn).Plants where
  partialByte := fun _ => rfl
  bracket := by
    intro dfa token s
    change Yields _ (parseBracketExp loc trans ok okSet syn dfa token s)
    unfold parseBracketExp
    split
    · exact yields_some.mpr fun _ => planted_none dfa
    refine yields_bind fun r _ => ?_
    split
    · exact yields_some.mpr fun _ => planted_none dfa
    · exact (bracketTree_planted hok dfa _).bind fun q _ hq => yields_some.mpr fun _ => hq
  charclass := by
    intro type dfa
    change Yields _ (charclassTree loc trans ok okSet type dfa)
    unfold charclassTree
    split
    · exact buildCharclassOp_planted hok _ _ _ dfa
    · exact buildCharclassOp_planted hok _ _ _ dfa

/-- The parser leaves the tree of a whole pattern for every pattern that it accepts. -/
theorem parse_stands (hok : ∀ k, ok k = true) {pattern : List UInt8} {s : State Input} {root : Nat}
    (h : parse (singleByte loc trans ok okSet syn) ok syn fuel (construct loc trans syn pattern) =
      some (s, some root)) : ∃ t T, Rooted t T ∧ Stands s.dfa (some root) T :=
  parse_rooted hok (singleByte_plants hok) _ _ h root rfl

/-- `a{2,3}` under `RE_INTERVALS | RE_NO_BK_BRACES`. -/
theorem parse_stands_repeated : ∃ s root,
    parse (singleByte cLocale none (fun _ => true) (fun _ => true)
        (RE_INTERVALS ||| RE_NO_BK_BRACES)) (fun _ => true) (RE_INTERVALS ||| RE_NO_BK_BRACES) 300
      (construct cLocale none (RE_INTERVALS ||| RE_NO_BK_BRACES) (chars "a{2,3}")) =
        some (s, some root) ∧
      ∃ t T, Rooted t T ∧ Stands s.dfa (some root) T := by
  have hsome : ((parse (singleByte cLocale none (fun _ => true) (fun _ => true)
        (RE_INTERVALS ||| RE_NO_BK_BRACES)) (fun _ => true) (RE_INTERVALS ||| RE_NO_BK_BRACES) 300
      (construct cLocale none (RE_INTERVALS ||| RE_NO_BK_BRACES) (chars "a{2,3}"))).bind
        Prod.snd).isSome = true := by
    decide +kernel
  obtain ⟨root, hroot⟩ := Option.isSome_iff_exists.mp hsome
  obtain ⟨⟨s, tree⟩, hparse, rfl⟩ := Option.bind_eq_some_iff.mp hroot
  exact ⟨s, root, hparse, parse_stands (fun _ => rfl) hparse⟩

end SingleByte

end Librecompat.Regcomp
