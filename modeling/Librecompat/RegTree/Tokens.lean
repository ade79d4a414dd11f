/-
  The tokens of the trees.

  Apart from the flag `optSubexp` the functions of `RegTree.Model` change no token: behind those
  that there were come new operators and copies (`Grown`). So a property of tokens that reads neither
  of the flags holds of all tokens behind a call if it did so before (`Grown.allTokens`), and the
  nodes of any other type that are no copies stay the same ones (`Grown.originals`).
-/
import Librecompat.Lib.Yields
import Librecompat.RegTree.Postorder

namespace Librecompat.RegTree

open Librecompat.Lib
open Librecompat.Regex (RegErrcode REG_NOERROR REG_ESPACE)

def AllTokens (P : Token → Prop) (trees : List BinTree) : Prop := ∀ tree ∈ trees, P tree.token

/-- The property reads neither of the flags. -/
def Flagless (P : Token → Prop) : Prop :=
  ∀ token duplicated optSubexp, P token →
    P { token with duplicated := duplicated, optSubexp := optSubexp }

variable {P : Token → Prop} {ok : Nat → Bool} {trees : List BinTree} {dfa : Dfa} {fuel : Nat}

theorem AllTokens.get {i : Nat} {node : BinTree} (h : AllTokens P trees)
    (hnode : trees[i]? = some node) : P node.token :=
  h node (List.mem_of_getElem? hnode)

/-! ## Changes of one node -/

theorem AllTokens.modifyTree {tree : Nat} {f : BinTree → BinTree} (h : AllTokens P trees)
    (hf : ∀ node, trees[tree]? = some node → P (f node).token) :
    Yields (AllTokens P) (modifyTree trees tree f) := by
  unfold RegTree.modifyTree
  split
  · refine yields_some.mpr fun node hnode => ?_
    obtain ⟨i, hi⟩ := List.mem_iff_getElem?.mp hnode
    rw [List.getElem?_modify] at hi
    obtain ⟨old, hold, rfl⟩ := Option.map_eq_some_iff.mp hi
    by_cases heq : tree = i
    · subst heq
      simpa using hf old hold
    · simpa [heq] using h.get hold
  · exact yields_none

theorem AllTokens.setParent {tree : Nat} (h : AllTokens P trees) (child : Option Nat) :
    Yields (AllTokens P) (setParent trees tree child) := by
  cases child with
  | none => exact yields_some.mpr h
  | some child => exact h.modifyTree fun node hnode => (h.get hnode : P node.token)

theorem AllTokens.modify {tree : Nat} {f : BinTree → BinTree} (h : AllTokens P dfa.trees)
    (hf : ∀ node, dfa.trees[tree]? = some node → P (f node).token) :
    Yields (fun dfa' => AllTokens P dfa'.trees) (dfa.modify tree f) :=
  (h.modifyTree hf).bind fun _ _ h' => yields_some.mpr h'

/-- The token of a node stays where its links change. -/
theorem setParent_token {trees' : List BinTree} {tree i : Nat} {child : Option Nat}
    (h : setParent trees tree child = some trees') :
    trees'[i]?.map BinTree.token = trees[i]?.map BinTree.token := by
  cases child with
  | none => rw [Option.some.inj h]
  | some child =>
    simp only [setParent, modifyTree] at h
    split at h
    · rw [← Option.some.inj h, List.getElem?_modify, Option.map_eq_map, Option.map_map]
      refine congrArg (Option.map · _) (funext fun node => ?_)
      by_cases heq : child = i
      · simp [heq]
      · simp [heq]
    · cases h

/-! ## Making trees -/

theorem AllTokens.createTokenTree (hP : Flagless P) (h : AllTokens P dfa.trees)
    {left right : Option Nat} {token : Token} (htoken : P token) :
    Yields (fun r => AllTokens P r.1.trees) (createTokenTree ok dfa left right token) := by
  unfold RegTree.createTokenTree
  split
  · exact yields_some.mpr h
  · have hnew : AllTokens P (dfa.trees ++
        [⟨none, left, right, { token with duplicated := false, optSubexp := false }⟩]) := by
      intro node hnode
      obtain hnode | hnode := List.mem_append.mp hnode
      · exact h node hnode
      · rw [List.mem_singleton.mp hnode]
        exact hP token false false htoken
    dsimp only
    split
    all_goals
      exact (hnew.setParent left).bind fun _ _ h₁ => (h₁.setParent right).bind fun _ _ h₂ =>
        yields_some.mpr h₂

theorem AllTokens.createTree (hP : Flagless P) (h : AllTokens P dfa.trees)
    {left right : Option Nat} {type : TokenType} (htype : P { type := type }) :
    Yields (fun r => AllTokens P r.1.trees) (createTree ok dfa left right type) :=
  h.createTokenTree hP htype

/-! ## Types -/

/-- At the index is a node of the type. -/
def HasType (trees : List BinTree) (i : Nat) (type : TokenType) : Prop :=
  ∃ node, trees[i]? = some node ∧ node.token.type = type

theorem HasType.of_token {trees' : List BinTree} {i : Nat} {type : TokenType}
    (h : HasType trees i type)
    (heq : trees'[i]?.map BinTree.token = trees[i]?.map BinTree.token) :
    HasType trees' i type := by
  obtain ⟨node, hnode, rfl⟩ := h
  rw [hnode, Option.map_some] at heq
  obtain ⟨node', hnode', htoken⟩ := Option.map_eq_some_iff.mp heq
  exact ⟨node', hnode', by rw [htoken]⟩

theorem HasType.modifyTree {tree i : Nat} {f : BinTree → BinTree} {type : TokenType}
    (h : HasType trees i type) (hf : ∀ node, (f node).token.type = node.token.type) :
    Yields (HasType · i type) (modifyTree trees tree f) := by
  obtain ⟨node, hnode, rfl⟩ := h
  unfold RegTree.modifyTree
  split
  · rw [yields_some, HasType, List.getElem?_modify, hnode]
    by_cases heq : tree = i
    · exact ⟨_, rfl, by simp [heq, hf]⟩
    · exact ⟨_, rfl, by simp [heq]⟩
  · exact yields_none

/-- The new node has the type that was asked for, and the types of the others stay. -/
theorem createTokenTree_types {left right : Option Nat} {token : Token} :
    Yields (fun r => (∀ i type, HasType dfa.trees i type → HasType r.1.trees i type) ∧
      ∀ tree, r.2 = some tree → HasType r.1.trees tree token.type)
      (createTokenTree ok dfa left right token) := by
  unfold createTokenTree
  split
  · exact yields_some.mpr ⟨fun _ _ h => h, fun tree htree => absurd htree (by simp)⟩
  · dsimp only
    split
    all_goals
      refine yields_bind fun trees₁ h₁ => yields_bind fun trees₂ h₂ => yields_some.mpr ?_
      have htoken := fun i => (setParent_token h₂).trans (setParent_token (i := i) h₁)
      refine ⟨fun i type h => ?_, fun tree htree => ?_⟩
      · obtain ⟨node, hnode, htype⟩ := h
        have hlt := (List.getElem?_eq_some_iff.mp hnode).1
        refine HasType.of_token ⟨node, ?_, htype⟩ (htoken i)
        rwa [List.getElem?_append_left hlt]
      · obtain rfl := Option.some.inj htree
        exact HasType.of_token ⟨_, List.getElem?_concat_length, rfl⟩ (htoken _)

/-! ## Walks -/

/-- The walks for any visiting function that keeps a property of the memory. -/
theorem yields_visitPostorder {M : Type} {I : M → Prop} {cells : M → List BinTree} {fn : Visitor M}
    (hfn : ∀ node m, I m → Yields (fun r => I r.1) (fn node m)) {m : M} (h : I m) (root : Nat) :
    Yields (fun r => I r.1) (Visitor.postorder cells fn fuel m root) := by
  refine yields_tryLoop (I := fun s : M × PostAt => I s.1) (fun s hs => ?_) h
  unfold Visitor.postPass
  split
  · refine yields_bind fun tree _ => ?_
    split
    all_goals exact yields_some.mpr hs
  · refine (hfn _ _ hs).bind fun r _ hr => ?_
    split
    · exact yields_some.mpr hr
    · refine yields_bind fun tree _ => ?_
      split
      · exact yields_some.mpr hr
      · refine yields_bind fun up _ => ?_
        split
        · exact yields_some.mpr hr
        · exact yields_bind fun right _ => yields_some.mpr hr

theorem yields_visitPreorder {M : Type} {I : M → Prop} {cells : M → List BinTree} {fn : Visitor M}
    (hfn : ∀ node m, I m → Yields (fun r => I r.1) (fn node m)) {m : M} (h : I m) (root : Nat) :
    Yields (fun r => I r.1) (Visitor.preorder cells fn fuel m root) := by
  refine yields_tryLoop (I := fun s : M × Visitor.PreAt => I s.1) (fun s hs => ?_) h
  unfold Visitor.prePass
  split
  · refine (hfn _ _ hs).bind fun r _ hr => ?_
    split
    · exact yields_some.mpr hr
    · refine yields_bind fun tree _ => ?_
      split
      all_goals exact yields_some.mpr hr
  · refine yields_bind fun tree _ => ?_
    split
    · split
      · exact yields_some.mpr hs
      · exact yields_some.mpr hs
    · exact yields_bind fun right _ => yields_some.mpr hs

/-- The walk with a function that never fails. -/
theorem yields_postorder {I : Dfa → Prop} {fn : Nat → Dfa → Option Dfa}
    (hfn : ∀ node dfa, I dfa → Yields I (fn node dfa)) (h : I dfa) (root : Nat) :
    Yields I (postorder fuel fn dfa root) := by
  have hsure : ∀ node dfa, I dfa → Yields (fun r => I r.1) (sure fn node dfa) :=
    fun node dfa hdfa => (hfn node dfa hdfa).map fun _ h' => h'
  have hwalk : Yields (fun r => I r.1) (Visitor.postorder Dfa.trees (sure fn) fuel dfa root) :=
    yields_visitPostorder hsure h root
  rw [postorder_sure] at hwalk
  intro dfa' hdfa'
  exact hwalk (dfa', REG_NOERROR) (by rw [hdfa', Option.map_some])

/-! ## What becomes of the tokens -/

def Token.unmarked (token : Token) : Token := { token with optSubexp := false }

def treeTokens (trees : List BinTree) : List Token := trees.map fun node => node.token.unmarked

/-- The types of the nodes that a repetition operator makes. -/
def TokenType.Repeats (type : TokenType) : Prop :=
  type = .concat ∨ type = .opAlt ∨ type = .opDupAsterisk

/-- New tokens are operators or copies. -/
def Grown (trees trees' : List BinTree) : Prop :=
  ∃ more, treeTokens trees' = treeTokens trees ++ more ∧
    ∀ token ∈ more, token.type.Repeats ∨
      ∃ token₀ ∈ treeTokens trees, token = { token₀ with duplicated := true }

variable {trees' trees'' : List BinTree}

theorem Grown.of_tokens (h : treeTokens trees' = treeTokens trees) : Grown trees trees' :=
  ⟨[], by rw [h, List.append_nil], fun _ htoken => absurd htoken List.not_mem_nil⟩

theorem Grown.refl (trees : List BinTree) : Grown trees trees := .of_tokens rfl

theorem Grown.trans (h : Grown trees trees') (h' : Grown trees' trees'') :
    Grown trees trees'' := by
  obtain ⟨more, heq, hmore⟩ := h
  obtain ⟨more', heq', hmore'⟩ := h'
  refine ⟨more ++ more', by rw [heq', heq, List.append_assoc], fun token htoken => ?_⟩
  obtain htoken | htoken := List.mem_append.mp htoken
  · exact hmore token htoken
  obtain htype | ⟨token₀, hmem, rfl⟩ := hmore' token htoken
  · exact .inl htype
  rw [heq] at hmem
  obtain hmem | hmem := List.mem_append.mp hmem
  · exact .inr ⟨token₀, hmem, rfl⟩
  -- a copy of a new token
  obtain htype | ⟨token₁, hmem₁, rfl⟩ := hmore token₀ hmem
  · exact .inl htype
  · exact .inr ⟨token₁, hmem₁, rfl⟩

theorem AllTokens.tokens (hP : Flagless P) (h : AllTokens P trees) :
    ∀ token ∈ treeTokens trees, P token := by
  intro token htoken
  obtain ⟨node, hnode, rfl⟩ := List.mem_map.mp htoken
  exact hP node.token node.token.duplicated false (h node hnode)

theorem Grown.allTokens (hP : Flagless P) (hrepeats : ∀ token, token.type.Repeats → P token)
    (hgrown : Grown trees trees') (h : AllTokens P trees) : AllTokens P trees' := by
  obtain ⟨more, heq, hmore⟩ := hgrown
  intro node hnode
  have hmem : node.token.unmarked ∈ treeTokens trees' :=
    List.mem_map.mpr ⟨node, hnode, rfl⟩
  have hunmarked : P node.token.unmarked := by
    rw [heq] at hmem
    obtain hmem | hmem := List.mem_append.mp hmem
    · exact h.tokens hP _ hmem
    obtain htype | ⟨token₀, hmem₀, hcopy⟩ := hmore _ hmem
    · exact hrepeats _ htype
    · rw [hcopy]
      exact hP token₀ true token₀.optSubexp (h.tokens hP token₀ hmem₀)
  have hnode := hP node.token.unmarked node.token.duplicated node.token.optSubexp hunmarked
  exact hnode

/-- What the nodes of a type stand for that are no copies, in the order in which they were made. -/
def originals (type : TokenType) (trees : List BinTree) : List Nat :=
  ((trees.map BinTree.token).filter fun token =>
    token.type = type ∧ token.duplicated = false).map Token.opr

theorem originals_eq (type : TokenType) (trees : List BinTree) :
    originals type trees = ((treeTokens trees).filter fun token =>
      token.type = type ∧ token.duplicated = false).map Token.opr := by
  rw [originals, treeTokens, List.filter_map, List.filter_map, List.map_map, List.map_map]
  rfl

theorem Grown.originals {type : TokenType} (htype : ¬ type.Repeats) (h : Grown trees trees') :
    originals type trees' = originals type trees := by
  obtain ⟨more, heq, hmore⟩ := h
  have hnone : (more.filter fun token => token.type = type ∧ token.duplicated = false) = [] := by
    refine List.filter_eq_nil_iff.mpr fun token htoken hboth => ?_
    obtain ⟨hsame, hdup⟩ := of_decide_eq_true hboth
    obtain hnew | ⟨token₀, -, rfl⟩ := hmore token htoken
    · exact htype (hsame ▸ hnew)
    · cases hdup
  rw [originals_eq, originals_eq, heq, List.filter_append, hnone, List.append_nil]

/-! ## Changes of one node -/

theorem tokens_modify {i : Nat} {f : BinTree → BinTree} {g : Token → Token}
    (hf : ∀ node, (f node).token.unmarked = g node.token.unmarked) :
    treeTokens (trees.modify i f) = (treeTokens trees).modify i g := by
  refine List.ext_getElem? fun j => ?_
  simp only [treeTokens, List.getElem?_map, List.getElem?_modify, Option.map_eq_map, Option.map_map]
  refine congrArg (Option.map · _) (funext fun node => ?_)
  by_cases heq : i = j
  · simp [heq, hf]
  · simp [heq]

theorem tokens_modifyTree {tree : Nat} {f : BinTree → BinTree}
    (hf : ∀ node, (f node).token.unmarked = node.token.unmarked) :
    Yields (fun trees' => treeTokens trees' = treeTokens trees) (modifyTree trees tree f) := by
  unfold modifyTree
  split
  · refine yields_some.mpr ?_
    rw [tokens_modify (g := id) hf, List.modify_id]
  · exact yields_none

theorem tokens_setParent (tree : Nat) (child : Option Nat) :
    Yields (fun trees' => treeTokens trees' = treeTokens trees) (setParent trees tree child) := by
  cases child with
  | none => exact yields_some.mpr rfl
  | some child => exact tokens_modifyTree fun _ => rfl

theorem tokens_dfaModify {tree : Nat} {f : BinTree → BinTree}
    (hf : ∀ node, (f node).token.unmarked = node.token.unmarked) :
    Yields (fun dfa' => treeTokens dfa'.trees = treeTokens dfa.trees) (dfa.modify tree f) :=
  (tokens_modifyTree hf).bind fun _ _ h => yields_some.mpr h

/-- The new token is the last one. -/
theorem createTokenTree_tokens {left right : Option Nat} {token : Token} :
    Yields (fun r => r.2 = none ∧ r.1.trees = dfa.trees ∨
      r.2 = some dfa.trees.length ∧ treeTokens r.1.trees = treeTokens dfa.trees ++
        [{ token with duplicated := false, optSubexp := false }])
      (createTokenTree ok dfa left right token) := by
  unfold createTokenTree
  split
  · exact yields_some.mpr (.inl ⟨rfl, rfl⟩)
  · dsimp only
    split
    all_goals
      refine (tokens_setParent _ left).bind fun trees₁ _ h₁ =>
        (tokens_setParent _ right).bind fun trees₂ _ h₂ => yields_some.mpr (.inr ⟨rfl, ?_⟩)
      rw [h₂, h₁, treeTokens, List.map_append]
      rfl

theorem createTree_grown {left right : Option Nat} {type : TokenType} (htype : type.Repeats) :
    Yields (fun r => Grown dfa.trees r.1.trees) (createTree ok dfa left right type) := by
  refine createTokenTree_tokens.mono fun r hr => ?_
  obtain ⟨-, htrees⟩ | ⟨-, htokens⟩ := hr
  · rw [htrees]
    exact .refl _
  · refine ⟨_, htokens, fun token htoken => .inl ?_⟩
    rw [List.mem_singleton.mp htoken]
    exact htype

theorem store_tokens {s : Dup} {new : Option Nat} (slot : Slot) :
    Yields (fun s' => treeTokens s'.dfa.trees = treeTokens s.dfa.trees) (s.store slot new) := by
  cases slot with
  | dupRoot => exact yields_some.mpr rfl
  | left node =>
    refine Yields.bind (P := fun dfa' => treeTokens dfa'.trees = treeTokens s.dfa.trees)
      (tokens_dfaModify fun node => ?_) fun _ _ h => yields_some.mpr h
    rfl
  | right node =>
    refine Yields.bind (P := fun dfa' => treeTokens dfa'.trees = treeTokens s.dfa.trees)
      (tokens_dfaModify fun node => ?_) fun _ _ h => yields_some.mpr h
    rfl

/-- The node that was made last is changed. -/
theorem tokens_modify_last {trees₁ : List BinTree} {token : Token} {f : BinTree → BinTree}
    {g : Token → Token} (htokens : treeTokens trees₁ = treeTokens trees ++ [token])
    (hf : ∀ node, (f node).token.unmarked = g node.token.unmarked) :
    Yields (fun trees' => treeTokens trees' = treeTokens trees ++ [g token])
      (modifyTree trees₁ trees.length f) := by
  unfold modifyTree
  split
  · have hlength : (treeTokens trees).length = trees.length := List.length_map _
    refine yields_some.mpr ?_
    rw [tokens_modify hf, htokens, ← hlength, List.modify_eq_take_cons_drop (by simp)]
    simp
  · exact yields_none

/-- A node is copied, and the copy is marked as one. -/
theorem grown_copy {src : BinTree} {trees₁ : List BinTree} (hsrc : src ∈ trees)
    (htokens : treeTokens trees₁ = treeTokens trees ++
      [{ src.token with duplicated := false, optSubexp := false }]) {f : BinTree → BinTree}
    (hf : ∀ node, (f node).token = { node.token with duplicated := true }) :
    Yields (Grown trees) (modifyTree trees₁ trees.length f) := by
  have hunmarked : ∀ node, (f node).token.unmarked =
      { node.token.unmarked with duplicated := true } := fun node => by
    rw [hf]
    rfl
  refine (tokens_modify_last (g := fun token => { token with duplicated := true }) htokens
    hunmarked).mono fun trees' h => ⟨_, h, fun token htoken => .inr ⟨src.token.unmarked, ?_, ?_⟩⟩
  · exact List.mem_map.mpr ⟨src, hsrc, rfl⟩
  · exact List.mem_singleton.mp htoken

theorem dupPass_grown {s : Dup} (h : Grown trees s.dfa.trees) :
    Yields (Sum.elim (fun s' => Grown trees s'.dfa.trees) fun r => Grown trees r.1.trees)
      (dupPass ok s) := by
  unfold dupPass
  split
  · refine yields_bind fun src hsrc => ?_
    refine createTokenTree_tokens.bind fun r _ h₁ => ?_
    refine (store_tokens _).bind fun s₂ _ h₂ => ?_
    obtain ⟨hnone, htrees⟩ | ⟨hnew, htokens⟩ := h₁
    · rw [hnone]
      rw [htrees] at h₂
      exact yields_some.mpr (h.trans (.of_tokens h₂))
    · rw [hnew]
      refine Yields.bind (P := fun dfa => Grown trees dfa.trees) ?_ fun dfa₃ _ h₃ => ?_
      · exact (grown_copy (List.mem_of_getElem? hsrc) (h₂.trans htokens) fun _ => rfl).bind
          fun _ _ h₃ => yields_some.mpr (h.trans h₃)
      · split
        · exact yields_some.mpr h₃
        · exact yields_some.mpr h₃
  · refine yields_bind fun src _ => yields_bind fun dupIdx _ => yields_bind fun dup _ => ?_
    split
    · split
      · exact yields_some.mpr h
      · exact yields_some.mpr h
    · exact yields_bind fun right _ => yields_some.mpr h

theorem duplicateTree_grown (root : Nat) :
    Yields (fun r => Grown dfa.trees r.1.trees) (duplicateTree ok fuel dfa root) := by
  refine yields_bind fun tree _ => ?_
  exact yields_tryLoop (I := fun s : Dup => Grown dfa.trees s.dfa.trees)
    (fun s hs => dupPass_grown hs) (Grown.refl dfa.trees)

theorem free_trees (root : Nat) :
    Yields (fun dfa' => dfa'.trees = dfa.trees) (postorder fuel freeTree dfa root) := by
  refine yields_postorder (I := fun dfa' => dfa'.trees = dfa.trees) (fun node dfa' hdfa' => ?_)
    rfl root
  refine yields_bind fun tree _ => ?_
  split
  · exact yields_some.mpr hdfa'
  · exact yields_some.mpr hdfa'

theorem markOptSubexp_tokens (idx root : Nat) :
    Yields (fun dfa' => treeTokens dfa'.trees = treeTokens dfa.trees)
      (postorder fuel (markOptSubexp idx) dfa root) := by
  refine yields_postorder (I := fun dfa' => treeTokens dfa'.trees = treeTokens dfa.trees)
    (fun node dfa' hdfa' => ?_) rfl root
  refine (tokens_dfaModify fun node => ?_).mono fun dfa'' h => h.trans hdfa'
  unfold Token.mark
  split
  · rfl
  · rfl

/-! ## Repetition operators -/

theorem mandatoryCopies_grown : ∀ {n : Nat} {dfa : Dfa} {elem tree : Nat},
    Yields (fun r => Grown dfa.trees r.1.trees) (mandatoryCopies ok fuel n dfa elem tree)
  | 0, dfa, _, _ => yields_some.mpr (.refl dfa.trees)
  | n + 1, dfa, elem, tree => by
    refine (duplicateTree_grown elem).bind fun r₁ _ h₁ => ?_
    refine (createTree_grown (.inl rfl)).bind fun r₂ _ h₂ => ?_
    dsimp only
    split
    · exact mandatoryCopies_grown.mono fun r h => (h₁.trans h₂).trans h
    · exact yields_some.mpr (h₁.trans h₂)

theorem optionalCopies_grown : ∀ {n : Nat} {dfa : Dfa} {elem tree : Nat},
    Yields (fun r => Grown dfa.trees r.1.trees) (optionalCopies ok fuel n dfa elem tree)
  | 0, dfa, _, _ => yields_some.mpr (.refl dfa.trees)
  | n + 1, dfa, elem, tree => by
    refine (duplicateTree_grown elem).bind fun r₁ _ h₁ => ?_
    refine (createTree_grown (.inl rfl)).bind fun r₂ _ h₂ => ?_
    dsimp only
    split
    · refine (createTree_grown (.inr (.inl rfl))).bind fun r₃ _ h₃ => ?_
      have h := (h₁.trans h₂).trans h₃
      split
      · exact optionalCopies_grown.mono fun r hr => h.trans hr
      · exact yields_some.mpr h
    · exact yields_some.mpr (h₁.trans h₂)

theorem expandOptional_grown {elem : Nat} {oldTree : Option Nat} {start stop : Int} :
    Yields (fun r => Grown dfa.trees r.1.trees)
      (expandOptional ok fuel dfa elem oldTree start stop) := by
  refine yields_bind fun node _ => ?_
  have hmark : Yields (fun dfa' => Grown dfa.trees dfa'.trees)
      (if node.token.type = .subexp then
        postorder fuel (RegTree.markOptSubexp node.token.opr) dfa elem
      else some dfa) := by
    split
    · exact (markOptSubexp_tokens _ _).mono fun dfa' h => .of_tokens h
    · exact yields_some.mpr (.refl dfa.trees)
  refine hmark.bind fun dfa₁ _ h₁ => ?_
  have hnew : TokenType.Repeats (if stop = -1 then .opDupAsterisk else .opAlt) := by
    split
    · exact .inr (.inr rfl)
    · exact .inr (.inl rfl)
  refine (createTree_grown hnew).bind fun r₂ _ h₂ => ?_
  have h₂' := h₁.trans h₂
  dsimp only
  split
  · exact yields_some.mpr h₂'
  · refine optionalCopies_grown.bind fun r₃ _ h₃ => ?_
    have h₃' := h₂'.trans h₃
    split
    · exact yields_some.mpr h₃'
    · exact yields_some.mpr h₃'
    · exact (createTree_grown (.inl rfl)).bind fun r₄ _ h₄ => yields_some.mpr (h₃'.trans h₄)

theorem expandDup_grown {elem : Nat} {start stop : Int} :
    Yields (fun r => Grown dfa.trees r.1.trees) (expandDup ok fuel dfa elem start stop) := by
  unfold expandDup
  split
  · refine mandatoryCopies_grown.bind fun r₁ _ h₁ => ?_
    dsimp only
    split
    · exact yields_some.mpr h₁
    · split
      · exact yields_some.mpr h₁
      · refine (duplicateTree_grown _).bind fun r₂ _ h₂ => ?_
        split
        · exact yields_some.mpr (h₁.trans h₂)
        · exact expandOptional_grown.mono fun r h => (h₁.trans h₂).trans h
  · exact expandOptional_grown

theorem parseDupOp_grown {elem : Option Nat} {regexp : List Token} {token : Token}
    {invalidOrd : Bool} : Yields (fun p => Grown dfa.trees p.dfa.trees)
      (parseDupOp ok fuel elem regexp dfa token invalidOrd) := by
  unfold parseDupOp
  split
  · exact yields_some.mpr (.refl _)
  · exact yields_some.mpr (.refl _)
  · dsimp only
    split
    · exact yields_some.mpr (.refl _)
    · split
      · exact (free_trees _).bind fun dfa' _ h => yields_some.mpr (by rw [h]; exact .refl _)
      · exact expandDup_grown.bind fun r _ h => yields_some.mpr h

/-! ## Groups and back references -/

/-- There is no new node of a group or a back reference, except for copies. -/
structure SameRefs (trees trees' : List BinTree) : Prop where
  subexps : originals .subexp trees' = originals .subexp trees
  backRefs : originals .opBackRef trees' = originals .opBackRef trees
  copies : ∀ token ∈ treeTokens trees', token.type = .opBackRef →
    ∃ token₀ ∈ treeTokens trees, token₀.type = .opBackRef ∧ token₀.opr = token.opr

theorem SameRefs.refl (trees : List BinTree) : SameRefs trees trees :=
  ⟨rfl, rfl, fun token htoken htype => ⟨token, htoken, htype, rfl⟩⟩

theorem SameRefs.trans (h : SameRefs trees trees') (h' : SameRefs trees' trees'') :
    SameRefs trees trees'' := by
  refine ⟨h'.subexps.trans h.subexps, h'.backRefs.trans h.backRefs, fun token htoken htype => ?_⟩
  obtain ⟨token₁, hmem₁, htype₁, hopr₁⟩ := h'.copies token htoken htype
  obtain ⟨token₀, hmem₀, htype₀, hopr₀⟩ := h.copies token₁ hmem₁ htype₁
  exact ⟨token₀, hmem₀, htype₀, hopr₀.trans hopr₁⟩

theorem Grown.sameRefs (h : Grown trees trees') : SameRefs trees trees' := by
  refine ⟨h.originals (by simp [TokenType.Repeats]), h.originals (by simp [TokenType.Repeats]), ?_⟩
  obtain ⟨more, heq, hmore⟩ := h
  intro token htoken htype
  rw [heq] at htoken
  obtain htoken | htoken := List.mem_append.mp htoken
  · exact ⟨token, htoken, htype, rfl⟩
  obtain hrepeats | ⟨token₀, hmem, rfl⟩ := hmore token htoken
  · rw [htype] at hrepeats
    exact absurd hrepeats (by simp [TokenType.Repeats])
  · exact ⟨token₀, hmem, htype, rfl⟩

theorem originals_append {type : TokenType} {token : Token}
    (htokens : treeTokens trees' = treeTokens trees ++ [token]) (htype : token.type = type)
    (hdup : token.duplicated = false) :
    originals type trees' = originals type trees ++ [token.opr] := by
  rw [originals_eq, originals_eq, htokens, List.filter_append, List.map_append]
  simp [htype, hdup]

theorem originals_append_ne {type : TokenType} {token : Token}
    (htokens : treeTokens trees' = treeTokens trees ++ [token]) (htype : token.type ≠ type) :
    originals type trees' = originals type trees := by
  rw [originals_eq, originals_eq, htokens, List.filter_append]
  simp [htype]

/-- A new last token of another type. -/
theorem sameRefs_append {token : Token} (htokens : treeTokens trees' = treeTokens trees ++ [token])
    (hsubexp : token.type ≠ .subexp) (hbackRef : token.type ≠ .opBackRef) :
    SameRefs trees trees' := by
  refine ⟨?_, ?_, fun token' htoken htype => ?_⟩
  · exact originals_append_ne htokens hsubexp
  · exact originals_append_ne htokens hbackRef
  · rw [htokens] at htoken
    obtain htoken | htoken := List.mem_append.mp htoken
    · exact ⟨token', htoken, htype, rfl⟩
    · rw [List.mem_singleton.mp htoken] at htype
      exact absurd htype hbackRef

theorem createTokenTree_sameRefs {left right : Option Nat} {token : Token}
    (hsubexp : token.type ≠ .subexp) (hbackRef : token.type ≠ .opBackRef) :
    Yields (fun r => SameRefs dfa.trees r.1.trees) (createTokenTree ok dfa left right token) := by
  refine createTokenTree_tokens.mono fun r hr => ?_
  obtain ⟨-, htrees⟩ | ⟨-, htokens⟩ := hr
  · rw [htrees]
    exact .refl _
  · exact sameRefs_append htokens hsubexp hbackRef

end Librecompat.RegTree
