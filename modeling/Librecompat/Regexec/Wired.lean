/-
  What `regexec.c` relies on, in every compiled pattern.

  A copy that takes a character gets the next node of the original before `duplicate_node_closure`
  returns, so behind it all such nodes have a next node (`Nfa.Wired`, by induction on the fuel).
  `calc_eclosure` ends when no closure is empty: one that has been stored is not touched again
  (`Nfa.Keeps`).
-/
import Librecompat.Regcomp.Built
import Librecompat.Regexec.Automaton

namespace Librecompat.Regexec

open Librecompat.Lib Librecompat.NodeSet Librecompat.Regcomp
open Librecompat.RegTree (Tree Rooted Simplifies)
open Librecompat.Regex
open Librecompat.Eclosure (storeClosure)

variable {ok : Nat → Bool} {fresh : Nat → Int} {fuel constraint : Nat}
variable {nfa nfa' nfa'' : Nfa} {pending : Set Int}

/-! ## Automata that grow -/

/-- The nodes that are there stay, and so do the closures that are done or in progress; new nodes
    are of the types of old ones. -/
structure Keeps (nfa nfa' : Nfa) : Prop where
  first : nfa'.first = nfa.first
  nodeIdx : nfa'.nodeIdx = nfa.nodeIdx
  nodes : nfa.graph.nodes <+: nfa'.graph.nodes
  types : ∀ token ∈ nfa'.graph.nodes, ∃ token' ∈ nfa.graph.nodes, token'.type = token.type
  eclosures : ∀ i set, getAt nfa.graph.eclosures i = some set → set.nelem ≠ 0 →
    getAt nfa'.graph.eclosures i = some set

theorem Keeps.refl (nfa : Nfa) : Keeps nfa nfa :=
  ⟨rfl, rfl, List.prefix_refl _, fun token htoken => ⟨token, htoken, rfl⟩, fun _ _ h _ => h⟩

theorem Keeps.trans (h : Keeps nfa nfa') (h' : Keeps nfa' nfa'') : Keeps nfa nfa'' :=
  ⟨h'.first.trans h.first, h'.nodeIdx.trans h.nodeIdx, h.nodes.trans h'.nodes,
    fun token htoken => by
      obtain ⟨token', htoken', htype'⟩ := h'.types token htoken
      obtain ⟨token'', htoken'', htype''⟩ := h.types token' htoken'
      exact ⟨token'', htoken'', htype''.trans htype'⟩,
    fun i set hset hne => h'.eclosures i set (h.eclosures i set hset hne) hne⟩

theorem getAt_of_prefix {α : Type} {xs ys : List α} (h : xs <+: ys) {i : Int} {x : α}
    (hx : getAt xs i = some x) : getAt ys i = some x := by
  obtain ⟨zs, rfl⟩ := h
  obtain ⟨hpos, hget⟩ := getAt_eq_some.mp hx
  have hlt := (List.getElem?_eq_some_iff.mp hget).1
  exact getAt_eq_some.mpr ⟨hpos, by rw [List.getElem?_append_left hlt, hget]⟩

theorem getAt_concat {α : Type} {xs : List α} {x y : α} {i : Int}
    (h : getAt (xs ++ [x]) i = some y) : getAt xs i = some y ∨ i = xs.length ∧ y = x := by
  obtain ⟨hpos, hget⟩ := getAt_eq_some.mp h
  by_cases hlt : i.toNat < xs.length
  · rw [List.getElem?_append_left hlt] at hget
    exact .inl (getAt_eq_some.mpr ⟨hpos, hget⟩)
  · have hle := (List.getElem?_eq_some_iff.mp hget).1
    rw [List.length_append, List.length_singleton] at hle
    have heq : i.toNat = xs.length := by omega
    rw [heq, List.getElem?_concat_length] at hget
    exact .inr ⟨by omega, (Option.some.inj hget).symm⟩

theorem Keeps.node (h : Keeps nfa nfa') {i : Int} {token : Eclosure.Token}
    (htoken : getAt nfa.graph.nodes i = some token) : getAt nfa'.graph.nodes i = some token :=
  getAt_of_prefix h.nodes htoken

/-- Nodes that take a character have a node behind them, but for the copies `pending` that have
    just been made; epsilon destinations they have none. -/
structure Wired (pending : Set Int) (nfa : Nfa) : Prop where
  edests : nfa.graph.edests.length = nfa.graph.nodes.length
  nexts : nfa.nexts.length = nfa.graph.nodes.length
  eclosures : nfa.graph.eclosures.length = nfa.graph.nodes.length
  free : ∀ i token set, getAt nfa.graph.nodes i = some token → takesChar token.type = true →
    getAt nfa.graph.edests i = some set → set.nelem = 0
  next : ∀ i token, getAt nfa.graph.nodes i = some token → takesChar token.type = true →
    i ∉ pending → ∃ k : Nat, getAt nfa.nexts i = some (k : Int) ∧ k < nfa.graph.nodes.length

/-- What a call leaves behind an automaton. -/
abbrev Wires {β : Type} (nfa : Nfa) (pending : Set Int) (r : Option (Nfa × β)) : Prop :=
  Yields (fun q => Wired pending q.1 ∧ Keeps nfa q.1) r

/-- A call that can report an error. -/
abbrev Rewires (nfa : Nfa) (r : Option (Nfa × RegErrcode)) : Prop :=
  Yields (fun q => q.2 = REG_NOERROR → Wired ∅ q.1 ∧ Keeps nfa q.1) r

theorem Rewires.behind {r : Option (Nfa × RegErrcode)} (hkeeps : Keeps nfa nfa')
    (h : Rewires nfa' r) : Rewires nfa r :=
  h.mono fun _ hq herr => ⟨(hq herr).1, hkeeps.trans (hq herr).2⟩

theorem Wires.rewires {r : Option (Nfa × RegErrcode)} (h : Wires nfa ∅ r) : Rewires nfa r :=
  h.mono fun _ hq _ => hq

/-! ## Changes of one node -/

theorem Wired.tick (h : Wired pending nfa) :
    Wired pending { nfa with graph := nfa.graph.tick } :=
  ⟨h.edests, h.nexts, h.eclosures, h.free, h.next⟩

theorem keeps_tick (nfa : Nfa) : Keeps nfa { nfa with graph := nfa.graph.tick } :=
  ⟨rfl, rfl, List.prefix_refl _, fun token htoken => ⟨token, htoken, rfl⟩, fun _ _ h _ => h⟩

/-- A node that takes no character need not be waited for. -/
theorem Wired.settled {node : Int} {token : Eclosure.Token} (h : Wired {node} nfa)
    (htoken : getAt nfa.graph.nodes node = some token) (htype : takesChar token.type = false) :
    Wired ∅ nfa := by
  refine ⟨h.edests, h.nexts, h.eclosures, h.free, fun i token' hi htype' _ => ?_⟩
  refine h.next i token' hi htype' fun heq => ?_
  rw [Set.mem_singleton_iff.mp heq, htoken] at hi
  rw [← Option.some.inj hi, htype] at htype'
  cases htype'

/-- The destinations of a node that takes no character. -/
theorem Wired.setEdests (h : Wired pending nfa) {node : Int} {token : Eclosure.Token}
    (htoken : getAt nfa.graph.nodes node = some token) (htype : takesChar token.type = false)
    (set : ReNodeSet) :
    Yields (fun nfa' => Wired pending nfa' ∧ Keeps nfa nfa') (nfa.setEdests node set) := by
  refine yields_bind fun edests hedests => yields_some.mpr ⟨⟨?_, h.nexts, h.eclosures, ?_, h.next⟩,
    rfl, rfl, List.prefix_refl _, fun token htoken => ⟨token, htoken, rfl⟩, fun _ _ h _ => h⟩
  · rw [← h.edests]
    exact length_setAt hedests
  · intro i token' set' hi htype' hset'
    obtain ⟨rfl, -⟩ | ⟨-, hset'⟩ := getAt_setAt hedests hset'
    · rw [htoken] at hi
      rw [← Option.some.inj hi, htype] at htype'
      cases htype'
    · exact h.free i token' set' hi htype' hset'

theorem Wired.emptyEdests (h : Wired pending nfa) {node : Int} {token : Eclosure.Token}
    (htoken : getAt nfa.graph.nodes node = some token) (htype : takesChar token.type = false) :
    Yields (fun nfa' => Wired pending nfa' ∧ Keeps nfa nfa') (nfa.emptyEdests node) :=
  yields_bind fun _ _ => h.setEdests htoken htype _

theorem Wired.insertEdest (h : Wired pending nfa) {node : Int} {token : Eclosure.Token}
    (htoken : getAt nfa.graph.nodes node = some token) (htype : takesChar token.type = false)
    (dest : Int) : Wires nfa pending (nfa.insertEdest ok node dest) := by
  refine yields_bind fun set _ => yields_bind fun q _ => ?_
  have htoken' : getAt nfa.graph.tick.nodes node = some token := htoken
  refine (h.tick.setEdests htoken' htype q.1).bind fun nfa' _ h' => yields_some.mpr ⟨h'.1, ?_⟩
  exact (keeps_tick nfa).trans h'.2

theorem Wired.mono {pending' : Set Int} (h : Wired pending nfa) (hsub : pending ⊆ pending') :
    Wired pending' nfa :=
  ⟨h.edests, h.nexts, h.eclosures, h.free, fun i token hi htype hne =>
    h.next i token hi htype fun hmem => hne (hsub hmem)⟩

/-- The node behind a copy, which is no longer waited for. -/
theorem Wired.setNext {node : Int} {token : Eclosure.Token} (h : Wired pending nfa)
    (htoken : getAt nfa.graph.nodes node = some token) (next : Int)
    (hnext : takesChar token.type = true → ∃ k : Nat, next = k ∧ k < nfa.graph.nodes.length) :
    Yields (fun nfa' => Wired (pending \ {node}) nfa' ∧ Keeps nfa nfa') (nfa.setNext node next) := by
  refine yields_bind fun nexts hnexts => yields_some.mpr ⟨⟨h.edests, ?_, h.eclosures, h.free, ?_⟩,
    rfl, rfl, List.prefix_refl _, fun token htoken => ⟨token, htoken, rfl⟩, fun _ _ h _ => h⟩
  · rw [← h.nexts]
    exact length_setAt hnexts
  · intro i token' hi htype' hne
    obtain ⟨hself, hother⟩ := setAt_spec hnexts
    by_cases heq : i = node
    · subst heq
      obtain rfl := Option.some.inj (htoken.symm.trans hi)
      obtain ⟨k, rfl, hk⟩ := hnext htype'
      exact ⟨k, hself, hk⟩
    · obtain ⟨k, hk, hlt⟩ := h.next i token' hi htype' fun hmem => hne ⟨hmem, heq⟩
      exact ⟨k, by rw [← hk]; exact hother i heq, hlt⟩

/-! ## duplicate_node_closure -/

/-- The node `clone` is a copy of `org`; a node that takes a character is not its own copy. -/
def IsCopy (nfa : Nfa) (org clone : Int) : Prop :=
  ∃ token copy, getAt nfa.graph.nodes org = some token ∧ getAt nfa.graph.nodes clone = some copy ∧
    copy.type = token.type ∧ (takesChar token.type = true → org ≠ clone)

theorem IsCopy.mono {org clone : Int} (h : IsCopy nfa org clone) (hkeeps : Keeps nfa nfa') :
    IsCopy nfa' org clone := by
  obtain ⟨token, copy, htoken, hcopy, htype⟩ := h
  exact ⟨token, copy, hkeeps.node htoken, hkeeps.node hcopy, htype⟩

/-- One more node at the end. -/
theorem Wired.append (h : Wired ∅ nfa) {token : Eclosure.Token}
    (hnodes : nfa'.graph.nodes = nfa.graph.nodes ++ [token])
    (hedests : nfa'.graph.edests = nfa.graph.edests ++ [reNodeSetInitEmpty])
    (heclosures : nfa'.graph.eclosures = nfa.graph.eclosures ++ [reNodeSetInitEmpty])
    (hnexts : nfa'.nexts = nfa.nexts ++ [-1]) :
    Wired {(nfa.graph.nodes.length : Int)} nfa' := by
  have hlength : nfa'.graph.nodes.length = nfa.graph.nodes.length + 1 := by
    rw [hnodes, List.length_append, List.length_singleton]
  refine ⟨?_, ?_, ?_, fun i token' set hi htype hset => ?_, fun i token' hi htype hne => ?_⟩
  · rw [hedests, hlength, List.length_append, List.length_singleton, h.edests]
  · rw [hnexts, hlength, List.length_append, List.length_singleton, h.nexts]
  · rw [heclosures, hlength, List.length_append, List.length_singleton, h.eclosures]
  · rw [hnodes] at hi
    rw [hedests] at hset
    have hbound : ∀ {α : Type} {xs : List α} {x : α}, getAt xs i = some x → i < xs.length := by
      intro α xs x hx
      obtain ⟨hpos, hget⟩ := getAt_eq_some.mp hx
      have := (List.getElem?_eq_some_iff.mp hget).1
      omega
    obtain hi | ⟨hi, -⟩ := getAt_concat hi
    · obtain hset | ⟨hlast, -⟩ := getAt_concat hset
      · exact h.free i token' set hi htype hset
      · have := hbound hi
        have := h.edests
        omega
    · obtain hset | ⟨-, rfl⟩ := getAt_concat hset
      · have := hbound hset
        have := h.edests
        omega
      · rfl
  · rw [hnodes] at hi
    obtain hi | ⟨hi, -⟩ := getAt_concat hi
    · obtain ⟨k, hk, hlt⟩ := h.next i token' hi htype (Set.notMem_empty i)
      refine ⟨k, ?_, by omega⟩
      rw [hnexts]
      exact getAt_of_prefix (List.prefix_append _ _) hk
    · exact absurd (Set.mem_singleton_iff.mpr hi) hne

theorem duplicateNode_wired (h : Wired ∅ nfa) (org : Int) (constraint : Nat) :
    Yields (fun q => q.2 ≠ -1 → Wired {q.2} q.1 ∧ Keeps nfa q.1 ∧ IsCopy q.1 org q.2)
      (duplicateNode ok fresh nfa org constraint) := by
  refine yields_bind fun token htoken => yields_bind fun opr _ => ?_
  unfold Nfa.addNode
  cases ok nfa.graph.calls
  · exact yields_some.mpr fun hne => absurd rfl hne
  · have hneg : ¬ (nfa.graph.nodes.length : Int) = -1 := by omega
    have hlast : getAt (nfa.graph.nodes ++ [(⟨token.type, 0, true⟩ : Eclosure.Token)])
        (nfa.graph.nodes.length : Int) = some ⟨token.type, 0, true⟩ :=
      getAt_append_cons _ [] _ rfl
    have hset := setAt_append_cons nfa.graph.nodes [] (⟨token.type, 0, true⟩ : Eclosure.Token)
      ⟨token.type, constraint ||| token.constraint, true⟩ (rfl : (nfa.graph.nodes.length : Int) = _)
    simp only [Bool.not_true, Bool.false_eq_true, if_false, if_neg hneg, Nfa.setConstraint, hlast,
      hset, Option.bind_eq_bind, Option.bind_some]
    refine yields_bind fun orgIndices _ => yields_some.mpr fun _ => ?_
    refine ⟨h.append rfl rfl rfl rfl, ⟨rfl, rfl, List.prefix_append _ _, fun token' htoken' => ?_,
      fun i set hset _ => ?_⟩, ?_⟩
    · obtain htoken' | htoken' := List.mem_append.mp htoken'
      · exact ⟨token', htoken', rfl⟩
      · rw [List.mem_singleton.mp htoken']
        exact ⟨token, List.mem_of_getElem? (getAt_eq_some.mp htoken).2, rfl⟩
    · exact getAt_of_prefix (List.prefix_append _ _) hset
    · refine ⟨token, ⟨token.type, constraint ||| token.constraint, true⟩,
        getAt_of_prefix (List.prefix_append _ _) htoken, getAt_append_cons _ [] _ rfl, rfl, ?_⟩
      rintro - rfl
      obtain ⟨-, hget⟩ := getAt_eq_some.mp htoken
      have := (List.getElem?_eq_some_iff.mp hget).1
      omega

/-- A copy of a destination, and the call for the copy. -/
theorem copyDest_wired (h : Wired ∅ nfa) {org clone : Int} {token : Eclosure.Token}
    (hclone : getAt nfa.graph.nodes clone = some token) (htype : takesChar token.type = false)
    {k : Nfa → Int → Option (Nfa × RegErrcode)}
    (hk : ∀ nfa' dest, Wired {dest} nfa' → IsCopy nfa' org dest → Rewires nfa' (k nfa' dest)) :
    Rewires nfa (copyDest ok fresh nfa org clone constraint k) := by
  refine (duplicateNode_wired h org constraint).bind fun q _ hq => ?_
  obtain ⟨nfa₁, dest⟩ := q
  dsimp only at hq ⊢
  split
  · exact yields_some.mpr fun hfail => absurd hfail (by simp [REG_NOERROR, REG_ESPACE])
  · next hne =>
    obtain ⟨h₁, hkeeps₁, hcopy⟩ := hq hne
    refine (h₁.insertEdest (hkeeps₁.node hclone) htype dest).bind fun q₂ _ h₂ => ?_
    split
    · next hfail => exact yields_some.mpr fun hno => absurd hno hfail
    · exact (hk q₂.1 dest h₂.1 (hcopy.mono h₂.2)).behind (hkeeps₁.trans h₂.2)

theorem duplicateNodeClosure_wired : ∀ (fuel : Nat) (nfa : Nfa) (org clone root : Int)
    (constraint : Nat), Wired {clone} nfa → IsCopy nfa org clone →
    Rewires nfa (duplicateNodeClosure ok fresh fuel nfa org clone root constraint)
  | 0, _, _, _, _, _, _, _ => yields_none
  | fuel + 1, nfa, org, clone, root, constraint, h, hcopy => by
    obtain ⟨token, copy, htoken, hclone, htype, hne⟩ := hcopy
    have hrec : ∀ {constraint : Nat} {org' : Int} (nfa' : Nfa) (dest : Int), Wired {dest} nfa' →
        IsCopy nfa' org' dest →
        Rewires nfa' (duplicateNodeClosure ok fresh fuel nfa' org' dest root constraint) :=
      fun nfa' dest h' hcopy' => duplicateNodeClosure_wired fuel nfa' _ dest root _ h' hcopy'
    rw [duplicateNodeClosure]
    simp only [htoken, Option.bind_eq_bind, Option.bind_some]
    refine yields_bind fun edests hedests => ?_
    by_cases hchar : takesChar token.type = true
    · -- the original destination is the destination of the copy
      have hback : token.type ≠ .opBackRef := by
        intro hback
        simp [hback, takesChar] at hchar
      have hzero : edests.nelem = 0 := h.free org token edests htoken hchar hedests
      rw [if_neg hback, if_pos hzero]
      obtain ⟨next, hnext, hlt⟩ := h.next org token htoken hchar (hne hchar)
      simp only [hnext, Option.bind_some]
      refine (h.setNext hclone next fun _ => ⟨next, rfl, hlt⟩).bind fun nfa₁ _ h₁ =>
        yields_some.mpr fun _ => ⟨h₁.1.mono (by simp), h₁.2⟩
    have hfree : takesChar copy.type = false := by simpa [htype] using hchar
    have hsettled := h.settled hclone hfree
    split
    · refine yields_bind fun dest _ => (hsettled.emptyEdests hclone hfree).bind fun nfa₁ _ h₁ => ?_
      have hclone₁ := h₁.2.node hclone
      refine (duplicateNode_wired h₁.1 dest constraint).bind fun q₂ _ h₂ => ?_
      obtain ⟨nfa₂, copied⟩ := q₂
      dsimp only at h₂ ⊢
      split
      · exact yields_some.mpr fun hfail => absurd hfail (by simp [REG_NOERROR, REG_ESPACE])
      next hok =>
      obtain ⟨h₂, hkeeps₂, hcopied⟩ := h₂ hok
      have hclone₂ := hkeeps₂.node hclone₁
      refine yields_bind fun next _ => (h₂.setNext hclone₂ next fun htakes => by
        rw [hfree] at htakes; cases htakes).bind fun nfa₃ _ h₃ => ?_
      have hclone₃ := h₃.2.node hclone₂
      refine ((h₃.1.mono Set.sdiff_subset).insertEdest hclone₃ hfree copied).bind fun q₄ _ h₄ => ?_
      split
      · next hfail => exact yields_some.mpr fun hno => absurd hno hfail
      · exact (hrec q₄.1 copied h₄.1 ((hcopied.mono h₃.2).mono h₄.2)).behind
          (((h₁.2.trans hkeeps₂).trans h₃.2).trans h₄.2)
    split
    · refine yields_bind fun next _ => (hsettled.setNext hclone next fun htakes => by
        rw [hfree] at htakes; cases htakes).bind fun nfa₁ _ h₁ => ?_
      exact yields_some.mpr fun _ => ⟨h₁.1.mono Set.sdiff_subset, h₁.2⟩
    split
    · refine yields_bind fun dest _ => (hsettled.emptyEdests hclone hfree).bind fun nfa₁ _ h₁ => ?_
      have hclone₁ := h₁.2.node hclone
      split
      · exact ((h₁.1.insertEdest hclone₁ hfree _).rewires).behind h₁.2
      · exact (copyDest_wired h₁.1 hclone₁ hfree hrec).behind h₁.2
    · refine yields_bind fun dest _ => (hsettled.emptyEdests hclone hfree).bind fun nfa₁ _ h₁ => ?_
      have hclone₁ := h₁.2.node hclone
      refine yields_bind fun found _ => ?_
      have hfirst : Rewires nfa₁ (if found = -1 then
          copyDest ok fresh nfa₁ dest clone constraint fun nfa' dest' =>
            duplicateNodeClosure ok fresh fuel nfa' dest dest' root constraint
          else nfa₁.insertEdest ok clone found) := by
        split
        · exact copyDest_wired h₁.1 hclone₁ hfree hrec
        · exact (h₁.1.insertEdest hclone₁ hfree _).rewires
      refine hfirst.bind fun q₂ _ h₂ => ?_
      split
      · next hfail => exact yields_some.mpr fun hno => absurd hno hfail
      next hok =>
      obtain ⟨hwired₂, hkeeps₂⟩ := h₂ (not_not.mp hok)
      refine yields_bind fun edests₂ _ => yields_bind fun dest₂ _ => ?_
      exact (copyDest_wired hwired₂ (hkeeps₂.node hclone₁) hfree hrec).behind
        (h₁.2.trans hkeeps₂)

/-! ## calc_eclosure -/

theorem inheritConstraint_wired (h : Wired ∅ nfa) (node : Int) :
    Rewires nfa (inheritConstraint ok fresh fuel nfa node) := by
  refine yields_bind fun token htoken => yields_bind fun edests hedests => ?_
  split
  · next hconstrained =>
    refine yields_bind fun first _ => yields_bind fun dest _ => ?_
    split
    · exact yields_some.mpr fun _ => ⟨h, Keeps.refl nfa⟩
    · -- a node with destinations takes no character
      have hfree : takesChar token.type = true → node ≠ node := fun hchar =>
        absurd (h.free node token edests htoken hchar hedests) hconstrained.2
      exact duplicateNodeClosure_wired fuel nfa node node node _ (h.mono (Set.empty_subset _))
        ⟨token, token, htoken, htoken, rfl, hfree⟩
  · exact yields_some.mpr fun _ => ⟨h, Keeps.refl nfa⟩

/-- The closure of a node that is not done. -/
def Undone (nfa : Nfa) (node : Int) : Prop :=
  ∀ set, getAt nfa.graph.eclosures node = some set → set.nelem = 0

/-- A new closure for one node. -/
theorem Wired.setEclosure (h : Wired ∅ nfa) (node : Int) (set : ReNodeSet) :
    Yields (fun graph => Wired ∅ { nfa with graph := graph } ∧ graph.nodes = nfa.graph.nodes ∧
        getAt graph.eclosures node = some set ∧
        ∀ i, i ≠ node → getAt graph.eclosures i = getAt nfa.graph.eclosures i)
      (nfa.graph.setEclosure node set) := by
  refine yields_bind fun eclosures heclosures => yields_some.mpr ?_
  refine ⟨⟨h.edests, h.nexts, ?_, h.free, h.next⟩, rfl, setAt_spec heclosures⟩
  rw [← h.eclosures]
  exact length_setAt heclosures

theorem Wired.setNelem (h : Wired ∅ nfa) (node nelem : Int) :
    Yields (fun graph => Wired ∅ { nfa with graph := graph } ∧ graph.nodes = nfa.graph.nodes ∧
        (∃ set, getAt graph.eclosures node = some set ∧ set.nelem = nelem) ∧
        ∀ i, i ≠ node → getAt graph.eclosures i = getAt nfa.graph.eclosures i)
      (nfa.graph.setNelem node nelem) :=
  yields_bind fun _ _ => (h.setEclosure node _).mono fun _ hg =>
    ⟨hg.1, hg.2.1, ⟨_, hg.2.2.1, rfl⟩, hg.2.2.2⟩

theorem storeClosure_wired (nfa : Nfa) (s : Eclosure.Expand) {node : Int} {root : Bool}
    (h : Wired ∅ { nfa with graph := s.dfa }) :
    Yields (fun graph => Wired ∅ { nfa with graph := graph } ∧ graph.nodes = s.dfa.nodes ∧
        ∀ i, i ≠ node → getAt graph.eclosures i = getAt s.dfa.eclosures i)
      (storeClosure s node root) := by
  unfold Eclosure.storeClosure
  split
  · exact (h.setNelem node 0).mono fun _ hg => ⟨hg.1, hg.2.1, hg.2.2.2⟩
  · exact (h.setEclosure node _).mono fun _ hg => ⟨hg.1, hg.2.1, hg.2.2.2⟩

theorem expandPass_wired {iter : Nfa → Int → Option (Nfa × ReNodeSet × RegErrcode)} {node : Int}
    (hiter : ∀ nfa edest, Wired ∅ nfa → Undone nfa edest →
      Yields (fun q => q.2.2 = REG_NOERROR → Wired ∅ q.1 ∧ Keeps nfa q.1) (iter nfa edest))
    (s : Expand) (i : Nat) (h : s.err = REG_NOERROR → Wired ∅ s.nfa ∧ Keeps nfa s.nfa) :
    Yields (fun s => s.err = REG_NOERROR → Wired ∅ s.nfa ∧ Keeps nfa s.nfa)
      (expandPass ok iter node s i) := by
  unfold expandPass
  split
  · exact yields_some.mpr h
  next hok =>
  obtain ⟨hwired, hkeeps⟩ := h (not_not.mp hok)
  refine yields_bind fun edests _ => yields_bind fun edest _ => yields_bind fun set hset => ?_
  split
  · exact yields_some.mpr fun _ => ⟨hwired, hkeeps⟩
  have hcall : Yields (fun q => q.2.2 = REG_NOERROR → Wired ∅ q.1 ∧ Keeps s.nfa q.1)
      (if set.nelem = 0 then iter s.nfa edest else some (s.nfa, set, REG_NOERROR)) := by
    split
    · next hzero =>
      refine hiter s.nfa edest hwired fun set' hset' => ?_
      rw [← Option.some.inj (hset.symm.trans hset'), hzero]
    · exact yields_some.mpr fun _ => ⟨hwired, Keeps.refl _⟩
  refine hcall.bind fun q _ hq => ?_
  dsimp only
  split
  · next hfail => exact yields_some.mpr fun hno => absurd hno hfail
  next hok₁ =>
  obtain ⟨hwired₁, hkeeps₁⟩ := hq (not_not.mp hok₁)
  refine yields_bind fun q₂ _ => yields_bind fun set₂ _ => yields_some.mpr fun _ =>
    ⟨hwired₁.tick, (hkeeps.trans hkeeps₁).trans (keeps_tick _)⟩

theorem calcEclosureIter_wired : ∀ (fuel : Nat) (nfa : Nfa) (node : Int) (root : Bool),
    Wired ∅ nfa → Undone nfa node →
    Yields (fun q => q.2.2 = REG_NOERROR → Wired ∅ q.1 ∧ Keeps nfa q.1)
      (calcEclosureIter ok fresh fuel nfa node root)
  | 0, _, _, _, _, _ => yields_none
  | fuel + 1, nfa, node, root, h, hundone => by
    rw [calcEclosureIter]
    refine yields_bind fun edests _ => ?_
    dsimp only
    split
    · next hfail => exact yields_some.mpr fun hno => absurd hno hfail
    refine yields_bind fun elems _ => (h.tick.setNelem node (-1)).bind fun graph _ hgraph => ?_
    obtain ⟨h₁, hnodes₁, ⟨mark, hmark, hneg⟩, hother₁⟩ := hgraph
    refine (inheritConstraint_wired h₁ node).bind fun q₂ _ h₂ => ?_
    split
    · next hfail => exact yields_some.mpr fun hno => absurd hno hfail
    next hok₂ =>
    obtain ⟨hwired₂, hkeeps₂⟩ := h₂ (not_not.mp hok₂)
    refine yields_bind fun token _ => yields_bind fun edests₂ _ => ?_
    have hexpand : Yields (fun s => s.err = REG_NOERROR → Wired ∅ s.nfa ∧ Keeps q₂.1 s.nfa)
        (if token.type.isEpsilonNode then
          (List.range edests₂.nelem.toNat).foldlM (expandPass ok
            (fun nfa edest => calcEclosureIter ok fresh fuel nfa edest false) node)
            ⟨q₂.1, { (reNodeSetAlloc (ok nfa.graph.calls) (edests.nelem + 1)).1 with
              elems := elems
              nelem := (reNodeSetAlloc (ok nfa.graph.calls) (edests.nelem + 1)).1.nelem + 1 },
              false, REG_NOERROR⟩
        else some ⟨q₂.1, { (reNodeSetAlloc (ok nfa.graph.calls) (edests.nelem + 1)).1 with
              elems := elems
              nelem := (reNodeSetAlloc (ok nfa.graph.calls) (edests.nelem + 1)).1.nelem + 1 },
              false, REG_NOERROR⟩) := by
      split
      · refine yields_foldlM (fun s i hs => expandPass_wired (fun nfa' edest h' hundone' => ?_) s i hs)
          fun _ => ⟨hwired₂, Keeps.refl _⟩
        exact calcEclosureIter_wired fuel nfa' edest false h' hundone'
      · exact yields_some.mpr fun _ => ⟨hwired₂, Keeps.refl _⟩
    refine hexpand.bind fun s _ hs => ?_
    split
    · next hfail => exact yields_some.mpr fun hno => absurd hno hfail
    next hok₃ =>
    obtain ⟨hwired₃, hkeeps₃⟩ := hs (not_not.mp hok₃)
    refine Yields.bind (storeClosure_wired s.nfa ⟨s.nfa.graph, s.eclosure, s.incomplete, s.err⟩
      hwired₃) fun graph₄ _ h₄ => yields_some.mpr fun _ => ⟨h₄.1, ?_⟩
    obtain ⟨-, hnodes₄, hother₄⟩ := h₄
    have hkeeps := hkeeps₂.trans hkeeps₃
    refine ⟨hkeeps.first, hkeeps.nodeIdx, ?_, ?_, fun i set hset hne => ?_⟩
    · have hprefix := hkeeps.nodes
      dsimp only at hprefix hnodes₁ hnodes₄ ⊢
      rwa [hnodes₁, ← hnodes₄] at hprefix
    · have htypes := hkeeps.types
      dsimp only at htypes hnodes₁ hnodes₄ ⊢
      rwa [hnodes₁, ← hnodes₄] at htypes
    · -- the closures of the other nodes
      have hi : i ≠ node := by
        rintro rfl
        exact hne (hundone set hset)
      rw [hother₄ i hi]
      exact hkeeps.eclosures i set ((hother₁ i hi).trans hset) hne

/-- Up to the index of the loop the closures are done, unless one is incomplete. -/
structure Scanned (nfa : Nfa) (s : Outer) : Prop where
  wired : Wired ∅ s.nfa
  keeps : Keeps nfa s.nfa
  done : s.incomplete = true ∨ ∀ i set, i < s.nodeIdx →
    getAt s.nfa.graph.eclosures i = some set → set.nelem ≠ 0

/-- Behind `calc_eclosure` no closure is empty. -/
theorem calcEclosure_wired (h : Wired ∅ nfa) :
    Yields (fun q => q.2 = REG_NOERROR → Wired ∅ q.1 ∧ Keeps nfa q.1 ∧
        ∀ i set, getAt q.1.graph.eclosures i = some set → set.nelem ≠ 0)
      (calcEclosure ok fresh fuel nfa) := by
  have hstart : Scanned nfa ⟨nfa, 0, false⟩ := by
    refine ⟨h, Keeps.refl nfa, .inr fun i set hi hset => ?_⟩
    have := (getAt_eq_some.mp hset).1
    dsimp only at hi
    omega
  refine yields_tryLoop (I := Scanned nfa) (fun s hs => ?_) hstart
  unfold eclosurePass
  split
  · next hend =>
    refine yields_some.mpr fun _ => ⟨hs.wired, hs.keeps, fun i set hset => ?_⟩
    refine (hs.done.resolve_left (by simpa using hend.2)) i set ?_ hset
    obtain ⟨hpos, hget⟩ := getAt_eq_some.mp hset
    have hlt := (List.getElem?_eq_some_iff.mp hget).1
    have := hs.wired.eclosures
    dsimp only at hlt
    omega
  dsimp only
  have hround : Scanned nfa (if s.nodeIdx = s.nfa.graph.nodes.length then
      { s with incomplete := false, nodeIdx := 0 } else s) := by
    split
    · refine ⟨hs.wired, hs.keeps, .inr fun i set hi hset => ?_⟩
      have := (getAt_eq_some.mp hset).1
      dsimp only at hi
      omega
    · exact hs
  revert hround
  generalize (if s.nodeIdx = s.nfa.graph.nodes.length then
    ({ s with incomplete := false, nodeIdx := 0 } : Outer) else s) = s
  intro hs
  refine yields_bind fun set hset => ?_
  split
  · next hne =>
    refine yields_some.mpr ⟨hs.wired, hs.keeps, ?_⟩
    obtain hmore | hdone := hs.done
    · exact .inl hmore
    · refine .inr fun i set' hi hset' => ?_
      by_cases heq : i = s.nodeIdx
      · rw [heq, hset] at hset'
        rwa [← Option.some.inj hset']
      · dsimp only at hi
        exact hdone i set' (by omega) hset'
  next hzero =>
  have hundone : Undone s.nfa s.nodeIdx := fun set' hset' => by
    rw [← Option.some.inj (hset.symm.trans hset'), not_not.mp hzero]
  refine (calcEclosureIter_wired fuel s.nfa s.nodeIdx true hs.wired hundone).bind fun q _ hq => ?_
  split
  · next hfail => exact yields_some.mpr fun hno => absurd hno hfail
  next hok =>
  obtain ⟨hwired, hkeeps⟩ := hq (not_not.mp hok)
  refine yields_bind fun set₁ hset₁ => yields_some.mpr ⟨hwired, hs.keeps.trans hkeeps, ?_⟩
  by_cases hnone : set₁.nelem = 0
  · exact .inl (by simp [hnone])
  obtain hmore | hdone := hs.done
  · exact .inl (by simp [hmore])
  refine .inr fun i set' hi hset' => ?_
  by_cases heq : i = s.nodeIdx
  · rw [heq, hset₁] at hset'
    rwa [← Option.some.inj hset']
  · -- a closure that is done stays
    dsimp only at hi
    have hlt : i < s.nodeIdx := by omega
    obtain ⟨hpos, hget⟩ := getAt_eq_some.mp hset
    have hbound := (List.getElem?_eq_some_iff.mp hget).1
    obtain ⟨old, hold⟩ := exists_getAt s.nfa.graph.eclosures
      ⟨(getAt_eq_some.mp hset').1, by omega⟩
    have hne := hdone i old hlt hold
    obtain rfl := Option.some.inj ((hkeeps.eclosures i old hold hne).symm.trans hset')
    exact hne

/-! ## The compiled pattern -/

variable {T t t' : Tree} {c : Compiled} {root : Nat}

/-- From a node that takes a character one goes on with a character only. -/
theorem leads_of_takesChar {token : RegTree.Token} (h : takesChar (tokenNode token).type = true)
    (l r : Tree) (k : Option Nat) : dests token l r k = [] ∧ follow token k = some k := by
  revert h
  unfold tokenNode dests follow
  cases token.type <;> simp [nodeType, takesChar]

/-- The token of a node of the automaton. -/
theorem token_of_built (h : Built nfa T) {q : Nat} {node : Eclosure.Token}
    (hnode : nfa.graph.nodes[q]? = some node) :
    ∃ p, (emits T)[q]? = some p ∧ p ∈ emits T ∧ node = tokenNode p.2 := by
  have hq : q < (emits T).length := h.length_nodes ▸ (List.getElem?_eq_some_iff.mp hnode).1
  have hget := List.getElem?_eq_getElem hq
  rw [h.nodes, List.getElem?_map, hget] at hnode
  exact ⟨_, hget, List.getElem_mem hq, (Option.some.inj hnode).symm⟩

/-- A node that takes a character has a node behind it. -/
theorem nexts_of_built (h : Built nfa T) (htargets : ∀ p ∈ emits T, Targeted nfa T p) {q : Nat}
    {node : Eclosure.Token} (hnode : nfa.graph.nodes[q]? = some node)
    (htype : takesChar node.type = true) : ∃ k : Nat, getAt nfa.nexts q = some (k : Int) ∧
      k < nfa.graph.nodes.length := by
  obtain ⟨p, hp, hmem, rfl⟩ := token_of_built h hnode
  obtain ⟨l, r, j, harc, hall⟩ := htargets p hmem
  have hfollow : j ∈ follow p.2 j := (leads_of_takesChar htype l r j).2
  obtain ⟨next, hmap, hnext⟩ := harc.next j hfollow
  obtain ⟨x, token, rfl, hx⟩ := hall j (.inr hfollow)
  obtain ⟨k, hk, hlt, -⟩ := h.index hx
  obtain rfl := Option.some.inj hmap
  dsimp only at hk
  rw [h.nodeIdx q p hp, hk] at hnext
  exact ⟨k, hnext, hlt⟩

/-- In front of `calc_eclosure` nothing is waited for. -/
theorem wired_of_built (h : Built nfa T) (htargets : ∀ p ∈ emits T, Targeted nfa T p) :
    Wired ∅ nfa := by
  have hlength := h.length_nodes
  refine ⟨by rw [h.edests, hlength], by rw [h.nexts, hlength],
    by rw [h.eclosures, List.length_map, hlength], fun i token set hi htype hset => ?_,
    fun i token hi htype _ => ?_⟩
  · obtain ⟨hpos, hget⟩ := getAt_eq_some.mp hi
    obtain ⟨q, rfl⟩ := Int.eq_ofNat_of_zero_le hpos
    rw [Int.toNat_natCast] at hget
    obtain ⟨p, hp, hmem, rfl⟩ := token_of_built h hget
    obtain ⟨l, r, j, harc, -⟩ := htargets p hmem
    obtain ⟨set', xs, hset', hxs, hdest⟩ := harc.edests
    rw [h.nodeIdx q p hp] at hset'
    obtain rfl := Option.some.inj (hset.symm.trans hset')
    have hnil : xs = [] := List.eq_nil_iff_forall_not_mem.mpr fun x hx => by
      obtain ⟨d, hd, -⟩ := (hdest x).mp hx
      rw [(leads_of_takesChar htype l r j).1] at hd
      cases hd
    rw [hxs.nelem, hnil]
    rfl
  · obtain ⟨hpos, hget⟩ := getAt_eq_some.mp hi
    obtain ⟨q, rfl⟩ := Int.eq_ofNat_of_zero_le hpos
    exact nexts_of_built h htargets hget htype

theorem not_backRef {token : RegTree.Token} (hnode : (nodeType token.type).isSome)
    (h : token.type ≠ .opBackRef) : (tokenNode token).type ≠ .opBackRef := by
  unfold tokenNode
  revert hnode h
  cases token.type <;> simp [nodeType]

/-- Without back references the initial nodes are the closure of the first one. -/
theorem createInitialState_nodes (hok : ∀ k, ok k = true)
    (hback : ∀ token ∈ nfa.graph.nodes, token.type ≠ .opBackRef) {first : Nat}
    (hfirst : nfa.first root = some first) {set : ReNodeSet} {xs : List Int}
    (hset : getAt nfa.graph.eclosures (nfa.nodeIdx first) = some set) (hxs : NodeSet.Holds set xs) :
    Yields (fun r => ∀ q, r = .ok q → NodeSet.Holds q.1 xs) (createInitialState ok fuel root nfa) := by
  obtain ⟨nodes, hcopy, hnodes⟩ := initCopy_spec hxs
  unfold createInitialState
  simp only [hfirst, hset, hok, hcopy, Option.bind_eq_bind, Option.bind_some]
  rw [if_neg (not_not.mpr rfl)]
  refine Yields.bind (P := fun q => NodeSet.Holds q.1.nodes xs) ?_ fun q _ hq => ?_
  · refine yields_tryLoop (I := fun s : Initial => NodeSet.Holds s.nodes xs) (fun s hs => ?_) hnodes
    unfold initialPass
    split
    · exact yields_some.mpr hs
    refine yields_bind fun idx _ => yields_bind fun node hnode => yields_bind fun opr _ => ?_
    rw [if_pos (hback node (mem_of_getAt hnode))]
    exact yields_some.mpr hs
  · split
    · exact yields_some.mpr fun q hq => by cases hq
    split
    · next hno => simp at hno
    refine yields_bind fun contexts _ => yields_bind fun states _ => yields_some.mpr fun r hr => ?_
    rw [← Except.ok.inj hr]
    exact hq

/-- In the tree of an expression there is no end. -/
theorem types_of_proper : ∀ {t : Tree}, t.Proper → t.Types (· ≠ .endOfRe)
  | .nil, _ => trivial
  | .node a token l r, h => by
    unfold Tree.Proper at h
    split at h
    · next htype => exact ⟨by simp [htype], types_of_proper h.2.1, types_of_proper h.2.2⟩
    · next htype => exact ⟨by simp [htype], types_of_proper h.1, types_of_proper h.2⟩
    · next htype => exact ⟨by simp [htype], types_of_proper h.2.1, h.2.2 ▸ trivial⟩
    · next htype => exact ⟨by simp [htype], types_of_proper h.1, h.2 ▸ trivial⟩
    · exact h.elim
    · next htype => exact ⟨htype, h.1 ▸ trivial, h.2 ▸ trivial⟩

theorem not_endOfRe {token : RegTree.Token} (hnode : (nodeType token.type).isSome)
    (h : token.type ≠ .endOfRe) : (tokenNode token).type ≠ .endOfRe := by
  unfold tokenNode
  revert hnode h
  cases token.type <;> simp [nodeType]

/-- The end is the first node of the automaton only if the pattern is empty. -/
theorem first_of_full (h : Built nfa T) (hrooted : Rooted t T) (hfit : T.Fitted) (hne : t ≠ .nil) :
    ∃ node, nfa.graph.nodes[0]? = some node ∧ node.type ≠ .endOfRe := by
  cases hrooted with
  | empty a => exact absurd rfl hne
  | full a e hproper _ =>
    have hfitt : t.Fitted := hfit.2.1
    obtain ⟨b, token, -, hmem⟩ := firstNode_emits hfitt hne
    have hpos := List.length_pos_of_mem hmem
    have hget : (emits (.node a { type := .concat } t (.node e { type := .endOfRe } .nil .nil)))[0]? =
        some (emits t)[0] := by
      rw [emits, List.append_assoc, List.getElem?_append_left hpos, List.getElem?_eq_getElem hpos]
    have hmem' := List.mem_of_getElem? hget
    refine ⟨tokenNode (emits t)[0].2, ?_, not_endOfRe (h.types _ hmem') ?_⟩
    · rw [h.nodes, List.getElem?_map, hget]
      rfl
    · exact types_emits (types_of_proper hproper) _ (List.getElem_mem hpos)

/-- No node of the pattern has a constraint if it is empty. -/
theorem plain_of_empty (h : Built nfa T) (hrooted : Rooted .nil T) : nfa.Plain := by
  refine h.plain ?_
  cases hrooted with
  | empty a => exact ⟨by simp, trivial, trivial⟩
  | full a e hproper hne => exact absurd rfl hne

/-- The parser has seen no back reference. -/
def BackRefless (c : Compiled) : Prop := c.nbackref = 0

/-- The tree of the whole pattern has the types of the expression, and the end. -/
theorem rooted_types {P : RegTree.TokenType → Prop} (h : Rooted t T) (ht : t.Types P)
    (hconcat : P .concat) (hend : P .endOfRe) : T.Types P := by
  cases h with
  | empty a => exact ⟨hend, trivial, trivial⟩
  | full a e hproper hne => exact ⟨hconcat, ht, hend, trivial, trivial⟩

/-- Copies included, no node is a back reference if there is none in the tree. -/
theorem nodes_of_types (h : Compiles ok fresh fuel t t' T nfa root c)
    (ht : t.Types (· ≠ .opBackRef)) : ∀ token ∈ c.nfa.graph.nodes, token.type ≠ .opBackRef := by
  have ht' : t'.Types (· ≠ .opBackRef) := h.simplifies.types (by decide) (by decide) (by decide) ht
  have hT : T.Types (· ≠ .opBackRef) := rooted_types h.rooted ht' (by decide) (by decide)
  obtain ⟨-, hkeeps, -⟩ := calcEclosure_wired
    (wired_of_built h.built (h.built.targeted h.rooted h.fitted)) _ h.eclosures rfl
  intro token htoken
  obtain ⟨token', htoken', htype⟩ := hkeeps.types token htoken
  rw [h.built.nodes] at htoken'
  obtain ⟨p, hp, rfl⟩ := List.mem_map.mp htoken'
  rw [← htype]
  exact not_backRef (h.built.types p hp) (types_emits hT p hp)

/-- Every pattern without back references and without empty brackets can be matched. -/
theorem ready_of_compiles (hok : ∀ k, ok k = true) (h : Compiles ok fresh fuel t t' T nfa root c)
    (hsound : c.Sound) (hback : BackRefless c)
    (hbrackets : ∀ (q : Nat) (node : Eclosure.Token) (opr : Nat), c.nfa.graph.nodes[q]? = some node →
      c.nfa.oprs[q]? = some opr → node.type = .simpleBracket → BitVec.ofNat SBC_MAX opr ≠ 0#256) :
    Ready c := by
  have htargets := h.built.targeted h.rooted h.fitted
  obtain ⟨hwired, hkeeps, hdone⟩ := calcEclosure_wired (wired_of_built h.built htargets) _
    h.eclosures rfl
  refine ⟨hsound, fun q node hnode htype => ?_, hbrackets, ?_, fun hend q => ?_⟩
  · obtain ⟨k, hk, hlt⟩ := hwired.next q node (by rwa [getAt_natCast]) htype (Set.notMem_empty _)
    obtain ⟨set, hset⟩ := exists_getAt c.nfa.graph.eclosures
      (⟨Int.natCast_nonneg k, by rw [hwired.eclosures]; exact Int.ofNat_lt.mpr hlt⟩)
    exact ⟨k, set, hk, by omega, hset, hdone k set hset⟩
  · -- the initial nodes are a closure
    obtain ⟨first, hfirst, hinit⟩ := Option.bind_eq_some_iff.mp h.initial
    obtain ⟨set, hset, -⟩ := Option.bind_eq_some_iff.mp hinit
    have hne := hdone _ set hset
    obtain ⟨xs, hxs, -⟩ := (hsound.nfa.closure hset).resolve_left hne
    have hnodes := createInitialState_nodes hok (nodes_of_types h (h.backRefs hback)) hfirst hset
      hxs _ h.initial _ rfl
    rw [hnodes.nelem, ← hxs.nelem]
    exact hne
  · by_cases hnil : t' = .nil
    · have hplain : nfa.Plain := plain_of_empty h.built (hnil ▸ h.rooted)
      have hempty : ∀ set ∈ nfa.graph.eclosures, set.nelem = 0 := by
        intro set hset
        rw [h.built.eclosures] at hset
        obtain ⟨p, -, rfl⟩ := List.mem_map.mp hset
        rfl
      obtain ⟨-, hnodes, -⟩ := calcEclosure_plain hok hplain (h.built.graph htargets hplain) hempty
        _ h.eclosures
      dsimp only at hnodes
      rw [isConstrained, regexNodes, List.getElem?_map, hnodes]
      cases hq : nfa.graph.nodes[q]? with
      | none => rfl
      | some token => simp [hplain token (List.mem_of_getElem? hq)]
    · obtain ⟨node, hnode, htype⟩ := first_of_full h.built h.rooted h.fitted hnil
      have hkept : getAt c.nfa.graph.nodes (0 : Nat) = some node :=
        hkeeps.node (by rw [getAt_natCast, hnode])
      rw [getAt_natCast] at hkept
      rw [isEnd, regexNodes, List.getElem?_map, hkept] at hend
      simp [htype] at hend

variable {loc : Regcomp.Locale} {trans : Option (UInt8 → UInt8)} {okSet okTree : Nat → Bool}
variable {syn : RegSyntax} {noSub : Bool} {pattern : List UInt8}

/-- In a compiled pattern every node has a closure, and behind each that takes a character there is
    one. -/
theorem compile_wired (hokTree : ∀ k, okTree k = true)
    (h : compile ok loc trans okSet okTree fresh syn noSub fuel pattern = some (.ok c)) :
    (∀ i : Int, 0 ≤ i ∧ i < c.nfa.graph.nodes.length → ∃ set xs,
        getAt c.nfa.graph.eclosures i = some set ∧ NodeSet.Holds set xs ∧ xs ≠ [] ∧
        ∀ x ∈ xs, 0 ≤ x ∧ x < c.nfa.graph.nodes.length) ∧
      ∀ (q : Nat) (node : Eclosure.Token), c.nfa.graph.nodes[q]? = some node →
        takesChar node.type = true → ∃ k : Nat, getAt c.nfa.nexts q = some (k : Int) ∧
          k < c.nfa.graph.nodes.length := by
  obtain ⟨t, t', T, nfa, root, -, hcompiles⟩ := compile_built hokTree _ h _ rfl
  have hsound : c.Sound := compile_sound _ h c rfl
  have htargets := hcompiles.built.targeted hcompiles.rooted hcompiles.fitted
  obtain ⟨hwired, -, hdone⟩ := calcEclosure_wired (wired_of_built hcompiles.built htargets) _
    hcompiles.eclosures rfl
  refine ⟨fun i hi => ?_, fun q node hnode htype => ?_⟩
  · obtain ⟨set, hset⟩ := exists_getAt c.nfa.graph.eclosures
      (⟨hi.1, by rw [hwired.eclosures]; exact hi.2⟩)
    have hne := hdone i set hset
    obtain ⟨xs, hxs, hlt⟩ := (hsound.nfa.closure hset).resolve_left hne
    refine ⟨set, xs, hset, hxs, ?_, hlt⟩
    rintro rfl
    exact hne (by simpa using hxs.nelem)
  · exact hwired.next q node (by rwa [getAt_natCast]) htype (Set.notMem_empty _)

/-- `\(^a\|b*$\)*`: the nodes behind the anchors are copied. -/
theorem compile_wired_anchors : ∃ c,
    compile (fun _ => true) cLocale none (fun _ => true) (fun _ => true) (fun _ => 0) 0 false 300
      (chars "\\(^a\\|b*$\\)*") = some (.ok c) ∧
    (∀ i : Int, 0 ≤ i ∧ i < c.nfa.graph.nodes.length → ∃ set xs,
        getAt c.nfa.graph.eclosures i = some set ∧ NodeSet.Holds set xs ∧ xs ≠ [] ∧
        ∀ x ∈ xs, 0 ≤ x ∧ x < c.nfa.graph.nodes.length) ∧
      ∀ (q : Nat) (node : Eclosure.Token), c.nfa.graph.nodes[q]? = some node →
        takesChar node.type = true → ∃ k : Nat, getAt c.nfa.nexts q = some (k : Int) ∧
          k < c.nfa.graph.nodes.length := by
  obtain ⟨c, -, hcompile, -⟩ := @initially_some (chars "\\(^a\\|b*$\\)*") (fun _ _ => true)
    (by decide +kernel)
  exact ⟨c, hcompile, compile_wired (fun _ => rfl) hcompile⟩

end Librecompat.Regexec
