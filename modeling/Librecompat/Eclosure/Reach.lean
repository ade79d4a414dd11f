/-
  `calc_eclosure` computes reachability.

  While some nodes `P` are in progress, `calc_eclosure_iter` returns for a node a set between
  what is reached from it off `P` and all that is reached (`Result`); what it stores is all that
  is reached (`Inv`). `expandPass_spec` is one destination, `iter_spec` the recursion, by
  induction on the fuel: each level has one more node in progress. For a root nothing else is in
  progress, so its set is complete and is stored: the loop over the nodes makes one round.
-/
import Librecompat.Eclosure.Model
import Librecompat.Lib.Reach
import Mathlib.Data.Finset.Card
import Mathlib.Data.Int.Interval

namespace Librecompat.Eclosure

open Relation
open Librecompat.Lib Librecompat.NodeSet
open Librecompat.Regex (RegErrcode REG_NOERROR REG_ESPACE TokenType)

/-! ## Graphs -/

/-- The indices of the nodes. -/
def Dfa.IsNode (dfa : Dfa) (n : Int) : Prop := 0 ≤ n ∧ n < dfa.nodes.length

instance (dfa : Dfa) (n : Int) : Decidable (dfa.IsNode n) := inferInstanceAs (Decidable (_ ∧ _))

/-- `m` is an epsilon destination of `n`. -/
def Edge (dfa : Dfa) (n m : Int) : Prop :=
  ∃ token set, getAt dfa.nodes n = some token ∧ token.type.isEpsilonNode = true ∧
    getAt dfa.edests n = some set ∧ m ∈ set.members

/-- The destinations are sets of nodes, and no node carries a constraint. -/
structure Graph (dfa : Dfa) : Prop where
  lengthEdests : dfa.edests.length = dfa.nodes.length
  lengthEclosures : dfa.eclosures.length = dfa.nodes.length
  lengthInveclosures : dfa.inveclosures.length = dfa.nodes.length
  edests : ∀ set ∈ dfa.edests, ∃ xs, Holds set xs ∧ ∀ x ∈ xs, dfa.IsNode x
  unconstrained : ∀ token ∈ dfa.nodes, token.constraint = 0

/-- The set is the closure of `n`. -/
def Complete (g : Dfa) (n : Int) (set : ReNodeSet) : Prop :=
  ∃ xs, Holds set xs ∧ ∀ m, m ∈ xs ↔ ReflTransGen (Edge g) n m

variable {g dfa : Dfa} {P : Finset Int}

theorem Complete.nelem_pos {n : Int} {set : ReNodeSet} (h : Complete g n set) : 0 < set.nelem := by
  obtain ⟨xs, hxs, hmem⟩ := h
  have := List.length_pos_of_mem ((hmem n).mpr ReflTransGen.refl)
  rw [hxs.nelem]
  omega

/-- The closures while the nodes `P` are in progress. -/
structure Inv (g : Dfa) (P : Finset Int) (dfa : Dfa) : Prop where
  nodes : dfa.nodes = g.nodes
  edests : dfa.edests = g.edests
  inveclosures : dfa.inveclosures = g.inveclosures
  length : dfa.eclosures.length = g.nodes.length
  progress : ∀ n ∈ P, ∃ set, getAt dfa.eclosures n = some set ∧ set.nelem = -1
  rest : ∀ n, g.IsNode n → n ∉ P → ∃ set, getAt dfa.eclosures n = some set ∧
    (set.nelem = 0 ∨ Complete g n set)

/-- What was stored stays. -/
def Kept (P : Finset Int) (dfa dfa' : Dfa) : Prop :=
  ∀ n, n ∉ P → ∀ set, getAt dfa.eclosures n = some set → set.nelem ≠ 0 →
    getAt dfa'.eclosures n = some set

theorem Kept.refl (P : Finset Int) (dfa : Dfa) : Kept P dfa dfa := fun _ _ _ h _ => h

theorem Kept.trans {dfa' dfa'' : Dfa} (h : Kept P dfa dfa') (h' : Kept P dfa' dfa'') :
    Kept P dfa dfa'' :=
  fun n hn set hset hne => h' n hn set (h n hn set hset hne) hne

theorem Inv.tick (h : Inv g P dfa) : Inv g P dfa.tick :=
  ⟨h.nodes, h.edests, h.inveclosures, h.length, h.progress, h.rest⟩

/-- What a recursive call gives for a node outside `P`. -/
structure Result (g : Dfa) (P : Finset Int) (dfa : Dfa) (node : Int) (dfa' : Dfa)
    (xs : List Int) : Prop where
  inv : Inv g P dfa'
  kept : Kept P dfa dfa'
  sound : ∀ m ∈ xs, ReflTransGen (Edge g) node m
  covers : ∀ m, ReachOff (Edge g) P node m → m ∈ xs
  stored : ∀ set, getAt dfa'.eclosures node = some set → set.nelem ≠ 0 →
    ∀ m, ReflTransGen (Edge g) node m → m ∈ xs

/-- The recursive call meets its specification while `P` is in progress. -/
def IterSpec (g : Dfa) (P : Finset Int)
    (iter : Dfa → Int → Option (Dfa × ReNodeSet × RegErrcode)) : Prop :=
  ∀ dfa node set, Inv g P dfa → g.IsNode node → node ∉ P → getAt dfa.eclosures node = some set →
    set.nelem = 0 → ∃ dfa' new xs, iter dfa node = some (dfa', new, REG_NOERROR) ∧
      Holds new xs ∧ Result g P dfa node dfa' xs

/-! ## One destination -/

/-- The loop over the destinations, with those in `done` expanded. -/
structure Expanding (g : Dfa) (P : Finset Int) (dfa : Dfa) (node : Int) (done ys : List Int)
    (s : Expand) : Prop where
  err : s.err = REG_NOERROR
  inv : Inv g P s.dfa
  kept : Kept P dfa s.dfa
  holds : Holds s.eclosure ys
  self : node ∈ ys
  sound : ∀ m ∈ ys, ReflTransGen (Edge g) node m
  covers : ∀ c ∈ done, c ∉ P → ∀ m, ReachOff (Edge g) P c m → m ∈ ys
  complete : s.incomplete = false → ∀ c ∈ done, ∀ m, ReflTransGen (Edge g) c m → m ∈ ys

/-- Merging what was found from the destination `c`. -/
theorem Expanding.merge {node c : Int} {done ys xs zs : List Int} {s s' : Expand} {dfa' : Dfa}
    (h : Expanding g P dfa node done ys s) (hedge : Edge g node c)
    (hres : Result g P s.dfa c dfa' xs) (hholds : Holds s'.eclosure zs)
    (hzs : ∀ m, m ∈ zs ↔ m ∈ ys ∨ m ∈ xs) (hdfa : s'.dfa = dfa'.tick) (herr : s'.err = REG_NOERROR)
    (hinc : s'.incomplete = false → s.incomplete = false ∧
      ∀ m, ReflTransGen (Edge g) c m → m ∈ xs) :
    Expanding g P dfa node (done ++ [c]) zs s' := by
  refine ⟨herr, ?_, ?_, hholds, (hzs node).mpr (.inl h.self), ?_, ?_, ?_⟩
  · rw [hdfa]
    exact hres.inv.tick
  · rw [hdfa]
    exact h.kept.trans hres.kept
  · intro m hm
    rcases (hzs m).mp hm with hm | hm
    · exact h.sound m hm
    · exact ReflTransGen.head hedge (hres.sound m hm)
  · intro c' hc' hP m hm
    rcases List.mem_append.mp hc' with hc' | hc'
    · exact (hzs m).mpr (.inl (h.covers c' hc' hP m hm))
    · rw [List.mem_singleton.mp hc'] at hm
      exact (hzs m).mpr (.inr (hres.covers m hm))
  · intro hfalse c' hc' m hm
    obtain ⟨hold, hnew⟩ := hinc hfalse
    rcases List.mem_append.mp hc' with hc' | hc'
    · exact (hzs m).mpr (.inl (h.complete hold c' hc' m hm))
    · rw [List.mem_singleton.mp hc'] at hm
      exact (hzs m).mpr (.inr (hnew m hm))

/-- From a destination in progress nothing is merged. -/
theorem Expanding.skip {node c : Int} {done ys : List Int} {s : Expand}
    (h : Expanding g P dfa node done ys s) (hP : c ∈ P) :
    Expanding g P dfa node (done ++ [c]) ys { s with incomplete := true } := by
  refine ⟨h.err, h.inv, h.kept, h.holds, h.self, h.sound, ?_, by simp⟩
  intro c' hc' hc'P m hm
  rcases List.mem_append.mp hc' with hc' | hc'
  · exact h.covers c' hc' hc'P m hm
  · rw [List.mem_singleton.mp hc'] at hc'P
    exact absurd hP hc'P

/-- A closure that was complete before the call stands for a call. -/
theorem Inv.result (h : Inv g P dfa) {c : Int} {xs : List Int}
    (hmem : ∀ m, m ∈ xs ↔ ReflTransGen (Edge g) c m) : Result g P dfa c dfa xs :=
  ⟨h, Kept.refl P dfa, fun m hm => (hmem m).mp hm, fun m hm => (hmem m).mpr hm.reach,
    fun _ _ _ m hm => (hmem m).mpr hm⟩

variable {ok : Nat → Bool}

theorem expandPass_spec (hok : ∀ k, ok k = true)
    {iter : Dfa → Int → Option (Dfa × ReNodeSet × RegErrcode)} (hiter : IterSpec g P iter)
    {node c : Int} {es done ys : List Int} {set : ReNodeSet} {i : Nat}
    {s : Expand} (hset : getAt g.edests node = some set) (hes : Holds set es)
    (hc : es[i]? = some c) (hnode : g.IsNode c) (hedge : Edge g node c)
    (h : Expanding g P dfa node done ys s) :
    ∃ s' zs, expandPass ok iter node s i = some s' ∧
      Expanding g P dfa node (done ++ [c]) zs s' := by
  obtain ⟨hi, hci⟩ := List.getElem?_eq_some_iff.mp hc
  have hread : readCell set.elems i = some c := hci ▸ hes.readAt hi
  unfold expandPass
  rw [if_neg (by simp [h.err]), h.inv.edests, hset]
  simp only [Option.bind_eq_bind, Option.bind_some, hread]
  by_cases hP : c ∈ P
  · -- in progress: nothing is merged
    obtain ⟨cur, hcur, hneg⟩ := h.inv.progress c hP
    simp only [hcur, Option.bind_some, hneg, if_true]
    exact ⟨_, ys, rfl, h.skip hP⟩
  · obtain ⟨cur, hcur, hstate⟩ := h.inv.rest c hnode hP
    have hne : cur.nelem ≠ -1 := by
      rcases hstate with hz | hcomp
      · omega
      · have := hcomp.nelem_pos
        omega
    simp only [hcur, Option.bind_some, if_neg hne]
    by_cases hz : cur.nelem = 0
    · -- not calculated yet
      obtain ⟨dfa', new, xs, hcall, hnew, hres⟩ := hiter s.dfa c cur h.inv hnode hP hcur hz
      obtain ⟨merged, zs, hmerge, hholds, hzs⟩ := merge_spec h.holds
        (show HoldsOpt (some new) xs from hnew)
      obtain ⟨after, hafter, _⟩ := hres.inv.rest c hnode hP
      rw [if_pos hz, hcall]
      simp only [Option.bind_some, ne_eq, not_true_eq_false, if_false, hok, hmerge, hafter]
      refine ⟨_, zs, rfl, h.merge hedge hres hholds hzs rfl rfl ?_⟩
      intro hfalse
      rw [Bool.or_eq_false_iff, decide_eq_false_iff_not] at hfalse
      exact ⟨hfalse.1, hres.stored after hafter hfalse.2⟩
    · -- already calculated
      obtain ⟨xs, hxs, hmem⟩ := hstate.resolve_left hz
      obtain ⟨merged, zs, hmerge, hholds, hzs⟩ := merge_spec h.holds
        (show HoldsOpt (some cur) xs from hxs)
      have hres := h.inv.result hmem
      rw [if_neg hz]
      simp only [Option.bind_some, ne_eq, not_true_eq_false, if_false, hok, hmerge, hcur]
      refine ⟨_, zs, rfl, h.merge hedge hres hholds hzs rfl rfl ?_⟩
      intro hfalse
      rw [Bool.or_eq_false_iff] at hfalse
      exact ⟨hfalse.1, fun m hm => (hmem m).mpr hm⟩

/-- The whole loop. -/
theorem expand_spec (hok : ∀ k, ok k = true)
    {iter : Dfa → Int → Option (Dfa × ReNodeSet × RegErrcode)} (hiter : IterSpec g P iter)
    {node : Int} {es ys : List Int} {set : ReNodeSet} {s : Expand}
    (hset : getAt g.edests node = some set) (hes : Holds set es)
    (hnodes : ∀ c ∈ es, g.IsNode c ∧ Edge g node c) (h : Expanding g P dfa node [] ys s) :
    ∃ s' zs, (List.range es.length).foldlM (expandPass ok iter node) s = some s' ∧
      Expanding g P dfa node es zs s' := by
  have hprefix : ∀ k ≤ es.length, ∃ s' zs,
      (List.range k).foldlM (expandPass ok iter node) s = some s' ∧
        Expanding g P dfa node (es.take k) zs s' := by
    intro k hk
    induction k with
    | zero => exact ⟨s, ys, rfl, by simpa using h⟩
    | succ k ih =>
      obtain ⟨s', zs, hfold, hI⟩ := ih (by omega)
      have hlt : k < es.length := by omega
      obtain ⟨hnode, hedge⟩ := hnodes es[k] (List.getElem_mem hlt)
      obtain ⟨s'', zs', hpass, hI'⟩ := expandPass_spec hok hiter hset hes
        (List.getElem?_eq_getElem hlt) hnode hedge hI
      refine ⟨s'', zs', ?_, ?_⟩
      · rw [List.range_succ, List.foldlM_append, hfold]
        simpa using hpass
      · rwa [← List.take_append_getElem hlt]
  obtain ⟨s', zs, hfold, hI⟩ := hprefix es.length le_rfl
  exact ⟨s', zs, hfold, by rwa [List.take_length] at hI⟩

/-! ## The recursion -/

/-- Another state for the closure of a node outside `P`, when it is put into `P`, taken out of
    it or stored. -/
theorem exists_setEclosure {node : Int} (hlen : dfa.eclosures.length = g.nodes.length)
    (hnode : g.IsNode node) (set : ReNodeSet) :
    ∃ ecs, dfa.setEclosure node set = some { dfa with eclosures := ecs } ∧
      ecs.length = g.nodes.length ∧ getAt ecs node = some set ∧
      ∀ j, j ≠ node → getAt ecs j = getAt dfa.eclosures j := by
  obtain ⟨ecs, hset, hlen', hself, hother⟩ := exists_setAt dfa.eclosures
    ⟨hnode.1, by rw [hlen]; exact hnode.2⟩ set
  exact ⟨ecs, by simp [Dfa.setEclosure, hset], hlen'.trans hlen, hself, hother⟩

/-- A node is put in progress. -/
theorem Inv.mark (h : Inv g P dfa) {node : Int} (hnode : g.IsNode node) {set : ReNodeSet}
    (hset : getAt dfa.eclosures node = some set) :
    ∃ dfa', dfa.setNelem node (-1) = some dfa' ∧ Inv g (insert node P) dfa' ∧
      ∀ j, j ≠ node → getAt dfa'.eclosures j = getAt dfa.eclosures j := by
  obtain ⟨ecs, hstep, hlen, hself, hother⟩ := exists_setEclosure h.length hnode
    { set with nelem := -1 }
  refine ⟨{ dfa with eclosures := ecs }, by simpa [Dfa.setNelem, hset] using hstep,
    ⟨h.nodes, h.edests, h.inveclosures, hlen, ?_, ?_⟩, hother⟩
  · intro n hn
    by_cases heq : n = node
    · subst heq
      exact ⟨_, hself, rfl⟩
    · obtain ⟨cur, hcur, hneg⟩ := h.progress n (Finset.mem_of_mem_insert_of_ne hn heq)
      exact ⟨cur, (hother n heq).trans hcur, hneg⟩
  · intro n hn hnP
    rw [Finset.mem_insert, not_or] at hnP
    obtain ⟨cur, hcur, hstate⟩ := h.rest n hn hnP.2
    exact ⟨cur, (hother n hnP.1).trans hcur, hstate⟩

/-- A node that was in progress is not any more: its closure is complete or not calculated. -/
theorem Inv.unmark {node : Int} (h : Inv g (insert node P) dfa) (hnode : g.IsNode node)
    (hP : node ∉ P) {set : ReNodeSet} (hset : set.nelem = 0 ∨ Complete g node set) :
    ∃ dfa', dfa.setEclosure node set = some dfa' ∧ Inv g P dfa' ∧
      getAt dfa'.eclosures node = some set ∧
      ∀ j, j ≠ node → getAt dfa'.eclosures j = getAt dfa.eclosures j := by
  obtain ⟨ecs, hstep, hlen, hself, hother⟩ := exists_setEclosure h.length hnode set
  refine ⟨_, hstep, ⟨h.nodes, h.edests, h.inveclosures, hlen, ?_, ?_⟩, hself, hother⟩
  · intro n hn
    have heq : n ≠ node := fun heq => hP (heq ▸ hn)
    obtain ⟨cur, hcur, hneg⟩ := h.progress n (Finset.mem_insert_of_mem hn)
    exact ⟨cur, (hother n heq).trans hcur, hneg⟩
  · intro n hn hnP
    by_cases heq : n = node
    · subst heq
      exact ⟨set, hself, hset⟩
    · obtain ⟨cur, hcur, hstate⟩ := h.rest n hn fun hmem =>
        hnP (Finset.mem_of_mem_insert_of_ne hmem heq)
      exact ⟨cur, (hother n heq).trans hcur, hstate⟩

/-- What the loop leaves covers the node off `P`. -/
theorem Expanding.reachOff {node : Int} {es ys : List Int} {s : Expand}
    (h : Expanding g (insert node P) dfa node es ys s) (hes : ∀ c, Edge g node c → c ∈ es) :
    ∀ m, ReachOff (Edge g) P node m → m ∈ ys := by
  intro m hm
  obtain rfl | ⟨c, hedge, hc, hcm⟩ := reachOff_cut hm
  · exact h.self
  · rw [← Finset.coe_insert] at hc hcm
    exact h.covers c (hes c hedge) (by simpa using hc) m hcm

theorem Expanding.reach {node : Int} {es ys : List Int} {s : Expand}
    (h : Expanding g (insert node P) dfa node es ys s) (hes : ∀ c, Edge g node c → c ∈ es)
    (hinc : s.incomplete = false) : ∀ m, ReflTransGen (Edge g) node m → m ∈ ys := by
  intro m hm
  rcases ReflTransGen.cases_head hm with rfl | ⟨c, hedge, hcm⟩
  · exact h.self
  · exact h.complete hinc c (hes c hedge) m hcm

/-- Nodes in progress are nodes, so there are not more of them. -/
theorem card_le_length (hP : ∀ n ∈ P, g.IsNode n) : P.card ≤ g.nodes.length := by
  have hsub : P ⊆ Finset.Ico 0 (g.nodes.length : Int) := fun n hn =>
    Finset.mem_Ico.mpr (hP n hn)
  simpa using Finset.card_le_card hsub

variable (dup : Dfa → Int → Int → Int → Nat → Option (Dfa × RegErrcode))

/-- Without a constraint nothing is duplicated. -/
theorem inheritConstraint_spec (hg : Graph g) (h : Inv g P dfa) {node : Int}
    (hnode : g.IsNode node) : inheritConstraint dup dfa node = some (dfa, REG_NOERROR) := by
  obtain ⟨token, htoken⟩ := exists_getAt g.nodes hnode
  obtain ⟨set, hset⟩ := exists_getAt g.edests (by rw [hg.lengthEdests]; exact hnode)
  have hfree := hg.unconstrained token (mem_of_getAt htoken)
  simp [inheritConstraint, h.nodes, h.edests, htoken, hset, hfree]

/-- The set that a node starts with. -/
theorem self_spec (node : Int) {size : Int} (h : 0 ≤ size) :
    ∃ set elems, reNodeSetAlloc true (size + 1) = (set, REG_NOERROR) ∧
      setAt set.elems set.nelem (some node) = some elems ∧
      Holds { set with elems := elems, nelem := set.nelem + 1 } [node] := by
  obtain ⟨set, hset, hholds, halloc⟩ := alloc_spec (by omega : 0 ≤ size + 1)
  obtain ⟨top, htop, hlen⟩ := hholds.exists_top
  have hn := hholds.nelem
  cases top with
  | nil => simp at hlen; omega
  | cons c rest =>
    refine ⟨set, some node :: rest, hset, ?_, List.pairwise_singleton _ node, ?_, ?_, rest, rfl⟩
    · rw [htop]
      exact setAt_append_cons [] rest c (some node) hn
    · rw [hn]
      rfl
    · rw [hlen]
      simp

/-- The expansion: of a node that is not an epsilon node nothing is expanded. -/
theorem expansion_spec (hok : ∀ k, ok k = true) (hg : Graph g)
    {iter : Dfa → Int → Option (Dfa × ReNodeSet × RegErrcode)} (hiter : IterSpec g P iter)
    {node : Int} {token : Token} {edests : ReNodeSet} {ys : List Int} {s : Expand}
    (htoken : getAt g.nodes node = some token) (hedests : getAt g.edests node = some edests)
    (h : Expanding g P dfa node [] ys s) :
    ∃ s' es zs, (if token.type.isEpsilonNode then
        (List.range edests.nelem.toNat).foldlM (expandPass ok iter node) s
      else some s) = some s' ∧ Expanding g P dfa node es zs s' ∧
      ∀ c, Edge g node c → c ∈ es := by
  obtain ⟨es, hes, hesnode⟩ := hg.edests edests (mem_of_getAt hedests)
  have hedge : ∀ c, Edge g node c ↔ token.type.isEpsilonNode = true ∧ c ∈ es := by
    intro c
    constructor
    · rintro ⟨token', set, htoken', heps, hset, hc⟩
      obtain rfl := Option.some.inj (htoken.symm.trans htoken')
      obtain rfl := Option.some.inj (hedests.symm.trans hset)
      exact ⟨heps, by rwa [hes.members] at hc⟩
    · rintro ⟨heps, hc⟩
      exact ⟨token, edests, htoken, heps, hedests, by rwa [hes.members]⟩
  by_cases heps : token.type.isEpsilonNode = true
  · obtain ⟨s', zs, hfold, hI⟩ := expand_spec hok hiter hedests hes
      (fun c hc => ⟨hesnode c hc, (hedge c).mpr ⟨heps, hc⟩⟩) h
    refine ⟨s', es, zs, ?_, hI, fun c hc => ((hedge c).mp hc).2⟩
    rw [if_pos heps, hes.nelem, Int.toNat_natCast, hfold]
  · exact ⟨s, [], ys, if_neg heps, h, fun c hc => absurd ((hedge c).mp hc).1 heps⟩

/-- The end: what is stored is complete. -/
theorem storeClosure_spec {node : Int} {set : ReNodeSet} {es ys : List Int} {s : Expand}
    {root : Bool} (hnode : g.IsNode node) (hP : node ∉ P) (hroot : root = true → P = ∅)
    (hset : getAt dfa.eclosures node = some set) (hzero : set.nelem = 0)
    (h : Expanding g (insert node P) dfa node es ys s) (hes : ∀ c, Edge g node c → c ∈ es) :
    ∃ dfa', storeClosure s node root = some dfa' ∧ Result g P dfa node dfa' ys ∧
      (root = true → ∃ st, getAt dfa'.eclosures node = some st ∧ st.nelem ≠ 0) := by
  -- every other closure is what the loop left
  have hkept : ∀ {dfa' : Dfa}, (∀ j, j ≠ node → getAt dfa'.eclosures j = getAt s.dfa.eclosures j) →
      Kept P dfa dfa' := by
    intro dfa' hother n hn cur hcur hne
    have heq : n ≠ node := by
      rintro rfl
      obtain rfl := Option.some.inj (hset.symm.trans hcur)
      exact hne hzero
    rw [hother n heq]
    exact h.kept n (by simp [heq, hn]) cur hcur hne
  unfold storeClosure
  by_cases hdiscard : s.incomplete ∧ !root
  · obtain ⟨cur, hcur, _⟩ := h.inv.progress node (Finset.mem_insert_self node P)
    obtain ⟨dfa', hstep, hinv, hself, hother⟩ := h.inv.unmark hnode hP
      (.inl rfl : ({ cur with nelem := 0 } : ReNodeSet).nelem = 0 ∨ _)
    refine ⟨dfa', ?_, ⟨hinv, hkept hother, h.sound, h.reachOff hes, ?_⟩, ?_⟩
    · simpa [hdiscard, Dfa.setNelem, hcur] using hstep
    · intro st hst hne
      obtain rfl := Option.some.inj (hself.symm.trans hst)
      exact absurd rfl hne
    · intro htrue
      simp [htrue] at hdiscard
  · have hall : ∀ m, ReflTransGen (Edge g) node m → m ∈ ys := by
      intro m hm
      cases hinc : s.incomplete with
      | false => exact h.reach hes hinc m hm
      | true =>
        have htrue : root = true := by simpa [hinc] using hdiscard
        have hoff := h.reachOff hes m
        rw [hroot htrue, Finset.coe_empty, reachOff_empty] at hoff
        exact hoff hm
    have hcomplete : Complete g node s.eclosure :=
      ⟨ys, h.holds, fun m => ⟨h.sound m, hall m⟩⟩
    obtain ⟨dfa', hstep, hinv, hself, hother⟩ := h.inv.unmark hnode hP (.inr hcomplete)
    refine ⟨dfa', by rw [if_neg hdiscard, hstep],
      ⟨hinv, hkept hother, h.sound, h.reachOff hes, fun _ _ _ => hall⟩, fun _ => ?_⟩
    exact ⟨s.eclosure, hself, hcomplete.nelem_pos.ne'⟩

theorem iter_spec (hok : ∀ k, ok k = true) (hg : Graph g) : ∀ (fuel : Nat) (P : Finset Int),
    (∀ n ∈ P, g.IsNode n) → g.nodes.length ≤ fuel + P.card → ∀ root : Bool,
    (root = true → P = ∅) → ∀ dfa node set, Inv g P dfa → g.IsNode node → node ∉ P →
    getAt dfa.eclosures node = some set → set.nelem = 0 →
    ∃ dfa' new xs, calcEclosureIter ok dup fuel dfa node root = some (dfa', new, REG_NOERROR) ∧
      Holds new xs ∧ Result g P dfa node dfa' xs ∧
      (root = true → ∃ st, getAt dfa'.eclosures node = some st ∧ st.nelem ≠ 0) := by
  intro fuel
  induction fuel with
  | zero =>
    intro P hP hfuel root hroot dfa node set hinv hnode hnP
    have hP' : ∀ n ∈ insert node P, g.IsNode n :=
      (Finset.forall_mem_insert node P _).mpr ⟨hnode, hP⟩
    have := card_le_length hP'
    rw [Finset.card_insert_of_notMem hnP] at this
    omega
  | succ fuel ih =>
    intro P hP hfuel root hroot dfa node set hinv hnode hnP hset hzero
    have hP' : ∀ n ∈ insert node P, g.IsNode n :=
      (Finset.forall_mem_insert node P _).mpr ⟨hnode, hP⟩
    have hfuel' : g.nodes.length ≤ fuel + (insert node P).card := by
      rw [Finset.card_insert_of_notMem hnP]
      omega
    -- the recursive calls run with one more node in progress
    have hiter : IterSpec g (insert node P) fun dfa edest =>
        calcEclosureIter ok dup fuel dfa edest false := by
      intro dfa c cur hinv hc hcP hcur hz
      obtain ⟨dfa', new, xs, hcall, hholds, hres, _⟩ := ih (insert node P) hP' hfuel' false
        (by simp) dfa c cur hinv hc hcP hcur hz
      exact ⟨dfa', new, xs, hcall, hholds, hres⟩
    obtain ⟨token, htoken⟩ := exists_getAt g.nodes hnode
    obtain ⟨edests, hedests⟩ := exists_getAt g.edests (by rw [hg.lengthEdests]; exact hnode)
    have hn : 0 ≤ edests.nelem := by
      obtain ⟨es, hes, _⟩ := hg.edests edests (mem_of_getAt hedests)
      rw [hes.nelem]
      omega
    obtain ⟨eclosure, elems, halloc, hself, hholds⟩ := self_spec node hn
    obtain ⟨marked, hmark, hinv', hother⟩ := hinv.tick.mark hnode hset
    have hstart : Expanding g (insert node P) dfa node [] [node]
        ⟨marked, { eclosure with elems := elems, nelem := eclosure.nelem + 1 }, false,
          REG_NOERROR⟩ := by
      refine ⟨rfl, hinv', ?_, hholds, by simp, ?_, by simp, by simp⟩
      · intro n hn cur hcur _
        rw [hother n fun heq => hn (heq ▸ Finset.mem_insert_self node P)]
        exact hcur
      · intro m hm
        rw [List.mem_singleton.mp hm]
    obtain ⟨s, es, ys, hexpand, hI, hes⟩ := expansion_spec hok hg hiter htoken hedests hstart
    obtain ⟨dfa', hstore, hres, hstored⟩ := storeClosure_spec hnode hnP hroot hset hzero hI hes
    refine ⟨dfa', s.eclosure, ys, ?_, hI.holds, hres, hstored⟩
    have hinherit := inheritConstraint_spec dup hg hinv' hnode
    unfold calcEclosureIter
    simp only [hinv.edests, hedests, Option.bind_eq_bind, Option.bind_some, hok, halloc, hself,
      hmark, hinherit, hinv'.nodes, hinv'.edests, htoken]
    simp only [ne_eq, not_true_eq_false, if_false, hexpand, Option.bind_some, hI.err, hstore]

/-! ## The loop over the nodes -/

/-- The loop has stored the closures of the nodes before `nodeIdx`. -/
structure Storing (g : Dfa) (s : Outer) : Prop where
  inv : Inv g ∅ s.dfa
  nonneg : 0 ≤ s.nodeIdx
  le : s.nodeIdx ≤ g.nodes.length
  incomplete : s.incomplete = false
  stored : ∀ k, 0 ≤ k → k < s.nodeIdx →
    ∃ set, getAt s.dfa.eclosures k = some set ∧ Complete g k set

theorem eclosurePass_spec (hok : ∀ k, ok k = true) (hg : Graph g) {fuel : Nat}
    (hfuel : g.nodes.length ≤ fuel) {s : Outer} (h : Storing g s) :
    (∃ s', eclosurePass ok dup fuel s = some (.inl s') ∧ Storing g s' ∧
      (g.nodes.length - s'.nodeIdx).toNat < (g.nodes.length - s.nodeIdx).toNat) ∨
    eclosurePass ok dup fuel s = some (.inr (s.dfa, REG_NOERROR)) ∧
      s.nodeIdx = g.nodes.length := by
  unfold eclosurePass
  rw [h.inv.nodes, h.incomplete]
  by_cases hend : s.nodeIdx = g.nodes.length
  · exact .inr ⟨by simp [hend], hend⟩
  · left
    have hnode : g.IsNode s.nodeIdx := ⟨h.nonneg, lt_of_le_of_ne h.le hend⟩
    obtain ⟨set, hset, hstate⟩ := h.inv.rest s.nodeIdx hnode (Finset.notMem_empty _)
    have hstored : ∀ {dfa' : Dfa}, Kept ∅ s.dfa dfa' →
        (∃ set, getAt dfa'.eclosures s.nodeIdx = some set ∧ Complete g s.nodeIdx set) →
        ∀ k, 0 ≤ k → k < s.nodeIdx + 1 →
          ∃ set, getAt dfa'.eclosures k = some set ∧ Complete g k set := by
      intro dfa' hkept hnew k hk hlt
      by_cases heq : k = s.nodeIdx
      · exact heq ▸ hnew
      · obtain ⟨cur, hcur, hcomp⟩ := h.stored k hk (by omega)
        exact ⟨cur, hkept k (Finset.notMem_empty k) cur hcur hcomp.nelem_pos.ne', hcomp⟩
    have hdown : (g.nodes.length - (s.nodeIdx + 1)).toNat < (g.nodes.length - s.nodeIdx).toNat := by
      have := hnode.2
      omega
    rw [if_neg (by simp [hend]), if_neg hend]
    simp only [Option.bind_eq_bind, hset, Option.bind_some]
    by_cases hz : set.nelem = 0
    · obtain ⟨dfa', new, xs, hcall, hholds, hres, hroot⟩ := iter_spec dup hok hg fuel ∅
        (by simp) (by simpa using hfuel) true (fun _ => rfl) s.dfa s.nodeIdx set h.inv hnode
        (Finset.notMem_empty _) hset hz
      obtain ⟨st, hst, hne⟩ := hroot rfl
      obtain ⟨st', hst', hcomp⟩ := hres.inv.rest s.nodeIdx hnode (Finset.notMem_empty _)
      obtain rfl := Option.some.inj (hst.symm.trans hst')
      refine ⟨⟨dfa', s.nodeIdx + 1, false⟩, ?_, ⟨hres.inv, by have := h.nonneg; simp; omega,
        hnode.2, rfl, hstored hres.kept ⟨st, hst, hcomp.resolve_left hne⟩⟩, hdown⟩
      simp [hz, hcall, hst, hne, h.incomplete]
    · refine ⟨{ s with nodeIdx := s.nodeIdx + 1 }, by rw [if_pos hz], ⟨h.inv,
        by have := h.nonneg; simp; omega, hnode.2, h.incomplete, hstored (Kept.refl _ _)
          ⟨set, hset, hstate.resolve_left hz⟩⟩, hdown⟩

/-- `calc_eclosure` ends, and the closure of each node is what is reached from it. -/
theorem calcEclosure_spec (hok : ∀ k, ok k = true) (hg : Graph g)
    (hempty : ∀ set ∈ g.eclosures, set.nelem = 0) {fuel : Nat} (hfuel : g.nodes.length < fuel) :
    ∃ dfa', calcEclosure ok dup fuel g = some (dfa', REG_NOERROR) ∧ Inv g ∅ dfa' ∧
      ∀ n, g.IsNode n → ∃ set, getAt dfa'.eclosures n = some set ∧ Complete g n set := by
  have hstart : Storing g ⟨g, 0, false⟩ := by
    refine ⟨⟨rfl, rfl, rfl, hg.lengthEclosures, by simp, ?_⟩, le_rfl, by simp, rfl, ?_⟩
    · intro n hn _
      obtain ⟨set, hset⟩ := exists_getAt g.eclosures
        (by rw [hg.lengthEclosures]; exact hn)
      exact ⟨set, hset, .inl (hempty set (mem_of_getAt hset))⟩
    · intro k h0 h1
      exact absurd (h0.trans_lt h1) (lt_irrefl _)
  obtain ⟨r, hr, hQ⟩ := @tryLoop_total _ _ (eclosurePass ok dup fuel) (Storing g)
    (fun r => r.2 = REG_NOERROR ∧ Inv g ∅ r.1 ∧
      ∀ n, g.IsNode n → ∃ set, getAt r.1.eclosures n = some set ∧ Complete g n set)
    (fun s => (g.nodes.length - s.nodeIdx).toNat) (fun s hs => by
      obtain hnext | ⟨hb, hend⟩ := eclosurePass_spec dup hok hg hfuel.le hs
      · exact .inl hnext
      · exact .inr ⟨_, hb, rfl, hs.inv, fun n hn => hs.stored n hn.1 (by rw [hend]; exact hn.2)⟩)
    fuel _ hstart (by simpa using hfuel)
  obtain ⟨dfa', err⟩ := r
  obtain ⟨herr, hinv, hall⟩ := hQ
  simp only at herr
  subst herr
  exact ⟨dfa', hr, hinv, hall⟩

end Librecompat.Eclosure
