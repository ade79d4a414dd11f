/-
  `calc_inveclosure` inverts the closures.

  The sources are taken in ascending order, so each goes behind the elements that a set already
  has. `Inverting` says which pairs of nodes are in the inverse so far: `invertPass_spec` adds
  one pair, `invertNode_spec` the pairs of one source. `eclosures_reach` is the result for both
  functions.
-/
import Librecompat.Eclosure.Reach

namespace Librecompat.Eclosure

open Relation
open Librecompat.Lib Librecompat.NodeSet
open Librecompat.Regex (RegErrcode REG_NOERROR REG_ESPACE TokenType)

variable {g dfa : Dfa} {ok : Nat → Bool}

/-- `n` is a member of the closure of `m`. -/
def InClosure (dfa : Dfa) (m n : Int) : Prop :=
  ∃ set, getAt dfa.eclosures m = some set ∧ n ∈ set.members

/-- The inverse holds the pairs of `rel`; the closures are those of `dfa`. -/
structure Inverting (dfa : Dfa) (rel : Int → Int → Prop) (s : Dfa × RegErrcode) : Prop where
  err : s.2 = REG_NOERROR
  nodes : s.1.nodes = dfa.nodes
  eclosures : s.1.eclosures = dfa.eclosures
  length : s.1.inveclosures.length = dfa.nodes.length
  sets : ∀ n, dfa.IsNode n → ∃ set ys, getAt s.1.inveclosures n = some set ∧ Holds set ys ∧
    ∀ m, m ∈ ys ↔ rel m n

theorem Inverting.congr {rel rel' : Int → Int → Prop} {s : Dfa × RegErrcode}
    (h : Inverting dfa rel s) (heq : ∀ m n, dfa.IsNode n → (rel m n ↔ rel' m n)) :
    Inverting dfa rel' s := by
  refine ⟨h.err, h.nodes, h.eclosures, h.length, fun n hn => ?_⟩
  obtain ⟨set, ys, hset, hholds, hmem⟩ := h.sets n hn
  exact ⟨set, ys, hset, hholds, fun m => (hmem m).trans (heq m n hn)⟩

/-! ## Empty sets -/

theorem initInveclosures_spec (hlen : dfa.inveclosures.length = dfa.nodes.length) :
    ∃ sets, initInveclosures dfa = some sets ∧ sets.length = dfa.nodes.length ∧
      ∀ n, dfa.IsNode n → getAt sets n = some reNodeSetInitEmpty := by
  have hprefix : ∀ k ≤ dfa.nodes.length, ∃ sets,
      (List.range k).foldlM (fun sets (idx : Nat) => setAt sets idx reNodeSetInitEmpty)
        dfa.inveclosures = some sets ∧ sets.length = dfa.nodes.length ∧
      ∀ n : Int, 0 ≤ n → n < k → getAt sets n = some reNodeSetInitEmpty := by
    intro k hk
    induction k with
    | zero => exact ⟨_, rfl, hlen, fun n h0 h1 => absurd (h0.trans_lt h1) (lt_irrefl _)⟩
    | succ k ih =>
      obtain ⟨sets, hfold, hlen', hsets⟩ := ih (by omega)
      obtain ⟨sets', hset, hlen'', hself, hother⟩ := exists_setAt sets (i := (k : Int))
        (by omega) reNodeSetInitEmpty
      refine ⟨sets', ?_, hlen''.trans hlen', ?_⟩
      · rw [List.range_succ, List.foldlM_append, hfold]
        simpa using hset
      · intro n h0 h1
        by_cases heq : n = k
        · rwa [heq]
        · rw [hother n heq]
          exact hsets n h0 (by omega)
  obtain ⟨sets, hfold, hlen', hsets⟩ := hprefix _ le_rfl
  exact ⟨sets, hfold, hlen', fun n hn => hsets n hn.1 hn.2⟩

/-! ## The loops -/

theorem invertPass_spec (hok : ∀ k, ok k = true) {rel : Int → Int → Prop} {src n : Int}
    {elems : Cells} {idx : Nat} {s : Dfa × RegErrcode} (hread : readCell elems idx = some n)
    (hn : dfa.IsNode n) (hbelow : ∀ m, rel m n → m < src) (h : Inverting dfa rel s) :
    ∃ s', invertPass ok src elems s idx = some s' ∧
      Inverting dfa (fun m n' => rel m n' ∨ m = src ∧ n' = n) s' := by
  obtain ⟨set, ys, hset, hholds, hmem⟩ := h.sets n hn
  obtain ⟨set', hinsert, hholds'⟩ := insertLast_spec hholds fun x hx => hbelow x ((hmem x).mp hx)
  obtain ⟨sets, hwrite, hlen, hself, hother⟩ := exists_setAt s.1.inveclosures (i := n)
    (by rw [h.length]; exact hn) set'
  unfold invertPass
  rw [if_neg (by simp [h.err])]
  simp only [hread, hset, hok, hinsert, hwrite, Option.bind_eq_bind, Option.bind_some]
  refine ⟨_, rfl, rfl, h.nodes, h.eclosures, hlen.trans h.length, ?_⟩
  intro n' hn'
  by_cases heq : n' = n
  · subst heq
    refine ⟨set', ys ++ [src], hself, hholds', fun m => ?_⟩
    simp [hmem m]
  · obtain ⟨cur, zs, hcur, hcurholds, hzs⟩ := h.sets n' hn'
    refine ⟨cur, zs, (hother n' heq).trans hcur, hcurholds, fun m => ?_⟩
    simp [hzs m, heq]

/-- The loop over the elements of the closure of `src`. -/
theorem invertSet_spec (hok : ∀ k, ok k = true) {src : Nat} {set : ReNodeSet} {xs : List Int}
    {s : Dfa × RegErrcode} (hxs : Holds set xs) (hnodes : ∀ n ∈ xs, dfa.IsNode n)
    (h : Inverting dfa (fun m n => 0 ≤ m ∧ m < src ∧ InClosure dfa m n) s) :
    ∀ k ≤ xs.length, ∃ s', (List.range k).foldlM (invertPass ok src set.elems) s = some s' ∧
      Inverting dfa (fun m n => (0 ≤ m ∧ m < src ∧ InClosure dfa m n) ∨
        m = src ∧ n ∈ xs.take k) s' := by
  intro k hk
  induction k with
  | zero => exact ⟨s, rfl, h.congr fun m n _ => by simp⟩
  | succ k ih =>
    obtain ⟨s', hfold, hI⟩ := ih (by omega)
    have hlt : k < xs.length := by omega
    have hnew : xs[k] ∉ xs.take k := by
      intro hmem
      obtain ⟨j, hj, heq⟩ := List.mem_take_iff_getElem.mp hmem
      have hmono := List.pairwise_iff_getElem.mp hxs.sorted j k (by omega) hlt (by omega)
      omega
    obtain ⟨s'', hpass, hI'⟩ := invertPass_spec hok (hxs.readAt hlt)
      (hnodes _ (List.getElem_mem hlt))
      (fun m hm => hm.elim (fun hm => hm.2.1) fun hm => absurd hm.2 hnew) hI
    refine ⟨s'', ?_, hI'.congr fun m n _ => ?_⟩
    · rw [List.range_succ, List.foldlM_append, hfold]
      simpa using hpass
    · rw [← List.take_append_getElem hlt, List.mem_append, List.mem_singleton]
      tauto

/-- All pairs of one source. -/
theorem invertNode_spec (hok : ∀ k, ok k = true) {src : Nat} {set : ReNodeSet} {xs : List Int}
    {s : Dfa × RegErrcode} (hset : getAt dfa.eclosures src = some set) (hxs : Holds set xs)
    (hnodes : ∀ n ∈ xs, dfa.IsNode n)
    (h : Inverting dfa (fun m n => 0 ≤ m ∧ m < src ∧ InClosure dfa m n) s) :
    ∃ s', invertNode ok s src = some s' ∧
      Inverting dfa (fun m n => 0 ≤ m ∧ m < (src + 1 : Nat) ∧ InClosure dfa m n) s' := by
  obtain ⟨s', hfold, hI⟩ := invertSet_spec hok hxs hnodes h xs.length le_rfl
  refine ⟨s', ?_, hI.congr fun m n _ => ?_⟩
  · unfold invertNode
    rw [if_neg (by simp [h.err]), h.eclosures, hset]
    simpa [hxs.nelem] using hfold
  · have hin : InClosure dfa src n ↔ n ∈ xs := by
      constructor
      · rintro ⟨set', hset', hmem⟩
        obtain rfl := Option.some.inj (hset.symm.trans hset')
        rwa [hxs.members] at hmem
      · exact fun hmem => ⟨set, hset, by rwa [hxs.members]⟩
    rw [List.take_length]
    constructor
    · rintro (⟨h0, hlt, hm⟩ | ⟨rfl, hm⟩)
      · exact ⟨h0, by omega, hm⟩
      · exact ⟨by omega, by omega, hin.mpr hm⟩
    · rintro ⟨h0, hlt, hm⟩
      by_cases heq : m = src
      · subst heq
        exact .inr ⟨rfl, hin.mp hm⟩
      · exact .inl ⟨h0, by omega, hm⟩

/-- `calc_inveclosure`, for closures that are sets of nodes. -/
theorem calcInveclosure_spec (hok : ∀ k, ok k = true)
    (hlen : dfa.inveclosures.length = dfa.nodes.length)
    (hsets : ∀ n, dfa.IsNode n → ∃ set xs, getAt dfa.eclosures n = some set ∧ Holds set xs ∧
      ∀ m ∈ xs, dfa.IsNode m) :
    ∃ dfa', calcInveclosure ok dfa = some (dfa', REG_NOERROR) ∧
      dfa'.eclosures = dfa.eclosures ∧
      ∀ n, dfa.IsNode n → ∃ set ys, getAt dfa'.inveclosures n = some set ∧ Holds set ys ∧
        ∀ m, m ∈ ys ↔ dfa.IsNode m ∧ InClosure dfa m n := by
  obtain ⟨sets, hinit, hlen', hempty⟩ := initInveclosures_spec hlen
  have hprefix : ∀ k ≤ dfa.nodes.length, ∃ s,
      (List.range k).foldlM (invertNode ok) ({ dfa with inveclosures := sets }, REG_NOERROR) =
        some s ∧ Inverting dfa (fun m n => 0 ≤ m ∧ m < k ∧ InClosure dfa m n) s := by
    intro k hk
    induction k with
    | zero =>
      refine ⟨_, rfl, rfl, rfl, rfl, hlen', fun n hn => ?_⟩
      refine ⟨_, [], hempty n hn, holds_initEmpty, fun m => ?_⟩
      simp only [List.not_mem_nil, false_iff]
      omega
    | succ k ih =>
      obtain ⟨s, hfold, hI⟩ := ih (by omega)
      obtain ⟨set, xs, hset, hholds, hnodes⟩ := hsets (k : Int) ⟨by omega, by omega⟩
      obtain ⟨s', hnode, hI'⟩ := invertNode_spec hok hset hholds hnodes hI
      refine ⟨s', ?_, hI'⟩
      rw [List.range_succ, List.foldlM_append, hfold]
      simpa using hnode
  obtain ⟨⟨dfa', err⟩, hfold, hI⟩ := hprefix _ le_rfl
  have herr : err = REG_NOERROR := hI.err
  subst herr
  refine ⟨dfa', ?_, hI.eclosures, fun n hn => ?_⟩
  · unfold calcInveclosure
    rw [hinit]
    exact hfold
  · obtain ⟨set, ys, hset, hholds, hmem⟩ := hI.sets n hn
    refine ⟨set, ys, hset, hholds, fun m => ?_⟩
    rw [hmem m, Dfa.IsNode, and_assoc]

/-! ## Both functions -/

/-- From a node only nodes are reached. -/
theorem Graph.isNode_of_reach (hg : Graph g) {n m : Int} (hn : g.IsNode n)
    (h : ReflTransGen (Edge g) n m) : g.IsNode m := by
  induction h with
  | refl => exact hn
  | tail _ hedge _ =>
    obtain ⟨token, set, _, _, hset, hmem⟩ := hedge
    obtain ⟨xs, hxs, hnodes⟩ := hg.edests set (mem_of_getAt hset)
    rw [hxs.members] at hmem
    exact hnodes _ hmem

variable {dup : Dfa → Int → Int → Int → Nat → Option (Dfa × RegErrcode)}

/-- The closure of a node is the sorted set of the nodes reached from it over epsilon
    destinations, and a node is in the inverse closure of those in its closure. -/
theorem eclosures_reach (hok : ∀ k, ok k = true) (hg : Graph g)
    (hempty : ∀ set ∈ g.eclosures, set.nelem = 0) {fuel : Nat} (hfuel : g.nodes.length < fuel) :
    ∃ dfa, calcEclosure ok dup fuel g = some (dfa, REG_NOERROR) ∧
      (∀ n, g.IsNode n → ∃ set xs, getAt dfa.eclosures n = some set ∧ Holds set xs ∧
        ∀ m, m ∈ xs ↔ ReflTransGen (Edge g) n m) ∧
      ∃ dfa', calcInveclosure ok dfa = some (dfa', REG_NOERROR) ∧
        dfa'.eclosures = dfa.eclosures ∧
        ∀ n, g.IsNode n → ∃ set ys, getAt dfa'.inveclosures n = some set ∧ Holds set ys ∧
          ∀ m, m ∈ ys ↔ g.IsNode m ∧ InClosure dfa m n := by
  obtain ⟨dfa, hcalc, hinv, hall⟩ := calcEclosure_spec dup hok hg hempty hfuel
  have hsame : ∀ n, dfa.IsNode n ↔ g.IsNode n := fun n => by
    rw [Dfa.IsNode, Dfa.IsNode, hinv.nodes]
  refine ⟨dfa, hcalc, ?_, ?_⟩
  · intro n hn
    obtain ⟨set, hset, xs, hxs, hmem⟩ := hall n hn
    exact ⟨set, xs, hset, hxs, hmem⟩
  · obtain ⟨dfa', hcalc', hkept, hinverse⟩ := calcInveclosure_spec hok
      (by rw [hinv.inveclosures, hinv.nodes, hg.lengthInveclosures]) (by
        intro n hn
        obtain ⟨set, hset, xs, hxs, hmem⟩ := hall n ((hsame n).mp hn)
        refine ⟨set, xs, hset, hxs, fun m hm => (hsame m).mpr ?_⟩
        exact hg.isNode_of_reach ((hsame n).mp hn) ((hmem m).mp hm))
    refine ⟨dfa', hcalc', hkept, fun n hn => ?_⟩
    obtain ⟨set, ys, hset, hholds, hmem⟩ := hinverse n ((hsame n).mpr hn)
    exact ⟨set, ys, hset, hholds, fun m => by rw [hmem m, hsame m]⟩

/-- Two epsilon nodes that lead to each other and to a character. -/
def cycle : Dfa where
  nodes := [⟨.opDupAsterisk, 0, false⟩, ⟨.opAlt, 0, false⟩, ⟨.character, 0, false⟩]
  edests := [⟨2, 2, [some 1, some 2]⟩, ⟨2, 1, [some 0, none]⟩, reNodeSetInitEmpty]
  eclosures := [reNodeSetInitEmpty, reNodeSetInitEmpty, reNodeSetInitEmpty]
  inveclosures := [reNodeSetInitEmpty, reNodeSetInitEmpty, reNodeSetInitEmpty]
  calls := 0

theorem graph_cycle : Graph cycle := by
  refine ⟨rfl, rfl, rfl, ?_, by decide⟩
  intro set hset
  simp only [cycle, List.mem_cons, List.not_mem_nil, or_false] at hset
  rcases hset with rfl | rfl | rfl
  · exact ⟨[1, 2], ⟨by decide, rfl, rfl, [], rfl⟩, by decide⟩
  · exact ⟨[0], ⟨by decide, rfl, rfl, [none], rfl⟩, by decide⟩
  · exact ⟨[], holds_initEmpty, by decide⟩

/-- In the cycle the second node's closure has all three nodes. -/
theorem eclosures_reach_cycle :
    ∃ dfa, calcEclosure (fun _ => true) (fun _ _ _ _ _ => none) 4 cycle =
        some (dfa, REG_NOERROR) ∧
      ∃ set xs, getAt dfa.eclosures 1 = some set ∧ Holds set xs ∧ 2 ∈ xs := by
  obtain ⟨dfa, hcalc, hreach, _⟩ := @eclosures_reach cycle (fun _ => true)
    (fun _ _ _ _ _ => none) (fun _ => rfl) graph_cycle (by decide) 4 (by decide)
  obtain ⟨set, xs, hset, hholds, hmem⟩ := hreach 1 (by decide)
  refine ⟨dfa, hcalc, set, xs, hset, hholds, (hmem 2).mpr ?_⟩
  have h10 : Edge cycle 1 0 := ⟨_, _, rfl, rfl, rfl, by decide⟩
  have h02 : Edge cycle 0 2 := ⟨_, _, rfl, rfl, rfl, by decide⟩
  exact (ReflTransGen.single h10).tail h02

end Librecompat.Eclosure
