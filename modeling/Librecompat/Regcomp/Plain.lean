/-
  `calc_eclosure` where no node has a constraint.

  Nothing is duplicated then, so the function does to the nodes what that of `Eclosure.Model` does
  (`calcEclosure_mirrors`), and each node gets what is reached from it.
-/
import Librecompat.Eclosure.Reach
import Librecompat.Lib.Simulates
import Librecompat.Lib.Yields
import Librecompat.Regcomp.Analyze

namespace Librecompat.Regcomp

open Librecompat.Lib Librecompat.NodeSet
open Librecompat.Regex (RegErrcode REG_NOERROR REG_ESPACE)
open Librecompat.Eclosure (storeClosure)

variable {ok : Nat → Bool} {fresh : Nat → Int} {nfa₀ nfa : Nfa} {g : Eclosure.Dfa}
variable {inv : List ReNodeSet}

/-- No node has a constraint. -/
def Nfa.Plain (nfa : Nfa) : Prop := ∀ token ∈ nfa.graph.nodes, token.constraint = 0

/-- A graph has the nodes of the automaton, of which nothing has changed but the closures. -/
structure Mirrors (nfa₀ : Nfa) (inv : List ReNodeSet) (nfa : Nfa) (g : Eclosure.Dfa) : Prop where
  same : nfa = { nfa₀ with graph := nfa.graph }
  nodes : nfa.graph.nodes = nfa₀.graph.nodes
  edests : nfa.graph.edests = nfa₀.graph.edests
  graph : g = { nfa.graph with inveclosures := inv }
  plain : nfa.Plain

/-- What two calls leave. -/
def MirrorsBoth {β : Type} (nfa₀ : Nfa) (inv : List ReNodeSet) (q : Nfa × β)
    (q' : Eclosure.Dfa × β) : Prop :=
  Mirrors nfa₀ inv q.1 q'.1 ∧ q.2 = q'.2

theorem Mirrors.tick (h : Mirrors nfa₀ inv nfa g) :
    Mirrors nfa₀ inv { nfa with graph := nfa.graph.tick } g.tick := by
  obtain ⟨hsame, hnodes, hedests, rfl, hplain⟩ := h
  refine ⟨?_, hnodes, hedests, rfl, hplain⟩
  rw [hsame]

/-- A change of the closures. -/
theorem Mirrors.setEclosure (h : Mirrors nfa₀ inv nfa g) (node : Int) (set : ReNodeSet) :
    Simulates (fun graph g' => Mirrors nfa₀ inv { nfa with graph := graph } g')
      (nfa.graph.setEclosure node set) (g.setEclosure node set) := by
  obtain ⟨hsame, hnodes, hedests, rfl, hplain⟩ := h
  refine simulates_bind fun eclosures _ => simulates_some ⟨?_, hnodes, hedests, rfl, hplain⟩
  rw [hsame]

theorem Mirrors.setNelem (h : Mirrors nfa₀ inv nfa g) (node nelem : Int) :
    Simulates (fun graph g' => Mirrors nfa₀ inv { nfa with graph := graph } g')
      (nfa.graph.setNelem node nelem) (g.setNelem node nelem) := by
  obtain rfl := h.graph
  exact simulates_bind fun set _ => h.setEclosure node _

variable {dup : Eclosure.Dfa → Int → Int → Int → Nat → Option (Eclosure.Dfa × RegErrcode)}

theorem inheritConstraint_mirrors {fuel : Nat} (h : Mirrors nfa₀ inv nfa g) (node : Int) :
    Simulates (MirrorsBoth nfa₀ inv) (inheritConstraint ok fresh fuel nfa node)
      (Eclosure.inheritConstraint dup g node) := by
  obtain rfl := h.graph
  refine simulates_bind fun token htoken => simulates_bind fun edests _ => ?_
  have hzero : token.constraint = 0 := h.plain token (mem_of_getAt htoken)
  rw [if_neg (by simp [hzero]), if_neg (by simp [hzero])]
  exact simulates_some ⟨h, rfl⟩

/-- The states of the loop that expands the destinations. -/
structure MirrorsExpand (nfa₀ : Nfa) (inv : List ReNodeSet) (s : Expand) (s' : Eclosure.Expand) :
    Prop where
  nfa : Mirrors nfa₀ inv s.nfa s'.dfa
  eclosure : s'.eclosure = s.eclosure
  incomplete : s'.incomplete = s.incomplete
  err : s'.err = s.err

theorem expandPass_mirrors {iter : Nfa → Int → Option (Nfa × ReNodeSet × RegErrcode)}
    {iter' : Eclosure.Dfa → Int → Option (Eclosure.Dfa × ReNodeSet × RegErrcode)}
    (hiter : ∀ nfa g edest, Mirrors nfa₀ inv nfa g →
      Simulates (MirrorsBoth nfa₀ inv) (iter nfa edest) (iter' g edest)) (node : Int)
    (s : Expand) (s' : Eclosure.Expand) (i : Nat) (h : MirrorsExpand nfa₀ inv s s') :
    Simulates (MirrorsExpand nfa₀ inv) (expandPass ok iter node s i)
      (Eclosure.expandPass ok iter' node s' i) := by
  obtain ⟨nfa, eclosure, incomplete, err⟩ := s
  obtain ⟨g, eclosure', incomplete', err'⟩ := s'
  obtain ⟨hnfa, rfl, rfl, rfl⟩ := h
  unfold expandPass Eclosure.expandPass
  dsimp only at hnfa ⊢
  split
  · exact simulates_some ⟨hnfa, rfl, rfl, rfl⟩
  obtain rfl := hnfa.graph
  refine simulates_bind fun edests _ => simulates_bind fun edest _ => simulates_bind fun set _ => ?_
  split
  · exact simulates_some ⟨hnfa, rfl, rfl, rfl⟩
  refine Simulates.bind (R := MirrorsBoth nfa₀ inv) ?_ fun q q' hq => ?_
  · split
    · exact hiter _ _ _ hnfa
    · exact simulates_some ⟨hnfa, rfl⟩
  · obtain ⟨nfa₁, elem, err⟩ := q
    obtain ⟨g₁, r⟩ := q'
    obtain ⟨h₁, heq⟩ := hq
    obtain rfl := heq
    obtain rfl := h₁.graph
    dsimp only at h₁ ⊢
    split
    · exact simulates_some ⟨h₁, rfl, rfl, rfl⟩
    · refine simulates_bind fun merged _ => simulates_bind fun set _ => ?_
      exact simulates_some ⟨h₁.tick, rfl, rfl, rfl⟩

theorem storeClosure_mirrors (h : Mirrors nfa₀ inv nfa g) (eclosure : ReNodeSet)
    (incomplete : Bool) (err : RegErrcode) (node : Int) (root : Bool) :
    Simulates (fun graph g' => Mirrors nfa₀ inv { nfa with graph := graph } g')
      (storeClosure ⟨nfa.graph, eclosure, incomplete, err⟩ node root)
      (storeClosure ⟨g, eclosure, incomplete, err⟩ node root) := by
  unfold storeClosure
  split
  · exact h.setNelem node 0
  · exact h.setEclosure node eclosure

theorem calcEclosureIter_mirrors : ∀ (fuel fuel' : Nat) (nfa : Nfa) (g : Eclosure.Dfa) (node : Int)
    (root : Bool), fuel ≤ fuel' → Mirrors nfa₀ inv nfa g →
    Simulates (MirrorsBoth nfa₀ inv) (calcEclosureIter ok fresh fuel nfa node root)
      (Eclosure.calcEclosureIter ok dup fuel' g node root)
  | 0, _, _, _, _, _, _, _ => fun _ hc => by cases hc
  | fuel + 1, 0, _, _, _, _, hle, _ => absurd hle (by omega)
  | fuel + 1, fuel' + 1, nfa, g, node, root, hle, h => by
    obtain rfl := h.graph
    rw [calcEclosureIter, Eclosure.calcEclosureIter]
    refine simulates_bind fun edests _ => ?_
    dsimp only
    split
    · exact simulates_some ⟨h.tick, rfl⟩
    refine simulates_bind fun elems _ => ?_
    refine (h.tick.setNelem node (-1)).bind fun graph g₁ h₁ => ?_
    refine (inheritConstraint_mirrors h₁ node).bind fun q q' hq => ?_
    obtain ⟨nfa₂, err⟩ := q
    obtain ⟨g₂, err'⟩ := q'
    obtain ⟨h₂, rfl⟩ := hq
    dsimp only at h₂ ⊢
    split
    · exact simulates_some ⟨h₂, rfl⟩
    obtain rfl := h₂.graph
    refine simulates_bind fun token _ => simulates_bind fun edests _ => ?_
    refine Simulates.bind (R := MirrorsExpand nfa₀ inv) ?_ fun s s' hs => ?_
    · split
      · refine simulates_foldlM (fun s s' i hs => ?_) ⟨h₂, rfl, rfl, rfl⟩
        refine expandPass_mirrors (fun nfa g edest hnfa => ?_) node s s' i hs
        exact calcEclosureIter_mirrors fuel fuel' nfa g edest false (Nat.le_of_succ_le_succ hle) hnfa
      · exact simulates_some ⟨h₂, rfl, rfl, rfl⟩
    · obtain ⟨nfa₃, eclosure, incomplete, err⟩ := s
      obtain ⟨g₃, eclosure', incomplete', err'⟩ := s'
      obtain ⟨h₃, rfl, rfl, rfl⟩ := hs
      dsimp only at h₃ ⊢
      split
      · exact simulates_some ⟨h₃, rfl⟩
      · refine (storeClosure_mirrors h₃ _ _ _ node root).bind fun graph g₄ h₄ => ?_
        exact simulates_some ⟨h₄, rfl⟩

/-- The states of the loop over the nodes. -/
structure MirrorsOuter (nfa₀ : Nfa) (inv : List ReNodeSet) (s : Outer) (s' : Eclosure.Outer) :
    Prop where
  nfa : Mirrors nfa₀ inv s.nfa s'.dfa
  nodeIdx : s'.nodeIdx = s.nodeIdx
  incomplete : s'.incomplete = s.incomplete

variable (dup) in
theorem calcEclosure_mirrors (h : Mirrors nfa₀ inv nfa g) {fuel fuel' : Nat} (hle : fuel ≤ fuel') :
    Simulates (MirrorsBoth nfa₀ inv) (calcEclosure ok fresh fuel nfa)
      (Eclosure.calcEclosure ok dup fuel' g) := by
  refine simulates_tryLoop (R := MirrorsOuter nfa₀ inv) (fun s s' hs => ?_) hle ⟨h, rfl, rfl⟩
  obtain ⟨nfa, nodeIdx, incomplete⟩ := s
  obtain ⟨g, nodeIdx', incomplete'⟩ := s'
  obtain ⟨hnfa, rfl, rfl⟩ := hs
  unfold eclosurePass Eclosure.eclosurePass
  dsimp only at hnfa ⊢
  obtain rfl := hnfa.graph
  split
  · exact simulates_some (.inr ⟨hnfa, rfl⟩)
  have hround : MirrorsOuter nfa₀ inv
      (if nodeIdx' = nfa.graph.nodes.length then ⟨nfa, 0, false⟩ else ⟨nfa, nodeIdx', incomplete'⟩)
      (if nodeIdx' = nfa.graph.nodes.length then ⟨{ nfa.graph with inveclosures := inv }, 0, false⟩
        else ⟨{ nfa.graph with inveclosures := inv }, nodeIdx', incomplete'⟩) := by
    split
    · exact ⟨hnfa, rfl, rfl⟩
    · exact ⟨hnfa, rfl, rfl⟩
  revert hround
  generalize (if nodeIdx' = nfa.graph.nodes.length then (⟨nfa, 0, false⟩ : Outer)
    else ⟨nfa, nodeIdx', incomplete'⟩) = s
  generalize (if nodeIdx' = nfa.graph.nodes.length then
    (⟨{ nfa.graph with inveclosures := inv }, 0, false⟩ : Eclosure.Outer)
    else ⟨{ nfa.graph with inveclosures := inv }, nodeIdx', incomplete'⟩) = s'
  rintro ⟨h₁, hidx, hincomplete⟩
  obtain ⟨nfa₁, idx, more⟩ := s
  obtain ⟨g₁, idx', more'⟩ := s'
  dsimp only at h₁ hidx hincomplete ⊢
  obtain rfl := hidx
  obtain rfl := hincomplete
  obtain rfl := h₁.graph
  refine simulates_bind fun set _ => ?_
  split
  · exact simulates_some (.inl ⟨h₁, rfl, rfl⟩)
  refine (calcEclosureIter_mirrors fuel fuel' nfa₁ _ _ true hle h₁).bind fun q q' hq => ?_
  obtain ⟨nfa₂, new, err⟩ := q
  obtain ⟨g₂, r⟩ := q'
  obtain ⟨h₂, heq⟩ := hq
  obtain rfl := heq
  obtain rfl := h₂.graph
  dsimp only at h₂ ⊢
  split
  · exact simulates_some (.inr ⟨h₂, rfl⟩)
  · exact simulates_bind fun set _ => simulates_some (.inl ⟨h₂, rfl, rfl⟩)

/-- Each node gets what is reached from it. -/
theorem calcEclosure_plain (hok : ∀ k, ok k = true) (hplain : nfa.Plain)
    (hgraph : Eclosure.Graph { nfa.graph with inveclosures := inv })
    (hempty : ∀ set ∈ nfa.graph.eclosures, set.nelem = 0) {fuel : Nat} :
    Yields (fun q => q.1 = { nfa with graph := q.1.graph } ∧ q.1.graph.nodes = nfa.graph.nodes ∧
        q.1.graph.edests = nfa.graph.edests ∧
        q.1.graph.eclosures.length = nfa.graph.nodes.length ∧
        ∀ n : Int, 0 ≤ n ∧ n < nfa.graph.nodes.length → ∃ set,
          getAt q.1.graph.eclosures n = some set ∧
          Eclosure.Complete { nfa.graph with inveclosures := inv } n set)
      (calcEclosure ok fresh fuel nfa) := by
  intro q hq
  obtain ⟨g', hrun, hinv, hall⟩ := Eclosure.calcEclosure_spec (fun _ _ _ _ _ => none) hok hgraph hempty
    (Nat.lt_of_lt_of_le (Nat.lt_succ_self _) (le_max_right fuel _))
  obtain ⟨q', hq', hmirrors, -⟩ := calcEclosure_mirrors (fun _ _ _ _ _ => none)
    ⟨rfl, rfl, rfl, rfl, hplain⟩ (le_max_left fuel _) q hq
  obtain rfl := Option.some.inj (hrun.symm.trans hq')
  have hg' := hmirrors.graph
  dsimp only at hg'
  have hlength := hinv.length
  rw [hg'] at hlength
  refine ⟨hmirrors.same, hmirrors.nodes, hmirrors.edests, hlength, fun n hn => ?_⟩
  obtain ⟨set, hset, hcomplete⟩ := hall n hn
  rw [hg'] at hset
  exact ⟨set, hset, hcomplete⟩

end Librecompat.Regcomp
