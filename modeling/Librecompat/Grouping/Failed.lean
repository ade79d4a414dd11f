/-
  `group_nodes_into_DFAstates` where allocations fail.

  The call then returns `-1`, or it does what it does with memory enough. So whether it writes past
  the end of its arrays is a question about calls with memory enough.
-/
import Librecompat.Grouping.Partition
import Librecompat.NodeSet.Within

namespace Librecompat.Grouping

open Librecompat.Lib Librecompat.NodeSet
open Librecompat.Regex

variable {dfa : Dfa} {ok : Nat → Bool} {α : Type}

/-- The result is the one with memory enough, or the call has failed. -/
def OrFailed (r r' : Option (Except Stop α)) : Prop := r = r' ∨ r = some (.error .failed)

/-- One step behind another. -/
theorem OrFailed.andThen {β : Type} {r r' : Option (Except Stop α)}
    {k k' : Except Stop α → Option (Except Stop β)} (h : OrFailed r r')
    (hk : ∀ a, OrFailed (k (.ok a)) (k' (.ok a)))
    (herror : ∀ stop, k (.error stop) = some (.error stop) ∧ k' (.error stop) = some (.error stop)) :
    OrFailed (r.bind k) (r'.bind k') := by
  obtain rfl | rfl := h
  · cases r with
    | none => exact .inl rfl
    | some q =>
      cases q with
      | error stop => exact .inl ((herror stop).1.trans (herror stop).2.symm)
      | ok a => exact hk a
  · exact .inr (herror .failed).1

/-- A loop that leaves with an error as soon as an allocation fails. -/
theorem OrFailed.tryLoop {σ : Type} {body body' : σ → Option (σ ⊕ Except Stop α)}
    (h : ∀ s, body s = body' s ∨ body s = some (.inr (.error .failed))) :
    ∀ (n : Nat) (s : σ), OrFailed (tryLoop body n s) (tryLoop body' n s)
  | 0, _ => .inl rfl
  | n + 1, s => by
    obtain heq | hfail := h s
    · rw [Lib.tryLoop, Lib.tryLoop, heq]
      cases body' s with
      | none => exact .inl rfl
      | some q =>
        cases q with
        | inl s' => exact OrFailed.tryLoop h n s'
        | inr r => exact .inl rfl
    · exact .inr (tryLoop_succ_inr hfail)

theorem addDest_orFailed (s : Groups) (ch : Bitset) {node node' : Option (ReNodeSet × RegErrcode)}
    (h : OrFails node node') : OrFailed (addDest s ch node) (addDest s ch node') := by
  obtain rfl | ⟨set, rfl⟩ := h
  · exact .inl rfl
  · unfold addDest
    split
    · exact .inr rfl
    · exact .inl rfl

theorem insertPosition_orFailed (s : Groups) (j : Nat) (elem : Int) :
    OrFailed (insertPosition ok s j elem) (insertPosition (fun _ => true) s j elem) := by
  unfold insertPosition
  cases s.dests[j]? with
  | none => exact .inl rfl
  | some dest =>
    obtain heq | ⟨set, hset⟩ := insert_orFails (ok s.calls) dest.node elem
    · exact .inl (by simp only [Option.bind_eq_bind, Option.bind_some, heq])
    · exact .inr (by simp [hset])

theorem takePart_orFailed (s : Groups) (j : Nat) (dest : Dest) (elem : Int) :
    OrFailed (takePart ok s j dest elem) (takePart (fun _ => true) s j dest elem) := by
  have hsplit : OrFailed (splitDest ok s j dest) (splitDest (fun _ => true) s j dest) := by
    unfold splitDest
    dsimp only
    split
    · exact addDest_orFailed _ _ (initCopy_orFails _ _)
    · exact .inl rfl
  exact hsplit.andThen (fun t => insertPosition_orFailed _ _ _) fun stop => ⟨rfl, rfl⟩

theorem dividePass_orFailed (node : Token) (elem : Int) (s : Groups × Nat) :
    dividePass ok node elem s = dividePass (fun _ => true) node elem s ∨
      dividePass ok node elem s = some (.inr (.error .failed)) := by
  unfold dividePass
  split
  · exact .inl rfl
  cases s.1.dests[s.2]? with
  | none => exact .inl rfl
  | some dest =>
    simp only [Option.bind_eq_bind, Option.bind_some]
    split
    · exact .inl rfl
    split
    · exact .inl rfl
    · obtain heq | hfail := @takePart_orFailed ok s.1 s.2 dest elem
      · exact .inl (by rw [heq])
      · exact .inr (by rw [hfail]; rfl)

theorem divide_orFailed (node : Token) (elem : Int) (s : Groups) :
    OrFailed (divide ok node elem s) (divide (fun _ => true) node elem s) := by
  refine (OrFailed.tryLoop (dividePass_orFailed node elem) _ _).andThen (fun q => ?_)
    fun stop => ⟨rfl, rfl⟩
  dsimp only
  split
  · exact (addDest_orFailed _ _ (init1_orFails _ _)).andThen (fun t => .inl rfl) fun stop =>
      ⟨rfl, rfl⟩
  · exact .inl rfl

theorem groupNodes_orFailed (curNodes : ReNodeSet) : ∀ (is : List Nat) (s : Groups),
    OrFailed (groupNodes dfa ok curNodes is s) (groupNodes dfa (fun _ => true) curNodes is s)
  | [], _ => .inl rfl
  | i :: is, s => by
    rw [groupNodes, groupNodes]
    cases readCell curNodes.elems i with
    | none => exact .inl rfl
    | some elem =>
      have hnode : OrFailed (groupNode dfa ok elem s) (groupNode dfa (fun _ => true) elem s) := by
        unfold groupNode
        cases getAt dfa.nodes elem with
        | none => exact .inl rfl
        | some node =>
          simp only [Option.bind_eq_bind, Option.bind_some]
          split
          · exact .inl rfl
          · split
            · exact divide_orFailed _ _ _
            · exact .inl rfl
      exact hnode.andThen (fun t => groupNodes_orFailed curNodes is t) fun stop => ⟨rfl, rfl⟩

theorem groupNodesIntoDFAstates_orFailed (curNodes : ReNodeSet) :
    OrFailed (groupNodesIntoDFAstates dfa ok curNodes)
      (groupNodesIntoDFAstates dfa (fun _ => true) curNodes) := by
  have hrun := @groupNodes_orFailed dfa ok curNodes (List.range curNodes.nelem.toNat)
    ⟨[], bitsetEmpty, 0⟩
  exact hrun.andThen (fun t => .inl rfl) fun stop => ⟨rfl, rfl⟩

/-- No call writes past the end of the arrays if the one with memory enough does not. -/
theorem never_overflows_iff {curNodes : ReNodeSet} :
    (∀ ok, overflows (groupNodesIntoDFAstates dfa ok curNodes) = false) ↔
      overflows (groupNodesIntoDFAstates dfa (fun _ => true) curNodes) = false := by
  refine ⟨fun h => h _, fun h ok => ?_⟩
  obtain heq | hfail := @groupNodesIntoDFAstates_orFailed dfa ok curNodes
  · rw [heq, h]
  · rw [hfail]
    rfl

end Librecompat.Grouping
