/-
  The table of the states that the matcher makes.

  `Sane` is what `create_cd_newstate` makes of a state: of its entrance nodes it has those whose
  constraint its context satisfies, and its flags tell what its entrance nodes are. A table of such
  states only grows, and a call returns the state that was asked for (`acquire_spec`).
-/
import Librecompat.Regexec.Automaton
import Librecompat.Regcomp.Overflow
import Librecompat.Regex.Histories

namespace Librecompat.Regexec

open Librecompat.Lib Librecompat.NodeSet Librecompat.Regcomp
open Librecompat.Regex

/-! ## The flags of a state -/

section flags

variable {A : Allocator DfaState} {dfaNodes : List Regex.Token} {nodes : List Nat} {context : Nat}

theorem cdNode_flags (node : Regex.Token) (st : DfaState) :
    (cdNode node st).halt = (st.halt || decide (node.type = .endOfRe)) ∧
      (cdNode node st).hasConstraint = st.hasConstraint ∧
      (cdNode node st).entranceNodes = st.entranceNodes := by
  unfold cdNode
  dsimp only
  split
  · next h => simp [h]
  · next h =>
    split
    · simp [h]
    · simp [h]

theorem copyEntrance_flags {m m' : Mem DfaState} {st st' : DfaState} {k k' : Nat}
    (h : copyEntrance A nodes m st k = (m', some (st', k')))
    (hset : st.entranceNodes.isSome = true → st.hasConstraint = true) :
    st'.halt = st.halt ∧ st'.hasConstraint = true := by
  unfold copyEntrance at h
  split at h
  · next hsome =>
    obtain ⟨-, h⟩ := Prod.mk.inj h
    obtain ⟨rfl, -⟩ := Prod.mk.inj (Option.some.inj h)
    exact ⟨rfl, hset hsome⟩
  · dsimp only at h
    split at h
    · exact absurd (Prod.mk.inj h).2 (by simp)
    split at h
    · exact absurd (Prod.mk.inj h).2 (by simp)
    · obtain ⟨-, h⟩ := Prod.mk.inj h
      obtain ⟨rfl, -⟩ := Prod.mk.inj (Option.some.inj h)
      exact ⟨rfl, rfl⟩

/-- The loop of `create_cd_newstate` sets the flags for the nodes that it passes. -/
theorem cdLoop_flags : ∀ (rest : List Nat) (i k : Nat) {m m' : Mem DfaState} {st st' : DfaState},
    cdLoop A dfaNodes nodes context rest i k m st = some (m', some st') →
    (st.entranceNodes.isSome = true → st.hasConstraint = true) →
    st'.halt = (st.halt || rest.any (isEnd dfaNodes)) ∧
      st'.hasConstraint = (st.hasConstraint || rest.any (isConstrained dfaNodes))
  | [], i, k, m, m', st, st', h, _ => by
    obtain ⟨-, h⟩ := Prod.mk.inj (Option.some.inj h)
    obtain rfl := Option.some.inj h
    simp
  | elem :: rest, i, k, m, m', st, st', h, hset => by
    rw [cdLoop] at h
    obtain ⟨node, hnode, h⟩ := Option.bind_eq_some_iff.mp h
    have hend : isEnd dfaNodes elem = decide (node.type = .endOfRe) := by simp [isEnd, hnode]
    have hcon : isConstrained dfaNodes elem = decide (node.constraint ≠ 0) := by
      simp [isConstrained, hnode]
    obtain ⟨hhalt, hhas, hentrance⟩ := cdNode_flags node st
    rw [List.any_cons, List.any_cons, hend, hcon]
    split at h
    · next hchar =>
      obtain ⟨ih₁, ih₂⟩ := cdLoop_flags rest _ _ h hset
      simp [ih₁, ih₂, hchar.1, hchar.2]
    split at h
    · next hzero =>
      obtain ⟨ih₁, ih₂⟩ := cdLoop_flags rest _ _ h (by rwa [hentrance, hhas])
      simp [ih₁, ih₂, hhalt, hhas, hzero, Bool.or_assoc]
    · next hzero =>
      split at h
      · cases h
      · next mem copied k' hcopy =>
        obtain ⟨hhalt', hhas'⟩ := copyEntrance_flags hcopy (by rwa [hentrance, hhas])
        split at h
        · obtain ⟨ih₁, ih₂⟩ := cdLoop_flags rest _ _ h fun _ => hhas'
          simp [ih₁, ih₂, hhalt', hhalt, hhas', hzero, Bool.or_assoc]
        · obtain ⟨ih₁, ih₂⟩ := cdLoop_flags rest _ _ h fun _ => hhas'
          simp [ih₁, ih₂, hhalt', hhalt, hhas', hzero, Bool.or_assoc]

theorem registerNewstate_state {d d' : Regex.Dfa} {p p' : Nat} {st : DfaState} {hash : Nat}
    (h : registerNewstate A p st hash d = some (d', p')) (hp : p' ≠ 0) :
    p' = p ∧ ∃ set, d'.mem.heap.get p = some { st with hash := hash, nonEpsNodes := set } := by
  obtain ⟨⟨d₁, err⟩, hreg, h⟩ := Option.bind_eq_some_iff.mp h
  dsimp only at h
  split at h
  · obtain ⟨mem, -, h⟩ := Option.bind_eq_some_iff.mp h
    exact absurd (Prod.mk.inj (Option.some.inj h)).2.symm hp
  next hzero =>
  obtain ⟨rfl, rfl⟩ := Prod.mk.inj (Option.some.inj h)
  refine ⟨rfl, ?_⟩
  unfold registerState at hreg
  dsimp only at hreg
  split at hreg
  · exact absurd (Prod.mk.inj (Option.some.inj hreg)).2.symm
      (not_not.mp hzero ▸ show REG_NOERROR ≠ REG_ESPACE by decide)
  obtain ⟨set, -, hreg⟩ := Option.bind_eq_some_iff.mp hreg
  obtain ⟨mem, hstore, hreg⟩ := Option.bind_eq_some_iff.mp hreg
  obtain ⟨spot, -, hreg⟩ := Option.bind_eq_some_iff.mp hreg
  refine ⟨set, ?_⟩
  have hheap : (addToSpot A spot p mem).1.heap = mem.heap := by
    unfold addToSpot
    split
    · rfl
    · rfl
  obtain ⟨b, -, rfl⟩ := Option.map_eq_some_iff.mp hstore
  split at hreg
  · next mem' hadd =>
    exact absurd (Prod.mk.inj (Option.some.inj hreg)).2.symm
      (not_not.mp hzero ▸ show REG_NOERROR ≠ REG_ESPACE by decide)
  · next mem' spot' hadd =>
    rw [hadd] at hheap
    rw [← (Prod.mk.inj (Option.some.inj hreg)).1]
    exact (congrArg (Heap.get · p) hheap).trans (Heap.get_set_self _ _ _)

/-- The flags of the state that `create_cd_newstate` makes. -/
theorem createCdNewstate_flags {d d' : Regex.Dfa} {p hash : Nat}
    (h : createCdNewstate A nodes context hash d = some (d', p)) (hp : p ≠ 0) :
    ∃ st, d'.mem.heap.get p = some st ∧ st.halt = nodes.any (isEnd d.nodes) ∧
      st.hasConstraint = nodes.any (isConstrained d.nodes) := by
  unfold createCdNewstate at h
  dsimp only at h
  split at h
  · exact absurd (Prod.mk.inj (Option.some.inj h)).2.symm hp
  split at h
  · obtain ⟨mem, -, h⟩ := Option.bind_eq_some_iff.mp h
    exact absurd (Prod.mk.inj (Option.some.inj h)).2.symm hp
  · obtain ⟨⟨mem, r⟩, hloop, h⟩ := Option.bind_eq_some_iff.mp h
    cases r with
    | none =>
      obtain ⟨mem', -, h⟩ := Option.bind_eq_some_iff.mp h
      exact absurd (Prod.mk.inj (Option.some.inj h)).2.symm hp
    | some st =>
      obtain ⟨rfl, set, hget⟩ := registerNewstate_state h hp
      obtain ⟨hhalt, hhas⟩ := cdLoop_flags nodes 0 0 hloop (by simp)
      exact ⟨_, hget, by simpa using hhalt, by simpa using hhas⟩

end flags

/-! ## A table of such states -/

/-- A state that was made for its context. -/
structure Sane (nodes : List Regex.Token) (st : DfaState) : Prop where
  kept : st.nodes = st.entrance.filter (satisfiesPrev nodes st.context)
  sorted : st.entrance.Pairwise (· < ·)
  lt : ∀ q ∈ st.entrance, q < nodes.length
  halt : st.halt = st.entrance.any (isEnd nodes)
  hasConstraint : st.hasConstraint = st.entrance.any (isConstrained nodes)

/-- `p` points to a state of the table. -/
structure IsState (d : Regex.Dfa) (p : Nat) (st : DfaState) : Prop where
  live : d.mem.heap.get p = some st
  listed : ∃ spot ∈ d.stateTable, p ∈ spot.array

structure Sound (d : Regex.Dfa) : Prop extends Inv d where
  sane : ∀ p st, IsState d p st → Sane d.nodes st
  null : ∀ st, ¬ IsState d 0 st

variable {d d' : Regex.Dfa} {p : Nat} {st : DfaState}

theorem IsState.grows (h : IsState d p st) (hg : Grows d d') : IsState d' p st := by
  obtain ⟨spot, hspot, hp⟩ := h.listed
  obtain ⟨i, hi⟩ := List.getElem?_of_mem hspot
  obtain ⟨spot', hspot', hprefix⟩ := hg.spots i spot hi
  exact ⟨hg.heap p st h.live, spot', List.mem_of_getElem? hspot', hprefix.subset hp⟩

theorem IsState.unique {st' : DfaState} (h : IsState d p st) (h' : IsState d p st') : st = st' :=
  Option.some.inj (h.live.symm.trans h'.live)

theorem Sound.ne_null (h : Sound d) (hst : IsState d p st) : p ≠ 0 := by
  rintro rfl
  exact h.null st hst

/-- A table with one state more. -/
theorem Sound.added {hash : Nat} (hsound : Sound d) (h : Added d d' hash p st)
    (hgood : Good d.nodes st) (hsane : Sane d.nodes st) : Sound d' := by
  have hidx := hsound.idx_lt hash
  obtain ⟨alloc, htable⟩ := h.bucket _ (List.getElem?_eq_getElem hidx)
  have hold : ∀ q st', IsState d' q st' → IsState d q st' ∨ q = p := by
    intro q st' hq
    obtain ⟨spot, hspot, hmem⟩ := hq.listed
    have hlisted : (∃ spot ∈ d.stateTable, q ∈ spot.array) ∨ q = p := by
      rw [htable] at hspot
      obtain hspot | rfl := List.mem_or_eq_of_mem_set hspot
      · exact .inl ⟨spot, hspot, hmem⟩
      · obtain hmem | hmem := List.mem_append.mp hmem
        · exact .inl ⟨_, List.getElem_mem hidx, hmem⟩
        · exact .inr (List.mem_singleton.mp hmem)
    refine hlisted.imp_left fun ⟨spot, hspot, hmem⟩ => ?_
    obtain ⟨st₀, hst₀, -⟩ := hsound.live spot hspot q hmem
    obtain rfl := Option.some.inj ((h.grows.heap q st₀ hst₀).symm.trans hq.live)
    exact ⟨hst₀, spot, hspot, hmem⟩
  have hinv : Inv d' := by
    refine ⟨by rw [h.table, hsound.table, h.grows.mask], fun spot hspot q hq => ?_⟩
    rw [htable] at hspot
    obtain hspot | rfl := List.mem_or_eq_of_mem_set hspot
    · obtain ⟨st', hst', hg⟩ := hsound.live spot hspot q hq
      exact ⟨st', h.grows.heap q st' hst', h.grows.nodes ▸ hg⟩
    · obtain hq | hq := List.mem_append.mp hq
      · obtain ⟨st', hst', hg⟩ := hsound.live _ (List.getElem_mem hidx) q hq
        exact ⟨st', h.grows.heap q st' hst', h.grows.nodes ▸ hg⟩
      · rw [List.mem_singleton.mp hq]
        exact ⟨st, h.state, h.grows.nodes ▸ hgood⟩
  refine ⟨hinv, fun q st' hq => ?_, fun st' hq => ?_⟩
  · rw [h.grows.nodes]
    obtain hq' | rfl := hold q st' hq
    · exact hsound.sane q st' hq'
    · exact Option.some.inj (h.state.symm.trans hq.live) ▸ hsane
  · obtain hq' | heq := hold 0 st' hq
    · exact hsound.null st' hq'
    · exact h.live heq.symm

/-- A call returns the state of these entrance nodes and of this context. -/
theorem acquire_spec {A : Allocator DfaState} (hA : ∀ n, A.fails n = false) (h : Sound d)
    {nodes : List Nat} {context : Nat} (hsorted : nodes.Pairwise (· < ·))
    (hlt : ∀ q ∈ nodes, q < d.nodes.length) (hne : nodes ≠ []) (hcontext : context < 2 ^ 4)
    (err : RegErrcode) :
    ∃ d' p st, reAcquireStateContext A nodes context err d = some (d', p, err) ∧ Grows d d' ∧
      Sound d' ∧ IsState d' p st ∧ st.entrance = nodes ∧ st.context = context := by
  have hidx := h.idx_lt (calcStateHash nodes context)
  have hspot := List.getElem?_eq_getElem hidx
  have hmem := List.getElem_mem hidx
  have hcall := Call.exec_eq (A := A) (c := .context nodes context) hne err d
  have hlive : ∀ q ∈ d.stateTable[calcStateHash nodes context &&& d.stateHashMask].array,
      ∃ st, d.mem.heap.get q = some st := fun q hq =>
    let ⟨st, hst, _⟩ := h.live _ hmem q hq
    ⟨st, hst⟩
  rw [show reAcquireStateContext A nodes context err d =
    Call.exec A err d (.context nodes context) from rfl, hcall, acquire]
  simp only [Call.hash, hspot, Option.bind_eq_bind, Option.bind_some]
  obtain ⟨hnone, -⟩ | ⟨pre, p, post, st, hsplit, hfind, hst, hans, -⟩ :=
    findState_cases (f := (Call.context nodes context).answers) hlive
  · obtain ⟨d', p, st, hcreate, hadd, hans, hgood, hctx, hent, hnodes⟩ :=
      create_added hA h.toInv (c := .context nodes context) ⟨hlt, hcontext⟩
    obtain ⟨st', hst', hhalt, hhas⟩ := createCdNewstate_flags hcreate hadd.live
    obtain rfl := Option.some.inj (hadd.state.symm.trans hst')
    have hsane : Sane d.nodes st := by
      refine ⟨by rw [hnodes, hent, hctx], ?_, ?_, by rw [hhalt, hent], by rw [hhas, hent]⟩
      · rwa [hent]
      · rwa [hent]
    obtain ⟨alloc, htable⟩ := hadd.bucket _ hspot
    refine ⟨d', p, st, ?_, hadd.grows, h.added hadd hgood hsane, ⟨hadd.state, ?_⟩, hent, hctx⟩
    · simp only [hnone, hcreate, Option.bind_some, if_neg hadd.live]
    · rw [htable]
      exact ⟨_, List.mem_of_getElem? (List.getElem?_set_self hidx), by simp⟩
  · have hstate : IsState d p st := ⟨hst, _, hmem, by rw [hsplit]; simp⟩
    obtain ⟨hctx, hent⟩ := (h.good hspot (by rw [hsplit]; simp) hst).answers_iff.mp hans
    exact ⟨d, p, st, by rw [hfind]; rfl, Grows.refl d, h, hstate, hent, hctx⟩

end Librecompat.Regexec
