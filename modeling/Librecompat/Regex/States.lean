/-
  The states of the table: how one is found and how one is made.

  `Found d c p`: the state at `p` is the first in its bucket that answers the call `c`. The table
  only grows at the ends of its buckets (`Grows`), so a state once found is found again
  (`Found.grows`). A new state gives the caller what it asked for (`create_added`): the loop of
  `create_cd_newstate` has taken out exactly the nodes whose constraint fails (`CdInv`).
-/
import Librecompat.Regex.Model
import Librecompat.Lib.Run

namespace Librecompat.Regex

open Librecompat.Lib

/-! ## The calls -/

/-- A call of `re_acquire_state` or `re_acquire_state_context`. -/
inductive Call where
  | state (nodes : List Nat)
  | context (nodes : List Nat) (context : Nat)
  deriving DecidableEq

namespace Call

def nodes : Call → List Nat
  | state nodes => nodes
  | context nodes _ => nodes

def hash : Call → Nat
  | state nodes => calcStateHash nodes 0
  | context nodes ctx => calcStateHash nodes ctx

/-- What the loop over the bucket looks for. -/
def answers : Call → DfaState → Bool
  | state nodes, st => st.hash = calcStateHash nodes 0 && st.nodes = nodes
  | context nodes ctx, st =>
    st.hash = calcStateHash nodes ctx && st.context = ctx && st.entrance = nodes

def create (A : Allocator DfaState) : Call → Dfa → Option (Dfa × Nat)
  | state nodes => createCiNewstate A nodes (calcStateHash nodes 0)
  | context nodes ctx => createCdNewstate A nodes ctx (calcStateHash nodes ctx)

def exec (A : Allocator DfaState) (err : RegErrcode) (d : Dfa) :
    Call → Option (Dfa × Nat × RegErrcode)
  | state nodes => reAcquireState A nodes err d
  | context nodes ctx => reAcquireStateContext A nodes ctx err d

/-- The elements are nodes of the DFA, and the context is one of the four flags or more. -/
def Valid (dfaNodes : List Token) (c : Call) : Prop :=
  (∀ elem ∈ c.nodes, elem < dfaNodes.length) ∧
    match c with
    | state _ => True
    | context _ ctx => ctx < 2 ^ 4

def step (A : Allocator DfaState) (d : Dfa) (c : Call) : Option Dfa :=
  (c.exec A REG_NOERROR d).map fun r => r.1

theorem exec_eq {A : Allocator DfaState} {c : Call} (hne : c.nodes ≠ []) (err : RegErrcode)
    (d : Dfa) : c.exec A err d = acquire c.hash c.answers (c.create A) err d := by
  cases c with
  | state nodes => exact if_neg fun h0 => hne (List.eq_nil_of_length_eq_zero h0)
  | context nodes ctx => exact if_neg fun h0 => hne (List.eq_nil_of_length_eq_zero h0)

theorem exec_nil {A : Allocator DfaState} {c : Call} (hnil : c.nodes = []) (err : RegErrcode)
    (d : Dfa) : c.exec A err d = some (d, 0, REG_NOERROR) := by
  cases c with
  | state nodes => exact if_pos (congrArg List.length hnil)
  | context nodes ctx => exact if_pos (congrArg List.length hnil)

end Call

/-! ## Looking a state up -/

/-- The constraint of the node on the context before it holds in `context`. -/
def satisfiesPrev (dfaNodes : List Token) (context elem : Nat) : Bool :=
  !notSatisfyPrevConstraint ((dfaNodes[elem]?).elim 0 Token.constraint) context

/-- What the caller wants of the state. -/
def Call.Gives (dfaNodes : List Token) : Call → DfaState → Prop
  | state nodes, st => st.nodes = nodes
  | context nodes ctx, st => st.context = ctx ∧ st.entrance = nodes ∧
      st.nodes = nodes.filter (satisfiesPrev dfaNodes ctx)

/-- What every state of the table is like: its hash value is that of its entrance nodes and its
    context, and its nodes are those entrance nodes whose constraint holds, unless it is a
    context-free state. -/
def Good (dfaNodes : List Token) (st : DfaState) : Prop :=
  st.hash = calcStateHash st.entrance st.context ∧
    (st.nodes = st.entrance.filter (satisfiesPrev dfaNodes st.context) ∨
      (st.entranceNodes = none ∧ st.context = 0))

structure Inv (d : Dfa) : Prop where
  table : d.stateTable.length = d.stateHashMask + 1
  live : ∀ spot ∈ d.stateTable, ∀ p ∈ spot.array,
    ∃ st, d.mem.heap.get p = some st ∧ Good d.nodes st

/-- Every hash has a bucket. -/
theorem Inv.idx_lt {d : Dfa} (h : Inv d) (hash : Nat) :
    hash &&& d.stateHashMask < d.stateTable.length := by
  rw [h.table]
  exact Nat.lt_succ_of_le Nat.and_le_right

theorem Inv.good {d : Dfa} (h : Inv d) {i : Nat} {spot : Spot} (hspot : d.stateTable[i]? = some spot)
    {p : Nat} (hp : p ∈ spot.array) {st : DfaState} (hst : d.mem.heap.get p = some st) :
    Good d.nodes st := by
  obtain ⟨st', hst', hg⟩ := h.live spot (List.mem_of_getElem? hspot) p hp
  exact Option.some.inj (hst'.symm.trans hst) ▸ hg

/-- The states stay, and new ones come at the ends of the buckets. -/
structure Grows (d d' : Dfa) : Prop where
  nodes : d'.nodes = d.nodes
  mask : d'.stateHashMask = d.stateHashMask
  spots : ∀ (i : Nat) (spot : Spot), d.stateTable[i]? = some spot →
    ∃ spot', d'.stateTable[i]? = some spot' ∧ spot.array <+: spot'.array
  heap : Extends d.mem.heap d'.mem.heap

theorem Grows.refl (d : Dfa) : Grows d d :=
  ⟨rfl, rfl, fun _ spot h => ⟨spot, h, List.prefix_refl _⟩, Extends.refl _⟩

theorem Grows.trans {d d' d'' : Dfa} (h : Grows d d') (h' : Grows d' d'') : Grows d d'' := by
  refine ⟨h'.nodes.trans h.nodes, h'.mask.trans h.mask, fun i spot hs => ?_, h.heap.trans h'.heap⟩
  obtain ⟨spot', hs', hp⟩ := h.spots i spot hs
  obtain ⟨spot'', hs'', hp'⟩ := h'.spots i spot' hs'
  exact ⟨spot'', hs'', hp.trans hp'⟩

/-- The state at `p` is the first of its bucket that answers the call. -/
def Found (d : Dfa) (c : Call) (p : Nat) : Prop :=
  ∃ spot, d.stateTable[c.hash &&& d.stateHashMask]? = some spot ∧
    findState d.mem c.answers spot.array = some (some p)

theorem findState_append {m : Mem DfaState} {f : DfaState → Bool} {p : Nat} {xs : List Nat}
    (h : findState m f xs = some (some p)) (ys : List Nat) :
    findState m f (xs ++ ys) = some (some p) := by
  induction xs with
  | nil => cases h
  | cons a xs ih =>
    obtain ⟨st, hst, h⟩ := Option.bind_eq_some_iff.mp h
    rw [List.cons_append, findState, hst, Option.bind_some]
    split at h
    · next hf => rw [if_pos hf, h]
    · next hf => rw [if_neg hf, ih h]

theorem findState_extends {m m' : Mem DfaState} (he : Extends m.heap m'.heap)
    {f : DfaState → Bool} {o : Option Nat} {xs : List Nat} (h : findState m f xs = some o) :
    findState m' f xs = some o := by
  induction xs with
  | nil => exact h
  | cons a xs ih =>
    obtain ⟨st, hst, h⟩ := Option.bind_eq_some_iff.mp h
    rw [findState, he a st hst, Option.bind_some]
    split at h
    · next hf => rw [if_pos hf, h]
    · next hf => rw [if_neg hf, ih h]

theorem Found.grows {d d' : Dfa} {c : Call} {p : Nat} (h : Found d c p) (hg : Grows d d') :
    Found d' c p := by
  obtain ⟨spot, hspot, hfind⟩ := h
  obtain ⟨spot', hspot', ys, hys⟩ := hg.spots _ _ hspot
  refine ⟨spot', hg.mask ▸ hspot', ?_⟩
  rw [← hys]
  exact findState_append (findState_extends hg.heap hfind) ys

theorem findState_first {m : Mem DfaState} {f : DfaState → Bool} {p : Nat} {st : DfaState}
    {pre : List Nat} (hpre : ∀ q ∈ pre, ∃ st, m.heap.get q = some st ∧ f st = false)
    (hst : m.heap.get p = some st) (hf : f st = true) (post : List Nat) :
    findState m f (pre ++ p :: post) = some (some p) := by
  induction pre with
  | nil => rw [List.nil_append, findState, hst, Option.bind_some, if_pos hf]
  | cons a pre ih =>
    rw [List.forall_mem_cons] at hpre
    obtain ⟨⟨st', hst', hf'⟩, hpre⟩ := hpre
    rw [List.cons_append, findState, hst', Option.bind_some, hf', if_neg Bool.false_ne_true,
      ih hpre]

/-- A bucket of live states is searched to its end, or up to the first state that answers. -/
theorem findState_cases {m : Mem DfaState} {f : DfaState → Bool} {xs : List Nat}
    (hlive : ∀ p ∈ xs, ∃ st, m.heap.get p = some st) :
    (findState m f xs = some none ∧ ∀ p ∈ xs, ∀ st, m.heap.get p = some st → f st = false) ∨
    ∃ pre p post st, xs = pre ++ p :: post ∧ findState m f xs = some (some p) ∧
      m.heap.get p = some st ∧ f st = true ∧
      ∀ q ∈ pre, ∀ st, m.heap.get q = some st → f st = false := by
  induction xs with
  | nil => exact .inl ⟨rfl, fun p hp => absurd hp List.not_mem_nil⟩
  | cons a xs ih =>
    rw [List.forall_mem_cons] at hlive
    obtain ⟨⟨st, hst⟩, hlive⟩ := hlive
    unfold findState
    rw [hst, Option.bind_some]
    by_cases hf : f st = true
    · rw [if_pos hf]
      exact .inr ⟨[], a, xs, st, rfl, rfl, hst, hf, fun q hq => absurd hq List.not_mem_nil⟩
    · have ha : ∀ st', m.heap.get a = some st' → f st' = false := by
        intro st' hst'
        obtain rfl := Option.some.inj (hst.symm.trans hst')
        exact Bool.eq_false_iff.mpr hf
      rw [if_neg hf]
      rcases ih hlive with ⟨hnone, hall⟩ | ⟨pre, p, post, st', hxs, hp, hget, hans, hpre⟩
      · exact .inl ⟨hnone, List.forall_mem_cons.mpr ⟨ha, hall⟩⟩
      · exact .inr ⟨a :: pre, p, post, st', by rw [hxs]; rfl, hp, hget, hans,
          List.forall_mem_cons.mpr ⟨ha, hpre⟩⟩

/-! ## Making a state -/

theorem ciNode_keeps (node : Token) (st : DfaState) :
    (ciNode node st).nodes = st.nodes ∧ (ciNode node st).context = st.context ∧
      (ciNode node st).entranceNodes = st.entranceNodes := by
  unfold ciNode
  dsimp only
  repeat' split
  all_goals exact ⟨rfl, rfl, rfl⟩

theorem cdNode_keeps (node : Token) (st : DfaState) :
    (cdNode node st).nodes = st.nodes ∧ (cdNode node st).context = st.context ∧
      (cdNode node st).entranceNodes = st.entranceNodes := by
  unfold cdNode
  dsimp only
  repeat' split
  all_goals exact ⟨rfl, rfl, rfl⟩

theorem nonEpsNodes_total {dfaNodes : List Token} {nodes : List Nat}
    (hnodes : ∀ elem ∈ nodes, elem < dfaNodes.length) :
    ∃ set, nonEpsNodes dfaNodes nodes = some set := by
  have hpass : ∀ (set : List Nat) (elem : Nat), True → elem < dfaNodes.length →
      ∃ set', ((dfaNodes[elem]?).map fun node =>
        if node.type.isEpsilonNode then set else set ++ [elem]) = some set' ∧ True := by
    intro set elem _ helem
    rw [List.getElem?_eq_getElem helem]
    exact ⟨_, rfl, trivial⟩
  obtain ⟨set, hset, _⟩ := foldlM_inv hpass trivial hnodes
  exact ⟨set, hset⟩

/-- The loop of `create_ci_newstate` only sets flags. -/
theorem ciLoop_eq {dfaNodes : List Token} {nodes : List Nat}
    (hnodes : ∀ elem ∈ nodes, elem < dfaNodes.length) (st : DfaState) :
    ∃ st', nodes.foldlM (fun st elem => (dfaNodes[elem]?).map fun node => ciNode node st) st =
        some st' ∧ st'.nodes = st.nodes ∧ st'.context = st.context ∧
      st'.entranceNodes = st.entranceNodes := by
  refine foldlM_inv ?_ ⟨rfl, rfl, rfl⟩ hnodes
  intro s elem ⟨hn, hc, he⟩ helem
  obtain ⟨hn', hc', he'⟩ := ciNode_keeps dfaNodes[elem] s
  refine ⟨ciNode dfaNodes[elem] s, ?_, hn'.trans hn, hc'.trans hc, he'.trans he⟩
  rw [List.getElem?_eq_getElem helem, Option.map_some]

section Growing

variable {A : Allocator DfaState} (hA : ∀ n, A.fails n = false)
include hA

theorem allocate_ok (m : Mem DfaState) :
    allocate A m = ({ m with calls := m.calls + 1 }, true) := by
  rw [allocate, hA]
  rfl

theorem reNodeSetInitCopy_ok (m : Mem DfaState) (src : List Nat) :
    ∃ calls, reNodeSetInitCopy A m src = ({ m with calls := calls }, true) := by
  unfold reNodeSetInitCopy
  split
  · exact ⟨_, allocate_ok hA m⟩
  · exact ⟨_, rfl⟩

/-- The loop of `create_cd_newstate` behind the nodes `done`: those whose constraint fails have
    gone, and the entrance nodes are a set of their own once a constraint was seen. -/
structure CdInv (dfaNodes : List Token) (nodes : List Nat) (context : Nat) (done rest : List Nat)
    (nctxNodes : Nat) (st : DfaState) : Prop where
  kept : st.nodes = done.filter (satisfiesPrev dfaNodes context) ++ rest
  gone : nctxNodes + (done.filter (satisfiesPrev dfaNodes context)).length = done.length
  entrance : st.entranceNodes = some nodes ∨
    (st.entranceNodes = none ∧ done.filter (satisfiesPrev dfaNodes context) = done)

omit hA in
/-- A node whose constraint holds stays. -/
theorem CdInv.keep {dfaNodes : List Token} {nodes done rest : List Nat}
    {context nctxNodes elem : Nat} {st st' : DfaState}
    (h : CdInv dfaNodes nodes context done (elem :: rest) nctxNodes st)
    (hsat : satisfiesPrev dfaNodes context elem = true) (hnodes : st'.nodes = st.nodes)
    (hent : st'.entranceNodes = st.entranceNodes) :
    CdInv dfaNodes nodes context (done ++ [elem]) rest nctxNodes st' := by
  have hfilter : (done ++ [elem]).filter (satisfiesPrev dfaNodes context) =
      done.filter (satisfiesPrev dfaNodes context) ++ [elem] := by
    rw [List.filter_append, List.filter_cons_of_pos hsat, List.filter_nil]
  refine ⟨?_, ?_, ?_⟩
  · rw [hnodes, h.kept, hfilter, List.append_assoc, List.singleton_append]
  · have hgone := h.gone
    rw [hfilter, List.length_append, List.length_append, List.length_singleton]
    omega
  · rw [hent, hfilter]
    exact h.entrance.imp id fun ⟨hnone, hall⟩ => ⟨hnone, by rw [hall]⟩

omit hA in
/-- A node whose constraint fails goes: it is the first one behind those that were kept. -/
theorem CdInv.drop {dfaNodes : List Token} {nodes done rest : List Nat}
    {context nctxNodes elem : Nat} {st : DfaState}
    (h : CdInv dfaNodes nodes context done (elem :: rest) nctxNodes st)
    (hsat : satisfiesPrev dfaNodes context elem = false) (hent : st.entranceNodes = some nodes) :
    CdInv dfaNodes nodes context (done ++ [elem]) rest (nctxNodes + 1)
      { st with nodes := reNodeSetRemoveAt st.nodes (done.length - nctxNodes) } := by
  have hgone := h.gone
  have hfilter : (done ++ [elem]).filter (satisfiesPrev dfaNodes context) =
      done.filter (satisfiesPrev dfaNodes context) := by
    rw [List.filter_append, List.filter_cons_of_neg (Bool.eq_false_iff.mp hsat), List.filter_nil,
      List.append_nil]
  have hidx : done.length - nctxNodes =
      (done.filter (satisfiesPrev dfaNodes context)).length := by omega
  refine ⟨?_, ?_, .inl hent⟩
  · rw [hfilter, hidx, h.kept, reNodeSetRemoveAt,
      List.eraseIdx_append_of_length_le (Nat.le_refl _), Nat.sub_self]
    rfl
  · rw [hfilter, List.length_append, List.length_singleton]
    omega

theorem copyEntrance_inv {dfaNodes : List Token} {nodes done rest : List Nat}
    {context nctxNodes : Nat} {st : DfaState} (m : Mem DfaState)
    (h : CdInv dfaNodes nodes context done rest nctxNodes st) :
    ∃ calls st', copyEntrance A nodes m st nctxNodes =
        ({ m with calls := calls }, some (st', nctxNodes)) ∧
      CdInv dfaNodes nodes context done rest nctxNodes st' ∧ st'.entranceNodes = some nodes ∧
      st'.context = st.context := by
  unfold copyEntrance
  rcases h.entrance with he | ⟨he, hall⟩
  · rw [he]
    exact ⟨m.calls, st, rfl, h, he, rfl⟩
  · -- so far nothing was removed, so that the counter is zero anyway
    have hgone := h.gone
    rw [hall] at hgone
    obtain rfl : nctxNodes = 0 := by omega
    obtain ⟨calls, hcopy⟩ := reNodeSetInitCopy_ok hA { m with calls := m.calls + 1 } nodes
    rw [he, allocate_ok hA]
    simp only [Option.isSome_none, Bool.false_eq_true, if_false, Bool.not_true, hcopy]
    exact ⟨calls, _, rfl, ⟨h.kept, h.gone, .inl rfl⟩, rfl, rfl⟩

theorem cdLoop_eq {dfaNodes : List Token} {nodes : List Nat} {context : Nat} {rest : List Nat} :
    ∀ {done : List Nat} {nctxNodes : Nat} {m : Mem DfaState} {st : DfaState},
    (∀ elem ∈ rest, elem < dfaNodes.length) →
    CdInv dfaNodes nodes context done rest nctxNodes st →
    ∃ calls st' n, cdLoop A dfaNodes nodes context rest done.length nctxNodes m st =
        some ({ m with calls := calls }, some st') ∧
      CdInv dfaNodes nodes context (done ++ rest) [] n st' ∧ st'.context = st.context := by
  induction rest with
  | nil =>
    intro done nctxNodes m st _ h
    exact ⟨m.calls, st, nctxNodes, rfl, by rwa [List.append_nil], rfl⟩
  | cons elem rest ih =>
    intro done nctxNodes m st hrest h
    rw [List.forall_mem_cons] at hrest
    have hnode := List.getElem?_eq_getElem hrest.1
    have hsplit : done ++ elem :: rest = (done ++ [elem]) ++ rest := by simp
    have hlen : done.length + 1 = (done ++ [elem]).length := by simp
    have hsat : satisfiesPrev dfaNodes context elem =
        !notSatisfyPrevConstraint dfaNodes[elem].constraint context := by
      rw [satisfiesPrev, hnode]
      rfl
    unfold cdLoop
    rw [hnode, Option.bind_some, hsplit]
    by_cases hc : dfaNodes[elem].constraint = 0
    · -- without a constraint the node stays whatever its type is
      have hzero : satisfiesPrev dfaNodes context elem = true := by
        rw [hsat, hc]
        simp [notSatisfyPrevConstraint]
      by_cases ht : dfaNodes[elem].type = .character
      · rw [if_pos ⟨ht, hc⟩, hlen]
        exact ih hrest.2 (h.keep hzero rfl rfl)
      · obtain ⟨hn, hctx, hent⟩ := cdNode_keeps dfaNodes[elem] st
        rw [if_neg fun hb => ht hb.1, if_pos hc, hlen]
        obtain ⟨calls, st', n, hloop, hinv, hcontext⟩ := ih (m := m) hrest.2 (h.keep hzero hn hent)
        exact ⟨calls, st', n, hloop, hinv, hcontext.trans hctx⟩
    · obtain ⟨hn, hctx, hent⟩ := cdNode_keeps dfaNodes[elem] st
      have hflags : CdInv dfaNodes nodes context done (elem :: rest) nctxNodes
          (cdNode dfaNodes[elem] st) :=
        ⟨hn.trans h.kept, h.gone, hent ▸ h.entrance⟩
      obtain ⟨calls₁, st₁, hcopy, h₁, hent₁, hctx₁⟩ := copyEntrance_inv hA m hflags
      rw [if_neg fun hb => hc hb.2, if_neg hc, hcopy]
      dsimp only
      by_cases hfail : notSatisfyPrevConstraint dfaNodes[elem].constraint context = true
      · rw [if_pos hfail, hlen]
        obtain ⟨calls, st', n, hloop, hinv, hcontext⟩ :=
          ih (m := ⟨m.heap, calls₁⟩) hrest.2 (h₁.drop (by rw [hsat, hfail]; rfl) hent₁)
        exact ⟨calls, st', n, hloop, hinv, hcontext.trans (hctx₁.trans hctx)⟩
      · rw [if_neg hfail, hlen]
        obtain ⟨calls, st', n, hloop, hinv, hcontext⟩ :=
          ih (m := ⟨m.heap, calls₁⟩) hrest.2 (h₁.keep (by rw [hsat]; simpa using hfail) rfl rfl)
        exact ⟨calls, st', n, hloop, hinv, hcontext.trans (hctx₁.trans hctx)⟩

/-- The new state `st` is the last one of its bucket. -/
structure Added (d d' : Dfa) (hash p : Nat) (st : DfaState) : Prop where
  fresh : d.mem.heap.get p = none
  live : p ≠ 0
  grows : Grows d d'
  table : d'.stateTable.length = d.stateTable.length
  state : d'.mem.heap.get p = some st
  bucket : ∀ spot, d.stateTable[hash &&& d.stateHashMask]? = some spot →
    ∃ alloc, d'.stateTable = d.stateTable.set (hash &&& d.stateHashMask)
      { alloc := alloc, array := spot.array ++ [p] }

theorem registerNewstate_added {d : Dfa} {p : Nat} (b st : DfaState) (hash calls : Nat)
    (hfresh : d.mem.heap.get p = none) (hp : p ≠ 0)
    (hnodes : ∀ elem ∈ st.nodes, elem < d.nodes.length)
    (hidx : hash &&& d.stateHashMask < d.stateTable.length) :
    ∃ d' set, registerNewstate A p st hash { d with mem := ⟨d.mem.heap.set p b, calls⟩ } =
        some (d', p) ∧ Added d d' hash p { st with hash := hash, nonEpsNodes := set } := by
  obtain ⟨set, hset⟩ := nonEpsNodes_total hnodes
  have hspot := List.getElem?_eq_getElem hidx
  have hstore := store_live (m := { heap := d.mem.heap.set p b, calls := calls + 1 })
    (c := { st with hash := hash, nonEpsNodes := set }) (Heap.get_set_self _ _ _)
  have hadd : ∀ m, ∃ calls alloc, addToSpot A d.stateTable[hash &&& d.stateHashMask] p m =
      ({ m with calls := calls },
        some ⟨alloc, d.stateTable[hash &&& d.stateHashMask].array ++ [p]⟩) := by
    intro m
    unfold addToSpot
    split
    · rw [allocate_ok hA]
      exact ⟨_, _, rfl⟩
    · exact ⟨_, _, rfl⟩
  obtain ⟨calls', alloc, hadd⟩ := hadd
    ⟨(d.mem.heap.set p b).set p { st with hash := hash, nonEpsNodes := set }, calls + 1⟩
  have hcall : registerNewstate A p st hash { d with mem := ⟨d.mem.heap.set p b, calls⟩ } =
      some ({ d with
        mem := ⟨(d.mem.heap.set p b).set p { st with hash := hash, nonEpsNodes := set }, calls'⟩,
        stateTable := d.stateTable.set (hash &&& d.stateHashMask)
          ⟨alloc, d.stateTable[hash &&& d.stateHashMask].array ++ [p]⟩ }, p) := by
    unfold registerNewstate registerState
    rw [allocate_ok hA]
    simp only [Bool.not_true, Bool.false_eq_true, if_false, hset, Option.bind_eq_bind,
      Option.bind_some, hstore, hspot, hadd]
    rfl
  have hext := ((Extends.refl d.mem.heap).set b hfresh).set
    { st with hash := hash, nonEpsNodes := set } hfresh
  refine ⟨_, set, hcall, hfresh, hp, ⟨rfl, rfl, ?_, hext⟩, List.length_set, Heap.get_set_self _ _ _,
    ?_⟩
  · intro i spot hi
    by_cases heq : hash &&& d.stateHashMask = i
    · obtain rfl := heq
      obtain rfl := Option.some.inj (hspot.symm.trans hi)
      exact ⟨_, List.getElem?_set_self hidx, List.prefix_append _ _⟩
    · exact ⟨spot, (List.getElem?_set_ne heq).trans hi, List.prefix_refl _⟩
  · intro spot hs
    obtain rfl := Option.some.inj (hspot.symm.trans hs)
    exact ⟨alloc, rfl⟩

/-- A new state gives what the call asks for. -/
theorem create_added {d : Dfa} {c : Call} (hinv : Inv d) (hv : c.Valid d.nodes) :
    ∃ d' p st, c.create A d = some (d', p) ∧ Added d d' c.hash p st ∧ c.answers st = true ∧
      Good d.nodes st ∧ c.Gives d.nodes st := by
  obtain ⟨hnodes, hctx⟩ := hv
  have hidx := hinv.idx_lt c.hash
  obtain ⟨hf, _⟩ | ⟨_, p, hp, hfresh, hm⟩ := malloc_cases A d.mem {}
  · rw [hA] at hf
    cases hf
  · obtain ⟨calls, hcopy⟩ :=
      reNodeSetInitCopy_ok hA ⟨d.mem.heap.set p {}, d.mem.calls + 1⟩ c.nodes
    cases c with
    | state nodes =>
      obtain ⟨st, hloop, hn, hc, he⟩ := ciLoop_eq hnodes { nodes := nodes }
      obtain ⟨d', set, hreg, hadd⟩ := registerNewstate_added hA {} st (calcStateHash nodes 0) calls
        hfresh hp (hn ▸ hnodes) hidx
      refine ⟨d', p, _, ?_, hadd, by simp [Call.answers, hn], ⟨?_, .inr ⟨he, hc⟩⟩, hn⟩
      · show createCiNewstate A nodes (calcStateHash nodes 0) d = some (d', p)
        unfold createCiNewstate
        rw [hm]
        dsimp only [Call.nodes] at hcopy hloop ⊢
        rw [if_neg hp, hcopy]
        simp only [Bool.not_true, Bool.false_eq_true, if_false, hloop, Option.bind_eq_bind,
          Option.bind_some]
        exact hreg
      · show calcStateHash nodes 0 = calcStateHash (st.entranceNodes.getD st.nodes) st.context
        rw [hc, he, hn]
        rfl
    | context nodes ctx =>
      have hstart : CdInv d.nodes nodes ctx [] nodes 0 { nodes := nodes, context := ctx % 2 ^ 4 } :=
        ⟨rfl, rfl, .inr ⟨rfl, rfl⟩⟩
      obtain ⟨calls', st, n, hloop, hcd, hc⟩ :=
        cdLoop_eq hA (m := ⟨d.mem.heap.set p {}, calls⟩) hnodes hstart
      dsimp only [Call.nodes, List.length_nil, List.nil_append] at hloop hcd
      have hn := hcd.kept
      rw [List.append_nil] at hn
      obtain ⟨d', set, hreg, hadd⟩ := registerNewstate_added hA {} st (calcStateHash nodes ctx)
        calls' hfresh hp (fun elem he => hnodes elem (List.mem_of_mem_filter (hn ▸ he))) hidx
      -- the entrance nodes are the nodes asked for, copied or not
      have hent : st.entranceNodes.getD st.nodes = nodes := by
        rcases hcd.entrance with he | ⟨he, hall⟩
        · rw [he]
          rfl
        · rw [he, hn, hall]
          rfl
      have hcontext : st.context = ctx := hc.trans (Nat.mod_eq_of_lt hctx)
      refine ⟨d', p, _, ?_, hadd, ?_, ⟨?_, .inl ?_⟩, hcontext, hent, hn⟩
      · show createCdNewstate A nodes ctx (calcStateHash nodes ctx) d = some (d', p)
        unfold createCdNewstate
        rw [hm]
        dsimp only [Call.nodes] at hcopy ⊢
        rw [if_neg hp, hcopy]
        simp only [Bool.not_true, Bool.false_eq_true, if_false]
        rw [hloop]
        exact hreg
      · simp [Call.answers, DfaState.entrance, hcontext, hent]
      · show calcStateHash nodes ctx = calcStateHash (st.entranceNodes.getD st.nodes) st.context
        rw [hent, hcontext]
      · show st.nodes = (st.entranceNodes.getD st.nodes).filter (satisfiesPrev d.nodes st.context)
        rw [hent, hcontext, hn]

end Growing

theorem Added.inv {d d' : Dfa} {c : Call} {p : Nat} {st : DfaState}
    (h : Added d d' c.hash p st) (hinv : Inv d) (hgood : Good d.nodes st) : Inv d' := by
  have hidx := hinv.idx_lt c.hash
  obtain ⟨alloc, htable⟩ := h.bucket _ (List.getElem?_eq_getElem hidx)
  have hold : ∀ spot ∈ d.stateTable, ∀ q ∈ spot.array,
      ∃ st, d'.mem.heap.get q = some st ∧ Good d'.nodes st := by
    intro spot hspot q hq
    obtain ⟨st', hst', hg⟩ := hinv.live spot hspot q hq
    exact ⟨st', h.grows.heap q st' hst', h.grows.nodes ▸ hg⟩
  refine ⟨by rw [h.table, hinv.table, h.grows.mask], fun spot hspot => ?_⟩
  rw [htable] at hspot
  rcases List.mem_or_eq_of_mem_set hspot with hspot | rfl
  · exact hold spot hspot
  · intro q hq
    rcases List.mem_append.mp hq with hq | hq
    · exact hold _ (List.getElem_mem hidx) q hq
    · obtain rfl := List.mem_singleton.mp hq
      exact ⟨st, h.state, h.grows.nodes ▸ hgood⟩

end Librecompat.Regex
