/-
  Which state a call returns, after every history of calls.

  With allocations succeeding a call finds a state, or it makes one and appends it
  (`exec_found`). A state made by `re_acquire_state` has `context` zero, like one made for
  context zero: when it comes first in the bucket, `re_acquire_state_context (…, 0)` takes it
  although it has kept the nodes whose constraint fails (`Confused`). Every other call returns
  what was asked for (`returns_iff`).
-/
import Librecompat.Regex.States

namespace Librecompat.Regex

open Librecompat.Lib

/-! ## The state that a call returns -/

/-- The caller has got what it asked for. -/
def Returns (d : Dfa) (c : Call) (p : Nat) : Prop :=
  ∃ st, d.mem.heap.get p = some st ∧ c.Gives d.nodes st

/-- A call for context zero, with a node whose constraint fails there, while the bucket holds a
    state without entrance nodes of its own that keeps all the nodes, and before it no state of
    context zero with these entrance nodes. -/
def Confused (d : Dfa) (c : Call) : Prop :=
  ∃ nodes, c = .context nodes 0 ∧ (∃ elem ∈ nodes, satisfiesPrev d.nodes 0 elem = false) ∧
    ∃ spot pre p post st, d.stateTable[c.hash &&& d.stateHashMask]? = some spot ∧
      spot.array = pre ++ p :: post ∧ d.mem.heap.get p = some st ∧ st.context = 0 ∧
      st.entranceNodes = none ∧ st.nodes = nodes ∧
      ∀ q ∈ pre, ∀ st', d.mem.heap.get q = some st' →
        ¬ (st'.context = 0 ∧ st'.entrance = nodes)

/-- In a table the hash value of a state follows from its entrance nodes and context. -/
theorem Good.answers_iff {dfaNodes : List Token} {st : DfaState} (h : Good dfaNodes st)
    {nodes : List Nat} {ctx : Nat} :
    (Call.context nodes ctx).answers st = true ↔ st.context = ctx ∧ st.entrance = nodes := by
  unfold Call.answers
  simp only [Bool.and_eq_true, decide_eq_true_iff, and_assoc]
  refine ⟨fun ⟨_, hc, he⟩ => ⟨hc, he⟩, fun ⟨hc, he⟩ => ⟨?_, hc, he⟩⟩
  rw [h.1, hc, he]

/-- The first state that answers gives what was asked for, unless the call is confused. -/
theorem gives_or_confused {d : Dfa} {c : Call} (hinv : Inv d) {spot : Spot}
    (hspot : d.stateTable[c.hash &&& d.stateHashMask]? = some spot) {pre post : List Nat}
    {p : Nat} {st : DfaState} (hsplit : spot.array = pre ++ p :: post)
    (hst : d.mem.heap.get p = some st) (hans : c.answers st = true)
    (hpre : ∀ q ∈ pre, ∀ st, d.mem.heap.get q = some st → c.answers st = false) :
    c.Gives d.nodes st ∨ Confused d c := by
  have hg := hinv.good hspot (by rw [hsplit]; simp) hst
  cases c with
  | state nodes =>
    unfold Call.answers at hans
    simp only [Bool.and_eq_true, decide_eq_true_iff] at hans
    exact .inl hans.2
  | context nodes ctx =>
    obtain ⟨hc, he⟩ := hg.answers_iff.mp hans
    rcases hg.2 with hfilter | ⟨hnone, hzero⟩
    · rw [he, hc] at hfilter
      exact .inl ⟨hc, he, hfilter⟩
    · obtain rfl : ctx = 0 := hc.symm.trans hzero
      have hn : st.nodes = nodes := by
        rw [DfaState.entrance, hnone] at he
        exact he
      by_cases hall : ∀ elem ∈ nodes, satisfiesPrev d.nodes 0 elem = true
      · exact .inl ⟨hc, he, hn.trans (List.filter_eq_self.mpr hall).symm⟩
      · obtain ⟨elem, helem, hfail⟩ := not_forall₂.mp hall
        refine .inr ⟨nodes, rfl, ⟨elem, helem, Bool.eq_false_iff.mpr hfail⟩, spot, pre, p, post, st,
          hspot, hsplit, hst, hc, hnone, hn, fun q hq st' hst' hq0 => ?_⟩
        have hgood := hinv.good hspot (by rw [hsplit]; simp [hq]) hst'
        have hans' := hgood.answers_iff.mpr hq0
        rw [hpre q hq st' hst'] at hans'
        cases hans'

/-- A confused call finds the state that has kept all the nodes. -/
theorem Confused.found {d : Dfa} {c : Call} (hinv : Inv d) (h : Confused d c) :
    ∃ p, Found d c p ∧ ¬ Returns d c p := by
  obtain ⟨nodes, rfl, ⟨elem, helem, hfail⟩, spot, pre, p, post, st, hspot, hsplit, hst, hc, hnone,
    hn, hpre⟩ := h
  have hans : (Call.context nodes 0).answers st = true := by
    refine (hinv.good hspot (by rw [hsplit]; simp) hst).answers_iff.mpr ⟨hc, ?_⟩
    rw [DfaState.entrance, hnone]
    exact hn
  refine ⟨p, ⟨spot, hspot, ?_⟩, ?_⟩
  · rw [hsplit]
    refine findState_first (fun q hq => ?_) hst hans post
    obtain ⟨st', hst', hg⟩ := hinv.live spot (List.mem_of_getElem? hspot) q (by rw [hsplit]; simp [hq])
    exact ⟨st', hst', Bool.eq_false_iff.mpr fun ha => hpre q hq st' hst' (hg.answers_iff.mp ha)⟩
  · rintro ⟨st', hst', _, _, hfilter⟩
    obtain rfl := Option.some.inj (hst.symm.trans hst')
    have hall := List.filter_eq_self.mp (hfilter.symm.trans hn)
    rw [hall elem helem] at hfail
    cases hfail

theorem Found.exec {A : Allocator DfaState} {d : Dfa} {c : Call} {p : Nat} (h : Found d c p)
    (hne : c.nodes ≠ []) (err : RegErrcode) : c.exec A err d = some (d, p, err) := by
  obtain ⟨spot, hspot, hfind⟩ := h
  rw [Call.exec_eq hne, acquire, hspot]
  simp only [Option.bind_eq_bind, Option.bind_some, hfind]

section Growing

variable {A : Allocator DfaState} (hA : ∀ n, A.fails n = false)
include hA

/-- A call that is not confused returns what was asked for. -/
theorem exec_found {d : Dfa} {c : Call} (hinv : Inv d) (hv : c.Valid d.nodes)
    (hne : c.nodes ≠ []) (err : RegErrcode) :
    ∃ d' p, c.exec A err d = some (d', p, err) ∧ Found d' c p ∧ Grows d d' ∧ Inv d' ∧
      (Returns d' c p ↔ ¬ Confused d c) := by
  by_cases hconf : Confused d c
  · obtain ⟨p, hfound, hwrong⟩ := hconf.found hinv
    exact ⟨d, p, hfound.exec hne err, hfound, Grows.refl d, hinv,
      iff_of_false hwrong (not_not.mpr hconf)⟩
  · have hidx := hinv.idx_lt c.hash
    have hspot := List.getElem?_eq_getElem hidx
    have hlive : ∀ p ∈ d.stateTable[c.hash &&& d.stateHashMask].array,
        ∃ st, d.mem.heap.get p = some st := fun p hp =>
      let ⟨st, hst, _⟩ := hinv.live _ (List.getElem_mem hidx) p hp
      ⟨st, hst⟩
    rcases findState_cases (f := c.answers) hlive with
      ⟨hnone, hall⟩ | ⟨pre, p, post, st, hsplit, hfind, hst, hans, hpre⟩
    · obtain ⟨d', p, st, hcreate, hadd, hans, hgood, hgives⟩ := create_added hA hinv hv
      obtain ⟨alloc, htable⟩ := hadd.bucket _ hspot
      have hfound : Found d' c p := by
        refine ⟨⟨alloc, d.stateTable[c.hash &&& d.stateHashMask].array ++ [p]⟩, ?_, ?_⟩
        · rw [hadd.grows.mask, htable, List.getElem?_set_self hidx]
        · refine findState_first (fun q hq => ?_) hadd.state hans []
          obtain ⟨st', hst'⟩ := hlive q hq
          exact ⟨st', hadd.grows.heap q st' hst', hall q hq st' hst'⟩
      refine ⟨d', p, ?_, hfound, hadd.grows, hadd.inv hinv hgood,
        iff_of_true ⟨st, hadd.state, hadd.grows.nodes ▸ hgives⟩ hconf⟩
      rw [Call.exec_eq hne, acquire, hspot]
      simp only [Option.bind_eq_bind, Option.bind_some, hnone, hcreate, if_neg hadd.live]
    · have hfound : Found d c p := ⟨_, hspot, hfind⟩
      refine ⟨d, p, hfound.exec hne err, hfound, Grows.refl d, hinv, iff_of_true ?_ hconf⟩
      exact ⟨st, hst, (gives_or_confused hinv hspot hsplit hst hans hpre).resolve_right hconf⟩

theorem step_grows {d : Dfa} {c : Call} (hinv : Inv d) (hv : c.Valid d.nodes) :
    ∃ d', c.step A d = some d' ∧ Grows d d' ∧ Inv d' := by
  unfold Call.step
  by_cases hne : c.nodes = []
  · rw [Call.exec_nil hne]
    exact ⟨d, rfl, Grows.refl d, hinv⟩
  · obtain ⟨d', p, hexec, _, hgrows, hinv', _⟩ := exec_found hA hinv hv hne REG_NOERROR
    rw [hexec]
    exact ⟨d', rfl, hgrows, hinv'⟩

/-- No history of calls goes wrong, and the table only grows. -/
theorem run_grows {d : Dfa} (hinv : Inv d) {calls : List Call}
    (hv : ∀ c ∈ calls, c.Valid d.nodes) :
    ∃ d', run (fun d (c : Call) => c.step A d) d calls = some d' ∧ Grows d d' ∧ Inv d' := by
  induction calls generalizing d with
  | nil => exact ⟨d, rfl, Grows.refl d, hinv⟩
  | cons c calls ih =>
    rw [List.forall_mem_cons] at hv
    obtain ⟨d₁, hstep, hgrows, hinv₁⟩ := step_grows hA hinv hv.1
    obtain ⟨d', hrun, hgrows', hinv'⟩ := ih hinv₁ (hgrows.nodes ▸ hv.2)
    exact ⟨d', by rw [run_cons, hstep, Option.bind_some, hrun], hgrows.trans hgrows', hinv'⟩

end Growing

/-! ## Every history -/

/-- A table without states. -/
def Empty (d : Dfa) : Prop :=
  d.stateTable.length = d.stateHashMask + 1 ∧ ∀ spot ∈ d.stateTable, spot.array = []

theorem Empty.inv {d : Dfa} (h : Empty d) : Inv d :=
  ⟨h.1, fun spot hspot p hp => by
    rw [h.2 spot hspot] at hp
    cases hp⟩

/-- After every history of calls, a call returns the state that was asked for exactly when it is
    not confused; and whatever calls come after it, the same call then returns the same state. -/
theorem returns_iff {A : Allocator DfaState} (hA : ∀ n, A.fails n = false) {d₀ : Dfa}
    (hempty : Empty d₀) {before : List Call} (hbefore : ∀ c ∈ before, c.Valid d₀.nodes) {c : Call}
    (hv : c.Valid d₀.nodes) (hne : c.nodes ≠ []) (err : RegErrcode) :
    ∃ d d' p, run (fun d (c : Call) => c.step A d) d₀ before = some d ∧
      c.exec A err d = some (d', p, err) ∧ (Returns d' c p ↔ ¬ Confused d c) ∧
      ∀ after : List Call, (∀ c ∈ after, c.Valid d₀.nodes) →
        ∃ d'', run (fun d (c : Call) => c.step A d) d' after = some d'' ∧
          c.exec A err d'' = some (d'', p, err) := by
  obtain ⟨d, hrun, hgrows, hinv⟩ := run_grows hA hempty.inv hbefore
  rw [← hgrows.nodes] at hv
  obtain ⟨d', p, hexec, hfound, hgrows', hinv', hiff⟩ := exec_found hA hinv hv hne err
  refine ⟨d, d', p, hrun, hexec, hiff, fun after hafter => ?_⟩
  rw [← hgrows.nodes, ← hgrows'.nodes] at hafter
  obtain ⟨d'', hrun', hgrows'', _⟩ := run_grows hA hinv' hafter
  exact ⟨d'', hrun', (hfound.grows hgrows'').exec hne err⟩

/-- A DFA with one node, a character that must come behind a word, and an empty table. -/
def wordDfa : Dfa where
  nodes := [{ type := .character, constraint := PREV_WORD_CONSTRAINT, acceptMb := false }]
  stateTable := List.replicate 4 { alloc := 0, array := [] }
  stateHashMask := 3
  mem := { heap := Heap.empty, calls := 0 }

theorem wordDfa_empty : Empty wordDfa := by
  refine ⟨rfl, fun spot hspot => ?_⟩
  rw [List.eq_of_mem_replicate hspot]

theorem wordDfa_valid {c : Call} (hc : c = .state [0] ∨ c = .context [0] 0) :
    c.Valid wordDfa.nodes := by
  rcases hc with rfl | rfl <;>
    exact ⟨fun elem helem => List.mem_singleton.mp helem ▸ Nat.zero_lt_one, by simp⟩

/-- The first call, and what the same call gives later on. -/
theorem returns_iff_first :
    ∃ d d' p, run (fun d (c : Call) => c.step (Allocator.bump _ fun _ => false) d) wordDfa [] =
        some d ∧
      (Call.context [0] 0).exec (Allocator.bump _ fun _ => false) REG_NOERROR d =
        some (d', p, REG_NOERROR) ∧
      (Returns d' (.context [0] 0) p ↔ ¬ Confused d (.context [0] 0)) ∧
      ∀ after : List Call, (∀ c ∈ after, c.Valid wordDfa.nodes) →
        ∃ d'', run (fun d (c : Call) => c.step (Allocator.bump _ fun _ => false) d) d' after =
            some d'' ∧
          (Call.context [0] 0).exec (Allocator.bump _ fun _ => false) REG_NOERROR d'' =
            some (d'', p, REG_NOERROR) :=
  returns_iff (fun _ => rfl) wordDfa_empty (by simp) (wordDfa_valid (.inr rfl))
    (List.cons_ne_nil 0 []) REG_NOERROR

/-- Behind `re_acquire_state` of the node, the call for context zero returns the state that
    keeps it. -/
theorem returns_confused :
    ¬ ∀ (A : Allocator DfaState) (d₀ : Dfa) (before : List Call) (c : Call),
      (∀ n, A.fails n = false) → Empty d₀ → (∀ c ∈ before, c.Valid d₀.nodes) →
      c.Valid d₀.nodes → c.nodes ≠ [] →
      ∃ d d' p, run (fun d (c : Call) => c.step A d) d₀ before = some d ∧
        c.exec A REG_NOERROR d = some (d', p, REG_NOERROR) ∧ Returns d' c p := by
  intro h
  obtain ⟨d, d', p, hrun, hexec, st, hst, _, _, hnodes⟩ :=
    h (Allocator.bump _ fun _ => false) wordDfa [.state [0]] (.context [0] 0) (fun _ => rfl)
      wordDfa_empty (fun c hc => wordDfa_valid (.inl (List.mem_singleton.mp hc)))
      (wordDfa_valid (.inr rfl)) (List.cons_ne_nil 0 [])
  have hkept : ((run (fun d (c : Call) => c.step (Allocator.bump _ fun _ => false) d) wordDfa
      [.state [0]]).bind fun d =>
        ((Call.context [0] 0).exec (Allocator.bump _ fun _ => false) REG_NOERROR d).bind fun r =>
          (r.1.mem.heap.get r.2.1).map fun st => (st.nodes, r.1.nodes.map Token.constraint)) =
      some ([0], [PREV_WORD_CONSTRAINT]) := by decide +kernel
  rw [hrun, Option.bind_some, hexec, Option.bind_some, hst] at hkept
  obtain ⟨hn, hd⟩ := Prod.mk.inj (Option.some.inj hkept)
  have hfail : satisfiesPrev d'.nodes 0 0 = false := by
    cases hdn : d'.nodes with
    | nil =>
      rw [hdn] at hd
      cases hd
    | cons node rest =>
      rw [hdn] at hd
      have hc : node.constraint = PREV_WORD_CONSTRAINT := (List.cons.inj hd).1
      show (!notSatisfyPrevConstraint node.constraint 0) = false
      rw [hc]
      rfl
  rw [hn, List.filter_cons_of_neg (Bool.eq_false_iff.mp hfail)] at hnodes
  cases hnodes

end Librecompat.Regex
