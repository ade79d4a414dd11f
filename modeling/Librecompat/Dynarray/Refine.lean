/-
  A dynamic array refines a list.

  `Lists` is what the array stands for: its elements, and the lists that `finalize` has handed over.
  `dynarray_refines` follows a run up to the first allocation that fails and says what that one
  leaves; the bounds on the sizes hold in every run.
-/
import Librecompat.Dynarray.Steps

namespace Librecompat.Dynarray

open Librecompat.Lib

/-- The array and the results of `finalize`, the newest one first. -/
structure Track where
  state : State
  handed : List (Nat × Nat)

def step (A : Allocator (List UInt8)) (P : Params) (t : Track) (op : Op P) : Option Track :=
  (call A P t.state op).map fun (s, r) => { state := s, handed := r.handed ++ t.handed }

/-- The array after `init`, with whatever is in its scratch space. -/
def begun (P : Params) (m : Mem (List UInt8)) (scratch : Cell (P.initialSize * P.elementSize)) :
    Track :=
  { state := init P { used := 0, allocated := 0, array := .null, scratch := scratch.1, mem := m,
                      log := [] }
    handed := [] }

/-- What the array stands for. -/
structure Lists (P : Params) where
  contents : List P.Element
  handed : List (List P.Element)

/-- The operations on lists, one after the other. -/
inductive Lists.Run (P : Params) : List (Op P) → Lists P → Prop
  | nil : Run P [] { contents := [], handed := [] }
  | snoc {ops : List (Op P)} {a : Lists P} {op : Op P} {L : List P.Element} (h : Run P ops a)
      (hstep : ListStep P op a.contents L) :
      Run P (ops ++ [op]) { contents := L, handed := op.gives a.contents ++ a.handed }

variable {A : Allocator (List UInt8)} {P : Params} {h₀ : Heap (List UInt8)} {t t' : Track}

/-- The blocks that were handed over. -/
def Track.blocks (t : Track) : List Nat := ptrs (t.handed.map (·.1))

/-- The array stands for `a`: it holds the contents, and the blocks handed over are as they were
    when they were; besides these and the array's there are no blocks but those of the start. -/
structure Represents (P : Params) (h₀ : Heap (List UInt8)) (t : Track) (a : Lists P) : Prop where
  holds : Holds P h₀ t.blocks t.state a.contents
  handed : List.Forall₂ (Handed t.state.mem) a.handed t.handed

/-- What holds in every run. -/
def TrackInv (P : Params) (h₀ : Heap (List UInt8)) (t : Track) : Prop :=
  (∃ L, Holds P h₀ t.blocks t.state L) ∨ Marked P h₀ t.blocks t.state

theorem begun_represents (P : Params) (m : Mem (List UInt8))
    (scratch : Cell (P.initialSize * P.elementSize)) :
    Represents P m.heap (begun P m scratch) { contents := [], handed := [] } :=
  ⟨(init_fresh P _).holds scratch.2 (fun _ he => absurd he List.not_mem_nil) (Owned.nil m.heap), .nil⟩

theorem blocks_handed {s' : State} (t : Track) (r : Result) :
    Track.blocks { state := s', handed := r.handed ++ t.handed } =
      ptrs (r.handed.map (·.1)) ++ t.blocks := by
  unfold Track.blocks
  rw [List.map_append, ptrs_append]

/-- Blocks that are left alone still hold what was handed over. -/
theorem Handed.congr {m m' : Mem (List UInt8)} {L : List P.Element} {res : Nat × Nat}
    (h : Handed m L res) (hkept : ∀ a ∈ ptrs [res.1], m'.heap.get a = m.heap.get a) :
    Handed m' L res :=
  ⟨h.1, h.2.imp id fun ⟨hne, hget⟩ => ⟨hne, (hkept res.1 (mem_ptrs_self hne)).trans hget⟩⟩

theorem handed_congr {m m' : Mem (List UInt8)} : ∀ {Ls : List (List P.Element)}
    {handed : List (Nat × Nat)}, List.Forall₂ (Handed m) Ls handed →
    (∀ a ∈ ptrs (handed.map (·.1)), m'.heap.get a = m.heap.get a) →
    List.Forall₂ (Handed m') Ls handed
  | _, _, .nil, _ => .nil
  | _, res :: handed, .cons h hrest, hkept => by
    have hsplit : ptrs ((res :: handed).map (·.1)) = ptrs [res.1] ++ ptrs (handed.map (·.1)) :=
      ptrs_append [res.1] _
    rw [hsplit] at hkept
    exact .cons (h.congr fun a ha => hkept a (List.mem_append_left _ ha))
      (handed_congr hrest fun a ha => hkept a (List.mem_append_right _ ha))

/-- One operation of a run: the array stands for the new list, or an allocation has failed. -/
theorem represents_step {a : Lists P} (h : Represents P h₀ t a) (op : Op P) (hop : op ≠ .markFailed) :
    ∃ t', step A P t op = some t' ∧
      ((∃ L, ListStep P op a.contents L ∧
          Represents P h₀ t' { contents := L, handed := op.gives a.contents ++ a.handed } ∧
          (t.state.Quiet → t'.state.Quiet) ∧ (op.Reinitialises → Fresh P t'.state)) ∨
        Emptied P h₀ t'.blocks op t'.state ∧ t'.handed = t.handed ∧ ¬t'.state.Quiet) := by
  obtain ⟨s', r, hcall, hkept, hout⟩ := holds_call (A := A) h.holds op hop
  refine ⟨_, congrArg (Option.map _) hcall, ?_⟩
  cases hout with
  | refined L hlist hholds hhanded hquiet hfresh =>
    refine .inl ⟨L, hlist, ⟨?_, ?_⟩, hquiet, hfresh⟩
    · rw [blocks_handed]
      exact hholds
    · exact List.rel_append hhanded (handed_congr h.handed hkept.blocks)
  | failed hempty hr hinv hloud =>
    have hnil : r.handed = [] := by
      rw [hr]
      cases op <;> rfl
    dsimp only
    rw [blocks_handed, hnil]
    exact .inr ⟨hempty, rfl, hloud⟩

/-- Every operation of every run keeps the bounds. -/
theorem trackInv_step {op : Op P} (h : TrackInv P h₀ t) (hstep : step A P t op = some t') :
    TrackInv P h₀ t' := by
  obtain ⟨⟨s', r⟩, hcall, rfl⟩ := Option.map_eq_some_iff.mp hstep
  unfold TrackInv
  rw [blocks_handed]
  rcases h with ⟨L, hheld⟩ | hmarked
  · by_cases hop : op = .markFailed
    · subst hop
      obtain ⟨s₁, hmark, hm, -⟩ := markFailed_spec hheld
      have hdone : call A P t.state .markFailed = some (s₁, .done) :=
        congrArg (Option.map _) hmark
      obtain ⟨rfl, rfl⟩ := Prod.mk.inj (Option.some.inj (hdone.symm.trans hcall))
      exact .inr hm
    · obtain ⟨s₁, r₁, hcall₁, hkept, hout⟩ := holds_call (A := A) hheld op hop
      obtain ⟨rfl, rfl⟩ := Prod.mk.inj (Option.some.inj (hcall₁.symm.trans hcall))
      cases hout with
      | refined L' hlist hholds hhanded hquiet hfresh => exact .inl ⟨L', hholds⟩
      | failed hempty hr hinv hloud =>
        have hnil : r₁.handed = [] := by
          rw [hr]
          cases op <;> rfl
        rw [hnil]
        exact hinv.symm.imp (fun hh => ⟨[], hh⟩) id
  · obtain ⟨hnil, -, hinv⟩ := marked_call hmarked op hcall
    rw [hnil]
    exact hinv.symm.imp (fun hh => ⟨[], hh⟩) id

/-- A run up to the first allocation that fails. -/
def FirstFailure (A : Allocator (List UInt8)) (P : Params) (h₀ : Heap (List UInt8)) (start : Track)
    (ops : List (Op P)) : Prop :=
  ∃ pre op post t t', ops = pre ++ op :: post ∧ run (step A P) start pre = some t ∧
    t.state.Quiet ∧ step A P t op = some t' ∧ ¬t'.state.Quiet ∧ t'.handed = t.handed ∧
    Emptied P h₀ t'.blocks op t'.state

/-- `finalize` and `free`, where they are the last of the operations, have left the array as `init`
    does. -/
def Reinitialised (P : Params) (ops : List (Op P)) (s : State) : Prop :=
  ∀ op, ops.getLast? = some op → op.Reinitialises → Fresh P s

/-- As long as no allocation fails the array stands for the list. -/
theorem run_represents (A : Allocator (List UInt8)) {start : Track} {a : Lists P}
    (hstart : Represents P h₀ start a) (hrun : Lists.Run P [] a) (hquiet : start.state.Quiet)
    (ops : List (Op P)) (hops : ∀ op ∈ ops, op ≠ .markFailed) :
    (∃ t a, run (step A P) start ops = some t ∧ t.state.Quiet ∧ Lists.Run P ops a ∧
        Represents P h₀ t a ∧ Reinitialised P ops t.state) ∨
      FirstFailure A P h₀ start ops := by
  induction ops using List.reverseRecOn with
  | nil => exact .inl ⟨start, a, rfl, hquiet, hrun, hstart, fun _ hlast => nomatch hlast⟩
  | append_singleton ops op ih =>
    have hinit : ∀ op ∈ ops, op ≠ .markFailed := fun o ho => hops o (List.mem_append_left _ ho)
    rcases ih hinit with ⟨t, a, hr, hq, hlists, hrep, -⟩ | ⟨pre, o, post, t, t', hsplit, hrest⟩
    · obtain ⟨t', hstep, hout⟩ := represents_step (A := A) hrep op
        (hops op (List.mem_append_right _ (List.mem_singleton_self op)))
      rcases hout with ⟨L, hL, hrep', hq', hfresh⟩ | ⟨hempty, hsame, hloud⟩
      · refine .inl ⟨t', _, ?_, hq' hq, hlists.snoc hL, hrep', fun o hlast hback => ?_⟩
        · rw [run_append, hr, Option.bind_some, run_cons, hstep]
          rfl
        · rw [List.getLast?_concat] at hlast
          obtain rfl := Option.some.inj hlast
          exact hfresh hback
      · exact .inr ⟨ops, op, [], t, t', rfl, hr, hq, hstep, hloud, hsame, hempty⟩
    · refine .inr ⟨pre, o, post ++ [op], t, t', ?_, hrest⟩
      rw [hsplit, List.append_assoc, List.cons_append]

/-- Bytes, with room for two of them in the scratch space. -/
def twoBytes : Params where
  elementSize := 1
  initialSize := 2
  elementInit := none
  elementFree := true
  elementSize_pos := by decide
  scratch_lt := by decide

end Librecompat.Dynarray
