/-
  The operations on a dynamic array as steps, and what each one does in any state.

  `holds_call` is about an array that holds a list, `marked_call` about one that is marked as
  failed. A step also records what `finalize` has handed over.
-/
import Librecompat.Lib.Run
import Librecompat.Dynarray.Calls

namespace Librecompat.Dynarray

open Librecompat.Lib

/-- The operations. With `emplace` goes what the caller stores at the place that it gets. -/
inductive Op (P : Params)
  | add (item : P.Element)
  | emplace (item : Option P.Element)
  | resize (size : UInt64)
  | removeLast
  | clear
  | finalize
  | free
  | markFailed

inductive Result
  | done
  | place (i : Option Nat)
  | ok (b : Bool)
  | final (res : Option (Nat × Nat))
  deriving DecidableEq

/-- `*emplace (list) = item;` -/
def emplaceItem (A : Allocator (List UInt8)) (P : Params) (item : P.Element) (s : State) :
    Option (State × Option Nat) := do
  let (s, i) ← emplace A P s
  match i with
  | some i => (s.poke (i * P.elementSize) item.1).map fun s => (s, some i)
  | none => some (s, none)

def call (A : Allocator (List UInt8)) (P : Params) (s : State) : Op P → Option (State × Result)
  | .add item => (add A P item s).map fun s => (s, .done)
  | .emplace none => (emplace A P s).map fun (s, i) => (s, .place i)
  | .emplace (some item) => (emplaceItem A P item s).map fun (s, i) => (s, .place i)
  | .resize size => (resize A P size s).map fun (s, b) => (s, .ok b)
  | .removeLast => (removeLast P s).map fun s => (s, .done)
  | .clear => (clear P s).map fun s => (s, .done)
  | .finalize => (finalize A P s).map fun (s, res) => (s, .final res)
  | .free => (freeList P s).map fun s => (s, .done)
  | .markFailed => (markFailed P s).map fun s => (s, .done)

/-- The array and the length that a result hands over. -/
def Result.handed : Result → List (Nat × Nat)
  | .final (some res) => [res]
  | .final none | .done | .place _ | .ok _ => []

/-- How an operation that failed reports it. -/
def Op.failure {P : Params} : Op P → Result
  | .add _ | .removeLast | .clear | .free | .markFailed => .done
  | .emplace _ => .place none
  | .resize _ => .ok false
  | .finalize => .final none

variable {A : Allocator (List UInt8)} {P : Params} {h₀ : Heap (List UInt8)} {G : List Nat}
  {s s' : State} {L : List P.Element}

/-! ## Lists -/

/-- The operations on lists. -/
def ListStep (P : Params) : Op P → List P.Element → List P.Element → Prop
  | .add item, L, L' => L' = L ++ [item]
  | .emplace (some item), L, L' => L' = L ++ [item]
  | .emplace none, L, L' => ∃ e, L' = L ++ [e] ∧ ∀ f, P.fill = some f → e = f
  | .resize size, L, L' => Resized P size.toNat L L'
  | .removeLast, L, L' => L' = L.dropLast
  | .clear, _, L' | .finalize, _, L' | .free, _, L' => L' = []
  | .markFailed, _, _ => False

/-- The list that an operation hands over. -/
def Op.gives : Op P → List P.Element → List (List P.Element)
  | .finalize, L => [L]
  | _, _ => []

/-- The operations that leave the array as `init` does. -/
def Op.Reinitialises (op : Op P) : Prop := op = .finalize ∨ op = .free

/-! ## An array that holds a list -/

/-- The array after a failed allocation of `op`: empty, without a block, and marked as failed or,
    for `finalize`, reinitialised. -/
structure Emptied (P : Params) (h₀ : Heap (List UInt8)) (G : List Nat) (op : Op P) (s' : State) :
    Prop where
  used : s'.used = 0
  array : s'.array = P.scratchPtr
  owned : Owned h₀ s'.mem.heap G
  marked : op ≠ .finalize → hasFailed s' = true
  fresh : op = .finalize → Fresh P s'

theorem Marked.noBlock (h : Marked P h₀ G s) : Owned h₀ s.mem.heap G := by
  have howned := h.toBase.owned
  rw [h.array, P.blocks_scratchPtr] at howned
  exact howned

theorem Marked.failed (h : Marked P h₀ G s) : hasFailed s = true := decide_eq_true h.allocated

theorem FailedBy.emptied {op : Op P} (h : FailedBy P h₀ G s s') (hop : op ≠ .finalize) :
    Emptied P h₀ G op s' :=
  ⟨h.zero, h.array, h.toMarked.noBlock, fun _ => h.toMarked.failed, fun hf => absurd hf hop⟩

/-- What a call on an array that holds `L` has come to. -/
inductive Outcome (P : Params) (h₀ : Heap (List UInt8)) (G : List Nat) (op : Op P) (s : State)
    (L : List P.Element) (s' : State) (r : Result) : Prop
  | refined (L' : List P.Element) (hlist : ListStep P op L L')
      (hholds : Holds P h₀ (ptrs (r.handed.map (·.1)) ++ G) s' L')
      (hhanded : List.Forall₂ (Handed s'.mem) (op.gives L) r.handed)
      (hquiet : s.Quiet → s'.Quiet) (hfresh : op.Reinitialises → Fresh P s')
  | failed (hempty : Emptied P h₀ G op s') (hr : r = op.failure)
      (hinv : Marked P h₀ G s' ∨ Holds P h₀ G s' []) (hloud : ¬s'.Quiet)

theorem holds_emplaceItem (h : Holds P h₀ G s L) (item : P.Element) :
    ∃ s' i, emplaceItem A P item s = some (s', i) ∧
      (i = some L.length ∧ Holds P h₀ G s' (L ++ [item]) ∧ Kept G s s' ∧ (s.Quiet → s'.Quiet) ∨
        i = none ∧ FailedBy P h₀ G s s') := by
  obtain ⟨s₁, i, hcall, hi⟩ := emplace_spec (A := A) h
  unfold emplaceItem
  rw [hcall, Option.bind_eq_bind, Option.bind_some]
  dsimp only
  rcases hi with ⟨rfl, ⟨e, hheld, -⟩, hkept, hquiet⟩ | ⟨rfl, hfailed⟩
  · obtain ⟨s', hpoke, hheld', hkept', hlog⟩ := poke_holds L [item] [e] []
      (by rw [List.append_nil]; exact hheld) rfl (List.cons_ne_nil e [])
    rw [flat_singleton] at hpoke
    rw [List.append_nil] at hheld'
    exact ⟨s', _, congrArg (Option.map _) hpoke, .inl ⟨rfl, hheld', hkept.trans hkept', fun hq =>
      quiet_of_log hlog (hquiet hq)⟩⟩
  · exact ⟨s₁, none, rfl, .inr ⟨rfl, hfailed⟩⟩

theorem holds_call (h : Holds P h₀ G s L) (op : Op P) (hop : op ≠ .markFailed) :
    ∃ s' r, call A P s op = some (s', r) ∧ Kept G s s' ∧ Outcome P h₀ G op s L s' r := by
  cases op with
  | add item =>
    obtain ⟨s', hcall, hs'⟩ := add_spec (A := A) h item
    refine ⟨s', .done, congrArg (Option.map _) hcall, ?_⟩
    rcases hs' with ⟨hheld, hkept, hquiet⟩ | hfailed
    · exact ⟨hkept, .refined _ rfl hheld .nil hquiet (by simp [Op.Reinitialises])⟩
    · exact ⟨hfailed.toKept, .failed (hfailed.emptied nofun) rfl (.inl hfailed.toMarked) hfailed.loud⟩
  | emplace item =>
    cases item with
    | none =>
      obtain ⟨s', i, hcall, hs'⟩ := emplace_spec (A := A) h
      refine ⟨s', .place i, congrArg (Option.map _) hcall, ?_⟩
      rcases hs' with ⟨-, ⟨e, hheld, hfill⟩, hkept, hquiet⟩ | ⟨rfl, hfailed⟩
      · exact ⟨hkept, .refined _ ⟨e, rfl, hfill⟩ hheld .nil hquiet (by simp [Op.Reinitialises])⟩
      · exact ⟨hfailed.toKept,
          .failed (hfailed.emptied nofun) rfl (.inl hfailed.toMarked) hfailed.loud⟩
    | some item =>
      obtain ⟨s', i, hcall, hs'⟩ := holds_emplaceItem (A := A) h item
      refine ⟨s', .place i, congrArg (Option.map _) hcall, ?_⟩
      rcases hs' with ⟨-, hheld, hkept, hquiet⟩ | ⟨rfl, hfailed⟩
      · exact ⟨hkept, .refined _ rfl hheld .nil hquiet (by simp [Op.Reinitialises])⟩
      · exact ⟨hfailed.toKept,
          .failed (hfailed.emptied nofun) rfl (.inl hfailed.toMarked) hfailed.loud⟩
  | resize size =>
    obtain ⟨s', b, hcall, hs'⟩ := resize_spec (A := A) h size
    refine ⟨s', .ok b, congrArg (Option.map _) hcall, ?_⟩
    rcases hs' with ⟨-, ⟨L', hL', hheld⟩, hkept, hquiet⟩ | ⟨rfl, hfailed⟩
    · exact ⟨hkept, .refined L' hL' hheld .nil hquiet (by simp [Op.Reinitialises])⟩
    · exact ⟨hfailed.toKept,
        .failed (hfailed.emptied nofun) rfl (.inl hfailed.toMarked) hfailed.loud⟩
  | removeLast =>
    obtain ⟨s', hcall, hheld, hkept, hquiet⟩ := removeLast_spec h
    exact ⟨s', .done, congrArg (Option.map _) hcall, hkept,
      .refined _ rfl hheld .nil hquiet (by simp [Op.Reinitialises])⟩
  | clear =>
    obtain ⟨s', hcall, hheld, hkept, hquiet⟩ := clear_spec h
    exact ⟨s', .done, congrArg (Option.map _) hcall, hkept,
      .refined _ rfl hheld .nil hquiet (by simp [Op.Reinitialises])⟩
  | finalize =>
    obtain ⟨s', r, hcall, hfresh, hkept, hr⟩ := finalize_spec (A := A) h
    refine ⟨s', .final r, congrArg (Option.map _) hcall, hkept, ?_⟩
    rcases hr with ⟨res, rfl, hhanded, hheld, hquiet⟩ | ⟨rfl, hheld, hloud⟩
    · exact .refined _ rfl hheld (.cons hhanded .nil) hquiet fun _ => hfresh
    · have howned := hheld.owned
      rw [hfresh.array, P.blocks_scratchPtr] at howned
      exact .failed ⟨hfresh.used, hfresh.array, howned, fun hne => absurd rfl hne, fun _ => hfresh⟩ rfl
        (.inr hheld) hloud
  | free =>
    obtain ⟨s', hcall, hfresh, hheld, hkept, hquiet⟩ := freeList_spec h
    exact ⟨s', .done, congrArg (Option.map _) hcall, hkept,
      .refined _ rfl hheld .nil hquiet fun _ => hfresh⟩
  | markFailed => exact absurd rfl hop

/-! ## An array that is marked -/

/-- Freeing elements, where it goes through, changes nothing but the log. -/
theorem freeLoop_some : ∀ {n i : Nat} {s s' : State}, freeLoop P i n s = some s' →
    ∃ evs, s' = { s with log := s.log ++ evs } ∧ ∀ e ∈ evs, e.Exact
  | 0, _, s, s', h => ⟨[], by rw [List.append_nil]; exact (Option.some.inj h).symm,
      fun _ he => absurd he List.not_mem_nil⟩
  | n + 1, i, s, s', h => by
    unfold freeLoop at h
    obtain ⟨blk, -, h⟩ := Option.bind_eq_some_iff.mp h
    obtain ⟨e, -, h⟩ := Option.bind_eq_some_iff.mp h
    obtain ⟨evs, rfl, hevs⟩ := freeLoop_some h
    exact ⟨.elementFree e :: evs, by simp [State.note], List.forall_mem_cons.mpr ⟨trivial, hevs⟩⟩

theorem freeElements_some {n i : Nat} (h : freeElements P i n s = some s') :
    ∃ evs, s' = { s with log := s.log ++ evs } ∧ ∀ e ∈ evs, e.Exact := by
  unfold freeElements at h
  split at h
  · exact freeLoop_some h
  · exact ⟨[], by rw [List.append_nil]; exact (Option.some.inj h).symm,
      fun _ he => absurd he List.not_mem_nil⟩

theorem Marked.setUsed (h : Marked P h₀ G s) {n : Nat} (hn : n ≤ errorMarker) {evs : List Event}
    (hevs : ∀ e ∈ evs, e.Exact) : Marked P h₀ G { s with used := n, log := s.log ++ evs } :=
  ⟨h.toBase.congr rfl rfl rfl fun e he => (List.mem_append.mp he).elim (h.exact e) (hevs e),
    h.array, h.allocated, hn⟩

theorem Marked.poke (h : Marked P h₀ G s) {off : Nat} {bs : List UInt8}
    (hpoke : s.poke off bs = some s') : Marked P h₀ G s' ∧ Kept G s s' := by
  obtain ⟨blk, hblk, hpoke⟩ := Option.bind_eq_some_iff.mp hpoke
  obtain ⟨blk', hwrite, hset⟩ := Option.bind_eq_some_iff.mp hpoke
  obtain ⟨s₁, hset', hb, hw⟩ := setBlock_spec h.toBase hblk (length_writeAt hwrite)
  obtain rfl := Option.some.inj (hset'.symm.trans hset)
  exact ⟨⟨hb, hw.array.trans h.array, hw.allocated.trans h.allocated, hw.used ▸ h.used⟩, hw.toKept⟩

theorem Marked.initLoop (e : P.Element) : ∀ {n i : Nat} {s s' : State},
    Marked P h₀ G s → initLoop P e i n s = some s' → Marked P h₀ G s' ∧ Kept G s s'
  | 0, _, s, s', h, hloop => by
    obtain rfl := Option.some.inj hloop
    exact ⟨h, Kept.refl G s⟩
  | n + 1, i, s, s', h, hloop => by
    obtain ⟨s₁, hpoke, hloop⟩ := Option.bind_eq_some_iff.mp hloop
    obtain ⟨h₁, hkept₁⟩ := h.poke hpoke
    obtain ⟨h', hkept'⟩ := Marked.initLoop e h₁ hloop
    exact ⟨h', hkept₁.trans hkept'⟩

/-- The test for room is passed whatever the size is, as the marker is above all sizes. -/
theorem Marked.libcResize (h : Marked P h₀ G s) (size : UInt64) :
    libcResize A P size.toNat s = some ({ s with used := size.toNat }, true) := by
  have hlt := size.toNat_lt
  unfold Dynarray.libcResize
  rw [h.allocated, errorMarker, if_pos (by omega)]

theorem Marked.resizeUp (h : Marked P h₀ G s) {size : UInt64} {ok : Bool}
    (hcall : resizeUp A P size.toNat s = some (s', ok)) :
    ok = true ∧ Marked P h₀ G s' ∧ Kept G s s' := by
  have hlt := size.toNat_lt
  have hle : size.toNat ≤ errorMarker := by
    unfold errorMarker
    omega
  have hset : Marked P h₀ G { s with used := size.toNat } :=
    ⟨h.toBase.congr rfl rfl rfl h.exact, h.array, h.allocated, hle⟩
  have hsame : Kept G s { s with used := size.toNat } := ⟨fun _ _ => rfl, List.prefix_refl _⟩
  unfold Dynarray.resizeUp at hcall
  split at hcall
  · next e _ =>
    dsimp only at hcall
    rw [h.libcResize (A := A) size, Option.bind_eq_bind, Option.bind_some] at hcall
    dsimp only at hcall
    obtain ⟨s₁, hloop, heq⟩ := Option.map_eq_some_iff.mp hcall
    obtain ⟨rfl, rfl⟩ := Prod.mk.inj heq
    obtain ⟨hm, hkept⟩ := Marked.initLoop e hset hloop
    exact ⟨rfl, hm, hsame.trans hkept⟩
  · split at hcall
    · unfold libcResizeClear at hcall
      dsimp only at hcall
      rw [h.libcResize (A := A) size, Option.bind_eq_bind, Option.bind_some] at hcall
      dsimp only at hcall
      rw [if_pos rfl] at hcall
      obtain ⟨s₁, hpoke, heq⟩ := Option.bind_eq_some_iff.mp hcall
      obtain ⟨rfl, rfl⟩ := Prod.mk.inj (Option.some.inj heq)
      obtain ⟨hm, hkept⟩ := hset.poke hpoke
      exact ⟨rfl, hm, hsame.trans hkept⟩
    · rw [h.libcResize (A := A) size] at hcall
      obtain ⟨rfl, rfl⟩ := Prod.mk.inj (Option.some.inj hcall)
      exact ⟨rfl, hset, hsame⟩

/-- The block of a marked array is not on the heap, so there is nothing to free. -/
theorem Marked.freeArray (h : Marked P h₀ G s) : freeArray P s = some s := by
  have harray := h.array
  unfold Params.scratchPtr at harray
  unfold Dynarray.freeArray
  split at harray
  · next hpos => rw [if_pos hpos, if_neg (not_not_intro harray)]
  · next hpos => rw [if_neg hpos, State.freeBlock, harray]

/-- Freeing the elements and the array leaves it marked. -/
theorem Marked.freeAll (h : Marked P h₀ G s) {s₂ : State}
    (hcall : (freeElements P 0 s.used s).bind (Dynarray.freeArray P) = some s₂) :
    Marked P h₀ G s₂ ∧ Kept G s s₂ := by
  obtain ⟨s₁, hfree, harr⟩ := Option.bind_eq_some_iff.mp hcall
  obtain ⟨evs, rfl, hevs⟩ := freeElements_some hfree
  have hm := h.setUsed h.used hevs
  obtain rfl := Option.some.inj (hm.freeArray.symm.trans harr)
  exact ⟨hm, kept_log G s _ _⟩

theorem Marked.freeList (h : Marked P h₀ G s) (hcall : freeList P s = some s') :
    Holds P h₀ G s' [] ∧ Kept G s s' := by
  obtain ⟨s₁, h₁, hcall⟩ := Option.bind_eq_some_iff.mp hcall
  obtain ⟨s₂, h₂, hcall⟩ := Option.bind_eq_some_iff.mp hcall
  obtain rfl := Option.some.inj hcall
  obtain ⟨hm, hkept⟩ := h.freeAll (by rw [h₁, Option.bind_some, h₂])
  exact ⟨(init_fresh P s₂).holds hm.scratch hm.exact hm.noBlock, ⟨hkept.blocks, hkept.log⟩⟩

/-- What any call on a marked array that goes through leaves. -/
theorem marked_call (h : Marked P h₀ G s) (op : Op P) {r : Result}
    (hcall : call A P s op = some (s', r)) :
    r.handed = [] ∧ Kept G s s' ∧ (Marked P h₀ G s' ∨ Holds P h₀ G s' []) := by
  have hsame : ∀ {n : Nat} {evs : List Event}, n ≤ errorMarker → (∀ e ∈ evs, e.Exact) →
      Kept G s { s with used := n, log := s.log ++ evs } ∧
        Marked P h₀ G { s with used := n, log := s.log ++ evs } :=
    fun hn hevs => ⟨kept_log G s _ _, h.setUsed hn hevs⟩
  have hused := h.used
  cases op with
  | add item =>
    obtain ⟨s₁, hadd, heq⟩ := Option.map_eq_some_iff.mp hcall
    obtain ⟨rfl, rfl⟩ := Prod.mk.inj heq
    rw [add, if_pos h.failed] at hadd
    obtain rfl := Option.some.inj hadd
    exact ⟨rfl, Kept.refl G s, .inl h⟩
  | emplace item =>
    have hnone : emplace A P s = some (s, none) := if_pos h.failed
    cases item with
    | none =>
      obtain ⟨⟨s₁, i⟩, hemp, heq⟩ := Option.map_eq_some_iff.mp hcall
      obtain ⟨rfl, rfl⟩ := Prod.mk.inj heq
      obtain ⟨rfl, rfl⟩ := Prod.mk.inj (Option.some.inj (hnone.symm.trans hemp))
      exact ⟨rfl, Kept.refl G s, .inl h⟩
    | some item =>
      obtain ⟨⟨s₁, i⟩, hemp, heq⟩ := Option.map_eq_some_iff.mp hcall
      obtain ⟨rfl, rfl⟩ := Prod.mk.inj heq
      rw [emplaceItem, hnone] at hemp
      obtain ⟨rfl, rfl⟩ := Prod.mk.inj (Option.some.inj hemp)
      exact ⟨rfl, Kept.refl G s, .inl h⟩
  | resize size =>
    obtain ⟨⟨s₁, b⟩, hres, heq⟩ := Option.map_eq_some_iff.mp hcall
    obtain ⟨rfl, rfl⟩ := Prod.mk.inj heq
    unfold resize at hres
    split at hres
    · obtain ⟨⟨s₂, ok⟩, hup, hres⟩ := Option.bind_eq_some_iff.mp hres
      obtain ⟨rfl, hm, hkept⟩ := h.resizeUp hup
      obtain ⟨rfl, rfl⟩ := Prod.mk.inj (Option.some.inj hres)
      exact ⟨rfl, hkept, .inl hm⟩
    · obtain ⟨s₂, hfree, heq⟩ := Option.map_eq_some_iff.mp hres
      obtain ⟨rfl, rfl⟩ := Prod.mk.inj heq
      obtain ⟨evs, rfl, hevs⟩ := freeElements_some hfree
      obtain ⟨hkept, hm⟩ := hsame (n := size.toNat) (by omega) hevs
      exact ⟨rfl, hkept, .inl hm⟩
  | removeLast =>
    obtain ⟨s₁, hrem, heq⟩ := Option.map_eq_some_iff.mp hcall
    obtain ⟨rfl, rfl⟩ := Prod.mk.inj heq
    unfold removeLast at hrem
    split at hrem
    · obtain ⟨s₂, hfree, rfl⟩ := Option.map_eq_some_iff.mp hrem
      obtain ⟨evs, rfl, hevs⟩ := freeElements_some hfree
      obtain ⟨hkept, hm⟩ := hsame (n := s.used - 1) (by omega) hevs
      exact ⟨rfl, hkept, .inl hm⟩
    · obtain rfl := Option.some.inj hrem
      exact ⟨rfl, Kept.refl G s, .inl h⟩
  | clear =>
    obtain ⟨s₁, hclear, heq⟩ := Option.map_eq_some_iff.mp hcall
    obtain ⟨rfl, rfl⟩ := Prod.mk.inj heq
    obtain ⟨s₂, hfree, rfl⟩ := Option.map_eq_some_iff.mp hclear
    obtain ⟨evs, rfl, hevs⟩ := freeElements_some hfree
    obtain ⟨hkept, hm⟩ := hsame (n := 0) (Nat.zero_le _) hevs
    exact ⟨rfl, hkept, .inl hm⟩
  | finalize =>
    obtain ⟨⟨s₁, res⟩, hfin, heq⟩ := Option.map_eq_some_iff.mp hcall
    obtain ⟨rfl, rfl⟩ := Prod.mk.inj heq
    have hlibc : libcFinalize A P s = some (s, none) := if_pos h.failed
    rw [finalize, hlibc] at hfin
    obtain ⟨s₂, hfree, heq⟩ := Option.map_eq_some_iff.mp hfin
    obtain ⟨rfl, rfl⟩ := Prod.mk.inj heq
    obtain ⟨hheld, hkept⟩ := h.freeList hfree
    exact ⟨rfl, hkept, .inr hheld⟩
  | free =>
    obtain ⟨s₁, hfree, heq⟩ := Option.map_eq_some_iff.mp hcall
    obtain ⟨rfl, rfl⟩ := Prod.mk.inj heq
    obtain ⟨hheld, hkept⟩ := h.freeList hfree
    exact ⟨rfl, hkept, .inr hheld⟩
  | markFailed =>
    obtain ⟨s₁, hmark, heq⟩ := Option.map_eq_some_iff.mp hcall
    obtain ⟨rfl, rfl⟩ := Prod.mk.inj heq
    obtain ⟨s₂, h₂, hmark⟩ := Option.bind_eq_some_iff.mp hmark
    obtain ⟨s₃, h₃, hmark⟩ := Option.bind_eq_some_iff.mp hmark
    obtain rfl := Option.some.inj hmark
    obtain ⟨hm, hkept⟩ := h.freeAll (by rw [h₂, Option.bind_some, h₃])
    refine ⟨rfl, ⟨hkept.blocks, hkept.log⟩, .inl ⟨⟨hm.scratch, hm.exact, ?_⟩, rfl, rfl, Nat.zero_le _⟩⟩
    show Owned h₀ s₃.mem.heap (P.scratchPtr.blocks ++ G)
    rw [P.blocks_scratchPtr]
    exact hm.noBlock

end Librecompat.Dynarray
