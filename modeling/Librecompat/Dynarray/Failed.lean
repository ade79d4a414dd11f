/-
  The failed state of a dynamic array.

  The marker is the largest `size_t`, and `__libc_dynarray_resize` takes it for a capacity: resizing
  a failed array to a larger size goes through (`resize_revives`). `failed_absorbing` is about all
  runs without that.
-/
import Librecompat.Dynarray.Refine

namespace Librecompat.Dynarray

open Librecompat.Lib

variable {A : Allocator (List UInt8)} {P : Params} {h₀ : Heap (List UInt8)} {G : List Nat}
  {s s' : State} {t : Track}

/-- A failed array is not resized to a larger size. -/
def mild (t : Track) : Op P → Prop
  | .resize size => hasFailed t.state = true → size.toNat ≤ t.state.used
  | _ => True

instance (t : Track) (op : Op P) : Decidable (mild t op) :=
  match op with
  | .resize size => inferInstanceAs (Decidable (hasFailed t.state = true → size.toNat ≤ t.state.used))
  | .add _ | .emplace _ | .removeLast | .clear | .finalize | .free | .markFailed =>
    inferInstanceAs (Decidable True)

/-- A failed array that is empty. -/
structure Dead (P : Params) (h₀ : Heap (List UInt8)) (G : List Nat) (s : State) : Prop extends
    Marked P h₀ G s where
  zero : s.used = 0

theorem freeElements_zero (i : Nat) (s : State) : freeElements P i 0 s = some s := by
  unfold freeElements freeLoop
  split <;> rfl

theorem Dead.setUsed (h : Dead P h₀ G s) : Dead P h₀ G { s with used := 0 } :=
  ⟨⟨h.toBase.congr rfl rfl rfl h.exact, h.array, h.allocated, Nat.zero_le _⟩, rfl⟩

/-- No operation but `free` and `finalize` brings a dead array back. -/
theorem dead_call (h : Dead P h₀ G s) (op : Op P)
    (hmild : ∀ size, op = .resize size → size.toNat ≤ s.used) (hfree : op ≠ .free)
    (hfinal : op ≠ .finalize) :
    ∃ s' r, call A P s op = some (s', r) ∧ Dead P h₀ G s' ∧ r.handed = [] ∧
      ∀ i, r ≠ .place (some i) := by
  have hfailed := h.toMarked.failed
  have hzero := h.zero
  have hall : freeElements P 0 s.used s = some s := by
    rw [hzero]
    exact freeElements_zero 0 s
  cases op with
  | add item => exact ⟨s, .done, congrArg (Option.map _) (if_pos hfailed), h, rfl, by simp⟩
  | emplace item =>
    have hnone : emplace A P s = some (s, none) := if_pos hfailed
    cases item with
    | none => exact ⟨s, .place none, congrArg (Option.map _) hnone, h, rfl, by simp⟩
    | some item =>
      have hitem : emplaceItem A P item s = some (s, none) := by
        rw [emplaceItem, hnone]
        rfl
      exact ⟨s, .place none, congrArg (Option.map _) hitem, h, rfl, by simp⟩
  | resize size =>
    have hsize : size.toNat = 0 := by
      have := hmild size rfl
      omega
    have hcall : resize A P size s = some ({ s with used := 0 }, true) := by
      unfold resize
      rw [if_neg (by omega), hsize, hzero, freeElements_zero]
      rfl
    exact ⟨_, .ok true, congrArg (Option.map _) hcall, h.setUsed, rfl, by simp⟩
  | removeLast =>
    have hcall : removeLast P s = some s := if_neg (by omega)
    exact ⟨s, .done, congrArg (Option.map _) hcall, h, rfl, by simp⟩
  | clear =>
    have hcall : clear P s = some { s with used := 0 } := congrArg (Option.map _) hall
    exact ⟨_, .done, congrArg (Option.map _) hcall, h.setUsed, rfl, by simp⟩
  | finalize => exact absurd rfl hfinal
  | free => exact absurd rfl hfree
  | markFailed =>
    have hcall : markFailed P s =
        some { s with array := P.scratchPtr, used := 0, allocated := errorMarker } := by
      rw [markFailed, hall, Option.bind_eq_bind, Option.bind_some, h.toMarked.freeArray]
      rfl
    refine ⟨_, .done, congrArg (Option.map _) hcall,
      ⟨⟨h.toBase.congr rfl rfl h.array.symm h.exact, rfl, rfl, Nat.zero_le _⟩, rfl⟩, rfl, by simp⟩

/-- `free` and `finalize` reinitialise it. -/
theorem dead_freeList (h : Dead P h₀ G s) :
    ∃ s', freeList P s = some s' ∧ Holds P h₀ G s' [] := by
  have hall : freeList P s = some (init P s) := by
    rw [freeList, h.zero, freeElements_zero, Option.bind_eq_bind, Option.bind_some,
      h.toMarked.freeArray]
    rfl
  exact ⟨_, hall, (h.toMarked.freeList hall).1⟩

theorem dead_reinitialised (h : Dead P h₀ G s) (op : Op P) (hop : op = .free ∨ op = .finalize) :
    ∃ s' r, call A P s op = some (s', r) ∧ r.handed = [] ∧ Holds P h₀ G s' [] := by
  obtain ⟨s', hfree, hheld⟩ := dead_freeList h
  rcases hop with rfl | rfl
  · exact ⟨s', .done, congrArg (Option.map _) hfree, rfl, hheld⟩
  · have hlibc : libcFinalize A P s = some (s, none) := if_pos h.toMarked.failed
    have hcall : finalize A P s = some (s', none) := by
      rw [finalize, hlibc]
      exact congrArg (Option.map _) hfree
    exact ⟨s', .final none, congrArg (Option.map _) hcall, rfl, hheld⟩

/-! ## Runs -/

/-- The invariant of the runs in which no failed array is resized to a larger size. -/
def MildInv (P : Params) (h₀ : Heap (List UInt8)) (t : Track) : Prop :=
  (∃ L, Holds P h₀ t.blocks t.state L) ∨ Dead P h₀ t.blocks t.state

theorem mildInv_step (A : Allocator (List UInt8)) (t : Track) (op : Op P) (h : MildInv P h₀ t)
    (hop : mild t op) : ∃ t', step A P t op = some t' ∧ MildInv P h₀ t' := by
  rcases h with ⟨L, hheld⟩ | hdead
  · by_cases hmark : op = .markFailed
    · subst hmark
      obtain ⟨s', hcall, hm, hzero, -⟩ := markFailed_spec hheld
      have hdone : call A P t.state .markFailed = some (s', .done) :=
        congrArg (Option.map _) hcall
      exact ⟨_, congrArg (Option.map _) hdone, .inr ⟨hm, hzero⟩⟩
    · obtain ⟨s', r, hcall, -, hout⟩ := holds_call (A := A) hheld op hmark
      refine ⟨_, congrArg (Option.map _) hcall, ?_⟩
      unfold MildInv
      dsimp only
      rw [blocks_handed]
      cases hout with
      | refined L' hlist hholds hhanded hquiet hfresh => exact .inl ⟨L', hholds⟩
      | failed hempty hr hinv hloud =>
        have hnil : r.handed = [] := by
          rw [hr]
          cases op <;> rfl
        rw [hnil]
        exact hinv.symm.imp (fun hh => ⟨[], hh⟩) fun hm => ⟨hm, hempty.used⟩
  · by_cases hback : op = .free ∨ op = .finalize
    · obtain ⟨s', r, hcall, hnil, hheld⟩ := dead_reinitialised (A := A) hdead op hback
      refine ⟨_, congrArg (Option.map _) hcall, .inl ⟨[], ?_⟩⟩
      dsimp only
      rw [blocks_handed, hnil]
      exact hheld
    · have hmild : ∀ size, op = .resize size → size.toNat ≤ t.state.used := by
        rintro size rfl
        exact hop hdead.toMarked.failed
      obtain ⟨s', r, hcall, hdead', hnil, -⟩ := dead_call (A := A) hdead op hmild
        (fun h => hback (.inl h)) (fun h => hback (.inr h))
      refine ⟨_, congrArg (Option.map _) hcall, .inr ?_⟩
      dsimp only
      rw [blocks_handed, hnil]
      exact hdead'

/-- Without `free` and `finalize` it stays dead. -/
theorem dead_run (A : Allocator (List UInt8)) : ∀ (later : List (Op P)) {t : Track},
    Dead P h₀ t.blocks t.state → Legal (step A P) mild t later →
    (∀ op ∈ later, op ≠ .free ∧ op ≠ .finalize) →
    ∃ t', run (step A P) t later = some t' ∧ Dead P h₀ t'.blocks t'.state
  | [], t, h, _, _ => ⟨t, rfl, h⟩
  | op :: later, t, h, ⟨hop, hlegal⟩, hlater => by
    obtain ⟨hfree, hfinal⟩ := hlater op List.mem_cons_self
    have hmild : ∀ size, op = .resize size → size.toNat ≤ t.state.used := by
      rintro size rfl
      exact hop h.toMarked.failed
    obtain ⟨s', r, hcall, hdead, hnil, -⟩ := dead_call (A := A) h op hmild hfree hfinal
    have hstep : step A P t op = some { state := s', handed := t.handed } := by
      refine (congrArg (Option.map _) hcall).trans ?_
      simp only [Option.map_some, hnil, List.nil_append]
    obtain ⟨t', hrun, hdead'⟩ := dead_run A later (t := { state := s', handed := t.handed }) hdead
      (hlegal _ hstep) fun op hop => hlater op (List.mem_cons_of_mem _ hop)
    exact ⟨t', by rw [run_cons, hstep, Option.bind_some, hrun], hdead'⟩

/-- Elements in use are backed by memory and by an array that has not failed; and a failed array is
    empty and stays so, whatever operation comes next. -/
structure Absorbing (A : Allocator (List UInt8)) (P : Params) (t : Track) : Prop where
  room : 0 < t.state.used → hasFailed t.state = false ∧
    ∃ blk, t.state.block = some blk ∧ t.state.used * P.elementSize ≤ blk.length
  empty : hasFailed t.state = true → t.state.used = 0
  stays : hasFailed t.state = true → ∀ op : Op P, mild t op → op ≠ .free → op ≠ .finalize →
    ∃ s' r, call A P t.state op = some (s', r) ∧ hasFailed s' = true ∧ s'.used = 0 ∧
      ∀ i, r ≠ .place (some i)

theorem MildInv.absorbing (A : Allocator (List UInt8)) (h : MildInv P h₀ t) : Absorbing A P t := by
  rcases h with ⟨L, hheld⟩ | hdead
  · have hno := hheld.not_failed
    refine ⟨fun hpos => ⟨hno, ?_⟩, fun hf => ?_, fun hf => ?_⟩
    · obtain ⟨rest, hbacked, -⟩ := hheld.contents
      have hused := hheld.used
      have hlen : (flat L ++ rest).length = L.length * P.elementSize + rest.length := by
        rw [List.length_append, length_flat]
      have hmul := Nat.mul_pos (hused ▸ hpos) P.elementSize_pos
      exact ⟨_, block_of_backed hbacked (by omega), by rw [hused, hlen]; omega⟩
    · rw [hno] at hf
      exact absurd hf nofun
    · rw [hno] at hf
      exact absurd hf nofun
  · refine ⟨fun hpos => ?_, fun _ => hdead.zero, fun hf op hop hfree hfinal => ?_⟩
    · rw [hdead.zero] at hpos
      exact absurd hpos (Nat.lt_irrefl 0)
    · have hmild : ∀ size, op = .resize size → size.toNat ≤ t.state.used := by
        rintro size rfl
        exact hop hf
      obtain ⟨s', r, hcall, hdead', -, hplace⟩ := dead_call (A := A) hdead op hmild hfree hfinal
      exact ⟨s', r, hcall, hdead'.toMarked.failed, hdead'.zero, hplace⟩

/-- In every run in which no failed array is resized to a larger size, the failed state is
    absorbing: an array that has failed after `pre` is failed and empty after `later`. -/
theorem failed_absorbing (A : Allocator (List UInt8)) (P : Params) (m : Mem (List UInt8))
    (scratch : Cell (P.initialSize * P.elementSize)) (pre later : List (Op P))
    (hops : Legal (step A P) mild (begun P m scratch) (pre ++ later)) :
    ∃ t t', run (step A P) (begun P m scratch) pre = some t ∧ run (step A P) t later = some t' ∧
      Absorbing A P t ∧ Absorbing A P t' ∧
      (hasFailed t.state = true → (∀ op ∈ later, op ≠ .free ∧ op ≠ .finalize) →
        hasFailed t'.state = true ∧ t'.state.used = 0) := by
  obtain ⟨hpre, hlater⟩ := legal_append.mp hops
  have hstart : MildInv P m.heap (begun P m scratch) := .inl ⟨_, (begun_represents P m scratch).holds⟩
  obtain ⟨t, hrun, hinv⟩ := run_inv (mildInv_step A) hstart hpre
  obtain ⟨t', hrun', hinv'⟩ := run_inv (mildInv_step A) hinv (hlater t hrun)
  refine ⟨t, t', hrun, hrun', hinv.absorbing A, hinv'.absorbing A, fun hf hops => ?_⟩
  rcases hinv with ⟨L, hheld⟩ | hdead
  · rw [hheld.not_failed] at hf
    exact absurd hf nofun
  · obtain ⟨t₂, hrun₂, hdead'⟩ := dead_run A later hdead (hlater t hrun) hops
    obtain rfl := Option.some.inj (hrun₂.symm.trans hrun')
    exact ⟨hdead'.toMarked.failed, hdead'.zero⟩

/-- Words, without scratch space. -/
def words : Params where
  elementSize := 8
  initialSize := 0
  elementInit := none
  elementFree := false
  elementSize_pos := by decide
  scratch_lt := by decide

theorem failed_absorbing_words :
    ∃ t t', run (step (.bump _ fun _ => true) words)
        (begun words { heap := .empty, calls := 0 } ⟨[], rfl⟩) [.resize 3] = some t ∧
      run (step (.bump _ fun _ => true) words) t [.add ⟨[1, 2, 3, 4, 5, 6, 7, 8], rfl⟩,
        .emplace none, .resize 0, .removeLast] = some t' ∧
      Absorbing (.bump _ fun _ => true) words t ∧ Absorbing (.bump _ fun _ => true) words t' ∧
      (hasFailed t.state = true →
        (∀ op ∈ ([.add ⟨[1, 2, 3, 4, 5, 6, 7, 8], rfl⟩, .emplace none, .resize 0,
          .removeLast] : List (Op words)), op ≠ .free ∧ op ≠ .finalize) →
        hasFailed t'.state = true ∧ t'.state.used = 0) :=
  failed_absorbing (.bump _ fun _ => true) words { heap := .empty, calls := 0 } ⟨[], rfl⟩
    [.resize 3] [.add ⟨[1, 2, 3, 4, 5, 6, 7, 8], rfl⟩, .emplace none, .resize 0, .removeLast]
    (by decide +kernel)

/-- A failed array that is resized to a larger size reports success and has elements in use, in no
    memory, while it is still marked as failed. -/
theorem resize_revives :
    ∃ t t' s', run (step (.bump _ fun _ => true) words)
        (begun words { heap := .empty, calls := 0 } ⟨[], rfl⟩) [.resize 3] = some t ∧
      hasFailed t.state = true ∧
      call (.bump _ fun _ => true) words t.state (.resize 1) = some (s', .ok true) ∧
      run (step (.bump _ fun _ => true) words) t [.resize 1] = some t' ∧ t'.state = s' ∧
      hasFailed t'.state = true ∧ t'.state.used = 1 ∧ t'.state.block = none :=
  ⟨_, _, _, rfl, rfl, rfl, rfl, rfl, rfl, rfl, rfl⟩

end Librecompat.Dynarray
