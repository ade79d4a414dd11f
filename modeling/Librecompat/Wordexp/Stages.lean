/-
  What each stage of a call does to the structure that it works on.

  `wordexp` works on a structure of its own: its blocks are what the heap has beyond the heap
  `h₀` of the caller (`At`), or there are none yet (`Work`). Each stage has one lemma that says
  which vector and which bytes it leaves there; `Work.wordfree` gives `h₀` back.
-/
import Librecompat.Lib.Owned
import Librecompat.Wordexp.Words

namespace Librecompat.Wordexp

open Librecompat.Lib

variable {h₀ h h' : Heap Obj} {m m' : Mem Obj} {p : Nat} {wi : WeInt} {bytes : List UInt8}
  {we : WordexpT}

/-- At `p` there is the vector `wi` with its storage, and both are blocks that `h₀` does not
    have. -/
structure At (h₀ h : Heap Obj) (p : Nat) (wi : WeInt) (bytes : List UInt8) : Prop where
  owned : Owned h₀ h (p :: ptrs [wi.wiStrings])
  int : h.get p = some (.int wi)
  strings : ArrayAt Obj.bytes h wi.wiStrings bytes

/-- No vector yet. -/
def WeInt.empty : WeInt := { wiStrings := 0, wiNbytes := 0, wiWordv := [] }

/-- The structure `we` has no blocks, or the vector `wi` with the storage `bytes`. -/
def Work (h₀ h : Heap Obj) (we : WordexpT) (wi : WeInt) (bytes : List UInt8) : Prop :=
  (we.weWordv = 0 ∧ h = h₀ ∧ wi = WeInt.empty ∧ bytes = []) ∨
  ∃ p, we.weWordv = weWordv p ∧ At h₀ h p wi bytes

theorem weIntT_weWordv (p : Nat) : weIntT (weWordv p) = p := by
  unfold weIntT weWordv
  rw [subSize_of_le (Nat.le_add_left 16 p), Nat.add_sub_cancel]

theorem weWordv_ne (p : Nat) : weWordv p ≠ 0 := Nat.succ_ne_zero _

theorem readInt_of_get (hg : m.heap.get p = some (.int wi)) : readInt m p = some wi := by
  rw [readInt, hg]

theorem At.ne (a : At h₀ h p wi bytes) : p ≠ 0 := (a.owned.fresh p List.mem_cons_self).1

theorem At.ne_strings (a : At h₀ h p wi bytes) : wi.wiStrings ≠ p := by
  rcases a.strings with ⟨h0, _⟩ | ⟨_, hg⟩
  · rw [h0]
    exact a.ne.symm
  · rintro heq
    rw [heq, a.int] at hg
    cases hg

theorem At.owned_strings (a : At h₀ h p wi bytes) :
    Owned h₀ h (ptrs [wi.wiStrings] ++ [p]) :=
  (show Owned h₀ h ([p] ++ ptrs [wi.wiStrings]) from a.owned).perm List.perm_append_comm

/-- The vector gets new contents. -/
theorem At.storeInt (a : At h₀ m.heap p wi bytes) (n : Nat) (cells : List (Option Nat)) :
    ∃ m', store m p (.int { wi with wiNbytes := n, wiWordv := cells }) = some m' ∧
      At h₀ m'.heap p { wi with wiNbytes := n, wiWordv := cells } bytes := by
  obtain ⟨m', hst, o, hget, hkeep⟩ := a.owned.store
    (b := .int { wi with wiNbytes := n, wiWordv := cells }) List.mem_cons_self
  exact ⟨m', hst, o, hget, a.strings.congr (hkeep _ a.ne_strings)⟩

/-- `wordfree` frees exactly the blocks of the structure. -/
theorem Work.wordfree (w : Work h₀ m.heap we wi bytes) :
    ∃ m' we', wordfree m we = some (m', we') ∧ m'.heap = h₀ := by
  unfold Wordexp.wordfree
  rcases w with ⟨h0, hheap, _⟩ | ⟨p, hp, a⟩
  · rw [if_pos h0]
    exact ⟨m, _, rfl, hheap⟩
  · obtain ⟨m₁, h₁, o₁, _⟩ := a.owned_strings.free
    rw [← ptrs_cons_nil a.ne, ← List.append_nil (ptrs [p])] at o₁
    obtain ⟨m₂, h₂, o₂, _⟩ := o₁.free
    rw [if_neg (hp ▸ weWordv_ne p), hp, weIntT_weWordv, readInt_of_get a.int]
    simp only [Option.bind_eq_bind, Option.bind_some, h₁, h₂]
    exact ⟨m₂, _, rfl, o₂.heap_eq⟩

/-! ## Starting the child -/

variable (A : Allocator Obj)

/-- Does one of the calls before the child runs fail, when the allocator has made `calls`
    calls? -/
def spawnFails (child : Child) (calls : Nat) : Bool :=
  firstError [child.attrInit, child.attrSetflags, child.attrSetsigdefault, child.attrSetsigmask,
    child.actionsInit, child.actionsStdout, child.actionsStderr] ≠ 0 ||
  A.fails calls || child.spawn ≠ 0

/-- The command line is gone again when the child runs. -/
theorem spawnShell_spec {child : Child} {words : List UInt8} {err : Errno}
    (hs : spawnShell A child words m = some (m', err)) :
    m'.heap = m.heap ∧ (err ≠ 0 ↔ spawnFails A child m.calls = true) ∧
      (err = 0 → m'.calls = m.calls + 1) := by
  unfold spawnShell at hs
  unfold spawnFails
  generalize firstError _ = first at hs ⊢
  by_cases hfirst : first = 0
  · rw [if_neg (by simpa using hfirst)] at hs
    obtain ⟨hf, hm⟩ | ⟨hf, a, ha, hn, hm⟩ :=
      malloc_cases A m (.bytes (command ++ words ++ [0])) <;> rw [hm] at hs
    · obtain ⟨rfl, rfl⟩ := Prod.mk.inj (Option.some.inj hs)
      simp [hf, ENOMEM]
    · dsimp only at hs
      rw [if_neg ha] at hs
      split at hs
      · cases hs
      · rw [free_fresh _ _ ha hn] at hs
        obtain ⟨rfl, rfl⟩ := Prod.mk.inj (Option.some.inj hs)
        simp [hf, hfirst]
  · rw [if_pos (by simpa using hfirst)] at hs
    obtain ⟨rfl, rfl⟩ := Prod.mk.inj (Option.some.inj hs)
    exact ⟨rfl, by simp [hfirst], fun h0 => absurd h0 hfirst⟩

/-! ## Making room -/

/-- How many cells the vector has after `realloc` for the words of `we`. -/
def roomFor (flags : Nat) (we : WordexpT) : Nat :=
  cellsOf (vectorSize (we.weWordc + 1 + offsOf flags we))

/-- The block of the vector, null when there is none. -/
def block (we : WordexpT) : Nat := if we.weWordv = 0 then 0 else weIntT we.weWordv

theorem Work.owned (w : Work h₀ h we wi bytes) :
    Owned h₀ h (ptrs [block we] ++ ptrs [wi.wiStrings]) := by
  unfold block
  rcases w with ⟨h0, rfl, rfl, _⟩ | ⟨p, hp, a⟩
  · rw [if_pos h0]
    exact Owned.nil h
  · rw [hp, if_neg (weWordv_ne p), weIntT_weWordv, ptrs_cons_nil a.ne]
    exact a.owned

theorem Work.int (w : Work h₀ h we wi bytes) :
    ArrayAt (fun cells => Obj.int { wi with wiWordv := cells }) h (block we) wi.wiWordv := by
  unfold block
  rcases w with ⟨h0, rfl, rfl, _⟩ | ⟨p, hp, a⟩
  · rw [if_pos h0]
    exact .inl ⟨rfl, rfl⟩
  · rw [hp, if_neg (weWordv_ne p), weIntT_weWordv]
    exact .inr ⟨a.ne, a.int⟩

theorem Work.strings (w : Work h₀ h we wi bytes) :
    ArrayAt Obj.bytes h wi.wiStrings bytes := by
  rcases w with ⟨_, _, rfl, rfl⟩ | ⟨_, _, a⟩
  · exact .inl ⟨rfl, rfl⟩
  · exact a.strings

/-- The header of a new vector is the empty one. -/
theorem Work.realloc_eq (w : Work h₀ h we wi bytes) (f : Obj → Obj)
    (cells : List (Option Nat)) :
    realloc A m (block we) (.int { WeInt.empty with wiWordv := cells }) f =
      realloc A m (block we) (.int { wi with wiWordv := cells }) f := by
  rcases w with ⟨_, _, rfl, _⟩ | ⟨p, hp, a⟩
  · rfl
  · have hne : block we ≠ 0 := by
      rw [block, hp, if_neg (weWordv_ne p), weIntT_weWordv]
      exact a.ne
    unfold realloc
    rw [if_neg hne, if_neg hne]

/-- It is one call of `realloc`. -/
theorem growVector_calls {A : Allocator Obj} {flags q : Nat}
    (hs : growVector A flags m we = some (m', q)) :
    (q = 0 ↔ A.fails m.calls = true) ∧ m'.calls = m.calls + 1 := by
  obtain ⟨⟨m₁, nwv⟩, hr, hif⟩ := Option.bind_eq_some_iff.mp hs
  dsimp only at hif
  split at hif
  · cases hif
  · obtain ⟨rfl, rfl⟩ := Prod.mk.inj (Option.some.inj hif)
    exact ⟨realloc_eq_zero_iff hr, realloc_calls hr⟩

/-- The vector has moved and has other cells, or `realloc` has failed. -/
theorem growVector_spec {flags q : Nat} (w : Work h₀ m.heap we wi bytes)
    (hs : growVector A flags m we = some (m', q)) :
    (A.fails m.calls = true ∧ q = 0 ∧ m'.heap = m.heap) ∨
    (A.fails m.calls = false ∧ q ≠ 0 ∧
      At h₀ m'.heap q { wi with wiWordv := resizeCells (roomFor flags we) wi.wiWordv } bytes) := by
  have hgrow : realloc A m (block we)
      (.int { WeInt.empty with wiWordv := resizeCells (roomFor flags we) [] })
      (resizeVector (roomFor flags we)) = some (m', q) := by
    obtain ⟨r, hr, hif⟩ := Option.bind_eq_some_iff.mp hs
    dsimp only at hif
    split at hif
    · cases hif
    · exact hr.trans hif
  have hgrow' := hgrow
  rw [w.realloc_eq] at hgrow'
  obtain ⟨m₁, q₁, hr, ⟨rfl, hheap⟩ | ⟨hq, ho, hget, hkeep⟩⟩ :=
    realloc_array (f := resizeVector (roomFor flags we)) A (resizeCells (roomFor flags we))
      (fun _ => rfl) w.owned w.int <;>
    obtain ⟨rfl, rfl⟩ := Prod.mk.inj (Option.some.inj (hr.symm.trans hgrow'))
  · exact .inl ⟨(realloc_failed hgrow).1, rfl, hheap⟩
  · refine .inr ⟨?_, hq, ?_, hget, w.strings.keep hkeep⟩
    · exact Bool.eq_false_iff.mpr (mt (growVector_calls hs).1.mpr hq)
    · rw [ptrs_cons_nil hq] at ho
      exact ho

/-- The storage grows unless `realloc` fails. -/
theorem growStrings_grown {A : Allocator Obj} {vofs : Nat} {grown : Bool}
    (hs : growStrings A m p vofs = some (m', grown)) :
    grown = true ↔ A.fails m.calls = false := by
  unfold growStrings at hs
  obtain ⟨wi, _, hs⟩ := Option.bind_eq_some_iff.mp hs
  obtain ⟨⟨m₁, q⟩, hr, hs⟩ := Option.bind_eq_some_iff.mp hs
  have hzero := realloc_eq_zero_iff hr
  dsimp only at hs
  by_cases h0 : q = 0
  · rw [if_pos h0] at hs
    obtain ⟨_, rfl⟩ := Prod.mk.inj (Option.some.inj hs)
    simp [hzero.mp h0]
  · rw [if_neg h0] at hs
    obtain ⟨cells, _, hs⟩ := Option.bind_eq_some_iff.mp hs
    obtain ⟨m₂, _, hs⟩ := Option.bind_eq_some_iff.mp hs
    obtain ⟨_, rfl⟩ := Prod.mk.inj (Option.some.inj hs)
    exact iff_of_true rfl (by simpa using mt hzero.mpr h0)

/-- The storage has moved with its bytes, and the first pointers with it. -/
theorem growStrings_spec {vofs : Nat} {grown : Bool} (a : At h₀ m.heap p wi bytes)
    (hs : growStrings A m p vofs = some (m', grown)) :
    (grown = false ∧ m'.heap = m.heap) ∨
    (grown = true ∧ ∃ base cells, base ≠ 0 ∧
      rebase wi.wiStrings base vofs wi.wiWordv = some cells ∧
      At h₀ m'.heap p { wi with wiStrings := base, wiWordv := cells }
        (resize (A.junk m.calls) wi.wiNbytes bytes)) := by
  unfold growStrings at hs
  rw [readInt_of_get a.int] at hs
  obtain ⟨m₁, q, hr, ⟨rfl, hheap⟩ | ⟨hq, ho, hget, hkeep⟩⟩ :=
    realloc_array (f := resizeBytes (A.junk m.calls) wi.wiNbytes) A
      (resize (A.junk m.calls) wi.wiNbytes) (fun _ => rfl) a.owned_strings a.strings <;>
    simp only [Option.bind_eq_bind, Option.bind_some, hr] at hs
  · obtain ⟨rfl, rfl⟩ := Prod.mk.inj (Option.some.inj hs)
    exact .inl ⟨rfl, hheap⟩
  · rw [if_neg hq] at hs
    obtain ⟨cells, hcells, hs⟩ := Option.bind_eq_some_iff.mp hs
    have hmem : p ∈ ptrs [q] ++ [p] := by simp
    obtain ⟨m₂, hst, ho₂, hget₂, hkeep₂⟩ :=
      ho.store (b := .int { wi with wiStrings := q, wiWordv := cells }) hmem
    rw [hst] at hs
    obtain ⟨rfl, rfl⟩ := Prod.mk.inj (Option.some.inj hs)
    have hne : q ≠ p := by
      rintro rfl
      have hint := (hkeep q List.mem_cons_self).trans a.int
      rw [hget] at hint
      cases hint
    exact .inr ⟨rfl, q, cells, hq, hcells, ho₂.perm List.perm_append_comm, hget₂,
      .inr ⟨hq, (hkeep₂ q hne).trans hget⟩⟩

/-- The storage gets other bytes. -/
theorem At.storeBytes (a : At h₀ m.heap p wi bytes) (hne : wi.wiStrings ≠ 0)
    (bs : List UInt8) :
    ∃ m', store m wi.wiStrings (.bytes bs) = some m' ∧ At h₀ m'.heap p wi bs := by
  have hmem : wi.wiStrings ∈ p :: ptrs [wi.wiStrings] :=
    List.mem_cons_of_mem p (mem_ptrs_self hne)
  obtain ⟨m', hst, o, hget, hkeep⟩ := a.owned.store (b := .bytes bs) hmem
  exact ⟨m', hst, o, (hkeep p a.ne_strings.symm).trans a.int, .inr ⟨hne, hget⟩⟩

theorem At.readBytes (a : At h₀ m.heap p wi bytes) (hne : wi.wiStrings ≠ 0) :
    readBytes m wi.wiStrings = some bytes := by
  obtain ⟨_, hget⟩ := a.strings.resolve_left fun h0 => hne h0.1
  rw [Wordexp.readBytes, hget]

/-- `readWords` says whether all the bytes have come. -/
theorem readWords_whole {nwv sofs : Nat} {nbytes : Int} {rs : List Reply} {whole : Bool}
    (h : readWords m nwv sofs nbytes rs = some (m', whole)) :
    whole = true ↔
      (weReadFully (nbytes % 2 ^ 64).toNat [] rs).1.length = (nbytes % 2 ^ 64).toNat := by
  unfold readWords at h
  dsimp only at h
  split at h
  · next hgot =>
    rw [← (Prod.mk.inj (Option.some.inj h)).2, hgot, decide_eq_true_iff]
    exact eq_comm
  · obtain ⟨wi, _, h⟩ := Option.bind_eq_some_iff.mp h
    obtain ⟨bs, _, h⟩ := Option.bind_eq_some_iff.mp h
    obtain ⟨bs', _, h⟩ := Option.bind_eq_some_iff.mp h
    obtain ⟨m₁, _, h⟩ := Option.bind_eq_some_iff.mp h
    rw [← (Prod.mk.inj (Option.some.inj h)).2, decide_eq_true_iff]

/-- As many bytes as the child has sent are in the storage. -/
theorem readWords_spec {sofs : Nat} {nbytes : Int} {rs : List Reply} {whole : Bool}
    (a : At h₀ m.heap p wi bytes) (hne : wi.wiStrings ≠ 0)
    (hs : readWords m p sofs nbytes rs = some (m', whole)) :
    ∃ got bytes', At h₀ m'.heap p wi bytes' ∧
      got = (weReadFully (nbytes % 2 ^ 64).toNat [] rs).1 ∧
      (whole = true ↔ got.length = (nbytes % 2 ^ 64).toNat) ∧
      (got = [] ∧ bytes' = bytes ∨ writeAt bytes sofs got = some bytes') := by
  have hwhole := readWords_whole hs
  unfold readWords at hs
  dsimp only at hs
  rcases hread : weReadFully (nbytes % 2 ^ 64).toNat [] rs with ⟨got, rs'⟩
  have hfst : got = (weReadFully (nbytes % 2 ^ 64).toNat [] rs).1 := by rw [hread]
  rw [hread] at hs hwhole
  dsimp only at hs
  split at hs
  · next hgot =>
    obtain ⟨rfl, rfl⟩ := Prod.mk.inj (Option.some.inj hs)
    exact ⟨got, bytes, a, hfst, hwhole, .inl ⟨hgot, rfl⟩⟩
  · rw [readInt_of_get a.int] at hs
    simp only [Option.bind_eq_bind, Option.bind_some, a.readBytes hne] at hs
    obtain ⟨bs, hwrite, hs⟩ := Option.bind_eq_some_iff.mp hs
    obtain ⟨m₁, hst, a'⟩ := a.storeBytes hne bs
    rw [hst] at hs
    obtain ⟨rfl, rfl⟩ := Prod.mk.inj (Option.some.inj hs)
    exact ⟨got, bs, a', hfst, hwhole, .inr hwrite⟩

end Librecompat.Wordexp
