/-
  Where a call of `wordexp` leaves its memory, and what it builds when it does not.

  `Overruns` has a part for each stage: the check of the string, the copy for `WRDE_APPEND`, the
  command line, the new sizes and the loops that write the vector. Each part is a matter of the
  string, the old structure, the allocator and what the child sends. `wordexp_eq_none_iff` says
  that a call goes wrong in no other way. The sizes are right as long as the child announces no
  negative number of words (`not_overruns`): then `we_wordc` does not shrink below the cells that
  are rebased. `wordexp_builds` is about a child that sends its words with their counts.
-/
import Librecompat.Wordexp.Vector

namespace Librecompat.Wordexp

open Librecompat.Lib

/-! ## The places -/

section Overruns

variable (A : Allocator Obj) (child : Child) (flags calls : Nat)

/-- The command line goes over the end of its block. -/
def LineOverruns (words : List UInt8) : Prop :=
  child.pdes.isSome = true ∧ child.perr.isSome = true ∧
    firstError [child.attrInit, child.attrSetflags, child.attrSetsigdefault,
      child.attrSetsigmask, child.actionsInit, child.actionsStdout, child.actionsStderr] = 0 ∧
    A.fails calls = false ∧ buflen words < command.length + words.length + 1

/-- The header of the vector, the cells of the old words or the new bytes do not fit the sizes
    that follow from the counts. `calls` is the number of the `realloc` of the vector, `sofs` the
    old size of the storage. -/
def SizesOverrun (we : WordexpT) (sofs : Nat) : Prop :=
  ∃ nwords nbytes rs, readCounts child.stdout = some (nwords, nbytes, rs) ∧
    A.fails calls = false ∧
    (vectorSize ((counted we nwords).weWordc + 1 + offsOf flags we) < 16 ∨
      A.fails (calls + 1) = false ∧
        (roomFor flags (counted we nwords) < firstCell flags we ∨
          (weReadFully (nbytes % 2 ^ 64).toNat [] rs).1 ≠ [] ∧
            addSize sofs nbytes <
              sofs + (weReadFully (nbytes % 2 ^ 64).toNat [] rs).1.length))

/-- Everything that the counts announce has been read, and the error output. -/
structure Collected (nwords nbytes : Int) (rs : List Reply) (errBuf : List UInt8) : Prop where
  counts : readCounts child.stdout = some (nwords, nbytes, rs)
  vector : A.fails calls = false
  strings : A.fails (calls + 1) = false
  whole : (weReadFully (nbytes % 2 ^ 64).toNat [] rs).1.length = (nbytes % 2 ^ 64).toNat
  errors : readErrors child = some errBuf

/-- The search of `err_buf` finds no end, or the pointers to the words and the null pointer behind
    them do not fit. -/
def WordsOverrun (we : WordexpT) : Prop :=
  ∃ nwords nbytes rs errBuf, Collected A child calls nwords nbytes rs errBuf ∧
    child.status = some 0 ∧
    (0 ∉ errBuf ∨ errorText errBuf = some none ∧
      roomFor flags (counted we nwords) ≤ offsOf flags we + we.weWordc +
        min (nwords % 2 ^ 64).toNat ((weReadFully (nbytes % 2 ^ 64).toNat [] rs).1.count 0))

/-- There is no memory for the copy of the old words. -/
def CopyFails : Prop :=
  hasFlag flags WRDE_APPEND = true ∧ (A.fails calls = true ∨ A.fails (calls + 1) = true)

/-- The allocator calls before the child is started. -/
def begunCalls : Nat := if hasFlag flags WRDE_APPEND then calls + 2 else calls

/-- The counters of the structure that the child's words are added to. -/
def begunWords (we0 : WordexpT) : WordexpT :=
  if hasFlag flags WRDE_APPEND then we0 else { we0 with weWordc := 0, weWordv := 0 }

/-- The size of the storage that the child's words are added to. -/
def begunSize (m : Mem Obj) (we0 : WordexpT) : Nat :=
  if hasFlag flags WRDE_APPEND then ((readInt m (weIntT we0.weWordv)).map WeInt.wiNbytes).getD 0
  else 0

/-- A call of `wordexp` leaves its memory. -/
def Overruns (words : List UInt8) (m : Mem Obj) (we0 : WordexpT) : Prop :=
  weCheck words flags = none ∨
  weCheck words flags = some 0 ∧
    (hasFlag flags WRDE_APPEND = true ∧ A.fails m.calls = false ∧ we0.weWordv = 0 ∨
      ¬ CopyFails A flags m.calls ∧
        (LineOverruns A child (begunCalls flags m.calls) (cstr words) ∨
          startFails A child (begunCalls flags m.calls) = false ∧
            (SizesOverrun A child flags (begunCalls flags m.calls + 1) (begunWords flags we0)
                (begunSize flags m we0) ∨
              WordsOverrun A child flags (begunCalls flags m.calls + 1)
                (begunWords flags we0))))

end Overruns

variable {A : Allocator Obj} {child : Child} {h₀ h h' : Heap Obj} {m m' : Mem Obj}
  {we we' we0 : WordexpT} {wi : WeInt} {bytes words : List UInt8} {offs flags calls p pre : Nat}
  {ws olds news : List (List UInt8)} {nwords nbytes : Int} {rs : List Reply} {os : List Nat}
  {tail : List (Option Nat)} {s s' : Proc}

/-! ## Stage by stage -/

theorem spawnShell_eq_none_iff :
    spawnShell A child words m = none ↔
      firstError [child.attrInit, child.attrSetflags, child.attrSetsigdefault,
        child.attrSetsigmask, child.actionsInit, child.actionsStdout, child.actionsStderr] = 0 ∧
      A.fails m.calls = false ∧ buflen words < command.length + words.length + 1 := by
  unfold spawnShell
  generalize firstError _ = first
  by_cases hfirst : first = 0
  · rw [if_neg (not_not.mpr hfirst)]
    obtain ⟨hf, hm⟩ | ⟨hf, a, ha, hn, hm⟩ :=
      malloc_cases A m (.bytes (command ++ words ++ [0])) <;> rw [hm]
    · simp [hf]
    · dsimp only
      rw [if_neg ha]
      by_cases hlen : buflen words < command.length + words.length + 1
      · rw [if_pos hlen]
        exact iff_of_true rfl ⟨hfirst, hf, hlen⟩
      · rw [if_neg hlen, free_fresh _ _ ha hn]
        exact iff_of_false (by simp) fun h => hlen h.2.2
  · rw [if_pos hfirst]
    exact iff_of_false (by simp) fun h => hfirst h.1

theorem growVector_eq_none_iff (w : Work h₀ m.heap we wi bytes) :
    growVector A flags m we = none ↔
      A.fails m.calls = false ∧ vectorSize (we.weWordc + 1 + offsOf flags we) < 16 := by
  obtain ⟨m₁, q, hr, _⟩ :=
    realloc_array (f := resizeVector (roomFor flags we)) A (resizeCells (roomFor flags we))
      (fun _ => rfl) w.owned w.int
  have hzero := realloc_eq_zero_iff hr
  rw [← w.realloc_eq] at hr
  unfold block roomFor WeInt.empty at hr
  unfold growVector
  simp only [hr, Option.bind_eq_bind, Option.bind_some]
  rw [ite_eq_left_iff, ne_eq, hzero]
  simp

/-- `growStrings` goes wrong when the storage has moved and the pointers to the old words are not
    all there. -/
theorem growStrings_eq_none_iff {vofs : Nat} {P : Prop} (a : At h₀ m.heap p wi bytes)
    (hcells : ∀ base, rebase wi.wiStrings base vofs wi.wiWordv = none ↔ P) :
    growStrings A m p vofs = none ↔ A.fails m.calls = false ∧ P := by
  obtain ⟨m₁, q, hr, hq⟩ :=
    realloc_array (f := resizeBytes (A.junk m.calls) wi.wiNbytes) A
      (resize (A.junk m.calls) wi.wiNbytes) (fun _ => rfl) a.owned_strings a.strings
  have hzero := realloc_eq_zero_iff hr
  unfold growStrings
  rw [readInt_of_get a.int]
  simp only [Option.bind_eq_bind, Option.bind_some, hr]
  by_cases h0 : q = 0
  · rw [if_pos h0]
    exact iff_of_false (by simp) fun h => by simp [hzero.mp h0] at h
  · obtain ⟨_, ho, _⟩ := hq.resolve_left fun h => h0 h.1
    have hmem : p ∈ ptrs [q] ++ [p] := by simp
    have hfails : A.fails m.calls = false := by simpa using mt hzero.mpr h0
    rw [if_neg h0, ← hcells q, hfails, and_iff_right rfl]
    cases rebase wi.wiStrings q vofs wi.wiWordv with
    | none => exact iff_of_true rfl rfl
    | some cells =>
      obtain ⟨m₂, hst, _⟩ := ho.store (b := .int { wi with wiStrings := q, wiWordv := cells }) hmem
      simp [hst]

/-- `readWords` goes wrong when it writes behind the storage. -/
theorem readWords_eq_none_iff {sofs : Nat} (a : At h₀ m.heap p wi bytes)
    (hne : wi.wiStrings ≠ 0) :
    readWords m p sofs nbytes rs = none ↔
      (weReadFully (nbytes % 2 ^ 64).toNat [] rs).1 ≠ [] ∧
        bytes.length < sofs + (weReadFully (nbytes % 2 ^ 64).toNat [] rs).1.length := by
  unfold readWords
  dsimp only
  generalize (weReadFully (nbytes % 2 ^ 64).toNat [] rs).1 = got
  by_cases hgot : got = []
  · rw [if_pos hgot]
    exact iff_of_false (by simp) fun h => h.1 hgot
  · rw [if_neg hgot, readInt_of_get a.int]
    simp only [Option.bind_eq_bind, Option.bind_some, a.readBytes hne]
    unfold writeAt
    by_cases hlen : sofs + got.length ≤ bytes.length
    · obtain ⟨m₁, hst, _⟩ :=
        a.storeBytes hne (bytes.take sofs ++ got ++ bytes.drop (sofs + got.length))
      rw [if_pos hlen, Option.bind_some, hst]
      exact iff_of_false (by simp) fun h => absurd h.2 (Nat.not_lt.mpr hlen)
    · rw [if_neg hlen]
      exact iff_of_true rfl ⟨hgot, Nat.lt_of_not_le hlen⟩

/-- The loop over the words and the null pointer behind them take one cell more than there are
    words with an end. -/
theorem storeWords_overruns (n : Nat) (rest : List UInt8) (vofs : Nat)
    (cells : List (Option Nat)) (q : Nat) :
    (storeWords n rest q vofs cells = none ∨
      ∃ stop cells', storeWords n rest q vofs cells = some (some stop, cells') ∧
        cells'.length ≤ stop) ↔ cells.length ≤ vofs + min n (rest.count 0) := by
  induction n generalizing rest vofs cells q with
  | zero => simp [storeWords]
  | succ n ih =>
    rw [storeWords]
    by_cases hlt : vofs < cells.length
    · rw [if_pos hlt]
      cases hlen : strlen rest with
      | none =>
        rw [List.count_eq_zero.mpr (strlen_eq_none hlen)]
        simp only [reduceCtorEq, Option.some.injEq, Prod.mk.injEq, false_and, exists_false,
          or_self, false_iff]
        omega
      | some k =>
        obtain ⟨hk, hrest⟩ := strlen_eq_some hlen
        have hcount : rest.count 0 = (rest.drop (k + 1)).count 0 + 1 := by
          conv_lhs => rw [hrest]
          rw [List.count_append, List.count_eq_zero.mpr hk, List.count_cons_self, Nat.zero_add]
        dsimp only
        rw [ih, List.length_set, hcount, Nat.add_min_add_right]
        omega
    · rw [if_neg hlt]
      exact iff_of_true (.inl rfl) (by omega)

/-- The bytes that the words are looked for in are all that was read. -/
theorem Filled.rest {base : Nat} {cells : List (Option Nat)} {bytes' : List UInt8}
    (st : Start flags we wi bytes pre os tail olds)
    (hc : Announced A child calls nwords nbytes rs)
    (hf : Filled h₀ h flags we wi bytes nwords nbytes rs p base cells bytes') :
    (bytes'.drop wi.wiNbytes).take nbytes.toNat = bytes'.drop wi.wiNbytes := by
  obtain ⟨_, _, got, hgot, hlen, rfl, _⟩ := hf.words st
  have hmax := weReadFully_le_max (hgot ▸ hlen)
  obtain ⟨_, _, hlo, hhi⟩ := readCounts_bounds hc.counts
  apply List.take_of_length_le
  rw [← st.length, List.drop_left, hlen]
  unfold INT_MAX at hmax
  omega

theorem Filled.got_eq {base : Nat} {cells : List (Option Nat)} {bytes' : List UInt8}
    (st : Start flags we wi bytes pre os tail olds)
    (hc : Announced A child calls nwords nbytes rs)
    (hf : Filled h₀ h flags we wi bytes nwords nbytes rs p base cells bytes') :
    (bytes'.drop wi.wiNbytes).take nbytes.toNat =
      (weReadFully (nbytes % 2 ^ 64).toNat [] rs).1 := by
  rw [hf.rest st hc]
  obtain ⟨_, _, got, hgot, _, rfl, _⟩ := hf.words st
  rw [← st.length, List.drop_left, hgot]

/-- The null pointers for `we_offs`, where they are still to be written. -/
theorem fillOffs_prepared (flags : Nat) (we : WordexpT) (cells : List (Option Nat)) :
    (if firstCell flags we = 0 ∧ hasFlag flags WRDE_DOOFFS = true then fillOffs we.weOffs cells
        else some cells) = none ∧ hasFlag flags WRDE_DOOFFS = true ∧ cells.length < we.weOffs ∨
    ∃ cells₁, (if firstCell flags we = 0 ∧ hasFlag flags WRDE_DOOFFS = true then
        fillOffs we.weOffs cells else some cells) = some cells₁ ∧
      Prepared flags we cells (if firstCell flags we = 0 ∧ hasFlag flags WRDE_DOOFFS = true then
        we.weOffs else firstCell flags we) cells₁ := by
  unfold Prepared
  by_cases hfill : firstCell flags we = 0 ∧ hasFlag flags WRDE_DOOFFS = true
  · simp only [if_pos hfill]
    cases hcells : fillOffs we.weOffs cells with
    | none =>
      unfold fillOffs writeAt at hcells
      rw [List.length_replicate, Nat.zero_add] at hcells
      split at hcells
      · cases hcells
      · next hlt => exact .inl ⟨rfl, hfill.2, Nat.lt_of_not_le hlt⟩
    | some cells₁ => exact .inr ⟨cells₁, rfl, trivial, rfl⟩
  · simp only [if_neg hfill]
    exact .inr ⟨cells, rfl, trivial, rfl⟩

/-- `breakWords` goes wrong when there is no cell for the null pointer behind the words. -/
theorem breakWords_eq_none_iff {v : Vars} {base : Nat} {cells : List (Option Nat)}
    {bytes' : List UInt8} (st : Start flags we wi bytes pre os tail olds)
    (hv : v.vofs = firstCell flags we) (hsofs : v.sofs = wi.wiNbytes)
    (hc : Announced A child calls v.nwords v.nbytes rs)
    (hf : Filled h₀ m.heap flags we wi bytes v.nwords v.nbytes rs p base cells bytes') :
    breakWords flags m { counted we v.nwords with weWordv := weWordv p } v = none ↔
      roomFor flags (counted we v.nwords) ≤ offsOf flags we + we.weWordc +
        min (v.nwords % 2 ^ 64).toNat
          ((weReadFully (v.nbytes % 2 ^ 64).toNat [] rs).1.count 0) := by
  obtain ⟨hroom, hcells, _⟩ := hf.words st
  have hos : os.length = we.weWordc := st.words.length_eq.trans st.wordc.symm
  have hweOffs : (counted we v.nwords).weOffs = we.weOffs := rfl
  unfold breakWords
  dsimp only
  rw [weIntT_weWordv, readInt_of_get hf.block.int]
  simp only [Option.bind_eq_bind, Option.bind_some, hv, hsofs, hf.block.readBytes hf.base_ne,
    hf.got_eq st hc, hweOffs]
  obtain ⟨hnone, hdooffs, hlt⟩ | ⟨cells₁, hfill, hprep⟩ :=
    fillOffs_prepared flags we cells
  · -- the null pointers alone are too many
    have hoffs : offsOf flags we = we.weOffs := if_pos hdooffs
    have hlen : cells.length = roomFor flags (counted we v.nwords) := by
      rw [hcells, List.length_append, length_pointers, length_resizeCells]
      omega
    rw [hnone]
    exact iff_of_true rfl (by omega)
  · rw [hcells] at hprep
    obtain ⟨hvofs, hlen, _⟩ := st.prepared hprep
    rw [length_resizeCells] at hlen
    have hlen' : cells₁.length = roomFor flags (counted we v.nwords) := by omega
    rw [← hlen', ← hos, ← hvofs, ← storeWords_overruns _ _ _ _ (base + wi.wiNbytes)]
    rw [hfill, Option.bind_some]
    generalize (if firstCell flags we = 0 ∧ hasFlag flags WRDE_DOOFFS = true then we.weOffs
      else firstCell flags we) = vofs
    cases hstore : storeWords (v.nwords % 2 ^ 64).toNat
        (weReadFully (v.nbytes % 2 ^ 64).toNat [] rs).1 (base + wi.wiNbytes) vofs cells₁ with
    | none => simp
    | some r =>
      obtain ⟨stop, cells₂⟩ := r
      cases stop with
      | none =>
        obtain ⟨m₁, hst, _⟩ := hf.block.storeInt (addSize wi.wiNbytes v.nbytes) cells₂
        dsimp only at hst ⊢
        rw [Option.bind_some, hst]
        simp
      | some stop =>
        rw [Option.bind_some]
        dsimp only
        unfold writeAt
        rw [List.length_singleton]
        by_cases hlast : stop + 1 ≤ cells₂.length
        · rw [if_pos hlast]
          obtain ⟨m₁, hst, _⟩ := hf.block.storeInt (addSize wi.wiNbytes v.nbytes)
            (cells₂.take stop ++ [some 0] ++ cells₂.drop (stop + 1))
          dsimp only at hst ⊢
          rw [Option.bind_some, hst]
          simp
          omega
        · rw [if_neg hlast]
          simp
          omega

theorem Start.rebase_eq_none_iff (st : Start flags we wi bytes pre os tail olds) (k base : Nat) :
    rebase wi.wiStrings base (firstCell flags we) (resizeCells k wi.wiWordv) = none ↔
      k < firstCell flags we := by
  have hlen : (pointers pre wi.wiStrings os).length = pre + os.length := length_pointers _ _ _
  by_cases hk : pre + os.length ≤ k
  · rw [st.first, st.cells, resizeCells_append _ _ (hlen ▸ hk), rebase_pointers _ _ _ _ st.base]
    exact iff_of_false (by simp) (Nat.not_lt.mpr hk)
  · refine iff_of_true ?_ (st.first ▸ Nat.lt_of_not_le hk)
    by_contra hsome
    obtain ⟨cells, hcells⟩ := Option.ne_none_iff_exists'.mp hsome
    have hle := length_le_of_rebase hcells
    rw [length_resizeCells, st.first] at hle
    exact hk hle

theorem Collected.unique {nwords' nbytes' : Int} {rs' : List Reply} {errBuf errBuf' : List UInt8}
    (h : Collected A child calls nwords nbytes rs errBuf)
    (h' : Collected A child calls nwords' nbytes' rs' errBuf') :
    nwords = nwords' ∧ nbytes = nbytes' ∧ rs = rs' ∧ errBuf = errBuf' := by
  have hcounts := Option.some.inj (h.counts.symm.trans h'.counts)
  simp only [Prod.mk.injEq] at hcounts
  exact ⟨hcounts.1, hcounts.2.1, hcounts.2.2, Option.some.inj (h.errors.symm.trans h'.errors)⟩

theorem sizesOverrun_iff {sofs : Nat}
    (hcounts : readCounts child.stdout = some (nwords, nbytes, rs)) :
    SizesOverrun A child flags calls we sofs ↔
      A.fails calls = false ∧
      (vectorSize ((counted we nwords).weWordc + 1 + offsOf flags we) < 16 ∨
        A.fails (calls + 1) = false ∧
          (roomFor flags (counted we nwords) < firstCell flags we ∨
            (weReadFully (nbytes % 2 ^ 64).toNat [] rs).1 ≠ [] ∧
              addSize sofs nbytes <
                sofs + (weReadFully (nbytes % 2 ^ 64).toNat [] rs).1.length)) := by
  constructor
  · rintro ⟨nwords', nbytes', rs', hcounts', h⟩
    have heq := Option.some.inj (hcounts.symm.trans hcounts')
    simp only [Prod.mk.injEq] at heq
    obtain ⟨rfl, rfl, rfl⟩ := heq
    exact h
  · exact fun h => ⟨nwords, nbytes, rs, hcounts, h⟩

/-- The collection goes wrong when the sizes are too small. -/
theorem weCollect_eq_none_iff (w : Work h₀ m.heap we wi bytes)
    (st : Start flags we wi bytes pre os tail olds) :
    weCollect A child flags m we = none ↔ SizesOverrun A child flags m.calls we wi.wiNbytes := by
  unfold weCollect
  split
  · next hcounts =>
    refine iff_of_false (by simp) ?_
    rintro ⟨_, _, _, h, _⟩
    rw [hcounts] at h
    cases h
  · next nwords nbytes rs hcounts =>
    rw [sizesOverrun_iff hcounts]
    have w' : Work h₀ m.heap (counted we nwords) wi bytes := w
    have hsize : growVector A flags m (counted we nwords) = none ↔ A.fails m.calls = false ∧
        vectorSize ((counted we nwords).weWordc + 1 + offsOf flags we) < 16 :=
      growVector_eq_none_iff w'
    change (growVector A flags m (counted we nwords)).bind _ = none ↔ _
    cases hgrow : growVector A flags m (counted we nwords) with
    | none =>
      obtain ⟨hfail, hlt⟩ := hsize.mp hgrow
      exact iff_of_true rfl ⟨hfail, .inl hlt⟩
    | some r =>
      obtain ⟨m₁, q⟩ := r
      have hcalls : m₁.calls = m.calls + 1 := (growVector_calls hgrow).2
      rw [hgrow] at hsize
      rw [Option.bind_some]
      dsimp only
      obtain ⟨hfail, rfl, _⟩ | ⟨hfail, hq, a⟩ := growVector_spec A w' hgrow
      · rw [if_pos rfl, hfail]
        exact iff_of_false (by simp) (by simp)
      have hroom : ¬ vectorSize ((counted we nwords).weWordc + 1 + offsOf flags we) < 16 :=
        fun hlt => nomatch hsize.mpr ⟨hfail, hlt⟩
      rw [and_iff_right hfail, or_iff_right hroom, if_neg hq, readInt_of_get a.int]
      obtain ⟨m₂, hst, a₂⟩ := a.storeInt (addSize wi.wiNbytes nbytes)
        (resizeCells (roomFor flags (counted we nwords)) wi.wiWordv)
      have hcells := growStrings_eq_none_iff (A := A) a₂ fun base => st.rebase_eq_none_iff _ base
      dsimp only at hst a₂
      simp only [Option.bind_eq_bind, Option.bind_some, hst]
      rw [calls_of_store hst, hcalls] at hcells
      change (growStrings A m₂ q (firstCell flags we)).bind _ = none ↔ _
      cases hstrings : growStrings A m₂ q (firstCell flags we) with
      | none =>
        obtain ⟨hfail', hlt⟩ := hcells.mp hstrings
        exact iff_of_true rfl ⟨hfail', .inl hlt⟩
      | some r =>
        obtain ⟨m₃, grown⟩ := r
        have hgrown := growStrings_grown hstrings
        rw [calls_of_store hst, hcalls] at hgrown
        rw [hstrings] at hcells
        rw [Option.bind_some]
        dsimp only
        obtain ⟨rfl, _⟩ | ⟨rfl, base, cells, hbase, _, a₃⟩ := growStrings_spec A a₂ hstrings
        · exact iff_of_false (by simp) fun h => absurd (hgrown.mpr h.1) (by decide)
        have hwrite : readWords m₃ q wi.wiNbytes nbytes rs = none ↔ _ :=
          readWords_eq_none_iff a₃ hbase
        rw [length_resize] at hwrite
        have hold : ¬ roomFor flags (counted we nwords) < firstCell flags we := fun hlt =>
          nomatch hcells.mpr ⟨hgrown.mp rfl, hlt⟩
        rw [and_iff_right (hgrown.mp rfl), or_iff_right hold, if_neg (by decide), ← hwrite]
        cases readWords m₃ q wi.wiNbytes nbytes rs with
        | none => exact iff_of_true rfl rfl
        | some r =>
          refine iff_of_false (fun h => ?_) (by simp)
          rw [Option.bind_some] at h
          split at h
          · cases h
          · split at h <;> cases h

/-- A collection ends with an error, or everything has been collected. -/
theorem weCollect_collected {r : Except Nat Vars}
    (hs : weCollect A child flags m we = some (m', we', r)) :
    (∃ err, r = .error err ∧
        ∀ nwords nbytes rs errBuf, ¬ Collected A child m.calls nwords nbytes rs errBuf) ∨
      ∃ v rs, r = .ok v ∧ Collected A child m.calls v.nwords v.nbytes rs v.errBuf := by
  unfold weCollect at hs
  split at hs
  · next hcounts =>
    obtain ⟨-, -, rfl⟩ := by simpa using hs
    refine .inl ⟨_, rfl, fun _ _ _ _ hc => ?_⟩
    have h := hc.counts
    rw [hcounts] at h
    cases h
  · next nwords nbytes rs hcounts =>
    obtain ⟨⟨m₁, q⟩, hgrow, hs⟩ := Option.bind_eq_some_iff.mp hs
    obtain ⟨hzero, hcalls⟩ := growVector_calls hgrow
    dsimp only at hs
    by_cases hq : q = 0
    · rw [if_pos hq] at hs
      obtain ⟨-, -, rfl⟩ := by simpa using hs
      refine .inl ⟨_, rfl, fun _ _ _ _ hc => ?_⟩
      have h := hc.vector
      rw [hzero.mp hq] at h
      cases h
    rw [if_neg hq] at hs
    obtain ⟨wi, _, hs⟩ := Option.bind_eq_some_iff.mp hs
    obtain ⟨m₂, hst, hs⟩ := Option.bind_eq_some_iff.mp hs
    obtain ⟨⟨m₃, grown⟩, hstrings, hs⟩ := Option.bind_eq_some_iff.mp hs
    have hgrown := growStrings_grown hstrings
    rw [calls_of_store hst, hcalls] at hgrown
    dsimp only at hs
    cases grown with
    | false =>
      obtain ⟨-, -, rfl⟩ := by simpa using hs
      exact .inl ⟨_, rfl, fun _ _ _ _ hc => absurd (hgrown.mpr hc.strings) (by decide)⟩
    | true =>
      rw [if_neg (by decide)] at hs
      obtain ⟨⟨m₄, whole⟩, hread, hs⟩ := Option.bind_eq_some_iff.mp hs
      have hwhole := readWords_whole hread
      dsimp only at hs
      cases whole with
      | false =>
        obtain ⟨-, -, rfl⟩ := by simpa using hs
        refine .inl ⟨_, rfl, fun nwords' nbytes' rs' _ hc => ?_⟩
        have heq := Option.some.inj (hc.counts.symm.trans hcounts)
        simp only [Prod.mk.injEq] at heq
        obtain ⟨rfl, rfl, rfl⟩ := heq
        exact absurd (hwhole.mpr hc.whole) (by decide)
      | true =>
        have hvector : A.fails m.calls = false := by simpa using mt hzero.mpr hq
        rw [if_neg (by decide)] at hs
        split at hs <;> simp only [Option.some.injEq, Prod.mk.injEq] at hs
        · next herr =>
          refine .inl ⟨_, hs.2.2.symm, fun _ _ _ _ hc => ?_⟩
          have h := hc.errors
          rw [herr] at h
          cases h
        · next errBuf herr =>
          exact .inr ⟨_, rs, hs.2.2.symm, hcounts, hvector, hgrown.mp rfl, hwhole.mp rfl, herr⟩

/-- From `cleanup` on, with everything collected. -/
theorem WordsOverrun.of_collected {v : Vars}
    (hv : Collected A child calls v.nwords v.nbytes rs v.errBuf) :
    WordsOverrun A child flags calls we ↔
      child.status = some 0 ∧ (0 ∉ v.errBuf ∨ errorText v.errBuf = some none ∧
        roomFor flags (counted we v.nwords) ≤ offsOf flags we + we.weWordc +
          min (v.nwords % 2 ^ 64).toNat
            ((weReadFully (v.nbytes % 2 ^ 64).toNat [] rs).1.count 0)) := by
  constructor
  · rintro ⟨nwords', nbytes', rs', errBuf', hc, h⟩
    obtain ⟨rfl, rfl, rfl, rfl⟩ := hc.unique hv
    exact h
  · exact fun h => ⟨_, _, _, _, hv, h⟩

theorem errorText_eq_none_iff {errBuf : List UInt8} : errorText errBuf = none ↔ 0 ∉ errBuf := by
  unfold errorText
  rw [ite_eq_left_iff]
  simp

theorem weAskshell_eq_none_iff (w : Work h₀ s.mem.heap we wi bytes)
    (st : Start flags we wi bytes pre os tail olds) :
    weAskshell A child flags words s we = none ↔
      LineOverruns A child s.mem.calls words ∨
      startFails A child s.mem.calls = false ∧
        (SizesOverrun A child flags (s.mem.calls + 1) we wi.wiNbytes ∨
          WordsOverrun A child flags (s.mem.calls + 1) we) := by
  unfold weAskshell LineOverruns
  cases hpdes : child.pdes with
  | none => simp [startFails, hpdes]
  | some pdes =>
    cases hperr : child.perr with
    | none => simp [startFails, hperr]
    | some perr =>
      have hstart : startFails A child s.mem.calls = spawnFails A child s.mem.calls := by
        simp [startFails, hpdes, hperr]
      simp only [Option.isSome_some, true_and]
      rw [← spawnShell_eq_none_iff, hstart]
      cases hspawn : spawnShell A child words s.mem with
      | none => exact iff_of_true rfl (.inl rfl)
      | some r =>
        obtain ⟨m₁, spawnerr⟩ := r
        obtain ⟨hheap, hfails, hcalls⟩ := spawnShell_spec A hspawn
        simp only [Option.bind_eq_bind, Option.bind_some, reduceCtorEq, false_or]
        by_cases hne : spawnerr ≠ 0
        · rw [if_pos hne, hfails.mp hne]
          simp
        · have hok : spawnFails A child s.mem.calls = false := by
            simpa using mt hfails.mpr hne
          have hstarted : startFails A child s.mem.calls = false := hstart.trans hok
          rw [if_neg hne, hok, and_iff_right rfl, ← hcalls (not_not.mp hne)]
          rw [← hheap] at w
          have hsizes : weCollect A child flags m₁ we = none ↔ _ := weCollect_eq_none_iff w st
          cases hcollect : weCollect A child flags m₁ we with
          | none => exact iff_of_true rfl (.inl (hsizes.mp hcollect))
          | some r =>
            obtain ⟨m₂, we₂, r⟩ := r
            have hsizes : ¬ SizesOverrun A child flags m₁.calls we wi.wiNbytes :=
              mt hsizes.mpr (by simp [hcollect])
            obtain ⟨err, rfl, hnone⟩ | ⟨v, rs, rfl, hv⟩ := weCollect_collected hcollect
            · simp only [Option.bind_some]
              refine iff_of_false (by simp) (not_or.mpr ⟨hsizes, ?_⟩)
              rintro ⟨_, _, _, _, hc, _⟩
              exact hnone _ _ _ _ hc
            · rw [or_iff_right hsizes, WordsOverrun.of_collected hv]
              obtain ⟨_, hr, _⟩ | ⟨v', rs', p, base, cells, bytes', hr, rfl, hvofs, hsofs, _, hc,
                hf⟩ := weCollect_spec hstarted (hcalls (not_not.mp hne)) w hcollect
              · cases hr
              · obtain rfl := Except.ok.inj hr
                have hrs := Option.some.inj (hv.counts.symm.trans hc.counts)
                simp only [Prod.mk.injEq, true_and] at hrs
                subst hrs
                simp only [Option.bind_some]
                by_cases hstatus : child.status = some 0
                · rw [if_neg (not_not.mpr hstatus), and_iff_right hstatus,
                    ← errorText_eq_none_iff, ← breakWords_eq_none_iff st hvofs hsofs hc hf]
                  cases errorText v.errBuf with
                  | none => simp
                  | some text =>
                    cases text with
                    | some err => simp
                    | none =>
                      rw [Option.bind_some]
                      cases breakWords flags m₂
                          { counted we v.nwords with weWordv := weWordv p } v <;> simp
                · rw [if_pos hstatus]
                  exact iff_of_false (by simp) fun h => hstatus h.1

/-! ## A whole call -/

/-- The copy of the storage reads all of it. -/
theorem VectorAt.storage (hv : VectorAt h₀ we offs ws p wi bytes)
    (hlen : bytes.length = wi.wiNbytes) (hext : Extends h₀ m.heap) :
    (if wi.wiNbytes = 0 then some []
      else (readBytes m wi.wiStrings).bind fun bs => readAt bs 0 wi.wiNbytes) = some bytes := by
  split
  · next hzero => rw [List.eq_nil_of_length_eq_zero (hlen.trans hzero)]
  · next hne =>
    obtain ⟨_, hnil⟩ | ⟨_, hget⟩ := hv.strings
    · rw [hnil] at hlen
      exact absurd hlen.symm hne
    · rw [readBytes, hext _ _ hget, Option.bind_some, readAt, ← hlen,
        if_pos (Nat.zero_add _).le, List.drop_zero, List.take_length]

/-- The copy of the old words goes wrong when there is no old vector. -/
theorem copyWords_eq_none_iff (hc : Complete m.heap we0 (offsOf flags we0) olds) :
    copyWords A flags m we0 = none ↔ A.fails m.calls = false ∧ we0.weWordv = 0 := by
  unfold copyWords
  dsimp only
  obtain ⟨hf₁, hm₁⟩ | ⟨hf₁, a, ha, hna, hm₁⟩ := malloc_cases A m
    (.int { WeInt.empty with
      wiWordv := resizeCells (cellsOf (vectorSize (usedCells flags we0 + 1))) [] }) <;>
    unfold usedCells WeInt.empty at hm₁ <;> rw [hm₁]
  · simp [hf₁]
  · rw [if_neg ha, hf₁, and_iff_right rfl]
    obtain ⟨hnull, _⟩ | ⟨p, wi, bytes, hv, hlen, hnbytes, hsize⟩ := hc
    · rw [if_pos hnull]
      exact iff_of_true (by split <;> rfl) hnull
    · obtain ⟨os, hwords, hbase, hread⟩ := hv.front
      obtain ⟨hroom, hlt⟩ := vectorSize_fits hsize
      have hused : (we0.weWordc + offsOf flags we0) % 2 ^ 64 =
          offsOf flags we0 + olds.length := by
        rw [hv.wordc]
        omega
      have hwordv : we0.weWordv ≠ 0 := hv.wordv ▸ weWordv_ne p
      rw [hused, hroom, if_neg (by omega), if_neg hwordv]
      refine iff_of_false ?_ hwordv
      generalize Obj.int { wiStrings := 0, wiNbytes := 0, wiWordv := _ } = new
      have hext : Extends m.heap (m.heap.set a new) := (Extends.refl _).set new hna
      have hint : readInt { heap := m.heap.set a new, calls := m.calls + 1 }
          (weIntT we0.weWordv) = some wi := by
        rw [hv.wordv, weIntT_weWordv]
        exact readInt_of_get (hext p _ hv.int)
      simp only [hint, hread, Option.bind_eq_bind, Option.bind_some]
      obtain ⟨_, hm₂⟩ | ⟨_, b, hb, hnb, hm₂⟩ := malloc_cases A
        { heap := m.heap.set a new, calls := m.calls + 1 }
        (.bytes (resize (A.junk (m.calls + 1)) wi.wiNbytes [])) <;> simp only [hm₂]
      · simp [free_fresh _ _ ha hna]
      · rw [if_neg hb]
        generalize Obj.bytes (resize (A.junk (m.calls + 1)) wi.wiNbytes []) = new'
        have hext₂ := hext.set new' (hext.none_of_none hnb)
        have hba : a ≠ b := by
          rintro rfl
          rw [Heap.get_set_self] at hnb
          cases hnb
        have hlive : ((m.heap.set a new).set b new').get a = some new := by
          rw [Heap.get_set_ne _ _ hba, Heap.get_set_self]
        have hbytes := hv.storage
          (m := { heap := (m.heap.set a new).set b new', calls := m.calls + 1 + 1 }) hlen hext₂
        rw [hbytes, Option.bind_some, store_live (Heap.get_set_self _ _ _), Option.bind_some,
          ← hwords.length_eq, rebase_pointers b _ os [some 0] hbase, Option.bind_some,
          store_live ((Heap.get_set_ne _ _ hba).trans hlive)]
        simp

theorem startWords_eq_none_iff (hprev : Previous m.heap flags we0 olds) :
    startWords A flags m we0 = none ↔
      hasFlag flags WRDE_APPEND = true ∧ A.fails m.calls = false ∧ we0.weWordv = 0 := by
  unfold startWords
  by_cases happend : hasFlag flags WRDE_APPEND = true
  · rw [if_pos happend, and_iff_right happend, Option.map_eq_none_iff]
    exact copyWords_eq_none_iff (hprev.append happend)
  · rw [if_neg happend]
    exact iff_of_false (by simp) fun h => happend h.1

/-- What the call works on agrees with the caller's structure. -/
theorem Begun.agrees (hprev : Previous m.heap flags we0 olds)
    (hb : Begun A flags m we0 calls we wi bytes) :
    calls = begunCalls flags m.calls ∧ ¬ CopyFails A flags m.calls ∧
      (∃ v, we = { begunWords flags we0 with weWordv := v }) ∧
      wi.wiNbytes = begunSize flags m we0 := by
  unfold Begun at hb
  unfold begunCalls begunWords begunSize CopyFails
  split at hb
  · next happend =>
    obtain ⟨hf₁, hf₂, rfl, h, q, base, wi0, cells, hc, rfl, rfl⟩ := hb
    simp only [happend, if_true, hf₁, hf₂, Bool.false_eq_true, or_self, and_false,
      not_false_eq_true, true_and]
    refine ⟨⟨_, rfl⟩, ?_⟩
    obtain ⟨h0, _⟩ | ⟨p, wi, bytes₀, hv, _⟩ := hprev.append happend
    · exact absurd h0 hc.wordv_ne
    · obtain ⟨m₁, hext, hint⟩ := hc.int
      rw [hv.wordv, weIntT_weWordv] at hint ⊢
      rw [readInt_of_get (hext p _ hv.int)] at hint
      rw [readInt_of_get hv.int, ← Option.some.inj hint]
      rfl
  · next happend =>
    obtain ⟨rfl, rfl, rfl, rfl⟩ := hb
    rw [if_neg happend, if_neg happend, if_neg happend]
    exact ⟨rfl, fun h => happend h.1, ⟨0, rfl⟩, rfl⟩

/-- A call goes wrong in no other place. -/
theorem wordexp_eq_none_iff (hprev : Previous s.mem.heap flags we0 olds) :
    wordexp A child words flags s we0 = none ↔ Overruns A child flags words s.mem we0 := by
  unfold wordexp Overruns
  cases hcheck : weCheck words flags with
  | none => exact iff_of_true rfl (.inl rfl)
  | some error =>
    simp only [reduceCtorEq, false_or, Option.bind_eq_bind, Option.bind_some, Option.some.injEq]
    by_cases hzero : error = 0
    · rw [if_neg (not_not.mpr hzero), and_iff_right hzero, ← startWords_eq_none_iff hprev]
      cases hstart : startWords A flags s.mem we0 with
      | none => exact iff_of_true rfl (.inl rfl)
      | some r =>
        obtain ⟨m₁, r⟩ := r
        simp only [Option.bind_some, reduceCtorEq, false_or]
        obtain ⟨happend, hfail, rfl, _⟩ | ⟨we, wi, bytes, rfl, hb, w⟩ := startWords_spec hstart
        · exact iff_of_false (by simp) fun h => h.1 ⟨happend, hfail⟩
        · obtain ⟨hcalls, hcopy, ⟨v, hwe⟩, hsize⟩ := hb.agrees hprev
          obtain ⟨_, pre, os, tail, st⟩ := hb.start hprev
          have hask : weAskshell A child flags (cstr words) { s with mem := m₁ } we = none ↔ _ :=
            weAskshell_eq_none_iff w st
          subst hwe
          rw [and_iff_right hcopy, ← hcalls, ← hsize]
          refine Iff.trans ?_ hask
          dsimp only
          cases hrun : weAskshell A child flags (cstr words) { s with mem := m₁ }
              { begunWords flags we0 with weWordv := v } with
          | none => exact iff_of_true rfl rfl
          | some r =>
            obtain ⟨s₂, we₂, error₂⟩ := r
            obtain ⟨wi', bytes', w'⟩ := (weAskshell_exit (s := { s with mem := m₁ }) w hrun).work
            refine iff_of_false ?_ (by simp)
            simp only [Option.bind_some]
            split
            · obtain ⟨m₃, we₃, hfree, _⟩ := w'.wordfree
              simp [hfree]
            · split
              · next hreuse =>
                -- the caller's old structure is still there
                obtain ⟨offs, ws, hc⟩ := hprev.reuse hreuse
                have hfree := (hc.wellFormed.extends w'.owned.extends).wordfree
                obtain ⟨r, hr⟩ := Option.isSome_iff_exists.mp hfree
                simp [hr]
              · simp
    · rw [if_pos hzero]
      exact iff_of_false (by simp) fun h => hzero h.1

/-! ## Calls that stay inside -/

/-- The string is scanned inside its memory and shorter than 4 GiB, there is an old vector to
    append to, `err_buf` holds a string when it is searched, and the sizes that follow from the
    counts fit a `size_t`. -/
structure Bounded (child : Child) (flags : Nat) (words : List UInt8) (m : Mem Obj)
    (we0 : WordexpT) : Prop where
  check : weCheck words flags ≠ none
  line : command.length + (cstr words).length + 1 < 2 ^ 32
  vector : hasFlag flags WRDE_APPEND = true → we0.weWordv ≠ 0
  text : ∀ errBuf, readErrors child = some errBuf → 0 ∈ errBuf
  cells : ∀ nwords nbytes rs, readCounts child.stdout = some (nwords, nbytes, rs) →
    (offsOf flags we0 + (begunWords flags we0).weWordc + nwords + 1) * 8 + 16 < 2 ^ 64
  storage : ∀ nwords nbytes rs, readCounts child.stdout = some (nwords, nbytes, rs) →
    begunSize flags m we0 + nbytes < 2 ^ 64

/-- The child is started and announces a negative number of words. -/
def Shrinks (A : Allocator Obj) (child : Child) (flags calls : Nat) : Prop :=
  ¬ CopyFails A flags calls ∧
    ∃ nwords nbytes rs, Announced A child (begunCalls flags calls) nwords nbytes rs ∧ nwords < 0

theorem offsOf_begunWords : offsOf flags (begunWords flags we0) = offsOf flags we0 := by
  have hoffs : (begunWords flags we0).weOffs = we0.weOffs := by
    unfold begunWords
    split <;> rfl
  rw [offsOf, offsOf, hoffs]

/-- The old words end at the latest where the null pointers and they all have their cells. -/
theorem firstCell_le (flags : Nat) (we : WordexpT) :
    firstCell flags we ≤ offsOf flags we + we.weWordc := by
  unfold firstCell offsOf
  cases hasFlag flags WRDE_DOOFFS with
  | false => simp
  | true =>
    simp only [Bool.true_and, if_true]
    split
    · exact (Nat.mod_le _ _).trans (Nat.add_comm _ _).le
    · exact Nat.le_add_left _ _

/-- A command line below 4 GiB fits: from 2 GiB on `buflen` is negative and `malloc` is asked for
    more than that. -/
theorem Bounded.not_lineOverruns (hb : Bounded child flags words m we0) :
    ¬ LineOverruns A child calls (cstr words) := by
  rintro ⟨_, _, _, _, hlt⟩
  have hline := hb.line
  unfold buflen at hlt
  rw [Int.bmod_def] at hlt
  split at hlt <;> omega

section Sizes

variable (hb : Bounded child flags words m we0)
  (hcounts : readCounts child.stdout = some (nwords, nbytes, rs)) (hn : 0 ≤ nwords)
include hb hcounts hn

/-- The vector gets a cell for each null pointer, each word, old or new, and the end. -/
theorem Bounded.room :
    roomFor flags (counted (begunWords flags we0) nwords) =
      offsOf flags we0 + (begunWords flags we0).weWordc + nwords.toNat + 1 ∧
    vectorSize ((counted (begunWords flags we0) nwords).weWordc + 1 +
      offsOf flags (begunWords flags we0)) ≥ 16 := by
  have hcells := hb.cells _ _ _ hcounts
  have hwordc : (counted (begunWords flags we0) nwords).weWordc =
      (begunWords flags we0).weWordc + nwords.toNat := by
    unfold counted addSize
    dsimp only
    omega
  have hoffs : offsOf flags (counted (begunWords flags we0) nwords) = offsOf flags we0 :=
    offsOf_begunWords
  unfold roomFor
  rw [hwordc, hoffs, offsOf_begunWords]
  unfold cellsOf vectorSize
  omega

theorem Bounded.not_sizesOverrun :
    ¬ SizesOverrun A child flags calls (begunWords flags we0) (begunSize flags m we0) := by
  obtain ⟨hroom, hsize⟩ := hb.room hcounts hn
  rw [sizesOverrun_iff hcounts]
  rintro ⟨_, hlt | ⟨_, hlt | ⟨hgot, hlt⟩⟩⟩
  · omega
  · -- the old words have kept their cells
    have hle := firstCell_le flags (begunWords flags we0)
    rw [offsOf_begunWords] at hle
    omega
  · have hstorage := hb.storage _ _ _ hcounts
    have hgotlen : (weReadFully (nbytes % 2 ^ 64).toNat [] rs).1.length ≤
        (nbytes % 2 ^ 64).toNat := length_weReadFully_le (Nat.zero_le _)
    have hmax : (nbytes % 2 ^ 64).toNat ≤ INT_MAX := by
      by_contra hgt
      rw [weReadFully_of_gt (Nat.lt_of_not_le hgt)] at hgot
      exact hgot rfl
    obtain ⟨_, _, hlo, _⟩ := readCounts_bounds hcounts
    unfold addSize at hlt
    unfold INT_MAX at hmax
    omega

theorem Bounded.not_wordsOverrun :
    ¬ WordsOverrun A child flags calls (begunWords flags we0) := by
  rintro ⟨nwords', nbytes', rs', errBuf, hc, _, htext | ⟨_, hlt⟩⟩
  · exact htext (hb.text _ hc.errors)
  · have heq := Option.some.inj (hc.counts.symm.trans hcounts)
    simp only [Prod.mk.injEq] at heq
    obtain ⟨rfl, rfl, rfl⟩ := heq
    obtain ⟨_, hlt', _⟩ := readCounts_bounds hcounts
    rw [(hb.room hcounts hn).1, offsOf_begunWords] at hlt
    omega

end Sizes

/-- Within these bounds a call leaves its memory only for a child that announces a negative number
    of words. -/
theorem Bounded.not_overruns (hb : Bounded child flags words m we0)
    (hn : ¬ Shrinks A child flags m.calls) : ¬ Overruns A child flags words m we0 := by
  rintro (hcheck | ⟨_, ⟨happend, _, hnull⟩ | ⟨hcopy, hline | ⟨hstart, hover⟩⟩⟩)
  · exact hb.check hcheck
  · exact hb.vector happend hnull
  · exact hb.not_lineOverruns hline
  · have hpos : ∀ {nwords nbytes rs}, readCounts child.stdout = some (nwords, nbytes, rs) →
        0 ≤ nwords := by
      intro nwords nbytes rs hcounts
      by_contra hneg
      exact hn ⟨hcopy, nwords, nbytes, rs, ⟨hstart, hcounts⟩, Int.not_le.mp hneg⟩
    obtain ⟨_, _, _, hcounts, _⟩ | ⟨_, _, _, _, hc, _⟩ := id hover
    · refine hover.elim (hb.not_sizesOverrun hcounts (hpos hcounts)) ?_
      exact hb.not_wordsOverrun hcounts (hpos hcounts)
    · refine hover.elim (hb.not_sizesOverrun hc.counts (hpos hc.counts)) ?_
      exact hb.not_wordsOverrun hc.counts (hpos hc.counts)

theorem Bounded.isSome (hb : Bounded child flags words s.mem we0)
    (hprev : Previous s.mem.heap flags we0 olds) (hn : ¬ Shrinks A child flags s.mem.calls) :
    (wordexp A child words flags s we0).isSome = true := by
  rw [Option.isSome_iff_ne_none, ne_eq, wordexp_eq_none_iff hprev]
  exact hb.not_overruns hn

/-! ## What a call builds -/

theorem Sends.not_shrinks (hsend : Sends child news) : ¬ Shrinks A child flags calls := by
  rintro ⟨_, nwords, nbytes, rs, hc, hneg⟩
  have hn := (hsend.counts hc.counts).1
  omega

/-- A child that sends its words with their counts does not make the call leave its memory, and
    whatever the addresses are: when `wordexp` returns `0`, the structure holds the words that
    the child has sent behind the old ones. -/
theorem wordexp_builds (hprev : Previous s.mem.heap flags we0 olds) (hsend : Sends child news) :
    (Bounded child flags words s.mem we0 →
      (wordexp A child words flags s we0).isSome = true) ∧
    ∀ s' we', wordexp A child words flags s we0 = some (s', we', 0) →
      we'.weOffs = we0.weOffs ∧ we'.weWordv ≠ 0 ∧
        Complete s'.mem.heap we' (offsOf flags we0) (olds ++ news) := by
  refine ⟨fun hb => hb.isSome hprev hsend.not_shrinks, fun s' we' hs => ?_⟩
  obtain ⟨_, hne, _⟩ | ⟨_, _, hne, _⟩ | ⟨calls, we, wi, bytes, h, we₂, hb, hexit, hret⟩ :=
    wordexp_cases hs
  · exact absurd rfl hne
  · cases hne
  · obtain ⟨hoffs, pre, os, tail, st⟩ := hb.start hprev
    obtain ⟨wi', bytes', w⟩ := hexit.work
    obtain ⟨rfl, hkeep⟩ := hret.get_eq (.inl rfl) hprev w.owned.extends
    obtain ⟨hoffs', hwordv, hc⟩ := hexit.complete hsend st
    have heq : offsOf flags we = offsOf flags we0 := by rw [offsOf, offsOf, hoffs]
    refine ⟨hoffs'.trans hoffs, hwordv, heq ▸ hc.imp id ?_⟩
    rintro ⟨p, wi₁, bytes₁, hv, hrest⟩
    exact ⟨p, wi₁, bytes₁, hv.kept w hkeep, hrest⟩

/-- The child sends the word `a`. -/
def sendsA : Child := goodChild (chars "0000000100000001" ++ [97, 0])

theorem sendsA_sends : Sends sendsA [[97]] :=
  ⟨by decide, chars "00000001", chars "00000001", [], by decide, by decide, by decide, by decide,
    by decide⟩

theorem sendsA_counts : readCounts sendsA.stdout = some (1, 2, [.data [97, 0]]) := rfl

theorem sendsA_bounded {m : Mem Obj} (hoffs : offsOf flags we0 ≤ 1) (hwordc : we0.weWordc ≤ 1)
    (hnull : hasFlag flags WRDE_APPEND = true → we0.weWordv ≠ 0)
    (hsize : begunSize flags m we0 ≤ 2) (hcheck : weCheck [120, 0] flags ≠ none) :
    Bounded sendsA flags [120, 0] m we0 where
  check := hcheck
  line := by decide
  vector := hnull
  text errBuf h := by
    obtain rfl : [0] = errBuf := Option.some.inj h
    exact List.mem_singleton_self 0
  cells nwords nbytes rs h := by
    obtain ⟨rfl, _⟩ := Prod.mk.inj (Option.some.inj (sendsA_counts.symm.trans h))
    have hle : (begunWords flags we0).weWordc ≤ 1 := by
      unfold begunWords
      split
      · exact hwordc
      · exact Nat.zero_le 1
    omega
  storage nwords nbytes rs h := by
    obtain ⟨_, h⟩ := Prod.mk.inj (Option.some.inj (sendsA_counts.symm.trans h))
    obtain ⟨rfl, _⟩ := Prod.mk.inj h
    omega

/-- The word goes into a new vector behind a null pointer, and then behind the word `b`. -/
theorem wordexp_builds_twice :
    (∃ s' we', wordexp (Allocator.bump Obj fun _ => false) sendsA [120, 0] WRDE_DOOFFS
        { mem := { heap := Heap.empty, calls := 0 }, sigmask := ∅, closed := [] }
        { weWordc := 0, weWordv := 0, weOffs := 1 } = some (s', we', 0) ∧
      Complete s'.mem.heap we' 1 [[97]]) ∧
    ∃ s' we', wordexp (Allocator.bump Obj fun _ => false) sendsA [120, 0]
        (WRDE_APPEND ||| WRDE_DOOFFS ||| WRDE_REUSE) oneWordProc oneWord = some (s', we', 0) ∧
      Complete s'.mem.heap we' 1 [[98], [97]] := by
  constructor
  · have hprev : Previous (Heap.empty : Heap Obj) WRDE_DOOFFS
        { weWordc := 0, weWordv := 0, weOffs := 1 } [] := ⟨nofun, fun _ => rfl, nofun⟩
    have hbounded : Bounded sendsA WRDE_DOOFFS [120, 0] { heap := Heap.empty, calls := 0 }
        { weWordc := 0, weWordv := 0, weOffs := 1 } :=
      sendsA_bounded (by decide) (by decide) nofun (by decide) (by decide)
    have hrun := (wordexp_builds (A := Allocator.bump Obj fun _ => false)
      (s := { mem := { heap := Heap.empty, calls := 0 }, sigmask := ∅, closed := [] }) hprev
      sendsA_sends).1 hbounded
    obtain ⟨⟨s', we', err⟩, hs⟩ := Option.isSome_iff_exists.mp hrun
    have herr := congrArg (Option.map fun r => r.2.2) hs
    obtain rfl : (0 : Nat) = err := Option.some.inj herr
    have hwords := (wordexp_builds hprev sendsA_sends).2 s' we' hs
    exact ⟨s', we', hs, hwords.2.2⟩
  · have hbounded : Bounded sendsA (WRDE_APPEND ||| WRDE_DOOFFS ||| WRDE_REUSE) [120, 0]
        oneWordProc.mem oneWord :=
      sendsA_bounded (by decide) (by decide) (by decide) (by decide) (by decide)
    have hrun := (wordexp_builds (A := Allocator.bump Obj fun _ => false) oneWord_previous
      sendsA_sends).1 hbounded
    obtain ⟨⟨s', we', err⟩, hs⟩ := Option.isSome_iff_exists.mp hrun
    have herr := congrArg (Option.map fun r => r.2.2) hs
    obtain rfl : (0 : Nat) = err := Option.some.inj herr
    have hwords := (wordexp_builds oneWord_previous sendsA_sends).2 s' we' hs
    exact ⟨s', we', hs, hwords.2.2⟩

end Librecompat.Wordexp
