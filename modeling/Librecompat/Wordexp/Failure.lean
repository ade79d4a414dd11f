/-
  What the caller has after a failed `wordexp`.

  With an error that is not `WRDE_NOSPACE` the call has worked on blocks of its own and has freed
  them: the heap is the caller's (`wordexp_atomic`). That is so unless the call has left its
  memory, as it does for a child that takes words back (`wordexp_atomic_iff`): the vector shrinks
  below the cells of the old words, which are rebased next. With `WRDE_NOSPACE` the caller gets the
  structure as the call left it. `we_wordc` counts the new words from the moment the child has
  sent their number, but their pointers and the null pointer behind them come last, so the
  structure is well formed only at some of the exits (`wordexp_nospace_iff`).
-/
import Librecompat.Wordexp.Overruns

namespace Librecompat.Wordexp

open Librecompat.Lib

variable {A : Allocator Obj} {child : Child} {h₀ h h' : Heap Obj} {we we' we0 : WordexpT}
  {wi : WeInt} {bytes words : List UInt8} {offs flags calls p err : Nat}
  {ws olds : List (List UInt8)} {s s' : Proc}

/-! ## Errors of the words -/

/-- Nothing of the caller has changed. -/
theorem wordexp_atomic
    (herr : err = WRDE_SYNTAX ∨ err = WRDE_BADVAL ∨ err = WRDE_BADCHAR ∨ err = WRDE_CMDSUB)
    (hs : wordexp A child words flags s we0 = some (s', we', err)) :
    we' = we0 ∧ s'.mem.heap = s.mem.heap := by
  have hne : err ≠ 0 ∧ err ≠ WRDE_NOSPACE := by
    rcases herr with rfl | rfl | rfl | rfl <;> decide
  obtain ⟨_, _, rfl, hwe⟩ | ⟨_, _, h0, _⟩ | ⟨_, _, _, _, _, _, _, _, hret⟩ := wordexp_cases hs
  · exact ⟨hwe, rfl⟩
  · exact absurd h0 hne.2
  · rcases hret with ⟨_, _, hwe, hheap⟩ | ⟨hok, _⟩
    · exact ⟨hwe, hheap⟩
    · exact absurd hok (not_or.mpr hne)

/-- With an error of the words nothing of the caller changes. A call that leaves its memory may
    change anything. -/
def Atomic (A : Allocator Obj) (child : Child) (words : List UInt8) (flags : Nat) (s : Proc)
    (we0 : WordexpT) : Prop :=
  ∃ s' we' err, wordexp A child words flags s we0 = some (s', we', err) ∧
    (err = WRDE_SYNTAX ∨ err = WRDE_BADVAL ∨ err = WRDE_BADCHAR ∨ err = WRDE_CMDSUB →
      we' = we0 ∧ s'.mem.heap = s.mem.heap)

/-- The errors of the words change nothing exactly when the call does not leave its memory. -/
theorem wordexp_atomic_iff (hprev : Previous s.mem.heap flags we0 olds) :
    Atomic A child words flags s we0 ↔ ¬ Overruns A child flags words s.mem we0 := by
  rw [← wordexp_eq_none_iff hprev, ← ne_eq, Option.ne_none_iff_exists']
  constructor
  · rintro ⟨s', we', err, hs, _⟩
    exact ⟨_, hs⟩
  · rintro ⟨⟨s', we', err⟩, hs⟩
    exact ⟨s', we', err, hs, fun herr => wordexp_atomic herr hs⟩

/-- The shell ends with an error behind the word `a`. -/
theorem wordexp_atomic_iff_append :
    Atomic (Allocator.bump Obj fun _ => false) { sendsA with status := some 1 } [120, 0]
        (WRDE_APPEND ||| WRDE_DOOFFS ||| WRDE_REUSE) oneWordProc oneWord ↔
      ¬ Overruns (Allocator.bump Obj fun _ => false) { sendsA with status := some 1 }
        (WRDE_APPEND ||| WRDE_DOOFFS ||| WRDE_REUSE) [120, 0] oneWordProc.mem oneWord :=
  wordexp_atomic_iff oneWord_previous

/-- The words `b` and `c`. -/
def twoWordsProc : Proc where
  mem := { heap := (Heap.empty.set 16 (.int { wiStrings := 64, wiNbytes := 4,
                                              wiWordv := [some 64, some 66, some 0] })).set
                     64 (.bytes [98, 0, 99, 0]), calls := 0 }
  sigmask := ∅
  closed := []

def twoWords : WordexpT := { weWordc := 2, weWordv := 32, weOffs := 0 }

theorem twoWords_previous : Previous twoWordsProc.mem.heap WRDE_APPEND twoWords [[98], [99]] := by
  refine ⟨fun _ => .inr ⟨16, _, [98, 0, 99, 0], ⟨rfl, by decide, rfl, .inr ⟨by decide, rfl⟩, rfl,
    [0, 2], [], rfl, ?_⟩, rfl, by decide, by decide⟩, nofun, nofun⟩
  exact .cons ⟨by decide, by decide⟩ (.cons ⟨by decide, by decide⟩ .nil)

/-- The child takes two words back and fails: the new vector has one cell, and two are rebased
    before the call returns `WRDE_SYNTAX`. -/
theorem negative_count_overruns :
    ¬ ∀ (A : Allocator Obj) (child : Child) (words : List UInt8) (flags : Nat) (s : Proc)
        (we0 : WordexpT) (olds : List (List UInt8)),
      Previous s.mem.heap flags we0 olds → Atomic A child words flags s we0 := by
  intro h
  obtain ⟨s', we', err, hs, _⟩ := h (Allocator.bump Obj fun _ => false)
    { goodChild (chars "-000000200000002") with status := some 1 } [120, 0] WRDE_APPEND
    twoWordsProc twoWords _ twoWords_previous
  have hnone : wordexp (Allocator.bump Obj fun _ => false)
      { goodChild (chars "-000000200000002") with status := some 1 } [120, 0] WRDE_APPEND
      twoWordsProc twoWords = none := rfl
  rw [hnone] at hs
  cases hs

/-! ## The cells of a well formed vector -/

theorem resizeCells_get {n i x : Nat} {cells : List (Option Nat)}
    (h : (resizeCells n cells)[i]? = some (some x)) : cells[i]? = some (some x) := by
  unfold resizeCells at h
  rw [List.getElem?_take] at h
  split at h
  · by_cases hi : i < cells.length
    · rw [List.getElem?_append_left hi] at h
      exact h
    · rw [List.getElem?_append_right (by omega), List.getElem?_replicate] at h
      split at h <;> cases h
  · cases h

theorem pointers_get (offs base : Nat) {os : List Nat} {j : Nat} (hj : j < os.length)
    (t : List (Option Nat)) :
    (pointers offs base os ++ t)[offs + j]? = some (some (base + os[j])) := by
  have hlen : offs + j < (pointers offs base os).length := by
    rw [length_pointers]
    omega
  rw [List.getElem?_append_left hlen, pointers,
    List.getElem?_append_right (by rw [List.length_replicate]; omega), List.length_replicate,
    Nat.add_sub_cancel_left, List.getElem?_map, List.getElem?_eq_getElem hj, Option.map_some]

/-- Behind the pointers, only the last cell can be the null pointer at the end. -/
theorem null_last {base c : Nat} {os : List Nat} (hb : os ≠ [] → base ≠ 0)
    (h : (pointers offs base os ++ [some 0])[offs + c]? = some (some 0)) : c = os.length := by
  by_cases hc : c < os.length
  · have hne := hb (List.length_pos_iff.mp (Nat.zero_lt_of_lt hc))
    rw [pointers_get _ _ hc] at h
    have hzero := Option.some.inj (Option.some.inj h)
    omega
  · rw [List.getElem?_append_right (by rw [length_pointers]; omega), length_pointers] at h
    have hlt := (List.getElem?_eq_some_iff.mp h).1
    rw [List.length_singleton] at hlt
    omega

theorem VectorAt.null (hv : VectorAt h we offs ws p wi bytes) :
    wi.wiWordv[offs + we.weWordc]? = some (some 0) := by
  obtain ⟨os, tail, hcells, hwords⟩ := hv.cells
  have hlen : (pointers offs wi.wiStrings os).length = offs + we.weWordc := by
    rw [length_pointers, hwords.length_eq, hv.wordc]
  rw [hcells, ← hlen, List.getElem?_append_right (le_refl _), Nat.sub_self]
  rfl

theorem VectorAt.word (hv : VectorAt h we offs ws p wi bytes) {j : Nat} (hj : j < we.weWordc) :
    ∃ o, wi.wiWordv[offs + j]? = some (some (wi.wiStrings + o)) ∧ 0 ∈ bytes.drop o := by
  obtain ⟨os, tail, hcells, hwords⟩ := hv.cells
  have hlen : j < os.length := by
    rw [hwords.length_eq, ← hv.wordc]
    exact hj
  refine ⟨os[j], by rw [hcells, pointers_get _ _ hlen], ?_⟩
  have hlen' : j < ws.length := hv.wordc ▸ hj
  have hword := hwords.get hlen hlen'
  exact hword.2.subset (by simp)

/-- The vector and the storage of a well formed structure are those that it has. -/
theorem WellFormed.vectorAt (hw : WellFormed h we offs) (hp : we.weWordv = weWordv p)
    (a : At h₀ h p wi bytes) : ∃ ws, VectorAt h we offs ws p wi bytes := by
  rcases hw with ⟨h0, _⟩ | ⟨ws, q, wi', bytes', hv⟩
  · exact absurd (hp.symm.trans h0) (weWordv_ne p)
  · obtain rfl : q = p := Nat.add_right_cancel (hv.wordv.symm.trans hp)
    obtain rfl : wi' = wi := Obj.int.inj (Option.some.inj (hv.int.symm.trans a.int))
    refine ⟨ws, ?_⟩
    rcases hv.strings, a.strings with ⟨⟨h0, rfl⟩ | ⟨hne, hb⟩, ⟨h0', rfl⟩ | ⟨hne', hb'⟩⟩
    · exact hv
    · exact absurd h0 hne'
    · exact absurd h0' hne
    · obtain rfl := Obj.bytes.inj (Option.some.inj (hb.symm.trans hb'))
      exact hv

/-! ## The exits with `WRDE_NOSPACE` -/

section Exits

variable {nwords nbytes : Int} {rs : List Reply} {pre : Nat} {os : List Nat}
  {tail : List (Option Nat)}

/-- The number of words that the child sends. -/
def sentWords (child : Child) : Int := strtol16 ((delivered child.stdout).take 8)

theorem Announced.sentWords (hc : Announced A child calls nwords nbytes rs) :
    sentWords child = nwords ∧ (-(2 ^ 32) < nwords ∧ nwords < 2 ^ 32) ∧ -(2 ^ 33) < nbytes ∧
      nbytes < 2 ^ 33 := by
  refine ⟨?_, (readCounts_bounds hc.counts).2⟩
  obtain ⟨w, b, hw, _, hdeliv, rfl, _⟩ := readCounts_delivered hc.counts
  unfold Wordexp.sentWords
  rw [hdeliv, List.append_assoc, ← hw, List.take_left]

theorem addSize_eq_self {a : Nat} {d : Int} (ha : a < 2 ^ 61) (hd : -(2 ^ 32) < d ∧ d < 2 ^ 32) :
    addSize a d = a ↔ d = 0 := by
  unfold addSize
  omega

/-- With no words announced the vector keeps its cells. -/
theorem Start.cells_eq (st : Start flags we wi bytes pre os [some 0] olds)
    (hpre : pre = offsOf flags we) :
    resizeCells (roomFor flags (counted we 0)) wi.wiWordv =
      pointers (offsOf flags we) wi.wiStrings os ++ [some 0] := by
  have hroom := st.room
  have hos : os.length = olds.length := st.words.length_eq
  have hsize : roomFor flags (counted we 0) = (pointers pre wi.wiStrings os ++ [some 0]).length := by
    unfold roomFor counted
    have hzero : addSize we.weWordc 0 = olds.length := by
      unfold addSize
      rw [st.wordc]
      omega
    have hoffs : offsOf flags { we with weWordc := olds.length } = pre := hpre.symm
    rw [hzero, hoffs, List.length_append, length_pointers, List.length_singleton, hos]
    unfold cellsOf vectorSize
    dsimp only
    omega
  rw [st.cells, hsize, resizeCells_of_le (le_refl _), Nat.sub_self, List.replicate_zero,
    List.append_nil, hpre]

/-- The vector that the call starts with has all its words. -/
theorem Start.vectorAt (st : Start flags we wi bytes pre os [some 0] olds)
    (hpre : pre = offsOf flags we) (hp : we.weWordv = weWordv p) (a : At h₀ h p wi bytes) :
    VectorAt h we (offsOf flags we) olds p wi bytes :=
  ⟨hp, a.ne, a.int, a.strings, st.wordc, os, [], hpre ▸ st.cells, st.words⟩

/-- With a copy of the old vector, the null pointer at its end is where `we_wordc` says exactly
    when no words were announced. -/
theorem wellFormed_append_iff {base n : Nat} {cells : List (Option Nat)}
    {bytes' : List UInt8} (hn : -(2 ^ 32) < nwords ∧ nwords < 2 ^ 32) (holds : olds.length < 2 ^ 61)
    (hb : os ≠ [] → base ≠ 0) (hp : we'.weWordv = weWordv p)
    (hwordc : we'.weWordc = addSize olds.length nwords)
    (a : At h₀ h p { wiStrings := base, wiNbytes := n, wiWordv := cells } bytes')
    (hwords : WordsAt bytes' os olds)
    (hcells : ∃ k, cells = resizeCells k (pointers offs base os ++ [some 0]))
    (hself : nwords = 0 → cells = pointers offs base os ++ [some 0]) :
    WellFormed h we' offs ↔ nwords = 0 := by
  have hiff := addSize_eq_self holds hn
  constructor
  · intro hw
    obtain ⟨ws, hv⟩ := hw.vectorAt hp a
    have hnull := hv.null
    dsimp only at hnull
    obtain ⟨k, rfl⟩ := hcells
    have hlast := null_last hb (resizeCells_get hnull)
    rw [hwords.length_eq, hwordc] at hlast
    exact hiff.mp hlast
  · intro hzero
    exact .inr ⟨olds, p, _, bytes', hp, a.ne, a.int, a.strings, hwordc.trans (hiff.mpr hzero), os,
      [], hself hzero, hwords⟩

/-- A new vector has no null pointer before the words are in it. -/
theorem not_wellFormed_new {base n k : Nat} {bytes' : List UInt8}
    (hp : we'.weWordv = weWordv p)
    (a : At h₀ h p { wiStrings := base, wiNbytes := n, wiWordv := resizeCells k [] } bytes') :
    ¬ WellFormed h we' offs := by
  intro hw
  obtain ⟨ws, hv⟩ := hw.vectorAt hp a
  have hget := resizeCells_get hv.null
  cases hget

/-- A word without an end spoils the vector. -/
theorem not_wellFormed_stuck {base n : Nat} {t cells : List (Option Nat)}
    {bytes' rest : List UInt8} {count : Nat} (hbase : base ≠ 0) (hp : we'.weWordv = weWordv p)
    (hrest : rest = bytes'.drop wi.wiNbytes)
    (hstore : storeWords count rest (base + wi.wiNbytes) (offs + os.length)
      (pointers offs base os ++ t) = some (none, cells))
    (a : At h₀ h p { wiStrings := base, wiNbytes := n, wiWordv := cells } bytes') :
    ¬ WellFormed h we' offs := by
  intro hw
  obtain ⟨ws, hv⟩ := hw.vectorAt hp a
  have hnull := hv.null
  dsimp only at hnull
  obtain ⟨k, d, hbelow, hnew, hlast, hnul⟩ := storeWords_stuck (by omega) hstore
  by_cases hold : we'.weWordc < os.length
  · -- the end would be at a pointer to an old word
    rw [hbelow _ (by omega), pointers_get _ _ hold] at hnull
    have hzero := Option.some.inj (Option.some.inj hnull)
    omega
  · by_cases hin : we'.weWordc ≤ os.length + k
    · -- the end would be at a pointer to a new word
      obtain ⟨q, hq, hget⟩ := hnew (we'.weWordc - os.length) (by omega)
      have hidx : offs + os.length + (we'.weWordc - os.length) = offs + we'.weWordc := by omega
      rw [hidx, hnull] at hget
      exact hq (Option.some.inj (Option.some.inj hget)).symm
    · -- the word without an end would be one of the words
      obtain ⟨o, hget, hmem⟩ := hv.word (j := os.length + k) (by omega)
      dsimp only at hget
      rw [← Nat.add_assoc, hlast] at hget
      have ho : o = wi.wiNbytes + d := by
        have heq := Option.some.inj (Option.some.inj hget)
        omega
      rw [ho, ← List.drop_drop, ← hrest] at hmem
      exact hnul hmem

theorem Start.cases (st : Start flags we wi bytes pre os tail olds) :
    (hasFlag flags WRDE_APPEND = true ∧ pre = offsOf flags we ∧ tail = [some 0] ∧
      we.weWordv ≠ 0) ∨
    (hasFlag flags WRDE_APPEND = false ∧ pre = 0 ∧ os = [] ∧ tail = [] ∧ we.weWordv = 0 ∧
      we.weWordc = 0) := by
  have hshape := st.shape
  split at hshape
  · next happend => exact .inl ⟨happend, hshape⟩
  · next happend =>
    obtain ⟨hpre, rfl, htail, hwordv⟩ := hshape
    refine .inr ⟨by simpa using happend, hpre, rfl, htail, hwordv, ?_⟩
    rw [st.wordc, ← st.words.length_eq]
    rfl

/-- At which exits with `WRDE_NOSPACE` the structure is well formed. -/
theorem Exit.wellFormed_iff (st : Start flags we wi bytes pre os tail olds)
    (e : Exit A child flags calls h₀ we wi bytes h we' WRDE_NOSPACE) :
    WellFormed h we' (offsOf flags we) ↔
      startFails A child calls = true ∨ (sentWords child = 0 ∧
        (A.fails (calls + 1) = true ∨ hasFlag flags WRDE_APPEND = true)) := by
  have holds : olds.length < 2 ^ 61 := by
    have hroom := st.room
    omega
  generalize hnospace : WRDE_NOSPACE = err at e
  cases e with
  | notStarted hstart hw =>
    refine iff_of_true ?_ (.inl hstart)
    rcases st.cases with ⟨_, hpre, rfl, hne⟩ | ⟨_, _, _, _, hwordv, hwordc⟩
    · obtain ⟨p, hp, a⟩ := hw.resolve_left fun h0 => hne h0.1
      exact .inr ⟨olds, p, wi, bytes, st.vectorAt hpre hp a⟩
    · exact .inl ⟨hwordv, hwordc⟩
  | noCounts _ =>
    rcases shellError_cases flags with hs | hs <;> rw [hs] at hnospace <;> cases hnospace
  | @noVector _ nwords nbytes rs hc hfail hw =>
    obtain ⟨hsent, hn, _⟩ := hc.sentWords
    rw [hc.started, hfail, hsent]
    simp only [Bool.false_eq_true, true_or, and_true, false_or]
    rcases st.cases with ⟨_, hpre, rfl, hne⟩ | ⟨_, _, _, _, hwordv, hwordc⟩
    · obtain ⟨p, hp, a⟩ := hw.resolve_left fun h0 => hne h0.1
      have hlen : (pointers (offsOf flags we) wi.wiStrings os ++ [some 0]).length =
          offsOf flags we + os.length + 1 := by
        rw [List.length_append, length_pointers, List.length_singleton]
      have hcells : wi.wiWordv = pointers (offsOf flags we) wi.wiStrings os ++ [some 0] :=
        hpre ▸ st.cells
      refine wellFormed_append_iff hn holds st.base hp (by rw [counted, st.wordc]) a st.words
        ⟨offsOf flags we + os.length + 1, ?_⟩ fun _ => hcells
      rw [← hlen, resizeCells_of_le (le_refl _), Nat.sub_self, List.replicate_zero,
        List.append_nil]
      exact hcells
    · constructor
      · rintro (⟨_, hzero⟩ | ⟨_, q, _, _, hv⟩)
        · unfold counted addSize at hzero
          dsimp only at hzero
          omega
        · exact absurd (hv.wordv.symm.trans hwordv) (weWordv_ne q)
      · rintro rfl
        exact .inl ⟨hwordv, by rw [counted, hwordc]; rfl⟩
  | @noStrings _ nwords nbytes rs p hc hfail a =>
    obtain ⟨hsent, hn, _⟩ := hc.sentWords
    rw [hc.started, hfail, hsent]
    simp only [Bool.false_eq_true, false_or]
    rcases st.cases with ⟨happend, hpre, rfl, _⟩ | ⟨happend, rfl, rfl, rfl, _⟩
    · rw [happend, and_iff_left rfl]
      refine wellFormed_append_iff hn holds st.base rfl (by rw [counted, st.wordc]) a st.words
        ⟨_, by rw [st.cells, hpre]⟩ ?_
      rintro rfl
      exact st.cells_eq hpre
    · rw [happend]
      refine iff_of_false ?_ fun h => Bool.false_ne_true h.2
      rw [show wi.wiWordv = [] from st.cells] at a
      exact not_wellFormed_new rfl a
  | refused _ herr => rcases herr with rfl | rfl <;> cases hnospace
  | @noErrors _ nwords nbytes rs p base cells bytes' hc hfail hf =>
    obtain ⟨hsent, hn, _⟩ := hc.sentWords
    obtain ⟨hroom, hcells, got, _, _, hbytes, _⟩ := hf.words st
    rw [hc.started, hfail, hsent]
    simp only [Bool.false_eq_true, false_or]
    rcases st.cases with ⟨happend, hpre, rfl, _⟩ | ⟨happend, rfl, rfl, rfl, _⟩
    · rw [happend, and_iff_left rfl]
      refine wellFormed_append_iff hn holds (fun _ => hf.base_ne) rfl (by rw [counted, st.wordc])
        hf.block (st.words.mono (hbytes ▸ List.prefix_append _ _))
        ⟨roomFor flags (counted we nwords), ?_⟩ ?_
      · rw [hcells, ← length_pointers pre base os, hpre]
        rw [← length_pointers pre base os, hpre] at hroom
        exact (resizeCells_append _ _ hroom).symm
      · rintro rfl
        have hrebase := hf.cells
        rw [st.cells_eq hpre, st.first, hpre, rebase_pointers _ _ _ _ st.base] at hrebase
        exact (Option.some.inj hrebase).symm
    · rw [happend]
      refine iff_of_false ?_ fun h => Bool.false_ne_true h.2
      have a := hf.block
      rw [hcells] at a
      exact not_wellFormed_new rfl a
  | @noEnd _ _ nwords nbytes rs p base vofs cells cells₁ cells₂ bytes' hc hfail hf hprep hstore a =>
    obtain ⟨hsent, _⟩ := hc.sentWords
    rw [hc.started, hsent]
    simp only [Bool.false_eq_true, false_or]
    refine iff_of_false ?_ ?_
    · obtain ⟨_, hcells, _⟩ := hf.words st
      rw [hcells] at hprep
      obtain ⟨rfl, _, t, rfl⟩ := st.prepared hprep
      exact not_wellFormed_stuck hf.base_ne rfl (hf.rest st hc) hstore a
    · rintro ⟨rfl, _⟩
      cases hstore
  | done _ _ _ _ _ _ => cases hnospace

end Exits

/-! ## A whole call -/

/-- `we_check` needs no memory. -/
theorem weCheck_ne_nospace : weCheck words flags ≠ some WRDE_NOSPACE := by
  intro h
  obtain ⟨t, _, ht⟩ := loop_passes (Option.join_eq_some_iff.mp h)
  obtain hr | hr | hr | hr | hr := checkBody_exit ht <;> cases hr

/-- Well formed or not, freeing the old structure does not change it. -/
theorem Work.wellFormed_iff (w : Work h₀ h we wi bytes)
    (hkeep : ∀ a, a ≠ 0 → h₀.get a = none → h'.get a = h.get a) :
    WellFormed h' we offs ↔ WellFormed h we offs := by
  constructor
  · rintro (hnull | ⟨ws, p, wi', bytes', hv⟩)
    · exact .inl hnull
    · rcases w with ⟨h0, _⟩ | ⟨q, hq, a⟩
      · exact absurd (hv.wordv.symm.trans h0) (weWordv_ne p)
      · obtain rfl : p = q := Nat.add_right_cancel (hv.wordv.symm.trans hq)
        have hp := hkeep p a.ne (a.owned.fresh p List.mem_cons_self).2.1
        obtain rfl : wi' = wi :=
          Obj.int.inj (Option.some.inj (hv.int.symm.trans (hp.trans a.int)))
        refine .inr ⟨ws, p, wi', bytes', hv.congr hp.symm fun hne => ?_⟩
        exact (hkeep _ hne
          (a.owned.fresh _ (List.mem_cons_of_mem p (mem_ptrs_self hne))).2.1).symm
  · rintro (hnull | ⟨ws, p, wi', bytes', hv⟩)
    · exact .inl hnull
    · exact .inr ⟨ws, p, wi', bytes', hv.kept w hkeep⟩

/-- There is no memory for the copy, the child is not started, or it announces no words and
    either there is no memory for the vector or the old words are in it. -/
def FailsClean (A : Allocator Obj) (child : Child) (flags calls : Nat) : Prop :=
  CopyFails A flags calls ∨ startFails A child (begunCalls flags calls) = true ∨
  (sentWords child = 0 ∧
    (A.fails (begunCalls flags calls + 1) = true ∨ hasFlag flags WRDE_APPEND = true))

theorem FailsClean.not_shrinks (h : FailsClean A child flags calls) :
    ¬ Shrinks A child flags calls := by
  rintro ⟨hcopy, nwords, nbytes, rs, hc, hneg⟩
  obtain hfail | hfail | ⟨hzero, _⟩ := h
  · exact hcopy hfail
  · rw [hc.started] at hfail
    cases hfail
  · rw [hc.sentWords.1] at hzero
    omega

/-- A call that fails in one of these ways does not leave its memory. When `wordexp` returns
    `WRDE_NOSPACE`, the structure is well formed, and can be freed, exactly then. -/
theorem wordexp_nospace_iff (hprev : Previous s.mem.heap flags we0 olds) :
    (Bounded child flags words s.mem we0 → FailsClean A child flags s.mem.calls →
      (wordexp A child words flags s we0).isSome = true) ∧
    ∀ s' we', wordexp A child words flags s we0 = some (s', we', WRDE_NOSPACE) →
      ((WellFormed s'.mem.heap we' (offsOf flags we0) ∧ (wordfree s'.mem we').isSome = true) ↔
        FailsClean A child flags s.mem.calls) := by
  refine ⟨fun hb hclean => hb.isSome hprev hclean.not_shrinks, fun s' we' hs => ?_⟩
  rw [and_iff_left_of_imp WellFormed.wordfree]
  unfold FailsClean
  obtain ⟨hcheck, _⟩ | ⟨happend, hfail, _, rfl, hheap⟩ |
    ⟨calls, we, wi, bytes, h, we₂, hb, hexit, hret⟩ := wordexp_cases hs
  · exact absurd hcheck weCheck_ne_nospace
  · rw [hheap]
    exact iff_of_true (hprev.append happend).wellFormed (.inl ⟨happend, hfail⟩)
  · obtain ⟨hoffs, pre, os, tail, st⟩ := hb.start hprev
    obtain ⟨wi', bytes', w⟩ := hexit.work
    obtain ⟨rfl, hkeep⟩ := hret.get_eq (.inr rfl) hprev w.owned.extends
    have heq : offsOf flags we0 = offsOf flags we := by rw [offsOf, offsOf, hoffs]
    obtain ⟨hcalls, hcopy, _⟩ := hb.agrees hprev
    rw [w.wellFormed_iff hkeep, heq, hexit.wellFormed_iff st, ← hcalls, or_iff_right hcopy]

theorem wordexp_nospace_iff_append :
    ∃ s' we', wordexp (Allocator.bump Obj fun n => n = 3) sendsA [120, 0]
        (WRDE_APPEND ||| WRDE_DOOFFS ||| WRDE_REUSE) oneWordProc oneWord =
          some (s', we', WRDE_NOSPACE) ∧
      ((WellFormed s'.mem.heap we' 1 ∧ (wordfree s'.mem we').isSome = true) ↔
        FailsClean (Allocator.bump Obj fun n => n = 3) sendsA
          (WRDE_APPEND ||| WRDE_DOOFFS ||| WRDE_REUSE) 0) := by
  obtain ⟨s', we', hs⟩ : ∃ s' we', wordexp (Allocator.bump Obj fun n => n = 3) sendsA [120, 0]
      (WRDE_APPEND ||| WRDE_DOOFFS ||| WRDE_REUSE) oneWordProc oneWord =
        some (s', we', WRDE_NOSPACE) := ⟨_, _, rfl⟩
  exact ⟨s', we', hs, (wordexp_nospace_iff oneWord_previous).2 s' we' hs⟩

/-- One word is announced, and the vector for it cannot be allocated: `we_wordc` is 1 and
    `we_wordv` is null. -/
theorem wordexp_nospace_miscounts :
    ¬ ∀ (A : Allocator Obj) (child : Child) (words : List UInt8) (flags : Nat) (s s' : Proc)
        (we0 we' : WordexpT) (olds : List (List UInt8)),
      Previous s.mem.heap flags we0 olds →
      wordexp A child words flags s we0 = some (s', we', WRDE_NOSPACE) →
      WellFormed s'.mem.heap we' (offsOf flags we0) := by
  intro h
  have hprev : Previous Heap.empty 0 { weWordc := 0, weWordv := 0, weOffs := 0 } [] :=
    ⟨nofun, fun _ => rfl, nofun⟩
  have hw := h (Allocator.bump Obj fun n => n = 1)
    (goodChild (chars "0000000100000001" ++ [97, 0])) [120, 0] 0
    { mem := { heap := Heap.empty, calls := 0 }, sigmask := ∅, closed := [] } _ _ _ [] hprev rfl
  rcases hw with ⟨_, hzero⟩ | ⟨_, p, _, _, hv⟩
  · exact absurd hzero (by decide)
  · exact weWordv_ne p hv.wordv.symm

end Librecompat.Wordexp
