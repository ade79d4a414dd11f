/-
  The words of a `wordexp_t`, and that a call which returns `0` puts the new ones behind the old.

  `VectorAt` reads a structure: `offs` null pointers, one pointer for each word into the string
  storage, and the null pointer that ends the array. `Complete` is what a call that returns `0`
  leaves, where `wi_nbytes` is the size of the storage; it is what `WRDE_APPEND` builds on.
  `Filled.words` carries the old words through the two moves of the storage, and
  `Exit.complete` says what is there when `we_askshell` returns `0`.
-/
import Librecompat.Wordexp.Exits

namespace Librecompat.Wordexp

open Librecompat.Lib

/-! ## What a structure says -/

/-- The structure `we` has the vector `wi` at `p` and the storage `bytes`, and they hold the
    words `ws` behind `offs` null pointers. -/
structure VectorAt (h : Heap Obj) (we : WordexpT) (offs : Nat) (ws : List (List UInt8))
    (p : Nat) (wi : WeInt) (bytes : List UInt8) : Prop where
  wordv : we.weWordv = weWordv p
  ne : p ≠ 0
  int : h.get p = some (.int wi)
  strings : ArrayAt Obj.bytes h wi.wiStrings bytes
  wordc : we.weWordc = ws.length
  cells : ∃ os tail, wi.wiWordv = pointers offs wi.wiStrings os ++ some 0 :: tail ∧
    WordsAt bytes os ws

/-- No vector, or one with words. A cell that was never written does not count as a null
    pointer. -/
def WellFormed (h : Heap Obj) (we : WordexpT) (offs : Nat) : Prop :=
  (we.weWordv = 0 ∧ we.weWordc = 0) ∨ ∃ ws p wi bytes, VectorAt h we offs ws p wi bytes

/-- As a call leaves it that returns `0`, or without a vector. -/
def Complete (h : Heap Obj) (we : WordexpT) (offs : Nat) (ws : List (List UInt8)) : Prop :=
  (we.weWordv = 0 ∧ we.weWordc = 0 ∧ ws = []) ∨
  ∃ p wi bytes, VectorAt h we offs ws p wi bytes ∧ bytes.length = wi.wiNbytes ∧
    wi.wiNbytes < 2 ^ 64 ∧ vectorSize (offs + ws.length + 1) = (offs + ws.length + 1) * 8 + 16

/-- The caller's structure before a call: `olds` are the words that the new ones go behind. -/
structure Previous (h : Heap Obj) (flags : Nat) (we0 : WordexpT) (olds : List (List UInt8)) :
    Prop where
  append : hasFlag flags WRDE_APPEND = true → Complete h we0 (offsOf flags we0) olds
  fresh : hasFlag flags WRDE_APPEND = false → olds = []
  reuse : hasFlag flags WRDE_REUSE = true → ∃ offs ws, Complete h we0 offs ws

variable {A : Allocator Obj} {child : Child} {h₀ h h' : Heap Obj} {m m' : Mem Obj}
  {we we' we0 : WordexpT} {wi : WeInt} {bytes : List UInt8} {offs flags calls p : Nat}
  {ws olds : List (List UInt8)}

theorem Complete.wellFormed (hc : Complete h we offs ws) : WellFormed h we offs :=
  hc.imp (fun ⟨hv, hw, _⟩ => ⟨hv, hw⟩) fun ⟨p, wi, bytes, hv, _⟩ => ⟨ws, p, wi, bytes, hv⟩

theorem VectorAt.congr (hv : VectorAt h we offs ws p wi bytes) (hp : h'.get p = h.get p)
    (hs : wi.wiStrings ≠ 0 → h'.get wi.wiStrings = h.get wi.wiStrings) :
    VectorAt h' we offs ws p wi bytes where
  wordv := hv.wordv
  ne := hv.ne
  int := hp.trans hv.int
  strings := hv.strings.imp id fun ⟨hne, hb⟩ => ⟨hne, (hs hne).trans hb⟩
  wordc := hv.wordc
  cells := hv.cells

/-- More blocks do not touch the vector. -/
theorem VectorAt.extends (hv : VectorAt h we offs ws p wi bytes) (hext : Extends h h') :
    VectorAt h' we offs ws p wi bytes := by
  refine hv.congr ((hext p _ hv.int).trans hv.int.symm) fun hne => ?_
  obtain ⟨_, hb⟩ := hv.strings.resolve_left fun h0 => hne h0.1
  exact (hext _ _ hb).trans hb.symm

theorem VectorAt.ne_strings (hv : VectorAt h we offs ws p wi bytes) : wi.wiStrings ≠ p := by
  rintro heq
  rcases hv.strings with ⟨h0, _⟩ | ⟨_, hb⟩
  · exact hv.ne (heq ▸ h0)
  · rw [heq, hv.int] at hb
    cases hb

/-- A structure with a vector can be freed, and only its own blocks go. -/
theorem VectorAt.wordfree (hv : VectorAt m.heap we offs ws p wi bytes) :
    ∃ m' we', wordfree m we = some (m', we') ∧
      ∀ a, a ≠ p → a ≠ wi.wiStrings → m'.heap.get a = m.heap.get a := by
  have hlive : wi.wiStrings = 0 ∨ ∃ b, m.heap.get wi.wiStrings = some b :=
    hv.strings.imp And.left fun ⟨_, hb⟩ => ⟨_, hb⟩
  obtain ⟨m₁, h₁, hkeep₁⟩ := free_ok hlive
  have hint : m₁.heap.get p = some (.int wi) := (hkeep₁ p hv.ne_strings.symm).trans hv.int
  obtain ⟨m₂, h₂, hkeep₂⟩ := free_ok (.inr ⟨_, hint⟩)
  unfold Wordexp.wordfree
  rw [if_neg (hv.wordv ▸ weWordv_ne p), hv.wordv, weIntT_weWordv, readInt_of_get hv.int]
  simp only [Option.bind_eq_bind, Option.bind_some, h₁, h₂]
  exact ⟨m₂, _, rfl, fun a hp hs => (hkeep₂ a hp).trans (hkeep₁ a hs)⟩

theorem WellFormed.extends (hw : WellFormed h we offs) (hext : Extends h h') :
    WellFormed h' we offs :=
  hw.imp id fun ⟨ws, p, wi, bytes, hv⟩ => ⟨ws, p, wi, bytes, hv.extends hext⟩

theorem WellFormed.wordfree (hw : WellFormed m.heap we offs) :
    (wordfree m we).isSome = true := by
  rcases hw with ⟨h0, _⟩ | ⟨ws, p, wi, bytes, hv⟩
  · unfold Wordexp.wordfree
    rw [if_pos h0]
    rfl
  · obtain ⟨m', we', hfree, _⟩ := hv.wordfree
    rw [hfree]
    rfl

/-- Freeing the caller's old structure leaves the blocks alone that it did not have. -/
theorem Complete.wordfree_keeps {we₃ : WordexpT} (hc : Complete h₀ we0 offs ws)
    (hext : Extends h₀ m.heap) (hs : Wordexp.wordfree m we0 = some (m', we₃)) {a : Nat}
    (hne : a ≠ 0) (ha : h₀.get a = none) : m'.heap.get a = m.heap.get a := by
  rcases hc with ⟨h0, _⟩ | ⟨p, wi, bytes, hv, _⟩
  · unfold Wordexp.wordfree at hs
    rw [if_pos h0] at hs
    rw [← (Prod.mk.inj (Option.some.inj hs)).1]
  · obtain ⟨m₁, we₁, hfree, hkeep⟩ := (hv.extends hext).wordfree
    obtain ⟨rfl, _⟩ := Prod.mk.inj (Option.some.inj (hs.symm.trans hfree))
    refine hkeep a ?_ ?_
    · rintro rfl
      rw [hv.int] at ha
      cases ha
    · rintro rfl
      obtain ⟨_, hb⟩ := hv.strings.resolve_left fun h0 => hne h0.1
      rw [hb] at ha
      cases ha

/-! ## The vector that the call starts with -/

/-- The vector `wi` with the storage `bytes` holds the words `olds` at the offsets `os` behind
    `pre` null pointers, and `tail` is what its other cells are. -/
structure Start (flags : Nat) (we : WordexpT) (wi : WeInt) (bytes : List UInt8) (pre : Nat)
    (os : List Nat) (tail : List (Option Nat)) (olds : List (List UInt8)) : Prop where
  wordc : we.weWordc = olds.length
  cells : wi.wiWordv = pointers pre wi.wiStrings os ++ tail
  base : os ≠ [] → wi.wiStrings ≠ 0
  words : WordsAt bytes os olds
  length : bytes.length = wi.wiNbytes
  nbytes : wi.wiNbytes < 2 ^ 64
  first : firstCell flags we = pre + os.length
  room : (pre + olds.length + 1) * 8 + 16 < 2 ^ 64
  shape : if hasFlag flags WRDE_APPEND then
      pre = offsOf flags we ∧ tail = [some 0] ∧ we.weWordv ≠ 0
    else pre = 0 ∧ os = [] ∧ tail = [] ∧ we.weWordv = 0

/-- Without bytes there are no words. -/
theorem WordsAt.eq_nil {os : List Nat} (hw : WordsAt [] os ws) : os = [] := by
  cases hw with
  | nil => rfl
  | cons hw _ =>
    obtain ⟨t, ht⟩ := hw.2
    simp at ht

/-- What the copy for `WRDE_APPEND` reads: the pointers and the null pointer at the end. -/
theorem VectorAt.front (hv : VectorAt h we offs ws p wi bytes) :
    ∃ os, WordsAt bytes os ws ∧ (os ≠ [] → wi.wiStrings ≠ 0) ∧
      readAt wi.wiWordv 0 (offs + ws.length + 1) =
        some (pointers offs wi.wiStrings os ++ [some 0]) := by
  obtain ⟨os, tail, hcells, hwords⟩ := hv.cells
  refine ⟨os, hwords, fun hne h0 => ?_, ?_⟩
  · obtain ⟨_, hnil⟩ := hv.strings.resolve_right fun hb => hb.1 h0
    rw [hnil] at hwords
    exact hne hwords.eq_nil
  · have hfront := readAt_append [] (pointers offs wi.wiStrings os ++ [some 0]) tail
    rw [List.nil_append, List.append_assoc, List.singleton_append, ← hcells, List.length_nil,
      List.length_append, length_pointers, List.length_singleton, hwords.length_eq] at hfront
    exact hfront

theorem vectorSize_fits {n : Nat} (h : vectorSize n = n * 8 + 16) :
    cellsOf (vectorSize n) = n ∧ n * 8 + 16 < 2 ^ 64 := by
  unfold cellsOf
  unfold vectorSize at h ⊢
  omega

theorem Begun.start (hprev : Previous m.heap flags we0 olds)
    (hb : Begun A flags m we0 calls we wi bytes) :
    we.weOffs = we0.weOffs ∧ ∃ pre os tail, Start flags we wi bytes pre os tail olds := by
  unfold Begun at hb
  split at hb
  · next happend =>
    obtain ⟨_, _, _, h, q, base, wi0, cells, hc, rfl, rfl⟩ := hb
    obtain ⟨h0, _⟩ | ⟨p, wi, bytes₀, hv, hlen, hnbytes, hsize⟩ := hprev.append happend
    · exact absurd h0 hc.wordv_ne
    · obtain ⟨os, hwords, hbase, hfront⟩ := hv.front
      have hwi : wi0 = wi := by
        obtain ⟨m₁, hext, hint⟩ := hc.int
        rw [hv.wordv, weIntT_weWordv, readInt_of_get (hext p _ hv.int)] at hint
        exact (Option.some.inj hint).symm
      subst hwi
      have hos : os.length = olds.length := hwords.length_eq
      obtain ⟨hroom, hlt⟩ := vectorSize_fits hsize
      have hused : usedCells flags we0 = offsOf flags we0 + olds.length := by
        unfold usedCells
        rw [hv.wordc]
        omega
      have hbytes : bytes = bytes₀ := by
        rcases hc.bytes with ⟨hzero, rfl⟩ | ⟨hnz, m₁, old, hext, hold, hread⟩
        · exact (List.eq_nil_of_length_eq_zero (hlen.trans hzero)).symm
        · rcases hv.strings with ⟨_, rfl⟩ | ⟨_, hget⟩
          · exact absurd hlen.symm hnz
          · rw [readBytes, hext _ _ hget] at hold
            obtain rfl := Option.some.inj hold
            rw [readAt, ← hlen, if_pos (Nat.zero_add _).le, List.drop_zero,
              List.take_length] at hread
            exact (Option.some.inj hread).symm
      subst hbytes
      obtain ⟨cells₀, hread, hrebase⟩ := hc.cells
      have hcells₀ : cells₀ = pointers (offsOf flags we0) wi0.wiStrings os ++ [some 0] := by
        rw [hused, hroom, hfront] at hread
        exact (Option.some.inj hread).symm
      rw [hcells₀, hused, ← hos, rebase_pointers base _ os [some 0] hbase] at hrebase
      refine ⟨rfl, offsOf flags we0, os, [some 0], hv.wordc, (Option.some.inj hrebase).symm,
        fun _ => hc.base_ne, hwords, hlen, hnbytes, ?_, by omega, ?_⟩
      · rw [hos]
        unfold firstCell
        unfold offsOf at hlt ⊢
        cases hd : hasFlag flags WRDE_DOOFFS with
        | false => simp [hv.wordc]
        | true =>
          simp only [hd, happend, hv.wordc, if_true, Bool.and_self] at hlt ⊢
          omega
      · rw [if_pos happend]
        exact ⟨rfl, rfl, weWordv_ne q⟩
  · next happend =>
    obtain ⟨_, rfl, rfl, rfl⟩ := hb
    have hnone : hasFlag flags WRDE_APPEND = false := by simpa using happend
    rw [hprev.fresh hnone]
    refine ⟨rfl, 0, [], [], rfl, rfl, fun hne => absurd rfl hne, .nil, rfl, by decide, ?_,
      by decide, ?_⟩
    · unfold firstCell
      rw [hnone, Bool.and_false]
      rfl
    · rw [if_neg happend]
      exact ⟨rfl, rfl, rfl, rfl⟩

/-! ## The words after the moves -/

theorem addSize_eq_mod (a : Nat) (d : Int) :
    addSize a d = (a + (d % 2 ^ 64).toNat) % 2 ^ 64 := by
  unfold addSize
  omega

section Filled

variable {nwords nbytes : Int} {rs : List Reply} {base pre : Nat} {os : List Nat}
  {cells tail : List (Option Nat)} {bytes' : List UInt8}

/-- The old words are where they were, in the new storage, and the child's bytes are behind
    them. -/
theorem Filled.words (st : Start flags we wi bytes pre os tail olds)
    (hf : Filled h₀ h flags we wi bytes nwords nbytes rs p base cells bytes') :
    pre + os.length ≤ roomFor flags (counted we nwords) ∧
    cells = pointers pre base os ++
      resizeCells (roomFor flags (counted we nwords) - (pre + os.length)) tail ∧
    ∃ got, got = (weReadFully (nbytes % 2 ^ 64).toNat [] rs).1 ∧
      got.length = (nbytes % 2 ^ 64).toNat ∧ bytes' = bytes ++ got ∧
      bytes'.length = addSize wi.wiNbytes nbytes := by
  have hroom : pre + os.length ≤ roomFor flags (counted we nwords) := by
    have hle := length_le_of_rebase hf.cells
    rw [st.first, length_resizeCells] at hle
    exact hle
  have hlen : (pointers pre wi.wiStrings os).length = pre + os.length := length_pointers _ _ _
  refine ⟨hroom, ?_, ?_⟩
  · have hcells := hf.cells
    rw [st.first, st.cells, resizeCells_append _ _ (hlen ▸ hroom), rebase_pointers _ _ _ _ st.base,
      hlen] at hcells
    exact (Option.some.inj hcells).symm
  · obtain ⟨got, junk, hgot, hgotlen, hwrite⟩ := hf.bytes
    have hmod := addSize_eq_mod wi.wiNbytes nbytes
    have hlt := st.nbytes
    have hbytes := st.length
    refine ⟨got, hgot, hgotlen, ?_⟩
    rcases hwrite with ⟨rfl, rfl⟩ | hwrite
    · rw [List.length_nil] at hgotlen
      have hsum : addSize wi.wiNbytes nbytes = bytes.length := by omega
      rw [hsum]
      refine ⟨?_, length_resize _ _ _⟩
      have htake := take_resize junk (le_refl bytes.length) (le_refl bytes.length)
      rw [List.take_length, List.take_of_length_le (length_resize _ _ _).le] at htake
      rw [htake, List.append_nil]
    · unfold writeAt at hwrite
      split at hwrite
      · next hle =>
        rw [length_resize] at hle
        have hsum : addSize wi.wiNbytes nbytes = bytes.length + got.length := by omega
        have htake := take_resize junk (Nat.le_add_right bytes.length got.length)
          (le_refl bytes.length)
        rw [hsum, ← hbytes, htake, List.take_length,
          List.drop_of_length_le (length_resize _ _ _).le, List.append_nil] at hwrite
        obtain rfl := Option.some.inj hwrite
        exact ⟨rfl, by rw [hsum, List.length_append]⟩
      · cases hwrite

/-- Behind the null pointers of `we_offs` and the old words comes the first cell of a new one. -/
theorem Start.prepared {t cells₁ : List (Option Nat)} {vofs : Nat}
    (st : Start flags we wi bytes pre os tail olds)
    (hp : Prepared flags we (pointers pre base os ++ t) vofs cells₁) :
    vofs = offsOf flags we + os.length ∧ cells₁.length = pre + os.length + t.length ∧
      ∃ t', cells₁ = pointers (offsOf flags we) base os ++ t' := by
  have hshape := st.shape
  unfold Prepared at hp
  split at hp
  · next hfill =>
    -- nothing is there yet: the loop writes all the null pointers
    obtain ⟨hfirst, hdooffs⟩ := hfill
    obtain ⟨rfl, hcells⟩ := hp
    rw [st.first] at hfirst
    have hos : os = [] := List.eq_nil_of_length_eq_zero (by omega)
    have hoffs : offsOf flags we = we.weOffs := if_pos hdooffs
    subst hos
    refine ⟨by rw [hoffs]; rfl, ?_, ?_⟩
    · rw [length_writeAt hcells, List.length_append, length_pointers]
    unfold fillOffs writeAt at hcells
    split at hcells
    · rw [hoffs, ← Option.some.inj hcells, List.take_zero, List.nil_append]
      rw [pointers_nil we.weOffs]
      exact ⟨_, rfl⟩
    · cases hcells
  · next hfill =>
    obtain ⟨rfl, rfl⟩ := hp
    have hpre : pre = offsOf flags we := by
      split at hshape
      · exact hshape.1
      · obtain ⟨rfl, rfl, _⟩ := hshape
        have hdooffs : ¬ hasFlag flags WRDE_DOOFFS = true := fun hd => hfill ⟨st.first, hd⟩
        rw [offsOf, if_neg hdooffs]
    rw [← hpre, List.length_append, length_pointers]
    exact ⟨st.first, rfl, t, rfl⟩

end Filled

/-! ## A call that returns `0` -/

/-- The vector fits when it has a cell behind the last word. -/
theorem vectorSize_of_lt {n : Nat} (h : n < cellsOf (vectorSize (n + 1))) :
    vectorSize (n + 1) = (n + 1) * 8 + 16 := by
  unfold cellsOf at h
  unfold vectorSize at h ⊢
  omega

/-- The child sends the words `news` with their counts. -/
structure Sends (child : Child) (news : List (List UInt8)) : Prop where
  words : ∀ w ∈ news, 0 ∉ w
  output : ∃ nwords nbytes rest, nwords.length = 8 ∧ nbytes.length = 8 ∧
    strtol16 nwords = news.length ∧ strtol16 nbytes = (news.map List.length).sum ∧
    delivered child.stdout = nwords ++ nbytes ++ (terminate 0 news ++ rest)

variable {news : List (List UInt8)}

/-- The counts that are read are those of the words, which come next. -/
theorem Sends.counts {nwords nbytes : Int} {rs : List Reply} (hsend : Sends child news)
    (hcounts : readCounts child.stdout = some (nwords, nbytes, rs)) :
    nwords = news.length ∧ nbytes = (terminate 0 news).length ∧
      ∃ rest, delivered rs = terminate 0 news ++ rest := by
  obtain ⟨w, b, rest, hw, hb, hnwords, hnbytes, hout⟩ := hsend.output
  obtain ⟨w', b', hw', hb', hdeliv, rfl, rfl⟩ := readCounts_delivered hcounts
  rw [hout] at hdeliv
  obtain ⟨hwb, hrest⟩ := List.append_inj hdeliv (by simp [hw, hb, hw', hb'])
  obtain ⟨rfl, rfl⟩ := List.append_inj hwb (hw.trans hw'.symm)
  refine ⟨hnwords, ?_, rest, hrest.symm⟩
  rw [length_terminate, hnwords, hnbytes]
  omega

/-- What is read is what is sent. -/
theorem Sends.read {nwords nbytes : Int} {rs : List Reply} {got : List UInt8}
    (hsend : Sends child news) (hc : Announced A child calls nwords nbytes rs)
    (hgot : got = (weReadFully (nbytes % 2 ^ 64).toNat [] rs).1)
    (hlen : got.length = (nbytes % 2 ^ 64).toNat) :
    nwords = news.length ∧ news.length < 2 ^ 32 ∧ got = terminate 0 news ∧
      nbytes = (terminate 0 news).length := by
  obtain ⟨hnwords, hnbytes, rest, hrest⟩ := hsend.counts hc.counts
  obtain ⟨_, hlt, hbytes⟩ := readCounts_bounds hc.counts
  refine ⟨hnwords, by omega, ?_, hnbytes⟩
  have hread := weReadFully_delivered (nbytes % 2 ^ 64).toNat [] rs
  rw [← hgot, List.nil_append, hrest] at hread
  exact (List.append_inj hread (by rw [hlen, hnbytes]; omega)).1

theorem Exit.complete (hsend : Sends child news) {pre : Nat} {os : List Nat}
    {tail : List (Option Nat)} (st : Start flags we wi bytes pre os tail olds)
    (e : Exit A child flags calls h₀ we wi bytes h we' 0) :
    we'.weOffs = we.weOffs ∧ we'.weWordv ≠ 0 ∧
      Complete h we' (offsOf flags we) (olds ++ news) := by
  -- at the other exits the result is not `0`
  generalize hzero : (0 : Nat) = err at e
  cases e with
  | notStarted _ _ => cases hzero
  | noCounts _ =>
    rcases shellError_cases flags with hs | hs <;> rw [hs] at hzero <;> cases hzero
  | noVector _ _ _ => cases hzero
  | noStrings _ _ _ => cases hzero
  | refused _ herr => rcases herr with rfl | rfl <;> cases hzero
  | noErrors _ _ _ => cases hzero
  | noEnd _ _ _ _ _ _ => cases hzero
  | @done h₁ h nwords nbytes rs p base vofs stop cells cells₁ cells₂ cells₃ bytes' hc hf hprep
      hstore hlast a =>
    obtain ⟨hroom, rfl, got, hgot, hgotlen, rfl, hlen⟩ := hf.words st
    obtain ⟨rfl, hlt, rfl, rfl⟩ := hsend.read hc hgot hgotlen
    obtain ⟨rfl, hcount, t, rfl⟩ := st.prepared hprep
    have hos : os.length = olds.length := st.words.length_eq
    have hbytes : bytes.length = wi.wiNbytes := st.length
    have hn : ((news.length : Int) % 2 ^ 64).toNat = news.length := by omega
    have hrest : ((bytes ++ terminate 0 news).drop wi.wiNbytes).take
        ((terminate 0 news).length : Int).toNat = terminate 0 news ++ [] := by
      rw [← hbytes, List.drop_left, Int.toNat_natCast, List.take_length, List.append_nil]
    rw [hn, hrest, ← length_pointers (offsOf flags we) base os] at hstore
    obtain ⟨hstop, hle, rfl⟩ := storeWords_words hsend.words [] hstore
    have hstop := Option.some.inj hstop
    have hptrs : pointers (offsOf flags we) base os ++ (starts (base + wi.wiNbytes) news).map some =
        pointers (offsOf flags we) base (os ++ starts wi.wiNbytes news) := by
      rw [pointers_append, starts_add, List.map_map]
      rfl
    have hP : stop = (pointers (offsOf flags we) base (os ++ starts wi.wiNbytes news)).length := by
      rw [hstop, length_pointers, length_pointers, List.length_append, length_starts]
      omega
    have hwordc : addSize we.weWordc news.length = (olds ++ news).length := by
      have hroom := st.room
      rw [addSize_eq_mod, hn, st.wordc, List.length_append]
      omega
    rw [hptrs] at hlast
    have hfits := hlast
    unfold writeAt at hfits
    split at hfits
    · next hin =>
      have hcells₃ := Option.some.inj hfits
      rw [hP, List.take_left, List.append_assoc, List.singleton_append] at hcells₃
      refine ⟨rfl, weWordv_ne p, .inr ⟨p, _, _, ⟨rfl, a.ne, a.int, a.strings, hwordc,
        os ++ starts wi.wiNbytes news, _, hcells₃.symm, ?_⟩, hlen, ?_, ?_⟩⟩
      · have hnews := wordsAt_terminate hsend.words bytes []
        rw [List.append_nil, hbytes] at hnews
        exact List.rel_append (st.words.mono (List.prefix_append _ _)) hnews
      · dsimp only
        rw [addSize_eq_mod]
        omega
      · have hcells : roomFor flags (counted we news.length) =
            cellsOf (vectorSize (offsOf flags we + (olds ++ news).length + 1)) := by
          unfold roomFor counted
          rw [hwordc, Nat.add_right_comm, Nat.add_comm (olds ++ news).length]
          rfl
        rw [length_resizeCells, List.length_append, length_pointers] at hcount
        rw [hP, List.length_append, List.length_drop, length_pointers, List.length_append,
          length_starts, List.length_singleton] at hin
        refine vectorSize_of_lt ?_
        rw [← hcells, List.length_append]
        omega
    · cases hfits

/-- The blocks of the structure that the call worked on are not the caller's. -/
theorem VectorAt.fresh {wi' : WeInt} {bytes' : List UInt8}
    (hv : VectorAt h we offs ws p wi bytes) (w : Work h₀ h we wi' bytes') :
    h₀.get p = none ∧ (wi.wiStrings ≠ 0 → h₀.get wi.wiStrings = none) := by
  rcases w with ⟨h0, _⟩ | ⟨q, hq, a⟩
  · exact absurd (hv.wordv.symm.trans h0) (weWordv_ne p)
  · obtain rfl : p = q := Nat.add_right_cancel (hv.wordv.symm.trans hq)
    obtain rfl : wi = wi' := Obj.int.inj (Option.some.inj (hv.int.symm.trans a.int))
    exact ⟨(a.owned.fresh p List.mem_cons_self).2.1, fun hne =>
      (a.owned.fresh _ (List.mem_cons_of_mem p (mem_ptrs_self hne))).2.1⟩

/-- Freeing the old structure with `WRDE_REUSE` keeps the new one. -/
theorem Returned.get_eq {s s' : Proc} {we₂ : WordexpT} {err : Nat}
    (hret : Returned flags s s' we0 we' h we₂ err) (herr : err = 0 ∨ err = WRDE_NOSPACE)
    (hprev : Previous s.mem.heap flags we0 olds) (hext : Extends s.mem.heap h) :
    we' = we₂ ∧ ∀ a, a ≠ 0 → s.mem.heap.get a = none → s'.mem.heap.get a = h.get a := by
  rcases hret with ⟨hne, hnospace, _⟩ | ⟨_, rfl, hmem⟩
  · rcases herr with rfl | rfl
    · exact absurd rfl hne
    · exact absurd rfl hnospace
  · split at hmem
    · next hreuse =>
      obtain ⟨m, we₃, rfl, hfree⟩ := hmem
      obtain ⟨offs, ws, hc⟩ := hprev.reuse hreuse
      exact ⟨rfl, fun a hne ha => hc.wordfree_keeps hext hfree hne ha⟩
    · rw [hmem]
      exact ⟨rfl, fun _ _ _ => rfl⟩

theorem VectorAt.kept {wi' : WeInt} {bytes' : List UInt8}
    (hv : VectorAt h we offs ws p wi bytes) (w : Work h₀ h we wi' bytes')
    (hkeep : ∀ a, a ≠ 0 → h₀.get a = none → h'.get a = h.get a) :
    VectorAt h' we offs ws p wi bytes := by
  obtain ⟨hp, hs⟩ := hv.fresh w
  exact hv.congr (hkeep p hv.ne hp) fun hne => hkeep _ hne (hs hne)

/-- A child that does all that it is asked to and sends `out`. -/
def goodChild (out : List UInt8) : Child where
  pdes := some (3, 4)
  perr := some (5, 6)
  attrInit := 0
  attrSetflags := 0
  attrSetsigdefault := 0
  attrSetsigmask := 0
  actionsInit := 0
  actionsStdout := 0
  actionsStderr := 0
  spawn := 0
  stdout := [.data out]
  stderr := .data []
  stack := [0]
  status := some 0

/-- The vector with the word `b` behind one null pointer. -/
def oneWordInt : WeInt :=
  { wiStrings := 64, wiNbytes := 2, wiWordv := [some 0, some 64, some 0] }

def oneWord : WordexpT := { weWordc := 1, weWordv := 32, weOffs := 1 }

def oneWordProc : Proc where
  mem := { heap := (Heap.empty.set 16 (.int oneWordInt)).set 64 (.bytes [98, 0]), calls := 0 }
  sigmask := ∅
  closed := []

theorem oneWord_complete : Complete oneWordProc.mem.heap oneWord 1 [[98]] := by
  refine .inr ⟨16, oneWordInt, [98, 0], ⟨rfl, by decide, rfl, .inr ⟨by decide, rfl⟩, rfl, [0], [],
    rfl, ?_⟩, rfl, by decide, by decide⟩
  exact .cons ⟨by decide, by decide⟩ .nil

theorem oneWord_previous :
    Previous oneWordProc.mem.heap (WRDE_APPEND ||| WRDE_DOOFFS ||| WRDE_REUSE) oneWord [[98]] :=
  ⟨fun _ => oneWord_complete, nofun, fun _ => ⟨1, _, oneWord_complete⟩⟩

end Librecompat.Wordexp
