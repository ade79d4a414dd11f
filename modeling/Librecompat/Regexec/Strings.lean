/-
  The buffer of the string that is searched.

  `text` is the whole string as the buffer would have it, `before i` the context in front of its
  character `i` and `after j` the one that its character `j` makes. A string that stands at `i` has
  in its buffer a part of the text from `i` on (`Holds`); when it is built, as much of it as fits
  (`At`). `reStringReconstruct_spec` moves it anywhere, `roomFor_spec` makes room for one more
  character.
-/
import Librecompat.Regexec.Model

namespace Librecompat.Regexec

open Librecompat.Lib
open Librecompat.Regex

variable (src : Source)

/-! ## The text -/

def Source.text : List UInt8 := src.rawMbs.map src.built

@[simp] theorem length_text : src.text.length = src.rawMbs.length := List.length_map _

/-- The context in front of the character `i`. -/
def Source.before : Nat → Nat
  | 0 => src.beginContext
  | i + 1 => src.text[i]?.elim 0 src.charContext

/-- The context that the character `j` makes, or the end. -/
def Source.after (j : Nat) : Nat :=
  if j = src.text.length then src.endContext else src.text[j]?.elim 0 src.charContext

/-- A character makes the same context in upper case, if they are all made so. -/
def Source.CaseFree : Prop :=
  src.icase = true → ∀ ch, src.charContext (src.toupper ch) = src.charContext ch

variable {src} {s : ReString} {i : Nat}

theorem Source.CaseFree.built (h : src.CaseFree) (ch : UInt8) :
    src.charContext (src.translate ch) = src.charContext (src.built ch) := by
  unfold Source.built
  split
  · next hcase => exact (h hcase _).symm
  · rfl

theorem built_id (h : src.mbsAllocated = false) (ch : UInt8) : src.built ch = ch := by
  obtain ⟨htrans, hicase⟩ : src.trans = none ∧ src.icase = false := by
    simpa [Source.mbsAllocated] using h
  simp [Source.built, Source.translate, htrans, hicase]

theorem text_eq (h : src.mbsAllocated = false) : src.text = src.rawMbs := by
  unfold Source.text
  rw [List.map_congr_left fun ch _ => built_id h ch, List.map_id']

theorem before_succ {ch : UInt8} (h : src.text[i]? = some ch) :
    src.before (i + 1) = src.charContext ch := by
  simp [Source.before, h]

theorem after_of_lt {ch : UInt8} (h : src.text[i]? = some ch) :
    src.after i = src.charContext ch := by
  have hlt := (List.getElem?_eq_some_iff.mp h).1
  rw [Source.after, if_neg hlt.ne, h]
  rfl

theorem after_end : src.after src.rawMbs.length = src.endContext := by
  simp [Source.after]

/-! ## Where a string stands -/

variable (src) in
/-- The string stands at `i`: its buffer has what comes from there on. -/
structure Holds (s : ReString) (i : Nat) : Prop where
  idx : s.rawMbsIdx = i
  le : i ≤ src.rawMbs.length
  len : s.len = src.rawMbs.length - i
  stop : s.stop = src.rawStop - i
  tip : s.tipContext = src.before i
  mbs : s.mbs <+: src.text.drop i
  valid : s.validRawLen ≤ s.mbs.length
  fits : src.mbsAllocated = true → (s.mbs.length : Int) ≤ s.bufsLen
  pos : 0 < s.bufsLen
  small : s.bufsLen ≤ src.rawMbs.length + 1

variable (src) in
/-- The buffer is built. -/
structure At (s : ReString) (i : Nat) : Prop extends Holds src s i where
  built : (s.mbs.length : Int) = if src.mbsAllocated then min s.bufsLen s.len else s.len

theorem Holds.length_le (h : Holds src s i) : (s.mbs.length : Int) ≤ s.len := by
  have hle := h.mbs.length_le
  rw [List.length_drop, length_text] at hle
  have := h.le
  rw [h.len]
  omega

theorem At.atIdx (h : At src s i) (n : Nat) : At src { s with curIdx := n } i :=
  ⟨⟨h.idx, h.le, h.len, h.stop, h.tip, h.mbs, h.valid, h.fits, h.pos, h.small⟩, h.built⟩

/-- The bytes of the buffer are those of the text. -/
theorem Holds.get (h : Holds src s i) {k : Nat} (hk : k < s.mbs.length) :
    s.mbs[k]? = src.text[i + k]? := by
  obtain ⟨rest, hrest⟩ := h.mbs
  rw [← List.getElem?_drop, ← hrest, List.getElem?_append_left hk]

theorem Holds.contextAt (h : Holds src s i) {k : Nat} (hk : k < s.mbs.length ∨ (k : Int) = s.len) :
    s.contextAt src k = some (src.after (i + k)) := by
  unfold ReString.contextAt
  rw [if_neg (by omega)]
  by_cases hend : (k : Int) = s.len
  · have hi : i + k = src.rawMbs.length := by
      have := h.len
      omega
    rw [if_pos hend, hi, after_end]
  · have hlt : k < s.mbs.length := hk.resolve_right hend
    obtain ⟨ch, hch⟩ : ∃ ch, s.mbs[k]? = some ch := ⟨_, List.getElem?_eq_getElem hlt⟩
    rw [if_neg hend, getAt_natCast, hch, Option.map_some, after_of_lt ((h.get hlt).symm.trans hch)]

theorem Holds.contextBegin (h : Holds src s i) : s.contextAt src (-1) = some (src.before i) := by
  rw [ReString.contextAt, if_pos (by decide), h.tip]

/-! ## Building -/

/-- A buffer of its own is built as far as it goes. -/
theorem Holds.build (h : Holds src s i) (halloc : src.mbsAllocated = true) :
    At src (s.build src) i := by
  have hle := h.length_le
  have hlens := h.len
  have hi := h.le
  have hfits := h.fits halloc
  have hmap : ((src.rawMbs.drop (s.rawMbsIdx + s.mbs.length)).take
      (min s.bufsLen s.len - s.mbs.length).toNat).map src.built =
      (src.text.drop (i + s.mbs.length)).take (min s.bufsLen s.len - s.mbs.length).toNat := by
    rw [Source.text, h.idx, List.map_take, List.map_drop]
  have hmbs : (s.build src).mbs <+: src.text.drop i := by
    obtain ⟨rest, hrest⟩ := h.mbs
    have hmore : src.text.drop (i + s.mbs.length) = rest := by
      rw [← List.drop_drop, ← hrest, List.drop_left]
    simp only [ReString.build, hmap, hmore]
    rw [← hrest]
    exact (List.prefix_append_right_inj _).mpr (List.take_prefix _ _)
  have hbuilt : ((s.build src).mbs.length : Int) = min s.bufsLen s.len := by
    simp only [ReString.build, hmap]
    rw [List.length_append, List.length_take, List.length_drop, length_text]
    omega
  refine ⟨⟨h.idx, h.le, h.len, h.stop, h.tip, hmbs, le_refl _, fun _ => ?_, h.pos, h.small⟩, ?_⟩
  · rw [hbuilt]
    exact min_le_left _ _
  · rw [if_pos halloc]
    exact hbuilt

/-- The string itself is the buffer. -/
theorem Holds.whole (h : Holds src s i) (halloc : src.mbsAllocated = false) :
    At src { s with mbs := src.rawMbs.drop i } i := by
  have hlen := h.len
  have hi := h.le
  have hle := h.length_le
  have hv := h.valid
  have hdrop : (src.rawMbs.drop i).length = src.rawMbs.length - i := List.length_drop
  refine ⟨⟨h.idx, h.le, h.len, h.stop, h.tip, ?_, ?_, fun hno => ?_, h.pos, h.small⟩, ?_⟩
  · rw [text_eq halloc]
  · show s.validRawLen ≤ (src.rawMbs.drop i).length
    omega
  · rw [halloc] at hno
    cases hno
  · rw [halloc, if_neg Bool.false_ne_true]
    show ((src.rawMbs.drop i).length : Int) = s.len
    omega

/-! ## re_string_allocate, re_string_reconstruct -/

theorem reStringAllocate_spec (hok : ∀ n, src.okBuf n = true) (nodesLen : Nat) :
    (reStringAllocate src nodesLen).2 = REG_NOERROR ∧
      Holds src (reStringAllocate src nodesLen).1 0 := by
  refine ⟨?_, rfl, Nat.zero_le _, (Int.sub_zero _).symm, (Int.sub_zero _).symm, rfl, ?_, le_refl _,
    fun halloc => ?_, ?_, ?_⟩
  · simp [reStringAllocate, hok]
  · cases halloc : src.mbsAllocated with
    | true => simp [reStringAllocate, halloc]
    | false => simp [reStringAllocate, halloc, text_eq halloc]
  · simp only [reStringAllocate, halloc, if_true, List.length_nil]
    omega
  · simp only [reStringAllocate]
    omega
  · simp only [reStringAllocate]
    omega

theorem Holds.reset (h : Holds src s i) : Holds src (s.reset src) 0 := by
  refine ⟨rfl, Nat.zero_le _, (Int.sub_zero _).symm, (Int.sub_zero _).symm, rfl, List.nil_prefix,
    le_refl _, fun _ => ?_, h.pos, h.small⟩
  exact h.pos.le

/-- The characters in front of `offset` are dropped. -/
theorem Holds.skip (h : Holds src s i) (hfree : src.CaseFree) {offset : Nat}
    (hoffset : i + offset ≤ src.rawMbs.length) :
    ∃ s', s.skip src offset = some s' ∧
      Holds src { s' with rawMbsIdx := i + offset, len := s'.len - offset, stop := s'.stop - offset }
        (i + offset) := by
  have hlen := h.len
  have hstop := h.stop
  unfold ReString.skip
  by_cases hzero : offset = 0
  · subst hzero
    refine ⟨s, if_pos rfl, h.idx ▸ rfl, hoffset, ?_, ?_, h.tip, h.mbs, h.valid, h.fits, h.pos,
      h.small⟩
    · simpa using hlen
    · simpa using hstop
  rw [if_neg hzero]
  obtain ⟨k, rfl⟩ := Nat.exists_eq_succ_of_ne_zero hzero
  have hk : i + k < src.text.length := by
    rw [length_text]
    omega
  obtain ⟨ch, hch⟩ : ∃ ch, src.text[i + k]? = some ch := ⟨_, List.getElem?_eq_getElem hk⟩
  have htip : src.before (i + (k + 1)) = src.charContext ch := before_succ hch
  by_cases hvalid : k + 1 < s.validRawLen
  · -- the characters behind them are kept
    have hlt : k < s.mbs.length := by
      have := h.valid
      omega
    have hcontext : s.contextAt src ((k.succ : Nat) - 1 : Int) = some (src.charContext ch) := by
      rw [show ((k.succ : Nat) - 1 : Int) = k by omega, h.contextAt (.inl hlt), after_of_lt hch]
    rw [if_pos hvalid, hcontext]
    refine ⟨_, rfl, rfl, hoffset, ?_, ?_, htip.symm, ?_, ?_, fun halloc => ?_, h.pos, h.small⟩
    · simp only
      omega
    · simp only
      omega
    · obtain ⟨rest, hrest⟩ := h.mbs
      rw [← List.drop_drop, ← hrest, List.drop_append_of_le_length hlt]
      exact List.prefix_append _ _
    · have := h.valid
      simp only [List.length_drop]
      omega
    · have := h.fits halloc
      simp only [List.length_drop]
      omega
  · have hraw : ∃ c, src.rawMbs[i + k]? = some c ∧ src.built c = ch := by
      rw [Source.text, List.getElem?_map, Option.map_eq_some_iff] at hch
      exact hch
    obtain ⟨c, hc, rfl⟩ := hraw
    rw [if_neg hvalid, h.idx, show i + k.succ - 1 = i + k by omega, hc]
    refine ⟨_, rfl, rfl, hoffset, ?_, ?_, ?_, List.nil_prefix, le_refl _, fun _ => h.pos.le, h.pos,
      h.small⟩
    · simp only
      omega
    · simp only
      omega
    · rw [htip]
      exact hfree.built c

theorem Holds.place {offset idx : Nat}
    (h : Holds src { s with rawMbsIdx := idx, len := s.len - offset, stop := s.stop - offset } idx) :
    At src (s.place src idx offset) idx := by
  unfold ReString.place
  cases halloc : src.mbsAllocated with
  | true => exact (h.build halloc).atIdx 0
  | false => exact (h.whole halloc).atIdx 0

/-- `re_string_reconstruct` moves the string to any place. -/
theorem reStringReconstruct_spec (h : Holds src s i) (hfree : src.CaseFree) {idx : Nat}
    (hidx : idx ≤ src.rawMbs.length) :
    ∃ s', reStringReconstruct src s idx = some s' ∧ At src s' idx ∧ s'.curIdx = 0 := by
  have hmove : ∀ {s₁ : ReString} {k offset : Nat}, Holds src s₁ k → k + offset = idx →
      ∃ s₂, s₁.skip src offset = some s₂ ∧ At src (s₂.place src idx offset) idx := by
    intro s₁ k offset h₁ hk
    have hle : k + offset ≤ src.rawMbs.length := by omega
    obtain ⟨s₂, hskip, h₂⟩ := h₁.skip hfree hle
    rw [hk] at h₂
    exact ⟨s₂, hskip, h₂.place⟩
  unfold reStringReconstruct
  rw [h.idx]
  by_cases hle : i ≤ idx
  · obtain ⟨s₂, hskip, hat⟩ := hmove h (Nat.add_sub_cancel' hle)
    simp only [if_pos hle, hskip, Option.bind_eq_bind, Option.bind_some]
    exact ⟨_, rfl, hat, rfl⟩
  · obtain ⟨s₂, hskip, hat⟩ := hmove h.reset (Nat.zero_add idx)
    simp only [if_neg hle, hskip, Option.bind_eq_bind, Option.bind_some]
    exact ⟨_, rfl, hat, rfl⟩

/-! ## extend_buffers -/

/-- An `int` is no larger than the number that it is made of. -/
theorem bmod_le_self (n : Nat) : Int.bmod (n : Int) (2 ^ 32) ≤ n := by
  rw [Int.bmod_def]
  split
  · exact_mod_cast Nat.mod_le n (2 ^ 32)
  · exact (Int.sub_le_self _ (Int.natCast_nonneg _)).trans (by exact_mod_cast Nat.mod_le n (2 ^ 32))

/-- A larger buffer. -/
theorem At.grow (h : At src s i) {bufsLen : Int} (hle : s.bufsLen ≤ bufsLen)
    (hsmall : bufsLen ≤ src.rawMbs.length + 1) :
    At src (if src.mbsAllocated then { s with bufsLen := bufsLen }.build src
      else { s with bufsLen := bufsLen }) i := by
  have hgrown : Holds src { s with bufsLen := bufsLen } i :=
    ⟨h.idx, h.le, h.len, h.stop, h.tip, h.mbs, h.valid, fun halloc => (h.fits halloc).trans hle,
      h.pos.trans_le hle, hsmall⟩
  cases halloc : src.mbsAllocated with
  | true => exact hgrown.build halloc
  | false =>
    refine ⟨hgrown, ?_⟩
    have hbuilt := h.built
    rw [halloc, if_neg Bool.false_ne_true] at hbuilt ⊢
    exact hbuilt

/-- Behind it there is room for the character at the index and for the next, unless that is the
    end. -/
theorem roomFor_spec (h : At src s i) (hok : ∀ n, src.okBuf n = true)
    (hsmall : src.rawMbs.length + 1 < BUFS_MAX) (hcur : s.curIdx < s.mbs.length) :
    ∃ s', roomFor src s = (s', REG_NOERROR) ∧ At src s' i ∧ s'.curIdx = s.curIdx ∧
      s'.curIdx < s'.mbs.length ∧
      (s'.curIdx + 1 < s'.mbs.length ∨ (s'.curIdx + 1 : Int) = s'.len) := by
  have hle := h.length_le
  have hlens := h.len
  have hbuilt := h.built
  have hbufs := h.small
  unfold roomFor
  dsimp only
  split
  · next hroom =>
    have hpos := h.pos
    have hbig : ¬ BUFS_MAX ≤ s.bufsLen := by omega
    have hless : s.bufsLen < s.len := by
      split at hbuilt
      · omega
      · omega
    obtain ⟨minLen, hmin, hint⟩ : ∃ n, Int.bmod ((s.curIdx + 1 + 1 : Nat) : Int) (2 ^ 32) = n ∧
        n ≤ s.curIdx + 2 := ⟨_, rfl, bmod_le_self (s.curIdx + 2)⟩
    obtain ⟨bufsLen, hdef⟩ : ∃ n, n = max minLen (min s.len (s.bufsLen * 2)) := ⟨_, rfl⟩
    have hgrow : s.bufsLen < bufsLen ∧ bufsLen ≤ src.rawMbs.length + 1 := by omega
    have hat := h.grow hgrow.1.le hgrow.2
    have hbuilt' := hat.built
    refine ⟨_, ?_, hat, ?_⟩
    · unfold extendBuffers
      rw [if_neg hbig, hmin]
      simp only [hok, Bool.not_true, Bool.false_eq_true, and_false, if_false, ← hdef]
    · split
      · next halloc =>
        rw [if_pos halloc] at hbuilt hbuilt'
        refine ⟨rfl, ?_⟩
        simp only [halloc, if_true] at hbuilt'
        have hlen' : (ReString.build src { s with bufsLen := bufsLen }).len = s.len := rfl
        have hcur' : (ReString.build src { s with bufsLen := bufsLen }).curIdx = s.curIdx := rfl
        have hbufs' : (ReString.build src { s with bufsLen := bufsLen }).bufsLen = bufsLen := rfl
        omega
      · next halloc =>
        rw [if_neg halloc] at hbuilt
        refine ⟨rfl, hcur, ?_⟩
        simp only
        omega
  · next hroom =>
    refine ⟨s, rfl, h, rfl, hcur, ?_⟩
    omega

end Librecompat.Regexec
