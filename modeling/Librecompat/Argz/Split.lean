/-
  The splitting loop of `argz_create_sep` and `argz_add_sep`.

  `sepStep_eq` says what one character does to the block, `sepLoop_eq` what a whole string does:
  behind the bytes that were there comes `emit`, and `nlen` has gone down by one for each
  character that wrote nothing. From a point where nothing or a NUL has been written before, the
  bytes are the stored form of `sepEntries` (`emit_eq`). Both functions are then one allocation
  and this loop (`argzCreateSep_cases`, `argzAddSep_holds`).
-/
import Librecompat.Argz.Refine

namespace Librecompat.Argz

open Librecompat.Lib

/-! ## What the loop writes -/

/-- Nothing has been written before, or a NUL. -/
def fresh (pre : List UInt8) : Bool := pre.getLast?.getD 0 = 0

theorem fresh_append (pre : List UInt8) (c : UInt8) : fresh (pre ++ [c]) = decide (c = 0) := by
  simp [fresh]

theorem fresh_terminate (l : List (List UInt8)) : fresh (terminate 0 l) = true := by
  by_cases hl : l = []
  · rw [hl]
    rfl
  · simp [fresh, getLast?_terminate 0 hl]

/-- The bytes written for a string, behind a place that is fresh or not. -/
def emit (delim : Int) : Bool → List UInt8 → List UInt8
  | _, [] => []
  | isFresh, c :: u =>
    if charVal c = delim then if isFresh then emit delim true u else 0 :: emit delim true u
    else c :: emit delim (c = 0) u

theorem length_emit_le (delim : Int) (isFresh : Bool) (u : List UInt8) :
    (emit delim isFresh u).length ≤ u.length := by
  induction u generalizing isFresh with
  | nil => exact Nat.le_refl 0
  | cons c u ih =>
    unfold emit
    have hnul := ih true
    have hchar := ih (c = 0)
    split
    · split <;> simp only [List.length_cons] <;> omega
    · simp only [List.length_cons]
      omega

theorem writeAt_middle {α : Type} (pre post : List α) (x c : α) :
    writeAt (pre ++ x :: post) pre.length [c] = some (pre ++ c :: post) := by
  have h : writeAt (pre ++ [x] ++ post) pre.length [c] = some (pre ++ [c] ++ post) :=
    writeAt_append rfl
  simpa using h

/-- One character: it is skipped, or it puts one byte behind `pre`. -/
theorem sepStep_eq (delim : Int) (c x : UInt8) (pre rest : List UInt8) (nlen : Nat) :
    sepStep delim c { blk := pre ++ x :: rest, wp := pre.length, nlen := nlen } =
      some (if charVal c = delim ∧ fresh pre = true then
          { blk := pre ++ x :: rest, wp := pre.length, nlen := nlen - 1 }
        else
          { blk := (pre ++ [if charVal c = delim then 0 else c]) ++ rest,
            wp := pre.length + 1, nlen := nlen }) := by
  have hwrite : ∀ d, writeAt (pre ++ x :: rest) pre.length [d] = some ((pre ++ [d]) ++ rest) :=
    fun d => by rw [writeAt_middle, List.append_assoc, List.singleton_append]
  unfold sepStep
  dsimp only
  by_cases hc : charVal c = delim
  · rw [if_pos hc, if_pos hc]
    rcases List.eq_nil_or_concat pre with rfl | ⟨pre, b, rfl⟩
    · rw [if_neg (by simp), if_pos ⟨hc, rfl⟩]
    · -- the byte before `wp` is the last one of `pre`
      rw [List.concat_eq_append] at hwrite ⊢
      have hlast : (pre ++ [b] ++ x :: rest)[(pre ++ [b]).length - 1]? = some b := by simp
      rw [if_pos (by simp), hlast]
      simp only [Option.bind_eq_bind, Option.bind_some, hwrite]
      by_cases hb : b = 0 <;> simp [fresh_append, hc, hb]
  · rw [if_neg hc, if_neg hc, hwrite, if_neg fun h => hc h.1]
    rfl

/-- The loop over the characters `u`, with `pre` written before and room for `u` behind. -/
theorem sepLoop_eq (delim : Int) (u : List UInt8) : ∀ {pre rest : List UInt8} {nlen : Nat},
    u.length ≤ rest.length → u.length ≤ nlen →
    u.foldlM (fun w c => sepStep delim c w)
        { blk := pre ++ rest, wp := pre.length, nlen := nlen } =
      some { blk := pre ++ emit delim (fresh pre) u ++
               rest.drop (emit delim (fresh pre) u).length,
             wp := pre.length + (emit delim (fresh pre) u).length,
             nlen := nlen - (u.length - (emit delim (fresh pre) u).length) } := by
  induction u with
  | nil => simp [emit]
  | cons c u ih =>
    intro pre rest nlen hrest hnlen
    rw [List.length_cons] at hrest hnlen
    cases rest with
    | nil => simp at hrest
    | cons x rest =>
      rw [List.length_cons] at hrest
      rw [List.foldlM_cons, sepStep_eq, Option.bind_eq_bind, Option.bind_some]
      unfold emit
      by_cases hskip : charVal c = delim ∧ fresh pre = true
      · -- the delimiter is dropped: one byte of `nlen` goes, and the room stays
        have hle := length_emit_le delim true u
        rw [if_pos hskip, ih (by simp; omega) (by omega), hskip.2, if_pos hskip.1,
          if_pos rfl, List.length_cons]
        congr 2
        omega
      · have hout : (if charVal c = delim then
            if fresh pre = true then emit delim true u else 0 :: emit delim true u
            else c :: emit delim (c = 0) u) =
            (if charVal c = delim then 0 else c) ::
              emit delim (fresh (pre ++ [if charVal c = delim then 0 else c])) u := by
          rw [fresh_append]
          by_cases hc : charVal c = delim
          · rw [if_pos hc, if_pos hc, if_neg fun hf => hskip ⟨hc, hf⟩]
            rfl
          · rw [if_neg hc, if_neg hc]
        have hwp : pre.length + 1 =
            (pre ++ [if charVal c = delim then 0 else c]).length := by simp
        rw [if_neg hskip, hout, hwp, ih (by omega) (by omega)]
        simp [Nat.add_assoc, Nat.add_comm 1]

/-! ## The entries of a string -/

/-- The non-empty pieces before the last delimiter, and the last piece. -/
def sepEntries (delim : UInt8) (string : List UInt8) : List (List UInt8) :=
  (string.splitOn delim).dropLast.filter (· ≠ []) ++ (string.splitOn delim).getLast?.toList

theorem sepEntries_terminate {d : UInt8} {l : List (List UInt8)} (hl : ∀ e ∈ l, d ∉ e)
    {r : List UInt8} (hr : d ∉ r) :
    sepEntries d (terminate d l ++ r) = l.filter (· ≠ []) ++ [r] := by
  rw [sepEntries, splitOn_terminate_append d hl hr, List.dropLast_concat, List.getLast?_concat]
  rfl

theorem sepEntries_ne_nil (d : UInt8) (s : List UInt8) : sepEntries d s ≠ [] := by
  obtain ⟨l, r, hl, hr, rfl⟩ := exists_terminate_append d s
  rw [sepEntries_terminate hl hr]
  exact List.append_ne_nil_of_right_ne_nil _ (List.cons_ne_nil r [])

theorem sepEntries_nulFree {d : UInt8} {s : List UInt8} (hs : 0 ∉ s) :
    ∀ e ∈ sepEntries d s, 0 ∉ e := by
  intro e he h0
  have hpiece : e ∈ s.splitOn d := by
    rcases List.mem_append.mp he with he | he
    · exact List.mem_of_mem_dropLast (List.mem_filter.mp he).1
    · exact List.mem_of_getLast? (Option.mem_toList.mp he)
  exact hs (subset_of_mem_splitOnP hpiece h0)

/-- A word without the delimiter is copied. -/
theorem emit_word {d : UInt8} {w : List UInt8} (hd : d ∉ w) (h0 : 0 ∉ w) (isFresh : Bool)
    (u : List UInt8) : emit (charVal d) isFresh (w ++ u) =
      w ++ emit (charVal d) (if w = [] then isFresh else false) u := by
  induction w generalizing isFresh with
  | nil => rfl
  | cons c w ih =>
    rw [List.mem_cons, not_or] at hd h0
    have hc : charVal c ≠ charVal d := fun heq => hd.1 (charVal_inj heq).symm
    rw [List.cons_append, emit, if_neg hc, ih hd.2 h0.2, if_neg (List.cons_ne_nil c w),
      decide_eq_false (Ne.symm h0.1), ite_self, List.cons_append]

theorem emit_terminate {d : UInt8} (hd0 : d ≠ 0) {l : List (List UInt8)} {r : List UInt8}
    (hl : ∀ e ∈ l, d ∉ e) (hr : d ∉ r) (h0 : 0 ∉ terminate d l ++ r) :
    emit (charVal d) true (terminate d l ++ r ++ [0]) =
      terminate 0 (l.filter (· ≠ []) ++ [r]) := by
  induction l with
  | nil =>
    have hnul : charVal 0 ≠ charVal d := fun heq => hd0 (charVal_inj heq).symm
    rw [terminate_nil, List.nil_append, emit_word hr h0, emit, if_neg hnul]
    simp [emit]
  | cons e l ih =>
    rw [List.forall_mem_cons] at hl
    rw [terminate_cons, List.append_assoc, List.cons_append, List.mem_append, List.mem_cons,
      not_or, not_or] at h0
    rw [terminate_cons, List.append_assoc, List.append_assoc, List.cons_append,
      ← List.append_assoc, emit_word hl.1 h0.1, emit, if_pos rfl, ih hl.2 h0.2.2]
    by_cases he : e = []
    · rw [if_pos he, if_pos rfl, he]
      rfl
    · -- behind a word the delimiter becomes the NUL
      rw [if_neg he, if_neg Bool.false_ne_true, List.filter_cons_of_pos (by simpa using he),
        List.cons_append, terminate_cons]

/-- From a fresh place the loop writes the stored form of the entries. -/
theorem emit_eq {d : UInt8} (hd0 : d ≠ 0) {s : List UInt8} (hs : 0 ∉ s) :
    emit (charVal d) true (s ++ [0]) = terminate 0 (sepEntries d s) := by
  obtain ⟨l, r, hl, hr, rfl⟩ := exists_terminate_append d s
  rw [emit_terminate hd0 hl hr hs, sepEntries_terminate hl hr]

/-! ## The two functions -/

/-- `argz_create_sep` of a string that makes it write something: `malloc` fails, or the first
    `*len` bytes of its block are what the loop writes, and the others are not written. -/
theorem argzCreateSep_cases (A : Allocator (List UInt8)) {string : CString} {delim : Int}
    (hne : string.1 ≠ []) (hout : emit delim true (string.1 ++ [0]) ≠ []) (s : Vec) :
    ∃ s' err, argzCreateSep A string delim s = some (s', err) ∧
      ((A.fails s.mem.calls = true ∧ err = ENOMEM) ∨
       (A.fails s.mem.calls = false ∧ err = 0 ∧ s'.argz ≠ 0 ∧
        s'.argzLen = (emit delim true (string.1 ++ [0])).length ∧
        Extends s.mem.heap s'.mem.heap ∧
        s'.mem.heap.get s'.argz = some (emit delim true (string.1 ++ [0]) ++
          (resize (A.junk s.mem.calls) (string.1.length + 1) []).drop s'.argzLen))) := by
  have hpos := List.length_pos_iff.mpr hne
  have hle := length_emit_le delim true (string.1 ++ [0])
  rw [List.length_append, List.length_singleton] at hle
  unfold argzCreateSep mallocBytes
  dsimp only
  rw [if_pos (by omega)]
  obtain ⟨hf, hm⟩ | ⟨hf, p, hp, hnone, hm⟩ :=
    malloc_cases A s.mem (resize (A.junk s.mem.calls) (string.1.length + 1) [])
  · rw [hm]
    exact ⟨_, ENOMEM, rfl, .inl ⟨hf, rfl⟩⟩
  · have hloop := @sepLoop_eq delim (string.1 ++ [0]) []
      (resize (A.junk s.mem.calls) (string.1.length + 1) []) (string.1.length + 1)
      (by simp) (by simp)
    have hget := Heap.get_set_self s.mem.heap p
      (resize (A.junk s.mem.calls) (string.1.length + 1) [])
    have hext := (Extends.refl s.mem.heap).set
      (resize (A.junk s.mem.calls) (string.1.length + 1) []) hnone
    rw [hm]
    dsimp only
    generalize resize (A.junk s.mem.calls) (string.1.length + 1) [] = blk at *
    generalize s.mem.heap.set p blk = heap at hget hext ⊢
    rw [show fresh [] = true from rfl, List.nil_append, List.nil_append, List.length_nil] at hloop
    simp only [if_neg hp, hget, Option.bind_eq_bind, Option.bind_some, hloop,
      store_live (m := { heap := heap, calls := _ }) hget]
    have hnlen : string.1.length + 1 -
        ((string.1 ++ [0]).length - (emit delim true (string.1 ++ [0])).length) =
        (emit delim true (string.1 ++ [0])).length := by
      rw [List.length_append, List.length_singleton]
      omega
    rw [hnlen, if_neg fun h0 => hout (List.eq_nil_of_length_eq_zero h0)]
    exact ⟨_, 0, rfl, .inr ⟨hf, rfl, hp, rfl, hext.set _ hnone, Heap.get_set_self _ _ _⟩⟩

section Growing

variable {A : Allocator (List UInt8)} (hA : ∀ n, A.fails n = false)
include hA

/-- `argz_create_sep` of a non-empty string makes a vector of its entries. -/
theorem argzCreateSep_holds {string : CString} (hne : string.1 ≠ []) {d : UInt8} (hd : d ≠ 0)
    (s : Vec) :
    ∃ s', argzCreateSep A string (charVal d) s = some (s', 0) ∧
      Holds s' (sepEntries d string.1) ∧ Extends s.mem.heap s'.mem.heap ∧
      s'.argzLen ≤ string.1.length + 1 ∧
      s'.mem.heap.get s'.argz = some (terminate 0 (sepEntries d string.1) ++
        (resize (A.junk s.mem.calls) (string.1.length + 1) []).drop s'.argzLen) := by
  have hout : emit (charVal d) true (string.1 ++ [0]) ≠ [] := by
    rw [emit_eq hd string.2]
    exact fun h0 => sepEntries_ne_nil d string.1 ((terminate_eq_nil 0).mp h0)
  have hle := length_emit_le (charVal d) true (string.1 ++ [0])
  rw [List.length_append, List.length_singleton] at hle
  obtain ⟨s', err, hs', ⟨hf, _⟩ | ⟨_, rfl, hp, hlen, hext, hget⟩⟩ :=
    argzCreateSep_cases A hne hout s
  · rw [hA] at hf
    cases hf
  · rw [← hlen] at hle
    rw [emit_eq hd string.2] at hlen hget
    exact ⟨s', hs', ⟨sepEntries_nulFree string.2, hlen,
      fun h0 => absurd h0 (sepEntries_ne_nil d string.1), fun _ => ⟨hp, _, hget⟩⟩, hext, hle, hget⟩

/-- `argz_add_sep` of a non-empty string adds its entries, in a block with room for the whole
    string. -/
theorem argzAddSep_holds {string : CString} (hne : string.1 ≠ []) {d : UInt8} (hd : d ≠ 0)
    {s : Vec} {l : List (List UInt8)} (h : Holds s l) :
    ∃ s', argzAddSep A string (charVal d) s = some (s', 0) ∧
      Holds s' (l ++ sepEntries d string.1) ∧
      ∃ blk, s'.mem.heap.get s'.argz = some blk ∧
        blk.length = s.argzLen + (string.1.length + 1) := by
  have hpos := List.length_pos_iff.mpr hne
  obtain ⟨m, p, x, hm, hp, hx, hb⟩ := reallocBytes_holds hA h (string.1.length + 1)
  have hloop := @sepLoop_eq (charVal d) (string.1 ++ [0]) (terminate 0 l) x (string.1.length + 1)
    (by simp [hx]) (by simp)
  have hle := length_emit_le (charVal d) true (string.1 ++ [0])
  rw [fresh_terminate, emit_eq hd string.2] at hloop
  rw [emit_eq hd string.2, List.length_append, List.length_singleton] at hle
  have hnlen : string.1.length + 1 -
      ((string.1 ++ [0]).length - (terminate 0 (sepEntries d string.1)).length) =
      (terminate 0 (sepEntries d string.1)).length := by
    rw [List.length_append, List.length_singleton]
    omega
  rw [hnlen] at hloop
  have hfree : ∀ e ∈ l ++ sepEntries d string.1, 0 ∉ e := by
    intro e he
    rcases List.mem_append.mp he with he | he
    · exact h.nulFree e he
    · exact sepEntries_nulFree string.2 e he
  obtain ⟨m', hm', hh⟩ := store_holds
    (x.drop (terminate 0 (sepEntries d string.1)).length) hb hp
    (List.append_ne_nil_of_right_ne_nil l (sepEntries_ne_nil d string.1)) hfree
  rw [terminate_append] at hm'
  refine ⟨_, ?_, hh, terminate 0 l ++ terminate 0 (sepEntries d string.1) ++
    x.drop (terminate 0 (sepEntries d string.1)).length, ?_, ?_⟩
  · unfold argzAddSep
    dsimp only
    rw [if_pos (by omega), hm]
    simp only [Option.bind_eq_bind, Option.bind_some, if_neg hp, hb, h.len, hloop, hm',
      terminate_append, List.length_append]
  · rw [store_live hb] at hm'
    rw [← Option.some.inj hm']
    exact Heap.get_set_self _ _ _
  · rw [List.length_append, List.length_append, List.length_drop, hx, h.len]
    omega

end Growing

/-! ## Splitting into a vector of its own, and onto another one -/

/-- `argz_create_sep`: the entries are the non-empty pieces before the last delimiter and the
    last piece, and only the `*len` bytes that store them are written. -/
theorem argzCreateSep_splits {A : Allocator (List UInt8)} (hA : ∀ n, A.fails n = false)
    (string : CString) {d : UInt8} (hd : d ≠ 0) (s : Vec) :
    ∃ s', argzCreateSep A string (charVal d) s = some (s', 0) ∧
      (string.1 = [] → s'.argz = 0 ∧ s'.argzLen = 0) ∧
      (string.1 ≠ [] → WellFormed s' ∧
        value s' = (string.1.splitOn d).dropLast.filter (· ≠ []) ++
          (string.1.splitOn d).getLast?.toList ∧
        s'.argzLen = (terminate 0 (value s')).length ∧ s'.argzLen ≤ string.1.length + 1 ∧
        s'.mem.heap.get s'.argz = some (terminate 0 (value s') ++
          (resize (A.junk s.mem.calls) (string.1.length + 1) []).drop s'.argzLen)) := by
  by_cases hne : string.1 = []
  · refine ⟨{ s with argz := 0, argzLen := 0 }, ?_, fun _ => ⟨rfl, rfl⟩, fun h => absurd hne h⟩
    rw [argzCreateSep, hne]
    rfl
  · obtain ⟨s', hs', hh, _, hle, hget⟩ := argzCreateSep_holds hA hne hd s
    have hval := hh.value_eq
    exact ⟨s', hs', fun h => absurd h hne,
      fun _ => ⟨hh.wellFormed, hval, hval ▸ hh.len, hle, hval ▸ hget⟩⟩

/-- `":a::b:"` at the colon: an empty first piece, a run of two and an empty last piece. -/
theorem argzCreateSep_splits_colons :
    ∃ s', argzCreateSep (Allocator.bump _ fun _ => false) ⟨[58, 97, 58, 58, 98, 58], by decide⟩
        (charVal 58) { mem := ⟨Heap.empty, 0⟩, argz := 0, argzLen := 0 } = some (s', 0) ∧
      value s' = [[97], [98], []] ∧ s'.argzLen = 5 := by
  obtain ⟨s', hs', _, h⟩ := argzCreateSep_splits
    (A := Allocator.bump _ fun _ => false) (fun _ => rfl)
    ⟨[58, 97, 58, 58, 98, 58], by decide⟩ (by decide : (58 : UInt8) ≠ 0)
    { mem := ⟨Heap.empty, 0⟩, argz := 0, argzLen := 0 }
  obtain ⟨_, hval, hlen, _⟩ := h (by decide)
  have hpieces : value s' = [[97], [98], []] := hval.trans (by decide)
  exact ⟨s', hs', hpieces, by rw [hlen, hpieces]; rfl⟩

/-- `argz_add_sep` does what `argz_append` of the vector from `argz_create_sep` does, and its
    block is as large as was asked for. -/
theorem argzAddSep_eq_append {A : Allocator (List UInt8)} (hA : ∀ n, A.fails n = false)
    {string : CString} (hne : string.1 ≠ []) {d : UInt8} (hd : d ≠ 0) {s : Vec}
    (hs : WellFormed s) (argz argzLen : Nat) :
    ∃ s₁ v s₂, argzAddSep A string (charVal d) s = some (s₁, 0) ∧
      argzCreateSep A string (charVal d) { mem := s.mem, argz := argz, argzLen := argzLen } =
        some (v, 0) ∧
      argzAppend A ((bytesFrom v v.argz).take v.argzLen) { s with mem := v.mem } = some (s₂, 0) ∧
      s₁.argzLen = s₂.argzLen ∧
      (bytesFrom s₁ s₁.argz).take s₁.argzLen = (bytesFrom s₂ s₂.argz).take s₂.argzLen ∧
      ∃ blk, s₁.mem.heap.get s₁.argz = some blk ∧
        blk.length = s.argzLen + string.1.length + 1 := by
  have h := holds_iff.mpr ⟨hs, rfl⟩
  obtain ⟨s₁, hs₁, hh₁, hblk⟩ := argzAddSep_holds hA hne hd h
  obtain ⟨v, hv, hhv, hext, _⟩ := argzCreateSep_holds hA hne hd
    { mem := s.mem, argz := argz, argzLen := argzLen }
  obtain ⟨s₂, hs₂, hh₂⟩ := argzAppend_holds hA (h.mono hext) (sepEntries_ne_nil d string.1)
    (sepEntries_nulFree string.2)
  refine ⟨s₁, v, s₂, hs₁, hv, ?_, hh₁.len.trans hh₂.len.symm, ?_, hblk⟩
  · rw [hhv.bytes_eq]
    exact hs₂
  · rw [hh₁.bytes_eq, hh₂.bytes_eq]

/-- `":a:"` added to the empty vector. -/
theorem argzAddSep_eq_append_empty :
    ∃ s₁ v s₂, argzAddSep (Allocator.bump _ fun _ => false) ⟨[58, 97, 58], by decide⟩ (charVal 58)
        { mem := ⟨Heap.empty, 0⟩, argz := 0, argzLen := 0 } = some (s₁, 0) ∧
      argzCreateSep (Allocator.bump _ fun _ => false) ⟨[58, 97, 58], by decide⟩ (charVal 58)
        { mem := ⟨Heap.empty, 0⟩, argz := 0, argzLen := 0 } = some (v, 0) ∧
      argzAppend (Allocator.bump _ fun _ => false) ((bytesFrom v v.argz).take v.argzLen)
        { mem := v.mem, argz := 0, argzLen := 0 } = some (s₂, 0) ∧
      s₁.argzLen = s₂.argzLen ∧
      (bytesFrom s₁ s₁.argz).take s₁.argzLen = (bytesFrom s₂ s₂.argz).take s₂.argzLen ∧
      ∃ blk, s₁.mem.heap.get s₁.argz = some blk ∧ blk.length = 0 + 3 + 1 :=
  @argzAddSep_eq_append (Allocator.bump _ fun _ => false) (fun _ => rfl)
    ⟨[58, 97, 58], by decide⟩ (by decide) 58 (by decide)
    { mem := ⟨Heap.empty, 0⟩, argz := 0, argzLen := 0 } (.inl ⟨rfl, rfl⟩) 0 0

end Librecompat.Argz
