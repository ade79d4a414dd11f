/-
  `argz_stringify` and `argz_create_sep` undo each other.

  `argz_stringify` replaces every NUL of the vector but the last one (`argzStringify_eq`). On a
  string that neither starts with the delimiter nor has two delimiters next to each other
  (`Separated`), `argz_create_sep` replaces every delimiter by a NUL (`argzCreateSep_eq`). The
  entries of a vector joined by a character that is in none of them are such a string.
-/
import Librecompat.Argz.Split

namespace Librecompat.Argz

open Librecompat.Lib

/-! ## argz_stringify -/

/-- NUL becomes `x`. -/
def fill (x c : UInt8) : UInt8 := if c = 0 then x else c

theorem map_fill_of_nulFree (x : UInt8) {e : List UInt8} (he : 0 ∉ e) : e.map (fill x) = e := by
  refine (List.map_congr_left fun c hc => ?_).trans (List.map_id e)
  exact if_neg fun h0 : c = 0 => he (h0 ▸ hc)

/-- The loop has got to the part `v` of the string, behind which the last NUL follows; `r` is what
    it makes of the string. -/
def Filling (sep : Int) (slack r : List UInt8) (c : StringifyState) : Prop :=
  ∃ pre v, c.blk = pre ++ (v ++ 0 :: slack) ∧ c.argz = pre.length ∧ c.len = v.length + 1 ∧
    pre ++ v.map (fill (toChar sep)) = r

theorem Filling.strnlen {sep : Int} {slack r : List UInt8} {c : StringifyState}
    (h : Filling sep slack r c) :
    (strnlen c.len (c.blk.drop c.argz) = some (c.len - 1) ∧ c.blk = r ++ 0 :: slack) ∨
    ∃ pre e v, c.blk = (pre ++ e) ++ 0 :: (v ++ 0 :: slack) ∧ c.argz = pre.length ∧
      c.len = e.length + (v.length + 2) ∧ strnlen c.len (c.blk.drop c.argz) = some e.length ∧
      (pre ++ e ++ [toChar sep]) ++ v.map (fill (toChar sep)) = r := by
  obtain ⟨pre, v, hblk, hargz, hlen, hr⟩ := h
  rw [hblk, hargz, hlen, List.drop_left]
  by_cases hz : 0 ∈ v
  · obtain ⟨e, v', rfl, he⟩ := List.eq_append_cons_of_mem hz
    refine .inr ⟨pre, e, v', by simp, rfl, ?_, ?_, ?_⟩
    · rw [List.length_append, List.length_cons]
      omega
    · rw [List.append_assoc, List.cons_append]
      refine strnlen_append_zero he _ ?_
      rw [List.length_append]
      omega
    · rw [← hr, List.map_append, List.map_cons, map_fill_of_nulFree _ he]
      simp [fill]
  · rw [map_fill_of_nulFree _ hz] at hr
    refine .inl ⟨?_, by rw [← hr, List.append_assoc]⟩
    exact strnlen_append_zero hz slack (Nat.le_succ _)

/-- Every NUL but the last one becomes the separator. -/
theorem stringify_loop (sep : Int) (v slack : List UInt8) :
    loop (argzStringifyBody sep) (v.length + 2)
        { blk := v ++ 0 :: slack, argz := 0, len := v.length + 1 } =
      some (some (v.map (fill (toChar sep)) ++ 0 :: slack)) := by
  have hpass : ∀ c c', Filling sep slack (v.map (fill (toChar sep))) c →
      argzStringifyBody sep c = .inl c' →
      Filling sep slack (v.map (fill (toChar sep))) c' ∧ c'.len < c.len := by
    intro c c' h hc
    unfold argzStringifyBody at hc
    rcases h.strnlen with ⟨hstr, _⟩ | ⟨pre, e, v', hblk, hargz, hlen, hstr, hr⟩
    · rw [hstr] at hc
      dsimp only at hc
      rw [if_pos (by omega)] at hc
      cases hc
    · rw [hstr] at hc
      dsimp only at hc
      rw [if_neg (by omega), hblk, hargz, ← List.length_append, writeAt_middle] at hc
      obtain rfl := Sum.inl.inj hc
      dsimp only
      refine ⟨⟨pre ++ e ++ [toChar sep], v', by simp, by simp [Nat.add_assoc], ?_, hr⟩, ?_⟩
      · show c.len - e.length - 1 = v'.length + 1
        omega
      · show c.len - e.length - 1 < c.len
        omega
  have hexit : ∀ c res, Filling sep slack (v.map (fill (toChar sep))) c →
      argzStringifyBody sep c = .inr res →
      res = some (v.map (fill (toChar sep)) ++ 0 :: slack) := by
    intro c res h hc
    unfold argzStringifyBody at hc
    rcases h.strnlen with ⟨hstr, hblk⟩ | ⟨pre, e, v', hblk, hargz, hlen, hstr, hr⟩
    · rw [hstr] at hc
      dsimp only at hc
      rw [if_pos (by omega)] at hc
      rw [← hblk]
      exact (Sum.inr.inj hc).symm
    · rw [hstr] at hc
      dsimp only at hc
      rw [if_neg (by omega), hblk, hargz, ← List.length_append, writeAt_middle] at hc
      cases hc
  obtain ⟨res, hres, rfl⟩ := loop_total (fun c : StringifyState => c.len) hpass hexit
    (s := ⟨v ++ 0 :: slack, 0, v.length + 1⟩) ⟨[], v, rfl, rfl, rfl, rfl⟩ (Nat.lt_succ_self _)
  exact hres

/-- `argz_stringify` on a vector with the bytes `v` and a last NUL. -/
theorem argzStringify_eq (sep : Int) {s : Vec} {v slack : List UInt8}
    (hblk : s.mem.heap.get s.argz = some (v ++ 0 :: slack)) (hlen : s.argzLen = v.length + 1) :
    ∃ m, argzStringify sep s = some { s with mem := m } ∧
      m.heap.get s.argz = some (v.map (fill (toChar sep)) ++ 0 :: slack) := by
  unfold argzStringify
  rw [if_pos (by omega), hblk, hlen]
  simp only [Option.bind_eq_bind, Option.bind_some, stringify_loop, Option.join_some,
    store_live hblk]
  exact ⟨_, rfl, Heap.get_set_self _ _ _⟩

/-! ## argz_create_sep -/

/-- The string neither starts with the delimiter nor has two delimiters next to each other. -/
def Separated (delim : Int) (w : List UInt8) : Prop :=
  w.head?.map charVal ≠ some delim ∧
    w.IsChain fun c d => ¬ (charVal c = delim ∧ charVal d = delim)

/-- The delimiter becomes NUL. -/
def cut (delim : Int) (c : UInt8) : UInt8 := if charVal c = delim then 0 else c

/-- What lets the loop write a NUL for a delimiter: what it has written before is no NUL. -/
def Ready (delim : Int) (pre u : List UInt8) : Prop :=
  (∀ c ∈ u.head?, charVal c = delim → ∃ b ∈ pre.getLast?, b ≠ 0) ∧
    u.IsChain fun c d => charVal d = delim → charVal c ≠ delim ∧ c ≠ 0

/-- On a ready string every character writes one byte. -/
theorem emit_ready {delim : Int} {pre u : List UInt8} (h : Ready delim pre u) :
    emit delim (fresh pre) u = u.map (cut delim) := by
  induction u generalizing pre with
  | nil => rfl
  | cons c u ih =>
    obtain ⟨hhead, hchain⟩ := h
    have htail : ∀ d ∈ u.head?, charVal d = delim → charVal c ≠ delim ∧ c ≠ 0 := by
      intro d hd
      obtain ⟨u, rfl⟩ := List.head?_eq_some_iff.mp hd
      exact (List.isChain_cons_cons.mp hchain).1
    have hrest := @ih (pre ++ [cut delim c])
    rw [fresh_append] at hrest
    rw [emit, List.map_cons]
    unfold cut at hrest ⊢
    by_cases hc : charVal c = delim
    · obtain ⟨b, hb, hne⟩ := hhead c rfl hc
      have hfresh : fresh pre = false := by
        rw [fresh, hb]
        exact decide_eq_false hne
      rw [if_pos hc] at hrest
      rw [if_pos hc, if_pos hc, hfresh, if_neg Bool.false_ne_true]
      refine congrArg _ (hrest ⟨fun d hd hdelim => absurd hc (htail d hd hdelim).1, hchain.tail⟩)
    · rw [if_neg hc] at hrest
      rw [if_neg hc, if_neg hc]
      exact congrArg _ (hrest ⟨fun d hd hdelim => ⟨c, by simp, (htail d hd hdelim).2⟩,
        hchain.tail⟩)

theorem Separated.ready {delim : Int} {w : List UInt8} (h : Separated delim w) (hw : 0 ∉ w)
    (hne : w ≠ []) : Ready delim [] (w ++ [0]) := by
  obtain ⟨hhead, hchain⟩ := h
  have hzero : ∀ c ∈ w, c ≠ 0 := fun c hc h0 => hw (h0 ▸ hc)
  refine ⟨fun c hc hdelim => absurd ?_ hhead, List.isChain_append.mpr ⟨?_, ?_, ?_⟩⟩
  · rw [List.head?_append_of_ne_nil w hne] at hc
    rw [hc, Option.map_some, hdelim]
  · exact hchain.imp_of_mem_imp fun c d hc _ hcd hd => ⟨fun hc' => hcd ⟨hc', hd⟩, hzero c hc⟩
  · exact List.isChain_singleton 0
  · intro c hc d hd hdelim
    have hc0 := hzero c (List.mem_of_mem_getLast? hc)
    obtain rfl : d = 0 := by simpa using hd.symm
    exact ⟨fun heq => hc0 (charVal_inj (heq.trans hdelim.symm)), hc0⟩

theorem cut_zero (delim : Int) : cut delim 0 = 0 := by
  unfold cut
  split <;> rfl

/-- `argz_create_sep` fails only without memory; it makes a vector of the string with NULs for the
    delimiters. -/
theorem argzCreateSep_eq (A : Allocator (List UInt8)) {w : CString} {delim : Int}
    (hne : w.1 ≠ []) (h : Separated delim w.1) (s : Vec) :
    ∃ s' err, argzCreateSep A w delim s = some (s', err) ∧
      ((A.fails s.mem.calls = true ∧ err = ENOMEM) ∨
       (A.fails s.mem.calls = false ∧ err = 0 ∧ s'.argz ≠ 0 ∧ s'.argzLen = w.1.length + 1 ∧
        s'.mem.heap.get s'.argz = some (w.1.map (cut delim) ++ [0]))) := by
  have hout : emit delim true (w.1 ++ [0]) = w.1.map (cut delim) ++ [0] := by
    have hemit := emit_ready (h.ready w.2 hne)
    rwa [List.map_append, List.map_singleton, cut_zero] at hemit
  have hlen : (emit delim true (w.1 ++ [0])).length = w.1.length + 1 := by
    rw [hout]
    simp
  obtain ⟨s', err, hs', hfail | ⟨hf, herr, hp, hargz, _, hget⟩⟩ := argzCreateSep_cases A hne
    (List.ne_nil_of_length_pos (by rw [hlen]; exact Nat.succ_pos _)) s
  · exact ⟨s', err, hs', .inl hfail⟩
  · rw [hargz, hlen, List.drop_of_length_le (by simp), List.append_nil, hout] at hget
    exact ⟨s', err, hs', .inr ⟨hf, herr, hp, hargz.trans hlen, hget⟩⟩

/-! ## The two together -/

theorem fill_cut {delim : Int} {c : UInt8} (hc : c ≠ 0) : fill (toChar delim) (cut delim c) = c := by
  unfold cut
  split
  · next h => rw [fill, if_pos rfl, ← h, toChar_charVal]
  · exact if_neg hc

theorem stringAt_block {s : Vec} {w slack : List UInt8} (hw : 0 ∉ w)
    (h : s.mem.heap.get s.argz = some (w ++ 0 :: slack)) : stringAt s s.argz = some w := by
  have hbytes := bytesFrom_of_lookup h 0
  rw [Nat.add_zero, List.drop_zero] at hbytes
  rw [stringAt, hbytes, strlen_append_zero hw, Option.map_some, List.take_left]

/-- Cutting a string and filling the gaps again. -/
theorem createSep_stringify (A : Allocator (List UInt8)) {w : CString} {delim : Int}
    (hne : w.1 ≠ []) (h : Separated delim w.1) (s : Vec) :
    ∃ s₁ err, argzCreateSep A w delim s = some (s₁, err) ∧
      ((A.fails s.mem.calls = true ∧ err = ENOMEM) ∨
       (A.fails s.mem.calls = false ∧ err = 0 ∧ ∃ s₂, argzStringify delim s₁ = some s₂ ∧
        stringAt s₂ s₂.argz = some w.1)) := by
  obtain ⟨s₁, err, h₁, hfail | ⟨hf, rfl, _, hlen, hget⟩⟩ := argzCreateSep_eq A hne h s
  · exact ⟨s₁, err, h₁, .inl hfail⟩
  · have hfill : (w.1.map (cut delim)).map (fill (toChar delim)) = w.1 := by
      rw [List.map_map]
      refine (List.map_congr_left fun c hc => ?_).trans (List.map_id w.1)
      exact fill_cut fun h0 => w.2 (h0 ▸ hc)
    obtain ⟨m, h₂, hget₂⟩ := argzStringify_eq delim hget (by rw [hlen, List.length_map])
    rw [hfill] at hget₂
    exact ⟨s₁, 0, h₁, .inr ⟨hf, rfl, _, h₂, stringAt_block w.2 hget₂⟩⟩

theorem terminate_eq_append {l : List (List UInt8)} (hl : l ≠ []) :
    terminate 0 l = [0].intercalate l ++ [0] := by
  induction l with
  | nil => exact absurd rfl hl
  | cons e l ih =>
    rw [terminate_cons]
    cases l with
    | nil => simp
    | cons e' l =>
      rw [ih (List.cons_ne_nil e' l), List.intercalate_cons_cons]
      simp

/-- A map that only changes the character between the words. -/
theorem map_intercalate {x y : UInt8} {f : UInt8 → UInt8} (hx : f x = y) {l : List (List UInt8)}
    (hl : ∀ e ∈ l, ∀ c ∈ e, f c = c) : ([x].intercalate l).map f = [y].intercalate l := by
  induction l with
  | nil => rfl
  | cons e l ih =>
    rw [List.forall_mem_cons] at hl
    have he : e.map f = e := (List.map_congr_left hl.1).trans (List.map_id e)
    cases l with
    | nil => simpa using he
    | cons e' l =>
      rw [List.intercalate_cons_cons, List.intercalate_cons_cons, List.map_append, List.map_append,
        he, ih hl.2, List.map_singleton, hx]

theorem separated_word {x : UInt8} {e : List UInt8} (hx : x ∉ e) :
    e.head?.map charVal ≠ some (charVal x) ∧
      ∀ R : UInt8 → UInt8 → Prop, (∀ c d, charVal c ≠ charVal x → R c d) → e.IsChain R := by
  have hne : ∀ c ∈ e, charVal c ≠ charVal x := fun c hc heq => hx (charVal_inj heq ▸ hc)
  refine ⟨fun h => ?_, fun R hR => ?_⟩
  · obtain ⟨c, hc, heq⟩ := Option.map_eq_some_iff.mp h
    exact hne c (List.mem_of_mem_head? hc) heq
  · induction e with
    | nil => exact List.isChain_nil
    | cons c e ih =>
      rw [List.forall_mem_cons] at hne
      exact List.isChain_cons.mpr ⟨fun d _ => hR c d hne.1,
        ih (fun h => hx (List.mem_cons_of_mem c h)) hne.2⟩

/-- Non-empty words joined by a character that is in none of them. -/
theorem separated_intercalate {x : UInt8} {l : List (List UInt8)}
    (hl : ∀ e ∈ l, e ≠ [] ∧ x ∉ e) : Separated (charVal x) ([x].intercalate l) := by
  induction l with
  | nil => exact ⟨nofun, List.isChain_nil⟩
  | cons e l ih =>
    rw [List.forall_mem_cons] at hl
    obtain ⟨⟨hne, hx⟩, hl⟩ := hl
    obtain ⟨hhead, hchain⟩ := separated_word hx
    have hword := hchain (fun c d => ¬ (charVal c = charVal x ∧ charVal d = charVal x))
      fun c d hc h => hc h.1
    cases l with
    | nil => exact ⟨by simpa using hhead, by simpa using hword⟩
    | cons e' l =>
      obtain ⟨hhead', hchain'⟩ := ih hl
      rw [List.intercalate_cons_cons, List.append_assoc, List.singleton_append]
      refine ⟨by rwa [List.head?_append_of_ne_nil e hne], List.isChain_append.mpr ⟨hword, ?_, ?_⟩⟩
      · refine List.isChain_cons.mpr ⟨fun d hd h => hhead' ?_, hchain'⟩
        rw [hd, Option.map_some, h.2]
      · intro c hc d _ h
        exact hx (charVal_inj h.1 ▸ List.mem_of_mem_getLast? hc)

/-- Filling the gaps of a vector and cutting the string again. -/
theorem stringify_createSep (A : Allocator (List UInt8)) {x : UInt8} (hx : x ≠ 0)
    {l : List (List UInt8)} (hne : l ≠ []) (hl : ∀ e ∈ l, e ≠ [] ∧ x ∉ e) {s : Vec}
    (h : Holds s l) :
    ∃ s₁, ∃ w : CString, argzStringify (charVal x) s = some s₁ ∧
      stringAt s₁ s₁.argz = some w.1 ∧
      ∀ argz argzLen, ∃ s₂ err, argzCreateSep A w (charVal x)
          { mem := s₁.mem, argz := argz, argzLen := argzLen } = some (s₂, err) ∧
        ((A.fails s₁.mem.calls = true ∧ err = ENOMEM) ∨
         (A.fails s₁.mem.calls = false ∧ err = 0 ∧ Holds s₂ l)) := by
  obtain ⟨_, slack, hget⟩ := h.block hne
  have hlen := h.len
  rw [terminate_eq_append hne, List.append_assoc, List.singleton_append] at hget
  rw [terminate_eq_append hne, List.length_append, List.length_singleton] at hlen
  have hfill : ([0].intercalate l).map (fill (toChar (charVal x))) = [x].intercalate l :=
    map_intercalate (by rw [toChar_charVal]; rfl) fun e he c hc =>
      if_neg fun h0 : c = 0 => h.nulFree e he (h0 ▸ hc)
  have hkeep : ∀ e ∈ l, ∀ c ∈ e, cut (charVal x) c = c := fun e he c hc =>
    if_neg fun heq : charVal c = charVal x => (hl e he).2 (charVal_inj heq ▸ hc)
  have hcut : ([x].intercalate l).map (cut (charVal x)) = [0].intercalate l :=
    map_intercalate (show cut (charVal x) x = 0 from if_pos rfl) hkeep
  have hnul : 0 ∉ [x].intercalate l := by
    intro h0
    rcases mem_intercalate h0 with h0 | ⟨e, he, h0⟩
    · exact hx (List.mem_singleton.mp h0).symm
    · exact h.nulFree e he h0
  have hlen' : ([x].intercalate l).length + 1 = (terminate 0 l).length := by
    rw [terminate_eq_append hne, ← hcut]
    simp
  have hw : [x].intercalate l ≠ [] := by
    intro h0
    cases l with
    | nil => exact hne rfl
    | cons e l =>
      have hpos := List.length_pos_iff.mpr (hl e List.mem_cons_self).1
      rw [h0, terminate_cons] at hlen'
      simp only [List.length_nil, List.length_append, List.length_cons] at hlen'
      omega
  obtain ⟨m, hstr, hget₁⟩ := argzStringify_eq (charVal x) hget hlen
  rw [hfill] at hget₁
  refine ⟨_, ⟨_, hnul⟩, hstr, stringAt_block hnul hget₁, fun argz argzLen => ?_⟩
  obtain ⟨s₂, err, h₂, hfail | ⟨hf, rfl, hp, hlen₂, hget₂⟩⟩ := argzCreateSep_eq A (w := ⟨_, hnul⟩) hw
    (separated_intercalate hl) { mem := m, argz := argz, argzLen := argzLen }
  · exact ⟨s₂, err, h₂, .inl hfail⟩
  · rw [hcut, ← terminate_eq_append hne] at hget₂
    refine ⟨s₂, 0, h₂, .inr ⟨hf, rfl, h.nulFree, hlen₂.trans hlen', fun h0 => absurd h0 hne,
      fun _ => ⟨hp, [], ?_⟩⟩⟩
    rw [List.append_nil]
    exact hget₂

/-- The two functions undo each other, unless `malloc` fails: on the vector of a non-empty list of
    non-empty entries without the separator, and on a non-empty separated string. -/
theorem stringify_createSep_inverse (A : Allocator (List UInt8)) :
    (∀ (x : UInt8) (l : List (List UInt8)) (s : Vec), x ≠ 0 → l ≠ [] →
      (∀ e ∈ l, e ≠ [] ∧ x ∉ e) → WellFormed s → value s = l →
      ∃ s₁, ∃ w : CString, argzStringify (charVal x) s = some s₁ ∧
        stringAt s₁ s₁.argz = some w.1 ∧
        ∀ argz argzLen, ∃ s₂ err, argzCreateSep A w (charVal x)
            { mem := s₁.mem, argz := argz, argzLen := argzLen } = some (s₂, err) ∧
          ((A.fails s₁.mem.calls = true ∧ err = ENOMEM) ∨
           (A.fails s₁.mem.calls = false ∧ err = 0 ∧ WellFormed s₂ ∧ value s₂ = l ∧
            s₂.argzLen = s.argzLen))) ∧
    (∀ (w : CString) (delim : Int) (s : Vec), w.1 ≠ [] → w.1.head?.map charVal ≠ some delim →
      (w.1.IsChain fun c d => ¬ (charVal c = delim ∧ charVal d = delim)) →
      ∃ s₁ err, argzCreateSep A w delim s = some (s₁, err) ∧
        ((A.fails s.mem.calls = true ∧ err = ENOMEM) ∨
         (A.fails s.mem.calls = false ∧ err = 0 ∧ ∃ s₂, argzStringify delim s₁ = some s₂ ∧
          stringAt s₂ s₂.argz = some w.1))) := by
  refine ⟨fun x l s hx hne hl hs hv => ?_, fun w delim s hne hhead hchain => ?_⟩
  · have h := holds_iff.mpr ⟨hs, hv⟩
    obtain ⟨s₁, w, h₁, hw, hback⟩ := stringify_createSep A hx hne hl h
    refine ⟨s₁, w, h₁, hw, fun argz argzLen => ?_⟩
    obtain ⟨s₂, err, h₂, hfail | ⟨hf, herr, hs₂⟩⟩ := hback argz argzLen
    · exact ⟨s₂, err, h₂, .inl hfail⟩
    · refine ⟨s₂, err, h₂, .inr ⟨hf, herr, hs₂.wellFormed, hs₂.value_eq, ?_⟩⟩
      exact hs₂.len.trans h.len.symm
  · exact createSep_stringify A hne ⟨hhead, hchain⟩ s

/-- The vector with the entries `"a"` and `"b"`. -/
def vecAB : Vec :=
  { mem := ⟨Heap.empty.set 4096 [97, 0, 98, 0], 0⟩, argz := 4096, argzLen := 4 }

/-- The vector with the entries `"a"` and `"b"`, and the string `"a:b"`. -/
theorem stringify_createSep_inverse_colon :
    (∃ s₁, ∃ w : CString, argzStringify (charVal 58) vecAB = some s₁ ∧
      stringAt s₁ s₁.argz = some w.1 ∧
      ∀ argz argzLen, ∃ s₂ err, argzCreateSep (Allocator.bump _ fun _ => false) w (charVal 58)
          { mem := s₁.mem, argz := argz, argzLen := argzLen } = some (s₂, err) ∧
        ((false = true ∧ err = ENOMEM) ∨
         (false = false ∧ err = 0 ∧ WellFormed s₂ ∧ value s₂ = [[97], [98]] ∧
          s₂.argzLen = vecAB.argzLen))) ∧
    ∃ s₁ err, argzCreateSep (Allocator.bump _ fun _ => false) ⟨[97, 58, 98], by decide⟩ 58
        { mem := ⟨Heap.empty, 0⟩, argz := 0, argzLen := 0 } = some (s₁, err) ∧
      ((false = true ∧ err = ENOMEM) ∨
       (false = false ∧ err = 0 ∧ ∃ s₂, argzStringify 58 s₁ = some s₂ ∧
        stringAt s₂ s₂.argz = some [97, 58, 98])) := by
  obtain ⟨hvec, hstring⟩ := stringify_createSep_inverse (Allocator.bump _ fun _ => false)
  refine ⟨hvec 58 [[97], [98]] vecAB (by decide) (by decide) (by decide) ?_ (by decide), ?_⟩
  · exact .inr ⟨by decide, by decide, [97, 0, 98, 0], Heap.get_set_self _ _ _, rfl⟩
  · exact hstring ⟨[97, 58, 98], by decide⟩ 58 { mem := ⟨Heap.empty, 0⟩, argz := 0, argzLen := 0 }
      (by decide) (by decide) (by decide)

end Librecompat.Argz
