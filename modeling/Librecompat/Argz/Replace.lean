/-
  What `argz_replace` makes of a vector.

  The inner loop builds the string that an entry is replaced by in a buffer of its own (`Str.Has`);
  at every pass the buffer and what is left of the entry make up the result (`replaceBody_step`).
  The main loop keeps `Replaced`: of the entries passed so far, nothing is stored while none of
  them has a match, and their replaced forms are stored after that (`argzReplaceBody_step`). The
  counter goes up once for every entry with a match, so that it counts the replacements only
  while no entry has two.
-/
import Librecompat.Argz.Atomic

namespace Librecompat.Argz

open Librecompat.Lib

/-! ## The string for one entry -/

/-- The buffer holds `out`; the caller's memory is as it was. -/
structure Str.Has (h₀ : Heap (List UInt8)) (w : Str) (out : List UInt8) : Prop where
  apart : w.Apart h₀
  live : w.toPtr ≠ 0
  blk : w.mem.heap.get w.toPtr = some (out ++ [0])
  len : w.toLen = out.length

/-- The rest of an entry from an address inside it. -/
theorem stringAt_drop {v : Vec} {arg : Nat} {string : List UInt8} (h : stringAt v arg = some string)
    (harg : v.argz ≤ arg) {k : Nat} (hk : k ≤ string.length) :
    stringAt v (arg + k) = some (string.drop k) := by
  obtain ⟨n, hn, rfl⟩ := Option.map_eq_some_iff.mp h
  obtain ⟨hfree, hbytes⟩ := strlen_eq_some hn
  rw [List.length_take] at hk
  have hfrom : bytesFrom v (arg + k) = (bytesFrom v arg).drop k := by
    unfold bytesFrom
    rw [if_neg (by omega), if_neg (by omega), List.drop_drop]
    congr 1
    omega
  have hrest : (bytesFrom v arg).drop k =
      ((bytesFrom v arg).take n).drop k ++ 0 :: (bytesFrom v arg).drop (n + 1) := by
    have hle : k ≤ ((bytesFrom v arg).take n).length := by
      rw [List.length_take]
      exact hk
    conv_lhs => rw [hbytes]
    exact List.drop_append_of_le_length hle
  unfold stringAt
  rw [hfrom, hrest, strlen_append_zero fun h0 => hfree (List.mem_of_mem_drop h0),
    Option.map_some, List.take_left]

section Growing

variable {A : Allocator (List UInt8)} (hA : ∀ n, A.fails n = false) {h₀ : Heap (List UInt8)}
include hA

theorem strAppend_has {w : Str} {out : List UInt8} (hw : w.Has h₀ out) (buf : List UInt8) :
    ∃ w', strAppend A buf w = some w' ∧ w'.Has h₀ (out ++ buf) := by
  obtain ⟨m, p, hre, hp, hb⟩ := realloc_ok (hA w.mem.calls)
    (resize (A.junk w.mem.calls) (w.toLen + buf.length + 1) [])
    (resize (A.junk w.mem.calls) (w.toLen + buf.length + 1)) hw.live hw.blk
  -- the old string stays in front, the rest of the block is written
  have htake : (resize (A.junk w.mem.calls) (w.toLen + buf.length + 1) (out ++ [0])).take
      out.length = out := by
    rw [take_resize _ (by rw [hw.len]; omega) (by simp), List.take_left]
  have hlen := length_resize (A.junk w.mem.calls) (w.toLen + buf.length + 1) (out ++ [0])
  rw [← List.take_append_drop out.length (resize _ _ _), htake] at hb
  have hwrite : writeAt (out ++ (resize (A.junk w.mem.calls) (w.toLen + buf.length + 1)
      (out ++ [0])).drop out.length) w.toLen (buf ++ [0]) = some (out ++ (buf ++ [0])) := by
    have hroom : ((resize (A.junk w.mem.calls) (w.toLen + buf.length + 1)
        (out ++ [0])).drop out.length).length = (buf ++ [0]).length := by
      rw [List.length_drop, hlen, hw.len, List.length_append, List.length_singleton]
      omega
    have happ := writeAt_append (a := out) (c := []) hroom
    rw [List.append_nil, List.append_nil] at happ
    rw [hw.len] at happ ⊢
    exact happ
  have hcall : strAppend A buf w =
      some { mem := ⟨m.heap.set p (out ++ (buf ++ [0])), m.calls⟩, toPtr := p,
             toLen := w.toLen + buf.length } := by
    unfold strAppend reallocBytes
    dsimp only
    rw [hre]
    simp only [Option.bind_eq_bind, Option.bind_some, if_pos hp, hb, hwrite, store_live hb]
  refine ⟨_, hcall, strAppend_apart hw.apart hcall, hp, ?_, ?_⟩
  · rw [List.append_assoc]
    exact Heap.get_set_self _ _ _
  · rw [List.length_append, ← hw.len]

/-- Where the inner loop stands: with `from` in the entry, what is there and the rest of the entry
    make up the result; with `from` null the result is there. -/
def Building (h₀ : Heap (List UInt8)) (str wth : CString) (arg : Nat) (string : List UInt8)
    (w : Str × Nat) : Prop :=
  ∃ out, w.1.Has h₀ out ∧
    ((w.2 = 0 ∧ out = replaceAll str.1 wth.1 string) ∨
      ∃ k ≤ string.length, w.2 = arg + k ∧
        out ++ wth.1 ++ replaceAll str.1 wth.1 (string.drop k) = replaceAll str.1 wth.1 string)

omit hA in
theorem replaceBody_null {src : Nat} {str wth : CString} {w : Str × Nat} (h0 : w.2 = 0) :
    replaceBody A src str wth w = .inr (some w.1) := by
  obtain ⟨w, p⟩ := w
  exact if_pos (.inr h0)

/-- A pass with `from` in the entry moves it forward or to null. -/
theorem replaceBody_step {src arg : Nat} {str wth : CString} (hstr : str.1 ≠ [])
    {string : List UInt8} (harg : src ≤ arg)
    (hstring : ∀ m : Mem (List UInt8), Extends h₀ m.heap →
      stringAt { mem := m, argz := src, argzLen := 0 } arg = some string)
    {w : Str × Nat} (hw : Building h₀ str wth arg string w) (hfrom : w.2 ≠ 0) :
    ∃ w', replaceBody A src str wth w = .inl w' ∧ Building h₀ str wth arg string w' ∧
      (if w'.2 = 0 then 0 else arg + string.length + 1 - w'.2) <
        (if w.2 = 0 then 0 else arg + string.length + 1 - w.2) := by
  obtain ⟨w, p⟩ := w
  obtain ⟨out, hout, ⟨h0, _⟩ | ⟨k, hk, rfl, hrest⟩⟩ := hw
  · exact absurd h0 hfrom
  · obtain ⟨w₁, hw₁, hhas₁⟩ := strAppend_has hA hout wth.1
    have hat := stringAt_drop (hstring w₁.mem hhas₁.apart.1) harg hk
    have hpos := List.length_pos_iff.mpr hstr
    dsimp only at hout hfrom ⊢
    unfold replaceBody
    simp only [if_neg (not_or.mpr ⟨hout.live, hfrom⟩), hw₁, if_neg hhas₁.live, hat]
    cases hs : strstr str.1 (string.drop k) with
    | some n =>
      have hfirst := strstr_eq_some hs
      have hle := hfirst.le_length hstr
      rw [List.length_drop] at hle
      obtain ⟨w₂, hw₂, hhas₂⟩ := strAppend_has hA hhas₁ ((string.drop k).take n)
      rw [replaceAll_first hstr wth.1 hfirst, List.drop_drop] at hrest
      simp only [hw₂]
      refine ⟨_, rfl, ⟨_, hhas₂, .inr ⟨k + n + str.1.length, by omega, by omega, ?_⟩⟩, ?_⟩
      · rw [← hrest]
        simp [Nat.add_assoc]
      · rw [if_neg hfrom, if_neg (by omega)]
        omega
    | none =>
      obtain ⟨w₂, hw₂, hhas₂⟩ := strAppend_has hA hhas₁ (string.drop k)
      rw [replaceAll_none wth.1 (strstr_eq_none hs)] at hrest
      simp only [hw₂]
      refine ⟨_, rfl, ⟨_, hhas₂, .inl ⟨rfl, hrest⟩⟩, ?_⟩
      rw [if_pos rfl, if_neg hfrom]
      omega

/-- The string for an entry whose first match is at `n`. -/
theorem replaceEntry_has {m : Mem (List UInt8)} {src arg n : Nat} {str wth : CString}
    (hstr : str.1 ≠ []) {string : List UInt8} (hsrc : src ≠ 0) (harg : src ≤ arg)
    (hstring : ∀ m' : Mem (List UInt8), Extends m.heap m'.heap →
      stringAt { mem := m', argz := src, argzLen := 0 } arg = some string)
    (hn : strstr str.1 string = some n) :
    ∃ w, replaceEntry A m src arg string n str wth = some w ∧
      w.Has m.heap (replaceAll str.1 wth.1 string) := by
  have hfirst := strstr_eq_some hn
  have hle := hfirst.le_length hstr
  obtain ⟨m', p, hm, hp, hb⟩ := malloc_ok (hA m.calls) (string.take n ++ [0])
  obtain ⟨hext, hpriv⟩ := malloc_private (Extends.refl m.heap) hm
  have hstart : Building m.heap str wth arg string
      ({ mem := m', toPtr := p, toLen := n }, arg + n + str.1.length) := by
    refine ⟨string.take n, ⟨⟨hext, hpriv⟩, hp, hb, ?_⟩, .inr ⟨n + str.1.length, hle, ?_, ?_⟩⟩
    · rw [List.length_take]
      dsimp only
      omega
    · exact Nat.add_assoc arg n str.1.length
    · exact (replaceAll_first hstr wth.1 hfirst).symm
  have hpass : ∀ w w', Building m.heap str wth arg string w →
      replaceBody A src str wth w = .inl w' → Building m.heap str wth arg string w' ∧
        (if w'.2 = 0 then 0 else arg + string.length + 1 - w'.2) <
          (if w.2 = 0 then 0 else arg + string.length + 1 - w.2) := by
    intro w w' hw hbody
    by_cases h0 : w.2 = 0
    · cases (replaceBody_null h0).symm.trans hbody
    · obtain ⟨w₁, hw₁, hstep⟩ := replaceBody_step hA hstr harg hstring hw h0
      obtain rfl := Sum.inl.inj (hw₁.symm.trans hbody)
      exact hstep
  have hexit : ∀ w res, Building m.heap str wth arg string w →
      replaceBody A src str wth w = .inr res →
      ∃ w', res = some w' ∧ w'.Has m.heap (replaceAll str.1 wth.1 string) := by
    intro w res hw hbody
    by_cases h0 : w.2 = 0
    · obtain rfl := Sum.inr.inj ((replaceBody_null h0).symm.trans hbody)
      obtain ⟨out, hout, ⟨_, rfl⟩ | ⟨k, _, hk, _⟩⟩ := hw
      · exact ⟨w.1, rfl, hout⟩
      · omega
    · obtain ⟨w₁, hw₁, _⟩ := replaceBody_step hA hstr harg hstring hw h0
      cases hw₁.symm.trans hbody
  obtain ⟨res, hres, w, rfl, hw⟩ := loop_total (n := string.length + 3) _ hpass hexit hstart (by
    dsimp only
    split <;> omega)
  refine ⟨w, ?_, hw⟩
  unfold replaceEntry strndup
  rw [hm]
  dsimp only
  rw [hres]
  rfl

end Growing

/-! ## The vector being built -/

theorem Holds.free {s : Vec} {l : List (List UInt8)} (h : Holds s l) {p : Nat}
    {m : Mem (List UInt8)} (hp : p ≠ s.argz) (hfree : Lib.free s.mem p = some m) :
    Holds { s with mem := m } l := by
  refine ⟨h.nulFree, h.len, h.null, fun hl => ?_⟩
  obtain ⟨hne, slack, hb⟩ := h.block hl
  refine ⟨hne, slack, ?_⟩
  unfold Lib.free at hfree
  split at hfree
  · obtain rfl := Option.some.inj hfree
    exact hb
  · obtain ⟨_, _, rfl⟩ := Option.map_eq_some_iff.mp hfree
    exact (Heap.get_del_ne _ hp.symm).trans hb

section Growing

variable {A : Allocator (List UInt8)} (hA : ∀ n, A.fails n = false)
include hA

theorem appendDst_holds {r : ReplaceState} {l l' : List (List UInt8)}
    (h : Holds { mem := r.mem, argz := r.dst, argzLen := r.dstLen } l) (hne : l' ≠ [])
    (hl' : ∀ e ∈ l', 0 ∉ e) :
    ∃ mem dst dstLen, appendDst A (terminate 0 l') r =
        some { r with mem := mem, dst := dst, dstLen := dstLen, err := 0 } ∧
      Holds { mem := mem, argz := dst, argzLen := dstLen } (l ++ l') := by
  obtain ⟨d, hd, hh⟩ := argzAppend_holds hA h hne hl'
  refine ⟨d.mem, d.argz, d.argzLen, ?_, hh⟩
  unfold appendDst
  rw [hd]
  rfl

/-- The entries `pre` before the current one are copied if that has been put off. -/
theorem copyDelayed_holds {src srcLen : Nat} {r : ReplaceState} {pre post l : List (List UInt8)}
    (hsrc : Holds { mem := r.mem, argz := src, argzLen := srcLen } (pre ++ post))
    (harg : r.arg = src + (terminate 0 pre).length) (herr : r.err = 0)
    (hdst : Holds { mem := r.mem, argz := r.dst, argzLen := r.dstLen }
      (if r.delayedCopy then [] else l)) (hpre : r.delayedCopy = true → l = pre) :
    ∃ mem dst dstLen, copyDelayed A src r =
        some { r with mem := mem, dst := dst, dstLen := dstLen, delayedCopy := false } ∧
      Holds { mem := mem, argz := dst, argzLen := dstLen } l := by
  obtain ⟨mem, arg, dst, dstLen, delayedCopy, err, replaceCount⟩ := r
  dsimp only at *
  unfold copyDelayed
  cases delayedCopy with
  | false => exact ⟨mem, dst, dstLen, rfl, hdst⟩
  | true =>
    obtain rfl := hpre rfl
    rw [if_pos rfl] at hdst ⊢
    by_cases hl : l = []
    · rw [harg, hl]
      exact ⟨mem, dst, dstLen, if_neg (Nat.lt_irrefl src), hl ▸ hdst⟩
    · have hpos : 0 < (terminate 0 l).length :=
        List.length_pos_iff.mpr fun h0 => hl ((terminate_eq_nil 0).mp h0)
      obtain ⟨_, slack, hb⟩ := hsrc.block (List.append_ne_nil_of_left_ne_nil hl post)
      have hbytes : (bytesFrom { mem := mem, argz := src, argzLen := 0 } src).take (arg - src) =
          terminate 0 l := by
        have hfrom := bytesFrom_of_lookup (s := { mem := mem, argz := src, argzLen := 0 }) hb 0
        rw [Nat.add_zero, List.drop_zero, terminate_append, List.append_assoc] at hfrom
        rw [hfrom, harg, Nat.add_sub_cancel_left, List.take_left]
      obtain ⟨mem', dst', dstLen', happ, hh⟩ := appendDst_holds hA
        (r := ⟨mem, arg, dst, dstLen, true, err, replaceCount⟩) hdst hl
        fun e he => hsrc.nulFree e (List.mem_append_left post he)
      dsimp only
      rw [if_pos (by omega), hbytes, happ, herr]
      exact ⟨mem', dst', dstLen', rfl, hh⟩

/-- The string built for the entry is added behind what is there, and its buffer is freed. -/
theorem addReplaced_holds {src srcLen toPtr : Nat} {r : ReplaceState}
    {pre post l : List (List UInt8)} {out : List UInt8}
    (hsrc : Holds { mem := r.mem, argz := src, argzLen := srcLen } (pre ++ post))
    (harg : r.arg = src + (terminate 0 pre).length) (herr : r.err = 0)
    (hdst : Holds { mem := r.mem, argz := r.dst, argzLen := r.dstLen }
      (if r.delayedCopy then [] else l)) (hpre : r.delayedCopy = true → l = pre)
    (hto : r.mem.heap.get toPtr = some (out ++ [0])) (hlive : toPtr ≠ 0) (hne : toPtr ≠ r.dst)
    (hout : 0 ∉ out) :
    ∃ mem dst dstLen, addReplaced A src toPtr r =
        some { r with mem := mem, dst := dst, dstLen := dstLen, delayedCopy := false } ∧
      Holds { mem := mem, argz := dst, argzLen := dstLen } (l ++ [out]) := by
  obtain ⟨mem₁, dst₁, dstLen₁, h₁, hh₁⟩ := copyDelayed_holds hA hsrc harg herr hdst hpre
  obtain ⟨mem₂, dst₂, dstLen₂, h₂, hh₂⟩ := appendDst_holds hA
    (r := { r with mem := mem₁, dst := dst₁, dstLen := dstLen₁, delayedCopy := false }) hh₁
    (List.cons_ne_nil out []) (by simpa using hout)
  -- only the block at `dst` is touched, so the buffer is still there
  have hstart : r.Apart (r.mem.heap.del r.dst) :=
    ⟨fun a b hb => by
      by_cases ha : a = r.dst
      · rw [ha, Heap.get_del_self] at hb
        cases hb
      · rwa [Heap.get_del_ne _ ha] at hb, fun _ => Heap.get_del_self _ _⟩
  have hbuf : (r.mem.heap.del r.dst).get toPtr = some (out ++ [0]) :=
    (Heap.get_del_ne _ hne).trans hto
  have hapart₁ := copyDelayed_apart hstart h₁
  have hapart₂ := appendDst_apart hapart₁ h₂
  have hbuf₁ := hapart₁.1 _ _ hbuf
  have hbuf₂ := hapart₂.1 _ _ hbuf
  dsimp only at hbuf₁ hbuf₂
  have hne₂ : toPtr ≠ dst₂ := by
    rintro rfl
    rw [hapart₂.2 hlive] at hbuf
    cases hbuf
  have hfree := free_live hlive hbuf₂
  have hbytes : (out ++ [0]).take out.length ++ [0] = terminate 0 [out] := by simp
  refine ⟨_, dst₂, dstLen₂, ?_, hh₂.free hne₂ hfree⟩
  rw [herr] at h₂
  unfold addReplaced
  rw [h₁]
  simp only [Option.bind_eq_bind, Option.bind_some, herr, if_true, hbuf₁,
    strlen_append_zero hout, hbytes]
  rw [h₂]
  simp only [Option.bind_some, hfree]

end Growing

/-! ## The main loop -/

theorem argzNext_behind {v : Vec} {pre post : List (List UInt8)} (h : Holds v (pre ++ post))
    {arg : Nat} (harg : (pre = [] ∧ arg = 0) ∨
      ∃ pre' e, pre = pre' ++ [e] ∧ arg = v.argz + (terminate 0 pre').length) :
    argzNext v arg = (starts (v.argz + (terminate 0 pre).length) post ++ [0]).head? := by
  rcases harg with ⟨rfl, rfl⟩ | ⟨pre', e, rfl, rfl⟩
  · have hchain := argzNext_holds h
    rw [List.cons_append, List.isChain_cons] at hchain
    cases post with
    | nil => exact hchain.1 0 rfl
    | cons e post => exact hchain.1 v.argz rfl
  · rw [List.append_assoc, List.singleton_append] at h
    rw [argzNext_start h, terminate_append, List.length_append, terminate_cons, terminate_nil,
      List.length_append, List.length_singleton, Nat.add_assoc, Nat.add_assoc]

theorem stringAt_start {v : Vec} {pre post : List (List UInt8)} {e : List UInt8}
    (h : Holds v (pre ++ e :: post)) :
    stringAt v (v.argz + (terminate 0 pre).length) = some e := by
  obtain ⟨_, slack, hb⟩ := h.block (by simp)
  have hbytes := bytesFrom_of_lookup hb (terminate 0 pre).length
  rw [terminate_append, List.append_assoc, List.drop_left, terminate_cons, List.append_assoc] at hbytes
  rw [stringAt, strlen_start h, hbytes, Option.map_some, List.take_left]

/-- The loop has passed the entries `pre`. -/
structure Replaced (s : Vec) (str wth : CString) (replaceCount : Option Nat)
    (pre : List (List UInt8)) (r : ReplaceState) : Prop where
  apart : r.Apart s.mem.heap
  err : r.err = 0
  arg : (pre = [] ∧ r.arg = 0) ∨
    ∃ pre' e, pre = pre' ++ [e] ∧ r.arg = s.argz + (terminate 0 pre').length
  dst : Holds { mem := r.mem, argz := r.dst, argzLen := r.dstLen }
    (if r.delayedCopy then [] else pre.map (replaceAll str.1 wth.1))
  delayed : r.delayedCopy = true → ∀ e ∈ pre, ¬ str.1 <:+: e
  copied : r.delayedCopy = false → ∃ e ∈ pre, str.1 <:+: e
  count : r.replaceCount.map (· % 2 ^ 32) = replaceCount.map fun c =>
    (c + (pre.map fun e => min 1 (occurrences str.1 e)).sum) % 2 ^ 32

theorem Replaced.start (s : Vec) (str wth : CString) (replaceCount : Option Nat) :
    Replaced s str wth replaceCount []
      { mem := s.mem, arg := 0, dst := 0, dstLen := 0, delayedCopy := true, err := 0,
        replaceCount := replaceCount } where
  apart := ⟨Extends.refl _, fun hn => absurd rfl hn⟩
  err := rfl
  arg := .inl ⟨rfl, rfl⟩
  dst := ⟨by simp, rfl, fun _ => rfl, fun h => absurd rfl h⟩
  delayed := by simp
  copied := nofun
  count := by simp

/-- While the copy is put off, nothing would have changed. -/
theorem Replaced.map_eq {s : Vec} {str wth : CString} {replaceCount : Option Nat}
    {pre : List (List UInt8)} {r : ReplaceState} (h : Replaced s str wth replaceCount pre r)
    (hd : r.delayedCopy = true) : pre.map (replaceAll str.1 wth.1) = pre :=
  (List.map_congr_left fun e he => replaceAll_none wth.1 (h.delayed hd e he)).trans (List.map_id pre)

theorem replaceAll_nulFree {str wth : CString} {e : List UInt8} (he : 0 ∉ e) :
    0 ∉ replaceAll str.1 wth.1 e := fun h0 =>
  (mem_replaceAll h0).elim wth.2 he

theorem Holds.ne_of_private {v : Vec} {l : List (List UInt8)} (h : Holds v l) {p : Nat}
    (hp : Private v.mem.heap p) (hlive : p ≠ 0) : p ≠ v.argz := by
  rintro rfl
  obtain ⟨_, slack, hb⟩ := h.block fun hl => hlive (h.null hl)
  rw [hp hlive] at hb
  cases hb

/-- The counter behind an entry with a match. -/
theorem count_succ {a b : Option Nat} {k : Nat}
    (h : a.map (· % 2 ^ 32) = b.map fun c => (c + k) % 2 ^ 32) :
    (a.map fun c => (c + 1) % 2 ^ 32).map (· % 2 ^ 32) =
      b.map fun c => (c + (k + 1)) % 2 ^ 32 := by
  cases a with
  | none =>
    cases b with
    | none => rfl
    | some d => cases h
  | some c =>
    cases b with
    | none => cases h
    | some d =>
      have hmod : c % 2 ^ 32 = (d + k) % 2 ^ 32 := Option.some.inj h
      have hsucc : (c + 1) % 2 ^ 32 % 2 ^ 32 = (d + (k + 1)) % 2 ^ 32 := by omega
      exact congrArg some hsucc

section Growing

variable {A : Allocator (List UInt8)} (hA : ∀ n, A.fails n = false)
include hA

omit hA in
/-- The pass over the entry `e` does what one of its two branches does. -/
theorem argzReplaceBody_eq {s : Vec} {str wth : CString} {replaceCount : Option Nat}
    {pre post : List (List UInt8)} {e : List UInt8} (hs : Holds s (pre ++ e :: post))
    {r next : ReplaceState} (h : Replaced s str wth replaceCount pre r)
    (hnext : (∃ n, strstr str.1 e = some n ∧ replaceMatch A s.argz str wth e n
        { r with arg := s.argz + (terminate 0 pre).length } = some next) ∨
      (strstr str.1 e = none ∧
        (if r.delayedCopy then some { r with arg := s.argz + (terminate 0 pre).length }
         else appendDst A (e ++ [0]) { r with arg := s.argz + (terminate 0 pre).length }) =
          some next)) :
    argzReplaceBody A s.argz s.argzLen str wth r = .inl next := by
  obtain ⟨hsrc, _⟩ := hs.block (by simp)
  have hstep := argzNext_behind (hs.mono h.apart.1) h.arg
  have hstring := stringAt_start (hs.mono h.apart.1)
  have harg : s.argz + (terminate 0 pre).length ≠ 0 := by omega
  unfold argzReplaceBody
  dsimp only at hstep hstring ⊢
  rw [if_neg (not_not.mpr h.err), hstep]
  dsimp only [starts_cons, List.cons_append, List.head?_cons]
  rw [if_neg harg, hstring]
  rcases hnext with ⟨n, hn, hnext⟩ | ⟨hn, hnext⟩
  · dsimp only
    rw [hn]
    dsimp only
    rw [hnext]
  · dsimp only
    rw [hn]
    dsimp only
    rw [hnext]

/-- One pass over the entry `e`. -/
theorem argzReplaceBody_step {s : Vec} {str wth : CString} (hstr : str.1 ≠ [])
    {replaceCount : Option Nat} {pre post : List (List UInt8)} {e : List UInt8}
    (hs : Holds s (pre ++ e :: post)) {r : ReplaceState}
    (h : Replaced s str wth replaceCount pre r) :
    ∃ r', argzReplaceBody A s.argz s.argzLen str wth r = .inl r' ∧
      Replaced s str wth replaceCount (pre ++ [e]) r' := by
  obtain ⟨hsrc, _⟩ := hs.block (by simp)
  have he : 0 ∉ e := hs.nulFree e (by simp)
  have hlast : ∀ arg, arg = s.argz + (terminate 0 pre).length →
      (pre ++ [e] = [] ∧ arg = 0) ∨
        ∃ pre' e', pre ++ [e] = pre' ++ [e'] ∧ arg = s.argz + (terminate 0 pre').length :=
    fun arg harg => .inr ⟨pre, e, rfl, harg⟩
  cases hs' : strstr str.1 e with
  | none =>
    have hnone := strstr_eq_none hs'
    have hcount : r.replaceCount.map (· % 2 ^ 32) = replaceCount.map fun c =>
        (c + ((pre ++ [e]).map fun e => min 1 (occurrences str.1 e)).sum) % 2 ^ 32 := by
      rw [List.map_append, List.sum_append, List.map_singleton, occurrences_none hnone]
      exact h.count
    cases hd : r.delayedCopy with
    | true =>
      have hres := argzReplaceBody_eq (A := A) hs h (.inr ⟨hs', if_pos hd⟩)
      have hdst := h.dst
      rw [hd, if_pos rfl] at hdst
      refine ⟨_, hres, argzReplaceBody_apart h.apart hres, h.err, hlast _ rfl, ?_, ?_, ?_, hcount⟩
      · dsimp only
        rw [hd, if_pos rfl]
        exact hdst
      · intro _ e' he'
        rcases List.mem_append.mp he' with he' | he'
        · exact h.delayed hd e' he'
        · exact List.mem_singleton.mp he' ▸ hnone
      · exact fun hf => absurd (hd.symm.trans hf) nofun
    | false =>
      have hdst := h.dst
      rw [hd, if_neg Bool.false_ne_true] at hdst
      obtain ⟨mem, dst, dstLen, happ, hh⟩ := appendDst_holds hA
        (r := { r with arg := s.argz + (terminate 0 pre).length }) hdst (List.cons_ne_nil e [])
        (by simpa using he)
      have hword : terminate 0 [e] = e ++ [0] := by simp
      rw [hword] at happ
      have hres := argzReplaceBody_eq hs h (.inr ⟨hs', (if_neg (by simp [hd])).trans happ⟩)
      obtain ⟨e', he', hin⟩ := h.copied hd
      refine ⟨_, hres, argzReplaceBody_apart h.apart hres, rfl, hlast _ rfl, ?_,
        fun ht => absurd (hd.symm.trans ht) nofun,
        fun _ => ⟨e', List.mem_append_left _ he', hin⟩, hcount⟩
      dsimp only
      rw [hd, if_neg Bool.false_ne_true, List.map_append, List.map_singleton,
        replaceAll_none wth.1 hnone]
      exact hh
  | some n =>
    have hfirst := strstr_eq_some hs'
    have hstring : ∀ m : Mem (List UInt8), Extends r.mem.heap m.heap →
        stringAt { mem := m, argz := s.argz, argzLen := 0 }
          (s.argz + (terminate 0 pre).length) = some e := by
      intro m hm
      have hat := stringAt_start (hs.mono (h.apart.1.trans hm))
      exact hat
    obtain ⟨w, hw, hhas⟩ := replaceEntry_has hA hstr hsrc
      (Nat.le_add_right s.argz (terminate 0 pre).length) hstring hs'
    obtain ⟨mem, dst, dstLen, hadd, hh⟩ := addReplaced_holds hA
      (r := { r with arg := s.argz + (terminate 0 pre).length, mem := w.mem,
                     replaceCount := r.replaceCount.map fun c => (c + 1) % 2 ^ 32 })
      (hs.mono (h.apart.1.trans hhas.apart.1)) rfl h.err (h.dst.mono hhas.apart.1) h.map_eq
      hhas.blk hhas.live (h.dst.ne_of_private hhas.apart.2 hhas.live)
      (replaceAll_nulFree he)
    have hmatch : replaceMatch A s.argz str wth e n
        { r with arg := s.argz + (terminate 0 pre).length } =
        addReplaced A s.argz w.toPtr
          { r with arg := s.argz + (terminate 0 pre).length, mem := w.mem,
                   replaceCount := r.replaceCount.map fun c => (c + 1) % 2 ^ 32 } := by
      unfold replaceMatch
      dsimp only
      rw [hw, Option.bind_eq_bind, Option.bind_some, if_pos hhas.live]
    have hres := argzReplaceBody_eq hs h (.inl ⟨n, hs', hmatch.trans hadd⟩)
    refine ⟨_, hres, argzReplaceBody_apart h.apart hres, h.err, hlast _ rfl, ?_, nofun,
      fun _ => ⟨e, by simp, hfirst.occurs⟩, ?_⟩
    · rw [if_neg Bool.false_ne_true, List.map_append]
      exact hh
    · rw [List.map_append, List.sum_append, List.map_singleton, occurrences_first hstr hfirst,
        Nat.min_eq_left (Nat.le_add_left 1 _)]
      exact count_succ h.count

/-- The main loop passes every entry. -/
theorem argzReplace_loop {s : Vec} {str wth : CString} (hstr : str.1 ≠ [])
    {replaceCount : Option Nat} {post : List (List UInt8)} : ∀ {pre : List (List UInt8)}
    {r : ReplaceState} {n : Nat}, Holds s (pre ++ post) → Replaced s str wth replaceCount pre r →
    post.length < n → ∃ r', loop (argzReplaceBody A s.argz s.argzLen str wth) n r =
      some (some r') ∧ Replaced s str wth replaceCount (pre ++ post) r' := by
  induction post with
  | nil =>
    intro pre r n hs h hn
    obtain ⟨n, rfl⟩ := Nat.exists_eq_succ_of_ne_zero (Nat.ne_zero_of_lt hn)
    have hnext := argzNext_behind (hs.mono h.apart.1) h.arg
    refine ⟨r, loop_succ_inr ?_, by rwa [List.append_nil]⟩
    unfold argzReplaceBody
    dsimp only at hnext ⊢
    rw [if_neg (not_not.mpr h.err), hnext]
    rfl
  | cons e post ih =>
    intro pre r n hs h hn
    obtain ⟨n, rfl⟩ := Nat.exists_eq_succ_of_ne_zero (Nat.ne_zero_of_lt hn)
    obtain ⟨r₁, h₁, hr₁⟩ := argzReplaceBody_step hA hstr hs h
    have hsplit : pre ++ e :: post = (pre ++ [e]) ++ post := by simp
    rw [hsplit] at hs ⊢
    rw [loop_succ_inl h₁]
    exact ih hs hr₁ (Nat.lt_of_succ_lt_succ hn)

/-- The whole call: what the vector holds, whether it is still the old one, and the counter. -/
theorem argzReplace_holds {s : Vec} {l : List (List UInt8)} (hs : Holds s l) {str : CString}
    (hstr : str.1 ≠ []) (wth : CString) (replaceCount : Option Nat) :
    ∃ s' c, argzReplace A (some str) wth replaceCount s = some (s', c, 0) ∧
      Holds s' (l.map (replaceAll str.1 wth.1)) ∧
      ((∀ e ∈ l, ¬ str.1 <:+: e) → s'.argz = s.argz ∧ s'.argzLen = s.argzLen) ∧
      c.map (· % 2 ^ 32) = replaceCount.map fun c =>
        (c + (l.map fun e => min 1 (occurrences str.1 e)).sum) % 2 ^ 32 := by
  have hfuel : l.length < s.argzLen + 2 := by
    have hle := length_le_terminate 0 l
    rw [← hs.len] at hle
    omega
  obtain ⟨r, hr, h⟩ := argzReplace_loop hA hstr hs (Replaced.start s str wth replaceCount) hfuel
  rw [List.nil_append] at h
  unfold argzReplace
  dsimp only
  rw [if_neg hstr, hr, Option.join_some, Option.bind_eq_bind, Option.bind_some, if_pos h.err, h.err]
  cases hd : r.delayedCopy with
  | true =>
    rw [if_pos rfl]
    refine ⟨_, _, rfl, ?_, fun _ => ⟨rfl, rfl⟩, h.count⟩
    rw [h.map_eq hd]
    exact hs.mono h.apart.1
  | false =>
    obtain ⟨e, he, hin⟩ := h.copied hd
    have hdst := h.dst
    rw [hd, if_neg Bool.false_ne_true] at hdst
    obtain ⟨hne, slack, hb⟩ := hs.block (List.ne_nil_of_mem he)
    have hfree := free_live hne (h.apart.1 _ _ hb)
    -- the old vector is not the new one
    have hdiff : s.argz ≠ r.dst := by
      intro heq
      have hnone := h.apart.2 (heq ▸ hne)
      rw [← heq, hb] at hnone
      cases hnone
    rw [if_neg Bool.false_ne_true, hfree]
    exact ⟨_, _, rfl, hdst.free hdiff hfree, fun hnone => absurd hin (hnone e he), h.count⟩

end Growing

/-! ## The entries and the counter -/

/-- Entry by entry every occurrence of `str` is replaced, and without any the vector stays where
    it is. -/
theorem argzReplace_entrywise {A : Allocator (List UInt8)} (hA : ∀ n, A.fails n = false) {s : Vec}
    (hs : WellFormed s) {str : CString} (hstr : str.1 ≠ []) (wth : CString)
    (replaceCount : Option Nat) :
    ∃ s' c, argzReplace A (some str) wth replaceCount s = some (s', c, 0) ∧ WellFormed s' ∧
      value s' = (value s).map (replaceAll str.1 wth.1) ∧
      ((∀ e ∈ value s, ¬ str.1 <:+: e) → s'.argz = s.argz ∧ s'.argzLen = s.argzLen) := by
  obtain ⟨s', c, hcall, hh, hsame, _⟩ :=
    argzReplace_holds hA (holds_iff.mpr ⟨hs, rfl⟩) hstr wth replaceCount
  exact ⟨s', c, hcall, hh.wellFormed, hh.value_eq, hsame⟩

/-- The vector with the one entry `"aa"`. -/
def vecAA : Vec := { mem := ⟨Heap.empty.set 4096 [97, 97, 0], 0⟩, argz := 4096, argzLen := 3 }

theorem vecAA_holds : Holds vecAA [[97, 97]] :=
  ⟨by decide, rfl, nofun, fun _ => ⟨by decide, [], Heap.get_set_self _ _ _⟩⟩

/-- Both occurrences of `"a"` in `"aa"` become `"ba"`, which contains `"a"` again. -/
theorem argzReplace_entrywise_twice :
    ∃ s' c, argzReplace (Allocator.bump _ fun _ => false) (some ⟨[97], by decide⟩)
        ⟨[98, 97], by decide⟩ none vecAA = some (s', c, 0) ∧ WellFormed s' ∧
      value s' = [[98, 97, 98, 97]] := by
  obtain ⟨s', c, hcall, hwf, hval, _⟩ := @argzReplace_entrywise
    (Allocator.bump _ fun _ => false) (fun _ => rfl) vecAA vecAA_holds.wellFormed
    ⟨[97], by decide⟩ (by decide) ⟨[98, 97], by decide⟩ none
  rw [vecAA_holds.value_eq] at hval
  exact ⟨s', c, hcall, hwf, hval⟩

/-- Each entry's occurrences are the one that is counted and those beyond it. -/
theorem sum_occurrences (pat : List UInt8) (l : List (List UInt8)) :
    (l.map (occurrences pat)).sum =
      (l.map fun e => min 1 (occurrences pat e)).sum + (l.map fun e => occurrences pat e - 1).sum := by
  induction l with
  | nil => rfl
  | cons e l ih =>
    simp only [List.map_cons, List.sum_cons, ih]
    omega

/-- The counter goes up by the number of replacements, modulo `2 ^ 32`, exactly when the
    occurrences beyond the first one of each entry are a multiple of `2 ^ 32`. -/
theorem replaceCount_iff {A : Allocator (List UInt8)} (hA : ∀ n, A.fails n = false) {s : Vec}
    (hs : WellFormed s) {str : CString} (hstr : str.1 ≠ []) (wth : CString) (count : Nat) :
    (∃ s' c, argzReplace A (some str) wth (some count) s = some (s', some c, 0) ∧
      c % 2 ^ 32 = (count + ((value s).map (occurrences str.1)).sum) % 2 ^ 32) ↔
    ((value s).map fun e => occurrences str.1 e - 1).sum % 2 ^ 32 = 0 := by
  obtain ⟨s', o, hcall, _, _, hcount⟩ :=
    argzReplace_holds hA (holds_iff.mpr ⟨hs, rfl⟩) hstr wth (some count)
  obtain ⟨c, rfl, hc⟩ := Option.map_eq_some_iff.mp hcount
  dsimp only at hc
  rw [sum_occurrences]
  constructor
  · rintro ⟨s₁, c₁, hcall₁, hc₁⟩
    cases hcall.symm.trans hcall₁
    omega
  · intro hrest
    exact ⟨s', c, hcall, by omega⟩

/-- The one occurrence of `"aa"` in `"aa"` is counted. -/
theorem replaceCount_iff_once :
    (∃ s' c, argzReplace (Allocator.bump _ fun _ => false) (some ⟨[97, 97], by decide⟩)
        ⟨[], by decide⟩ (some 0) vecAA = some (s', some c, 0) ∧
      c % 2 ^ 32 = (0 + ((value vecAA).map (occurrences [97, 97])).sum) % 2 ^ 32) ↔
    ((value vecAA).map fun e => occurrences [97, 97] e - 1).sum % 2 ^ 32 = 0 :=
  @replaceCount_iff (Allocator.bump _ fun _ => false) (fun _ => rfl) vecAA vecAA_holds.wellFormed
    ⟨[97, 97], by decide⟩ (by decide) ⟨[], by decide⟩ 0

/-- Both occurrences of `"a"` in `"aa"` are replaced, and the counter goes up by one. -/
theorem replaceCount_twice :
    ¬ ∀ (A : Allocator (List UInt8)) (s : Vec) (str wth : CString) (count : Nat),
      (∀ n, A.fails n = false) → WellFormed s → str.1 ≠ [] →
      ∃ s' c, argzReplace A (some str) wth (some count) s = some (s', some c, 0) ∧
        c % 2 ^ 32 = (count + ((value s).map (occurrences str.1)).sum) % 2 ^ 32 := by
  intro h
  let str : CString := ⟨[97], by decide⟩
  let wth : CString := ⟨[98], by decide⟩
  have hstr : str.1 ≠ [] := by decide
  obtain ⟨s', c, hcall, hc⟩ := h (Allocator.bump _ fun _ => false) vecAA str wth 0
    (fun _ => rfl) vecAA_holds.wellFormed hstr
  obtain ⟨s₁, o, hcall₁, _, _, hcount⟩ := argzReplace_holds
    (A := Allocator.bump _ fun _ => false) (fun _ => rfl) vecAA_holds hstr wth (some 0)
  cases hcall.symm.trans hcall₁
  rw [vecAA_holds.value_eq] at hc
  have hone : c % 2 ^ 32 = 1 := Option.some.inj hcount
  have htwo : c % 2 ^ 32 = 2 := hc
  omega

end Librecompat.Argz
