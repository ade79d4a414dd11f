/-
  What a title call writes.

  `fillBuf` puts the text of the call into `buf`, cut off at 2047 bytes and at the first NUL
  (`fillBuf_spec`, `titleText`). `showBuf` fills all of the claimed space: as much of the visible
  title as fits in front of a NUL, and NULs behind it (`showBuf_spec`, `padded`).
-/
import Librecompat.Setproctitle.Model

namespace Librecompat.Setproctitle

open Librecompat.Lib
open Librecompat.Lib.Memory (StrAt Keeps Nowhere)

variable {O : Outside} {s s' : State} {call : Call}

/-! ## The text of a call -/

/-- The whole text; for `fmt == NULL` the arguments the process was started with, if there are
    any. -/
def wholeText (s : State) (call : Call) : Option (List UInt8) :=
  match call.fmt with
  | none => if s.obuf = 0 then none else (s.mem.readStr s.obuf).filter (· ≠ [])
  | some fmt =>
    if fmt.1.head? = some 45 then some (call.vsnprintf fmt.1.tail)
    else (prog s).map fun name => name ++ chars ": " ++ call.vsnprintf fmt.1

/-- What `buf` holds. -/
def titleText (s : State) (call : Call) : Option (List UInt8) :=
  (wholeText s call).map fun text => cstr (text.take (sptBufsize - 1))

/-- The title with its special characters made visible. -/
def visibleTitle (O : Outside) (s : State) (call : Call) : Option (List UInt8) :=
  (titleText s call).map fun text => cstr (O.strnvis text).1

/-- `n` bytes that hold as much of `t` as fits in front of a NUL, and then NULs. -/
def padded (n : Nat) (t : List UInt8) : List UInt8 :=
  t.take (n - 1) ++ List.replicate (n - (t.take (n - 1)).length) 0

/-! ## `buf` -/

/-- The `n` bytes from `p` on. -/
def Within (p n : Nat) : Nat → Prop := fun q => p ≤ q ∧ q < p + n

theorem exists_cstr (bs : List UInt8) : ∃ rest, bs ++ [0] = cstr bs ++ 0 :: rest := by
  induction bs with
  | nil => exact ⟨[], rfl⟩
  | cons c bs ih =>
    by_cases hc : c = 0
    · exact ⟨bs ++ [0], by simp [cstr, hc]⟩
    · obtain ⟨rest, hrest⟩ := ih
      refine ⟨rest, ?_⟩
      have hcstr : cstr (c :: bs) = c :: cstr bs := by simp [cstr, hc]
      rw [hcstr, List.cons_append, hrest, List.cons_append]

/-- A text behind the first bytes of a buffer, cut off where the buffer ends. -/
theorem strlcpy_behind {m : Memory Unit} {p n : Nat} {pre t : List UInt8} (hl : m.Live p n)
    (hpre : m.bytes p pre.length = pre) (hn : pre.length < n) :
    ∃ m', m.strlcpy (p + pre.length) t (n - pre.length) = some m' ∧
      m'.StrAt p (cstr ((pre ++ t).take (n - 1))) ∧ Keeps (Within p n) m m' := by
  have hrest : m.Live (p + pre.length) (n - pre.length) := hl.mono (by omega) (by omega)
  refine ⟨_, Memory.strlcpy_live hrest (by omega), ?_, Memory.write_keeps fun q hq hqn => ?_⟩
  · obtain ⟨rest, hcut⟩ := exists_cstr ((pre ++ t).take (n - 1))
    have hbytes := @Memory.bytes_write_behind m p pre (t.take (n - pre.length - 1) ++ [0]) hpre
    have htake : (pre ++ t).take (n - 1) = pre ++ t.take (n - pre.length - 1) := by
      rw [List.take_append, List.take_of_length_le (by omega), Nat.sub_right_comm]
    rw [← List.append_assoc, ← htake, hcut] at hbytes
    refine StrAt.of_bytes (zero_not_mem_cstr _) (Memory.Live.write (hl.mono (Nat.le_refl p) ?_))
      hbytes
    rw [List.length_append, List.length_take, List.length_singleton]
    omega
  · rw [List.length_append, List.length_take, List.length_singleton] at hqn
    exact ⟨by omega, by omega⟩

/-- The same at the start of the buffer. -/
theorem strlcpy_start {m : Memory Unit} {p n : Nat} {t : List UInt8} (hl : m.Live p n)
    (hn : 0 < n) : ∃ m', m.strlcpy p t n = some m' ∧
      m'.StrAt p (cstr (t.take (n - 1))) ∧ Keeps (Within p n) m m' :=
  @strlcpy_behind m p n [] t hl rfl hn

theorem cstr_eq_self {bs : List UInt8} (h : 0 ∉ bs) : cstr bs = bs :=
  List.takeWhile_eq_self_iff.mpr fun _ hc => decide_eq_true fun h0 => h (h0 ▸ hc)

theorem take_take_append {α : Type} (a b : List α) (n : Nat) :
    (a.take n ++ b).take n = (a ++ b).take n := by
  rw [List.take_append, List.take_take, Nat.min_self, List.take_append, List.length_take]
  congr 2
  omega

theorem prog_spec (h : s.sptProgname = 0 ∨ ∃ t, s.mem.StrAt s.sptProgname t) :
    ∃ name, prog s = some name ∧ 0 ∉ name := by
  unfold prog
  by_cases h0 : s.sptProgname = 0
  · exact ⟨_, if_neg fun hne => hne h0, by decide⟩
  · obtain ⟨t, ht⟩ := h.resolve_left h0
    exact ⟨t, by rw [if_pos h0, ht.readStr], ht.noNul⟩

/-- A format always gives a text. -/
theorem titleText_fmt (hname : s.sptProgname = 0 ∨ ∃ t, s.mem.StrAt s.sptProgname t)
    (hfmt : call.fmt ≠ none) : ∃ text, titleText s call = some text := by
  obtain ⟨fmt, hfmt⟩ := Option.ne_none_iff_exists'.mp hfmt
  obtain ⟨name, hprog, _⟩ := prog_spec hname
  unfold titleText wholeText
  rw [hfmt]
  dsimp only
  split
  · exact ⟨_, rfl⟩
  · rw [hprog]
    exact ⟨_, rfl⟩

/-- There is no text, or `buf` gets it and nothing else changes. -/
theorem fillBuf_spec (hbuf : s.mem.Live s.buf sptBufsize)
    (hname : s.sptProgname = 0 ∨ ∃ t, s.mem.StrAt s.sptProgname t)
    (hobuf : s.obuf = 0 ∨ ∃ t, s.mem.StrAt s.obuf t) (call : Call) :
    (fillBuf s call = some (s.mem, false) ∧ titleText s call = none) ∨
    ∃ m text, fillBuf s call = some (m, true) ∧ titleText s call = some text ∧
      m.StrAt s.buf text ∧ Keeps (Within s.buf sptBufsize) s.mem m := by
  unfold fillBuf titleText wholeText
  cases call.fmt with
  | none =>
    dsimp only
    by_cases h0 : s.obuf = 0
    · rw [if_pos h0, if_pos h0]
      exact .inl ⟨rfl, rfl⟩
    · obtain ⟨t, ht⟩ := hobuf.resolve_left h0
      rw [if_neg h0, if_neg h0, Memory.load_alive (ht.live _ (Nat.le_refl _) (by omega)),
        Option.bind_eq_bind, Option.bind_some, ht.readStr]
      by_cases hc : t = []
      · rw [if_pos (ht.byte_eq_zero_iff.mpr hc)]
        exact .inl ⟨rfl, by simp [hc]⟩
      · obtain ⟨m, hcpy, hstr, hk⟩ := strlcpy_start (t := t) hbuf (by decide)
        rw [if_neg fun h0 => hc (ht.byte_eq_zero_iff.mp h0), Option.bind_eq_bind,
          Option.bind_some, hcpy]
        exact .inr ⟨m, _, rfl, by simp [hc], hstr, hk⟩
  | some fmt =>
    dsimp only
    by_cases hdash : fmt.1.head? = some 45
    · have hput := Memory.store_alive (hbuf s.buf (Nat.le_refl _) (Nat.lt_add_of_pos_right
        (by decide))) 0
      have hk₁ : Keeps (Within s.buf sptBufsize) s.mem (s.mem.write s.buf [0]) :=
        Memory.write_keeps fun q hq hqn => ⟨hq, by
          rw [List.length_singleton] at hqn
          unfold sptBufsize
          omega⟩
      obtain ⟨m, hcpy, hstr, hk⟩ := strlcpy_start (t := call.vsnprintf fmt.1.tail) (hk₁.live hbuf)
        (by decide)
      rw [if_pos hdash, if_pos hdash, hput, Option.map_some, Option.bind_eq_bind, Option.bind_some]
      dsimp only
      rw [Nat.add_zero, Nat.sub_zero]
      exact .inr ⟨m, _, by rw [show s.mem.put s.buf 0 = s.mem.write s.buf [0] from rfl, hcpy]; rfl,
        rfl, hstr, hk₁.trans hk fun _ _ => id⟩
    · obtain ⟨name, hprog, hname0⟩ := prog_spec hname
      obtain ⟨m₁, hcpy₁, hstr₁, hk₁⟩ := strlcpy_start (t := name ++ chars ": ") hbuf (by decide)
      have h0 : 0 ∉ (name ++ chars ": ").take (sptBufsize - 1) := fun hm =>
        (List.mem_append.mp (List.mem_of_mem_take hm)).elim hname0 (by decide)
      rw [cstr_eq_self h0] at hstr₁
      obtain ⟨m, hcpy, hstr, hk⟩ := strlcpy_behind (t := call.vsnprintf fmt.1) (hk₁.live hbuf)
        hstr₁.bytes_self (by rw [List.length_take]; unfold sptBufsize; omega)
      rw [take_take_append] at hstr
      simp only [if_neg hdash, hprog, Option.bind_eq_bind, Option.bind_some, hcpy₁, hstr₁.strlen,
        hcpy]
      exact .inr ⟨m, _, rfl, rfl, hstr, hk₁.trans hk fun _ _ => id⟩

/-! ## The claimed space -/

/-- All of the claimed space is written, and nothing else. -/
theorem showBuf_spec (O : Outside) {text : List UInt8} (hstr : s.mem.StrAt s.buf text)
    (hl : s.mem.Live s.sptStart s.sptSpaceLen) (hlen : 1 < s.sptSpaceLen) :
    ∃ m, showBuf O s = some { s with mem := m } ∧
      m.bytes s.sptStart s.sptSpaceLen = padded s.sptSpaceLen (cstr (O.strnvis text).1) ∧
      Keeps (Within s.sptStart s.sptSpaceLen) s.mem m := by
  generalize ht : cstr (O.strnvis text).1 = t
  have htake : (t.take (s.sptSpaceLen - 1)).length = min (s.sptSpaceLen - 1) t.length :=
    List.length_take
  have hcpy : s.mem.strlcpy s.sptStart t s.sptSpaceLen =
      some (s.mem.write s.sptStart (t.take (s.sptSpaceLen - 1) ++ [0])) :=
    Memory.strlcpy_live hl (by omega)
  generalize ha : t.take (s.sptSpaceLen - 1) = a at htake hcpy
  have hl₁ : (s.mem.write s.sptStart (a ++ [0])).Live s.sptStart s.sptSpaceLen := hl.write
  -- both ways to go on fill what is behind `a` with NULs
  have hfill : (if t.length < s.sptSpaceLen then
        (s.mem.write s.sptStart (a ++ [0])).stores 0 (s.sptStart + t.length)
          (List.replicate (s.sptSpaceLen - t.length) 0)
      else (s.mem.write s.sptStart (a ++ [0])).store 0 (s.sptStart + s.sptSpaceLen - 1) 0) =
      some ((s.mem.write s.sptStart (a ++ [0])).write (s.sptStart + a.length)
        (List.replicate (s.sptSpaceLen - a.length) 0)) := by
    by_cases hlt : t.length < s.sptSpaceLen
    · have hk : a.length = t.length := by omega
      rw [if_pos hlt, hk]
      exact Memory.stores_live (hl₁.mono (by omega) (by rw [List.length_replicate]; omega))
    · have hone : s.sptSpaceLen - a.length = 1 := by omega
      have hend : s.sptStart + s.sptSpaceLen - 1 = s.sptStart + a.length := by omega
      rw [if_neg hlt, hone, hend, Memory.store_alive (hl₁ _ (by omega) (by omega))]
      rfl
  have hprefix : (s.mem.write s.sptStart (a ++ [0])).bytes s.sptStart a.length = a :=
    Memory.bytes_write_prefix
  refine ⟨(s.mem.write s.sptStart (a ++ [0])).write (s.sptStart + a.length)
    (List.replicate (s.sptSpaceLen - a.length) 0), ?_, ?_, ?_⟩
  · unfold showBuf
    rw [hstr.readStr, Option.bind_eq_bind, Option.bind_some, ht]
    dsimp only
    rw [hcpy, Option.bind_eq_bind, Option.bind_some, hfill]
    rfl
  · have hbytes := @Memory.bytes_write_behind (s.mem.write s.sptStart (a ++ [0])) s.sptStart a
      (List.replicate (s.sptSpaceLen - a.length) 0) hprefix
    have hsum : a.length + (s.sptSpaceLen - a.length) = s.sptSpaceLen := by omega
    rw [List.length_replicate, hsum] at hbytes
    rw [hbytes, padded, ha]
  · have hk₁ : Keeps (Within s.sptStart s.sptSpaceLen) s.mem (s.mem.write s.sptStart (a ++ [0])) :=
      Memory.write_keeps fun q hq hqn => by
        rw [List.length_append, List.length_singleton] at hqn
        exact ⟨hq, by omega⟩
    exact hk₁.trans (Memory.write_keeps fun q hq hqn => by
      rw [List.length_replicate] at hqn
      exact ⟨by omega, by omega⟩) fun q _ hq => hq

end Librecompat.Setproctitle
