/-
  The parts of the C library and of Darwin's headers that the modelled files share: error
  numbers, the 64-bit unsigned `size_t`, the signed value of a `char` and string functions.
-/
import Librecompat.Lib.Bytes
import Librecompat.Lib.Occurrences
import Mathlib.Algebra.GroupWithZero.Nat
import Mathlib.Data.List.TakeWhile

namespace Librecompat

/-- `errno_t`; `0` is success. -/
abbrev Errno := Nat

def ENOENT : Errno := 2
def ESRCH : Errno := 3
def EINTR : Errno := 4
def EBADF : Errno := 9
def ENOMEM : Errno := 12
def EINVAL : Errno := 22
def EAGAIN : Errno := 35
def EWOULDBLOCK : Errno := EAGAIN
def ENOTSOCK : Errno := 38
def ENOPROTOOPT : Errno := 42
def ENOTSUP : Errno := 45
def ENOTCONN : Errno := 57

def INT_MAX : Nat := 2147483647

/-- A NUL-free string: what a `const char *` argument denotes. -/
abbrev CString := { s : List UInt8 // 0 ∉ s }

/-- The value of a `char` as an `int`; `char` is signed on Darwin. -/
def charVal (c : UInt8) : Int := c.toInt8.toInt

/-- The `char` that an `int` is stored as. -/
def toChar (i : Int) : UInt8 := (Int8.ofInt i).toUInt8

theorem toChar_charVal (c : UInt8) : toChar (charVal c) = c := by
  simp [toChar, charVal]

theorem charVal_inj {c d : UInt8} (h : charVal c = charVal d) : c = d := by
  rw [← toChar_charVal c, h, toChar_charVal]

/-- `a - b` in `size_t`. -/
def subSize (a b : Nat) : Nat := if b ≤ a then a - b else 2 ^ 64 + a - b

theorem subSize_of_le {a b : Nat} (h : b ≤ a) : subSize a b = a - b := if_pos h

/-- The bytes of a string literal. -/
def chars (s : String) : List UInt8 := s.toList.map Char.toUInt8

/-- The C string that starts a block of bytes. -/
def cstr (bs : List UInt8) : List UInt8 := bs.takeWhile (· ≠ 0)

theorem zero_not_mem_cstr (bs : List UInt8) : 0 ∉ cstr bs := by
  intro hm
  have hne := List.mem_takeWhile_imp hm
  simp at hne

theorem cstr_of_append {v : List UInt8} (hv : 0 ∉ v) (t : List UInt8) :
    cstr (v ++ 0 :: t) = v := by
  unfold cstr
  rw [List.takeWhile_append_of_pos, List.takeWhile_cons_of_neg (by simp), List.append_nil]
  intro c hc
  have hne : c ≠ 0 := fun h0 => hv (h0 ▸ hc)
  simpa using hne

theorem cstr_append_nul (v t : List UInt8) : cstr (v ++ 0 :: t) = cstr v := by
  induction v with
  | nil => rfl
  | cons c v ih => by_cases hc : c = 0 <;> simp_all [cstr]

theorem cstr_append_zero {v : List UInt8} (hv : 0 ∉ v) : cstr (v ++ [0]) = v :=
  cstr_of_append hv []

/-- The tokens that `strtok_r` hands out one after the other. -/
def tokens (delims s : List UInt8) : List (List UInt8) :=
  (s.splitOnP (· ∈ delims)).filter (· ≠ [])

theorem subset_of_mem_splitOnP {α : Type} {p : α → Bool} {s t : List α}
    (ht : t ∈ s.splitOnP p) : t ⊆ s := by
  induction s generalizing t with
  | nil =>
    rw [List.splitOnP_nil, List.mem_singleton] at ht
    exact ht ▸ List.Subset.refl _
  | cons x s ih =>
    have hsub : ∀ u ∈ s.splitOnP p, u ⊆ x :: s := fun u hu => List.subset_cons_of_subset x (ih hu)
    rw [List.splitOnP_cons_eq_if_modifyHead] at ht
    split at ht
    · rcases List.mem_cons.mp ht with rfl | ht
      · exact List.nil_subset _
      · exact hsub t ht
    · cases hs : s.splitOnP p with
      | nil => exact absurd hs (List.splitOnP_ne_nil p s)
      | cons u us =>
        rw [hs] at ht hsub
        rcases List.mem_cons.mp ht with rfl | ht
        · exact List.cons_subset.mpr ⟨List.mem_cons_self, hsub u List.mem_cons_self⟩
        · exact hsub t (List.mem_cons_of_mem u ht)

theorem not_mem_of_mem_tokens {delims s t : List UInt8} {c : UInt8} (hs : c ∉ s)
    (ht : t ∈ tokens delims s) : c ∉ t :=
  fun hc => hs (subset_of_mem_splitOnP (List.mem_filter.mp ht).1 hc)

/-- `==` on byte strings is equality. -/
instance lawfulBEqBytes : LawfulBEq (List UInt8) := inferInstance

/-- Goes through the bytes of the list, not through all values of a byte. -/
instance (priority := high) decidableForallMem (p : UInt8 → Prop) [DecidablePred p]
    (bs : List UInt8) : Decidable (∀ c ∈ bs, p c) := List.decidableBAll p bs

/-- A word: not empty, and without any of the characters `stops`. -/
def Word (stops w : List UInt8) : Prop := w ≠ [] ∧ ∀ c ∈ w, c ∉ stops

theorem Word.mono {stops stops' w : List UInt8} (hw : Word stops w) (h : stops' ⊆ stops) :
    Word stops' w :=
  ⟨hw.1, fun c hc hm => hw.2 c hc (h hm)⟩

/-- A delimiter cuts the string in two. -/
theorem tokens_cut {delims : List UInt8} {d : UInt8} (hd : d ∈ delims) (a b : List UInt8) :
    tokens delims (a ++ d :: b) = tokens delims a ++ tokens delims b := by
  unfold tokens
  rw [List.splitOnP_append_cons a b (decide_eq_true hd), List.filter_append]

theorem tokens_skip {delims : List UInt8} {c : UInt8} (hc : c ∈ delims) (s : List UInt8) :
    tokens delims (c :: s) = tokens delims s :=
  tokens_cut hc [] s

theorem tokens_gap {delims gap : List UInt8} (hgap : ∀ c ∈ gap, c ∈ delims) (s : List UInt8) :
    tokens delims (gap ++ s) = tokens delims s := by
  induction gap with
  | nil => rfl
  | cons c gap ih =>
    rw [List.forall_mem_cons] at hgap
    rw [List.cons_append, tokens_skip hgap.1, ih hgap.2]

theorem tokens_none {delims s : List UInt8} (hs : ∀ c ∈ s, c ∈ delims) : tokens delims s = [] := by
  rw [← List.append_nil s, tokens_gap hs]
  rfl

theorem tokens_word {delims w : List UInt8} (hw : Word delims w) : tokens delims w = [w] := by
  unfold tokens
  rw [List.splitOnP_eq_singleton fun c hc => decide_eq_false (hw.2 c hc)]
  exact List.filter_eq_self.mpr (by simp [hw.1])

/-- A word and the delimiter behind it. -/
theorem tokens_word_cons {delims w : List UInt8} {d : UInt8} (hw : Word delims w)
    (hd : d ∈ delims) (s : List UInt8) :
    tokens delims (w ++ d :: s) = w :: tokens delims s := by
  rw [tokens_cut hd, tokens_word hw, List.singleton_append]

/-- `strpbrk (s, accept)`, as an offset. -/
def strpbrk (accept s : List UInt8) : Option Nat := s.findIdx? fun c => decide (c ∈ accept)

/-- What `strpbrk` finds. -/
theorem strpbrk_cases (accept s : List UInt8) :
    (strpbrk accept s = none ∧ ∀ c ∈ s, c ∉ accept) ∨
    ∃ u c v, s = u ++ c :: v ∧ (∀ d ∈ u, d ∉ accept) ∧ c ∈ accept ∧
      strpbrk accept s = some u.length := by
  unfold strpbrk
  induction s with
  | nil => exact .inl ⟨rfl, fun c hc => absurd hc List.not_mem_nil⟩
  | cons c s ih =>
    rw [List.findIdx?_cons]
    by_cases hc : c ∈ accept
    · rw [if_pos (decide_eq_true hc)]
      exact .inr ⟨[], c, s, rfl, fun d hd => absurd hd List.not_mem_nil, hc, rfl⟩
    · rw [if_neg (by simpa using hc)]
      rcases ih with ⟨hnone, hs⟩ | ⟨u, d, v, rfl, hu, hd, hsome⟩
      · rw [hnone]
        exact .inl ⟨rfl, List.forall_mem_cons.mpr ⟨hc, hs⟩⟩
      · rw [hsome]
        exact .inr ⟨c :: u, d, v, rfl, List.forall_mem_cons.mpr ⟨hc, hu⟩, hd, rfl⟩

/-- The word at the start of a text. -/
theorem word_cases {delims : List UInt8} {c : UInt8} (hc : c ∉ delims) (text : List UInt8) :
    (strpbrk delims (c :: text) = none ∧ tokens delims (c :: text) = [c :: text]) ∨
    ∃ u d v, c :: text = u ++ d :: v ∧ strpbrk delims (c :: text) = some u.length ∧
      v.length ≤ text.length ∧ tokens delims (c :: text) = u :: tokens delims v := by
  obtain ⟨hnil, hall⟩ | ⟨u, d, v, htext, hu, hd, hbrk⟩ := strpbrk_cases delims (c :: text)
  · exact .inl ⟨hnil, tokens_word ⟨List.cons_ne_nil c text, hall⟩⟩
  · have hne : u ≠ [] := by
      rintro rfl
      obtain ⟨rfl, _⟩ := List.cons.inj htext
      exact hc hd
    have hlen := congrArg List.length htext
    rw [List.length_cons, List.length_append, List.length_cons] at hlen
    exact .inr ⟨u, d, v, htext, hbrk, by omega, htext ▸ tokens_word_cons ⟨hne, hu⟩ hd v⟩

/-- `strstr (hay, needle)`: where the first occurrence starts. -/
def strstr (needle : List UInt8) : List UInt8 → Option Nat
  | [] => if needle.isPrefixOf [] then some 0 else none
  | c :: hay =>
    if needle.isPrefixOf (c :: hay) then some 0 else (strstr needle hay).map (· + 1)

theorem strstr_eq_some {needle hay : List UInt8} {n : Nat} (h : strstr needle hay = some n) :
    Lib.FirstAt needle hay n := by
  induction hay generalizing n with
  | nil =>
    unfold strstr at h
    split at h
    · next hp =>
      obtain rfl := Option.some.inj h
      exact ⟨List.isPrefixOf_iff_prefix.mp hp, fun m hm => absurd hm (Nat.not_lt_zero m)⟩
    · cases h
  | cons c hay ih =>
    unfold strstr at h
    split at h
    · next hp =>
      obtain rfl := Option.some.inj h
      exact ⟨List.isPrefixOf_iff_prefix.mp hp, fun m hm => absurd hm (Nat.not_lt_zero m)⟩
    · next hp =>
      obtain ⟨k, hk, rfl⟩ := Option.map_eq_some_iff.mp h
      exact (ih hk).cons fun hc => hp (List.isPrefixOf_iff_prefix.mpr hc)

theorem strstr_eq_none {needle hay : List UInt8} (h : strstr needle hay = none) :
    ¬ needle <:+: hay := by
  induction hay with
  | nil =>
    unfold strstr at h
    split at h
    · cases h
    · next hp =>
      intro hin
      exact hp (List.isPrefixOf_iff_prefix.mpr (List.infix_nil.mp hin ▸ List.prefix_refl []))
  | cons c hay ih =>
    unfold strstr at h
    split at h
    · cases h
    · next hp =>
      intro hin
      rcases List.infix_cons_iff.mp hin with hc | hin
      · exact hp (List.isPrefixOf_iff_prefix.mpr hc)
      · exact ih (Option.map_eq_none_iff.mp h) hin

end Librecompat
