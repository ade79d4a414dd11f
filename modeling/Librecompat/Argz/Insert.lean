/-
  `argz_insert` with a `before` that points into the middle of an entry.

  The scan `while (before[-1]) before--` looks for the NUL in front of the entry
  (`rewind_word`). In front of the first entry there is none: unless `before` is `*argz`
  itself, the scan leaves the vector there and reads `(*argz)[-1]` (`entryOffset_first`).
-/
import Librecompat.Argz.Refine

namespace Librecompat.Argz

open Librecompat.Lib

/-- The scan steps over the characters of a word. -/
theorem rewind_word {w : List UInt8} (a rest : List UInt8) (hw : 0 ∉ w) {j : Nat} (hj : j ≤ w.length) :
    rewind (a ++ w ++ rest) (a.length + j) = rewind (a ++ w ++ rest) a.length := by
  induction j with
  | zero => rfl
  | succ j ih =>
    have hchar : (a ++ w ++ rest)[a.length + j]? = some w[j] := by
      rw [List.append_assoc, List.getElem?_append_right (Nat.le_add_right _ _),
        Nat.add_sub_cancel_left, List.getElem?_append_left hj, List.getElem?_eq_getElem hj]
    have hne : w[j] ≠ 0 := fun h0 => hw (h0 ▸ List.getElem_mem hj)
    rw [← Nat.add_assoc, rewind, hchar, Option.bind_some, if_neg hne, ih (Nat.le_of_succ_le hj)]

/-- Inside the first entry the scan leaves the vector. -/
theorem entryOffset_first {w rest : List UInt8} (hw : 0 ∉ w) {j : Nat} (hj : j ≤ w.length)
    (hpos : 0 < j) : entryOffset (w ++ rest) j = none := by
  have hscan := rewind_word [] rest hw hj
  rw [List.length_nil, Nat.zero_add, List.nil_append] at hscan
  rw [entryOffset, if_pos hpos, hscan]
  rfl

/-- Inside a later entry it stops at the entry's first byte. -/
theorem entryOffset_later {pre : List (List UInt8)} (hpre : pre ≠ []) {w : List UInt8}
    (rest : List UInt8) (hw : 0 ∉ w) {j : Nat} (hj : j ≤ w.length) :
    entryOffset (terminate 0 pre ++ w ++ rest) ((terminate 0 pre).length + j) =
      some (terminate 0 pre).length := by
  have hpos : 0 < (terminate 0 pre).length :=
    List.length_pos_iff.mpr fun h0 => hpre ((terminate_eq_nil 0).mp h0)
  have hstart := entryOffset_start pre (w ++ rest)
  rw [entryOffset, if_pos hpos, ← List.append_assoc] at hstart
  rw [entryOffset, if_pos (by omega), rewind_word _ rest hw hj, hstart]

/-- What `argz_insert` does depends on `before` only through the place the scan finds. -/
theorem argzInsert_congr {A : Allocator (List UInt8)} {s : Vec} {before before' : Nat}
    {old : List UInt8} (hb : s.mem.heap.get s.argz = some old) (hp : s.argz ≠ 0)
    (hlo : s.argz ≤ before) (hhi : before < s.argz + s.argzLen) (hlo' : s.argz ≤ before')
    (hhi' : before' < s.argz + s.argzLen)
    (hoff : entryOffset old (before - s.argz) = entryOffset old (before' - s.argz))
    (entry : CString) : argzInsert A before entry s = argzInsert A before' entry s := by
  unfold argzInsert
  rw [if_neg (by omega : before ≠ 0), if_neg (by omega : before' ≠ 0), if_neg (by omega),
    if_neg (by omega)]
  simp only [hb, Option.bind_eq_bind, Option.bind_some, hoff]

/-- The scan stays among the bytes of the vector, and the new entry comes directly before the one
    that contains the byte at `before`; its NUL is part of it. -/
def InsertsBefore (A : Allocator (List UInt8)) (before : Nat) (entry : CString) (s : Vec) : Prop :=
  (entryOffset ((bytesFrom s s.argz).take s.argzLen) (before - s.argz)).isSome ∧
  ∃ s' pre e post, argzInsert A before entry s = some (s', 0) ∧ value s = pre ++ e :: post ∧
    s.argz + (terminate 0 pre).length ≤ before ∧
    before ≤ s.argz + (terminate 0 pre).length + e.length ∧
    WellFormed s' ∧ value s' = pre ++ entry.1 :: e :: post

theorem insertsBefore_start {A : Allocator (List UInt8)} (hA : ∀ n, A.fails n = false) {s : Vec}
    {e : List UInt8} {post : List (List UInt8)} (hs : Holds s (e :: post)) (entry : CString) :
    InsertsBefore A s.argz entry s := by
  obtain ⟨s', hcall, hh⟩ := @argzInsert_holds A hA s [] post e hs entry
  refine ⟨?_, s', [], e, post, hcall, hs.value_eq, Nat.le_refl _, Nat.le_add_right _ _,
    hh.wellFormed, hh.value_eq⟩
  rw [Nat.sub_self]
  rfl

theorem insertsBefore_later {A : Allocator (List UInt8)} (hA : ∀ n, A.fails n = false) {s : Vec}
    {pre post : List (List UInt8)} {e : List UInt8} (hs : Holds s (pre ++ e :: post))
    (hpre : pre ≠ []) {j : Nat} (hj : j ≤ e.length) (entry : CString) :
    InsertsBefore A (s.argz + (terminate 0 pre).length + j) entry s := by
  obtain ⟨hp, slack, hb⟩ := hs.block (by simp)
  have he : 0 ∉ e := hs.nulFree e (by simp)
  have hlen := hs.len
  have hbytes := hs.bytes_eq
  obtain ⟨s', hcall, hh⟩ := argzInsert_holds hA hs entry
  rw [terminate_append, List.length_append, terminate_cons, List.length_append,
    List.length_cons] at hlen
  rw [terminate_append, terminate_cons, ← List.append_assoc] at hbytes hb
  rw [List.append_assoc] at hb
  have hoff := entryOffset_later hpre (0 :: terminate 0 post ++ slack) he hj
  have hstart := entryOffset_later hpre (0 :: terminate 0 post ++ slack) he (Nat.zero_le _)
  refine ⟨?_, s', pre, e, post, ?_, hs.value_eq, Nat.le_add_right _ _, by omega,
    hh.wellFormed, hh.value_eq⟩
  · rw [hbytes, Nat.add_assoc, Nat.add_sub_cancel_left, entryOffset_later hpre _ he hj]
    rfl
  · rw [← hcall]
    refine argzInsert_congr hb hp (by omega) (by omega) (by omega) (by omega) ?_ entry
    rw [Nat.add_assoc, Nat.add_sub_cancel_left, Nat.add_sub_cancel_left, hoff]
    exact hstart.symm

/-- For a `before` anywhere in the vector `argz_insert` works exactly when `before` is the start of
    the vector or not in its first entry. -/
theorem insertsBefore_iff {A : Allocator (List UInt8)} (hA : ∀ n, A.fails n = false) {s : Vec}
    (hs : WellFormed s) {before : Nat} (hlo : s.argz ≤ before)
    (hhi : before < s.argz + s.argzLen) (entry : CString) :
    InsertsBefore A before entry s ↔
      before = s.argz ∨ ∀ e ∈ (value s).head?, s.argz + e.length < before := by
  have h := holds_iff.mpr ⟨hs, rfl⟩
  obtain ⟨off, rfl⟩ := Nat.exists_eq_add_of_le hlo
  obtain ⟨pre, e, post, j, hval, rfl, hj⟩ := exists_containing 0
    (show off < (terminate 0 (value s)).length by rw [← h.len]; omega)
  rw [hval] at h ⊢
  cases pre with
  | nil =>
    rw [terminate_nil, List.length_nil, Nat.zero_add, List.nil_append]
    by_cases hj0 : j = 0
    · rw [hj0]
      exact iff_of_true (insertsBefore_start hA h entry) (.inl rfl)
    · refine iff_of_false ?_ ?_
      · rintro ⟨hsome, _⟩
        rw [h.bytes_eq, List.nil_append, terminate_cons, Nat.add_sub_cancel_left,
          entryOffset_first (h.nulFree e List.mem_cons_self) hj (Nat.pos_of_ne_zero hj0)] at hsome
        cases hsome
      · rintro (hstart | hlater)
        · omega
        · have hlt := hlater e rfl
          omega
  | cons e₀ pre =>
    rw [← Nat.add_assoc]
    refine iff_of_true (insertsBefore_later hA h (List.cons_ne_nil e₀ pre) hj entry) (.inr ?_)
    intro e' he'
    obtain rfl : e₀ = e' := Option.some.inj he'
    rw [terminate_cons, List.length_append, List.length_cons]
    omega

/-- The vector with the one entry `"ab"`. -/
def vecAb : Vec := { mem := ⟨Heap.empty.set 4096 [97, 98, 0], 0⟩, argz := 4096, argzLen := 3 }

theorem vecAb_wellFormed : WellFormed vecAb :=
  .inr ⟨by decide, by decide, [97, 98, 0], Heap.get_set_self _ _ _, rfl⟩

/-- The vector with the entries `"ab"` and `"cd"`. -/
def vecAbCd : Vec :=
  { mem := ⟨Heap.empty.set 4096 [97, 98, 0, 99, 100, 0], 0⟩, argz := 4096, argzLen := 6 }

theorem vecAbCd_wellFormed : WellFormed vecAbCd :=
  .inr ⟨by decide, by decide, [97, 98, 0, 99, 100, 0], Heap.get_set_self _ _ _, rfl⟩

/-- At the `d` of `"cd"` the condition holds: the string comes in front of the second entry. -/
theorem insertsBefore_iff_cd :
    InsertsBefore (Allocator.bump _ fun _ => false) 4100 ⟨[101], by decide⟩ vecAbCd :=
  (insertsBefore_iff (A := Allocator.bump _ fun _ => false) (fun _ => rfl) vecAbCd_wellFormed
    (by decide) (by decide) ⟨[101], by decide⟩).mpr (.inr (by decide))

/-- With `before` at the `b` of `"ab"` the scan leaves the vector. -/
theorem insertsBefore_inside_first :
    ¬ ∀ (A : Allocator (List UInt8)) (s : Vec) (before : Nat) (entry : CString),
      (∀ n, A.fails n = false) → WellFormed s → s.argz ≤ before → before < s.argz + s.argzLen →
      InsertsBefore A before entry s := by
  intro h
  obtain ⟨hsome, _⟩ := h (Allocator.bump _ fun _ => false) vecAb 4097 ⟨[99], by decide⟩
    (fun _ => rfl) vecAb_wellFormed (by decide) (by decide)
  exact absurd hsome (by decide)

end Librecompat.Argz
