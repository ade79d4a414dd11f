/-
  Arrays indexed by signed integers.

  `getAt`, `setAt` read and write one element, `getRange`, `setRange` a range; an access outside
  the array is undefined behaviour: the result is `none`. `memcpy` copies within one array and
  wants the two ranges apart. The lemmas state the array as the pieces in front of and behind
  what is read or written.
-/
import Librecompat.Lib.Bytes

namespace Librecompat.Lib

variable {α : Type}

/-- `xs[i]`. -/
def getAt (xs : List α) (i : Int) : Option α := if 0 ≤ i then xs[i.toNat]? else none

/-- `xs[i] = x`. -/
def setAt (xs : List α) (i : Int) (x : α) : Option (List α) :=
  if 0 ≤ i ∧ i < xs.length then some (xs.set i.toNat x) else none

/-- The `n` elements from `i` on. -/
def getRange (xs : List α) (i n : Int) : Option (List α) :=
  if 0 ≤ i ∧ 0 ≤ n then readAt xs i.toNat n.toNat else none

/-- `memcpy (xs + i, ys, n)`, `n` being the length of `ys`. -/
def setRange (xs : List α) (i : Int) (ys : List α) : Option (List α) :=
  if 0 ≤ i then writeAt xs i.toNat ys else none

/-- `memcpy (xs + dst, xs + src, n)`. -/
def memcpy (xs : List α) (dst src n : Int) : Option (List α) :=
  if dst + n ≤ src ∨ src + n ≤ dst then (getRange xs src n).bind fun ys => setRange xs dst ys
  else none

theorem getAt_natCast (xs : List α) (i : Nat) : getAt xs i = xs[i]? := by
  simp [getAt]

theorem getAt_eq_some {xs : List α} {i : Int} {x : α} :
    getAt xs i = some x ↔ 0 ≤ i ∧ xs[i.toNat]? = some x := by
  unfold getAt
  split
  · next h => simp [h]
  · next h => simp [h]

theorem getAt_append_cons (a b : List α) (x : α) {i : Int} (h : i = a.length) :
    getAt (a ++ x :: b) i = some x := by
  subst h
  simp [getAt]

theorem setAt_append_cons (a b : List α) (x y : α) {i : Int} (h : i = a.length) :
    setAt (a ++ x :: b) i y = some (a ++ y :: b) := by
  subst h
  have hlt : 0 ≤ (a.length : Int) ∧ (a.length : Int) < (a ++ x :: b).length := by
    rw [List.length_append, List.length_cons]
    omega
  rw [setAt, if_pos hlt]
  simp

theorem exists_getAt (xs : List α) {i : Int} (h : 0 ≤ i ∧ i < xs.length) :
    ∃ x, getAt xs i = some x := by
  refine ⟨xs.get ⟨i.toNat, by omega⟩, getAt_eq_some.mpr ⟨h.1, ?_⟩⟩
  simp

theorem mem_of_getAt {xs : List α} {i : Int} {x : α} (h : getAt xs i = some x) : x ∈ xs :=
  List.mem_of_getElem? (getAt_eq_some.mp h).2

/-- A write changes one element. -/
theorem exists_setAt (xs : List α) {i : Int} (h : 0 ≤ i ∧ i < xs.length) (x : α) :
    ∃ ys, setAt xs i x = some ys ∧ ys.length = xs.length ∧ getAt ys i = some x ∧
      ∀ j, j ≠ i → getAt ys j = getAt xs j := by
  refine ⟨_, if_pos h, List.length_set, ?_, fun j hj => ?_⟩
  · rw [getAt_eq_some, List.getElem?_set_self (by omega)]
    exact ⟨h.1, rfl⟩
  · unfold getAt
    split
    · rw [List.getElem?_set_ne (by omega)]
    · rfl

/-- What a write leaves. -/
theorem setAt_spec {xs ys : List α} {i : Int} {x : α} (h : setAt xs i x = some ys) :
    getAt ys i = some x ∧ ∀ j, j ≠ i → getAt ys j = getAt xs j := by
  have hi : 0 ≤ i ∧ i < xs.length := by
    unfold setAt at h
    split at h
    · assumption
    · cases h
  obtain ⟨ys', hset, -, hself, hother⟩ := exists_setAt xs hi x
  obtain rfl := Option.some.inj (hset.symm.trans h)
  exact ⟨hself, hother⟩

theorem mem_setAt {xs ys : List α} {i : Int} {x y : α} (h : setAt xs i x = some ys)
    (hy : y ∈ ys) : y = x ∨ y ∈ xs := by
  unfold setAt at h
  split at h
  · rw [← Option.some.inj h] at hy
    exact (List.mem_or_eq_of_mem_set hy).symm
  · cases h

theorem length_setAt {xs ys : List α} {i : Int} {x : α} (h : setAt xs i x = some ys) :
    ys.length = xs.length := by
  unfold setAt at h
  split at h
  · rw [← Option.some.inj h, List.length_set]
  · cases h

theorem getAt_setAt {xs ys : List α} {i j : Int} {x y : α} (h : setAt xs i x = some ys)
    (hy : getAt ys j = some y) : j = i ∧ y = x ∨ j ≠ i ∧ getAt xs j = some y := by
  unfold setAt at h
  split at h
  · next hlt =>
    obtain ⟨zs, hzs, _, hself, hother⟩ := exists_setAt xs hlt x
    rw [setAt, if_pos hlt] at hzs
    obtain rfl := Option.some.inj (h.symm.trans hzs)
    by_cases heq : j = i
    · subst heq
      exact .inl ⟨rfl, Option.some.inj (hy.symm.trans hself)⟩
    · exact .inr ⟨heq, by rw [← hother j heq, hy]⟩
  · cases h

theorem getRange_append (a b c : List α) {i n : Int} (hi : i = a.length) (hn : n = b.length) :
    getRange (a ++ b ++ c) i n = some b := by
  subst hi hn
  simpa [getRange] using readAt_append a b c

theorem setRange_append (a c : List α) {b : List α} (ys : List α) {i : Int} (hi : i = a.length)
    (h : b.length = ys.length) : setRange (a ++ b ++ c) i ys = some (a ++ ys ++ c) := by
  subst hi
  simpa [setRange] using writeAt_append h

/-- Copying `c` down to the front, over as many elements. -/
theorem memcpy_front (b c d : List α) {a : List α} {src n : Int} (hlen : a.length = c.length)
    (hsrc : src = a.length + b.length) (hn : n = c.length) :
    memcpy (a ++ b ++ c ++ d) 0 src n = some (c ++ b ++ c ++ d) := by
  have hread : getRange (a ++ b ++ c ++ d) src n = some c :=
    getRange_append (a ++ b) c d (by simpa using hsrc) hn
  have hwrite := setRange_append [] (b ++ c ++ d) c (by rfl : (0 : Int) = ([] : List α).length) hlen
  unfold memcpy
  rw [if_pos (Or.inl (by omega)), hread, Option.bind_some]
  simpa using hwrite

end Librecompat.Lib
