/-
  Bit sets, from src/regex/regex_internal.h.

  A `bitset_t` is its words one behind the other: the bit `i % 64` of the word `i / 64` is the bit
  `i` of the set. The operations on all words are operations on the whole.
-/
import Mathlib.Data.Nat.Notation
import Mathlib.Data.Set.Basic

namespace Librecompat.Regex

abbrev SBC_MAX : Nat := 256

/-- `bitset_t`. -/
abbrev Bitset := BitVec SBC_MAX

def bitsetSet (set : Bitset) (i : Nat) : Bitset := set ||| BitVec.twoPow SBC_MAX i

def bitsetClear (set : Bitset) (i : Nat) : Bitset := set &&& ~~~BitVec.twoPow SBC_MAX i

def bitsetContain (set : Bitset) (i : Nat) : Bool := set.getLsbD i

/-- What `bitset_empty` leaves. -/
def bitsetEmpty : Bitset := 0#256

/-- What `bitset_set_all` leaves. -/
def bitsetSetAll : Bitset := BitVec.allOnes SBC_MAX

def bitsetNot (set : Bitset) : Bitset := ~~~set

def bitsetMerge (dest src : Bitset) : Bitset := dest ||| src

@[simp] theorem bitsetContain_set (set : Bitset) (i : Nat) (c : Fin SBC_MAX) :
    bitsetContain (bitsetSet set i) c = (bitsetContain set c || decide ((c : Nat) = i)) := by
  simp [bitsetContain, bitsetSet]

@[simp] theorem bitsetContain_clear (set : Bitset) (i : Nat) (c : Fin SBC_MAX) :
    bitsetContain (bitsetClear set i) c = (bitsetContain set c && !decide ((c : Nat) = i)) := by
  simp [bitsetContain, bitsetClear]

@[simp] theorem bitsetEmpty_eq : bitsetEmpty = 0#256 := rfl

@[simp] theorem bitsetContain_zero (c : Nat) : bitsetContain 0#256 c = false := by
  simp [bitsetContain]

@[simp] theorem bitsetContain_setAll (c : Fin SBC_MAX) : bitsetContain bitsetSetAll c = true := by
  simp [bitsetContain, bitsetSetAll]

@[simp] theorem bitsetContain_merge (dest src : Bitset) (c : Nat) :
    bitsetContain (bitsetMerge dest src) c = (bitsetContain dest c || bitsetContain src c) := by
  simp [bitsetContain, bitsetMerge]

@[simp] theorem bitsetContain_not (set : Bitset) (c : Fin SBC_MAX) :
    bitsetContain (bitsetNot set) c = !bitsetContain set c := by
  simp [bitsetContain, bitsetNot]

@[simp] theorem bitsetContain_and (s t : Bitset) (c : Nat) :
    bitsetContain (s &&& t) c = (bitsetContain s c && bitsetContain t c) := by
  simp [bitsetContain]

@[simp] theorem bitsetContain_complement (set : Bitset) (c : Fin SBC_MAX) :
    bitsetContain (~~~set) c = !bitsetContain set c :=
  bitsetContain_not set c

theorem bitset_ext {s t : Bitset} (h : ∀ c : Fin SBC_MAX, bitsetContain s c = bitsetContain t c) :
    s = t :=
  BitVec.eq_of_getLsbD_eq fun i hi => h ⟨i, hi⟩

theorem bitset_eq_zero {s : Bitset} :
    s = 0#256 ↔ ∀ c : Fin SBC_MAX, bitsetContain s c = false :=
  ⟨fun h c => by rw [h, bitsetContain_zero],
    fun h => bitset_ext fun c => by rw [h c, bitsetContain_zero]⟩

/-- The characters in the set. -/
def Bitset.chars (set : Bitset) : Set (Fin SBC_MAX) := {c | bitsetContain set c = true}

theorem Bitset.mem_chars {set : Bitset} {c : Fin SBC_MAX} :
    c ∈ set.chars ↔ bitsetContain set c = true := Iff.rfl

theorem Bitset.chars_eq_empty {set : Bitset} : set.chars = ∅ ↔ set = 0#256 := by
  rw [bitset_eq_zero, Set.eq_empty_iff_forall_notMem]
  simp [Bitset.mem_chars]

theorem Bitset.chars_and (s t : Bitset) : Bitset.chars (s &&& t) = s.chars ∩ t.chars := by
  ext c
  simp [Bitset.mem_chars]

theorem Bitset.chars_and_not (s t : Bitset) : Bitset.chars (s &&& ~~~t) = s.chars \ t.chars := by
  ext c
  simp [Bitset.mem_chars]

end Librecompat.Regex
