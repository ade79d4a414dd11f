/-
  `strchrnul` of src/string/strchrnul.c against the naive scan.

  The memory gives the byte at every address; a string is what starts at an address and ends at
  a NUL. The three loops are iterations of their bodies, `n` passes each. The addresses of the
  words that the second loop reads are part of the result. `FirstHit` is what the naive scan
  looks for, and each loop keeps the cursor at or before it.
-/
import Librecompat.Lib.ByteWord
import Librecompat.Lib.Loop
import Mathlib.Data.Nat.Find

namespace Librecompat.Strchrnul

open Librecompat.Lib

abbrev Memory := Nat → UInt8

/-! ## The code -/

def ALIGN : Nat := 8
def ONES : BitVec 64 := -1 / 255
def HIGHS : BitVec 64 := ONES * (255 / 2 + 1)

/-- `HASZERO (x)`. -/
def hasZero (x : BitVec 64) : Bool := (x - ONES) &&& ~~~x &&& HIGHS ≠ 0

/-- The word at an address. -/
def readWord (mem : Memory) (a : Nat) : BitVec 64 :=
  BitVec.ofNat 64 (word ((List.range 8).map fun i => mem (a + i)))

/-- `(unsigned char) c`. -/
def uchar (c : Int) : UInt8 := UInt8.ofNat (c % 256).toNat

/-- The first loop; it is left with a result, or where the string is aligned. -/
def alignBody (mem : Memory) (c : UInt8) (s : Nat) : Nat ⊕ (Bool × Nat) :=
  if s % ALIGN = 0 then .inr (false, s)
  else if mem s = 0 ∨ mem s = c then .inr (true, s)
  else .inl (s + 1)

/-- The second loop, with the addresses read so far. -/
def wordBody (mem : Memory) (k : BitVec 64) (s : Nat × List Nat) :
    (Nat × List Nat) ⊕ (Nat × List Nat) :=
  let w := s.1
  let x := readWord mem w
  if !hasZero x && !hasZero (x ^^^ k) then .inl (w + 8, s.2 ++ [w]) else .inr (w, s.2 ++ [w])

/-- The third loop. -/
def byteBody (mem : Memory) (c : UInt8) (s : Nat) : Nat ⊕ Nat :=
  if mem s ≠ 0 ∧ mem s ≠ c then .inl (s + 1) else .inr s

/-- `strlen`, at most `n` bytes. -/
def strlen (mem : Memory) (n s : Nat) : Option Nat := (loop (byteBody mem 0) n s).map (· - s)

/-- The result, and the addresses of the words read. -/
def strchrnul (mem : Memory) (n s : Nat) (c : Int) : Option (Nat × List Nat) := do
  let c := uchar c
  if c = 0 then (strlen mem n s).map fun len => (s + len, [])
  else
    let (found, s) ← loop (alignBody mem c) n s
    if found then some (s, [])
    else
      let k := ONES * BitVec.ofNat 64 c.toNat
      let (w, reads) ← loop (wordBody mem k) n (s, [])
      let s ← loop (byteBody mem c) n w
      some (s, reads)

/-! ## The words -/

/-- `HASZERO` does not see a zero byte where there is none, nor miss one. -/
theorem hasZero_word {bs : List UInt8} (hlen : bs.length = 8) :
    hasZero (BitVec.ofNat 64 (word bs)) = true ↔ 0 ∈ bs := by
  have hlt : word bs < 2 ^ 64 := by
    have h := word_lt bs
    rwa [hlen] at h
  have hone : ONES.toNat = repeated 8 1 := by decide
  have hhigh : HIGHS.toNat = repeated 8 128 := by decide
  have hval : (BitVec.ofNat 64 (word bs) - ONES &&& ~~~BitVec.ofNat 64 (word bs) &&& HIGHS).toNat =
      zeroBytes 8 (word bs) := by
    rw [BitVec.toNat_and, BitVec.toNat_and, BitVec.toNat_sub, BitVec.toNat_not, BitVec.toNat_ofNat,
      Nat.mod_eq_of_lt hlt, hone, hhigh]
    rfl
  have hzero := zeroBytes_eq_zero_iff bs
  rw [hlen, ← hval] at hzero
  rw [← not_iff_not, ← hzero]
  simp [hasZero, ← BitVec.toNat_inj]

variable {mem : Memory} {c : UInt8}

theorem mem_word {a : Nat} {b : UInt8} :
    b ∈ (List.range 8).map (fun i => mem (a + i)) ↔ ∃ i < 8, mem (a + i) = b := by
  simp

/-- The loop stops at a word exactly when a byte of it ends the scan. -/
theorem wordBody_stops (a : Nat) :
    (hasZero (readWord mem a) || hasZero (readWord mem a ^^^ ONES * BitVec.ofNat 64 c.toNat)) =
        true ↔
      ∃ i < 8, mem (a + i) = 0 ∨ mem (a + i) = c := by
  have hxor : readWord mem a ^^^ ONES * BitVec.ofNat 64 c.toNat =
      BitVec.ofNat 64 (word (((List.range 8).map fun i => mem (a + i)).map (· ^^^ c))) := by
    have hk : repeated 8 c = c.toNat * ONES.toNat := repeated_eq_mul 8 c
    have hx := word_xor ((List.range 8).map fun i => mem (a + i)) c
    rw [List.length_map, List.length_range] at hx
    rw [← hx, hk, BitVec.ofNat_xor, Nat.mul_comm, BitVec.ofNat_mul, BitVec.ofNat_toNat,
      BitVec.setWidth_eq]
    rfl
  rw [Bool.or_eq_true, hxor, hasZero_word (by simp), readWord, hasZero_word (by simp), mem_word,
    List.mem_map]
  constructor
  · rintro (⟨i, hi, h⟩ | ⟨b, hb, h⟩)
    · exact ⟨i, hi, .inl h⟩
    · obtain ⟨i, hi, rfl⟩ := mem_word.mp hb
      exact ⟨i, hi, .inr (UInt8.xor_eq_zero_iff.mp h)⟩
  · rintro ⟨i, hi, h | h⟩
    · exact .inl ⟨i, hi, h⟩
    · exact .inr ⟨c, mem_word.mpr ⟨i, hi, h⟩, UInt8.xor_self⟩

/-! ## The loops -/

/-- `e` is where the naive scan from `s` on ends: the first byte that is NUL or `c`. -/
structure FirstHit (mem : Memory) (c : UInt8) (s e : Nat) : Prop where
  le : s ≤ e
  hit : mem e = 0 ∨ mem e = c
  first : ∀ t, s ≤ t → t < e → mem t ≠ 0 ∧ mem t ≠ c

variable {s e n : Nat}

theorem exists_firstHit (h : ∃ j, mem (s + j) = 0) (c : UInt8) : ∃ e, FirstHit mem c s e := by
  have hhit : ∃ j, mem (s + j) = 0 ∨ mem (s + j) = c := h.imp fun _ => .inl
  refine ⟨s + Nat.find hhit, Nat.le_add_right _ _, Nat.find_spec hhit, fun t hst hte => ?_⟩
  have hmin := Nat.find_min hhit (m := t - s) (by omega)
  rwa [Nat.add_sub_cancel' hst, not_or] at hmin

/-- A byte that ends the scan is not in front of `e`. -/
theorem FirstHit.not_lt (h : FirstHit mem c s e) {t : Nat} (hst : s ≤ t)
    (ht : mem t = 0 ∨ mem t = c) : e ≤ t := by
  by_contra hlt
  obtain ⟨h0, hc⟩ := h.first t hst (Nat.not_le.mp hlt)
  exact ht.elim h0 hc

theorem FirstHit.alignLoop (h : FirstHit mem c s e) (hn : e - s < n) :
    ∃ r, loop (alignBody mem c) n s = some r ∧ s ≤ r.2 ∧ r.2 ≤ e ∧
      (r.1 = true → r.2 = e) ∧ (r.1 = false → r.2 % 8 = 0) := by
  refine loop_total (I := fun t => s ≤ t ∧ t ≤ e) (fun t => e - t) ?_ ?_ ⟨le_refl s, h.le⟩ hn
  · rintro t t' ⟨hst, hte⟩ hb
    unfold alignBody at hb
    split at hb
    · cases hb
    · split at hb
      · cases hb
      · next hmiss =>
        obtain rfl := Sum.inl.inj hb
        have hne : t ≠ e := fun he => hmiss (he ▸ h.hit)
        omega
  · rintro t r ⟨hst, hte⟩ hb
    unfold alignBody at hb
    split at hb
    · next halign =>
      obtain rfl := Sum.inr.inj hb
      exact ⟨hst, hte, nofun, fun _ => halign⟩
    · split at hb
      · next hhit =>
        obtain rfl := Sum.inr.inj hb
        exact ⟨hst, hte, fun _ => Nat.le_antisymm hte (h.not_lt hst hhit), nofun⟩
      · cases hb

/-- The words that have been read are aligned and do not lie behind the one with `e` in it. -/
def ReadsUpTo (e : Nat) (reads : List Nat) : Prop := ∀ a ∈ reads, a % 8 = 0 ∧ a ≤ e / 8 * 8

theorem readsUpTo_nil (e : Nat) : ReadsUpTo e [] := List.forall_mem_nil _

theorem ReadsUpTo.append {reads : List Nat} (h : ReadsUpTo e reads) {a : Nat} (ha : a % 8 = 0)
    (hle : a ≤ e) : ReadsUpTo e (reads ++ [a]) := by
  intro x hx
  rcases List.mem_append.mp hx with hx | hx
  · exact h x hx
  · obtain rfl := List.mem_singleton.mp hx
    omega

theorem FirstHit.wordLoop (h : FirstHit mem c s e) {t : Nat} (hst : s ≤ t) (hte : t ≤ e)
    (halign : t % 8 = 0) (hn : e - t < n) :
    ∃ r, loop (wordBody mem (ONES * BitVec.ofNat 64 c.toNat)) n (t, []) = some r ∧
      s ≤ r.1 ∧ r.1 ≤ e ∧ ReadsUpTo e r.2 := by
  refine loop_total (I := fun p => s ≤ p.1 ∧ p.1 ≤ e ∧ p.1 % 8 = 0 ∧ ReadsUpTo e p.2)
    (fun p => e - p.1) ?_ ?_ ⟨hst, hte, halign, readsUpTo_nil _⟩ hn
  · rintro ⟨w, reads⟩ p' ⟨hsw, hwe, hw, hreads⟩ hb
    unfold wordBody at hb
    dsimp only at hsw hwe hw hreads hb
    split at hb
    · next hmiss =>
      obtain rfl := Sum.inl.inj hb
      -- a word without a hit lies wholly in front of `e`
      have hlt : w + 8 ≤ e := by
        by_contra hge
        refine absurd ((wordBody_stops w).mpr ⟨e - w, by omega, ?_⟩) (by simpa using hmiss)
        rw [Nat.add_sub_cancel' hwe]
        exact h.hit
      exact ⟨⟨by omega, hlt, by omega, hreads.append hw hwe⟩, by omega⟩
    · cases hb
  · rintro ⟨w, reads⟩ r ⟨hsw, hwe, hw, hreads⟩ hb
    unfold wordBody at hb
    dsimp only at hsw hwe hw hreads hb
    split at hb
    · cases hb
    · obtain rfl := Sum.inr.inj hb
      exact ⟨hsw, hwe, hreads.append hw hwe⟩

theorem FirstHit.byteLoop (h : FirstHit mem c s e) {t : Nat} (hst : s ≤ t) (hte : t ≤ e)
    (hn : e - t < n) : loop (byteBody mem c) n t = some e := by
  have hloop : ∃ r, loop (byteBody mem c) n t = some r ∧ r = e := by
    refine loop_total (I := fun u => s ≤ u ∧ u ≤ e) (fun u => e - u) ?_ ?_ ⟨hst, hte⟩ hn
    · rintro u u' ⟨hsu, hue⟩ hb
      unfold byteBody at hb
      split at hb
      · next hmiss =>
        obtain rfl := Sum.inl.inj hb
        have hne : u ≠ e := fun he => h.hit.elim (he ▸ hmiss.1) (he ▸ hmiss.2)
        omega
      · cases hb
    · rintro u r ⟨hsu, hue⟩ hb
      unfold byteBody at hb
      split at hb
      · cases hb
      · next hhit =>
        obtain rfl := Sum.inr.inj hb
        exact Nat.le_antisymm hue (h.not_lt hsu (by tauto))
  obtain ⟨r, hr, rfl⟩ := hloop
  exact hr

/-! ## The function -/

/-- `strchrnul` finds what the naive scan finds, in a string of any length at any alignment, and
    reads no word that the string does not reach into. -/
theorem strchrnul_eq_naive (c : Int) (hnul : ∃ j, mem (s + j) = 0) :
    ∃ e, FirstHit mem (uchar c) s e ∧ ∀ n, e - s < n →
      ∃ reads, strchrnul mem n s c = some (e, reads) ∧ ReadsUpTo e reads := by
  obtain ⟨e, h⟩ := exists_firstHit hnul (uchar c)
  refine ⟨e, h, fun n hn => ?_⟩
  unfold strchrnul
  by_cases hc : uchar c = 0
  · rw [hc] at h
    refine ⟨[], ?_, readsUpTo_nil _⟩
    simp only [hc, if_true, strlen, h.byteLoop (le_refl s) h.le hn, Option.map_some,
      Nat.add_sub_cancel' h.le]
  · obtain ⟨⟨found, t⟩, halign, hst, hte, hfound, haligned⟩ := h.alignLoop hn
    dsimp only at hst hte hfound haligned
    simp only [hc, if_false, halign, Option.bind_eq_bind, Option.bind_some]
    cases found with
    | true =>
      obtain rfl := hfound rfl
      exact ⟨[], rfl, readsUpTo_nil _⟩
    | false =>
      obtain ⟨⟨w, reads⟩, hword, hsw, hwe, hreads⟩ :=
        h.wordLoop hst hte (haligned rfl) (show e - t < n by omega)
      dsimp only at hsw hwe hreads
      refine ⟨reads, ?_, hreads⟩
      simp only [Bool.false_eq_true, if_false, hword, Option.bind_some,
        h.byteLoop hsw hwe (show e - w < n by omega)]

/-- A string of 21 bytes from address 3 on, searched for a byte above 127 that it does not hold:
    behind five single bytes two words are read. -/
theorem strchrnul_eq_naive_a :
    ∃ e, FirstHit (fun a => if a < 24 then 97 else 0) (uchar (-1)) 3 e ∧ ∀ n, e - 3 < n →
      ∃ reads, strchrnul (fun a => if a < 24 then 97 else 0) n 3 (-1) = some (e, reads) ∧
        ReadsUpTo e reads :=
  strchrnul_eq_naive (-1) ⟨21, rfl⟩

example : (strchrnul (fun a => if a < 24 then 97 else 0) 25 3 (-1)).map Prod.fst = some 24 := by
  decide

end Librecompat.Strchrnul
