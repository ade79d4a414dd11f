/-
  The probe loop of `hsearch_r`.

  `probe size key` is the sequence of indices that the search visits. `nextIdx_probe` says that
  the 32-bit computation of the next index follows it, also where `size + idx` wraps. `Table` is
  the invariant of the table: `T` says which key is in which slot. `probe_loop` says where the
  search ends: at the key, at the first free slot on the way, or back at the start of a table
  without free slots.
-/
import Librecompat.Hsearch.Create
import Librecompat.Lib.Probing

namespace Librecompat.Hsearch

open Librecompat.Lib

/-! ## The indices -/

/-- The `j`-th index that the search for the key visits. -/
def probe (size : Nat) (key : CString) (j : Nat) : Nat :=
  probeAt size (1 + (hashValue key).toNat % (size - 2)) ((hashValue key).toNat % size) j + 1

theorem hashValue_ne_zero (key : CString) : hashValue key ≠ 0 := by
  unfold hashValue
  dsimp only
  split
  · next h0 =>
    rw [h0]
    decide
  · assumption

/-- The sizes that `hcreate_r` makes. -/
structure Size (size : UInt32) : Prop where
  prime : size.toNat.Prime
  three : 3 ≤ size.toNat
  le : size.toNat ≤ 4294967293

variable {size : UInt32}

theorem step_lt (h3 : 3 ≤ size.toNat) (hval : Nat) :
    0 < 1 + hval % (size.toNat - 2) ∧ 1 + hval % (size.toNat - 2) < size.toNat := by
  have := Nat.mod_lt hval (show 0 < size.toNat - 2 by omega)
  omega

theorem firstIdx_toNat (hs : Size size) (key : CString) :
    (hashValue key % size + 1).toNat = probe size.toNat key 0 := by
  have h3 := hs.three
  have hlt := Nat.mod_lt (hashValue key).toNat (show 0 < size.toNat by omega)
  have hle := hs.le
  rw [probe, probeAt_zero hlt, UInt32.toNat_add, UInt32.toNat_mod]
  show ((hashValue key).toNat % size.toNat + 1) % 2 ^ 32 = _
  exact Nat.mod_eq_of_lt (by omega)

theorem hval2_toNat (hs : Size size) (hval : UInt32) :
    (1 + hval % (size - 2)).toNat = 1 + hval.toNat % (size.toNat - 2) := by
  have h3 := hs.three
  have hle := hs.le
  have hsub : (size - 2).toNat = size.toNat - 2 := by
    rw [UInt32.toNat_sub_of_le]
    · rfl
    · exact UInt32.le_iff_toNat_le.mpr (Nat.le_trans (by decide) h3)
  have hlt := step_lt h3 hval.toNat
  rw [UInt32.toNat_add, UInt32.toNat_mod, hsub]
  show (1 + hval.toNat % (size.toNat - 2)) % 2 ^ 32 = _
  exact Nat.mod_eq_of_lt (by omega)

/-- The next index is right although `size + idx` may be above `2 ^ 32`. -/
theorem nextIdx_toNat {hval2 idx : UInt32} {x : Nat} (hle : size.toNat ≤ 4294967293)
    (h0 : 0 < hval2.toNat) (hlt : hval2.toNat < size.toNat) (hx : x < size.toNat)
    (hidx : idx.toNat = x + 1) :
    (nextIdx size hval2 idx).toNat =
      (if x < hval2.toNat then size.toNat + x - hval2.toNat else x - hval2.toNat) + 1 := by
  unfold nextIdx
  split
  · next hc =>
    rw [UInt32.le_iff_toNat_le] at hc
    rw [if_pos (by omega), UInt32.toNat_sub, UInt32.toNat_add]
    omega
  · next hc =>
    rw [UInt32.le_iff_toNat_le] at hc
    rw [if_neg (by omega), UInt32.toNat_sub]
    omega

/-- One pass of the walk: the 32-bit computation follows the walk modulo `size`. -/
theorem nextIdx_probeAt (hs : Size size) {hval idx : UInt32} {i j : Nat}
    (hidx : idx.toNat =
      probeAt size.toNat (1 + hval.toNat % (size.toNat - 2)) i j + 1) :
    (nextIdx size (1 + hval % (size - 2)) idx).toNat =
      probeAt size.toNat (1 + hval.toNat % (size.toNat - 2)) i (j + 1) + 1 := by
  obtain ⟨h0, hlt⟩ := step_lt hs.three hval.toNat
  have hx := probeAt_lt (h := 1 + hval.toNat % (size.toNat - 2)) (i := i) hs.prime.pos j
  rw [probeAt_succ hlt]
  rw [← hval2_toNat hs hval] at h0 hlt hx hidx ⊢
  exact nextIdx_toNat hs.le h0 hlt hx hidx

theorem nextIdx_probe (hs : Size size) {key : CString} {idx : UInt32} {j : Nat}
    (hidx : idx.toNat = probe size.toNat key j) :
    (nextIdx size (1 + hashValue key % (size - 2)) idx).toNat = probe size.toNat key (j + 1) :=
  nextIdx_probeAt hs hidx

theorem probe_range (hs : Size size) (key : CString) (j : Nat) :
    1 ≤ probe size.toNat key j ∧ probe size.toNat key j ≤ size.toNat := by
  have := probeAt_lt (h := 1 + (hashValue key).toNat % (size.toNat - 2))
    (i := (hashValue key).toNat % size.toNat) hs.prime.pos j
  unfold probe
  omega

theorem exists_probe (hs : Size size) (key : CString) {i : Nat} (h1 : 1 ≤ i)
    (hi : i ≤ size.toNat) : ∃ j, j < size.toNat ∧ probe size.toNat key j = i := by
  obtain ⟨h0, hlt⟩ := step_lt hs.three (hashValue key).toNat
  obtain ⟨j, hj, heq⟩ := exists_probeAt (i := (hashValue key).toNat % size.toNat) hs.prime h0 hlt
    (show i - 1 < size.toNat by omega)
  exact ⟨j, hj, by rw [probe, heq]; omega⟩

/-- The walk is back at its first index after `size` steps and no earlier. -/
theorem probe_eq_first_iff (hs : Size size) (key : CString) {j : Nat} (hj : j < size.toNat) :
    probe size.toNat key (j + 1) = probe size.toNat key 0 ↔ j + 1 = size.toNat := by
  obtain ⟨h0, hlt⟩ := step_lt hs.three (hashValue key).toNat
  have hi := Nat.mod_lt (hashValue key).toNat hs.prime.pos
  unfold probe
  rw [probeAt_zero hi, Nat.add_right_cancel_iff, probeAt_eq_start_iff hs.prime h0 hlt hi hj]
  omega

/-! ## The search -/

/-- The entries of the table with the strings that their keys were entered with, oldest first. -/
abbrev Map := List (CString × Entry)

/-- The invariant of the table: `T` is the key in each slot, `m` the entries stored. -/
structure Table (size : UInt32) (table : List Slot) (m : Map) (T : Nat → Option CString) :
    Prop where
  sizeOk : Size size
  length : table.length = size.toNat + 1
  range : ∀ i, T i ≠ none → 1 ≤ i ∧ i ≤ size.toNat
  slot : ∀ i slot, table[i]? = some slot → (T i = none ∧ slot.used = 0) ∨
    ∃ key, T i = some key ∧ slot.used = hashValue key ∧ (key, slot.entry) ∈ m
  addressed : Addressed (probe size.toNat) T
  stored : ∀ p ∈ m, ∃ i, T i = some p.1
  nodup : (m.map Prod.fst).Nodup

/-- The strings that the stored keys point to are the ones they were entered with. -/
def Unchanged (str : Nat → CString) (m : Map) : Prop := ∀ p ∈ m, str p.2.key = p.1

variable {table : List Slot} {m : Map} {T : Nat → Option CString} {str : Nat → CString}

theorem Table.get (h : Table size table m T) {i : Nat} (hi : i ≤ size.toNat) :
    ∃ slot, table[i]? = some slot :=
  ⟨_, List.getElem?_eq_getElem (by rw [h.length]; omega)⟩

theorem Table.used_iff (h : Table size table m T) {i : Nat} {slot : Slot}
    (hslot : table[i]? = some slot) : slot.used ≠ 0 ↔ T i ≠ none := by
  rcases h.slot i slot hslot with ⟨hT, hused⟩ | ⟨key, hT, hused, _⟩
  · exact ⟨fun hne => absurd hused hne, fun hne => absurd hT hne⟩
  · exact ⟨fun _ => hT ▸ Option.some_ne_none key, fun _ => hused ▸ hashValue_ne_zero key⟩

/-- Comparing the hash values and then the strings tells whether the slot has the key. -/
theorem Table.match_iff (h : Table size table m T) (hstr : Unchanged str m) {i : Nat}
    {slot : Slot} (hslot : table[i]? = some slot) (key : CString) :
    slot.used = hashValue key ∧ key = str slot.entry.key ↔ T i = some key := by
  rcases h.slot i slot hslot with ⟨hT, hused⟩ | ⟨key', hT, hused, hmem⟩
  · rw [hT, hused]
    exact ⟨fun hk => absurd hk.1.symm (hashValue_ne_zero key), nofun⟩
  · have hkey : str slot.entry.key = key' := hstr _ hmem
    rw [hT, hused, hkey]
    exact ⟨fun hk => congrArg some hk.2.symm, fun hk => by
      obtain rfl := Option.some.inj hk
      exact ⟨rfl, rfl⟩⟩

/-- Where the search for a key ends. -/
def Ends (size : UInt32) (T : Nat → Option CString) (key : CString) : Probe → Prop
  | .found idx => T idx.toNat = some key
  | .bucket idx => (∀ i, T i ≠ some key) ∧
      ((T idx.toNat = none ∧ ∃ j, probe size.toNat key j = idx.toNat ∧
          ∀ l < j, T (probe size.toNat key l) ≠ none) ∨
        ∀ i, 1 ≤ i → i ≤ size.toNat → T i ≠ none)

/-- The induction is on the passes that are left. -/
theorem probe_loop (h : Table size table m T) (hstr : Unchanged str m) (key : CString)
    {firstIdx : UInt32} (hfirst : firstIdx.toNat = probe size.toNat key 0) :
    ∀ (n j : Nat) (idx : UInt32), j + n = size.toNat → j < size.toNat →
      idx.toNat = probe size.toNat key j →
      (∀ l ≤ j, T (probe size.toNat key l) ≠ none ∧ T (probe size.toNat key l) ≠ some key) →
      ∃ p, (loop (probeBody str table size (hashValue key) (1 + hashValue key % (size - 2))
        firstIdx key) n idx).join = some p ∧ Ends size T key p := by
  intro n
  induction n with
  | zero =>
    intro j idx hn hj
    omega
  | succ n ih =>
    intro j idx hn hj hidx hpass
    have hnext := nextIdx_probe h.sizeOk hidx
    generalize hk : nextIdx size (1 + hashValue key % (size - 2)) idx = idx' at hnext
    have hiff : idx' = firstIdx ↔ j + 1 = size.toNat := by
      rw [← probe_eq_first_iff h.sizeOk key hj, ← hnext, ← hfirst, UInt32.toNat_inj]
    by_cases hend : j + 1 = size.toNat
    · refine ⟨.bucket idx', ?_, ?_, .inr fun i h1 hi => ?_⟩
      · rw [loop_succ_inr (r := some (.bucket idx'))]
        · rfl
        · rw [probeBody, hk, if_pos (hiff.mpr hend)]
      · refine not_stored_of_covers (k := key) (j := size.toNat) h.range
          (fun i hi => exists_probe h.sizeOk key hi.1 hi.2) fun l hl => (hpass l (by omega)).2
      · obtain ⟨l, hl, rfl⟩ := exists_probe h.sizeOk key h1 hi
        exact (hpass l (by omega)).1
    · obtain ⟨slot, hslot⟩ := h.get (probe_range h.sizeOk key (j + 1)).2
      rw [← hnext] at hslot
      have hbody : probeBody str table size (hashValue key) (1 + hashValue key % (size - 2))
          firstIdx key idx =
          if slot.used = hashValue key ∧ key = str slot.entry.key then .inr (some (.found idx'))
          else if slot.used ≠ 0 then .inl idx' else .inr (some (.bucket idx')) := by
        rw [probeBody, hk, if_neg fun heq => hend (hiff.mp heq), hslot]
      by_cases hkey : T idx'.toNat = some key
      · rw [if_pos ((h.match_iff hstr hslot key).mpr hkey)] at hbody
        exact ⟨.found idx', by rw [loop_succ_inr hbody]; rfl, hkey⟩
      · rw [if_neg fun hm => hkey ((h.match_iff hstr hslot key).mp hm)] at hbody
        by_cases hfree : T idx'.toNat = none
        · rw [if_neg fun hu => (h.used_iff hslot).mp hu hfree] at hbody
          have hway : ∀ l < j + 1, T (probe size.toNat key l) ≠ none ∧
              T (probe size.toNat key l) ≠ some key := fun l hl => hpass l (by omega)
          refine ⟨.bucket idx', by rw [loop_succ_inr hbody]; rfl, ?_, .inl ⟨hfree, j + 1,
            hnext.symm, fun l hl => (hway l hl).1⟩⟩
          exact h.addressed.absent (hnext ▸ hfree) fun l hl => (hway l hl).2
        · rw [if_pos ((h.used_iff hslot).mpr hfree)] at hbody
          rw [loop_succ_inl hbody]
          refine ih (j + 1) idx' (by omega) (by omega) hnext fun l hl => ?_
          rcases Nat.lt_or_eq_of_le hl with hlt | rfl
          · exact hpass l (by omega)
          · exact ⟨hnext ▸ hfree, hnext ▸ hkey⟩

end Librecompat.Hsearch
