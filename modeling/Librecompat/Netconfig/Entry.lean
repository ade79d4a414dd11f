/-
  What one `struct netconfig` stands for.

  `Entry` is the value of an entry, `EntryAt h e v names` says that the struct `e` has it in the
  heap `h`, with its lookup names at the addresses `names`; `blocks e names` are the blocks that
  go with the struct. `parseLine` is what a line says. A call of `parse_netconfig_line` never
  goes wrong: it adds exactly the blocks of an entry with the value of the line, or leaves the
  heap as it was (`parseNetconfigLine_spec`). `dup_entry` adds the blocks of a second entry with
  the same value, or nothing (`dupEntry_spec`).
-/
import Librecompat.Netconfig.Model
import Librecompat.Lib.Owned

namespace Librecompat.Netconfig

open Librecompat.Lib

/-- The value of a `struct netconfig`. -/
structure Entry where
  netid : List UInt8
  semantics : Nat
  flag : Nat
  protofmly : List UInt8
  proto : List UInt8
  device : List UInt8
  lookups : List (List UInt8)
  deriving DecidableEq

/-! ## Strings -/

variable {h h' h₀ : Heap Obj}

/-- The block at `p` holds the string `v`. -/
structure StrAt (h : Heap Obj) (p : Nat) (v : List UInt8) : Prop where
  ne : p ≠ 0
  get : h.get p = some (.str (v ++ [0]))
  nulFree : 0 ∉ v

/-- The blocks at `ps` hold the strings `vs`. -/
def StrsAt (h : Heap Obj) (ps : List Nat) (vs : List (List UInt8)) : Prop :=
  List.Forall₂ (StrAt h) ps vs

theorem StrAt.congr {p : Nat} {v : List UInt8} (hs : StrAt h p v) (heq : h'.get p = h.get p) :
    StrAt h' p v :=
  ⟨hs.ne, heq.trans hs.get, hs.nulFree⟩

theorem StrsAt.congr {ps : List Nat} {vs : List (List UInt8)} (hs : StrsAt h ps vs)
    (heq : ∀ p ∈ ps, h'.get p = h.get p) : StrsAt h' ps vs := by
  induction hs with
  | nil => exact .nil
  | cons hp _ ih =>
    exact .cons (hp.congr (heq _ List.mem_cons_self))
      (ih fun p hm => heq p (List.mem_cons_of_mem _ hm))

theorem StrsAt.snoc {ps : List Nat} {vs : List (List UInt8)} {p : Nat} {v : List UInt8}
    (hs : StrsAt h ps vs) (hp : StrAt h p v) : StrsAt h (ps ++ [p]) (vs ++ [v]) :=
  List.rel_append hs (.cons hp .nil)

theorem StrsAt.ne {ps : List Nat} {vs : List (List UInt8)} (hs : StrsAt h ps vs) :
    ∀ p ∈ ps, p ≠ 0 := by
  induction hs with
  | nil => exact fun p hp => absurd hp List.not_mem_nil
  | cons hp _ ih =>
    intro p hm
    rcases List.mem_cons.mp hm with rfl | hm
    · exact hp.ne
    · exact ih p hm

/-- `_nc_dup_cstr` adds one string, or nothing. -/
theorem dupCstr_spec (A : Allocator Obj) {m m' : Mem Obj} {s : List UInt8} {p : Nat}
    (hs : 0 ∉ s) (h : dupCstr A m s = (m', p)) :
    Owned m.heap m'.heap (ptrs [p]) ∧ (p ≠ 0 → StrAt m'.heap p s) := by
  obtain ⟨ho, hget⟩ := malloc_owned h
  exact ⟨ho, fun hp => ⟨hp, hget hp, hs⟩⟩

theorem StrAt.mono {p : Nat} {v : List UInt8} (hs : StrAt h p v) (he : Extends h h') :
    StrAt h' p v :=
  ⟨hs.ne, he _ _ hs.get, hs.nulFree⟩

/-- Four strings copied one after the other. -/
theorem dupFour_spec (A : Allocator Obj) {m m₁ m₂ m₃ m₄ : Mem Obj} {a b c d : List UInt8}
    {p q r t : Nat} (ha : 0 ∉ a) (hb : 0 ∉ b) (hc : 0 ∉ c) (hd : 0 ∉ d)
    (h₁ : dupCstr A m a = (m₁, p)) (h₂ : dupCstr A m₁ b = (m₂, q))
    (h₃ : dupCstr A m₂ c = (m₃, r)) (h₄ : dupCstr A m₃ d = (m₄, t)) :
    Owned m.heap m₄.heap (ptrs [p, q, r, t]) ∧
    (¬ (p = 0 ∨ q = 0 ∨ r = 0 ∨ t = 0) → StrAt m₄.heap p a ∧ StrAt m₄.heap q b ∧
      StrAt m₄.heap r c ∧ StrAt m₄.heap t d) := by
  obtain ⟨o₁, s₁⟩ := dupCstr_spec A ha h₁
  obtain ⟨o₂, s₂⟩ := dupCstr_spec A hb h₂
  obtain ⟨o₃, s₃⟩ := dupCstr_spec A hc h₃
  obtain ⟨o₄, s₄⟩ := dupCstr_spec A hd h₄
  refine ⟨?_, fun hne => ?_⟩
  · have o := o₁.trans (o₂.trans (o₃.trans o₄))
    rw [← ptrs_append, ← ptrs_append, ← ptrs_append] at o
    exact o
  · simp only [not_or] at hne
    exact ⟨(s₁ hne.1).mono (o₂.trans (o₃.trans o₄)).extends,
      (s₂ hne.2.1).mono (o₃.trans o₄).extends, (s₃ hne.2.2.1).mono o₄.extends, s₄ hne.2.2.2⟩

theorem dupString_strAt (A : Allocator Obj) {m : Mem Obj} {p : Nat} {v : List UInt8}
    (hs : StrAt m.heap p v) : dupString A m p = some (dupCstr A m v) := by
  unfold dupString
  rw [if_neg hs.ne, hs.get]
  dsimp only
  rw [cstr_append_zero hs.nulFree]

/-! ## Arrays of names -/

theorem written_map_some {α : Type} (as : List α) (junk : List (Option α)) :
    written as.length (as.map some ++ junk) = some as := by
  induction as with
  | nil => rfl
  | cons a as ih => simp [written, ih]

/-- The array at `lookups` holds the pointers `ps`, and there are `count` of them; a null array
    holds none. -/
def NamesAt (h : Heap Obj) (lookups count : Nat) (ps : List Nat) : Prop :=
  (lookups = 0 ∧ ps = []) ∨
  (lookups ≠ 0 ∧ count = ps.length ∧
    ∃ junk, h.get lookups = some (.slots (ps.map some ++ junk)))

theorem NamesAt.congr {lookups count : Nat} {ps : List Nat} (hn : NamesAt h lookups count ps)
    (heq : h'.get lookups = h.get lookups) : NamesAt h' lookups count ps :=
  hn.imp id fun ⟨hl, hc, junk, hg⟩ => ⟨hl, hc, junk, heq.trans hg⟩

theorem NamesAt.readSlots {m : Mem Obj} {lookups count : Nat} {ps : List Nat}
    (hn : NamesAt m.heap lookups count ps) (hl : lookups ≠ 0) :
    readSlots m lookups count = some ps := by
  rcases hn with ⟨h0, _⟩ | ⟨_, rfl, junk, hg⟩
  · exact absurd h0 hl
  · unfold Netconfig.readSlots
    rw [hg]
    exact written_map_some ps junk

theorem freeLookups_owned {m : Mem Obj} {lookups count : Nat} {ps L : List Nat}
    (o : Owned h₀ m.heap (ptrs (ps ++ [lookups]) ++ L)) (hn : NamesAt m.heap lookups count ps) :
    ∃ m', freeLookups m lookups count = some m' ∧ Owned h₀ m'.heap L := by
  unfold freeLookups
  by_cases hl : lookups = 0
  · rcases hn with ⟨_, rfl⟩ | ⟨hne, _⟩
    · rw [if_pos hl]
      rw [hl] at o
      exact ⟨m, rfl, o⟩
    · exact absurd hl hne
  · rw [if_neg hl, hn.readSlots hl, Option.bind_some]
    obtain ⟨m', hm', o', _⟩ := freeAll_owned o
    exact ⟨m', hm', o'⟩

/-- `free_netconfig_fields` frees the strings that are there, the names and their array. -/
theorem freeNetconfigFields_owned {m : Mem Obj} {e : Netconfig} {ps L : List Nat}
    (o : Owned h₀ m.heap
      (ptrs [e.netid, e.protofmly, e.proto, e.device] ++ (ptrs (ps ++ [e.lookups]) ++ L)))
    (hn : NamesAt m.heap e.lookups e.nlookups ps) :
    ∃ m', freeNetconfigFields m e = some m' ∧ Owned h₀ m'.heap L := by
  unfold freeNetconfigFields
  obtain ⟨m₁, h₁, o₁, hkeep⟩ := freeAll_owned o
  rw [h₁, Option.bind_some]
  refine freeLookups_owned o₁ ?_
  by_cases hl : e.lookups = 0
  · rcases hn with ⟨_, hps⟩ | ⟨hne, _⟩
    · exact .inl ⟨hl, hps⟩
    · exact absurd hl hne
  · -- the array is none of the four strings
    refine hn.congr (hkeep _ fun hm => ?_)
    have hmem : e.lookups ∈ ptrs [e.netid, e.protofmly, e.proto, e.device] := by
      rw [ptrs, List.mem_filter]
      exact ⟨hm, decide_eq_true hl⟩
    have hmem' : e.lookups ∈ ptrs (ps ++ [e.lookups]) ++ L := by
      rw [ptrs_append, ptrs_cons hl]
      simp
    exact (List.nodup_append.mp o.nodup).2.2 _ hmem _ hmem' rfl

/-! ## The names of a line -/

theorem sizeMulOk_eq_some {a b n : Nat} (hs : sizeMulOk a b = some n) :
    n = a * b ∧ a * b < 2 ^ 64 := by
  unfold sizeMulOk at hs
  split at hs
  · cases hs
  · next hle =>
    have hlt : a * b < 2 ^ 64 := by
      by_cases ha : a = 0
      · simp [ha]
      · have hb : b ≤ (2 ^ 64 - 1) / a := Nat.not_lt.mp fun hgt => hle ⟨ha, hgt⟩
        have := Nat.mul_le_mul_left a hb
        have := Nat.mul_div_le (2 ^ 64 - 1) a
        omega
    have heq := Option.some.inj hs
    rw [Nat.mod_eq_of_lt hlt] at heq
    exact ⟨heq.symm, hlt⟩

/-- The doubled capacity is larger, as long as the old one fits into memory. -/
theorem lt_doubled {cap size start : Nat} (hfit : cap * size < 2 ^ 64) (hsize : 2 ≤ size)
    (hstart : 0 < start) : cap < if cap = 0 then start else cap * 2 % 2 ^ 64 := by
  have := Nat.mul_le_mul_left cap hsize
  split <;> omega

variable (A : Allocator Obj)

/-- An array of cells is made longer: nothing happens, or the new cells follow the old ones. -/
theorem realloc_cells {γ : Type} {mk : List (Option γ) → Obj} {m : Mem Obj} {p n : Nat}
    {L : List Nat} {cells : List (Option γ)} {f : Obj → Obj}
    (hf : ∀ cs, f (mk cs) = mk (resizeCells n cs)) (hle : cells.length ≤ n)
    (o : Owned h₀ m.heap (ptrs [p] ++ L)) (ha : ArrayAt mk m.heap p cells) :
    ∃ m' q, realloc A m p (mk (resizeCells n [])) f = some (m', q) ∧
      ((q = 0 ∧ m'.heap = m.heap) ∨
       (q ≠ 0 ∧ Owned h₀ m'.heap (ptrs [q] ++ L) ∧
        ArrayAt mk m'.heap q (cells ++ List.replicate (n - cells.length) none) ∧
        ∀ a ∈ L, m'.heap.get a = m.heap.get a)) := by
  obtain ⟨m', q, hr, hfail | ⟨hq, ho, hget, hkeep⟩⟩ := realloc_array A (resizeCells n) hf o ha
  · exact ⟨m', q, hr, .inl hfail⟩
  · rw [resizeCells_of_le hle] at hget
    exact ⟨m', q, hr, .inr ⟨hq, ho, .inr ⟨hq, hget⟩, hkeep⟩⟩

/-- What the loop of `parse_lookups` keeps: the array holds the copies `ps` of the segments
    `vs` seen so far. -/
structure Building (h₀ : Heap Obj) (w : Lookups) (ps : List Nat) (vs : List (List UInt8)) :
    Prop where
  owned : Owned h₀ w.mem.heap (ptrs [w.lookups] ++ ps)
  count : w.count = ps.length
  names : StrsAt w.mem.heap ps vs
  cells : ∃ junk, ArrayAt Obj.slots w.mem.heap w.lookups (ps.map some ++ junk) ∧
    (ps.map some ++ junk).length = w.cap
  bound : w.cap * 8 < 2 ^ 64

theorem growLookups_spec {w : Lookups} {ps : List Nat} {vs : List (List UInt8)}
    (hb : Building h₀ w ps vs) :
    ∃ w' ok, growLookups A w = some (w', ok) ∧ Building h₀ w' ps vs ∧
      (ok = true → w'.count = w.count ∧ w.cap < w'.cap) := by
  have hgt := lt_doubled hb.bound (by omega) (show 0 < 4 by omega)
  unfold growLookups
  dsimp only
  generalize (if w.cap = 0 then 4 else w.cap * 2 % 2 ^ 64) = newCap at hgt ⊢
  cases hsz : sizeMulOk newCap 8 with
  | none => exact ⟨w, false, rfl, hb, fun h => by cases h⟩
  | some bytes =>
    obtain ⟨rfl, hlt⟩ := sizeMulOk_eq_some hsz
    obtain ⟨junk, harr, hcap⟩ := hb.cells
    dsimp only
    rw [Nat.mul_div_cancel newCap (by omega)]
    obtain ⟨m', q, hr, ⟨rfl, hheap⟩ | ⟨hq, ho, harr', hkeep⟩⟩ := realloc_cells A
      (f := resizeSlots newCap) (fun _ => rfl) (by omega) hb.owned harr <;>
      rw [hr, Option.map_some]
    · refine ⟨_, false, rfl, ⟨?_, hb.count, ?_, ?_, hb.bound⟩, fun h => by cases h⟩
      · exact hheap ▸ hb.owned
      · exact hheap ▸ hb.names
      · exact ⟨junk, hheap ▸ harr, hcap⟩
    · dsimp only
      rw [if_neg hq]
      refine ⟨_, true, rfl, ⟨ho, hb.count, hb.names.congr hkeep, ?_, hlt⟩, fun _ => ⟨rfl, hgt⟩⟩
      rw [hcap, List.append_assoc] at harr'
      refine ⟨_, harr', ?_⟩
      rw [← List.append_assoc, List.length_append, hcap, List.length_replicate]
      show w.cap + (newCap - w.cap) = newCap
      omega

theorem set_map_some {α : Type} (as : List α) (junk : List (Option α)) (a : α) (hj : junk ≠ []) :
    (as.map some ++ junk).set as.length (some a) = (as ++ [a]).map some ++ junk.tail := by
  cases junk with
  | nil => exact absurd rfl hj
  | cons _ junk => simp

/-- In front of a new name: there is room for its pointer, or no memory. -/
theorem room_spec {w : Lookups} {ps : List Nat} {vs : List (List UInt8)}
    (hb : Building h₀ w ps vs) :
    ∃ w' ok, (if w.count = w.cap then growLookups A w else some (w, true)) = some (w', ok) ∧
      Building h₀ w' ps vs ∧ (ok = true → w'.count < w'.cap) := by
  by_cases hfull : w.count = w.cap
  · obtain ⟨w', ok, hgrow, hb', hlt⟩ := growLookups_spec A hb
    rw [if_pos hfull]
    exact ⟨w', ok, hgrow, hb', fun hok => by have := hlt hok; omega⟩
  · obtain ⟨junk, _, hcap⟩ := hb.cells
    have := hb.count
    rw [List.length_append, List.length_map] at hcap
    rw [if_neg hfull]
    exact ⟨w, true, rfl, hb, fun _ => by omega⟩

/-- An array with room is there. -/
theorem Building.array {w : Lookups} {ps : List Nat} {vs : List (List UInt8)}
    (hb : Building h₀ w ps vs) (hlt : w.count < w.cap) :
    ∃ junk, junk ≠ [] ∧ w.lookups ≠ 0 ∧
      w.mem.heap.get w.lookups = some (.slots (ps.map some ++ junk)) ∧
      (ps.map some ++ junk).length = w.cap := by
  obtain ⟨junk, harr, hcap⟩ := hb.cells
  have hjunk : junk ≠ [] := by
    rintro rfl
    rw [List.append_nil, List.length_map, ← hb.count] at hcap
    omega
  rcases harr with ⟨_, hnil⟩ | ⟨hl, hget⟩
  · exact absurd (List.append_eq_nil_iff.mp hnil).2 hjunk
  · exact ⟨junk, hjunk, hl, hget, hcap⟩

theorem addLookup_spec {w : Lookups} {ps : List Nat} {vs : List (List UInt8)}
    {segment : List UInt8} (hseg : 0 ∉ segment) (hb : Building h₀ w ps vs) :
    ∃ w' ok, addLookup A segment w = some (w', ok) ∧
      ((ok = true ∧ ∃ p, Building h₀ w' (ps ++ [p]) (vs ++ [segment])) ∨
       (ok = false ∧ Building h₀ w' ps vs)) := by
  obtain ⟨w₁, ok₁, h₁, hb₁, hlt⟩ := room_spec A hb
  unfold addLookup
  rw [h₁]
  cases ok₁ with
  | false => exact ⟨w₁, false, rfl, .inr ⟨rfl, hb₁⟩⟩
  | true =>
    rcases hd : dupCstr A w₁.mem segment with ⟨m₂, value⟩
    obtain ⟨ho, hstr⟩ := dupCstr_spec A hseg hd
    obtain ⟨junk, hjunk, hl, hget, hcap⟩ := hb₁.array (hlt rfl)
    have hcount := hb₁.count
    have hkeep : ∀ a ∈ ptrs [w₁.lookups] ++ ps, m₂.heap.get a = w₁.mem.heap.get a := by
      intro a ha
      obtain ⟨_, _, b, hget⟩ := hb₁.owned.fresh a ha
      exact ho.frame a (ho.not_mem hget)
    have ho₂ := hb₁.owned.trans ho
    rw [ptrs_cons hl, ptrs_nil] at hkeep ho₂
    simp only [Option.bind_eq_bind, Option.bind_some, Bool.not_true, if_neg Bool.false_ne_true,
      hd]
    by_cases hv : value = 0
    · rw [if_pos hv]
      rw [hv, ptrs_zero, ptrs_nil, List.append_nil] at ho₂
      refine ⟨_, false, rfl, .inr ⟨rfl, ?_, hcount, ?_, ⟨junk, ?_, hcap⟩, hb₁.bound⟩⟩
      · rw [ptrs_cons hl, ptrs_nil]
        exact ho₂
      · exact hb₁.names.congr fun p hp => hkeep p (List.mem_append_right _ hp)
      · exact .inr ⟨hl, (hkeep _ (by simp)).trans hget⟩
    · rw [ptrs_cons hv, ptrs_nil, List.append_assoc] at ho₂
      obtain ⟨m₃, hst, ho₃, hget₃, hkeep₃⟩ := ho₂.store (b := .slots
        ((ps.map some ++ junk).set w₁.count (some value))) (p := w₁.lookups) (by simp)
      have hnot : ∀ a ∈ ps ++ [value], a ≠ w₁.lookups := by
        intro a ha heq
        rw [heq] at ha
        exact (List.nodup_cons.mp ho₂.nodup).1 ha
      rw [if_neg hv, hkeep w₁.lookups (by simp), hget]
      dsimp only
      rw [hst]
      refine ⟨_, true, rfl, .inl ⟨rfl, value, ?_, ?_, ?_, ⟨junk.tail, ?_, ?_⟩, hb₁.bound⟩⟩
      · rw [ptrs_cons hl, ptrs_nil]
        exact ho₃
      · simp [hcount]
      · refine StrsAt.snoc ?_ ?_
        · refine hb₁.names.congr fun p hp => ?_
          rw [hkeep₃ p (hnot p (List.mem_append_left _ hp))]
          exact hkeep p (List.mem_append_right _ hp)
        · exact (hstr hv).congr (hkeep₃ value (hnot value (by simp)))
      · rw [hcount, set_map_some ps junk value hjunk] at hget₃
        exact .inr ⟨hl, hget₃⟩
      · show ((ps ++ [value]).map some ++ junk.tail).length = w₁.cap
        rw [← set_map_some ps junk value hjunk, List.length_set]
        exact hcap

theorem addLookups_spec {segments : List (List UInt8)} :
    ∀ {w : Lookups} {ps : List Nat} {vs : List (List UInt8)}, (∀ v ∈ segments, 0 ∉ v) →
      Building h₀ w ps vs → ∃ w' ok ps' vs', addLookups A segments w = some (w', ok) ∧
        Building h₀ w' ps' vs' ∧ (ok = true → vs' = vs ++ segments) := by
  induction segments with
  | nil => exact fun {w ps vs} _ hb => ⟨w, true, ps, vs, rfl, hb, fun _ => (List.append_nil vs).symm⟩
  | cons segment segments ih =>
    intro w ps vs hseg hb
    rw [List.forall_mem_cons] at hseg
    obtain ⟨w₁, ok, h₁, ⟨rfl, p, hb₁⟩ | ⟨rfl, hb₁⟩⟩ := addLookup_spec A hseg.1 hb
    · obtain ⟨w', ok', ps', vs', h₂, hb', heq⟩ := ih hseg.2 hb₁
      refine ⟨w', ok', ps', vs', ?_, hb', fun hok => ?_⟩
      · simp only [addLookups, h₁, Option.bind_eq_bind, Option.bind_some, if_true, h₂]
      · rw [heq hok, List.append_assoc, List.singleton_append]
    · exact ⟨w₁, false, ps, vs, by simp [addLookups, h₁], hb₁, fun h => by cases h⟩

/-- The names that the last field of a line lists. -/
def lookupNames (token : List UInt8) : List (List UInt8) :=
  if token = chars "-" then [] else tokens (chars ",") token

/-- `parse_lookups` adds the names and their array, or nothing. -/
theorem parseLookups_spec {m : Mem Obj} {token : List UInt8} (htok : 0 ∉ token) :
    ∃ m' r, parseLookups A m token = some (m', r) ∧
      ((r = none ∧ m'.heap = m.heap) ∨
       ∃ n p ps, r = some (n, p) ∧ Owned m.heap m'.heap (ps ++ ptrs [p]) ∧
        StrsAt m'.heap ps (lookupNames token) ∧ n = ps.length ∧ NamesAt m'.heap p n ps) := by
  unfold parseLookups lookupNames
  by_cases hdash : token = chars "-"
  · rw [if_pos hdash, if_pos hdash]
    exact ⟨m, _, rfl, .inr ⟨0, 0, [], rfl, Owned.nil _, .nil, rfl, .inl ⟨rfl, rfl⟩⟩⟩
  · rw [if_neg hdash, if_neg hdash]
    rcases hd : dupCstr A m token with ⟨m₁, work⟩
    obtain ⟨ho, _⟩ := dupCstr_spec A htok hd
    by_cases hw : work = 0
    · rw [hw, ptrs_zero, ptrs_nil] at ho
      exact ⟨m₁, none, by simp [hw], .inl ⟨rfl, ho.heap_eq⟩⟩
    · have hstart : Building m₁.heap ⟨m₁, 0, 0, 0⟩ [] [] :=
        ⟨Owned.nil _, rfl, .nil, ⟨[], .inl ⟨rfl, rfl⟩, rfl⟩, Nat.two_pow_pos 64⟩
      have hseg : ∀ v ∈ tokens (chars ",") token, 0 ∉ v := fun v hv =>
        not_mem_of_mem_tokens htok hv
      obtain ⟨w, ok, ps, vs, hadd, hb, hvs⟩ := addLookups_spec A hseg hstart
      have hown := ho.trans hb.owned
      simp only [Option.bind_eq_bind, if_neg hw, hadd, Option.bind_some]
      cases ok with
      | true =>
        obtain ⟨m₂, hfree, ho₂, hkeep⟩ := hown.free
        rw [ptrs_cons hw, ptrs_nil] at hown
        have hnot : ∀ a ∈ ptrs [w.lookups] ++ ps, a ≠ work := fun a ha heq =>
          (List.nodup_cons.mp hown.nodup).1 (heq ▸ ha)
        refine ⟨m₂, some (w.count, w.lookups), by simp [hfree], .inr ⟨_, _, ps, rfl, ?_, ?_,
          hb.count, ?_⟩⟩
        · exact ho₂.perm List.perm_append_comm
        · rw [← List.nil_append (tokens _ _), ← hvs rfl]
          exact hb.names.congr fun p hp => hkeep p (hnot p (List.mem_append_right _ hp))
        · obtain ⟨junk, ⟨h0, hnil⟩ | ⟨hne, hget⟩, _⟩ := hb.cells
          · exact .inl ⟨h0, List.map_eq_nil_iff.mp (List.append_eq_nil_iff.mp hnil).1⟩
          · refine .inr ⟨hne, hb.count, junk, ?_⟩
            rw [hkeep w.lookups (hnot _ (by simp [ptrs_cons hne])), hget]
      | false =>
        have hnames : NamesAt w.mem.heap w.lookups w.count ps := by
          obtain ⟨junk, ⟨h0, hnil⟩ | ⟨hne, hget⟩, _⟩ := hb.cells
          · exact .inl ⟨h0, List.map_eq_nil_iff.mp (List.append_eq_nil_iff.mp hnil).1⟩
          · exact .inr ⟨hne, hb.count, junk, hget⟩
        have hperm : (ptrs [work] ++ (ptrs [w.lookups] ++ ps)).Perm
            (ptrs (ps ++ [w.lookups]) ++ (ptrs [work] ++ [])) := by
          rw [ptrs_append, ptrs_eq_self hb.names.ne, List.append_nil]
          exact List.perm_append_comm.trans (List.perm_append_comm.append_right _)
        obtain ⟨m₂, hfree, ho₂⟩ := freeLookups_owned (hown.perm hperm) hnames
        obtain ⟨m₃, hfree₃, ho₃, _⟩ := ho₂.free
        exact ⟨m₃, none, by simp [hfree, hfree₃], .inl ⟨rfl, ho₃.heap_eq⟩⟩

/-! ## Entries -/

/-- The struct `e` has the value `v`, and its lookup names are at `names`. -/
structure EntryAt (h : Heap Obj) (e : Netconfig) (v : Entry) (names : List Nat) : Prop where
  netid : StrAt h e.netid v.netid
  semantics : e.semantics = v.semantics
  flag : e.flag = v.flag
  protofmly : StrAt h e.protofmly v.protofmly
  proto : StrAt h e.proto v.proto
  device : StrAt h e.device v.device
  nlookups : e.nlookups = names.length
  strs : StrsAt h names v.lookups
  lookups : NamesAt h e.lookups e.nlookups names

/-- The blocks that go with a struct. -/
def blocks (e : Netconfig) (names : List Nat) : List Nat :=
  [e.netid, e.protofmly, e.proto, e.device] ++ (names ++ ptrs [e.lookups])

theorem EntryAt.congr {e : Netconfig} {v : Entry} {names : List Nat} (he : EntryAt h e v names)
    (heq : ∀ a ∈ blocks e names, h'.get a = h.get a) : EntryAt h' e v names := by
  have hfour : ∀ a ∈ [e.netid, e.protofmly, e.proto, e.device], h'.get a = h.get a :=
    fun a ha => heq a (List.mem_append_left _ ha)
  refine ⟨he.netid.congr (hfour _ (by simp)), he.semantics, he.flag,
    he.protofmly.congr (hfour _ (by simp)), he.proto.congr (hfour _ (by simp)),
    he.device.congr (hfour _ (by simp)), he.nlookups,
    he.strs.congr fun a ha => heq a (List.mem_append_right _ (List.mem_append_left _ ha)), ?_⟩
  by_cases hl : e.lookups = 0
  · rcases he.lookups with ⟨_, hnil⟩ | ⟨hne, _⟩
    · exact .inl ⟨hl, hnil⟩
    · exact absurd hl hne
  · exact he.lookups.congr (heq _ (by simp [blocks, ptrs_cons hl]))

theorem StrsAt.live {ps : List Nat} {vs : List (List UInt8)} (hs : StrsAt h ps vs) :
    ∀ p ∈ ps, ∃ b, h.get p = some b := by
  induction hs with
  | nil => exact fun p hp => absurd hp List.not_mem_nil
  | cons hp _ ih =>
    intro p hm
    rcases List.mem_cons.mp hm with rfl | hm
    · exact ⟨_, hp.get⟩
    · exact ih p hm

theorem EntryAt.live {e : Netconfig} {v : Entry} {names : List Nat} (he : EntryAt h e v names) :
    ∀ a ∈ blocks e names, ∃ b, h.get a = some b := by
  intro a ha
  rcases List.mem_append.mp ha with ha | ha
  · simp only [List.mem_cons, List.not_mem_nil, or_false] at ha
    rcases ha with rfl | rfl | rfl | rfl
    · exact ⟨_, he.netid.get⟩
    · exact ⟨_, he.protofmly.get⟩
    · exact ⟨_, he.proto.get⟩
    · exact ⟨_, he.device.get⟩
  · rcases List.mem_append.mp ha with ha | ha
    · exact he.strs.live a ha
    · rcases he.lookups with ⟨h0, _⟩ | ⟨hne, _, junk, hget⟩
      · rw [h0] at ha
        exact absurd ha List.not_mem_nil
      · rw [ptrs_cons hne, ptrs_nil, List.mem_singleton] at ha
        exact ⟨_, ha ▸ hget⟩

theorem StrsAt.mono {ps : List Nat} {vs : List (List UInt8)} (hs : StrsAt h ps vs)
    (hext : Extends h h') : StrsAt h' ps vs :=
  hs.congr fun p hp =>
    let ⟨_, hb⟩ := hs.live p hp
    (hext p _ hb).trans hb.symm

theorem EntryAt.mono {e : Netconfig} {v : Entry} {names : List Nat} (he : EntryAt h e v names)
    (hext : Extends h h') : EntryAt h' e v names :=
  he.congr fun a ha =>
    let ⟨_, hb⟩ := he.live a ha
    (hext a _ hb).trans hb.symm

theorem EntryAt.blocks_eq {e : Netconfig} {v : Entry} {names : List Nat}
    (he : EntryAt h e v names) : blocks e names =
      ptrs [e.netid, e.protofmly, e.proto, e.device] ++ ptrs (names ++ [e.lookups]) := by
  rw [ptrs_append, ptrs_eq_self he.strs.ne, ptrs_eq_self]
  · rfl
  · simp [he.netid.ne, he.protofmly.ne, he.proto.ne, he.device.ne]

/-- `free_netconfig_fields` frees the blocks of an entry. -/
theorem EntryAt.free {m : Mem Obj} {e : Netconfig} {v : Entry} {names L : List Nat}
    (he : EntryAt m.heap e v names) (o : Owned h₀ m.heap (blocks e names ++ L)) :
    ∃ m', freeNetconfigFields m e = some m' ∧ Owned h₀ m'.heap L := by
  rw [he.blocks_eq, List.append_assoc] at o
  exact freeNetconfigFields_owned o he.lookups

/-- `free_netconfig_fields` of a struct that has no names yet. -/
theorem freeFour_owned {m : Mem Obj} {e : Netconfig} {L : List Nat} (hl : e.lookups = 0)
    (o : Owned h₀ m.heap (ptrs [e.netid, e.protofmly, e.proto, e.device] ++ L)) :
    ∃ m', freeNetconfigFields m e = some m' ∧ Owned h₀ m'.heap L :=
  @freeNetconfigFields_owned h₀ m e [] L (by rw [hl]; exact o) (.inl ⟨hl, rfl⟩)

/-! ## Parsing a line -/

/-- The entry that a line denotes. -/
def parseLine (line : List UInt8) : Option Entry :=
  match tokens (chars " \t") (cutLine line) with
  | f0 :: f1 :: f2 :: f3 :: f4 :: f5 :: f6 :: _ =>
    match parseSemantics f1, parseFlags f2 with
    | some semantics, some flag =>
      some { netid := f0, semantics := semantics, flag := flag, protofmly := f3, proto := f4,
             device := f5, lookups := lookupNames f6 }
    | _, _ => none
  | _ => none

theorem parseFields_spec (m : Mem Obj) {f0 f3 f4 f5 f6 : List UInt8} (f1 f2 : List UInt8)
    (h0 : 0 ∉ f0) (h3 : 0 ∉ f3) (h4 : 0 ∉ f4) (h5 : 0 ∉ f5) (h6 : 0 ∉ f6) :
    ∃ m' e ok, parseFields A m f0 f1 f2 f3 f4 f5 f6 = some (m', e, ok) ∧
      ((ok = true ∧ ∃ semantics flag names, parseSemantics f1 = some semantics ∧
          parseFlags f2 = some flag ∧
          EntryAt m'.heap e { netid := f0, semantics := semantics, flag := flag, protofmly := f3,
                              proto := f4, device := f5, lookups := lookupNames f6 } names ∧
          Owned m.heap m'.heap (blocks e names)) ∨
       (ok = false ∧ m'.heap = m.heap)) := by
  unfold parseFields
  rcases h₁ : dupCstr A m f0 with ⟨m₁, netid⟩
  dsimp only
  rcases h₂ : dupCstr A m₁ f3 with ⟨m₂, protofmly⟩
  dsimp only
  rcases h₃ : dupCstr A m₂ f4 with ⟨m₃, proto⟩
  dsimp only
  rcases h₄ : dupCstr A m₃ f5 with ⟨m₄, device⟩
  dsimp only
  obtain ⟨o, hstrs⟩ := dupFour_spec A h0 h3 h4 h5 h₁ h₂ h₃ h₄
  -- what every failure after the four copies does
  have hfail : ∀ m' : Mem Obj, m'.heap = m₄.heap → ∃ m'', freeNetconfigFields m'
      { Netconfig.zero with netid := netid, protofmly := protofmly, proto := proto,
                            device := device } = some m'' ∧ m''.heap = m.heap := by
    intro m' hheap
    rw [← List.append_nil (ptrs _), ← hheap] at o
    obtain ⟨m'', hm'', o''⟩ := freeFour_owned (e := { Netconfig.zero with
      netid := netid, protofmly := protofmly, proto := proto, device := device }) rfl o
    exact ⟨m'', hm'', o''.heap_eq⟩
  obtain ⟨m', hm', hheap⟩ := hfail m₄ rfl
  by_cases hnull : netid = 0 ∨ protofmly = 0 ∨ proto = 0 ∨ device = 0
  · rw [if_pos hnull, hm']
    exact ⟨m', _, false, rfl, .inr ⟨rfl, hheap⟩⟩
  · rw [if_neg hnull]
    obtain ⟨s₁, s₂, s₃, s₄⟩ := hstrs hnull
    cases hsem : parseSemantics f1 with
    | none => exact ⟨m', Netconfig.zero, false, by simp [hm'], .inr ⟨rfl, hheap⟩⟩
    | some semantics =>
      cases hflag : parseFlags f2 with
      | none => exact ⟨m', Netconfig.zero, false, by simp [hm'], .inr ⟨rfl, hheap⟩⟩
      | some flag =>
        obtain ⟨m₅, r, h₅, ⟨rfl, hheap₅⟩ | ⟨n, p, names, rfl, o₅, hnames, hn, hat⟩⟩ :=
          parseLookups_spec A (m := m₄) h6
        · obtain ⟨m', hm', hheap⟩ := hfail m₅ hheap₅
          exact ⟨m', Netconfig.zero, false, by simp [h₅, hm'], .inr ⟨rfl, hheap⟩⟩
        · simp only [h₅, Option.bind_eq_bind, Option.bind_some]
          refine ⟨m₅, _, true, rfl, .inl ⟨rfl, semantics, flag, names, rfl, rfl, ?_, ?_⟩⟩
          · have hext := o₅.extends
            exact ⟨s₁.mono hext, rfl, rfl, s₂.mono hext, s₃.mono hext, s₄.mono hext, hn, hnames,
              hat⟩
          · have o' := o.trans o₅
            rw [ptrs_eq_self (by simp [s₁.ne, s₂.ne, s₃.ne, s₄.ne])] at o'
            exact o'

theorem zero_not_mem_cutLine (line : List UInt8) : 0 ∉ cutLine line := by
  exact fun hm => zero_not_mem_cstr line ((List.takeWhile_prefix _).subset hm)

/-- `parse_netconfig_line` adds an entry with the value of the line, or nothing. -/
theorem parseNetconfigLine_spec (m : Mem Obj) (line : List UInt8) :
    ∃ m' e ok, parseNetconfigLine A m line = some (m', e, ok) ∧
      ((ok = true ∧ ∃ v names, parseLine line = some v ∧ EntryAt m'.heap e v names ∧
          Owned m.heap m'.heap (blocks e names)) ∨
       (ok = false ∧ m'.heap = m.heap)) := by
  have hnul : ∀ t ∈ tokens (chars " \t") (cutLine line), 0 ∉ t := fun t ht =>
    not_mem_of_mem_tokens (zero_not_mem_cutLine line) ht
  unfold parseNetconfigLine parseLine
  split
  · next f0 f1 f2 f3 f4 f5 f6 _ heq =>
    rw [heq] at hnul
    obtain ⟨m', e, ok, hp, ⟨rfl, semantics, flag, names, hsem, hflag, he, ho⟩ | hfail⟩ :=
      parseFields_spec A m f1 f2 (hnul f0 (by simp)) (hnul f3 (by simp)) (hnul f4 (by simp))
        (hnul f5 (by simp)) (hnul f6 (by simp))
    · exact ⟨m', e, true, hp, .inl ⟨rfl, _, names, by simp only [heq, hsem, hflag], he, ho⟩⟩
    · exact ⟨m', e, ok, hp, .inr hfail⟩
  · exact ⟨m, _, false, rfl, .inr ⟨rfl, rfl⟩⟩

/-! ## Copying an entry -/

/-- What the copying loop keeps: the new array holds the copies made so far, null behind them,
    and the copies have the values `vs`. -/
theorem dupLookups_spec {lookups : Nat} {src : List Nat} :
    ∀ {m : Mem Obj} {ps : List Nat} {vs ws : List (List UInt8)},
      StrsAt h₀ src ws → Owned h₀ m.heap (ps ++ [lookups]) → StrsAt m.heap ps vs →
      m.heap.get lookups = some (.slots (ps.map some ++ List.replicate src.length (some 0))) →
      ∃ m' ok ps', dupLookups A lookups src ps.length m = some (m', ok) ∧
        Owned h₀ m'.heap (ptrs ps' ++ [lookups]) ∧ ps'.length = ps.length + src.length ∧
        m'.heap.get lookups = some (.slots (ps'.map some)) ∧
        (ok = true → StrsAt m'.heap ps' (vs ++ ws)) := by
  induction src with
  | nil =>
    intro m ps vs ws hsrc ho hps hget
    cases hsrc
    refine ⟨m, true, ps, rfl, ?_, rfl, ?_, fun _ => ?_⟩
    · rw [ptrs_eq_self hps.ne]
      exact ho
    · simpa using hget
    · rw [List.append_nil]
      exact hps
  | cons p src ih =>
    intro m ps vs ws hsrc ho hps hget
    cases hsrc with
    | @cons _ w _ ws hp hrest =>
    rw [dupLookups, dupString_strAt A (hp.mono ho.extends)]
    rcases hd : dupCstr A m w with ⟨m₁, value⟩
    obtain ⟨o₁, s₁⟩ := dupCstr_spec A hp.nulFree hd
    have hlook : m₁.heap.get lookups = m.heap.get lookups := (o₁.extends _ _ hget).trans hget.symm
    have ho₁ := ho.trans o₁
    obtain ⟨m₂, hst, ho₂, hget₂, hkeep₂⟩ := ho₁.store (p := lookups) (b := .slots
      ((ps.map some ++ List.replicate (src.length + 1) (some 0)).set ps.length (some value)))
      (by simp)
    have hcells : (ps.map some ++ List.replicate (src.length + 1) (some 0)).set ps.length
        (some value) = (ps ++ [value]).map some ++ List.replicate src.length (some 0) := by
      rw [set_map_some ps _ value (by simp)]
      simp
    simp only [Option.bind_eq_bind, Option.bind_some, hlook, hget, List.length_cons, hst]
    rw [hcells] at hget₂
    by_cases hv : value = 0
    · refine ⟨m₂, false, ps ++ [0] ++ List.replicate src.length 0, by rw [if_pos hv], ?_, ?_, ?_,
        fun h => by cases h⟩
      · rw [hv, ptrs_zero, ptrs_nil, List.append_nil] at ho₂
        have hz : ptrs (List.replicate src.length 0) = [] := by simp [ptrs]
        rw [ptrs_append, ptrs_append, ptrs_eq_self hps.ne, hz, ptrs_zero, ptrs_nil,
          List.append_nil, List.append_nil]
        exact ho₂
      · simp only [List.length_append, List.length_replicate, List.length_singleton]
        omega
      · rw [hget₂, hv]
        simp
    · rw [if_neg hv]
      rw [ptrs_cons hv, ptrs_nil] at ho₂
      have hperm : (ps ++ [lookups] ++ [value]).Perm ((ps ++ [value]) ++ [lookups]) := by
        rw [List.append_assoc, List.append_assoc]
        exact List.perm_append_comm.append_left ps
      have ho₃ := ho₂.perm hperm
      have hne : ∀ a ∈ ps ++ [value], a ≠ lookups := fun a ha =>
        (List.nodup_append.mp ho₃.nodup).2.2 a ha lookups (by simp)
      have hps₂ : StrsAt m₂.heap (ps ++ [value]) (vs ++ [w]) := by
        refine StrsAt.snoc (hps.congr fun a ha => ?_)
          ((s₁ hv).congr (hkeep₂ value (hne value (by simp))))
        obtain ⟨b, hb⟩ := hps.live a ha
        rw [hkeep₂ a (hne a (List.mem_append_left _ ha)), o₁.extends _ _ hb, hb]
      obtain ⟨m', ok, ps', h', ho', hlen, hget', hstrs⟩ := ih hrest ho₃ hps₂ hget₂
      rw [List.length_append, List.length_singleton] at h' hlen
      refine ⟨m', ok, ps', h', ho', by omega, hget', fun hok => ?_⟩
      rw [← List.singleton_append, ← List.append_assoc]
      exact hstrs hok

theorem dropCopy_owned {m : Mem Obj} {copy : Nat} {e : Netconfig} {ps : List Nat}
    (hn : NamesAt m.heap e.lookups e.nlookups ps)
    (o : Owned h₀ m.heap (ptrs [copy] ++
      (ptrs [e.netid, e.protofmly, e.proto, e.device] ++ ptrs (ps ++ [e.lookups])))) :
    ∃ m', dropCopy m copy e = some (m', 0) ∧ m'.heap = h₀ := by
  have hperm := o.perm List.perm_append_comm
  rw [List.append_assoc, ← List.append_nil (ptrs [copy])] at hperm
  obtain ⟨m₁, h₁, o₁⟩ := freeNetconfigFields_owned hperm hn
  obtain ⟨m₂, h₂, o₂, _⟩ := o₁.free
  exact ⟨m₂, by simp [dropCopy, h₁, h₂], o₂.heap_eq⟩

/-- `dropCopy` of a struct that has no names yet. -/
theorem dropFour_owned {m : Mem Obj} {copy : Nat} {e : Netconfig} (hl : e.lookups = 0)
    (o : Owned h₀ m.heap (ptrs [copy] ++ ptrs [e.netid, e.protofmly, e.proto, e.device])) :
    ∃ m', dropCopy m copy e = some (m', 0) ∧ m'.heap = h₀ := by
  refine @dropCopy_owned h₀ m copy e [] (.inl ⟨hl, rfl⟩) ?_
  rw [hl, List.nil_append, ptrs_zero, ptrs_nil, List.append_nil]
  exact o

/-- A new struct at `copy` with the value `v`, its blocks and nothing else are added to `h`. -/
def CopyAt (h₀ h : Heap Obj) (copy : Nat) (v : Entry) : Prop :=
  ∃ e names, h.get copy = some (.entries [some e]) ∧ EntryAt h e v names ∧
    Owned h₀ h (copy :: blocks e names)

theorem storeCopy_copyAt {m : Mem Obj} {copy : Nat} {e : Netconfig} {v : Entry}
    {names : List Nat} (he : EntryAt m.heap e v names)
    (o : Owned h₀ m.heap (copy :: blocks e names)) :
    ∃ m', store m copy (.entries [some e]) = some m' ∧ CopyAt h₀ m'.heap copy v := by
  obtain ⟨m', hst, o', hget, hkeep⟩ := o.store (b := .entries [some e]) List.mem_cons_self
  refine ⟨m', hst, e, names, hget, he.congr fun a ha => hkeep a fun heq => ?_, o'⟩
  exact (List.nodup_cons.mp o.nodup).1 (heq ▸ ha)

/-- What follows the copying of the names: the struct is stored, or dropped with what it has. -/
theorem finishCopy_spec {m : Mem Obj} {copy : Nat} {e : Netconfig} {v : Entry} {ps : List Nat}
    {ok : Bool} (hcopy : copy ≠ 0) (h₁ : StrAt m.heap e.netid v.netid)
    (h₂ : StrAt m.heap e.protofmly v.protofmly) (h₃ : StrAt m.heap e.proto v.proto)
    (h₄ : StrAt m.heap e.device v.device) (hsem : e.semantics = v.semantics)
    (hflag : e.flag = v.flag) (hn : e.nlookups = ps.length) (hl : e.lookups ≠ 0)
    (hat : NamesAt m.heap e.lookups e.nlookups ps) (hstrs : ok = true → StrsAt m.heap ps v.lookups)
    (o : Owned h₀ m.heap
      (copy :: ([e.netid, e.protofmly, e.proto, e.device] ++ (ptrs ps ++ [e.lookups])))) :
    ∃ m' q, (if ok then (store m copy (.entries [some e])).bind fun m => some (m, copy)
        else dropCopy m copy e) = some (m', q) ∧
      ((q = 0 ∧ m'.heap = h₀) ∨ (q ≠ 0 ∧ CopyAt h₀ m'.heap q v)) := by
  have hlookups : ptrs [e.lookups] = [e.lookups] := ptrs_cons hl []
  cases ok with
  | true =>
    have he : EntryAt m.heap e v ps := ⟨h₁, hsem, hflag, h₂, h₃, h₄, hn, hstrs rfl, hat⟩
    rw [ptrs_eq_self he.strs.ne] at o
    obtain ⟨m', hst, hc⟩ := storeCopy_copyAt he (by rw [blocks, hlookups]; exact o)
    rw [if_pos rfl, hst]
    exact ⟨m', copy, rfl, .inr ⟨hcopy, hc⟩⟩
  | false =>
    have hone : ptrs [copy] = [copy] := ptrs_cons hcopy []
    have hfour : ptrs [e.netid, e.protofmly, e.proto, e.device] =
        [e.netid, e.protofmly, e.proto, e.device] :=
      ptrs_eq_self (by simp [h₁.ne, h₂.ne, h₃.ne, h₄.ne])
    obtain ⟨m', hm', hheap⟩ := dropCopy_owned hat
      (by rw [hone, hfour, ptrs_append, hlookups]; exact o)
    exact ⟨m', 0, hm', .inl ⟨rfl, hheap⟩⟩

theorem dupEntryLookups_spec {m : Mem Obj} {copy : Nat} {source e : Netconfig} {v : Entry}
    {names : List Nat} (hcopy : copy ≠ 0) (hs : EntryAt h₀ source v names)
    (h₁ : StrAt m.heap e.netid v.netid) (h₂ : StrAt m.heap e.protofmly v.protofmly)
    (h₃ : StrAt m.heap e.proto v.proto) (h₄ : StrAt m.heap e.device v.device)
    (hsem : e.semantics = v.semantics) (hflag : e.flag = v.flag)
    (hn : e.nlookups = source.nlookups) (hl : e.lookups = 0)
    (o : Owned h₀ m.heap (copy :: [e.netid, e.protofmly, e.proto, e.device])) :
    ∃ m' q, dupEntryLookups A m copy source e = some (m', q) ∧
      ((q = 0 ∧ m'.heap = h₀) ∨ (q ≠ 0 ∧ CopyAt h₀ m'.heap q v)) := by
  have hfour : ptrs [e.netid, e.protofmly, e.proto, e.device] =
      [e.netid, e.protofmly, e.proto, e.device] :=
    ptrs_eq_self (by simp [h₁.ne, h₂.ne, h₃.ne, h₄.ne])
  have hone : ptrs [copy] = [copy] := ptrs_cons hcopy []
  have hdrop : ∀ m' : Mem Obj, m'.heap = m.heap →
      ∃ m'', dropCopy m' copy e = some (m'', 0) ∧ m''.heap = h₀ := by
    intro m' hheap
    refine dropFour_owned hl ?_
    rw [hone, hfour, hheap]
    exact o
  unfold dupEntryLookups
  by_cases hnone : source.nlookups = 0
  · rw [if_pos hnone]
    have hnames : names = [] := List.length_eq_zero_iff.mp (hs.nlookups ▸ hnone)
    have hv : v.lookups = [] := by
      have hlen := hs.strs.length_eq
      rw [hnames] at hlen
      exact List.length_eq_zero_iff.mp hlen.symm
    have he : EntryAt m.heap e v [] := ⟨h₁, hsem, hflag, h₂, h₃, h₄, hn.trans hnone,
      by rw [hv]; exact .nil, .inl ⟨hl, rfl⟩⟩
    obtain ⟨m', hst, hc⟩ := storeCopy_copyAt he (by rw [blocks, hl]; exact o)
    rw [hst]
    exact ⟨m', copy, rfl, .inr ⟨hcopy, hc⟩⟩
  · rw [if_neg hnone]
    cases hsz : sizeMulOk source.nlookups 8 with
    | none =>
      obtain ⟨m', hm', hheap⟩ := hdrop m rfl
      exact ⟨m', 0, hm', .inl ⟨rfl, hheap⟩⟩
    | some bytes =>
      obtain ⟨rfl, _⟩ := sizeMulOk_eq_some hsz
      dsimp only
      rw [Nat.mul_div_cancel source.nlookups (by omega)]
      rcases h₅ : malloc A m (.slots (List.replicate source.nlookups (some 0)))
        with ⟨m₁, lookups⟩
      obtain ⟨o₁, hslots⟩ := malloc_owned h₅
      dsimp only
      by_cases hnull : lookups = 0
      · rw [hnull, ptrs_zero, ptrs_nil] at o₁
        obtain ⟨m', hm', hheap⟩ := hdrop m₁ o₁.heap_eq
        rw [if_pos hnull]
        exact ⟨m', 0, hm', .inl ⟨rfl, hheap⟩⟩
      · rw [if_neg hnull]
        have hsl : source.lookups ≠ 0 := by
          intro h0
          rcases hs.lookups with ⟨_, hnil⟩ | ⟨hne, _⟩
          · exact hnone (by rw [hs.nlookups, hnil, List.length_nil])
          · exact hne h0
        have hs₁ := hs.mono (o.trans o₁).extends
        have hslots := hslots hnull
        rw [hs.nlookups] at hslots
        rw [ptrs_cons hnull, ptrs_nil] at o₁
        -- the loop adds the copies of the names to the heap with the new array
        obtain ⟨m₂, ok, ps, hdup, o₂, hlen, hget, hstrs⟩ :=
          dupLookups_spec A (hs.strs.mono o.extends) o₁ (show StrsAt m₁.heap [] [] from .nil) hslots
        rw [List.length_nil] at hdup hlen
        rw [Nat.zero_add] at hlen
        have o₃ := o.trans o₂
        have hext := o₂.extends
        have hat : NamesAt m₂.heap lookups e.nlookups ps :=
          .inr ⟨hnull, by rw [hn, hs.nlookups, hlen], [], by rw [List.append_nil]; exact hget⟩
        rw [hs₁.lookups.readSlots hsl]
        simp only [Option.bind_eq_bind, Option.bind_some, hdup]
        exact finishCopy_spec (e := { e with lookups := lookups }) hcopy (h₁.mono hext)
          (h₂.mono hext) (h₃.mono hext) (h₄.mono hext) hsem hflag
          (hn.trans (hs.nlookups.trans hlen.symm)) hnull hat hstrs o₃

/-- `dup_entry` adds an entry with the same value, or nothing. -/
theorem dupEntry_spec {m : Mem Obj} {source : Netconfig} {v : Entry} {names : List Nat}
    (he : EntryAt m.heap source v names) :
    ∃ m' copy, dupEntry A m source = some (m', copy) ∧
      ((copy = 0 ∧ m'.heap = m.heap) ∨ (copy ≠ 0 ∧ CopyAt m.heap m'.heap copy v)) := by
  unfold dupEntry
  rcases hc : malloc A m (.entries [some Netconfig.zero]) with ⟨m₀, copy⟩
  obtain ⟨o₀, _⟩ := malloc_owned hc
  dsimp only
  by_cases hcopy : copy = 0
  · rw [hcopy, ptrs_zero, ptrs_nil] at o₀
    exact ⟨m₀, 0, by rw [if_pos hcopy], .inl ⟨rfl, o₀.heap_eq⟩⟩
  · have he₀ := he.mono o₀.extends
    rw [if_neg hcopy, dupString_strAt A he₀.netid]
    rcases h₁ : dupCstr A m₀ v.netid with ⟨m₁, netid⟩
    have o₁ := (dupCstr_spec A he.netid.nulFree h₁).1
    simp only [Option.bind_eq_bind, Option.bind_some]
    rw [dupString_strAt A (he₀.protofmly.mono o₁.extends)]
    rcases h₂ : dupCstr A m₁ v.protofmly with ⟨m₂, protofmly⟩
    have o₂ := o₁.trans (dupCstr_spec A he.protofmly.nulFree h₂).1
    simp only [Option.bind_some]
    rw [dupString_strAt A (he₀.proto.mono o₂.extends)]
    rcases h₃ : dupCstr A m₂ v.proto with ⟨m₃, proto⟩
    have o₃ := o₂.trans (dupCstr_spec A he.proto.nulFree h₃).1
    simp only [Option.bind_some]
    rw [dupString_strAt A (he₀.device.mono o₃.extends)]
    rcases h₄ : dupCstr A m₃ v.device with ⟨m₄, device⟩
    simp only [Option.bind_some]
    obtain ⟨o₄, hstrs⟩ := dupFour_spec A he.netid.nulFree he.protofmly.nulFree he.proto.nulFree
      he.device.nulFree h₁ h₂ h₃ h₄
    have o := o₀.trans o₄
    by_cases hnull : netid = 0 ∨ protofmly = 0 ∨ proto = 0 ∨ device = 0
    · obtain ⟨m', hm', hheap⟩ := @dropFour_owned m.heap m₄ copy
        { source with netid := netid, protofmly := protofmly, proto := proto, device := device,
                      lookups := 0 } rfl o
      rw [if_pos hnull]
      exact ⟨m', 0, hm', .inl ⟨rfl, hheap⟩⟩
    · rw [if_neg hnull]
      obtain ⟨s₁, s₂, s₃, s₄⟩ := hstrs hnull
      rw [ptrs_cons hcopy, ptrs_nil, ptrs_eq_self (by simp [s₁.ne, s₂.ne, s₃.ne, s₄.ne])] at o
      exact dupEntryLookups_spec A hcopy he s₁ s₂ s₃ s₄ he.semantics he.flag rfl rfl o

end Librecompat.Netconfig
