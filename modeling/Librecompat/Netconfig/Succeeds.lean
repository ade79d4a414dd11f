/-
  What cannot fail when no allocation fails.

  Copying an entry gives a copy, a line that says something is parsed, and an entry is appended
  as long as the size of the array is a `size_t`: the capacity is doubled from eight on, so that
  there is room for `maxEntries` entries and no more.
-/
import Librecompat.Netconfig.Table

namespace Librecompat.Netconfig

open Librecompat.Lib

/-! ## Lengths -/

theorem splitOnP_bounds {α : Type} (p : α → Bool) (s : List α) :
    (s.splitOnP p).length ≤ s.length + 1 ∧ ∀ t ∈ s.splitOnP p, t.length ≤ s.length := by
  induction s with
  | nil => simp
  | cons x s ih =>
    rw [List.splitOnP_cons_eq_if_modifyHead]
    split
    · refine ⟨by simp only [List.length_cons]; omega, fun t ht => ?_⟩
      rcases List.mem_cons.mp ht with rfl | ht
      · exact Nat.zero_le _
      · exact (ih.2 t ht).trans (Nat.le_succ _)
    · cases hs : s.splitOnP p with
      | nil => exact absurd hs (List.splitOnP_ne_nil p s)
      | cons u us =>
        rw [hs] at ih
        refine ⟨by simpa using ih.1.trans (Nat.le_succ _), fun t ht => ?_⟩
        rcases List.mem_cons.mp ht with rfl | ht
        · exact Nat.succ_le_succ (ih.2 u List.mem_cons_self)
        · exact (ih.2 t (List.mem_cons_of_mem u ht)).trans (Nat.le_succ _)

theorem tokens_bounds (delims s : List UInt8) :
    (tokens delims s).length ≤ s.length + 1 ∧ ∀ t ∈ tokens delims s, t.length ≤ s.length := by
  obtain ⟨hlen, hmem⟩ := splitOnP_bounds (· ∈ delims) s
  exact ⟨(List.length_filter_le _ _).trans hlen, fun t ht => hmem t (List.mem_filter.mp ht).1⟩

/-- A line has not more names than bytes. -/
theorem length_lookups_le {line : List UInt8} {v : Entry} (h : parseLine line = some v) :
    v.lookups.length ≤ line.length + 1 := by
  unfold parseLine at h
  split at h
  · next f0 f1 f2 f3 f4 f5 f6 fs heq =>
    have hcut : (cutLine line).length ≤ line.length :=
      (List.takeWhile_prefix _).length_le.trans (List.takeWhile_prefix _).length_le
    have hf6 : f6.length ≤ (cutLine line).length :=
      (tokens_bounds (chars " \t") (cutLine line)).2 f6 (by rw [heq]; simp)
    split at h
    · obtain rfl := Option.some.inj h
      dsimp only
      unfold lookupNames
      split
      · exact Nat.zero_le _
      · exact (tokens_bounds _ f6).1.trans (by omega)
    · cases h
  · cases h

theorem sizeMulOk_of_lt {a b : Nat} (h : a * b < 2 ^ 64) : sizeMulOk a b = some (a * b) := by
  unfold sizeMulOk
  rw [if_neg, Nat.mod_eq_of_lt h]
  rintro ⟨ha, hgt⟩
  have hle : b ≤ (2 ^ 64 - 1) / a :=
    (Nat.le_div_iff_mul_le (Nat.pos_of_ne_zero ha)).mpr (by rw [Nat.mul_comm]; omega)
  omega

/-- The names that an array doubled from four on has room for. -/
def maxLookups : Nat := 2 ^ 60

/-! ## Copying -/

theorem malloc_ne {β : Type} {A : Allocator β} (hA : ∀ n, A.fails n = false) {m m' : Mem β} {b : β}
    {p : Nat} (h : malloc A m b = (m', p)) : p ≠ 0 := by
  obtain ⟨_, q, hm, hq, _⟩ := malloc_ok (hA m.calls) b
  obtain ⟨_, rfl⟩ := Prod.mk.inj (h.symm.trans hm)
  exact hq

variable {A : Allocator Obj} (hA : ∀ n, A.fails n = false)
include hA

theorem dupString_ne {m m' : Mem Obj} {p q : Nat} (hp : p ≠ 0)
    (h : dupString A m p = some (m', q)) : q ≠ 0 := by
  unfold dupString at h
  rw [if_neg hp] at h
  split at h
  · exact malloc_ne hA (Option.some.inj h)
  · cases h

theorem dupLookups_ok {lookups : Nat} {ps : List Nat} :
    ∀ {i : Nat} {m m' : Mem Obj} {ok : Bool}, (∀ p ∈ ps, p ≠ 0) →
      dupLookups A lookups ps i m = some (m', ok) → ok = true := by
  induction ps with
  | nil =>
    intro i m m' ok _ h
    exact (Prod.mk.inj (Option.some.inj h)).2.symm
  | cons p ps ih =>
    intro i m m' ok hps h
    rw [List.forall_mem_cons] at hps
    obtain ⟨⟨m₁, value⟩, hdup, h⟩ := Option.bind_eq_some_iff.mp h
    dsimp only at h
    split at h
    · obtain ⟨m₂, _, h⟩ := Option.bind_eq_some_iff.mp h
      rw [if_neg (dupString_ne hA hps.1 hdup)] at h
      exact ih hps.2 h
    · cases h

/-- `dup_entry` gives a copy when the array of the names fits into the memory. -/
theorem dupEntry_ne {m m' : Mem Obj} {source : Netconfig} {v : Entry} {names : List Nat}
    {copy : Nat} (he : EntryAt m.heap source v names) (hfits : names.length ≤ maxLookups)
    (h : dupEntry A m source = some (m', copy)) : copy ≠ 0 := by
  unfold dupEntry at h
  rcases h₀ : malloc A m (.entries [some Netconfig.zero]) with ⟨m₀, p⟩
  have hp := malloc_ne hA h₀
  have he := he.mono (malloc_owned h₀).1.extends
  rw [h₀] at h
  dsimp only at h
  rw [if_neg hp, dupString_strAt A he.netid] at h
  rcases h₁ : dupCstr A m₀ v.netid with ⟨m₁, netid⟩
  have he := he.mono (malloc_owned h₁).1.extends
  rw [h₁] at h
  simp only [Option.bind_eq_bind, Option.bind_some, dupString_strAt A he.protofmly] at h
  rcases h₂ : dupCstr A m₁ v.protofmly with ⟨m₂, protofmly⟩
  have he := he.mono (malloc_owned h₂).1.extends
  simp only [h₂, dupString_strAt A he.proto, Option.bind_some] at h
  rcases h₃ : dupCstr A m₂ v.proto with ⟨m₃, proto⟩
  have he := he.mono (malloc_owned h₃).1.extends
  simp only [h₃, dupString_strAt A he.device, Option.bind_some] at h
  rcases h₄ : dupCstr A m₃ v.device with ⟨m₄, device⟩
  have he := he.mono (malloc_owned h₄).1.extends
  simp only [h₄, malloc_ne hA h₁, malloc_ne hA h₂, malloc_ne hA h₃, malloc_ne hA h₄, or_self,
    if_false] at h
  unfold dupEntryLookups at h
  split at h
  · obtain ⟨m₅, _, h⟩ := Option.bind_eq_some_iff.mp h
    exact (Prod.mk.inj (Option.some.inj h)).2 ▸ hp
  · next hn =>
    have hsize : sizeMulOk source.nlookups 8 = some (source.nlookups * 8) :=
      sizeMulOk_of_lt (by unfold maxLookups at hfits; rw [he.nlookups]; omega)
    rw [hsize] at h
    dsimp only at h
    rcases h₅ : malloc A m₄ (.slots (List.replicate (source.nlookups * 8 / 8) (some 0))) with
      ⟨m₅, lookups⟩
    have he := he.mono (malloc_owned h₅).1.extends
    have hl : source.lookups ≠ 0 := by
      intro h0
      rcases he.lookups with ⟨_, hnil⟩ | ⟨hne, _⟩
      · exact hn (by rw [he.nlookups, hnil, List.length_nil])
      · exact hne h0
    rw [h₅] at h
    dsimp only at h
    rw [if_neg (malloc_ne hA h₅), he.lookups.readSlots hl] at h
    simp only [Option.bind_eq_bind, Option.bind_some] at h
    obtain ⟨⟨m₆, ok⟩, hdup, h⟩ := Option.bind_eq_some_iff.mp h
    rw [dupLookups_ok hA he.strs.ne hdup] at h
    obtain ⟨m₇, _, h⟩ := Option.bind_eq_some_iff.mp h
    exact (Prod.mk.inj (Option.some.inj h)).2 ▸ hp

/-! ## Parsing a line -/

theorem realloc_ne {m m' : Mem Obj} {p q : Nat} {init : Obj} {resize : Obj → Obj}
    (h : realloc A m p init resize = some (m', q)) : q ≠ 0 := by
  unfold realloc at h
  split at h
  · exact malloc_ne hA (Option.some.inj h)
  · obtain ⟨b, _, hres⟩ := Option.map_eq_some_iff.mp h
    rw [if_neg (by rw [hA]; exact Bool.false_ne_true)] at hres
    obtain ⟨_, rfl⟩ := Prod.mk.inj hres
    exact A.place_ne_null _ _

/-- The capacities that the doubling goes through. -/
def LookupsCapOk (w : Lookups) : Prop := w.cap = 0 ∨ ∃ k, w.cap = 4 * 2 ^ k

theorem growLookups_ok {w w' : Lookups} {ok : Bool} (hc : LookupsCapOk w)
    (hcap : w.cap < maxLookups) (h : growLookups A w = some (w', ok)) :
    ok = true ∧ w'.count = w.count ∧ LookupsCapOk w' := by
  have hnew : (if w.cap = 0 then 4 else w.cap * 2 % 2 ^ 64) ≤ maxLookups ∧
      ∃ k, (if w.cap = 0 then 4 else w.cap * 2 % 2 ^ 64) = 4 * 2 ^ k := by
    unfold maxLookups at hcap ⊢
    rcases hc with h0 | ⟨k, hk⟩
    · rw [if_pos h0]
      exact ⟨by omega, 0, rfl⟩
    · have hlt : k < 58 := by
        by_contra hge
        have hpow : 2 ^ 58 ≤ 2 ^ k := Nat.pow_le_pow_right (by omega) (by omega)
        omega
      have hpow : 2 ^ k ≤ 2 ^ 57 := Nat.pow_le_pow_right (by omega) (by omega)
      have hpos := Nat.two_pow_pos k
      rw [if_neg (by omega), Nat.mod_eq_of_lt (by omega)]
      exact ⟨by omega, k + 1, by rw [Nat.pow_succ]; omega⟩
  unfold growLookups at h
  dsimp only at h
  generalize (if w.cap = 0 then 4 else w.cap * 2 % 2 ^ 64) = newCap at hnew h
  have hsize : sizeMulOk newCap 8 = some (newCap * 8) := by
    unfold maxLookups at hnew
    exact sizeMulOk_of_lt (by omega)
  rw [hsize] at h
  obtain ⟨⟨m, p⟩, hr, hres⟩ := Option.map_eq_some_iff.mp h
  dsimp only at hres
  rw [if_neg (realloc_ne hA hr)] at hres
  obtain ⟨rfl, rfl⟩ := Prod.mk.inj hres
  exact ⟨rfl, rfl, .inr hnew.2⟩

theorem addLookup_ok {w w' : Lookups} {segment : List UInt8} {ok : Bool}
    (hcount : w.count < maxLookups) (hc : LookupsCapOk w)
    (h : addLookup A segment w = some (w', ok)) :
    ok = true ∧ w'.count = w.count + 1 ∧ LookupsCapOk w' := by
  unfold addLookup at h
  obtain ⟨⟨w₁, ok₁⟩, hroom, h⟩ := Option.bind_eq_some_iff.mp h
  have hgrown : ok₁ = true ∧ w₁.count = w.count ∧ LookupsCapOk w₁ := by
    split at hroom
    · next hfull => exact growLookups_ok hA hc (hfull ▸ hcount) hroom
    · obtain ⟨rfl, rfl⟩ := Prod.mk.inj (Option.some.inj hroom)
      exact ⟨rfl, rfl, hc⟩
  obtain ⟨rfl, hcount₁, hc₁⟩ := hgrown
  rcases hd : dupCstr A w₁.mem segment with ⟨m, value⟩
  simp only [Bool.not_true, Bool.false_eq_true, if_false, hd, if_neg (malloc_ne hA hd)] at h
  split at h
  · obtain ⟨m', _, h⟩ := Option.bind_eq_some_iff.mp h
    obtain ⟨rfl, rfl⟩ := Prod.mk.inj (Option.some.inj h)
    exact ⟨rfl, congrArg Nat.succ hcount₁, hc₁⟩
  · cases h

theorem addLookups_ok {segments : List (List UInt8)} : ∀ {w w' : Lookups} {ok : Bool},
    w.count + segments.length ≤ maxLookups → LookupsCapOk w →
    addLookups A segments w = some (w', ok) → ok = true := by
  induction segments with
  | nil =>
    intro w w' ok _ _ h
    exact (Prod.mk.inj (Option.some.inj h)).2.symm
  | cons segment segments ih =>
    intro w w' ok hcount hc h
    rw [List.length_cons] at hcount
    obtain ⟨⟨w₁, ok₁⟩, hadd, h⟩ := Option.bind_eq_some_iff.mp h
    obtain ⟨rfl, hcount₁, hc₁⟩ := addLookup_ok hA (by omega) hc hadd
    exact ih (by omega) hc₁ h

theorem parseLookups_ok {m m' : Mem Obj} {token : List UInt8} {r : Option (Nat × Nat)}
    (hsize : (lookupNames token).length ≤ maxLookups)
    (h : parseLookups A m token = some (m', r)) : r.isSome = true := by
  unfold parseLookups at h
  unfold lookupNames at hsize
  split at h
  · obtain ⟨_, rfl⟩ := Prod.mk.inj (Option.some.inj h)
    rfl
  · next hdash =>
    rw [if_neg hdash] at hsize
    rcases hd : dupCstr A m token with ⟨m₁, work⟩
    rw [hd] at h
    dsimp only at h
    rw [if_neg (malloc_ne hA hd)] at h
    obtain ⟨⟨w, ok⟩, hadd, h⟩ := Option.bind_eq_some_iff.mp h
    obtain rfl := addLookups_ok hA (by rw [Nat.zero_add]; exact hsize) (.inl rfl) hadd
    dsimp only at h
    rw [if_pos rfl] at h
    obtain ⟨m₂, _, h⟩ := Option.bind_eq_some_iff.mp h
    obtain ⟨_, rfl⟩ := Prod.mk.inj (Option.some.inj h)
    rfl

/-- A line with a value is parsed when the array of the names fits into the memory. -/
theorem parseNetconfigLine_ok {m m' : Mem Obj} {line : List UInt8} {e : Netconfig} {v : Entry}
    {ok : Bool} (hv : parseLine line = some v) (hsize : v.lookups.length ≤ maxLookups)
    (h : parseNetconfigLine A m line = some (m', e, ok)) : ok = true := by
  unfold parseLine at hv
  unfold parseNetconfigLine at h
  split at h
  · next f0 f1 f2 f3 f4 f5 f6 _ heq =>
    rw [heq] at hv
    dsimp only at hv
    split at hv
    · next semantics flag hsem hflag =>
      obtain rfl := Option.some.inj hv
      unfold parseFields at h
      rcases h₁ : dupCstr A m f0 with ⟨m₁, netid⟩
      rcases h₂ : dupCstr A m₁ f3 with ⟨m₂, protofmly⟩
      rcases h₃ : dupCstr A m₂ f4 with ⟨m₃, proto⟩
      rcases h₄ : dupCstr A m₃ f5 with ⟨m₄, device⟩
      simp only [h₁, h₂, h₃, h₄, malloc_ne hA h₁, malloc_ne hA h₂, malloc_ne hA h₃,
        malloc_ne hA h₄, or_self, if_false, hsem, hflag] at h
      obtain ⟨⟨m₅, r⟩, hlookups, h⟩ := Option.bind_eq_some_iff.mp h
      obtain ⟨p, rfl⟩ := Option.isSome_iff_exists.mp (parseLookups_ok hA hsize hlookups)
      obtain ⟨_, h⟩ := Prod.mk.inj (Option.some.inj h)
      exact (Prod.mk.inj h).2.symm
    · cases hv
  · next hne =>
    split at hv
    · next heq => exact absurd heq (hne _ _ _ _ _ _ _ _)
    · cases hv

/-! ## Appending an entry -/

/-- The entries that an array doubled from eight on has room for. -/
def maxEntries : Nat := 2 ^ 56

/-- The capacities that the doubling goes through. -/
def CapOk (s : Nc) : Prop := s.gEntryCap = 0 ∨ ∃ k, s.gEntryCap = 8 * 2 ^ k

omit hA in
/-- A table never has more entries than that. -/
theorem Table.length_le {base : Heap Obj} {s : Nc} {rs : List Row} (t : Table base s rs)
    (hc : CapOk s) : rs.length ≤ maxEntries := by
  obtain ⟨junk, _, hcap⟩ := t.cells
  have hbound := t.bound
  rw [List.length_append, List.length_map, List.length_map] at hcap
  unfold maxEntries
  rcases hc with h0 | ⟨k, hk⟩
  · omega
  · have hlt : k < 54 := by
      by_contra hge
      have hpow : 2 ^ 54 ≤ 2 ^ k := Nat.pow_le_pow_right (by omega) (by omega)
      unfold sizeofNetconfig at hbound
      omega
    have hpow : 2 ^ k ≤ 2 ^ 53 := Nat.pow_le_pow_right (by omega) (by omega)
    omega

omit hA in
theorem growEntries_capOk {s s' : Nc} {ok : Bool} (hbound : s.gEntryCap * sizeofNetconfig < 2 ^ 64)
    (hc : CapOk s) (h : growEntries A s = some (s', ok)) : CapOk s' := by
  have hnew : ∃ k, (if s.gEntryCap = 0 then 8 else s.gEntryCap * 2 % 2 ^ 64) = 8 * 2 ^ k := by
    unfold sizeofNetconfig at hbound
    rcases hc with h0 | ⟨k, hk⟩
    · exact ⟨0, by rw [if_pos h0]; rfl⟩
    · refine ⟨k + 1, ?_⟩
      have hpos := Nat.two_pow_pos k
      rw [if_neg (by omega), Nat.mod_eq_of_lt (by omega), Nat.pow_succ]
      omega
  unfold growEntries at h
  dsimp only at h
  generalize (if s.gEntryCap = 0 then 8 else s.gEntryCap * 2 % 2 ^ 64) = newCap at hnew h
  split at h
  · obtain ⟨rfl, _⟩ := Prod.mk.inj (Option.some.inj h)
    exact hc
  · obtain ⟨⟨m, p⟩, _, hres⟩ := Option.map_eq_some_iff.mp h
    dsimp only at hres
    split at hres <;> obtain ⟨rfl, _⟩ := Prod.mk.inj hres
    · exact hc
    · exact .inr hnew

theorem growEntries_ok {s s' : Nc} {ok : Bool} (hc : CapOk s) (hcap : s.gEntryCap < maxEntries)
    (h : growEntries A s = some (s', ok)) : ok = true := by
  have hnew : (if s.gEntryCap = 0 then 8 else s.gEntryCap * 2 % 2 ^ 64) ≤ maxEntries := by
    unfold maxEntries at hcap ⊢
    rcases hc with h0 | ⟨k, hk⟩
    · rw [if_pos h0]
      omega
    · have hlt : k < 53 := by
        by_contra hge
        have hpow : 2 ^ 53 ≤ 2 ^ k := Nat.pow_le_pow_right (by omega) (by omega)
        omega
      have hpow : 2 ^ k ≤ 2 ^ 52 := Nat.pow_le_pow_right (by omega) (by omega)
      split <;> omega
  unfold growEntries at h
  dsimp only at h
  generalize (if s.gEntryCap = 0 then 8 else s.gEntryCap * 2 % 2 ^ 64) = newCap at hnew h
  have hsize : sizeMulOk newCap sizeofNetconfig = some (newCap * sizeofNetconfig) := by
    unfold maxEntries at hnew
    exact sizeMulOk_of_lt (by unfold sizeofNetconfig; omega)
  rw [hsize] at h
  obtain ⟨⟨m, p⟩, hr, hres⟩ := Option.map_eq_some_iff.mp h
  dsimp only at hres
  rw [if_neg (realloc_ne hA hr)] at hres
  exact (Prod.mk.inj hres).2.symm

theorem appendGlobalEntry_ok {base : Heap Obj} {s s' : Nc} {rs : List Row} {e : Netconfig}
    {ok : Bool} (t : Table base s rs) (hc : CapOk s)
    (h : appendGlobalEntry A s e = some (s', ok)) :
    CapOk s' ∧ (rs.length < maxEntries → ok = true) := by
  unfold appendGlobalEntry at h
  obtain ⟨⟨s₁, ok₁⟩, hroom, h⟩ := Option.bind_eq_some_iff.mp h
  have hgrown : CapOk s₁ ∧ (rs.length < maxEntries → ok₁ = true) := by
    split at hroom
    · next hfull =>
      refine ⟨growEntries_capOk t.bound hc hroom, fun hlt => growEntries_ok hA hc ?_ hroom⟩
      rw [← hfull, t.count]
      exact hlt
    · obtain ⟨rfl, rfl⟩ := Prod.mk.inj (Option.some.inj hroom)
      exact ⟨hc, fun _ => rfl⟩
  dsimp only at h
  cases ok₁ with
  | false =>
    obtain ⟨rfl, rfl⟩ := Prod.mk.inj (Option.some.inj h)
    exact hgrown
  | true =>
    rw [Bool.not_true, if_neg Bool.false_ne_true] at h
    split at h
    · obtain ⟨m, _, h⟩ := Option.bind_eq_some_iff.mp h
      obtain ⟨rfl, rfl⟩ := Prod.mk.inj (Option.some.inj h)
      exact ⟨hgrown.1, fun _ => rfl⟩
    · cases h

/-- A line with a value becomes an entry as long as there is room. -/
theorem loadLine_ok {base : Heap Obj} {s s' : Nc} {rs : List Row} {line : List UInt8} {ok : Bool}
    (hline : line.length < 2 ^ 55) (t : Table base s rs) (hc : CapOk s)
    (h : loadLine A line s = some (s', ok)) :
    CapOk s' ∧ ((parseLine line).isSome = true → rs.length < maxEntries → ok = true) := by
  unfold loadLine at h
  obtain ⟨m₁, e, ok₁, hp, hres⟩ := parseNetconfigLine_spec A s.mem line
  rw [hp] at h
  simp only [Option.bind_eq_bind, Option.bind_some] at h
  rcases hres with ⟨rfl, v, names, _, he, o⟩ | ⟨rfl, hheap⟩
  · obtain ⟨h₁, _, t₁⟩ := t.over o
    rw [Bool.not_true, if_neg Bool.false_ne_true] at h
    obtain ⟨⟨s₂, ok₂⟩, happend, h⟩ := Option.bind_eq_some_iff.mp h
    obtain ⟨hc₂, hok⟩ := appendGlobalEntry_ok hA t₁ hc happend
    dsimp only at h
    cases ok₂ with
    | true =>
      obtain ⟨rfl, rfl⟩ := Prod.mk.inj (Option.some.inj h)
      exact ⟨hc₂, fun _ _ => rfl⟩
    | false =>
      rw [if_neg Bool.false_ne_true] at h
      obtain ⟨m, _, h⟩ := Option.bind_eq_some_iff.mp h
      obtain ⟨rfl, rfl⟩ := Prod.mk.inj (Option.some.inj h)
      exact ⟨hc₂, fun _ hlt => absurd (hok hlt) Bool.false_ne_true⟩
  · rw [Bool.not_false, if_pos rfl] at h
    obtain ⟨rfl, rfl⟩ := Prod.mk.inj (Option.some.inj h)
    refine ⟨hc, fun hv _ => ?_⟩
    obtain ⟨v, hv⟩ := Option.isSome_iff_exists.mp hv
    have hsize : v.lookups.length ≤ maxLookups := by
      have := length_lookups_le hv
      unfold maxLookups
      omega
    exact parseNetconfigLine_ok hA hv hsize hp

end Librecompat.Netconfig
