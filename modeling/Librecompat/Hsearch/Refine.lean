/-
  `hsearch_r` is a finite map of bounded size.

  `apply` is what a call means: a map keeps the entry first entered under a key, and takes at most
  `size` entries. `Stores htab m` connects a table with the map. `hsearchR_stores` is the step
  lemma; `hsearch_bounded_map` is about any sequence of calls after `hcreate_r`.
-/
import Librecompat.Hsearch.Search
import Librecompat.Lib.Run

namespace Librecompat.Hsearch

open Librecompat.Lib

/-! ## The map -/

/-- A call of `hsearch_r` with the memory that the keys are in at that time. -/
structure Call where
  str : Nat → CString
  item : Entry
  action : Action

structure Answer where
  ret : Int
  errno : Option Errno
  entry : Option Entry
  deriving DecidableEq

/-- What a call means for a map that holds at most `size` entries. -/
def apply (size : Nat) (m : Map) (c : Call) : Map × Answer :=
  let key := c.str c.item.key
  match m.lookup key, c.action with
  | some e, _ => (m, { ret := 1, errno := none, entry := some e })
  | none, .find => (m, { ret := 0, errno := some ESRCH, entry := none })
  | none, .enter =>
    if m.length < size then
      (m ++ [(key, c.item)], { ret := 1, errno := none, entry := some c.item })
    else (m, { ret := 0, errno := some ENOMEM, entry := none })

theorem lookup_of_mem {m : Map} (hm : (m.map Prod.fst).Nodup) {key : CString} {e : Entry}
    (h : (key, e) ∈ m) : m.lookup key = some e := by
  obtain ⟨l₁, l₂, rfl⟩ := List.append_of_mem h
  refine List.lookup_eq_some_iff.mpr ⟨l₁, l₂, rfl, fun p hp => ?_⟩
  rw [List.map_append, List.map_cons, List.nodup_append] at hm
  rw [bne_iff_ne]
  exact (hm.2.2 p.1 (List.mem_map_of_mem hp) key List.mem_cons_self).symm

theorem lookup_eq_none {m : Map} {key : CString} (h : ∀ p ∈ m, p.1 ≠ key) :
    m.lookup key = none := by
  refine List.lookup_eq_none_iff.mpr fun p hp => ?_
  rw [bne_iff_ne]
  exact (h p hp).symm

/-! ## Slots in use -/

/-- The number of slots in use. -/
def usedSlots (table : List Slot) : Nat := table.countP fun slot => slot.used ≠ 0

variable {size : UInt32} {table : List Slot} {m : Map} {T : Nat → Option CString}
  {str : Nat → CString}

theorem Table.slotAt (h : Table size table m T) {i : Nat} (hi : i ≤ size.toNat) :
    ∃ slot, table[i]? = some slot ∧ (slot.used ≠ 0 ↔ T i ≠ none) := by
  obtain ⟨slot, hslot⟩ := h.get hi
  exact ⟨slot, hslot, h.used_iff hslot⟩

/-- Slot 0 is never used, so that all slots in use are the ones from 1 on. -/
theorem Table.usedSlots_eq_iff (h : Table size table m T) : usedSlots table ≤ size.toNat ∧
    (usedSlots table = size.toNat ↔ ∀ i, 1 ≤ i → i ≤ size.toNat → T i ≠ none) := by
  have hlen := h.length
  have hzero : ∀ slot, table[0]? = some slot → ¬ slot.used ≠ 0 := by
    intro slot hslot hu
    have := (h.range 0 ((h.used_iff hslot).mp hu)).1
    omega
  have hused := @Table.used_iff _ _ _ _ h
  cases table with
  | nil => exact absurd hlen (by simp)
  | cons slot rest =>
    have hcount : usedSlots (slot :: rest) = rest.countP fun slot => slot.used ≠ 0 :=
      List.countP_cons_of_neg (by simpa using hzero slot rfl)
    have hrest : rest.length = size.toNat := by simpa using hlen
    rw [hcount, ← hrest]
    refine ⟨List.countP_le_length, List.countP_eq_length.trans ⟨fun hall i h1 hi => ?_,
      fun hall slot' hmem => ?_⟩⟩
    · obtain ⟨i, rfl⟩ := Nat.exists_eq_add_of_le' h1
      have hi : i < rest.length := by omega
      have hiff : rest[i].used ≠ 0 ↔ T (i + 1) ≠ none := hused (List.getElem?_eq_getElem (by simpa))
      exact hiff.mp (by simpa using hall _ (List.getElem_mem hi))
    · obtain ⟨i, hi, rfl⟩ := List.getElem_of_mem hmem
      have hiff : rest[i].used ≠ 0 ↔ T (i + 1) ≠ none := hused (List.getElem?_eq_getElem (by simpa))
      simpa using hiff.mpr (hall (i + 1) (by omega) (by omega))

theorem usedSlots_set {i : Nat} {slot slot' : Slot} (hslot : table[i]? = some slot)
    (hfree : slot.used = 0) (hused : slot'.used ≠ 0) :
    usedSlots (table.set i slot') = usedSlots table + 1 := by
  obtain ⟨hi, rfl⟩ := List.getElem?_eq_some_iff.mp hslot
  unfold usedSlots
  rw [List.countP_set hi]
  simp [hfree, hused]

/-! ## One call -/

/-- A new key goes into the free slot where its search ends. -/
theorem Table.insert (h : Table size table m T) {key : CString} {item : Entry} {idx j : Nat}
    (hidx : probe size.toNat key j = idx) (hfree : T idx = none)
    (hway : ∀ l < j, T (probe size.toNat key l) ≠ none) (hnew : ∀ i, T i ≠ some key) :
    Table size (table.set idx { used := hashValue key, entry := item }) (m ++ [(key, item)])
      (Function.update T idx (some key)) := by
  have hrange := probe_range h.sizeOk key j
  refine ⟨h.sizeOk, by rw [List.length_set, h.length], fun i hi => ?_, fun i slot hslot => ?_,
    hidx ▸ h.addressed.insert hway hnew, fun p hp => ?_, ?_⟩
  · rcases eq_or_ne i idx with rfl | hne
    · exact hidx ▸ hrange
    · exact h.range i (by rwa [Function.update_of_ne hne] at hi)
  · rcases eq_or_ne i idx with rfl | hne
    · rw [List.getElem?_set_self (by rw [h.length]; omega)] at hslot
      obtain rfl := Option.some.inj hslot
      exact .inr ⟨key, Function.update_self .., rfl, by simp⟩
    · rw [List.getElem?_set_ne hne.symm] at hslot
      rw [Function.update_of_ne hne]
      refine (h.slot i slot hslot).imp id fun ⟨key', hT, hused, hmem⟩ => ?_
      exact ⟨key', hT, hused, List.mem_append_left _ hmem⟩
  · rcases List.mem_append.mp hp with hp | hp
    · obtain ⟨i, hi⟩ := h.stored p hp
      rcases eq_or_ne i idx with rfl | hne
      · exact absurd (hi.symm.trans hfree) (Option.some_ne_none _)
      · exact ⟨i, by rwa [Function.update_of_ne hne]⟩
    · obtain rfl := List.mem_singleton.mp hp
      exact ⟨idx, Function.update_self ..⟩
  · rw [List.map_append, List.map_singleton, List.nodup_append]
    refine ⟨h.nodup, List.nodup_singleton _, fun k hk k' hk' heq => ?_⟩
    obtain ⟨p, hp, rfl⟩ := List.mem_map.mp hk
    obtain ⟨i, hi⟩ := h.stored p hp
    exact hnew i (by rw [hi, heq, List.mem_singleton.mp hk'])

/-- The table stores the entries of the map, and `filled` counts them. -/
def Stores (htab : HsearchData) (m : Map) : Prop :=
  ∃ table T, htab.table = some table ∧ Table htab.size table m T ∧
    htab.filled.toNat = m.length ∧ usedSlots table = m.length

theorem Created.stores {htab : HsearchData} (h : Created htab) : Stores htab [] := by
  refine ⟨_, fun _ => none, h.table, ⟨⟨h.prime, h.three, h.le⟩, List.length_replicate,
    fun i hi => absurd rfl hi, fun i slot hslot => .inl ⟨rfl, ?_⟩, addressed_empty, nofun,
    List.nodup_nil⟩, by rw [h.filled]; rfl, by simp [usedSlots]⟩
  rw [List.eq_of_mem_replicate (List.mem_of_getElem? hslot)]

/-- The search and what `hsearch_r` makes of its end. -/
theorem hsearchR_ends {htab : HsearchData} (htable : htab.table = some table)
    (h : Table htab.size table m T) (hstr : Unchanged str m) (item : Entry) (action : Action) :
    ∃ p, Ends htab.size T (str item.key) p ∧ hsearchR str item action htab =
      match p, action with
      | .found idx, _ => some { htab := htab, ret := 1, errno := none, retval := some idx.toNat }
      | .bucket idx, .enter =>
        if htab.filled = htab.size then
          some { htab := htab, ret := 0, errno := some ENOMEM, retval := none }
        else
          some { htab := { htab with
                           table := some (table.set idx.toNat
                             { used := hashValue (str item.key), entry := item }),
                           filled := htab.filled + 1 },
                 ret := 1, errno := none, retval := some idx.toNat }
      | .bucket _, .find => some { htab := htab, ret := 0, errno := some ESRCH, retval := none } := by
  have hfirst := firstIdx_toNat h.sizeOk (str item.key)
  have hrange := probe_range h.sizeOk (str item.key) 0
  rw [← hfirst] at hrange
  obtain ⟨slot, hslot, hused⟩ := h.slotAt hrange.2
  unfold hsearchR
  rw [htable]
  simp only [Option.bind_eq_bind, Option.bind_some, hslot]
  generalize hashValue (str item.key) % htab.size + 1 = idx at hfirst hslot hused ⊢
  by_cases hfree : T idx.toNat = none
  · rw [if_neg fun hu => hused.mp hu hfree]
    have hnone : ∀ l < 0, T (probe htab.size.toNat (str item.key) l) ≠ some (str item.key) :=
      fun l hl => absurd hl (Nat.not_lt_zero l)
    refine ⟨.bucket idx, ⟨h.addressed.absent (hfirst ▸ hfree) hnone, .inl ⟨hfree, 0, hfirst.symm,
      fun l hl => absurd hl (Nat.not_lt_zero l)⟩⟩, ?_⟩
    cases action <;> rfl
  · rw [if_pos (hused.mpr hfree)]
    by_cases hkey : T idx.toNat = some (str item.key)
    · rw [if_pos ((h.match_iff hstr hslot _).mpr hkey)]
      exact ⟨.found idx, hkey, rfl⟩
    · rw [if_neg fun hm => hkey ((h.match_iff hstr hslot _).mp hm)]
      obtain ⟨p, hp, hends⟩ := probe_loop h hstr (str item.key) hfirst htab.size.toNat 0 idx
        (Nat.zero_add _) h.sizeOk.prime.pos hfirst fun l hl => by
          obtain rfl := Nat.le_zero.mp hl
          exact ⟨hfirst ▸ hfree, hfirst ▸ hkey⟩
      rw [hp]
      refine ⟨p, hends, ?_⟩
      cases p <;> cases action <;> rfl

/-- The outcome of a call as the caller sees it. -/
def Result.answer (r : Result) : Answer := { ret := r.ret, errno := r.errno, entry := r.entry }

/-- Step lemma: a call gives the answer of the map and stores what the map stores. -/
theorem hsearchR_stores {htab : HsearchData} {m : Map} (h : Stores htab m) (c : Call)
    (hstr : Unchanged c.str m) :
    ∃ r, hsearchR c.str c.item c.action htab = some r ∧ r.htab.size = htab.size ∧
      r.answer = (apply htab.size.toNat m c).2 ∧
      Stores r.htab (apply htab.size.toNat m c).1 := by
  obtain ⟨table, T, htable, hT, hfilled, hused⟩ := id h
  obtain ⟨p, hends, hcall⟩ := hsearchR_ends htable hT hstr c.item c.action
  have hle := hT.sizeOk.le
  rw [hcall]
  unfold apply
  dsimp only
  cases p with
  | found idx =>
    obtain ⟨slot, hslot, _⟩ := hT.slotAt (hT.range _ (hends ▸ Option.some_ne_none _)).2
    have hlook : m.lookup (c.str c.item.key) = some slot.entry := by
      rcases hT.slot _ slot hslot with ⟨hnone, _⟩ | ⟨key, hkey, _, hmem⟩
      · exact absurd (hends.symm.trans hnone) (Option.some_ne_none _)
      · obtain rfl := Option.some.inj (hends.symm.trans hkey)
        exact lookup_of_mem hT.nodup hmem
    have hentry : ∀ r : Result, r.retval = some idx.toNat → r.htab = htab →
        r.entry = some slot.entry := by
      intro r hr hhtab
      simp [Result.entry, hr, hhtab, htable, hslot]
    rw [hlook]
    refine ⟨_, rfl, rfl, ?_, h⟩
    rw [Result.answer, hentry _ rfl rfl]
  | bucket idx =>
    obtain ⟨hnew, hend⟩ := hends
    have hlook : m.lookup (c.str c.item.key) = none := lookup_eq_none fun p hp heq => by
      obtain ⟨i, hi⟩ := hT.stored p hp
      exact hnew i (heq ▸ hi)
    obtain ⟨hcount, hfull⟩ := hT.usedSlots_eq_iff
    rw [hused] at hcount hfull
    have hfilled_iff : htab.filled = htab.size ↔ m.length = htab.size.toNat := by
      rw [← UInt32.toNat_inj, hfilled]
    rw [hlook]
    cases haction : c.action with
    | find => exact ⟨_, rfl, rfl, rfl, h⟩
    | enter =>
      dsimp only
      rcases hend with ⟨hfree, j, hidx, hway⟩ | hall
      · have hrange := probe_range hT.sizeOk (c.str c.item.key) j
        rw [hidx] at hrange
        have hlt : m.length < htab.size.toNat := by
          refine Nat.lt_of_le_of_ne hcount fun heq => ?_
          exact hfull.mp heq _ hrange.1 hrange.2 hfree
        obtain ⟨slot, hslot, hiff⟩ := hT.slotAt hrange.2
        have hunused : slot.used = 0 := Classical.not_not.mp fun hne => hiff.mp hne hfree
        have hcount' : usedSlots (table.set idx.toNat ⟨hashValue (c.str c.item.key), c.item⟩) =
            usedSlots table + 1 :=
          usedSlots_set hslot hunused (hashValue_ne_zero _)
        rw [if_neg fun heq => Nat.ne_of_lt hlt (hfilled_iff.mp heq), if_pos hlt]
        refine ⟨_, rfl, rfl, ?_, _, _, rfl, hT.insert hidx hfree hway hnew, ?_, ?_⟩
        · have hi : idx.toNat < table.length := (List.getElem?_eq_some_iff.mp hslot).1
          simp [Result.answer, Result.entry, hi]
        · rw [List.length_append, List.length_singleton, ← hfilled, UInt32.toNat_add]
          show (htab.filled.toNat + 1) % 2 ^ 32 = _
          omega
        · rw [hcount', hused, List.length_append, List.length_singleton]
      · have heq := hfull.mpr hall
        rw [if_pos (hfilled_iff.mpr heq), if_neg (by omega)]
        exact ⟨_, rfl, rfl, rfl, h⟩

/-! ## Any sequence of calls -/

/-- One call on the table and on the map next to each other. -/
def exec (size : Nat) (s : HsearchData × Map) (c : Call) : Option (HsearchData × Map) :=
  (hsearchR c.str c.item c.action s.1).map fun r => (r.htab, (apply size s.2 c).1)

/-- Run theorem: after any calls on a table made by `hcreate_r`, all with the stored keys still in
    place, `filled` is the number of slots in use and of entries stored, and the next call, which
    ends, answers as the map does. -/
theorem hsearch_bounded_map (nel : UInt64) (callocOk : Bool) (htab₀ : Option HsearchData)
    (htab : HsearchData) (errno : Option Errno)
    (hcreate : hcreateR nel callocOk htab₀ = some (some htab, 1, errno)) (calls : List Call)
    (hok : Legal (exec htab.size.toNat) (fun s c => Unchanged c.str s.2) (htab, []) calls) :
    htab.size.toNat.Prime ∧
    ∃ htab' m table, run (exec htab.size.toNat) (htab, []) calls = some (htab', m) ∧
      htab'.size = htab.size ∧ htab'.table = some table ∧
      htab'.filled.toNat = usedSlots table ∧ htab'.filled.toNat = m.length ∧
      m.length ≤ htab.size.toNat ∧ (m.map Prod.fst).Nodup ∧
      ∀ c : Call, Unchanged c.str m → ∃ r, hsearchR c.str c.item c.action htab' = some r ∧
        r.answer = (apply htab.size.toNat m c).2 := by
  have hnew := hcreateR_created hcreate
  have hstep : ∀ (s : HsearchData × Map) (c : Call),
      (s.1.size = htab.size ∧ Stores s.1 s.2) → Unchanged c.str s.2 →
      ∃ s', exec htab.size.toNat s c = some s' ∧ s'.1.size = htab.size ∧ Stores s'.1 s'.2 := by
    rintro ⟨htab₁, m⟩ c ⟨hsize, h⟩ hstr
    obtain ⟨r, hr, hsize', -, hstores⟩ := hsearchR_stores h c hstr
    rw [hsize] at hsize' hstores
    exact ⟨_, by rw [exec, hr]; rfl, hsize', hstores⟩
  obtain ⟨⟨htab', m⟩, hrun, hsize, h⟩ := run_inv hstep ⟨rfl, hnew.stores⟩ hok
  obtain ⟨table, T, htable, hT, hfilled, hused⟩ := id h
  have hle := hT.usedSlots_eq_iff.1
  dsimp only at hsize
  rw [hused, hsize] at hle
  refine ⟨hnew.prime, htab', m, table, hrun, hsize, htable, hfilled.trans hused.symm, hfilled,
    hle, hT.nodup, fun c hstr => ?_⟩
  obtain ⟨r, hr, -, hans, -⟩ := hsearchR_stores h c hstr
  rw [hsize] at hans
  exact ⟨r, hr, hans⟩

instance decidableUnchanged (str : Nat → CString) (m : Map) : Decidable (Unchanged str m) :=
  inferInstanceAs (Decidable (∀ p ∈ m, str p.2.key = p.1))

/-- Two keys that are entered in a table of size 3, the first one twice. -/
theorem hsearch_bounded_map_twice :
    ∃ htab' m table, run (exec 3)
        ({ table := some (List.replicate 4 ⟨0, ⟨0, 0⟩⟩), size := 3, filled := 0 }, [])
        [⟨fun _ => ⟨[97], by decide⟩, ⟨1, 5⟩, .enter⟩,
          ⟨fun p => if p = 1 then ⟨[97], by decide⟩ else ⟨[98, 99], by decide⟩, ⟨2, 6⟩, .enter⟩,
          ⟨fun p => if p = 2 then ⟨[98, 99], by decide⟩ else ⟨[97], by decide⟩, ⟨3, 7⟩, .enter⟩] =
        some (htab', m) ∧
      htab'.table = some table ∧ htab'.filled.toNat = usedSlots table ∧
      htab'.filled.toNat = m.length := by
  obtain ⟨-, htab', m, table, hrun, -, htable, hfilled, hlen, -⟩ :=
    hsearch_bounded_map 3 true (some ⟨none, 0, 0⟩) ⟨some (List.replicate 4 ⟨0, ⟨0, 0⟩⟩), 3, 0⟩ none
      (by decide +kernel)
      [⟨fun _ => ⟨[97], by decide⟩, ⟨1, 5⟩, .enter⟩,
        ⟨fun p => if p = 1 then ⟨[97], by decide⟩ else ⟨[98, 99], by decide⟩, ⟨2, 6⟩, .enter⟩,
        ⟨fun p => if p = 2 then ⟨[98, 99], by decide⟩ else ⟨[97], by decide⟩, ⟨3, 7⟩, .enter⟩]
      (by decide +kernel)
  exact ⟨htab', m, table, hrun, htable, hfilled, hlen⟩

end Librecompat.Hsearch
