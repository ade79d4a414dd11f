/-
  What the four public functions do to the table.

  Each lemma starts from a table over a base heap (`Table base s rs`) in which either everything
  is loaded or nothing is, and says which table there is afterwards. The handles and the copies
  given to the callers are blocks of the base. `Kept rs s s'` says that the table `rs` of `s` is
  still there in `s'`, block by block.
-/
import Librecompat.Netconfig.Table

namespace Librecompat.Netconfig

open Librecompat.Lib

variable {base : Heap Obj} {s s' s'' : Nc} {rs rs' : List Row} (A : Allocator Obj)

/-- The table `rs` of `s` is unchanged in `s'`. -/
structure Kept (rs : List Row) (s s' : Nc) : Prop where
  table : ∃ base, Table base s rs
  entries : s'.gEntries = s.gEntries
  get : ∀ a ∈ ptrs [s.gEntries] ++ rs.flatMap Row.blocks,
    s'.mem.heap.get a = s.mem.heap.get a

theorem Table.kept (t : Table base s rs) : Kept rs s s := ⟨⟨base, t⟩, rfl, fun _ _ => rfl⟩

theorem Kept.trans (k : Kept rs s s') (k' : Kept rs s' s'') : Kept rs s s'' :=
  ⟨k.table, k'.entries.trans k.entries,
    fun a ha => (k'.get a (k.entries ▸ ha)).trans (k.get a ha)⟩

/-- A nothing-loaded state has no rows, and its whole heap is the base. -/
theorem Empty.of_table (he : Empty s) (t : Table base s rs) : rs = [] ∧ s.mem.heap = base := by
  have hrs : rs = [] := List.length_eq_zero_iff.mp (t.count.symm.trans he.count)
  have ho := t.owned
  rw [he.entries, hrs] at ho
  exact ⟨hrs, ho.heap_eq⟩

theorem Empty.congr (he : Empty s) (hentries : s'.gEntries = s.gEntries)
    (hcount : s'.gEntryCount = s.gEntryCount) (hcap : s'.gEntryCap = s.gEntryCap)
    (hloaded : s'.gLoaded = s.gLoaded) : Empty s' :=
  ⟨hentries.trans he.entries, hcount.trans he.count, hcap.trans he.cap, hloaded.trans he.loaded⟩

/-- A block of the base is not one of the table's. -/
theorem Table.not_block (t : Table base s rs) {a : Nat} {b : Obj} (hb : base.get a = some b) :
    a ∉ ptrs [s.gEntries] ++ rs.flatMap Row.blocks :=
  t.owned.not_mem hb

/-- The table over a base in which one block is written. -/
theorem Table.storeBase (t : Table base s rs) {a : Nat} {b : Obj} (c : Obj)
    (hb : base.get a = some b) :
    ∃ m', store s.mem a c = some m' ∧ Table (base.set a c) { s with mem := m' } rs ∧
      Kept rs s { s with mem := m' } := by
  have hnot := t.not_block hb
  have hget : ∀ q ∈ ptrs [s.gEntries] ++ rs.flatMap Row.blocks,
      (s.mem.heap.set a c).get q = s.mem.heap.get q := fun q hq =>
    Heap.get_set_ne _ _ fun heq => hnot (heq ▸ hq)
  exact ⟨_, store_live (t.owned.extends _ _ hb), t.move (t.owned.setBase c hnot) hget,
    ⟨base, t⟩, rfl, hget⟩

/-- The table over a base from which one block is freed. -/
theorem Table.freeBase (t : Table base s rs) {a : Nat} {b : Obj} (ha : a ≠ 0)
    (hb : base.get a = some b) :
    ∃ m', free s.mem a = some m' ∧ Table (base.del a) { s with mem := m' } rs ∧
      Kept rs s { s with mem := m' } := by
  have hnot := t.not_block hb
  have hget : ∀ q ∈ ptrs [s.gEntries] ++ rs.flatMap Row.blocks,
      (s.mem.heap.del a).get q = s.mem.heap.get q := fun q hq =>
    Heap.get_del_ne _ fun heq => hnot (heq ▸ hq)
  exact ⟨_, free_live ha (t.owned.extends _ _ hb), t.move (t.owned.delBase hnot) hget,
    ⟨base, t⟩, rfl, hget⟩

/-- What `ensure_entries_loaded_locked` does in any state: it keeps a loaded table, or loads the
    database, or fails and changes nothing. -/
theorem ensure_cases (db : Database) (hc : s.gLoaded = true ∨ Empty s) (t : Table base s rs) :
    ∃ s' ok, ensureEntriesLoaded A db s = some (s', ok) ∧ s'.gRefcount = s.gRefcount ∧
      ((ok = true ∧ s'.gLoaded = true ∧ ∃ rs', Table base s' rs' ∧
          (s.gLoaded = true → s' = s ∧ rs' = rs) ∧
          (s.gLoaded = false → database db = some (rs'.map Row.value))) ∨
       (ok = false ∧ Empty s ∧ Empty s' ∧ s'.mem.heap = s.mem.heap)) := by
  rcases hc with hl | he
  · refine ⟨s, true, ?_, rfl, .inl ⟨rfl, hl, rs, t, fun _ => ⟨rfl, rfl⟩, fun hl' => ?_⟩⟩
    · unfold ensureEntriesLoaded
      rw [if_pos hl]
    · rw [hl] at hl'
      cases hl'
  · obtain ⟨rfl, rfl⟩ := he.of_table t
    obtain ⟨s', ok, h', hload⟩ := ensureEntriesLoaded_spec A db he
    refine ⟨s', ok, h', hload.refcount, ?_⟩
    cases ok with
    | true =>
      obtain ⟨hl', rs', t', hdb⟩ := hload.whole rfl
      refine .inl ⟨rfl, hl', rs', t', fun hl => ?_, fun _ => hdb⟩
      rw [he.loaded] at hl
      cases hl
    | false => exact .inr ⟨rfl, he, hload.none rfl⟩

/-! ## setnetconfig -/

/-- The block of an open handle. -/
def openHandle (i : Nat) : Obj := .handle { magic := NC_HANDLE_MAGIC, index := i }

/-- `setnetconfig` fails and leaves the table as it was, or adds one handle; the table is then
    the loaded one, or the one that the call has loaded. -/
theorem setnetconfig_cases (db : Database) (hc : s.gLoaded = true ∨ Empty s)
    (t : Table base s rs) :
    ∃ s' p, setnetconfig A db s = some (s', p) ∧
      ((p = 0 ∧ s'.gRefcount = s.gRefcount ∧ s'.gLoaded = s.gLoaded ∧ Table base s' rs ∧
          Kept rs s s' ∧ (Empty s → Empty s')) ∨
       (p ≠ 0 ∧ s'.gRefcount = (s.gRefcount + 1) % 2 ^ 32 ∧ s'.gLoaded = true ∧
        base.get p = none ∧ ∃ base' rs', Table base' s' rs' ∧ base'.get p = some (openHandle 0) ∧
          (∀ a, a ≠ p → base'.get a = base.get a) ∧
          (s.gLoaded = true → rs' = rs ∧ Kept rs s s') ∧
          (s.gLoaded = false → database db = some (rs'.map Row.value)))) := by
  unfold setnetconfig
  rcases hm : malloc A s.mem (.handle { magic := 0, index := 0 }) with ⟨m₁, p⟩
  obtain ⟨o, hget⟩ := malloc_owned hm
  dsimp only
  by_cases hp : p = 0
  · rw [hp, ptrs_zero, ptrs_nil] at o
    rw [if_pos hp]
    refine ⟨_, 0, rfl, .inl ⟨rfl, rfl, rfl, t.congr o.heap_eq rfl rfl rfl, ⟨⟨base, t⟩, rfl, ?_⟩,
      fun he => he.congr rfl rfl rfl rfl⟩⟩
    intro a _
    show m₁.heap.get a = s.mem.heap.get a
    rw [o.heap_eq]
  · rw [if_neg hp]
    have hget := hget hp
    rw [ptrs_cons hp, ptrs_nil] at o
    obtain ⟨h₁, o₁, t₁⟩ := t.over o
    have hk₁ : Kept rs s { s with mem := m₁ } :=
      ⟨⟨base, t⟩, rfl, fun a ha => (t.owned.get_eq o ha).symm⟩
    have hp₁ : h₁.get p = some (.handle { magic := 0, index := 0 }) := by
      rw [o₁.get_eq t₁.owned List.mem_cons_self]
      exact hget
    obtain ⟨_, hnone, _⟩ := o₁.fresh p List.mem_cons_self
    have hframe : ∀ a, a ≠ p → h₁.get a = base.get a := fun a ha =>
      o₁.frame a fun hm => ha (List.mem_singleton.mp hm)
    have hc₁ : s.gLoaded = true ∨ Empty { s with mem := m₁ } :=
      hc.imp id fun he => he.congr rfl rfl rfl rfl
    obtain ⟨s₂, ok, h₂, href, hres⟩ := ensure_cases A db hc₁ t₁
    simp only [Option.bind_eq_bind, h₂, Option.bind_some]
    rcases hres with ⟨rfl, hl₂, rs', t₂, hsame, hdb⟩ | ⟨rfl, he₁, he₂, hheap⟩
    · obtain ⟨m₃, hst, t₃, hk₃⟩ := t₂.storeBase (openHandle 0) hp₁
      rw [openHandle] at hst
      simp only [if_true, hst, Option.bind_some]
      refine ⟨_, p, rfl, .inr ⟨hp, by rw [href], hl₂, hnone, h₁.set p (openHandle 0), rs',
        t₃.congr rfl rfl rfl rfl, Heap.get_set_self _ _ _, ?_, fun hl => ?_, hdb⟩⟩
      · intro a ha
        rw [Heap.get_set_ne _ _ ha]
        exact hframe a ha
      · obtain ⟨rfl, rfl⟩ := hsame hl
        exact ⟨rfl, hk₁.trans ⟨hk₃.table, hk₃.entries, hk₃.get⟩⟩
    · -- the load has failed: the handle is freed and nothing is left
      have he : Empty s := he₁.congr rfl rfl rfl rfl
      obtain ⟨rfl, rfl⟩ := he.of_table t
      rw [← hheap, ← ptrs_cons_nil hp, ← List.append_nil (ptrs _)] at o
      obtain ⟨m₃, hfree, o₃, _⟩ := o.free
      have he₃ : Empty { s₂ with mem := m₃ } := he₂.congr rfl rfl rfl rfl
      simp only [Bool.false_eq_true, if_false, hfree, Option.bind_some]
      refine ⟨_, 0, rfl, .inl ⟨rfl, href, he₂.loaded.trans he.loaded.symm, ?_, ?_, fun _ => he₃⟩⟩
      · rw [← o₃.heap_eq]
        exact he₃.table
      · refine ⟨⟨_, t⟩, he₂.entries.trans he.entries.symm, fun a _ => ?_⟩
        show m₃.heap.get a = s.mem.heap.get a
        rw [o₃.heap_eq]

/-! ## getnetconfig -/

/-- `getnetconfig` on an open handle hands out the entry at its index and moves the index on, or
    returns null at the end. The table stays as it is. -/
theorem getnetconfig_open {p i : Nat} (hp : p ≠ 0) (hl : s.gLoaded = true)
    (t : Table base s rs) (hh : base.get p = some (openHandle i)) :
    ∃ s', getnetconfig p s = some (s', if i < rs.length then entryAddr s i else 0) ∧
      s'.gRefcount = s.gRefcount ∧ s'.gLoaded = true ∧ Kept rs s s' ∧
      ∃ base', Table base' s' rs ∧
        base'.get p = some (openHandle (if i < rs.length then i + 1 else i)) ∧
        ∀ a, a ≠ p → base'.get a = base.get a := by
  have hread : readHandle s.mem p = some { magic := NC_HANDLE_MAGIC, index := i } := by
    rw [readHandle, t.owned.extends _ _ hh]
    rfl
  unfold getnetconfig
  rw [if_neg hp, hread]
  simp only [Option.bind_eq_bind, Option.bind_some, ne_eq, not_true, if_false]
  rw [if_neg (by simp [hl]), ← t.count]
  by_cases hi : i < s.gEntryCount
  · obtain ⟨m', hst, t', hk⟩ := t.storeBase (openHandle (i + 1)) hh
    rw [openHandle] at hst
    simp only [if_pos hi, hst, Option.bind_some]
    exact ⟨_, rfl, rfl, hl, hk, _, t', Heap.get_set_self _ _ _,
      fun a ha => Heap.get_set_ne _ _ ha⟩
  · simp only [if_neg hi]
    exact ⟨_, rfl, rfl, hl, t.kept, base, t, hh, fun _ _ => rfl⟩

/-! ## endnetconfig -/

/-- `endnetconfig` on an open handle frees the handle; the table is cleared when the count drops
    to zero and stays as it is otherwise. -/
theorem endnetconfig_open {p i : Nat} (hp : p ≠ 0) (hpos : 0 < s.gRefcount)
    (t : Table base s rs) (hh : base.get p = some (openHandle i)) :
    ∃ s', endnetconfig p s = some (s', 0) ∧ s'.gRefcount = s.gRefcount - 1 ∧
      ∃ base', base'.get p = none ∧ (∀ a, a ≠ p → base'.get a = base.get a) ∧
        ((s'.gRefcount = 0 ∧ Empty s' ∧ s'.mem.heap = base') ∨
         (0 < s'.gRefcount ∧ s'.gLoaded = s.gLoaded ∧ Table base' s' rs ∧ Kept rs s s')) := by
  have hread : readHandle s.mem p = some { magic := NC_HANDLE_MAGIC, index := i } := by
    rw [readHandle, t.owned.extends _ _ hh]
    rfl
  obtain ⟨m₁, hst, t₁, hk₁⟩ := t.storeBase (.handle { magic := 0, index := i }) hh
  have hself : (base.set p (.handle { magic := 0, index := i })).get p =
      some (.handle { magic := 0, index := i }) := Heap.get_set_self _ _ _
  have hframe : ∀ a, a ≠ p →
      ((base.set p (.handle { magic := 0, index := i })).del p).get a = base.get a := fun a ha =>
    (Heap.get_del_ne _ ha).trans (Heap.get_set_ne _ _ ha)
  unfold endnetconfig
  rw [if_neg hp, hread]
  simp only [Option.bind_eq_bind, Option.bind_some, ne_eq, not_true, if_false, hst, gt_iff_lt,
    if_pos hpos]
  by_cases hlast : s.gRefcount - 1 = 0
  · obtain ⟨s₂, hc, he₂, hheap₂, href⟩ := clearGlobalEntries_spec
      (s := { s with mem := m₁, gRefcount := s.gRefcount - 1 }) (t₁.congr rfl rfl rfl rfl)
    have hfree := free_live (m := s₂.mem) hp (by rw [hheap₂]; exact hself)
    rw [if_pos hlast, hc]
    simp only [Option.bind_some, hfree]
    refine ⟨_, rfl, href, _, Heap.get_del_self _ _, hframe, .inl ⟨?_, ?_, ?_⟩⟩
    · exact href.trans hlast
    · exact he₂.congr rfl rfl rfl rfl
    · show s₂.mem.heap.del p = _
      rw [hheap₂]
  · obtain ⟨m₂, hfree, t₂, hk₂⟩ := t₁.freeBase hp hself
    rw [if_neg hlast]
    simp only [Option.bind_some, hfree]
    refine ⟨_, rfl, rfl, _, Heap.get_del_self _ _, hframe, .inr ⟨?_, rfl, ?_, ?_⟩⟩
    · show 0 < s.gRefcount - 1
      omega
    · exact t₂.congr rfl rfl rfl rfl
    · exact hk₁.trans ⟨hk₂.table, hk₂.entries, hk₂.get⟩

/-! ## getnetconfigent -/

theorem findEntry_eq {m : Mem Obj} (netid : List UInt8) {rs : List Row}
    (hrows : ∀ r ∈ rs, EntryAt m.heap r.cell r.value r.names) :
    findEntry m netid (rs.map Row.cell) =
      some ((rs.find? fun r => r.value.netid = netid).map Row.cell) := by
  induction rs with
  | nil => rfl
  | cons r rs ih =>
    rw [List.forall_mem_cons] at hrows
    have hstr := hrows.1.netid
    rw [List.map_cons, findEntry, hstr.get]
    dsimp only
    rw [cstr_append_zero hstr.nulFree]
    by_cases heq : r.value.netid = netid
    · rw [if_pos heq, List.find?_cons_of_pos (by simp [heq])]
      rfl
    · rw [if_neg heq, List.find?_cons_of_neg (by simp [heq])]
      exact ih hrows.2

/-- `getnetconfigent` fails before there is a table and changes nothing, or leaves a loaded
    table: the one there was, or the one that the call has loaded. -/
theorem getnetconfigent_cases (db : Database) (netid : Option CString)
    (hc : s.gLoaded = true ∨ Empty s) (t : Table base s rs) :
    ∃ s' q, getnetconfigent A db netid s = some (s', q) ∧ s'.gRefcount = s.gRefcount ∧
      ((s'.gLoaded = s.gLoaded ∧ Table base s' rs ∧ Kept rs s s' ∧ (Empty s → Empty s')) ∨
       (s'.gLoaded = true ∧ ∃ base' rs', Table base' s' rs' ∧ Extends base base' ∧
        (s.gLoaded = true → rs' = rs ∧ Kept rs s s') ∧
        (s.gLoaded = false → database db = some (rs'.map Row.value)))) := by
  have hnull : Table base (setError NC_NOTFOUND s) rs ∧ Kept rs s (setError NC_NOTFOUND s) ∧
      (Empty s → Empty (setError NC_NOTFOUND s)) :=
    ⟨t.congr rfl rfl rfl rfl, ⟨⟨base, t⟩, rfl, fun _ _ => rfl⟩, fun he => he.congr rfl rfl rfl rfl⟩
  unfold getnetconfigent
  cases netid with
  | none => exact ⟨_, 0, rfl, rfl, .inl ⟨rfl, hnull⟩⟩
  | some netid =>
    dsimp only
    by_cases hempty : netid.1 = []
    · rw [if_pos hempty]
      exact ⟨_, 0, rfl, rfl, .inl ⟨rfl, hnull⟩⟩
    · obtain ⟨s₁, ok, h₁, href, hres⟩ :=
        ensure_cases A db (hc.imp id fun he => hnull.2.2 he) hnull.1
      rw [if_neg hempty]
      simp only [h₁, Option.bind_eq_bind, Option.bind_some]
      rcases hres with ⟨rfl, hl₁, rs', t₁, hsame, hdb⟩ | ⟨rfl, he, he₁, hheap⟩
      · have hkept : s.gLoaded = true → rs' = rs ∧ Kept rs s s₁ := by
          intro hl
          obtain ⟨rfl, rfl⟩ := hsame hl
          exact ⟨rfl, hnull.2.1⟩
        simp only [Bool.not_true, Bool.false_eq_true, if_false, t₁.readEntries, Option.bind_some,
          findEntry_eq netid.1 t₁.rows]
        cases hfind : rs'.find? fun r => r.value.netid = netid.1 with
        | none =>
          dsimp only [Option.map_none]
          refine ⟨_, 0, rfl, ?_, .inr ⟨?_, base, rs', ?_, Extends.refl base, fun hl => ?_, hdb⟩⟩
          · split <;> exact href
          · split <;> exact hl₁
          · split <;> exact t₁.congr rfl rfl rfl rfl
          · obtain ⟨hrs, hk⟩ := hkept hl
            refine ⟨hrs, hk.table, ?_, ?_⟩
            · split <;> exact hk.entries
            · split <;> exact hk.get
        | some r =>
          obtain ⟨m₂, copy, h₂, hres₂⟩ :=
            dupEntry_spec A (t₁.rows r (List.mem_of_find?_eq_some hfind))
          -- whatever the copy adds, the table is over it
          obtain ⟨L, o⟩ : ∃ L, Owned s₁.mem.heap m₂.heap L := by
            rcases hres₂ with ⟨_, hheap⟩ | ⟨_, _, _, _, _, o⟩
            · exact ⟨[], hheap ▸ Owned.nil _⟩
            · exact ⟨_, o⟩
          obtain ⟨base', o', t₂⟩ := t₁.over o
          have hget : ∀ a ∈ ptrs [s₁.gEntries] ++ rs'.flatMap Row.blocks,
              m₂.heap.get a = s₁.mem.heap.get a := fun a ha => (t₁.owned.get_eq o ha).symm
          simp only [Option.map_some, h₂, Option.bind_some]
          have hk₂ : s.gLoaded = true → rs' = rs ∧ Kept rs s { s₁ with mem := m₂ } := by
            intro hl
            obtain ⟨rfl, hk⟩ := hkept hl
            exact ⟨rfl, hk.trans ⟨⟨base, t₁⟩, rfl, hget⟩⟩
          by_cases hcopy : copy = 0
          · rw [if_pos hcopy]
            refine ⟨_, 0, rfl, href, .inr ⟨hl₁, base', rs', t₂.congr rfl rfl rfl rfl, o'.extends,
              fun hl => ?_, hdb⟩⟩
            obtain ⟨hrs, hk⟩ := hk₂ hl
            exact ⟨hrs, hk.table, hk.entries, hk.get⟩
          · rw [if_neg hcopy]
            exact ⟨_, copy, rfl, href, .inr ⟨hl₁, base', rs', t₂, o'.extends, hk₂, hdb⟩⟩
      · have hs : Empty s := he.congr rfl rfl rfl rfl
        obtain ⟨rfl, rfl⟩ := hs.of_table t
        refine ⟨s₁, 0, rfl, href, .inl ⟨he₁.loaded.trans hs.loaded.symm, ?_, ?_, fun _ => he₁⟩⟩
        · exact hheap ▸ he₁.table
        · exact ⟨⟨_, t⟩, he₁.entries.trans hs.entries.symm, fun a _ => by rw [hheap]; rfl⟩

end Librecompat.Netconfig
