/-
  The global table and how it is filled and cleared.

  `Table h₀ s rs` says that the table of `s` consists of the rows `rs` and that its blocks are
  what the heap has beyond `h₀`. A line appends one row or none (`loadLine_spec`), clearing
  brings `h₀` back (`clearGlobalEntries_spec`). `database` is what a load should put into the
  table; `ensure_entries_loaded_locked` puts exactly that there, or leaves the table empty and
  the heap as it was (`ensureEntriesLoaded_spec`). `decodeTable` reads the values of a table off
  the heap, `tableBlocks` its blocks.
-/
import Librecompat.Netconfig.Entry

namespace Librecompat.Netconfig

open Librecompat.Lib

/-- A row: the struct, its value, and where its lookup names are. -/
structure Row where
  cell : Netconfig
  value : Entry
  names : List Nat

def Row.blocks (r : Row) : List Nat := Netconfig.blocks r.cell r.names

/-- The table consists of the rows `rs`; its blocks are the ones that `h₀` does not have. -/
structure Table (h₀ : Heap Obj) (s : Nc) (rs : List Row) : Prop where
  owned : Owned h₀ s.mem.heap (ptrs [s.gEntries] ++ rs.flatMap Row.blocks)
  count : s.gEntryCount = rs.length
  rows : ∀ r ∈ rs, EntryAt s.mem.heap r.cell r.value r.names
  cells : ∃ junk, ArrayAt Obj.entries s.mem.heap s.gEntries
      ((rs.map Row.cell).map some ++ junk) ∧
    ((rs.map Row.cell).map some ++ junk).length = s.gEntryCap
  bound : s.gEntryCap * sizeofNetconfig < 2 ^ 64

/-- Nothing is loaded. -/
structure Empty (s : Nc) : Prop where
  entries : s.gEntries = 0
  count : s.gEntryCount = 0
  cap : s.gEntryCap = 0
  loaded : s.gLoaded = false

variable {h₀ : Heap Obj} {s s' : Nc} {rs : List Row}

theorem Table.congr (t : Table h₀ s rs) (hheap : s'.mem.heap = s.mem.heap)
    (hentries : s'.gEntries = s.gEntries) (hcount : s'.gEntryCount = s.gEntryCount)
    (hcap : s'.gEntryCap = s.gEntryCap) : Table h₀ s' rs := by
  refine ⟨?_, hcount.trans t.count, ?_, ?_, ?_⟩
  · rw [hheap, hentries]
    exact t.owned
  · rw [hheap]
    exact t.rows
  · rw [hheap, hentries, hcap]
    exact t.cells
  · rw [hcap]
    exact t.bound

theorem Empty.table (he : Empty s) : Table s.mem.heap s [] where
  owned := by
    rw [he.entries]
    exact Owned.nil _
  count := he.count
  rows := fun _ hr => absurd hr List.not_mem_nil
  cells := ⟨[], .inl ⟨he.entries, rfl⟩, he.cap.symm⟩
  bound := by
    rw [he.cap]
    omega

/-! ## Reading the table -/

/-- With a row, the array is there. -/
theorem Table.entries_ne (t : Table h₀ s rs) (hne : rs ≠ []) : s.gEntries ≠ 0 ∧
    ∃ junk, s.mem.heap.get s.gEntries = some (.entries ((rs.map Row.cell).map some ++ junk)) := by
  obtain ⟨junk, ⟨_, hnil⟩ | ⟨hp, hget⟩, _⟩ := t.cells
  · exact absurd (List.map_eq_nil_iff.mp (List.map_eq_nil_iff.mp (List.append_eq_nil_iff.mp hnil).1))
      hne
  · exact ⟨hp, junk, hget⟩

theorem Table.readEntries (t : Table h₀ s rs) : readEntries s = some (rs.map Row.cell) := by
  unfold Netconfig.readEntries
  by_cases hrs : rs = []
  · rw [if_pos (by rw [t.count, hrs, List.length_nil]), hrs]
    rfl
  · obtain ⟨_, junk, hget⟩ := t.entries_ne hrs
    have hpos := List.length_pos_iff.mpr hrs
    rw [if_neg (by rw [t.count]; omega), hget, t.count]
    have hw := written_map_some (rs.map Row.cell) junk
    rw [List.length_map] at hw
    exact hw

/-- The C string at `p`. -/
def decodeStr (m : Mem Obj) (p : Nat) : Option (List UInt8) :=
  match m.heap.get p with
  | some (.str bs) => some (cstr bs)
  | _ => none

/-- The names of an entry. -/
def entryNames (m : Mem Obj) (e : Netconfig) : Option (List Nat) :=
  if e.lookups = 0 then some [] else readSlots m e.lookups e.nlookups

/-- The value of a `struct netconfig`, read off the heap. -/
def decodeEntry (m : Mem Obj) (e : Netconfig) : Option Entry := do
  let netid ← decodeStr m e.netid
  let protofmly ← decodeStr m e.protofmly
  let proto ← decodeStr m e.proto
  let device ← decodeStr m e.device
  let lookups ← (← entryNames m e).mapM (decodeStr m)
  some { netid := netid, semantics := e.semantics, flag := e.flag, protofmly := protofmly,
         proto := proto, device := device, lookups := lookups }

/-- The values of the global table, read off the heap. -/
def decodeTable (s : Nc) : Option (List Entry) := do
  (← readEntries s).mapM (decodeEntry s.mem)

/-- The blocks of the global table. -/
def tableBlocks (s : Nc) : Option (List Nat) := do
  let blocks ← (← readEntries s).mapM fun e => (entryNames s.mem e).map (blocks e)
  some (ptrs [s.gEntries] ++ blocks.flatten)

theorem StrAt.decode {m : Mem Obj} {p : Nat} {v : List UInt8} (hs : StrAt m.heap p v) :
    decodeStr m p = some v := by
  rw [decodeStr, hs.get]
  exact congrArg some (cstr_append_zero hs.nulFree)

theorem StrsAt.decode {m : Mem Obj} {ps : List Nat} {vs : List (List UInt8)}
    (hs : StrsAt m.heap ps vs) : ps.mapM (decodeStr m) = some vs := by
  induction hs with
  | nil => rfl
  | cons hp _ ih => simp [List.mapM_cons, hp.decode, ih]

theorem EntryAt.entryNames {m : Mem Obj} {e : Netconfig} {v : Entry} {names : List Nat}
    (he : EntryAt m.heap e v names) : entryNames m e = some names := by
  unfold Netconfig.entryNames
  by_cases hl : e.lookups = 0
  · rcases he.lookups with ⟨_, rfl⟩ | ⟨hne, _⟩
    · rw [if_pos hl]
    · exact absurd hl hne
  · rw [if_neg hl, he.lookups.readSlots hl]

theorem EntryAt.decode {m : Mem Obj} {e : Netconfig} {v : Entry} {names : List Nat}
    (he : EntryAt m.heap e v names) : decodeEntry m e = some v := by
  simp [decodeEntry, he.netid.decode, he.protofmly.decode, he.proto.decode, he.device.decode,
    he.entryNames, he.strs.decode, he.semantics, he.flag]

theorem mapM_eq_some {α γ : Type} {f : α → Option γ} {g : α → γ} {as : List α}
    (h : ∀ a ∈ as, f a = some (g a)) : as.mapM f = some (as.map g) := by
  induction as with
  | nil => rfl
  | cons a as ih =>
    rw [List.forall_mem_cons] at h
    simp [List.mapM_cons, h.1, ih h.2]

theorem Table.decode (t : Table h₀ s rs) : decodeTable s = some (rs.map Row.value) := by
  have hrow : rs.mapM (fun r => decodeEntry s.mem r.cell) = some (rs.map Row.value) :=
    mapM_eq_some fun r hr => (t.rows r hr).decode
  rw [decodeTable, t.readEntries]
  simpa [List.mapM_map, Function.comp_def] using hrow

theorem Table.blocks (t : Table h₀ s rs) :
    tableBlocks s = some (ptrs [s.gEntries] ++ rs.flatMap Row.blocks) := by
  have hrow : rs.mapM (fun r => (entryNames s.mem r.cell).map (Netconfig.blocks r.cell)) =
      some (rs.map Row.blocks) :=
    mapM_eq_some fun r hr => by rw [(t.rows r hr).entryNames]; rfl
  rw [tableBlocks, t.readEntries]
  simp only [Option.bind_eq_bind, Option.bind_some, List.mapM_map, Function.comp_def, hrow]
  rfl

/-! ## Appending and clearing -/

variable (A : Allocator Obj)

theorem growEntries_spec (t : Table h₀ s rs) :
    ∃ s' ok, growEntries A s = some (s', ok) ∧ Table h₀ s' rs ∧
      (ok = true → s.gEntryCap < s'.gEntryCap) ∧
      s'.gRefcount = s.gRefcount ∧ s'.gLoaded = s.gLoaded := by
  have hgt := lt_doubled t.bound (show 2 ≤ 136 by omega) (show 0 < 8 by omega)
  unfold growEntries
  dsimp only
  generalize (if s.gEntryCap = 0 then 8 else s.gEntryCap * 2 % 2 ^ 64) = newCap at hgt ⊢
  cases hsz : sizeMulOk newCap sizeofNetconfig with
  | none => exact ⟨s, false, rfl, t, nofun, rfl, rfl⟩
  | some bytes =>
    obtain ⟨rfl, hlt⟩ := sizeMulOk_eq_some hsz
    obtain ⟨junk, harr, hcap⟩ := t.cells
    dsimp only
    rw [Nat.mul_div_cancel newCap (by decide)]
    obtain ⟨m', q, hr, ⟨rfl, hheap⟩ | ⟨hq, ho, harr', hkeep⟩⟩ := realloc_cells A
      (f := resizeEntries newCap) (fun _ => rfl) (by omega) t.owned harr <;>
      rw [hr, Option.map_some]
    · exact ⟨_, false, rfl, t.congr hheap rfl rfl rfl, nofun, rfl, rfl⟩
    · dsimp only
      rw [if_neg hq]
      refine ⟨_, true, rfl, ⟨ho, t.count, fun r hr => ?_, ?_, hlt⟩, fun _ => hgt, rfl, rfl⟩
      · exact (t.rows r hr).congr fun a ha => hkeep a (List.mem_flatMap.mpr ⟨r, hr, ha⟩)
      · rw [hcap, List.append_assoc] at harr'
        refine ⟨_, harr', ?_⟩
        rw [← List.append_assoc, List.length_append, hcap, List.length_replicate]
        show s.gEntryCap + (newCap - s.gEntryCap) = newCap
        omega

/-- The table in another heap that has the same blocks for it. -/
theorem Table.move {h₁ : Heap Obj} {m' : Mem Obj} (t : Table h₀ s rs)
    (o : Owned h₁ m'.heap (ptrs [s.gEntries] ++ rs.flatMap Row.blocks))
    (hget : ∀ a ∈ ptrs [s.gEntries] ++ rs.flatMap Row.blocks,
      m'.heap.get a = s.mem.heap.get a) : Table h₁ { s with mem := m' } rs := by
  obtain ⟨junk, harr, hcap⟩ := t.cells
  refine ⟨o, t.count, fun r hr => (t.rows r hr).congr fun a ha => hget a ?_,
    ⟨junk, harr.imp id fun ⟨hp, hg⟩ => ⟨hp, ?_⟩, hcap⟩, t.bound⟩
  · exact List.mem_append_right _ (List.mem_flatMap.mpr ⟨r, hr, ha⟩)
  · exact (hget _ (by simp [ptrs_cons hp])).trans hg

/-- The table over a heap to which blocks have been added. -/
theorem Table.over {m' : Mem Obj} {L : List Nat} (t : Table h₀ s rs)
    (o : Owned s.mem.heap m'.heap L) :
    ∃ h₁, Owned h₀ h₁ L ∧ Table h₁ { s with mem := m' } rs := by
  obtain ⟨h₁, o₁, o₂⟩ := t.owned.swap o
  exact ⟨h₁, o₁, t.move o₂ fun a ha => (t.owned.get_eq o ha).symm⟩

/-- The table over a heap from which blocks below it are taken off. -/
theorem Table.under {h₁ : Heap Obj} {L : List Nat} (t : Table h₁ s rs) (o : Owned h₀ h₁ L) :
    ∃ h₂, Owned h₂ s.mem.heap L ∧
      ∀ m₂ : Mem Obj, m₂.heap = h₂ → Table h₀ { s with mem := m₂ } rs := by
  obtain ⟨h₂, o₁, o₂⟩ := o.swap t.owned
  refine ⟨h₂, o₂, fun m₂ hm₂ => ?_⟩
  subst hm₂
  exact t.move o₁ fun a ha => o₁.get_eq o₂ ha

/-- A new entry becomes the last row, or the table stays as it was. -/
theorem appendGlobalEntry_spec {h₁ : Heap Obj} {r : Row} (t : Table h₁ s rs)
    (hr : EntryAt h₁ r.cell r.value r.names) (o : Owned h₀ h₁ r.blocks) :
    ∃ s' ok, appendGlobalEntry A s r.cell = some (s', ok) ∧
      ((ok = true ∧ Table h₀ s' (rs ++ [r])) ∨ (ok = false ∧ Table h₁ s' rs)) ∧
      s'.gRefcount = s.gRefcount ∧ s'.gLoaded = s.gLoaded := by
  have hroom : ∃ s₁ ok₁, (if s.gEntryCount = s.gEntryCap then growEntries A s
        else some (s, true)) = some (s₁, ok₁) ∧ Table h₁ s₁ rs ∧
      (ok₁ = true → s₁.gEntryCount < s₁.gEntryCap) ∧
      s₁.gRefcount = s.gRefcount ∧ s₁.gLoaded = s.gLoaded := by
    by_cases hfull : s.gEntryCount = s.gEntryCap
    · obtain ⟨s₁, ok₁, h₁, t₁, hlt, hsame⟩ := growEntries_spec A t
      rw [if_pos hfull]
      refine ⟨s₁, ok₁, h₁, t₁, fun hok => ?_, hsame⟩
      have := hlt hok
      rw [t₁.count, ← t.count]
      omega
    · obtain ⟨junk, _, hcap⟩ := t.cells
      have hcount := t.count
      rw [List.length_append, List.length_map, List.length_map] at hcap
      rw [if_neg hfull]
      exact ⟨s, true, rfl, t, fun _ => by omega, rfl, rfl⟩
  obtain ⟨s₁, ok₁, hs₁, t₁, hlt, href, hloaded⟩ := hroom
  unfold appendGlobalEntry
  rw [hs₁]
  cases ok₁ with
  | false => exact ⟨s₁, false, rfl, .inr ⟨rfl, t₁⟩, href, hloaded⟩
  | true =>
    obtain ⟨junk, harr, hcap⟩ := t₁.cells
    have hlt := hlt rfl
    have hcount := t₁.count
    have hjunk : junk ≠ [] := by
      intro h0
      rw [h0, List.append_nil, List.length_map, List.length_map] at hcap
      omega
    obtain ⟨hp, hget⟩ : s₁.gEntries ≠ 0 ∧ s₁.mem.heap.get s₁.gEntries =
        some (.entries ((rs.map Row.cell).map some ++ junk)) := by
      rcases harr with ⟨_, h0⟩ | harr
      · exact absurd (List.append_eq_nil_iff.mp h0).2 hjunk
      · exact harr
    have hset := set_map_some (rs.map Row.cell) junk r.cell hjunk
    rw [List.length_map] at hset
    have ho := o.trans t₁.owned
    have hmem : s₁.gEntries ∈ ptrs [s₁.gEntries] := by simp [ptrs_cons hp]
    obtain ⟨m', hst, ho', hget', hkeep⟩ := ho.store (p := s₁.gEntries)
      (b := .entries (((rs.map Row.cell).map some ++ junk).set s₁.gEntryCount (some r.cell)))
      (List.mem_append_right _ (List.mem_append_left _ hmem))
    simp only [Option.bind_eq_bind, Option.bind_some, Bool.not_true, if_neg Bool.false_ne_true,
      hget, hst]
    refine ⟨_, true, rfl, .inl ⟨rfl, ?_, ?_, ?_, ⟨junk.tail, .inr ⟨hp, ?_⟩, ?_⟩, t₁.bound⟩, href,
      hloaded⟩
    · refine ho'.perm ?_
      rw [List.flatMap_append, List.flatMap_singleton, ← List.append_assoc (ptrs _)]
      exact List.perm_append_comm
    · show s₁.gEntryCount + 1 = (rs ++ [r]).length
      rw [hcount, List.length_append, List.length_singleton]
    · intro q hq
      rcases List.mem_append.mp hq with hq | hq
      · refine (t₁.rows q hq).congr fun a ha => hkeep a ?_
        have hin : a ∈ rs.flatMap Row.blocks := List.mem_flatMap.mpr ⟨q, hq, ha⟩
        exact ((List.nodup_append.mp t₁.owned.nodup).2.2 _ hmem a hin).symm
      · rw [List.mem_singleton.mp hq]
        refine (hr.mono t₁.owned.extends).congr fun a ha => hkeep a ?_
        exact (List.nodup_append.mp ho.nodup).2.2 a ha _ (List.mem_append_left _ hmem)
    · rw [List.map_append, List.map_singleton, ← hset, ← hcount]
      exact hget'
    · rw [List.map_append, List.map_singleton, ← hset, List.length_set]
      exact hcap

theorem freeEntries_owned {rs : List Row} {L : List Nat} : ∀ {m : Mem Obj},
    Owned h₀ m.heap (rs.flatMap Row.blocks ++ L) →
    (∀ r ∈ rs, EntryAt m.heap r.cell r.value r.names) →
    ∃ m', freeEntries m (rs.map Row.cell) = some m' ∧ Owned h₀ m'.heap L := by
  induction rs with
  | nil => exact fun {m} o _ => ⟨m, rfl, o⟩
  | cons r rs ih =>
    intro m o hrows
    rw [List.forall_mem_cons] at hrows
    rw [List.flatMap_cons, List.append_assoc] at o
    obtain ⟨h₁, o₁, o₂⟩ := o.split
    rw [← List.append_nil r.blocks] at o₂
    obtain ⟨m₁, hm₁, o₃⟩ := hrows.1.free o₂
    rw [List.append_nil] at o₂
    rw [List.map_cons, freeEntries, hm₁, Option.bind_some]
    obtain rfl := o₃.heap_eq
    refine ih o₁ fun q hq => (hrows.2 q hq).congr fun a ha => o₁.get_eq o₂ ?_
    exact List.mem_append_left _ (List.mem_flatMap.mpr ⟨q, hq, ha⟩)

/-- `clear_global_entries_locked` frees the whole table. -/
theorem clearGlobalEntries_spec (t : Table h₀ s rs) :
    ∃ s', clearGlobalEntries s = some s' ∧ Empty s' ∧ s'.mem.heap = h₀ ∧
      s'.gRefcount = s.gRefcount := by
  obtain ⟨m₁, hm₁, o₁⟩ := freeEntries_owned (t.owned.perm List.perm_append_comm) t.rows
  rw [← List.append_nil (ptrs _)] at o₁
  obtain ⟨m₂, hm₂, o₂, _⟩ := o₁.free
  unfold clearGlobalEntries
  simp only [t.readEntries, Option.bind_eq_bind, Option.bind_some, hm₁, hm₂]
  exact ⟨_, rfl, ⟨rfl, rfl, rfl, rfl⟩, o₂.heap_eq, rfl⟩

/-! ## Loading -/

/-- One line: a row with its value is added, or the table stays as it was. -/
theorem loadLine_spec (t : Table h₀ s rs) (line : List UInt8) :
    ∃ s' ok, loadLine A line s = some (s', ok) ∧
      ((ok = true ∧ ∃ r, parseLine line = some r.value ∧ Table h₀ s' (rs ++ [r])) ∨
       (ok = false ∧ Table h₀ s' rs)) ∧
      s'.gRefcount = s.gRefcount ∧ s'.gLoaded = s.gLoaded := by
  obtain ⟨m₁, e, ok₁, hp, ⟨rfl, v, names, hv, he, o⟩ | ⟨rfl, hheap⟩⟩ :=
    parseNetconfigLine_spec A s.mem line
  · obtain ⟨h₁, o₁, t₁⟩ := t.over o
    have he₁ : EntryAt h₁ e v names := he.congr fun a ha => o₁.get_eq t₁.owned ha
    obtain ⟨s₂, ok₂, ha, hres, href, hloaded⟩ :=
      appendGlobalEntry_spec A (r := ⟨e, v, names⟩) t₁ he₁ o₁
    unfold loadLine
    simp only [hp, Option.bind_eq_bind, Option.bind_some, Bool.not_true,
      if_neg Bool.false_ne_true, ha]
    rcases hres with ⟨rfl, t₂⟩ | ⟨rfl, t₂⟩
    · exact ⟨s₂, true, rfl, .inl ⟨rfl, _, hv, t₂⟩, href, hloaded⟩
    · obtain ⟨h₂, o₂, ht⟩ := t₂.under o₁
      rw [← List.append_nil (Netconfig.blocks e names)] at o₂
      obtain ⟨m₃, hm₃, o₃⟩ := (he₁.mono t₂.owned.extends).free o₂
      simp only [Bool.false_eq_true, if_false, hm₃, Option.bind_some]
      refine ⟨_, false, rfl, .inr ⟨rfl, ?_⟩, href, hloaded⟩
      exact (ht m₃ o₃.heap_eq).congr rfl rfl rfl rfl
  · unfold loadLine
    simp only [hp, Option.bind_eq_bind, Option.bind_some, Bool.not_false, if_true]
    exact ⟨_, false, rfl, .inr ⟨rfl, t.congr hheap rfl rfl rfl⟩, rfl, rfl⟩

/-- The entries of a file with these lines: the parses of the lines that are no comments. None
    when one of them is not a whole line or does not parse, or when there is none. -/
def fileEntries (lines : List (List UInt8 × Bool)) : Option (List Entry) :=
  let lines := lines.filter fun l => l.1.head? ≠ some 35
  if lines = [] ∨ ∃ l ∈ lines, 10 ∉ cstr l.1 ∧ l.2 = false then none
  else lines.mapM fun l => parseLine l.1

/-- What a load puts into the table: the entries of the file if there is one, otherwise the
    default entries. -/
def database (db : Database) : Option (List Entry) :=
  match db.file with
  | some file => fileEntries (fgetsLines MAXNETCONFIGLINE db.fileError file.length file)
  | none =>
    let (v4, v6) := (systemVisibility db).getD (true, true)
    (defaultLines v4 v6).mapM parseLine

theorem loadFileLines_spec (lines : List (List UInt8 × Bool)) :
    ∀ {s : Nc} {rs : List Row} (sawData : Bool), Table h₀ s rs →
      ∃ s' rs' state, loadFileLines A lines sawData s = some (s', state) ∧ state ≠ .nofile ∧
        Table h₀ s' (rs ++ rs') ∧ s'.gRefcount = s.gRefcount ∧ s'.gLoaded = s.gLoaded ∧
        (state = .ok → (sawData = true ∨ rs' ≠ []) ∧
          (lines.filter fun l => l.1.head? ≠ some 35).mapM (fun l => parseLine l.1) =
            some (rs'.map Row.value) ∧
          ∀ l ∈ lines.filter fun l => l.1.head? ≠ some 35, ¬ (10 ∉ cstr l.1 ∧ l.2 = false)) := by
  induction lines with
  | nil =>
    intro s rs sawData t
    rw [← List.append_nil rs] at t
    cases sawData with
    | true => exact ⟨s, [], .ok, rfl, nofun, t, rfl, rfl, fun _ => ⟨.inl rfl, rfl, by simp⟩⟩
    | false => exact ⟨_, [], .error, rfl, nofun, t.congr rfl rfl rfl rfl, rfl, rfl, nofun⟩
  | cons l lines ih =>
    obtain ⟨line, eof⟩ := l
    intro s rs sawData t
    rw [loadFileLines]
    by_cases hhash : line.head? = some 35
    · rw [if_pos hhash, List.filter_cons_of_neg (by simp [hhash])]
      exact ih sawData t
    · rw [if_neg hhash, List.filter_cons_of_pos (by simp [hhash])]
      by_cases hcut : 10 ∉ cstr line ∧ eof = false
      · rw [if_pos (by simpa using hcut)]
        refine ⟨_, [], .error, rfl, nofun, ?_, rfl, rfl, nofun⟩
        rw [List.append_nil]
        exact t.congr rfl rfl rfl rfl
      · rw [if_neg (by simpa using hcut)]
        obtain ⟨s₁, ok, h₁, hres, href, hloaded⟩ := loadLine_spec A t line
        simp only [h₁, Option.bind_eq_bind, Option.bind_some]
        rcases hres with ⟨rfl, r, hr, t₁⟩ | ⟨rfl, t₁⟩
        · obtain ⟨s', rs', state, h', hne, t', href', hloaded', hok⟩ := ih true t₁
          refine ⟨s', r :: rs', state, h', hne, ?_, href'.trans href, hloaded'.trans hloaded,
            fun hstate => ?_⟩
          · rw [List.append_assoc, List.singleton_append] at t'
            exact t'
          · obtain ⟨_, hmap, hall⟩ := hok hstate
            refine ⟨.inr (List.cons_ne_nil r rs'), ?_, List.forall_mem_cons.mpr ⟨hcut, hall⟩⟩
            rw [List.mapM_cons, hmap, hr]
            rfl
        · refine ⟨s₁, [], .error, rfl, nofun, ?_, href, hloaded, nofun⟩
          rw [List.append_nil]
          exact t₁

theorem loadLines_spec {lines : List (List UInt8)} :
    ∀ {s : Nc} {rs : List Row}, Table h₀ s rs →
      ∃ s' rs' ok, loadLines A lines s = some (s', ok) ∧ Table h₀ s' (rs ++ rs') ∧
        s'.gRefcount = s.gRefcount ∧ s'.gLoaded = s.gLoaded ∧
        (ok = true → lines.mapM parseLine = some (rs'.map Row.value)) := by
  induction lines with
  | nil =>
    intro s rs t
    rw [← List.append_nil rs] at t
    exact ⟨s, [], true, rfl, t, rfl, rfl, fun _ => rfl⟩
  | cons line lines ih =>
    intro s rs t
    rw [loadLines]
    by_cases hlong : line.length + 1 > MAXNETCONFIGLINE
    · rw [if_pos hlong]
      refine ⟨_, [], false, rfl, ?_, rfl, rfl, nofun⟩
      rw [List.append_nil]
      exact t.congr rfl rfl rfl rfl
    · obtain ⟨s₁, ok, h₁, hres, href, hloaded⟩ := loadLine_spec A t line
      rw [if_neg hlong]
      simp only [h₁, Option.bind_eq_bind, Option.bind_some]
      rcases hres with ⟨rfl, r, hr, t₁⟩ | ⟨rfl, t₁⟩
      · obtain ⟨s', rs', ok, h', t', href', hloaded', hok⟩ := ih t₁
        refine ⟨s', r :: rs', ok, h', ?_, href'.trans href, hloaded'.trans hloaded, fun hk => ?_⟩
        · rw [List.append_assoc, List.singleton_append] at t'
          exact t'
        · simp [List.mapM_cons, hr, hok hk]
      · refine ⟨s₁, [], false, rfl, ?_, href, hloaded, nofun⟩
        rw [List.append_nil]
        exact t₁

/-- Filling an empty table from default lines. -/
theorem loadDefault_spec (he : Empty s) (v4 v6 : Bool) :
    ∃ s' rs ok, loadDefaultEntriesWithVisibility A v4 v6 s = some (s', ok) ∧
      Table s.mem.heap s' rs ∧ s'.gRefcount = s.gRefcount ∧
      (ok = true → (defaultLines v4 v6).mapM parseLine = some (rs.map Row.value)) := by
  obtain ⟨s', rs, ok, h', t, href, _, hok⟩ := loadLines_spec A he.table
  exact ⟨s', rs, ok, h', t, href, hok⟩

/-- What a call of `ensure_entries_loaded_locked` leaves behind: the whole database is loaded,
    or nothing is. -/
structure Loaded (db : Database) (s s' : Nc) (ok : Bool) : Prop where
  refcount : s'.gRefcount = s.gRefcount
  whole : ok = true → s'.gLoaded = true ∧
    ∃ rs, Table s.mem.heap s' rs ∧ database db = some (rs.map Row.value)
  none : ok = false → Empty s' ∧ s'.mem.heap = s.mem.heap

theorem Table.loaded {db : Database} (t : Table s.mem.heap s' rs)
    (href : s'.gRefcount = s.gRefcount) (hdb : database db = some (rs.map Row.value)) :
    Loaded db s { s' with gLoaded := true } true :=
  ⟨href, fun _ => ⟨rfl, rs, t.congr rfl rfl rfl rfl, hdb⟩, nofun⟩

theorem Table.cleared (db : Database) (t : Table s.mem.heap s' rs)
    (href : s'.gRefcount = s.gRefcount) :
    ∃ s'', clearGlobalEntries s' = some s'' ∧ Loaded db s s'' false := by
  obtain ⟨s'', hc, he, hheap, hr⟩ := clearGlobalEntries_spec t
  exact ⟨s'', hc, hr.trans href, nofun, fun _ => ⟨he, hheap⟩⟩

theorem fileEntries_eq_some {lines : List (List UInt8 × Bool)} (hne : rs ≠ [])
    (hmap : (lines.filter fun l => l.1.head? ≠ some 35).mapM (fun l => parseLine l.1) =
      some (rs.map Row.value))
    (hall : ∀ l ∈ lines.filter fun l => l.1.head? ≠ some 35, ¬ (10 ∉ cstr l.1 ∧ l.2 = false)) :
    fileEntries lines = some (rs.map Row.value) := by
  have hlines : (lines.filter fun l => l.1.head? ≠ some 35) ≠ [] := by
    intro hnil
    rw [hnil] at hmap
    exact hne (List.map_eq_nil_iff.mp (Option.some.inj hmap).symm)
  unfold fileEntries
  rw [if_neg]
  · exact hmap
  · rintro (hnil | ⟨l, hl, hcut⟩)
    · exact hlines hnil
    · exact hall l hl hcut

theorem ensureEntriesLoaded_spec (db : Database) (he : Empty s) :
    ∃ s' ok, ensureEntriesLoaded A db s = some (s', ok) ∧ Loaded db s s' ok := by
  unfold ensureEntriesLoaded loadFileEntries
  rw [he.loaded]
  cases hfile : db.file with
  | some file =>
    obtain ⟨s₁, rs, state, h₁, hne, t, href, _, hok⟩ := loadFileLines_spec A
      (fgetsLines MAXNETCONFIGLINE db.fileError file.length file) false he.table
    simp only [Bool.false_eq_true, if_false, Option.bind_eq_bind, h₁, Option.bind_some]
    rw [List.nil_append] at t
    cases state with
    | ok =>
      obtain ⟨hsome, hmap, hall⟩ := hok rfl
      refine ⟨_, true, rfl, t.loaded href ?_⟩
      rw [database, hfile]
      exact fileEntries_eq_some (hsome.resolve_left nofun) hmap hall
    | nofile => exact absurd rfl hne
    | error =>
      obtain ⟨s₂, h₂, hl⟩ := t.cleared db href
      exact ⟨s₂, false, by simp [h₂], hl⟩
  | none =>
    simp only [Bool.false_eq_true, if_false, Option.bind_eq_bind, Option.bind_some]
    unfold loadSystemconfigurationEntries
    cases hsys : systemVisibility db with
    | some visible =>
      obtain ⟨v4, v6⟩ := visible
      obtain ⟨s₁, rs, ok, h₁, t, href, hok⟩ := loadDefault_spec A he v4 v6
      simp only [h₁, Option.map_some, Option.bind_some]
      cases ok with
      | true =>
        refine ⟨_, true, rfl, t.loaded href ?_⟩
        rw [database, hfile, hsys]
        exact hok rfl
      | false =>
        obtain ⟨s₂, h₂, hl⟩ := t.cleared db href
        exact ⟨s₂, false, by simp [h₂], hl⟩
    | none =>
      obtain ⟨s₁, rs, ok, h₁, t, href, hok⟩ := loadDefault_spec A he true true
      simp only [Option.bind_some, h₁]
      cases ok with
      | true =>
        refine ⟨_, true, rfl, t.loaded href ?_⟩
        rw [database, hfile, hsys]
        exact hok rfl
      | false =>
        obtain ⟨s₂, h₂, hl⟩ := t.cleared db href
        simp only [Bool.false_eq_true, if_false, h₂, Option.bind_some]
        refine ⟨_, false, rfl, ?_⟩
        split
        · obtain ⟨hentries, hcount, hcap, hloaded⟩ := (hl.none rfl).1
          exact ⟨hl.refcount, nofun, fun _ => ⟨⟨hentries, hcount, hcap, hloaded⟩, (hl.none rfl).2⟩⟩
        · exact hl

end Librecompat.Netconfig
