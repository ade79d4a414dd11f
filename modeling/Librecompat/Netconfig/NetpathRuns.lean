/-
  What repeated calls of `getnetpath` on one handle return.

  With `NETPATH` set they return copies of the entries for its tokens, in order; with `NETPATH`
  unset or empty they return the visible entries of the table itself. After the last one every
  call returns null. The database may be another one at each call: a loaded table stays as it is.
-/
import Librecompat.Netconfig.NetpathStep
import Librecompat.Netconfig.Runs

namespace Librecompat.Netconfig

open Librecompat.Lib

/-- The table is loaded, and it is what some database gives. -/
def Holds (s : Nc) (table : List Entry) : Prop :=
  s.gLoaded = true ∧ ∃ base rs db, Table base s rs ∧ database db = some table ∧
    table = rs.map Row.value

/-- With an open handle the table is loaded, whatever the calls so far were. -/
theorem Inv.holds {w : World} (hi : Inv w) (hne : w.live ≠ []) : ∃ table, Holds w.nc table := by
  obtain ⟨⟨base, rs, hat⟩, _, _⟩ := hi
  have hl := hat.loaded hne
  rcases hat.whole with ⟨_, db, _, hdb⟩ | he
  · exact ⟨_, hl, base, rs, db, hat.table, hdb, rfl⟩
  · rw [he.loaded] at hl
    cases hl

variable (A : Allocator Obj) (B : Allocator NpObj)

/-- One call for each database, and what the calls return. -/
def getnetpaths (np : Nat) : List Database → Np → Option (Np × List Nat)
  | [], s => some (s, [])
  | db :: dbs, s => do
    let (s, q) ← getnetpath A B db np s
    let (s, qs) ← getnetpaths np dbs s
    some (s, q :: qs)

/-- The value of an entry that is a block of its own. -/
def decodeCopy (m : Mem Obj) (q : Nat) : Option Entry :=
  match m.heap.get q with
  | some (.entries [some e]) => decodeEntry m e
  | _ => none

/-- The blocks of such an entry. -/
def copyBlocks (m : Mem Obj) (q : Nat) : Option (List Nat) :=
  match m.heap.get q with
  | some (.entries [some e]) => (entryNames m e).map fun names => q :: blocks e names
  | _ => none

/-- The calls have returned copies of the first of `entries`, one call each, and null after the
    last one. No copy shares a block with the table. -/
structure GaveCopies (s : Nc) (entries : List Entry) (qs copies : List Nat) : Prop where
  results : qs = copies ++ List.replicate (qs.length - entries.length) 0
  values : copies.mapM (decodeCopy s.mem) = some (entries.take qs.length)
  nonnull : 0 ∉ copies
  distinct : copies.Nodup
  apart : ∃ tb, tableBlocks s = some tb ∧
    ∀ q ∈ copies, ∃ L, copyBlocks s.mem q = some L ∧ ∀ a ∈ L, a ∉ tb

/-- An entry that `getnetpath` does not pass over when it goes through the table. -/
def visible (v : Entry) : Bool := v.flag &&& NC_VISIBLE ≠ 0

/-- The addresses of the visible entries of `table`, the first one at index `i`. -/
def visibleAddrs (s : Nc) (i : Nat) (table : List Entry) : List Nat :=
  ((table.zipIdx i).filter fun p => visible p.1).map fun p => entryAddr s p.2

/-- The calls have returned the first of the visible entries of the table, and null after the
    last one. -/
structure GaveVisible (s : Nc) (table : List Entry) (qs : List Nat) : Prop where
  results : qs = (visibleAddrs s 0 table).take qs.length ++
    List.replicate (qs.length - (visibleAddrs s 0 table).length) 0
  values : (visibleAddrs s 0 table).mapM (fun q => (entryAt s q).bind (decodeEntry s.mem)) =
    some (table.filter visible)
  nonnull : 0 ∉ visibleAddrs s 0 table

variable {A B} {base : Heap Obj} {rs : List Row} {s : Np} {np : Nat}

/-! ## The tokens -/

section Tokens

variable {h : NpHandle} {rest : List (List UInt8)} {got : List (Nat × Entry)}

/-- There are fewer tokens left than the string has characters, the NUL included. -/
theorem Reading.length_rest (r : Reading s np h base rs rest got) :
    rest.length < ((readStr s.nc.mem h.netpathBuf).getD []).length + 1 := by
  obtain ⟨bs, hbuf, ⟨_, rfl⟩ | ⟨pre, w, t, _, rfl, _, rfl⟩⟩ := r.buf
  · exact Nat.succ_pos _
  · rw [readStr_of_get (r.table.owned.extends _ _ hbuf), Option.getD_some]
    have hle := length_pieces_le w
    simp only [List.length_append, List.length_cons]
    omega

theorem getnetpath_reading (hA : ∀ n, A.fails n = false) (hB : ∀ n, B.fails n = false)
    (db : Database) (hfits : Fits rs) (hnp : np ≠ 0) (r : Reading s np h base rs rest got) :
    ∃ s' q h' base' rest' got', getnetpath A B db np s = some (s', q) ∧
      Reading s' np h' base' rs rest' got' ∧
      ((entriesFor (rs.map Row.value) rest = [] ∧ q = 0 ∧ rest' = [] ∧ got' = got) ∨
       ∃ v, entriesFor (rs.map Row.value) rest = v :: entriesFor (rs.map Row.value) rest' ∧
         q ≠ 0 ∧ got' = got ++ [(q, v)]) := by
  have hread : readNpHandle s.mem np = some h := by
    rw [readNpHandle, r.handle]
  unfold getnetpath
  rw [if_neg hnp, hread]
  simp only [Option.bind_eq_bind, Option.bind_some, r.magic, ne_eq, not_true, if_false, r.tokens,
    Bool.false_eq_true]
  exact nextEntry_spec hA hB db hfits r r.length_rest

/-- Any number of calls: the copies handed out are those of the next entries. -/
theorem getnetpaths_reading (hA : ∀ n, A.fails n = false) (hB : ∀ n, B.fails n = false)
    (hfits : Fits rs) (hnp : np ≠ 0) (dbs : List Database) : ∀ {s : Np} {h : NpHandle}
      {base : Heap Obj} {rest : List (List UInt8)} {got : List (Nat × Entry)},
    Reading s np h base rs rest got →
    ∃ s' h' base' rest' new, getnetpaths A B np dbs s = some (s', new.map Prod.fst ++
        List.replicate (dbs.length - (entriesFor (rs.map Row.value) rest).length) 0) ∧
      Reading s' np h' base' rs rest' (got ++ new) ∧
      new.map Prod.snd = (entriesFor (rs.map Row.value) rest).take dbs.length ∧
      ∀ c ∈ new, c.1 ≠ 0 := by
  induction dbs with
  | nil =>
    intro s h base rest got r
    refine ⟨s, h, base, rest, [], by simp [getnetpaths], ?_, by simp, by simp⟩
    rw [List.append_nil]
    exact r
  | cons db dbs ih =>
    intro s h base rest got r
    obtain ⟨s₁, q, h₁, base₁, rest₁, got₁, hcall, r₁, hres⟩ :=
      getnetpath_reading hA hB db hfits hnp r
    obtain ⟨s₂, h₂, base₂, rest₂, new, hcalls, r₂, hvalues, hne⟩ := ih r₁
    rw [getnetpaths]
    simp only [Option.bind_eq_bind, hcall, Option.bind_some, hcalls]
    rcases hres with ⟨hnil, rfl, rfl, rfl⟩ | ⟨v, hcons, hq, rfl⟩
    · have hnew : new = [] := by
        refine List.map_eq_nil_iff.mp (hvalues.trans ?_)
        simp [entriesFor]
      refine ⟨s₂, h₂, base₂, rest₂, [], ?_, hnew ▸ r₂, by simp [hnil], by simp⟩
      rw [hnil, hnew]
      simp [entriesFor, List.replicate_succ]
    · refine ⟨s₂, h₂, base₂, rest₂, (q, v) :: new, ?_, ?_, ?_, ?_⟩
      · rw [hcons, List.length_cons, List.length_cons, Nat.add_sub_add_right]
        rfl
      · rw [← List.singleton_append, ← List.append_assoc]
        exact r₂
      · rw [hcons, List.length_cons, List.take_succ_cons, ← hvalues]
        rfl
      · exact List.forall_mem_cons.mpr ⟨hq, hne⟩

theorem OwnAt.decodeCopy {m : Mem Obj} {q : Nat} {v : Entry} {L : List Nat}
    (ho : OwnAt m.heap q v L) : decodeCopy m q = some v ∧ copyBlocks m q = some L := by
  obtain ⟨_, e, names, rfl, hget, he⟩ := ho
  unfold Netconfig.decodeCopy copyBlocks
  rw [hget]
  exact ⟨he.decode, congrArg (Option.map fun names => q :: blocks e names) he.entryNames⟩

theorem OwnAt.live {h : Heap Obj} {q : Nat} {v : Entry} {L : List Nat} (ho : OwnAt h q v L)
    {a : Nat} (ha : a ∈ L) : ∃ b, h.get a = some b := by
  obtain ⟨_, e, names, rfl, hget, he⟩ := ho
  rcases List.mem_cons.mp ha with rfl | ha
  · exact ⟨_, hget⟩
  · exact he.live a ha

theorem Reading.gaveCopies {entries : List Entry} (r : Reading s np h base rs rest got)
    {qs : List Nat} (hqs : qs = got.map Prod.fst ++ List.replicate (qs.length - entries.length) 0)
    (hvalues : got.map Prod.snd = entries.take qs.length) (hne : ∀ c ∈ got, c.1 ≠ 0) :
    GaveCopies s.nc entries qs (got.map Prod.fst) := by
  have hcopy : ∀ c ∈ got, ∃ L, OwnAt s.nc.mem.heap c.1 c.2 L ∧
      ∀ a ∈ L, a ∉ ptrs [s.nc.gEntries] ++ rs.flatMap Row.blocks := by
    intro c hc
    obtain ⟨L, _, ho⟩ := r.copies c hc
    refine ⟨L, ho.mono r.table.owned.extends, fun a ha => ?_⟩
    obtain ⟨b, hb⟩ := ho.live ha
    exact r.table.not_block hb
  refine ⟨hqs, ?_, ?_, r.distinct, _, r.table.blocks, ?_⟩
  · rw [← hvalues, List.mapM_map]
    refine mapM_eq_some fun c hc => ?_
    obtain ⟨L, ho, _⟩ := hcopy c hc
    exact ho.decodeCopy.1
  · intro h0
    obtain ⟨c, hc, hc0⟩ := List.mem_map.mp h0
    exact hne c hc hc0
  · intro q hq
    obtain ⟨c, hc, rfl⟩ := List.mem_map.mp hq
    obtain ⟨L, ho, hL⟩ := hcopy c hc
    exact ⟨L, ho.decodeCopy.2, hL⟩

end Tokens

/-! ## The visible entries -/

section Visible

theorem visibleAddrs_cons (s : Nc) (i : Nat) (v : Entry) (table : List Entry) :
    visibleAddrs s i (v :: table) =
      if visible v then entryAddr s i :: visibleAddrs s (i + 1) table
      else visibleAddrs s (i + 1) table := by
  unfold visibleAddrs
  rw [List.zipIdx_cons]
  split
  · next h =>
    rw [List.filter_cons_of_pos (by exact h)]
    rfl
  · next h => rw [List.filter_cons_of_neg (by exact h)]

theorem visibleAddrs_congr {s s' : Nc} (h : s'.gEntries = s.gEntries) (i : Nat)
    (table : List Entry) : visibleAddrs s' i table = visibleAddrs s i table := by
  have haddr : ∀ j, entryAddr s' j = entryAddr s j := fun j => by rw [entryAddr, entryAddr, h]
  simp only [visibleAddrs, haddr]

/-- The entry at an index of the table. -/
theorem Table.entryAddr_spec {nc : Nc} (t : Table base nc rs) {i : Nat} {r : Row}
    (hr : rs[i]? = some r) : entryAddr nc i ≠ 0 ∧ entryAt nc (entryAddr nc i) = some r.cell := by
  have hne : rs ≠ [] := by
    rintro rfl
    cases hr
  obtain ⟨hp, junk, hget⟩ := t.entries_ne hne
  have hidx : (entryAddr nc i - nc.gEntries) / sizeofNetconfig = i := by
    rw [entryAddr, Nat.add_sub_cancel_left, Nat.mul_div_cancel i (by decide)]
  have hlt : i < ((rs.map Row.cell).map some).length := by
    rw [List.length_map, List.length_map]
    exact (List.getElem?_eq_some_iff.mp hr).1
  refine ⟨fun h0 => hp (Nat.eq_zero_of_add_eq_zero_right h0), ?_⟩
  unfold entryAt
  rw [hget]
  dsimp only
  rw [hidx, List.getElem?_append_left hlt, List.getElem?_map, List.getElem?_map, hr]
  rfl

/-- The handle at `np` between two calls: it goes on at index `i` of the table at `g`. -/
structure Visiting (s : Np) (np : Nat) (base : Heap Obj) (rs : List Row) (g i : Nat) : Prop where
  loaded : s.nc.gLoaded = true
  table : Table base s.nc rs
  entries : s.nc.gEntries = g
  handle : ∃ h, s.mem.heap.get np = some (.handle h) ∧ h.magic = NP_HANDLE_MAGIC ∧
    h.useVisible = true ∧ h.ncHandle ≠ 0 ∧ base.get h.ncHandle = some (openHandle i)

/-- The loop goes on to the first visible entry from the index `i` of the handle on. -/
theorem nextVisible_spec {p : Nat} (hp : p ≠ 0) : ∀ {n i : Nat} {nc : Nc} {base : Heap Obj},
    nc.gLoaded = true → Table base nc rs → base.get p = some (openHandle i) →
    rs.length - i < n →
    ∃ nc' q i' base', nextVisible p n nc = some (nc', q) ∧ nc'.gLoaded = true ∧
      Table base' nc' rs ∧ nc'.gEntries = nc.gEntries ∧ base'.get p = some (openHandle i') ∧
      ((visibleAddrs nc i ((rs.map Row.value).drop i) = [] ∧ q = 0 ∧
          visibleAddrs nc i' ((rs.map Row.value).drop i') = []) ∨
       (q ≠ 0 ∧ visibleAddrs nc i ((rs.map Row.value).drop i) =
          q :: visibleAddrs nc i' ((rs.map Row.value).drop i'))) := by
  intro n
  induction n with
  | zero => exact fun _ _ _ hlt => absurd hlt (Nat.not_lt_zero _)
  | succ n ih =>
    intro i nc base hl t hh hlt
    obtain ⟨nc₁, hcall, _, hl₁, k, base₁, t₁, hh₁, _⟩ := getnetconfig_open hp hl t hh
    unfold nextVisible
    simp only [Option.bind_eq_bind, hcall, Option.bind_some]
    by_cases hi : i < rs.length
    · have hdrop : (rs.map Row.value).drop i =
          rs[i].value :: (rs.map Row.value).drop (i + 1) := by
        rw [List.drop_eq_getElem_cons (by rw [List.length_map]; exact hi), List.getElem_map]
      obtain ⟨hne, hat⟩ := t₁.entryAddr_spec (List.getElem?_eq_getElem hi)
      have haddr : entryAddr nc₁ i = entryAddr nc i := by
        rw [entryAddr, entryAddr, k.entries]
      rw [haddr] at hne hat
      rw [if_pos hi] at hh₁
      rw [if_pos hi, if_neg hne, hat, hdrop, visibleAddrs_cons]
      dsimp only [Option.bind_some]
      have hflag := (t₁.rows _ (List.getElem_mem hi)).flag
      rw [hflag]
      by_cases hv : rs[i].value.flag &&& NC_VISIBLE = 0
      · obtain ⟨nc₂, q, i', base₂, hres⟩ := ih hl₁ t₁ hh₁ (by omega)
        rw [if_pos hv, if_neg (by simp [visible, hv])]
        simp only [visibleAddrs_congr k.entries, k.entries] at hres
        exact ⟨nc₂, q, i', base₂, hres⟩
      · rw [if_neg hv, if_pos (by simp [visible, hv])]
        exact ⟨nc₁, _, i + 1, base₁, rfl, hl₁, t₁, k.entries, hh₁, .inr ⟨hne, rfl⟩⟩
    · have hdrop : (rs.map Row.value).drop i = [] :=
        List.drop_eq_nil_of_le (by rw [List.length_map]; omega)
      rw [if_neg hi] at hh₁
      rw [if_neg hi, hdrop]
      exact ⟨nc₁, 0, i, base₁, rfl, hl₁, t₁, k.entries, hh₁, .inl ⟨rfl, rfl, by rw [hdrop]; rfl⟩⟩

theorem getnetpath_visiting {g i : Nat} (db : Database) (hnp : np ≠ 0)
    (v : Visiting s np base rs g i) :
    ∃ s' q i' base', getnetpath A B db np s = some (s', q) ∧ Visiting s' np base' rs g i' ∧
      ((visibleAddrs s.nc i ((rs.map Row.value).drop i) = [] ∧ q = 0 ∧
          visibleAddrs s.nc i' ((rs.map Row.value).drop i') = []) ∨
       (q ≠ 0 ∧ visibleAddrs s.nc i ((rs.map Row.value).drop i) =
          q :: visibleAddrs s.nc i' ((rs.map Row.value).drop i'))) := by
  obtain ⟨h, hget, hmagic, huse, hnc, hopen⟩ := v.handle
  have hread : readNpHandle s.mem np = some h := by
    rw [readNpHandle, hget]
  obtain ⟨nc', q, i', base', hnext, hl, t, hentries, hopen', hres⟩ :=
    nextVisible_spec (n := s.nc.gEntryCount + 1) hnc v.loaded v.table hopen
      (by rw [v.table.count]; omega)
  unfold getnetpath
  rw [if_neg hnp, hread]
  simp only [Option.bind_eq_bind, Option.bind_some, hmagic, ne_eq, not_true, if_false, huse,
    if_true, hnext]
  exact ⟨_, q, i', base', rfl, ⟨hl, t, hentries.trans v.entries, h, hget, hmagic, huse, hnc,
    hopen'⟩, hres⟩

/-- Any number of calls: they return the next visible entries, and then null. -/
theorem getnetpaths_visiting {g : Nat} (hnp : np ≠ 0) (dbs : List Database) :
    ∀ {s : Np} {base : Heap Obj} {i : Nat}, Visiting s np base rs g i →
    ∃ s' base' i', getnetpaths A B np dbs s =
        some (s', (visibleAddrs s.nc i ((rs.map Row.value).drop i)).take dbs.length ++
          List.replicate
            (dbs.length - (visibleAddrs s.nc i ((rs.map Row.value).drop i)).length) 0) ∧
      Visiting s' np base' rs g i' := by
  induction dbs with
  | nil => exact fun {s base i} v => ⟨s, base, i, by simp [getnetpaths], v⟩
  | cons db dbs ih =>
    intro s base i v
    obtain ⟨s₁, q, i₁, base₁, hcall, v₁, hres⟩ := getnetpath_visiting (A := A) (B := B) db hnp v
    obtain ⟨s₂, base₂, i₂, hcalls, v₂⟩ := ih v₁
    rw [visibleAddrs_congr (v₁.entries.trans v.entries.symm)] at hcalls
    rw [getnetpaths]
    simp only [Option.bind_eq_bind, hcall, Option.bind_some, hcalls]
    refine ⟨s₂, base₂, i₂, ?_, v₂⟩
    rcases hres with ⟨hnil, rfl, hnil'⟩ | ⟨_, hcons⟩
    · rw [hnil, hnil']
      simp [List.replicate_succ]
    · rw [hcons, List.length_cons, List.length_cons, Nat.add_sub_add_right, List.take_succ_cons]
      rfl

/-- The addresses of the visible entries, and what is there. -/
theorem Table.visibleAddrs_spec {nc : Nc} (t : Table base nc rs) {rs₁ rs₂ : List Row}
    (hrs : rs = rs₁ ++ rs₂) :
    (visibleAddrs nc rs₁.length (rs₂.map Row.value)).mapM
        (fun q => (entryAt nc q).bind (decodeEntry nc.mem)) =
      some ((rs₂.map Row.value).filter visible) ∧
    0 ∉ visibleAddrs nc rs₁.length (rs₂.map Row.value) := by
  induction rs₂ generalizing rs₁ with
  | nil => exact ⟨rfl, List.not_mem_nil⟩
  | cons r rs₂ ih =>
    obtain ⟨hne, hat⟩ := t.entryAddr_spec (i := rs₁.length) (r := r) (by rw [hrs]; simp)
    have hdecode := (t.rows r (by rw [hrs]; simp)).decode
    have hnext : rs = (rs₁ ++ [r]) ++ rs₂ := by simp [hrs]
    obtain ⟨hvalues, hnonnull⟩ := ih hnext
    rw [List.length_append, List.length_singleton] at hvalues hnonnull
    rw [List.map_cons, visibleAddrs_cons]
    by_cases hv : visible r.value
    · rw [if_pos hv, List.filter_cons_of_pos hv, List.mapM_cons, hat]
      simp only [Option.bind_some, hdecode, hvalues, Option.bind_eq_bind]
      exact ⟨rfl, fun h0 => (List.mem_cons.mp h0).elim (fun h => hne h.symm) hnonnull⟩
    · rw [if_neg hv, List.filter_cons_of_neg hv]
      exact ⟨hvalues, hnonnull⟩

end Visible

/-! ## setnetpath -/

theorem setnetconfig_ne (hA : ∀ n, A.fails n = false) {db : Database} {s s' : Nc} {p : Nat}
    (hl : s.gLoaded = true) (h : setnetconfig A db s = some (s', p)) : p ≠ 0 := by
  unfold setnetconfig at h
  rcases hm : malloc A s.mem (.handle { magic := 0, index := 0 }) with ⟨m, q⟩
  have hq := malloc_ne hA hm
  rw [hm] at h
  dsimp only at h
  have hensure : ensureEntriesLoaded A db { s with mem := m } =
      some ({ s with mem := m }, true) := by
    unfold ensureEntriesLoaded
    rw [if_pos hl]
  rw [if_neg hq, hensure] at h
  simp only [Option.bind_eq_bind, Option.bind_some, if_true] at h
  obtain ⟨m', _, h⟩ := Option.bind_eq_some_iff.mp h
  exact (Prod.mk.inj (Option.some.inj h)).2 ▸ hq

/-- With `NETPATH` set the new handle starts before the first token. -/
theorem setnetpath_reading (hA : ∀ n, A.fails n = false) (hB : ∀ n, B.fails n = false)
    (db : Database) {w : CString} (hw : w.1 ≠ []) (hl : s.nc.gLoaded = true)
    (t : Table base s.nc rs) :
    ∃ s' np h base', setnetpath A B db (some w) s = some (s', np) ∧ np ≠ 0 ∧
      Reading s' np h base' rs (pieces w.1) [] := by
  obtain ⟨hf, _⟩ | ⟨_, np, hnp, _, hm⟩ := malloc_cases B s.mem (.handle NpHandle.zero)
  · rw [hB] at hf
    cases hf
  · have hget := Heap.get_set_self s.mem.heap np (.handle NpHandle.zero)
    unfold setnetpath
    rw [hm]
    dsimp only
    generalize s.mem.heap.set np _ = heap at hget ⊢
    rcases hbuf : dupCstr A s.nc.mem w.1 with ⟨ncMem, buf⟩
    have hne := malloc_ne hA hbuf
    obtain ⟨o, hstr⟩ := malloc_owned hbuf
    rw [ptrs_cons_nil hne] at o
    obtain ⟨base', o', t'⟩ := t.over o
    have hbase : base'.get buf = some (.str (w.1 ++ [0])) :=
      (o'.get_eq t'.owned List.mem_cons_self).trans (hstr hne)
    simp only [if_neg hnp, Option.map_some, Option.getD_some, if_neg hw, hbuf, if_neg hne]
    rw [store_live (m := { heap := heap, calls := _ }) hget]
    refine ⟨_, np, _, base', rfl, hnp, hl, t', Heap.get_set_self _ _ _, rfl, rfl, .inl rfl,
      ⟨_, hbase, .inr ⟨[], w.1, [], rfl, rfl, w.2, rfl⟩⟩, ?_, List.nodup_nil⟩
    exact fun c hc => absurd hc List.not_mem_nil

/-- With `NETPATH` unset or empty it starts at the first entry of the table. -/
theorem setnetpath_visiting (hA : ∀ n, A.fails n = false) (hB : ∀ n, B.fails n = false)
    (db : Database) {env : Option CString} (henv : (env.map Subtype.val).getD [] = [])
    (hl : s.nc.gLoaded = true) (t : Table base s.nc rs) :
    ∃ s' np base', setnetpath A B db env s = some (s', np) ∧ np ≠ 0 ∧
      Visiting s' np base' rs s.nc.gEntries 0 := by
  obtain ⟨hf, _⟩ | ⟨_, np, hnp, _, hm⟩ := malloc_cases B s.mem (.handle NpHandle.zero)
  · rw [hB] at hf
    cases hf
  · have hget := Heap.get_set_self s.mem.heap np (.handle NpHandle.zero)
    unfold setnetpath
    rw [hm]
    dsimp only
    generalize s.mem.heap.set np _ = heap at hget ⊢
    obtain ⟨nc, p, hcall, ⟨hp, _⟩ | ⟨hp, _, hl', _, base', rs', t', hopen, _, hsame, _⟩⟩ :=
      setnetconfig_cases A db (.inl hl) t
    · exact absurd hp (setnetconfig_ne hA hl hcall)
    · obtain ⟨rfl, k⟩ := hsame hl
      simp only [if_neg hnp, henv, if_true, hcall, Option.bind_eq_bind, Option.bind_some, if_neg hp]
      rw [store_live (m := { heap := heap, calls := _ }) hget]
      exact ⟨_, np, base', rfl, hnp, hl', t', k.entries, _, Heap.get_set_self _ _ _, rfl, rfl, hp,
        hopen⟩

/-! ## The tokenizer alone -/

/-- What calls of `netpath_next_token` leave at the places where they are made, from the cursor
    on; at most `n` calls. -/
def netpathTokens : Nat → List UInt8 → Option Nat → Option (List (List UInt8))
  | _, _, none => some []
  | 0, _, some _ => none
  | n + 1, bs, some token => do
    let (bs, cursor) ← netpathNextToken bs token colon
    let rest ← netpathTokens n bs cursor
    some (cstr (bs.drop token) :: rest)

theorem netpathTokens_spec {w : List UInt8} (hw : 0 ∉ w) (t : List UInt8) :
    ∀ {n : Nat} (pre : List UInt8), w.length < n →
      netpathTokens n (pre ++ (w ++ 0 :: t)) (some pre.length) = some (pieces w) := by
  induction hlen : w.length using Nat.strong_induction_on generalizing w with
  | _ k ih =>
    intro n pre hn
    obtain ⟨n, rfl⟩ := Nat.exists_eq_succ_of_ne_zero (Nat.ne_zero_of_lt hn)
    obtain ⟨bs', cursor, hnext, _, hres⟩ := netpathNextToken_spec hw pre t
    rw [netpathTokens]
    simp only [Option.bind_eq_bind, hnext, Option.bind_some]
    rcases hres with ⟨rfl, hpieces⟩ | ⟨pre', w', rfl, rfl, hw', hlt, hpieces⟩
    · rw [hpieces, netpathTokens, Option.bind_some]
    · rw [ih w'.length (hlen ▸ hlt) hw' rfl pre' (by omega), hpieces]
      rfl

theorem mem_escape {c : UInt8} {tok : List UInt8} (h : c ∈ escape backslash colon tok) :
    c = backslash ∨ c ∈ tok := by
  induction tok with
  | nil => exact absurd h List.not_mem_nil
  | cons d tok ih =>
    unfold escape at h
    split at h <;> simp only [List.mem_cons] at h ⊢ <;> grind

theorem joinEscaped_nulFree {toks : List (List UInt8)} (h : ∀ tok ∈ toks, 0 ∉ tok) :
    0 ∉ joinEscaped backslash colon toks := by
  intro h0
  unfold joinEscaped at h0
  induction toks with
  | nil => exact absurd h0 List.not_mem_nil
  | cons tok toks ih =>
    rw [List.forall_mem_cons] at h
    have htok : 0 ∉ escape backslash colon tok := fun hm =>
      (mem_escape hm).elim (by decide) h.1
    cases toks with
    | nil => exact htok (by simpa using h0)
    | cons tok' toks =>
      rw [List.map_cons, List.map_cons, List.intercalate_cons_cons, ← List.map_cons] at h0
      rcases List.mem_append.mp h0 with h0 | h0
      · rcases List.mem_append.mp h0 with h0 | h0
        · exact htok h0
        · exact absurd (List.mem_singleton.mp h0) (by decide)
      · exact ih h.2 h0

/-- Tokens that are escaped and joined come back. -/
theorem netpathTokens_join {toks : List (List UInt8)} (h : ∀ tok ∈ toks, tok ≠ [] ∧ 0 ∉ tok) :
    ∃ found, netpathTokens ((joinEscaped backslash colon toks).length + 1)
        (joinEscaped backslash colon toks ++ [0]) (some 0) = some found ∧
      found.filter (· ≠ []) = toks := by
  have hnul := joinEscaped_nulFree fun tok ht => (h tok ht).2
  refine ⟨_, netpathTokens_spec hnul [] [] (Nat.lt_succ_self _), ?_⟩
  by_cases hnil : toks = []
  · rw [hnil]
    decide
  · rw [pieces, unescape_splitEscaped_join (by decide) hnil]
    exact List.filter_eq_self.mpr fun tok ht => decide_eq_true (h tok ht).1

/-! ## All calls -/

theorem Holds.fits {nc : Nc} {table : List Entry} (h : Holds nc table) :
    ∃ base rs, nc.gLoaded = true ∧ Table base nc rs ∧ table = rs.map Row.value ∧ Fits rs := by
  obtain ⟨hl, base, rs, db, t, hdb, rfl⟩ := h
  exact ⟨base, rs, hl, t, rfl, fun r hr =>
    length_lookups_database hdb (List.mem_map_of_mem hr)⟩

/-- Repeated calls on one handle. With `NETPATH` set they return copies of the first entries for
    its tokens, without it the visible entries; the table stays as it is. Tokens that are escaped
    and joined are the ones that the tokenizer finds. -/
theorem getnetpath_iterates (A : Allocator Obj) (B : Allocator NpObj) (s : Np)
    (table : List Entry) (db : Database) (hA : ∀ n, A.fails n = false)
    (hB : ∀ n, B.fails n = false) (hs : Holds s.nc table) :
    (∀ (env : Option CString) (dbs : List Database), ∃ s₁ np s₂ qs,
      setnetpath A B db env s = some (s₁, np) ∧ np ≠ 0 ∧
      getnetpaths A B np dbs s₁ = some (s₂, qs) ∧ qs.length = dbs.length ∧
      decodeTable s₂.nc = some table ∧
      ((∀ w, env = some w → w.1 = []) → GaveVisible s₂.nc table qs) ∧
      ∀ w, env = some w → w.1 ≠ [] →
        ∃ copies, GaveCopies s₂.nc (entriesFor table (pieces w.1)) qs copies) ∧
    ∀ toks : List (List UInt8), (∀ tok ∈ toks, tok ≠ [] ∧ 0 ∉ tok) →
      ∃ found, netpathTokens ((joinEscaped backslash colon toks).length + 1)
          (joinEscaped backslash colon toks ++ [0]) (some 0) = some found ∧
        found.filter (· ≠ []) = toks := by
  obtain ⟨base, rs, hl, t, rfl, hfits⟩ := hs.fits
  refine ⟨fun env dbs => ?_, fun toks h => netpathTokens_join h⟩
  by_cases henv : ∃ w, env = some w ∧ w.1 ≠ []
  · obtain ⟨w, rfl, hw⟩ := henv
    obtain ⟨s₁, np, h, base₁, hset, hnp, r⟩ := setnetpath_reading hA hB db hw hl t
    obtain ⟨s₂, h₂, base₂, rest, new, hcalls, r₂, hvalues, hne⟩ :=
      getnetpaths_reading hA hB hfits hnp dbs r
    have hlen : (new.map Prod.fst ++ List.replicate
        (dbs.length - (entriesFor (rs.map Row.value) (pieces w.1)).length) 0).length =
        dbs.length := by
      have hnew := congrArg List.length hvalues
      rw [List.length_map, List.length_take] at hnew
      rw [List.length_append, List.length_map, List.length_replicate]
      omega
    refine ⟨s₁, np, s₂, _, hset, hnp, hcalls, hlen, r₂.table.decode,
      fun h0 => absurd (h0 w rfl) hw, fun w' heq _ => ?_⟩
    obtain rfl := Option.some.inj heq
    refine ⟨_, r₂.gaveCopies ?_ ?_ hne⟩
    · rw [hlen]
      rfl
    · rw [hlen]
      exact hvalues
  · have hw : (env.map Subtype.val).getD [] = [] := by
      cases env with
      | none => rfl
      | some w => exact not_not.mp fun h0 => henv ⟨w, rfl, h0⟩
    obtain ⟨s₁, np, base₁, hset, hnp, v⟩ := setnetpath_visiting hA hB db hw hl t
    obtain ⟨s₂, base₂, i, hcalls, v₂⟩ := getnetpaths_visiting (A := A) (B := B) hnp dbs v
    rw [visibleAddrs_congr (v₂.entries.trans v.entries.symm).symm, List.drop_zero] at hcalls
    obtain ⟨hvalues, hnonnull⟩ := v₂.table.visibleAddrs_spec (List.nil_append rs).symm
    have hlen : ∀ l : List Nat,
        (l.take dbs.length ++ List.replicate (dbs.length - l.length) 0).length = dbs.length := by
      intro l
      rw [List.length_append, List.length_take, List.length_replicate]
      omega
    refine ⟨s₁, np, s₂, _, hset, hnp, hcalls, hlen _, v₂.table.decode,
      fun _ => ⟨?_, hvalues, hnonnull⟩, fun w heq hne => absurd ⟨w, heq, hne⟩ henv⟩
    rw [hlen]

def localEntry : Entry :=
  { netid := chars "local", semantics := NC_TPI_COTS_ORD, flag := 0, protofmly := chars "loopback",
    proto := chars "-", device := chars "-", lookups := [] }

/-- A token without an entry, an escaped token and an empty one. -/
def threeTokens : CString := ⟨chars "udp:lo\\cal:", by decide⟩

/-- Two calls on a table of one line: a copy of the entry, and null. -/
theorem getnetpath_iterates_threeTokens :
    ∃ (s : Np) (s₁ : Np) (np : Nat) (s₂ : Np) (copy : Nat),
      Holds s.nc [localEntry] ∧
      setnetpath (Allocator.bump Obj fun _ => false) (Allocator.bump NpObj fun _ => false) oneLine
        (some threeTokens) s = some (s₁, np) ∧
      getnetpaths (Allocator.bump Obj fun _ => false) (Allocator.bump NpObj fun _ => false) np
        [oneLine, oneLine] s₁ = some (s₂, [copy, 0]) ∧
      copy ≠ 0 ∧ decodeCopy s₂.nc.mem copy = some localEntry := by
  have he : Empty (World.start ⟨Heap.empty, 0⟩).nc := ⟨rfl, rfl, rfl, rfl⟩
  obtain ⟨nc, hnc⟩ : ∃ nc, ensureEntriesLoaded (Allocator.bump Obj fun _ => false) oneLine
      (World.start ⟨Heap.empty, 0⟩).nc = some (nc, true) := ⟨_, rfl⟩
  obtain ⟨nc', ok, hnc', hload⟩ :=
    ensureEntriesLoaded_spec (Allocator.bump Obj fun _ => false) oneLine he
  obtain ⟨rfl, rfl⟩ := Prod.mk.inj (Option.some.inj (hnc.symm.trans hnc'))
  obtain ⟨hl, rs, t, hdb⟩ := hload.whole rfl
  have hone : database oneLine = some [localEntry] := by decide
  have hs : Holds nc [localEntry] :=
    ⟨hl, _, rs, oneLine, t, hone, Option.some.inj (hone.symm.trans hdb)⟩
  obtain ⟨s₁, np, s₂, qs, hset, _, hcalls, hlen, _, _, htokens⟩ :=
    (getnetpath_iterates (Allocator.bump Obj fun _ => false) (Allocator.bump NpObj fun _ => false)
      ⟨nc, ⟨Heap.empty, 0⟩⟩ [localEntry] oneLine (fun _ => rfl) (fun _ => rfl) hs).1
      (some threeTokens) [oneLine, oneLine]
  obtain ⟨copies, hresults, hvalues, hnonnull, _, _⟩ := htokens threeTokens rfl (by decide)
  have hentries : entriesFor [localEntry] (pieces threeTokens.1) = [localEntry] := by decide
  rw [hentries, hlen] at hresults hvalues
  obtain ⟨copy, rfl⟩ : ∃ copy, copies = [copy] := by
    rw [hresults, List.length_append, List.length_replicate] at hlen
    exact List.length_eq_one_iff.mp (Nat.add_right_cancel hlen)
  rw [List.mapM_cons, List.mapM_nil] at hvalues
  have hcopy : decodeCopy s₂.nc.mem copy = some localEntry := by
    obtain ⟨v, hv, hone⟩ := Option.bind_eq_some_iff.mp hvalues
    rw [hv]
    exact congrArg List.head? (Option.some.inj hone)
  obtain rfl : qs = [copy, 0] := hresults
  refine ⟨_, s₁, np, s₂, copy, hs, hset, hcalls, ?_, hcopy⟩
  exact fun h0 => hnonnull (h0 ▸ List.mem_singleton_self _)

end Librecompat.Netconfig
