/-
  One call of `getnetpath` on a handle that goes through the tokens of `NETPATH`.

  The table is loaded and stays as it is, and no allocation fails. `Reading` is the state of the
  handle between two calls; a call returns a copy of the entry for the first token that has one
  (`nextEntry_spec`).
-/
import Librecompat.Netconfig.Calls
import Librecompat.Netconfig.NetpathTokens
import Librecompat.Netconfig.Succeeds

namespace Librecompat.Netconfig

open Librecompat.Lib

/-! ## Loaded tables -/

theorem length_fgetsLines (n fuel : Nat) (error : Bool) (file : List UInt8) :
    ∀ l ∈ fgetsLines n error fuel file, l.1.length ≤ n := by
  induction fuel generalizing file with
  | zero => exact fun l hl => absurd hl List.not_mem_nil
  | succ fuel ih =>
    cases file with
    | nil => exact fun l hl => absurd hl List.not_mem_nil
    | cons c file =>
      intro l hl
      rcases List.mem_cons.mp hl with rfl | hl
      · simp only [List.length_take]
        omega
      · exact ih _ l hl

theorem mem_of_mapM {α γ : Type} {f : α → Option γ} {as : List α} {cs : List γ}
    (h : as.mapM f = some cs) {c : γ} (hc : c ∈ cs) : ∃ a ∈ as, f a = some c := by
  induction as generalizing cs with
  | nil =>
    obtain rfl := Option.some.inj h
    exact absurd hc List.not_mem_nil
  | cons a as ih =>
    rw [List.mapM_cons] at h
    obtain ⟨b, hb, h⟩ := Option.bind_eq_some_iff.mp h
    obtain ⟨bs, hbs, h⟩ := Option.bind_eq_some_iff.mp h
    obtain rfl := Option.some.inj h
    rcases List.mem_cons.mp hc with rfl | hc
    · exact ⟨a, List.mem_cons_self, hb⟩
    · obtain ⟨a', ha', hf⟩ := ih hbs hc
      exact ⟨a', List.mem_cons_of_mem a ha', hf⟩

theorem length_defaultLines : ∀ v4 v6, ∀ line ∈ defaultLines v4 v6, line.length ≤ 100 := by
  decide

/-- An entry that a load makes has no more names than a line has characters. -/
theorem length_lookups_database {db : Database} {table : List Entry}
    (h : database db = some table) {v : Entry} (hv : v ∈ table) :
    v.lookups.length < 2 ^ 60 := by
  unfold database at h
  split at h
  · unfold fileEntries at h
    dsimp only at h
    split at h
    · cases h
    · obtain ⟨l, hl, hp⟩ := mem_of_mapM h hv
      have hlen := length_fgetsLines _ _ _ _ l (List.mem_of_mem_filter hl)
      have hle := length_lookups_le hp
      unfold MAXNETCONFIGLINE at hlen
      omega
  · obtain ⟨line, hline, hp⟩ := mem_of_mapM h hv
    have hle := length_lookups_le hp
    have hlen := length_defaultLines _ _ line hline
    omega

/-! ## getnetconfigent -/

variable {A : Allocator Obj} {B : Allocator NpObj} {base : Heap Obj} {rs : List Row}

/-- At `q` there is an entry of its own with the value `v`. -/
def OwnAt (h : Heap Obj) (q : Nat) (v : Entry) (L : List Nat) : Prop :=
  q ≠ 0 ∧ ∃ e names, L = q :: blocks e names ∧ h.get q = some (.entries [some e]) ∧
    EntryAt h e v names

theorem OwnAt.congr {h h' : Heap Obj} {q : Nat} {v : Entry} {L : List Nat}
    (ho : OwnAt h q v L) (heq : ∀ a ∈ L, h'.get a = h.get a) : OwnAt h' q v L := by
  obtain ⟨hq, e, names, rfl, hget, he⟩ := ho
  exact ⟨hq, e, names, rfl, (heq q List.mem_cons_self).trans hget,
    he.congr fun a ha => heq a (List.mem_cons_of_mem q ha)⟩

theorem OwnAt.mono {h h' : Heap Obj} {q : Nat} {v : Entry} {L : List Nat}
    (ho : OwnAt h q v L) (hext : Extends h h') : OwnAt h' q v L := by
  obtain ⟨hq, e, names, rfl, hget, he⟩ := ho
  exact ⟨hq, e, names, rfl, hext _ _ hget, he.mono hext⟩

/-- The rows of a loaded table fit into the memory. -/
def Fits (rs : List Row) : Prop := ∀ r ∈ rs, r.value.lookups.length < 2 ^ 60

/-- On a loaded table: a copy of the first entry with the network id, or null with the error
    number of a missing entry. -/
theorem getnetconfigent_loaded (hA : ∀ n, A.fails n = false) (db : Database) {s : Nc}
    {netid : CString} (hne : netid.1 ≠ []) (hl : s.gLoaded = true) (t : Table base s rs)
    (hfits : Fits rs) :
    (∃ r ∈ rs, rs.find? (fun r => r.value.netid = netid.1) = some r ∧
      ∃ s' q L base', getnetconfigent A db (some netid) s = some (s', q) ∧ s'.gLoaded = true ∧
        Table base' s' rs ∧ Owned base base' L ∧ OwnAt base' q r.value L) ∨
    (rs.find? (fun r => r.value.netid = netid.1) = none ∧
      getnetconfigent A db (some netid) s = some (setError NC_NOTFOUND s, 0)) := by
  have t₁ : Table base (setError NC_NOTFOUND s) rs := t.congr rfl rfl rfl rfl
  have hensure : ensureEntriesLoaded A db (setError NC_NOTFOUND s) =
      some (setError NC_NOTFOUND s, true) := by
    unfold ensureEntriesLoaded
    rw [if_pos (show (setError NC_NOTFOUND s).gLoaded = true from hl)]
  unfold getnetconfigent
  dsimp only
  rw [if_neg hne, hensure]
  simp only [Option.bind_eq_bind, Option.bind_some, Bool.not_true, Bool.false_eq_true, if_false,
    t₁.readEntries, findEntry_eq netid.1 t₁.rows]
  cases hfind : rs.find? fun r => r.value.netid = netid.1 with
  | none => exact .inr ⟨rfl, rfl⟩
  | some r =>
    have hr := List.mem_of_find?_eq_some hfind
    have he := t₁.rows r hr
    obtain ⟨m₂, copy, hdup, hres⟩ := dupEntry_spec A he
    have hcopy : copy ≠ 0 :=
      dupEntry_ne hA he (Nat.le_of_lt (he.strs.length_eq ▸ hfits r hr)) hdup
    obtain ⟨_, e, names, hget, hat, o⟩ := hres.resolve_left fun h => hcopy h.1
    obtain ⟨base', o', t₂⟩ := t₁.over o
    have heq : ∀ a ∈ copy :: blocks e names, base'.get a = m₂.heap.get a := fun a ha =>
      o'.get_eq t₂.owned ha
    have hown : OwnAt m₂.heap copy r.value (copy :: blocks e names) :=
      ⟨hcopy, e, names, rfl, hget, hat⟩
    simp only [Option.map_some, hdup, Option.bind_some, if_neg hcopy]
    exact .inl ⟨r, hr, rfl, _, copy, _, base', rfl, hl, t₂, o', hown.congr heq⟩

/-! ## The tokens -/

/-- The first entries with the network ids `toks`, without the empty tokens and those that have
    no entry. -/
def entriesFor (table : List Entry) (toks : List (List UInt8)) : List Entry :=
  (toks.filter (· ≠ [])).filterMap fun tok => table.find? fun v => v.netid = tok

/-- The handle `h` at `np` between two calls: `rest` are the tokens it still has to go through,
    `got` the copies handed out so far. -/
structure Reading (s : Np) (np : Nat) (h : NpHandle) (base : Heap Obj) (rs : List Row)
    (rest : List (List UInt8)) (got : List (Nat × Entry)) : Prop where
  loaded : s.nc.gLoaded = true
  table : Table base s.nc rs
  handle : s.mem.heap.get np = some (.handle h)
  magic : h.magic = NP_HANDLE_MAGIC
  tokens : h.useVisible = false
  tail : h.allocTail = 0 ∨ ∃ n, s.mem.heap.get h.allocTail = some (.node n)
  buf : ∃ bs, base.get h.netpathBuf = some (.str bs) ∧
    ((h.cursor = none ∧ rest = []) ∨ ∃ pre w t, h.cursor = some pre.length ∧
      bs = pre ++ (w ++ 0 :: t) ∧ 0 ∉ w ∧ rest = pieces w)
  copies : ∀ c ∈ got, ∃ L, h.netpathBuf ∉ L ∧ OwnAt base c.1 c.2 L
  distinct : (got.map Prod.fst).Nodup

variable {s : Np} {np : Nat} {h : NpHandle} {rest : List (List UInt8)} {got : List (Nat × Entry)}

/-- The error number is not part of it. -/
theorem Reading.setError (r : Reading s np h base rs rest got) (err : Errno) :
    Reading { s with nc := setError err s.nc } np h base rs rest got :=
  ⟨r.loaded, r.table.congr rfl rfl rfl rfl, r.handle, r.magic, r.tokens, r.tail, r.buf, r.copies,
    r.distinct⟩

theorem readStr_of_get {m : Mem Obj} {p : Nat} {bs : List UInt8}
    (hget : m.heap.get p = some (.str bs)) : readStr m p = some bs := by
  rw [readStr, hget]

/-- The next token is cut off. -/
theorem Reading.token (r : Reading s np h base rs rest got) {pos : Nat}
    (hcursor : h.cursor = some pos) :
    ∃ bs bs' cursor rest' ncMem mem, readStr s.nc.mem h.netpathBuf = some bs ∧
      netpathNextToken bs pos colon = some (bs', cursor) ∧
      store s.nc.mem h.netpathBuf (.str bs') = some ncMem ∧
      store s.mem np (.handle { h with cursor := cursor }) = some mem ∧
      rest = cstr (bs'.drop pos) :: rest' ∧
      Reading { nc := { s.nc with mem := ncMem }, mem := mem } np { h with cursor := cursor }
        (base.set h.netpathBuf (.str bs')) rs rest' got := by
  obtain ⟨bs, hbuf, ⟨hnone, _⟩ | ⟨pre, w, t, hpos, rfl, hw, rfl⟩⟩ := r.buf
  · rw [hcursor] at hnone
    cases hnone
  · obtain rfl : pos = pre.length := Option.some.inj (hcursor.symm.trans hpos)
    obtain ⟨bs', cursor, hnext, _, hres⟩ := netpathNextToken_spec hw pre t
    obtain ⟨ncMem, hst, t', _⟩ := r.table.storeBase (.str bs') hbuf
    have hread := readStr_of_get (r.table.owned.extends _ _ hbuf)
    have hnp : h.allocTail ≠ 0 → h.allocTail ≠ np := by
      rintro hne rfl
      rcases r.tail with h0 | ⟨n, hn⟩
      · exact hne h0
      · rw [r.handle] at hn
        cases hn
    have htail : h.allocTail = 0 ∨ ∃ n,
        (s.mem.heap.set np (.handle { h with cursor := cursor })).get h.allocTail =
          some (.node n) := by
      rcases r.tail with h0 | ⟨n, hn⟩
      · exact .inl h0
      · by_cases h0 : h.allocTail = 0
        · exact .inl h0
        · exact .inr ⟨n, (Heap.get_set_ne _ _ (hnp h0)).trans hn⟩
    have hcopies : ∀ c ∈ got, ∃ L, h.netpathBuf ∉ L ∧
        OwnAt (base.set h.netpathBuf (.str bs')) c.1 c.2 L := by
      intro c hc
      obtain ⟨L, hL, ho⟩ := r.copies c hc
      exact ⟨L, hL, ho.congr fun a ha => Heap.get_set_ne _ _ fun heq => hL (heq ▸ ha)⟩
    have hbuf' : (base.set h.netpathBuf (.str bs')).get h.netpathBuf = some (.str bs') :=
      Heap.get_set_self _ _ _
    rcases hres with ⟨rfl, hpieces⟩ | ⟨pre', w', rfl, hbs', hw', _, hpieces⟩
    · exact ⟨_, bs', none, [], ncMem, _, hread, hnext, hst, store_live r.handle, hpieces,
        r.loaded, t', Heap.get_set_self _ _ _, r.magic, r.tokens, htail,
        ⟨bs', hbuf', .inl ⟨rfl, rfl⟩⟩, hcopies, r.distinct⟩
    · exact ⟨_, bs', _, pieces w', ncMem, _, hread, hnext, hst, store_live r.handle, hpieces,
        r.loaded, t', Heap.get_set_self _ _ _, r.magic, r.tokens, htail,
        ⟨bs', hbuf', .inr ⟨pre', w', t, rfl, hbs', hw', rfl⟩⟩, hcopies, r.distinct⟩

/-- A copy is put on the list of the handle. -/
theorem Reading.track (hB : ∀ n, B.fails n = false) (r : Reading s np h base rs rest got)
    {nc : Nc} {base' : Heap Obj} {q : Nat} {v : Entry} {L : List Nat}
    (hl : nc.gLoaded = true) (t : Table base' nc rs) (o : Owned base base' L)
    (hq : OwnAt base' q v L) :
    ∃ mem h', netpathTrackEntry B s.mem np h q = some (mem, some h') ∧
      Reading { nc := nc, mem := mem } np h' base' rs rest (got ++ [(q, v)]) := by
  obtain ⟨bs, hbuf, hcursor⟩ := r.buf
  have hcopies : ∀ c ∈ got ++ [(q, v)], ∃ L, h.netpathBuf ∉ L ∧ OwnAt base' c.1 c.2 L := by
    intro c hc
    rcases List.mem_append.mp hc with hc | hc
    · obtain ⟨L', hL', ho⟩ := r.copies c hc
      exact ⟨L', hL', ho.mono o.extends⟩
    · obtain rfl := List.mem_singleton.mp hc
      exact ⟨L, o.not_mem hbuf, hq⟩
  have hdistinct : ((got ++ [(q, v)]).map Prod.fst).Nodup := by
    rw [List.map_append]
    refine r.distinct.append (List.nodup_singleton q) fun a ha hqa => ?_
    obtain rfl := List.mem_singleton.mp hqa
    obtain ⟨c, hc, rfl⟩ := List.mem_map.mp ha
    obtain ⟨_, _, _, _, _, _, hget, _⟩ := r.copies c hc
    obtain ⟨_, _, _, rfl, _⟩ := hq
    exact o.not_mem hget List.mem_cons_self
  unfold netpathTrackEntry
  obtain ⟨hf, _⟩ | ⟨_, node, hnode, hfresh, hm⟩ :=
    malloc_cases B s.mem (.node { entry := q, next := 0 })
  · rw [hB] at hf
    cases hf
  · have hne : ∀ {a : Nat} {b : NpObj}, s.mem.heap.get a = some b → a ≠ node := by
      rintro a b hb rfl
      rw [hfresh] at hb
      cases hb
    have hkeep : ∀ {a : Nat} {b : NpObj}, s.mem.heap.get a = some b →
        (s.mem.heap.set node (.node { entry := q, next := 0 })).get a = some b :=
      fun hb => (Heap.get_set_ne _ _ (hne hb)).trans hb
    have hnode' := Heap.get_set_self s.mem.heap node (.node { entry := q, next := 0 })
    have hnp := hkeep r.handle
    rw [hm]
    generalize s.mem.heap.set node _ = heap₁ at hkeep hnode' hnp ⊢
    simp only [if_neg hnode]
    by_cases h0 : h.allocTail = 0
    · have hst := store_live (m := { heap := heap₁, calls := s.mem.calls + 1 })
        (c := .handle { h with allocHead := node, allocTail := node }) hnp
      rw [if_neg (not_not.mpr h0)]
      simp only [Option.bind_eq_bind, Option.bind_some, hst]
      refine ⟨_, { h with allocHead := node, allocTail := node }, rfl, hl, t,
        Heap.get_set_self _ _ _, r.magic, r.tokens, ?_, ⟨bs, o.extends _ _ hbuf, hcursor⟩, hcopies,
        hdistinct⟩
      exact .inr ⟨_, (Heap.get_set_ne _ _ (hne r.handle).symm).trans hnode'⟩
    · obtain ⟨n, hn⟩ := r.tail.resolve_left h0
      have hnptail : np ≠ h.allocTail := by
        intro heq
        rw [← heq, r.handle] at hn
        cases hn
      have hst := store_live (m := { heap := heap₁, calls := s.mem.calls + 1 })
        (c := .node { n with next := node }) (hkeep hn)
      have hnp₂ : (heap₁.set h.allocTail (.node { n with next := node })).get np =
          some (.handle h) := (Heap.get_set_ne _ _ hnptail).trans hnp
      have hst₂ := store_live (m := { heap := heap₁.set h.allocTail (.node { n with next := node }),
                                      calls := s.mem.calls + 1 })
        (c := .handle { h with allocTail := node }) hnp₂
      rw [if_pos h0, hkeep hn]
      simp only [Option.bind_eq_bind, hst, Option.map_some, Option.bind_some, hst₂]
      refine ⟨_, { h with allocTail := node }, rfl, hl, t, Heap.get_set_self _ _ _, r.magic,
        r.tokens, ?_, ⟨bs, o.extends _ _ hbuf, hcursor⟩, hcopies, hdistinct⟩
      have hnode₂ := (Heap.get_set_ne heap₁ (.node { n with next := node }) (hne hn).symm).trans hnode'
      exact .inr ⟨_, (Heap.get_set_ne _ _ (hne r.handle).symm).trans hnode₂⟩

theorem entriesFor_cons (table : List Entry) (tok : List UInt8) (toks : List (List UInt8)) :
    entriesFor table (tok :: toks) =
      if tok = [] then entriesFor table toks
      else
        match table.find? fun v => v.netid = tok with
        | none => entriesFor table toks
        | some v => v :: entriesFor table toks := by
  unfold entriesFor
  split
  · next h => rw [List.filter_cons_of_neg (by simp [h])]
  · next h =>
    rw [List.filter_cons_of_pos (by simp [h]), List.filterMap_cons]
    cases table.find? fun v => v.netid = tok <;> rfl

/-- One call: the loop goes on to the first token that has an entry, and returns a copy of it;
    without such a token it ends with null. -/
theorem nextEntry_spec (hA : ∀ n, A.fails n = false) (hB : ∀ n, B.fails n = false)
    (db : Database) (hfits : Fits rs) : ∀ {n : Nat} {s : Np} {h : NpHandle} {base : Heap Obj}
      {rest : List (List UInt8)}, Reading s np h base rs rest got → rest.length < n →
    ∃ s' q h' base' rest' got', nextEntry A B db np n s h = some (s', q) ∧
      Reading s' np h' base' rs rest' got' ∧
      ((entriesFor (rs.map Row.value) rest = [] ∧ q = 0 ∧ rest' = [] ∧ got' = got) ∨
       ∃ v, entriesFor (rs.map Row.value) rest = v :: entriesFor (rs.map Row.value) rest' ∧
         q ≠ 0 ∧ got' = got ++ [(q, v)]) := by
  intro n
  induction n with
  | zero => exact fun _ hlt => absurd hlt (Nat.not_lt_zero _)
  | succ n ih =>
    intro s h base rest r hlt
    unfold nextEntry
    cases hcursor : h.cursor with
    | none =>
      obtain ⟨bs, _, ⟨_, rfl⟩ | ⟨_, _, _, hsome, _⟩⟩ := r.buf
      · exact ⟨s, 0, h, base, [], got, rfl, r, .inl ⟨rfl, rfl, rfl, rfl⟩⟩
      · rw [hcursor] at hsome
        cases hsome
    | some pos =>
      obtain ⟨bs, bs', cursor, rest', ncMem, mem, hread, hnext, hst, hst', rfl, r'⟩ :=
        r.token hcursor
      rw [List.length_cons] at hlt
      simp only [Option.bind_eq_bind, hread, Option.bind_some, hnext, hst, hst']
      rw [entriesFor_cons]
      split
      · exact ih r' (by omega)
      · next hne =>
        obtain ⟨e, he, hfind, s₁, q, L, base', hcall, hl, t, o, hq⟩ | ⟨hfind, hcall⟩ :=
          @getnetconfigent_loaded A _ rs hA db _ ⟨cstr (bs'.drop pos), zero_not_mem_cstr _⟩ hne
            r'.loaded r'.table hfits
        · have htable : ((rs.map Row.value).find? fun v => v.netid = cstr (bs'.drop pos)) =
              some e.value := by
            rw [List.find?_map]
            exact congrArg (Option.map Row.value) hfind
          obtain ⟨mem', h', htrack, r''⟩ := r'.track hB hl t o hq
          simp only [hcall, Option.bind_some, if_neg hq.1, htrack, htable]
          exact ⟨_, q, h', base', rest', _, rfl, r'', .inr ⟨e.value, rfl, hq.1, rfl⟩⟩
        · have htable : ((rs.map Row.value).find? fun v => v.netid = cstr (bs'.drop pos)) =
              none := by
            rw [List.find?_map]
            exact congrArg (Option.map Row.value) hfind
          have herr : (Netconfig.setError NC_NOTFOUND { s.nc with mem := ncMem }).ncError =
              NC_NOTFOUND := rfl
          simp only [hcall, Option.bind_some, if_true, herr, htable]
          exact ih ((r'.setError NC_NOTFOUND).setError 0) (by omega)

end Librecompat.Netconfig
