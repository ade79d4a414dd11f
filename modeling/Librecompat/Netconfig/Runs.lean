/-
  Every interleaving of the netconfig calls keeps the shared table consistent.

  A `World` is the state of the file together with what the callers have seen: the live handles,
  each with the table it was opened on and the results it has given, the entries handed out
  since there was last no handle, and the database the table was loaded from. `step` runs one
  call under the lock, with the error number of the calling thread and the database a load would
  find; `Allowed` says that handles are used only while they are live and that there are fewer
  than `2 ^ 32`. `Inv` is what every allowed call keeps (`step_inv`), whichever allocations and
  loads fail; `Inv.consistent` reads off what it says about the table and the handles.
-/
import Librecompat.Netconfig.Calls
import Librecompat.Lib.Run

namespace Librecompat.Netconfig

open Librecompat.Lib

inductive Call where
  | setnetconfig
  | getnetconfig (handle : Nat)
  | endnetconfig (handle : Nat)
  | getnetconfigent (netid : Option CString)

/-- A call, with the calling thread's error number and what a load would find. -/
structure Event where
  call : Call
  err : Errno
  db : Database

/-- A handle that has not been closed: its address, the state in which `setnetconfig` left the
    table, and what `getnetconfig` has returned for it. -/
structure Live where
  addr : Nat
  opened : Nc
  results : List Nat

structure World where
  nc : Nc
  source : Option Database
  live : List Live
  handed : List (Nat × Nc)

/-- The state at the start of the process, with whatever memory the callers have. -/
def World.start (m : Mem Obj) : World :=
  { nc := { mem := m, gEntries := 0, gEntryCount := 0, gEntryCap := 0, gRefcount := 0,
            gLoaded := false, ncError := 0 },
    source := none, live := [], handed := [] }

/-- A call has left the state `s`. -/
def World.after (w : World) (s : Nc) (db : Database) : World :=
  { w with
    nc := s
    source := if !s.gLoaded then none else if w.nc.gLoaded then w.source else some db }

def World.opens (w : World) (p : Nat) : World :=
  { w with live := w.live ++ [{ addr := p, opened := w.nc, results := [] }] }

/-- `getnetconfig (p)` has returned `q`. -/
def World.returns (w : World) (p q : Nat) : World :=
  { w with
    live := w.live.map fun l => if l.addr = p then { l with results := l.results ++ [q] } else l
    handed := if q = 0 then w.handed else w.handed ++ [(q, w.nc)] }

def World.closes (w : World) (p : Nat) : World :=
  let live := w.live.filter fun l => l.addr ≠ p
  { w with live := live, handed := if live.isEmpty then [] else w.handed }

variable (A : Allocator Obj)

/-- One call as an atomic step. -/
def step (w : World) (e : Event) : Option World :=
  let s := setError e.err w.nc
  match e.call with
  | .setnetconfig => (setnetconfig A e.db s).map fun (s, p) =>
    if p = 0 then w.after s e.db else (w.after s e.db).opens p
  | .getnetconfig p => (getnetconfig p s).map fun (s, q) => (w.after s e.db).returns p q
  | .endnetconfig p => (endnetconfig p s).map fun (s, _) => (w.after s e.db).closes p
  | .getnetconfigent netid => (getnetconfigent A e.db netid s).map fun (s, _) => w.after s e.db

/-- A handle is null or live when it is used, and there is room for one more to be opened. -/
def Allowed (w : World) (e : Event) : Prop :=
  match e.call with
  | .setnetconfig => w.live.length + 1 < 2 ^ 32
  | .getnetconfig p => p = 0 ∨ ∃ l ∈ w.live, l.addr = p
  | .endnetconfig p => p = 0 ∨ ∃ l ∈ w.live, l.addr = p
  | .getnetconfigent _ => True

instance (w : World) (e : Event) : Decidable (Allowed w e) := by
  unfold Allowed
  split <;> infer_instance

/-! ## What consistency means -/

/-- The table of `s` has been neither freed nor moved nor written in `s'`. -/
structure SameTable (s s' : Nc) : Prop where
  entries : s'.gEntries = s.gEntries
  count : s'.gEntryCount = s.gEntryCount
  blocks : ∃ L, tableBlocks s = some L ∧ tableBlocks s' = some L ∧
    ∀ a ∈ L, ∃ b, s.mem.heap.get a = some b ∧ s'.mem.heap.get a = some b

/-- The first `n` results of a handle on the table of `s`: its entries in order, then null. -/
def resultsOn (s : Nc) (n : Nat) : List Nat :=
  (List.range n).map fun i => if i < s.gEntryCount then entryAddr s i else 0

structure Consistent (w : World) : Prop where
  refcount : w.nc.gRefcount = w.live.length
  loaded : 0 < w.nc.gRefcount → w.nc.gLoaded = true
  whole : (w.nc.gLoaded = true ∧ ∃ db es, w.source = some db ∧ database db = some es ∧
      decodeTable w.nc = some es ∧ w.nc.gEntryCount = es.length) ∨ Empty w.nc
  results : ∀ l ∈ w.live, l.results = resultsOn l.opened l.results.length
  same : ∀ l ∈ w.live, SameTable l.opened w.nc
  handed : ∀ x ∈ w.handed, SameTable x.2 w.nc ∧ ∃ i < x.2.gEntryCount, x.1 = entryAddr x.2 i

/-! ## The invariant -/

structure LiveAt (base : Heap Obj) (rs : List Row) (s : Nc) (l : Live) : Prop where
  addr : l.addr ≠ 0
  handle : base.get l.addr = some (openHandle (min l.results.length rs.length))
  results : l.results = resultsOn l.opened l.results.length
  kept : Kept rs l.opened s

structure InvAt (base : Heap Obj) (rs : List Row) (w : World) : Prop where
  table : Table base w.nc rs
  live : ∀ l ∈ w.live, LiveAt base rs w.nc l
  distinct : (w.live.map Live.addr).Nodup
  loaded : w.live ≠ [] → w.nc.gLoaded = true
  whole : (w.nc.gLoaded = true ∧ ∃ db, w.source = some db ∧
    database db = some (rs.map Row.value)) ∨ Empty w.nc
  handed : ∀ x ∈ w.handed, w.live ≠ [] ∧ Kept rs x.2 w.nc ∧
    ∃ i < rs.length, x.1 = entryAddr x.2 i

structure Inv (w : World) : Prop where
  rows : ∃ base rs, InvAt base rs w
  refcount : w.nc.gRefcount = w.live.length
  few : w.live.length < 2 ^ 32

variable {base base' : Heap Obj} {rs rs' : List Row} {w : World} {s s' : Nc}

theorem Kept.sameTable (k : Kept rs s s') (t : Table base s' rs) : SameTable s s' := by
  obtain ⟨base₀, t₀⟩ := k.table
  have hb := t.blocks
  rw [k.entries] at hb
  refine ⟨k.entries, t.count.trans t₀.count.symm, _, t₀.blocks, hb, fun a ha => ?_⟩
  obtain ⟨_, _, b, hget⟩ := t₀.owned.fresh a ha
  exact ⟨b, hget, (k.get a ha).trans hget⟩

theorem Inv.consistent (hi : Inv w) : Consistent w := by
  obtain ⟨⟨base, rs, hat⟩, href, _⟩ := hi
  refine ⟨href, fun hpos => hat.loaded ?_, ?_, fun l hl => (hat.live l hl).results,
    fun l hl => (hat.live l hl).kept.sameTable hat.table, fun x hx => ?_⟩
  · intro hnil
    rw [href, hnil] at hpos
    exact absurd hpos (Nat.lt_irrefl 0)
  · rcases hat.whole with ⟨hl, db, hsource, hdb⟩ | he
    · refine .inl ⟨hl, db, _, hsource, hdb, hat.table.decode, ?_⟩
      rw [hat.table.count, List.length_map]
    · exact .inr he
  · obtain ⟨_, hk, i, hlt, haddr⟩ := hat.handed x hx
    obtain ⟨_, t₀⟩ := hk.table
    exact ⟨hk.sameTable hat.table, i, by rw [t₀.count]; exact hlt, haddr⟩

theorem inv_start (m : Mem Obj) : Inv (World.start m) := by
  have he : Empty (World.start m).nc := ⟨rfl, rfl, rfl, rfl⟩
  exact ⟨⟨_, [], he.table, fun _ hl => absurd hl List.not_mem_nil, List.nodup_nil,
    fun hne => absurd rfl hne, .inr he, fun _ hx => absurd hx List.not_mem_nil⟩, rfl,
    Nat.two_pow_pos 32⟩

/-! ## What a step keeps -/

theorem LiveAt.after {l : Live} (hl : LiveAt base rs s l) (k : Kept rs s s')
    (hb : base'.get l.addr = base.get l.addr) : LiveAt base' rs s' l :=
  ⟨hl.addr, hb.trans hl.handle, hl.results, hl.kept.trans k⟩

/-- The table is kept, and so are the handles. -/
theorem InvAt.after (hi : InvAt base rs w) (db : Database) (t : Table base' s' rs)
    (k : Kept rs w.nc s') (hb : ∀ l ∈ w.live, base'.get l.addr = base.get l.addr)
    (hl : w.nc.gLoaded = true → s'.gLoaded = true) (he : Empty w.nc → Empty s') :
    InvAt base' rs (w.after s' db) := by
  refine ⟨t, fun l hm => (hi.live l hm).after k (hb l hm), hi.distinct,
    fun hne => hl (hi.loaded hne), ?_, fun x hx => ?_⟩
  · rcases hi.whole with ⟨hload, db', hsource, hdb⟩ | hempty
    · refine .inl ⟨hl hload, db', ?_, hdb⟩
      simp [World.after, hl hload, hload, hsource]
    · exact .inr (he hempty)
  · obtain ⟨hne, hk, hmem⟩ := hi.handed x hx
    exact ⟨hne, hk.trans k, hmem⟩

/-- The call has loaded the table. -/
theorem InvAt.loads (hi : InvAt base rs w) {db : Database} (t : Table base' s' rs')
    (hnl : w.nc.gLoaded = false) (hl : s'.gLoaded = true)
    (hdb : database db = some (rs'.map Row.value)) : InvAt base' rs' (w.after s' db) := by
  have hlive : w.live = [] := by
    by_contra hne
    rw [hi.loaded hne] at hnl
    cases hnl
  refine ⟨t, ?_, hi.distinct, fun _ => hl, .inl ⟨hl, db, ?_, hdb⟩, fun x hx => ?_⟩
  · intro l hm
    rw [show (w.after s' db).live = [] from hlive] at hm
    exact absurd hm List.not_mem_nil
  · simp [World.after, hl, hnl]
  · exact absurd hlive (hi.handed x hx).1

/-- A new handle starts at entry `0`. -/
theorem InvAt.opens (hi : InvAt base rs w) {p : Nat} (hp : p ≠ 0) (hl : w.nc.gLoaded = true)
    (hh : base.get p = some (openHandle 0)) (hnew : ∀ l ∈ w.live, l.addr ≠ p) :
    InvAt base rs (w.opens p) := by
  refine ⟨hi.table, ?_, ?_, fun _ => hl, hi.whole, fun x hx => ?_⟩
  · intro l hm
    rcases List.mem_append.mp hm with hm | hm
    · exact hi.live l hm
    · rw [List.mem_singleton.mp hm]
      exact ⟨hp, by simpa using hh, rfl, hi.table.kept⟩
  · show ((w.live ++ _).map Live.addr).Nodup
    rw [List.map_append, List.nodup_append]
    refine ⟨hi.distinct, by simp, ?_⟩
    intro a ha b hb
    obtain ⟨l, hm, rfl⟩ := List.mem_map.mp ha
    rw [List.map_singleton, List.mem_singleton] at hb
    exact hb ▸ hnew l hm
  · obtain ⟨_, hrest⟩ := hi.handed x hx
    exact ⟨by simp [World.opens], hrest⟩

/-- A handle gives its next result. -/
theorem LiveAt.returns {l : Live} {q : Nat} (hl : LiveAt base rs s l) (k : Kept rs s s')
    (hb : base'.get l.addr = some (openHandle (min (l.results.length + 1) rs.length)))
    (hq : q = if l.results.length < rs.length then entryAddr s' l.results.length else 0) :
    LiveAt base' rs s' { l with results := l.results ++ [q] } := by
  have hk := hl.kept.trans k
  obtain ⟨_, t₀⟩ := hk.table
  refine ⟨hl.addr, ?_, ?_, hk⟩
  · rw [List.length_append, List.length_singleton]
    exact hb
  · show l.results ++ [q] = resultsOn l.opened (l.results ++ [q]).length
    have hres := hl.results
    unfold resultsOn at hres ⊢
    rw [List.length_append, List.length_singleton, List.range_succ, List.map_append, ← hres,
      List.map_singleton, t₀.count, hq, entryAddr, entryAddr, hk.entries]

theorem InvAt.returns (hi : InvAt base rs w) {l : Live} {q : Nat} (hm : l ∈ w.live)
    (db : Database) (hl : s'.gLoaded = true) (k : Kept rs w.nc s') (t : Table base' s' rs)
    (hself : base'.get l.addr = some (openHandle (min (l.results.length + 1) rs.length)))
    (hother : ∀ a, a ≠ l.addr → base'.get a = base.get a)
    (hq : q = if l.results.length < rs.length then entryAddr s' l.results.length else 0) :
    InvAt base' rs ((w.after s' db).returns l.addr q) := by
  have hne : w.live ≠ [] := List.ne_nil_of_mem hm
  refine ⟨t, fun q' hq' => ?_, ?_, fun _ => hl, ?_, fun x hx => ?_⟩
  · obtain ⟨l', hm', rfl⟩ := List.mem_map.mp hq'
    by_cases heq : l'.addr = l.addr
    · obtain rfl : l' = l := List.inj_on_of_nodup_map hi.distinct hm' hm heq
      rw [if_pos rfl]
      exact (hi.live l' hm').returns k hself hq
    · rw [if_neg heq]
      exact (hi.live l' hm').after k (hother l'.addr heq)
  · have heq : ((w.after s' db).returns l.addr q).live.map Live.addr = w.live.map Live.addr := by
      show (w.live.map _).map Live.addr = _
      rw [List.map_map]
      refine List.map_congr_left fun l' _ => ?_
      show Live.addr (if l'.addr = l.addr then _ else l') = l'.addr
      split <;> rfl
    rw [heq]
    exact hi.distinct
  · have hload := hi.loaded hne
    rcases hi.whole with ⟨_, db', hsource, hdb⟩ | he
    · refine .inl ⟨hl, db', ?_, hdb⟩
      simp [World.returns, World.after, hl, hload, hsource]
    · rw [he.loaded] at hload
      cases hload
  · have hne' : ((w.after s' db).returns l.addr q).live ≠ [] := by
      simpa [World.returns, World.after] using hne
    have hold : x ∈ w.handed → Kept rs x.2 s' ∧ ∃ i < rs.length, x.1 = entryAddr x.2 i :=
      fun hx => let ⟨_, hk, hmem⟩ := hi.handed x hx
      ⟨hk.trans k, hmem⟩
    refine ⟨hne', ?_⟩
    rw [World.returns] at hx
    split at hx
    · exact hold hx
    · next hq0 =>
      rcases List.mem_append.mp hx with hx | hx
      · exact hold hx
      · rw [List.mem_singleton.mp hx]
        by_cases hi : l.results.length < rs.length
        · exact ⟨t.kept, _, hi, by rw [hq, if_pos hi]; rfl⟩
        · rw [if_neg hi] at hq
          exact absurd hq hq0

/-- A handle is closed while others are live. -/
theorem InvAt.closes (hi : InvAt base rs w) {p : Nat} (db : Database) (hl : s'.gLoaded = true)
    (k : Kept rs w.nc s') (t : Table base' s' rs)
    (hother : ∀ a, a ≠ p → base'.get a = base.get a)
    (hne : (w.live.filter fun l => l.addr ≠ p) ≠ []) :
    InvAt base' rs ((w.after s' db).closes p) := by
  have hload : w.nc.gLoaded = true := hi.loaded fun hnil => by simp [hnil] at hne
  refine ⟨t, fun l hm => ?_, ?_, fun _ => hl, ?_, fun x hx => ?_⟩
  · obtain ⟨hm, hp⟩ := List.mem_filter.mp hm
    exact (hi.live l hm).after k (hother l.addr (of_decide_eq_true hp))
  · exact hi.distinct.sublist (List.filter_sublist.map Live.addr)
  · rcases hi.whole with ⟨_, db', hsource, hdb⟩ | he
    · refine .inl ⟨hl, db', ?_, hdb⟩
      simp [World.closes, World.after, hl, hload, hsource]
    · rw [he.loaded] at hload
      cases hload
  · have hx : x ∈ w.handed := by
      rw [World.closes] at hx
      dsimp only at hx
      split at hx
      · exact absurd hx List.not_mem_nil
      · exact hx
    obtain ⟨_, hk, hmem⟩ := hi.handed x hx
    exact ⟨hne, hk.trans k, hmem⟩

/-- The last handle is closed. -/
theorem invAt_closes_last (w : World) {p : Nat} (db : Database) (he : Empty s')
    (hnil : (w.live.filter fun l => l.addr ≠ p) = []) :
    InvAt s'.mem.heap [] ((w.after s' db).closes p) := by
  have hlive : ((w.after s' db).closes p).live = [] := hnil
  have hhanded : ((w.after s' db).closes p).handed = [] := by
    show (if ((w.after s' db).live.filter fun l => l.addr ≠ p).isEmpty then [] else _) = []
    rw [if_pos]
    exact List.isEmpty_iff.mpr hnil
  refine ⟨he.table, ?_, ?_, fun hne => absurd hlive hne, .inr he, ?_⟩
  · rw [hlive]
    exact fun _ hm => absurd hm List.not_mem_nil
  · rw [hlive]
    exact List.nodup_nil
  · rw [hhanded]
    exact fun _ hm => absurd hm List.not_mem_nil

theorem length_filter_addr {ls : List Live} (hnd : (ls.map Live.addr).Nodup) {l : Live}
    (hm : l ∈ ls) : (ls.filter fun q => q.addr ≠ l.addr).length + 1 = ls.length := by
  induction ls with
  | nil => exact absurd hm List.not_mem_nil
  | cons q ls ih =>
    rw [List.map_cons, List.nodup_cons] at hnd
    rcases List.mem_cons.mp hm with rfl | hm
    · rw [List.filter_cons_of_neg (by simp), List.filter_eq_self.mpr, List.length_cons]
      intro q hq
      exact decide_eq_true fun heq => hnd.1 (heq ▸ List.mem_map_of_mem hq)
    · have hne : q.addr ≠ l.addr := fun heq => hnd.1 (heq ▸ List.mem_map_of_mem hm)
      rw [List.filter_cons_of_pos (by simpa using hne), List.length_cons, List.length_cons,
        ih hnd.2 hm]

theorem InvAt.state (hi : InvAt base rs w) : w.nc.gLoaded = true ∨ Empty w.nc :=
  hi.whole.imp And.left id

theorem Inv.setError (hi : Inv w) (err : Errno) : Inv { w with nc := setError err w.nc } := by
  obtain ⟨⟨base, rs, hat⟩, href, hfew⟩ := hi
  refine ⟨⟨base, rs, hat.table.congr rfl rfl rfl rfl, fun l hl => ?_, hat.distinct, hat.loaded,
    hat.whole.imp id fun he => he.congr rfl rfl rfl rfl, fun x hx => ?_⟩, href, hfew⟩
  · obtain ⟨haddr, hh, hres, hk⟩ := hat.live l hl
    exact ⟨haddr, hh, hres, hk.table, hk.entries, hk.get⟩
  · obtain ⟨hne, hk, hmem⟩ := hat.handed x hx
    exact ⟨hne, ⟨hk.table, hk.entries, hk.get⟩, hmem⟩

theorem setnetconfig_inv (hi : Inv w) (db : Database) (hroom : w.live.length + 1 < 2 ^ 32) :
    ∃ s p, setnetconfig A db w.nc = some (s, p) ∧
      Inv (if p = 0 then w.after s db else (w.after s db).opens p) := by
  obtain ⟨⟨base, rs, hat⟩, href, hfew⟩ := hi
  obtain ⟨s, p, hs, ⟨rfl, href', hl, t, k, he⟩ |
    ⟨hp, href', hl, hnew, base', rs', t, hh, hframe, hsame, hdb⟩⟩ :=
    setnetconfig_cases A db hat.state hat.table
  · refine ⟨s, 0, hs, ⟨base, rs, hat.after db t k (fun _ _ => rfl) (fun h => hl.trans h) he⟩, ?_,
      hfew⟩
    exact href'.trans href
  · have hne : ∀ l ∈ w.live, l.addr ≠ p := by
      rintro l hm rfl
      rw [(hat.live l hm).handle] at hnew
      cases hnew
    have hat' : InvAt base' rs' (w.after s db) := by
      cases hload : w.nc.gLoaded with
      | true =>
        obtain ⟨rfl, k⟩ := hsame hload
        refine hat.after db t k (fun l hm => hframe l.addr (hne l hm)) (fun _ => hl) fun he => ?_
        rw [he.loaded] at hload
        cases hload
      | false => exact hat.loads t hload hl (hdb hload)
    refine ⟨s, p, hs, ?_⟩
    rw [if_neg hp]
    have hlen : ((w.after s db).opens p).live.length = w.live.length + 1 := by
      simp [World.opens, World.after]
    refine ⟨⟨base', rs', hat'.opens hp hl hh hne⟩, ?_, by rw [hlen]; exact hroom⟩
    rw [hlen]
    show s.gRefcount = w.live.length + 1
    rw [href', href, Nat.mod_eq_of_lt hroom]

theorem InvAt.null (hi : InvAt base rs w) (db : Database) :
    InvAt base rs (w.after (Netconfig.setError NC_NOTINIT w.nc) db) :=
  hi.after db (hi.table.congr rfl rfl rfl rfl) ⟨⟨base, hi.table⟩, rfl, fun _ _ => rfl⟩
    (fun _ _ => rfl) id fun he => he.congr rfl rfl rfl rfl

/-- A call on the null pointer changes no handle. -/
theorem InvAt.returns_null (hi : InvAt base rs w) : w.returns 0 0 = w := by
  have hlive : (w.live.map fun l => if l.addr = 0 then { l with results := l.results ++ [0] }
      else l) = w.live := by
    refine (List.map_congr_left fun l hm => ?_).trans (List.map_id w.live)
    rw [if_neg (hi.live l hm).addr]
    rfl
  rw [World.returns, hlive, if_pos rfl]

theorem InvAt.closes_null (hi : InvAt base rs w) : w.closes 0 = w := by
  have hlive : (w.live.filter fun l => l.addr ≠ 0) = w.live :=
    List.filter_eq_self.mpr fun l hm => decide_eq_true (hi.live l hm).addr
  rw [World.closes, hlive]
  by_cases hnil : w.live = []
  · have hhanded : w.handed = [] := List.eq_nil_iff_forall_not_mem.mpr fun x hx =>
      (hi.handed x hx).1 hnil
    rw [if_pos (List.isEmpty_iff.mpr hnil), ← hhanded]
  · rw [if_neg (List.isEmpty_iff.not.mpr hnil)]

theorem getnetconfig_inv (hi : Inv w) (db : Database) {p : Nat}
    (hp : p = 0 ∨ ∃ l ∈ w.live, l.addr = p) :
    ∃ s q, getnetconfig p w.nc = some (s, q) ∧ Inv ((w.after s db).returns p q) := by
  obtain ⟨⟨base, rs, hat⟩, href, hfew⟩ := hi
  have hlen : ∀ s q, ((w.after s db).returns p q).live.length = w.live.length := by
    simp [World.returns, World.after]
  rcases hp with rfl | ⟨l, hm, rfl⟩
  · refine ⟨Netconfig.setError NC_NOTINIT w.nc, 0, rfl, ?_⟩
    rw [(hat.null db).returns_null]
    exact ⟨⟨base, rs, hat.null db⟩, href, hfew⟩
  · have hl := hat.live l hm
    have hload := hat.loaded (List.ne_nil_of_mem hm)
    obtain ⟨s, hs, href', hl', k, base', t, hself, hother⟩ :=
      getnetconfig_open hl.addr hload hat.table hl.handle
    refine ⟨s, _, hs, ⟨base', rs, ?_⟩, ?_, by rw [hlen]; exact hfew⟩
    · refine hat.returns hm db hl' k t ?_ hother ?_
      · rw [hself]
        congr 1
        split <;> congr 1 <;> omega
      · have hentry : ∀ i, entryAddr s i = entryAddr w.nc i := fun i => by
          rw [entryAddr, entryAddr, k.entries]
        by_cases hlt : l.results.length < rs.length
        · rw [Nat.min_eq_left (Nat.le_of_lt hlt), if_pos hlt, if_pos hlt, hentry]
        · rw [Nat.min_eq_right (Nat.le_of_not_lt hlt), if_neg (Nat.lt_irrefl _), if_neg hlt]
    · rw [hlen]
      exact href'.trans href

theorem endnetconfig_inv (hi : Inv w) (db : Database) {p : Nat}
    (hp : p = 0 ∨ ∃ l ∈ w.live, l.addr = p) :
    ∃ s q, endnetconfig p w.nc = some (s, q) ∧ Inv ((w.after s db).closes p) := by
  obtain ⟨⟨base, rs, hat⟩, href, hfew⟩ := hi
  rcases hp with rfl | ⟨l, hm, rfl⟩
  · refine ⟨Netconfig.setError NC_NOTINIT w.nc, -1, rfl, ?_⟩
    rw [(hat.null db).closes_null]
    exact ⟨⟨base, rs, hat.null db⟩, href, hfew⟩
  · have hlen := length_filter_addr hat.distinct hm
    obtain ⟨s, hs, href', base', hgone, hother, hres⟩ :=
      endnetconfig_open (hat.live l hm).addr (by omega) hat.table (hat.live l hm).handle
    have hcount : s.gRefcount = (w.live.filter fun q => q.addr ≠ l.addr).length := by omega
    refine ⟨s, 0, hs, ?_, hcount, ?_⟩
    · rcases hres with ⟨h0, he, _⟩ | ⟨hpos, hl, t, k⟩
      · exact ⟨_, _, invAt_closes_last w db he (List.length_eq_zero_iff.mp (hcount ▸ h0))⟩
      · refine ⟨base', rs, hat.closes db ?_ k t hother (List.length_pos_iff.mp (hcount ▸ hpos))⟩
        exact hl.trans (hat.loaded (List.ne_nil_of_mem hm))
    · show (w.live.filter _).length < 2 ^ 32
      omega

theorem getnetconfigent_inv (hi : Inv w) (db : Database) (netid : Option CString) :
    ∃ s q, getnetconfigent A db netid w.nc = some (s, q) ∧ Inv (w.after s db) := by
  obtain ⟨⟨base, rs, hat⟩, href, hfew⟩ := hi
  obtain ⟨s, q, hs, href', hres⟩ := getnetconfigent_cases A db netid hat.state hat.table
  refine ⟨s, q, hs, ?_, href'.trans href, hfew⟩
  rcases hres with ⟨hl, t, k, he⟩ | ⟨hl, base', rs', t, hext, hsame, hdb⟩
  · exact ⟨base, rs, hat.after db t k (fun _ _ => rfl) (fun h => hl.trans h) he⟩
  · cases hload : w.nc.gLoaded with
    | true =>
      obtain ⟨rfl, k⟩ := hsame hload
      refine ⟨base', rs', hat.after db t k (fun l hm => ?_) (fun _ => hl) fun he => ?_⟩
      · have hh := (hat.live l hm).handle
        exact (hext _ _ hh).trans hh.symm
      · rw [he.loaded] at hload
        cases hload
    | false => exact ⟨base', rs', hat.loads t hload hl (hdb hload)⟩

/-- An allowed call does not go wrong and keeps the invariant. -/
theorem step_inv (w : World) (e : Event) (hi : Inv w) (hok : Allowed w e) :
    ∃ w', step A w e = some w' ∧ Inv w' := by
  obtain ⟨call, err, db⟩ := e
  have hi' := hi.setError err
  cases call with
  | setnetconfig =>
    obtain ⟨s, p, hs, hinv⟩ := setnetconfig_inv A hi' db hok
    dsimp only at hs
    exact ⟨_, by simp only [step, hs]; rfl, hinv⟩
  | getnetconfig p =>
    obtain ⟨s, q, hs, hinv⟩ := getnetconfig_inv hi' db hok
    dsimp only at hs
    exact ⟨_, by simp only [step, hs]; rfl, hinv⟩
  | endnetconfig p =>
    obtain ⟨s, q, hs, hinv⟩ := endnetconfig_inv hi' db hok
    dsimp only at hs
    exact ⟨_, by simp only [step, hs]; rfl, hinv⟩
  | getnetconfigent netid =>
    obtain ⟨s, q, hs, hinv⟩ := getnetconfigent_inv A hi' db netid
    dsimp only at hs
    exact ⟨_, by simp only [step, hs]; rfl, hinv⟩

def oneLine : Database :=
  { file := some (chars "local tpi_cots_ord - loopback - - -\n"), fileError := false,
    stateV4 := false, stateV6 := false, setupV4 := false, setupV6 := false }

/-- The first call runs out of memory while it loads; then two handles are opened, one of them
    is read to the end and closed. -/
def twoHandles : List Event :=
  [⟨.setnetconfig, 0, oneLine⟩, ⟨.setnetconfig, 0, oneLine⟩, ⟨.setnetconfig, 0, oneLine⟩,
   ⟨.getnetconfig 4096, 0, oneLine⟩, ⟨.getnetconfig 4096, 0, oneLine⟩,
   ⟨.getnetconfigent (some ⟨chars "local", by decide⟩), 0, oneLine⟩,
   ⟨.endnetconfig 4096, 0, oneLine⟩]

end Librecompat.Netconfig
