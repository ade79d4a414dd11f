/-
  The exits of `we_askshell`, one constructor of `Exit` for each.

  Each says what the heap and the structure are when the function returns there, in terms of the
  vector and the storage that it was called with. `weAskshell_exit` says that there are no
  others, so what holds at every exit holds of every call.
-/
import Librecompat.Wordexp.Stages

namespace Librecompat.Wordexp

open Librecompat.Lib

variable (A : Allocator Obj)

/-! ## The exits -/

/-- Does one of the calls before the first `read` fail? -/
def startFails (child : Child) (calls : Nat) : Bool :=
  child.pdes.isNone || child.perr.isNone || spawnFails A child calls

/-- The first cell that the loops over the words write or leave alone. -/
def firstCell (flags : Nat) (we : WordexpT) : Nat :=
  if hasFlag flags WRDE_DOOFFS && hasFlag flags WRDE_APPEND
  then (we.weWordc + we.weOffs) % 2 ^ 64 else we.weWordc

/-- The structure once the words have been counted. -/
def counted (we : WordexpT) (nwords : Int) : WordexpT :=
  { we with weWordc := addSize we.weWordc nwords }

/-- The child has been started and has sent the counts. -/
structure Announced (child : Child) (calls : Nat) (nwords nbytes : Int) (rs : List Reply) :
    Prop where
  started : startFails A child calls = false
  counts : readCounts child.stdout = some (nwords, nbytes, rs)

/-- The vector and the storage have their final sizes, and the bytes of the words are there. -/
structure Filled (h₀ h : Heap Obj) (flags : Nat) (we : WordexpT) (wi : WeInt)
    (bytes : List UInt8) (nwords nbytes : Int) (rs : List Reply) (p base : Nat)
    (cells : List (Option Nat)) (bytes' : List UInt8) : Prop where
  block : At h₀ h p
    { wiStrings := base, wiNbytes := addSize wi.wiNbytes nbytes, wiWordv := cells } bytes'
  base_ne : base ≠ 0
  cells : rebase wi.wiStrings base (firstCell flags we)
    (resizeCells (roomFor flags (counted we nwords)) wi.wiWordv) = some cells
  bytes : ∃ got junk, got = (weReadFully (nbytes % 2 ^ 64).toNat [] rs).1 ∧
    got.length = (nbytes % 2 ^ 64).toNat ∧
    (got = [] ∧ bytes' = resize junk (addSize wi.wiNbytes nbytes) bytes ∨
      writeAt (resize junk (addSize wi.wiNbytes nbytes) bytes) wi.wiNbytes got = some bytes')

/-- The cell of the first word, and the cells with the null pointers of `we_offs` before it. -/
def Prepared (flags : Nat) (we : WordexpT) (cells : List (Option Nat)) (vofs : Nat)
    (cells' : List (Option Nat)) : Prop :=
  if firstCell flags we = 0 ∧ hasFlag flags WRDE_DOOFFS then
    vofs = we.weOffs ∧ fillOffs we.weOffs cells = some cells'
  else vofs = firstCell flags we ∧ cells' = cells

/-- How `we_askshell` ends on the structure `we` with the vector `wi` and the storage `bytes`:
    the heap, the structure and the result it leaves. -/
inductive Exit (child : Child) (flags calls : Nat) (h₀ : Heap Obj) (we : WordexpT) (wi : WeInt)
    (bytes : List UInt8) : Heap Obj → WordexpT → Nat → Prop
  | notStarted {h : Heap Obj} (hstart : startFails A child calls = true) (hw : Work h₀ h we wi bytes) :
    Exit child flags calls h₀ we wi bytes h we WRDE_NOSPACE
  | noCounts {h : Heap Obj} (hw : Work h₀ h we wi bytes) :
    Exit child flags calls h₀ we wi bytes h we (shellError flags)
  | noVector {h : Heap Obj} {nwords nbytes : Int} {rs : List Reply}
      (hc : Announced A child calls nwords nbytes rs)
      (hfail : A.fails (calls + 1) = true) (hw : Work h₀ h we wi bytes) :
    Exit child flags calls h₀ we wi bytes h (counted we nwords) WRDE_NOSPACE
  | noStrings {h : Heap Obj} {nwords nbytes : Int} {rs : List Reply} {p : Nat}
      (hc : Announced A child calls nwords nbytes rs)
      (hfail : A.fails (calls + 1) = false)
      (a : At h₀ h p { wi with wiNbytes := addSize wi.wiNbytes nbytes,
                               wiWordv := resizeCells (roomFor flags (counted we nwords))
                                 wi.wiWordv } bytes) :
    Exit child flags calls h₀ we wi bytes h
      { counted we nwords with weWordv := weWordv p } WRDE_NOSPACE
  | refused {h : Heap Obj} {we' : WordexpT} {wi' : WeInt} {bytes' : List UInt8} {err : Nat}
      (hw : Work h₀ h we' wi' bytes')
      (herr : err = WRDE_SYNTAX ∨ err = WRDE_BADVAL) :
    Exit child flags calls h₀ we wi bytes h we' err
  | noErrors {h : Heap Obj} {nwords nbytes : Int} {rs : List Reply} {p base : Nat}
      {cells : List (Option Nat)} {bytes' : List UInt8}
      (hc : Announced A child calls nwords nbytes rs) (hfail : A.fails (calls + 1) = false)
      (hf : Filled h₀ h flags we wi bytes nwords nbytes rs p base cells bytes') :
    Exit child flags calls h₀ we wi bytes h
      { counted we nwords with weWordv := weWordv p } WRDE_NOSPACE
  | noEnd {h h' : Heap Obj} {nwords nbytes : Int} {rs : List Reply} {p base vofs : Nat}
      {cells cells₁ cells₂ : List (Option Nat)} {bytes' : List UInt8}
      (hc : Announced A child calls nwords nbytes rs) (hfail : A.fails (calls + 1) = false)
      (hf : Filled h₀ h flags we wi bytes nwords nbytes rs p base cells bytes')
      (hprep : Prepared flags we cells vofs cells₁)
      (hstore : storeWords (nwords % 2 ^ 64).toNat ((bytes'.drop wi.wiNbytes).take nbytes.toNat)
        (base + wi.wiNbytes) vofs cells₁ = some (none, cells₂))
      (a : At h₀ h' p { wiStrings := base, wiNbytes := addSize wi.wiNbytes nbytes,
                        wiWordv := cells₂ } bytes') :
    Exit child flags calls h₀ we wi bytes h'
      { counted we nwords with weWordv := weWordv p } WRDE_NOSPACE
  | done {h h' : Heap Obj} {nwords nbytes : Int} {rs : List Reply} {p base vofs stop : Nat}
      {cells cells₁ cells₂ cells₃ : List (Option Nat)} {bytes' : List UInt8}
      (hc : Announced A child calls nwords nbytes rs)
      (hf : Filled h₀ h flags we wi bytes nwords nbytes rs p base cells bytes')
      (hprep : Prepared flags we cells vofs cells₁)
      (hstore : storeWords (nwords % 2 ^ 64).toNat ((bytes'.drop wi.wiNbytes).take nbytes.toNat)
        (base + wi.wiNbytes) vofs cells₁ = some (some stop, cells₂))
      (hlast : writeAt cells₂ stop [some 0] = some cells₃)
      (a : At h₀ h' p { wiStrings := base, wiNbytes := addSize wi.wiNbytes nbytes,
                        wiWordv := cells₃ } bytes') :
    Exit child flags calls h₀ we wi bytes h'
      { counted we nwords with weWordv := weWordv p } 0

variable {A} {h₀ : Heap Obj} {m m' : Mem Obj} {child : Child} {flags calls : Nat} {we we' : WordexpT}
  {wi : WeInt} {bytes : List UInt8}

/-! ## There are no others -/

theorem shellError_cases (flags : Nat) :
    shellError flags = WRDE_SYNTAX ∨ shellError flags = WRDE_BADVAL := by
  unfold shellError
  split
  · exact .inr rfl
  · exact .inl rfl

/-- Up to `cleanup`: an exit, or everything is there to break the words out. -/
theorem weCollect_spec {r : Except Nat Vars} (hstart : startFails A child calls = false)
    (hcalls : m.calls = calls + 1) (w : Work h₀ m.heap we wi bytes)
    (hs : weCollect A child flags m we = some (m', we', r)) :
    (∃ err, r = .error err ∧ Exit A child flags calls h₀ we wi bytes m'.heap we' err) ∨
    ∃ v rs p base cells bytes', r = .ok v ∧
      we' = { counted we v.nwords with weWordv := weWordv p } ∧
      v.vofs = firstCell flags we ∧ v.sofs = wi.wiNbytes ∧ A.fails (calls + 1) = false ∧
      Announced A child calls v.nwords v.nbytes rs ∧
      Filled h₀ m'.heap flags we wi bytes v.nwords v.nbytes rs p base cells bytes' := by
  unfold weCollect at hs
  split at hs
  · obtain ⟨rfl, rfl, rfl⟩ := by simpa using hs
    exact .inl ⟨_, rfl, .noCounts w⟩
  · next nwords nbytes rs hcounts =>
    have hc : Announced A child calls nwords nbytes rs := ⟨hstart, hcounts⟩
    have w' : Work h₀ m.heap (counted we nwords) wi bytes := w
    obtain ⟨⟨m₁, q⟩, hgrow, hs⟩ := Option.bind_eq_some_iff.mp hs
    obtain ⟨hfail, rfl, hheap⟩ | ⟨hfail, hq, a⟩ := growVector_spec A w' hgrow <;>
      rw [hcalls] at hfail
    · dsimp only at hs
      obtain ⟨rfl, rfl, rfl⟩ := by simpa using hs
      exact .inl ⟨_, rfl, .noVector hc hfail (hheap ▸ w)⟩
    · dsimp only at hs
      rw [if_neg hq, readInt_of_get a.int] at hs
      obtain ⟨m₂, hst, a₂⟩ := a.storeInt (addSize wi.wiNbytes nbytes)
        (resizeCells (roomFor flags (counted we nwords)) wi.wiWordv)
      dsimp only at hst a₂
      simp only [Option.bind_eq_bind, Option.bind_some, hst] at hs
      obtain ⟨⟨m₃, grown⟩, hstrings, hs⟩ := Option.bind_eq_some_iff.mp hs
      obtain ⟨rfl, hheap⟩ | ⟨rfl, base, cells, hbase, hcells, a₃⟩ :=
        growStrings_spec A a₂ hstrings
      · obtain ⟨rfl, rfl, rfl⟩ := by simpa using hs
        exact .inl ⟨_, rfl, .noStrings hc hfail (hheap ▸ a₂)⟩
      · dsimp only at hs
        rw [if_neg (by decide)] at hs
        obtain ⟨⟨m₄, whole⟩, hread, hs⟩ := Option.bind_eq_some_iff.mp hs
        obtain ⟨got, bytes', a₄, hgot, hwhole, hwrite⟩ := readWords_spec a₃ hbase hread
        cases whole with
        | false =>
          obtain ⟨rfl, rfl, rfl⟩ := by simpa using hs
          exact .inl ⟨_, rfl, .refused (.inr ⟨q, rfl, a₄⟩) (shellError_cases flags)⟩
        | true =>
          have hf : Filled h₀ m₄.heap flags we wi bytes nwords nbytes rs q base cells bytes' :=
            ⟨a₄, hbase, hcells, got, _, hgot, hwhole.mp rfl, hwrite⟩
          dsimp only at hs
          rw [if_neg (by decide)] at hs
          split at hs <;> simp only [Option.some.injEq, Prod.mk.injEq] at hs <;>
            obtain ⟨rfl, rfl, rfl⟩ := hs
          · exact .inl ⟨_, rfl, .noErrors hc hfail hf⟩
          · exact .inr ⟨_, rs, q, base, cells, bytes', rfl, rfl, rfl, rfl, hfail, hc, hf⟩

/-- The words are in the vector, or one of them has no end. -/
theorem breakWords_spec {v : Vars} {rs : List Reply} {p base err : Nat}
    {cells : List (Option Nat)} {bytes' : List UInt8} (hv : v.vofs = firstCell flags we)
    (hsofs : v.sofs = wi.wiNbytes) (hfail : A.fails (calls + 1) = false)
    (hc : Announced A child calls v.nwords v.nbytes rs)
    (hf : Filled h₀ m.heap flags we wi bytes v.nwords v.nbytes rs p base cells bytes')
    (hs : breakWords flags m { counted we v.nwords with weWordv := weWordv p } v =
      some (m', err)) :
    Exit A child flags calls h₀ we wi bytes m'.heap
      { counted we v.nwords with weWordv := weWordv p } err := by
  unfold breakWords at hs
  dsimp only at hs
  rw [weIntT_weWordv, readInt_of_get hf.block.int] at hs
  simp only [Option.bind_eq_bind, Option.bind_some, hv, hsofs,
    hf.block.readBytes hf.base_ne] at hs
  obtain ⟨cells₁, hfill, hs⟩ := Option.bind_eq_some_iff.mp hs
  have hprep : Prepared flags we cells
      (if firstCell flags we = 0 ∧ hasFlag flags WRDE_DOOFFS = true then we.weOffs
        else firstCell flags we) cells₁ := by
    unfold Prepared
    split at hfill
    · next h => rw [if_pos h, if_pos h]; exact ⟨rfl, hfill⟩
    · next h => rw [if_neg h, if_neg h]; exact ⟨rfl, (Option.some.inj hfill).symm⟩
  obtain ⟨⟨stop, cells₂⟩, hstore, hs⟩ := Option.bind_eq_some_iff.mp hs
  cases stop with
  | none =>
    obtain ⟨m₁, hst, a⟩ := hf.block.storeInt (addSize wi.wiNbytes v.nbytes) cells₂
    dsimp only at hs hst
    rw [hst] at hs
    obtain ⟨rfl, rfl⟩ := Prod.mk.inj (Option.some.inj hs)
    exact .noEnd hc hfail hf hprep hstore a
  | some stop =>
    obtain ⟨cells₃, hlast, hs⟩ := Option.bind_eq_some_iff.mp hs
    obtain ⟨m₁, hst, a⟩ := hf.block.storeInt (addSize wi.wiNbytes v.nbytes) cells₃
    dsimp only at hs hst
    rw [hst] at hs
    obtain ⟨rfl, rfl⟩ := Prod.mk.inj (Option.some.inj hs)
    exact .done hc hf hprep hstore hlast a

theorem errorText_cases {errBuf : List UInt8} {err : Nat}
    (h : errorText errBuf = some (some err)) : err = WRDE_SYNTAX ∨ err = WRDE_BADVAL := by
  unfold errorText at h
  split at h
  · cases h
  · have h := Option.some.inj h
    split at h
    · cases h
    · split at h
      · rw [← Option.some.inj h]
        split
        · exact .inr rfl
        · exact .inl rfl
      · cases h

theorem weAskshell_exit {words : List UInt8} {s s' : Proc} {err : Nat}
    (w : Work h₀ s.mem.heap we wi bytes)
    (hs : weAskshell A child flags words s we = some (s', we', err)) :
    Exit A child flags s.mem.calls h₀ we wi bytes s'.mem.heap we' err := by
  unfold weAskshell at hs
  split at hs
  · next hpdes =>
    simp only [Option.some.injEq, Prod.mk.injEq] at hs
    obtain ⟨rfl, rfl, rfl⟩ := hs
    exact .notStarted (by simp [startFails, hpdes]) w
  · next pdes hpdes =>
    split at hs
    · next hperr =>
      simp only [Option.some.injEq, Prod.mk.injEq] at hs
      obtain ⟨rfl, rfl, rfl⟩ := hs
      exact .notStarted (by simp [startFails, hperr]) w
    · next perr hperr =>
      have hstart : startFails A child s.mem.calls = spawnFails A child s.mem.calls := by
        simp [startFails, hpdes, hperr]
      obtain ⟨⟨m₁, spawnerr⟩, hspawn, hs⟩ := Option.bind_eq_some_iff.mp hs
      obtain ⟨hheap, hfails, hcalls⟩ := spawnShell_spec A hspawn
      dsimp only at hs
      rw [← hheap] at w
      split at hs
      · next hne =>
        simp only [Option.some.injEq, Prod.mk.injEq] at hs
        obtain ⟨rfl, rfl, rfl⟩ := hs
        exact .notStarted (hstart.trans (hfails.mp hne)) w
      · next heq =>
        have hok : startFails A child s.mem.calls = false := by
          rw [hstart, ← Bool.not_eq_true, ← hfails]
          exact heq
        obtain ⟨⟨m₂, we₂, r⟩, hcollect, hs⟩ := Option.bind_eq_some_iff.mp hs
        obtain ⟨e, rfl, hexit⟩ | ⟨v, rs, p, base, cells, bytes', rfl, rfl, hv, hsofs, hfail, hc, hf⟩ :=
          weCollect_spec hok (hcalls (not_not.mp heq)) w hcollect
        · simp only [Option.some.injEq, Prod.mk.injEq] at hs
          obtain ⟨rfl, rfl, rfl⟩ := hs
          exact hexit
        · have hw : Work h₀ m₂.heap { counted we v.nwords with weWordv := weWordv p } _ bytes' :=
            .inr ⟨p, rfl, hf.block⟩
          dsimp only at hs
          split at hs
          · simp only [Option.some.injEq, Prod.mk.injEq] at hs
            obtain ⟨rfl, rfl, rfl⟩ := hs
            exact .refused hw (shellError_cases flags)
          · obtain ⟨text, htext, hs⟩ := Option.bind_eq_some_iff.mp hs
            cases text with
            | some e =>
              simp only [Option.some.injEq, Prod.mk.injEq] at hs
              obtain ⟨rfl, rfl, rfl⟩ := hs
              exact .refused hw (errorText_cases htext)
            | none =>
              obtain ⟨⟨m₃, e⟩, hbreak, hs⟩ := Option.bind_eq_some_iff.mp hs
              simp only [Option.some.injEq, Prod.mk.injEq] at hs
              obtain ⟨rfl, rfl, rfl⟩ := hs
              exact breakWords_spec hv hsofs hfail hc hf hbreak

/-! ## The copy for `WRDE_APPEND` -/

/-- How many cells the copy has that the loop rebases. -/
def usedCells (flags : Nat) (we0 : WordexpT) : Nat :=
  (we0.weWordc + offsOf flags we0) % 2 ^ 64

/-- At `q` there is a copy of the vector and the strings of `we0`, made on a heap that still has
    the blocks of `h₀`. -/
structure Copied (h₀ h : Heap Obj) (flags : Nat) (we0 : WordexpT) (q base : Nat) (wi0 : WeInt)
    (cells : List (Option Nat)) (bs : List UInt8) : Prop where
  block : At h₀ h q { wi0 with wiStrings := base, wiWordv := cells } bs
  base_ne : base ≠ 0
  wordv_ne : we0.weWordv ≠ 0
  int : ∃ m : Mem Obj, Extends h₀ m.heap ∧ readInt m (weIntT we0.weWordv) = some wi0
  cells : ∃ cells₀, readAt wi0.wiWordv 0 (cellsOf (vectorSize (usedCells flags we0 + 1))) =
    some cells₀ ∧ rebase wi0.wiStrings base (usedCells flags we0) cells₀ = some cells
  bytes : wi0.wiNbytes = 0 ∧ bs = [] ∨ wi0.wiNbytes ≠ 0 ∧ ∃ (m : Mem Obj) (old : List UInt8),
    Extends h₀ m.heap ∧ readBytes m wi0.wiStrings = some old ∧ readAt old 0 wi0.wiNbytes = some bs

theorem calls_of_store {β : Type} {m m' : Mem β} {p : Nat} {b : β}
    (hs : store m p b = some m') : m'.calls = m.calls := by
  obtain ⟨_, _, rfl⟩ := Option.map_eq_some_iff.mp hs
  rfl

/-- The copy is a new block with a storage of its own, or there is no memory for one of them. -/
theorem copyWords_spec {we0 : WordexpT} {q : Nat}
    (hs : copyWords A flags m we0 = some (m', q)) :
    ((A.fails m.calls = true ∨ A.fails (m.calls + 1) = true) ∧ q = 0 ∧ m'.heap = m.heap) ∨
    (A.fails m.calls = false ∧ A.fails (m.calls + 1) = false ∧ m'.calls = m.calls + 2 ∧ q ≠ 0 ∧
      ∃ base wi0 cells bs, Copied m.heap m'.heap flags we0 q base wi0 cells bs) := by
  unfold copyWords at hs
  obtain ⟨hf₁, hm₁⟩ | ⟨hf₁, a, ha, hna, hm₁⟩ := malloc_cases A m
    (.int { WeInt.empty with
      wiWordv := resizeCells (cellsOf (vectorSize (usedCells flags we0 + 1))) [] }) <;>
    unfold usedCells WeInt.empty at hm₁ <;> simp only [hm₁] at hs
  · simp only [↓reduceIte] at hs
    obtain ⟨rfl, rfl⟩ := Prod.mk.inj (Option.some.inj hs)
    exact .inl ⟨.inl hf₁, rfl, rfl⟩
  · rw [if_neg ha] at hs
    split at hs
    · cases hs
    · obtain ⟨wi0, hint, hs⟩ := Option.bind_eq_some_iff.mp hs
      obtain ⟨cells₀, hcells₀, hs⟩ := Option.bind_eq_some_iff.mp hs
      split at hint
      · cases hint
      · next hwordv =>
        generalize Obj.int { wiStrings := 0, wiNbytes := 0, wiWordv := _ } = new at hm₁ hs hint
        have o₁ : Owned m.heap (m.heap.set a new) [a] := (Owned.nil m.heap).add new ha hna
        obtain ⟨hf₂, hm₂⟩ | ⟨hf₂, b, hb, hnb, hm₂⟩ := malloc_cases A
          { heap := m.heap.set a new, calls := m.calls + 1 }
          (.bytes (resize (A.junk (m.calls + 1)) wi0.wiNbytes [])) <;>
          simp only [hm₂] at hs
        · simp only [↓reduceIte, free_fresh _ _ ha hna] at hs
          obtain ⟨rfl, rfl⟩ := Prod.mk.inj (Option.some.inj hs)
          exact .inl ⟨.inr hf₂, rfl, rfl⟩
        · rw [if_neg hb] at hs
          have o₂ := o₁.add (.bytes (resize (A.junk (m.calls + 1)) wi0.wiNbytes [])) hb hnb
          have hba : b ≠ a := by
            rintro rfl
            rw [Heap.get_set_self] at hnb
            cases hnb
          generalize (m.heap.set a new).set b _ = h₂ at o₂ hs
          obtain ⟨bs, hbs, hs⟩ := Option.bind_eq_some_iff.mp hs
          obtain ⟨m₃, hst₃, o₃, hget₃, _⟩ :=
            o₂.store (m := { heap := h₂, calls := m.calls + 1 + 1 }) (b := .bytes bs) (p := b)
              (by simp)
          simp only [Option.bind_eq_bind, hst₃, Option.bind_some] at hs
          obtain ⟨cells, hcells, hs⟩ := Option.bind_eq_some_iff.mp hs
          obtain ⟨m₄, hst₄, o₄, hget₄, hkeep₄⟩ :=
            o₃.store (b := .int { wi0 with wiStrings := b, wiWordv := cells }) (p := a) (by simp)
          rw [hst₄] at hs
          obtain ⟨rfl, rfl⟩ := Prod.mk.inj (Option.some.inj hs)
          have hcalls : m₄.calls = m.calls + 2 := by
            rw [calls_of_store hst₄, calls_of_store hst₃]
          refine .inr ⟨hf₁, hf₂, hcalls, ha, b, wi0, cells, bs, ⟨?_, hget₄, ?_⟩, hb, hwordv,
            ⟨_, o₁.extends, hint⟩, ⟨cells₀, hcells₀, hcells⟩, ?_⟩
          · rw [ptrs_cons_nil hb]
            exact o₄
          · exact .inr ⟨hb, (hkeep₄ b hba).trans hget₃⟩
          · split at hbs
            · next hzero => exact .inl ⟨hzero, (Option.some.inj hbs).symm⟩
            · next hzero =>
              obtain ⟨old, hold, hbs⟩ := Option.bind_eq_some_iff.mp hbs
              exact .inr ⟨hzero, _, old, o₂.extends, hold, hbs⟩

/-! ## A whole call -/

/-- What the call works on before the child is started, when the allocator has made `calls`
    calls: a copy of the caller's vector, or nothing. -/
def Begun (A : Allocator Obj) (flags : Nat) (m : Mem Obj) (we0 : WordexpT) (calls : Nat)
    (we : WordexpT) (wi : WeInt) (bytes : List UInt8) : Prop :=
  if hasFlag flags WRDE_APPEND then
    A.fails m.calls = false ∧ A.fails (m.calls + 1) = false ∧ calls = m.calls + 2 ∧
      ∃ (h : Heap Obj) (q base : Nat) (wi0 : WeInt) (cells : List (Option Nat)),
        Copied m.heap h flags we0 q base wi0 cells bytes ∧
        we = { we0 with weWordv := weWordv q } ∧
        wi = { wi0 with wiStrings := base, wiWordv := cells }
  else calls = m.calls ∧ we = { we0 with weWordc := 0, weWordv := 0 } ∧ wi = WeInt.empty ∧
    bytes = []

theorem startWords_spec {we0 : WordexpT} {r : Option WordexpT}
    (hs : startWords A flags m we0 = some (m', r)) :
    (hasFlag flags WRDE_APPEND = true ∧
      (A.fails m.calls = true ∨ A.fails (m.calls + 1) = true) ∧ r = none ∧
      m'.heap = m.heap) ∨
    ∃ we wi bytes, r = some we ∧ Begun A flags m we0 m'.calls we wi bytes ∧
      Work m.heap m'.heap we wi bytes := by
  unfold startWords at hs
  split at hs
  · next happend =>
    obtain ⟨⟨m₁, q⟩, hcopy, hs⟩ := Option.map_eq_some_iff.mp hs
    obtain ⟨rfl, rfl⟩ := Prod.mk.inj hs
    obtain ⟨hfail, rfl, hheap⟩ | ⟨hf₁, hf₂, hcalls, hq, base, wi0, cells, bs, hc⟩ :=
      copyWords_spec hcopy
    · exact .inl ⟨happend, hfail, if_pos rfl, hheap⟩
    · refine .inr ⟨_, _, bs, if_neg hq, ?_, .inr ⟨q, rfl, hc.block⟩⟩
      unfold Begun
      rw [if_pos happend]
      exact ⟨hf₁, hf₂, hcalls, _, q, base, wi0, cells, hc, rfl, rfl⟩
  · next happend =>
    obtain ⟨rfl, rfl⟩ := Prod.mk.inj (Option.some.inj hs)
    refine .inr ⟨_, _, [], rfl, ?_, .inl ⟨rfl, rfl, rfl, rfl⟩⟩
    unfold Begun
    rw [if_neg happend]
    exact ⟨rfl, rfl, rfl, rfl⟩

/-- At every exit the blocks of the structure are the only ones that the caller does not have. -/
theorem Exit.work {h : Heap Obj} {err : Nat}
    (e : Exit A child flags calls h₀ we wi bytes h we' err) :
    ∃ wi' bytes', Work h₀ h we' wi' bytes' := by
  cases e with
  | notStarted _ hw => exact ⟨wi, bytes, hw⟩
  | noCounts hw => exact ⟨wi, bytes, hw⟩
  | noVector _ _ hw => exact ⟨wi, bytes, hw⟩
  | noStrings _ _ a => exact ⟨_, bytes, .inr ⟨_, rfl, a⟩⟩
  | refused hw _ => exact ⟨_, _, hw⟩
  | noErrors _ _ hf => exact ⟨_, _, .inr ⟨_, rfl, hf.block⟩⟩
  | noEnd _ _ _ _ _ a => exact ⟨_, _, .inr ⟨_, rfl, a⟩⟩
  | done _ _ _ _ _ a => exact ⟨_, _, .inr ⟨_, rfl, a⟩⟩

/-- The caller's structure after a call that worked on `we₂` and `h`: with an error other than
    `WRDE_NOSPACE` it is what it was. -/
def Returned (flags : Nat) (s s' : Proc) (we0 we' : WordexpT) (h : Heap Obj) (we₂ : WordexpT)
    (err : Nat) : Prop :=
  (err ≠ 0 ∧ err ≠ WRDE_NOSPACE ∧ we' = we0 ∧ s'.mem.heap = s.mem.heap) ∨
  ((err = 0 ∨ err = WRDE_NOSPACE) ∧ we' = we₂ ∧
    if hasFlag flags WRDE_REUSE then ∃ m we₃, m.heap = h ∧ wordfree m we0 = some (s'.mem, we₃)
    else s'.mem.heap = h)

/-- A call ends in `we_check`, when it copies the vector, or at an exit of `we_askshell`. -/
theorem wordexp_cases {words : List UInt8} {s s' : Proc} {we0 : WordexpT} {err : Nat}
    (hs : wordexp A child words flags s we0 = some (s', we', err)) :
    (weCheck words flags = some err ∧ err ≠ 0 ∧ s' = s ∧ we' = we0) ∨
    (hasFlag flags WRDE_APPEND = true ∧
      (A.fails s.mem.calls = true ∨ A.fails (s.mem.calls + 1) = true) ∧ err = WRDE_NOSPACE ∧
      we' = we0 ∧ s'.mem.heap = s.mem.heap) ∨
    ∃ calls we wi bytes h we₂, Begun A flags s.mem we0 calls we wi bytes ∧
      Exit A child flags calls s.mem.heap we wi bytes h we₂ err ∧
      Returned flags s s' we0 we' h we₂ err := by
  unfold wordexp at hs
  obtain ⟨e, hcheck, hs⟩ := Option.bind_eq_some_iff.mp hs
  split at hs
  · next hne =>
    simp only [Option.some.injEq, Prod.mk.injEq] at hs
    obtain ⟨rfl, rfl, rfl⟩ := hs
    exact .inl ⟨hcheck, hne, rfl, rfl⟩
  · obtain ⟨⟨m₁, r⟩, hstart, hs⟩ := Option.bind_eq_some_iff.mp hs
    obtain ⟨happend, hfail, rfl, hheap⟩ | ⟨we, wi, bytes, rfl, hb, hw⟩ := startWords_spec hstart
    · simp only [Option.some.injEq, Prod.mk.injEq] at hs
      obtain ⟨rfl, rfl, rfl⟩ := hs
      exact .inr (.inl ⟨happend, hfail, rfl, rfl, hheap⟩)
    · obtain ⟨⟨s₂, we₂, e₂⟩, hask, hs⟩ := Option.bind_eq_some_iff.mp hs
      have hexit := weAskshell_exit (s := { s with mem := m₁ }) hw hask
      obtain ⟨wi', bytes', hw'⟩ := hexit.work
      refine .inr (.inr ⟨m₁.calls, we, wi, bytes, s₂.mem.heap, we₂, hb, ?_⟩)
      dsimp only at hs
      split at hs
      · next hne =>
        obtain ⟨m₃, we₃, hfree, hheap⟩ := hw'.wordfree
        rw [hfree] at hs
        simp only [Option.bind_eq_bind, Option.bind_some, Option.some.injEq,
          Prod.mk.injEq] at hs
        obtain ⟨rfl, rfl, rfl⟩ := hs
        exact ⟨hexit, .inl ⟨hne.1, hne.2, rfl, hheap⟩⟩
      · next hne =>
        obtain ⟨mem, hmem, hs⟩ := Option.bind_eq_some_iff.mp hs
        simp only [Option.some.injEq, Prod.mk.injEq] at hs
        obtain ⟨rfl, rfl, rfl⟩ := hs
        refine ⟨hexit, .inr ⟨by tauto, rfl, ?_⟩⟩
        split at hmem
        · next hreuse =>
          obtain ⟨⟨m₃, we₃⟩, hfree, rfl⟩ := Option.map_eq_some_iff.mp hmem
          rw [if_pos hreuse]
          exact ⟨s₂.mem, we₃, rfl, hfree⟩
        · next hreuse =>
          rw [if_neg hreuse, ← Option.some.inj hmem]

end Librecompat.Wordexp
