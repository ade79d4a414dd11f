/-
  The memory of a dynamic array.

  `Holds` says that an array that has not failed holds a list of elements, `Marked` what a failed
  one looks like; in both the heap is that of the start with the block of the array and the blocks
  `G`, which were handed out, added to it. `enlarge_spec` and `markFailed_spec` are the rules for
  the two ways on when the array is full.
-/
import Librecompat.Dynarray.Model

namespace Librecompat.Dynarray

open Librecompat.Lib

variable {A : Allocator (List UInt8)} {P : Params} {h₀ : Heap (List UInt8)} {G : List Nat}
  {s s' : State} {L : List P.Element}

/-! ## The log -/

/-- The size passed is the one it is meant to be. -/
def Event.Exact : Event → Prop
  | .alloc exact passed _ | .copy exact passed => passed = exact
  | .overflow exact => 2 ^ 64 ≤ exact
  | .elementFree _ => True

/-- The request was refused. -/
def Event.failed : Event → Bool
  | .alloc _ _ granted => !granted
  | .overflow _ => true
  | .copy _ _ | .elementFree _ => false

/-- No allocation has failed. -/
def State.Quiet (s : State) : Prop := ∀ e ∈ s.log, e.failed = false

theorem quiet_note {e : Event} (hs : s.Quiet) (he : e.failed = false) : (s.note e).Quiet := by
  intro e' he'
  rcases List.mem_append.mp he' with hm | hm
  · exact hs e' hm
  · rw [List.mem_singleton.mp hm]
    exact he

theorem not_quiet_note {e : Event} (he : e.failed = true) : ¬(s.note e).Quiet := by
  intro hq
  have hno := hq e (List.mem_append_right _ (List.mem_singleton_self e))
  rw [he] at hno
  exact absurd hno nofun

theorem not_quiet_mono (hp : s.log <+: s'.log) (hs : ¬s.Quiet) : ¬s'.Quiet :=
  fun hq => hs fun e he => hq e (hp.subset he)

/-- What logs nothing fails nowhere. -/
theorem quiet_of_log (hlog : s'.log = s.log) (hq : s.Quiet) : s'.Quiet := by
  unfold State.Quiet
  rw [hlog]
  exact hq

theorem log_note (s : State) (e : Event) : s.log <+: (s.note e).log := List.prefix_append _ _

/-! ## Invariants -/

/-- The block that the pointer owns. -/
def Ptr.blocks : Ptr → List Nat
  | .heap p => [p]
  | .null | .scratch => []

/-- What holds of every array. -/
structure Base (P : Params) (h₀ : Heap (List UInt8)) (G : List Nat) (s : State) : Prop where
  scratch : s.scratch.length = P.initialSize * P.elementSize
  exact : ∀ e ∈ s.log, e.Exact
  owned : Owned h₀ s.mem.heap (s.array.blocks ++ G)

/-- The bytes that the array has. -/
def State.Backed (s : State) (blk : List UInt8) : Prop :=
  s.block = some blk ∨ s.array = .null ∧ blk = []

/-- The array holds the list `L`. -/
structure Holds (P : Params) (h₀ : Heap (List UInt8)) (G : List Nat) (s : State)
    (L : List P.Element) : Prop extends Base P h₀ G s where
  used : s.used = L.length
  bound : s.allocated * P.elementSize < 2 ^ 63
  array : s.array = P.scratchPtr ∨ ∃ p, s.array = .heap p
  contents : ∃ rest, s.Backed (flat L ++ rest) ∧
    (flat L ++ rest).length = s.allocated * P.elementSize

/-- The array is marked as failed. -/
structure Marked (P : Params) (h₀ : Heap (List UInt8)) (G : List Nat) (s : State) : Prop extends
    Base P h₀ G s where
  array : s.array = P.scratchPtr
  allocated : s.allocated = errorMarker
  used : s.used ≤ errorMarker

/-- What a step leaves alone: the blocks handed out, and the log so far. -/
structure Kept (G : List Nat) (s s' : State) : Prop where
  blocks : ∀ a ∈ G, s'.mem.heap.get a = s.mem.heap.get a
  log : s.log <+: s'.log

theorem Kept.refl (G : List Nat) (s : State) : Kept G s s := ⟨fun _ _ => rfl, List.prefix_refl _⟩

theorem Kept.trans {s'' : State} (h : Kept G s s') (h' : Kept G s' s'') : Kept G s s'' :=
  ⟨fun a ha => (h'.blocks a ha).trans (h.blocks a ha), h.log.trans h'.log⟩

theorem Base.congr (b : Base P h₀ G s) (hscratch : s'.scratch = s.scratch) (hmem : s'.mem = s.mem)
    (harray : s'.array = s.array) (hlog : ∀ e ∈ s'.log, e.Exact) : Base P h₀ G s' :=
  ⟨hscratch ▸ b.scratch, hlog, by rw [hmem, harray]; exact b.owned⟩

theorem Holds.le_allocated (h : Holds P h₀ G s L) : s.used ≤ s.allocated := by
  obtain ⟨rest, -, hlen⟩ := h.contents
  rw [List.length_append, length_flat] at hlen
  rw [h.used]
  exact Nat.le_of_mul_le_mul_right (by omega) P.elementSize_pos

theorem Holds.allocated_lt (h : Holds P h₀ G s L) : s.allocated < 2 ^ 63 :=
  Nat.lt_of_le_of_lt (Nat.le_mul_of_pos_right _ P.elementSize_pos) h.bound

theorem Holds.not_failed (h : Holds P h₀ G s L) : hasFailed s = false := by
  have hlt := h.allocated_lt
  unfold hasFailed errorMarker
  exact decide_eq_false (by omega)

/-- An array with room has a block. -/
theorem block_of_backed {blk : List UInt8} (h : s.Backed blk) (hpos : 0 < blk.length) :
    s.block = some blk := by
  refine h.resolve_right fun hnull => ?_
  rw [hnull.2] at hpos
  exact absurd hpos (Nat.lt_irrefl 0)

/-- The size in bytes of the elements in use. -/
theorem Holds.mulSize_used (h : Holds P h₀ G s L) :
    mulSize s.used P.elementSize = L.length * P.elementSize := by
  have hle := Nat.mul_le_mul_right P.elementSize h.le_allocated
  have hlt := h.bound
  unfold mulSize
  rw [Nat.mod_eq_of_lt (by omega), h.used]

/-! ## Reading and writing -/

/-- `s'` is `s` with the bytes `blk` in the array. -/
structure Wrote (G : List Nat) (s s' : State) (blk : List UInt8) : Prop extends Kept G s s' where
  block : s'.block = some blk
  used : s'.used = s.used
  allocated : s'.allocated = s.allocated
  array : s'.array = s.array
  sameLog : s'.log = s.log

theorem setBlock_spec (b : Base P h₀ G s) {blk blk' : List UInt8} (hblk : s.block = some blk)
    (hlen : blk'.length = blk.length) :
    ∃ s', s.setBlock blk' = some s' ∧ Base P h₀ G s' ∧ Wrote G s s' blk' := by
  obtain ⟨used, allocated, array, scratch, mem, log⟩ := s
  cases array with
  | null => exact absurd hblk nofun
  | scratch =>
    have hscratch : blk'.length = P.initialSize * P.elementSize := by
      rw [hlen, ← Option.some.inj hblk]
      exact b.scratch
    exact ⟨_, rfl, ⟨hscratch, b.exact, b.owned⟩,
      ⟨fun _ _ => rfl, List.prefix_refl _⟩, rfl, rfl, rfl, rfl, rfl⟩
  | heap p =>
    obtain ⟨m, hstore, hm, hget, hframe⟩ :=
      b.owned.store (m := mem) (b := blk') List.mem_cons_self
    have hne : ∀ a ∈ G, a ≠ p := fun a ha hap =>
      (List.nodup_cons.mp b.owned.nodup).1 (hap ▸ ha)
    refine ⟨_, congrArg (Option.map _) hstore, ⟨b.scratch, b.exact, hm⟩,
      ⟨fun a ha => hframe a (hne a ha), List.prefix_refl _⟩, hget, rfl, rfl, rfl, rfl⟩

theorem poke_spec (b : Base P h₀ G s) {blk blk' bs : List UInt8} {off : Nat}
    (hblk : s.block = some blk) (hwrite : writeAt blk off bs = some blk') :
    ∃ s', s.poke off bs = some s' ∧ Base P h₀ G s' ∧ Wrote G s s' blk' := by
  obtain ⟨s', hset, hspec⟩ := setBlock_spec b hblk (length_writeAt hwrite)
  refine ⟨s', ?_, hspec⟩
  rw [State.poke, hblk, Option.bind_eq_bind, Option.bind_some, hwrite, Option.bind_some, hset]

/-- Elements are freed without a trace but in the log. -/
theorem freeLoop_eq (a c : List P.Element) {rest : List UInt8} : ∀ {b : List P.Element} {s : State},
    s.Backed (flat (a ++ b ++ c) ++ rest) →
    freeLoop P a.length b.length s =
      some { s with log := s.log ++ b.map fun e => .elementFree e.1 } := by
  intro b
  induction b generalizing a with
  | nil => exact fun {s} _ => by simp [freeLoop]
  | cons e b ih =>
    intro s hs
    have hpos : 0 < (flat (a ++ e :: b ++ c) ++ rest).length := by
      have := P.elementSize_pos
      simp only [flat_append, flat_cons, List.length_append, e.2]
      omega
    have hread := readAt_cell a (b ++ c) e rest
    have hrest := ih (a ++ [e]) (s := s.note (.elementFree e.1))
      (by simpa [State.Backed, State.block, State.note] using hs)
    rw [List.length_append, List.length_singleton] at hrest
    rw [List.length_cons, freeLoop, block_of_backed hs hpos, Option.bind_eq_bind, Option.bind_some,
      List.append_assoc, List.cons_append, hread, Option.bind_some, hrest]
    simp [State.note]

theorem freeElements_spec (h : Holds P h₀ G s L) (i n : Nat) (hin : i + n ≤ L.length) :
    ∃ evs, freeElements P i n s = some { s with log := s.log ++ evs } ∧
      ∀ e ∈ evs, e.Exact ∧ e.failed = false := by
  unfold freeElements
  split
  · obtain ⟨rest, hbacked, -⟩ := h.contents
    have hsplit : L.take i ++ (L.drop i).take n ++ (L.drop i).drop n = L := by
      rw [List.append_assoc, List.take_append_drop, List.take_append_drop]
    rw [← hsplit] at hbacked
    have hloop := freeLoop_eq _ _ hbacked
    rw [List.length_take_of_le (by omega), List.length_take_of_le (by rw [List.length_drop]; omega)]
      at hloop
    refine ⟨_, hloop, fun e he => ?_⟩
    obtain ⟨c, -, rfl⟩ := List.mem_map.mp he
    exact ⟨trivial, rfl⟩
  · exact ⟨[], by rw [List.append_nil], fun e he => absurd he List.not_mem_nil⟩

/-! ## Enlarging -/

theorem Params.blocks_scratchPtr (P : Params) : P.scratchPtr.blocks = [] := by
  unfold Params.scratchPtr
  split <;> rfl

theorem mallocBytes_owned {m m' : Mem (List UInt8)} {n p : Nat}
    (h : mallocBytes A m n = (m', p)) :
    Owned m.heap m'.heap (ptrs [p]) ∧
      (p ≠ 0 → n < 2 ^ 63 ∧ ∃ blk, blk.length = n ∧ m'.heap.get p = some blk) := by
  unfold mallocBytes at h
  split at h
  · next hn =>
    obtain ⟨howned, hget⟩ := malloc_owned h
    exact ⟨howned, fun hp => ⟨hn, _, length_resize _ _ _, hget hp⟩⟩
  · obtain ⟨rfl, rfl⟩ := Prod.mk.inj h
    exact ⟨Owned.nil _, fun hp => absurd rfl hp⟩

theorem copyTo_eq {s : State} {p : Nat} {blk rest : List UInt8}
    (hblock : s.block = some (flat L ++ rest))
    (hused : s.used = L.length) (hsize : mulSize s.used P.elementSize = L.length * P.elementSize)
    (hget : s.mem.heap.get p = some blk) (hroom : L.length * P.elementSize ≤ blk.length) :
    copyTo P p s = some (State.note
      (.copy (L.length * P.elementSize) (L.length * P.elementSize))
      { s with mem := { s.mem with
          heap := s.mem.heap.set p (flat L ++ blk.drop (L.length * P.elementSize)) } }) := by
  have hread : readAt (flat L ++ rest) 0 (L.length * P.elementSize) = some (flat L) := by
    rw [← length_flat]
    exact readAt_append [] (flat L) rest
  have hwrite : writeAt blk 0 (flat L) = some (flat L ++ blk.drop (L.length * P.elementSize)) := by
    rw [writeAt, if_pos (by rw [length_flat]; omega)]
    simp
  rw [hused] at hsize
  unfold copyTo
  simp only [hsize, hblock, hread, hget, hwrite, store_live hget, hused, Option.bind_eq_bind,
    Option.bind_some]

/-- The new block of a `malloc`, once the elements are in it. -/
theorem malloc_copy (h : Holds P h₀ G s L) {n p : Nat} {m : Mem (List UInt8)}
    (hm : mallocBytes A s.mem n = (m, p)) (hp : p ≠ 0) (hn : L.length * P.elementSize ≤ n)
    (e : Event) :
    ∃ m' evs rest, copyIfAny P p (State.note e { s with mem := m }) =
        some { s with mem := m', log := s.log ++ e :: evs } ∧
      (∀ e' ∈ evs, e'.Exact ∧ e'.failed = false) ∧ Owned s.mem.heap m'.heap [p] ∧
      m'.heap.get p = some (flat L ++ rest) ∧ (flat L ++ rest).length = n := by
  obtain ⟨howned, hp'⟩ := mallocBytes_owned hm
  obtain ⟨-, blk, hlen, hget⟩ := hp' hp
  rw [ptrs_cons_nil hp] at howned
  obtain ⟨rest, hbacked, hsize⟩ := h.contents
  unfold copyIfAny
  by_cases hnull : s.array = .null
  · -- there is nothing to copy
    have hnil : flat L = [] := by
      rcases hbacked with hsome | ⟨-, hnil⟩
      · rw [State.block, hnull] at hsome
        exact absurd hsome nofun
      · exact (List.append_eq_nil_iff.mp hnil).1
    refine ⟨m, [], blk, ?_, fun e' he' => absurd he' List.not_mem_nil, howned, ?_, ?_⟩
    · exact if_neg (not_not_intro hnull)
    · rw [hnil]
      exact hget
    · rw [hnil]
      exact hlen
  · have hsome : s.block = some (flat L ++ rest) := hbacked.resolve_right fun h' => hnull h'.1
    have hold : (State.note e { s with mem := m }).block = some (flat L ++ rest) := by
      rw [← hsome]
      unfold State.block State.note
      dsimp only
      cases harray : s.array with
      | null => rfl
      | scratch => rfl
      | heap q =>
        rw [State.block, harray] at hsome
        exact howned.frame q (howned.not_mem hsome)
    have hcopy := @copyTo_eq P L (State.note e { s with mem := m }) p blk rest hold h.used
      h.mulSize_used hget (by omega)
    refine ⟨{ m with heap := m.heap.set p (flat L ++ blk.drop (L.length * P.elementSize)) },
      [.copy (L.length * P.elementSize) (L.length * P.elementSize)],
      blk.drop (L.length * P.elementSize), ?_, fun e' he' => ?_,
      howned.set _ (List.mem_singleton_self p), Heap.get_set_self _ _ _, ?_⟩
    · rw [if_pos (show (State.note e { s with mem := m }).array ≠ .null from hnull), hcopy]
      simp [State.note]
    · rw [List.mem_singleton.mp he']
      exact ⟨rfl, rfl⟩
    · rw [List.length_append, length_flat, List.length_drop]
      omega

/-- What the array is after it was given the block `p`. -/
theorem Holds.moved (h : Holds P h₀ G s L) {k p : Nat} {m : Mem (List UInt8)} {evs : List Event}
    {rest : List UInt8} (hevs : ∀ e ∈ evs, e.Exact) (howned : Owned h₀ m.heap (p :: G))
    (hget : m.heap.get p = some (flat L ++ rest))
    (hlen : (flat L ++ rest).length = k * P.elementSize) (hlt : k * P.elementSize < 2 ^ 63) :
    Holds P h₀ G { s with mem := m, log := s.log ++ evs, array := .heap p, allocated := k } L := by
  refine ⟨⟨h.scratch, fun e he => ?_, howned⟩, h.used, hlt, .inr ⟨p, rfl⟩, rest, .inl hget, hlen⟩
  rcases List.mem_append.mp he with hm | hm
  · exact h.exact e hm
  · exact hevs e hm

theorem reallocBytes_spec (h : Holds P h₀ G s L) {n p : Nat} (harray : s.array = .heap p)
    (hn : L.length * P.elementSize ≤ n) :
    ∃ m q, reallocBytes A s.mem n s.array = some (m, q) ∧
      (q = 0 ∧ m.heap = s.mem.heap ∨
        q ≠ 0 ∧ n < 2 ^ 63 ∧ Owned h₀ m.heap (q :: G) ∧
          (∃ rest, m.heap.get q = some (flat L ++ rest) ∧ (flat L ++ rest).length = n) ∧
          ∀ a ∈ G, m.heap.get a = s.mem.heap.get a) := by
  have howned := h.owned
  rw [harray] at howned
  have hp0 := (howned.fresh p List.mem_cons_self).1
  obtain ⟨rest, hbacked, hlen⟩ := h.contents
  have hget : s.mem.heap.get p = some (flat L ++ rest) := by
    have hsome := hbacked.resolve_right fun hnull => by
      rw [harray] at hnull
      exact absurd hnull.1 nofun
    rw [State.block, harray] at hsome
    exact hsome
  have hcells : ArrayAt id s.mem.heap p (flat L ++ rest) := .inr ⟨hp0, hget⟩
  have howned' : Owned h₀ s.mem.heap (ptrs [p] ++ G) := by
    rw [ptrs_cons_nil hp0]
    exact howned
  rw [harray, reallocBytes]
  split
  · next hlt =>
    have hbytes : ∀ blk : List UInt8, Lib.resize (A.junk s.mem.calls) n (id blk) =
        id (Lib.resize (A.junk s.mem.calls) n blk) := fun _ => rfl
    obtain ⟨m, q, hrealloc, hq⟩ :=
      realloc_array A (Lib.resize (A.junk s.mem.calls) n) hbytes howned' hcells
    refine ⟨m, q, hrealloc, hq.imp id fun ⟨hq0, ho, hblk, hkeep⟩ => ?_⟩
    rw [ptrs_cons_nil hq0] at ho
    have htake : (Lib.resize (A.junk s.mem.calls) n (flat L ++ rest)).take
        (L.length * P.elementSize) = (flat L ++ rest).take (L.length * P.elementSize) :=
      take_resize _ hn (by rw [List.length_append, length_flat]; omega)
    rw [List.take_append_of_le_length (by rw [length_flat]), ← length_flat, List.take_length]
      at htake
    have hsplit := List.take_append_drop (flat L).length
      (Lib.resize (A.junk s.mem.calls) n (flat L ++ rest))
    rw [htake] at hsplit
    exact ⟨hq0, hlt, ho, ⟨_, by rw [hblk, hsplit]; rfl, by rw [hsplit, length_resize]⟩, hkeep⟩
  · exact ⟨{ s.mem with calls := s.mem.calls + 1 }, 0, by rw [hget]; rfl, .inl ⟨rfl, rfl⟩⟩

/-- A refused allocation changes nothing. -/
theorem Holds.refused (h : Holds P h₀ G s L) {m : Mem (List UInt8)} {e : Event}
    (hm : m.heap = s.mem.heap) (he : e.Exact) : Holds P h₀ G (State.note e { s with mem := m }) L := by
  have hexact : ∀ e' ∈ s.log ++ [e], e'.Exact := by
    intro e' he'
    rcases List.mem_append.mp he' with hmem | hmem
    · exact h.exact e' hmem
    · rw [List.mem_singleton.mp hmem]
      exact he
  refine ⟨⟨h.scratch, hexact, ?_⟩, h.used, h.bound, h.array, ?_⟩
  · show Owned h₀ m.heap _
    rw [hm]
    exact h.owned
  · obtain ⟨rest, hbacked, hlen⟩ := h.contents
    refine ⟨rest, hbacked.imp (fun hsome => ?_) id, hlen⟩
    rw [← hsome]
    unfold State.block State.note
    dsimp only
    rw [hm]

/-- The array has room for `k` elements now, or the allocator refused. -/
theorem enlarge_spec (h : Holds P h₀ G s L) {k : Nat} (hk : L.length ≤ k) :
    ∃ s' ok, enlarge A P k k s = some (s', ok) ∧ Holds P h₀ G s' L ∧ Kept G s s' ∧
      (ok = true ∧ s'.allocated = k ∧ (s.Quiet → s'.Quiet) ∨ ok = false ∧ ¬s'.Quiet) := by
  have hn := Nat.mul_le_mul_right P.elementSize hk
  unfold enlarge
  split
  · next hover =>
    exact ⟨_, false, rfl, h.refused rfl hover, ⟨fun _ _ => rfl, log_note s _⟩,
      .inr ⟨rfl, not_quiet_note rfl⟩⟩
  unfold newArray
  split
  · next hfirst =>
    cases hm : mallocBytes A s.mem (k * P.elementSize) with
    | mk m p =>
    obtain ⟨howned, hlt⟩ := mallocBytes_owned hm
    dsimp only
    by_cases hp : p = 0
    · subst hp
      have hsame : m.heap = s.mem.heap := howned.heap_eq
      have hheld := h.refused hsame (e := .alloc (k * P.elementSize) (k * P.elementSize) false) rfl
      exact ⟨_, false, rfl, hheld, ⟨fun a _ => by show m.heap.get a = _; rw [hsame], log_note s _⟩,
        .inr ⟨rfl, not_quiet_note rfl⟩⟩
    · obtain ⟨m', evs, rest, hcopy, hevs, ho, hget, hlen⟩ :=
        malloc_copy h hm hp hn (.alloc (k * P.elementSize) (k * P.elementSize) (p ≠ 0))
      have hheap : Owned h₀ m'.heap (p :: G) := by
        have hold := h.owned
        rw [hfirst, P.blocks_scratchPtr, List.nil_append] at hold
        exact (hold.trans ho).perm List.perm_append_comm
      have hexact : ∀ e ∈ Event.alloc (k * P.elementSize) (k * P.elementSize) (p ≠ 0) :: evs,
          e.Exact := List.forall_mem_cons.mpr ⟨rfl, fun e he => (hevs e he).1⟩
      have hheld := h.moved hexact hheap hget hlen (hlt hp).1
      refine ⟨_, true, ?_, hheld, ⟨?_, List.prefix_append _ _⟩, .inl ⟨rfl, rfl, ?_⟩⟩
      · rw [if_pos hp, hcopy, Option.map_some, Option.map_some, if_neg hp]
      · exact fun a ha => ho.frame a fun hmem => by
          rw [List.mem_singleton.mp hmem] at ha
          exact (List.nodup_cons.mp hheap.nodup).1 ha
      · intro hq e he
        rcases List.mem_append.mp he with hmem | hmem
        · exact hq e hmem
        · rcases List.mem_cons.mp hmem with rfl | hmem
          · simp [Event.failed, hp]
          · exact (hevs e hmem).2
  · next hmoved =>
    obtain ⟨p, harray⟩ := h.array.resolve_left hmoved
    obtain ⟨m, q, hrealloc, hq⟩ := reallocBytes_spec (A := A) h harray hn
    rw [hrealloc, Option.map_some, Option.map_some]
    dsimp only
    rcases hq with ⟨rfl, hsame⟩ | ⟨hq0, hlt, ho, ⟨rest, hget, hlen⟩, hkeep⟩
    · have hheld := h.refused hsame (e := .alloc (k * P.elementSize) (k * P.elementSize) false) rfl
      exact ⟨_, false, rfl, hheld, ⟨fun a _ => by show m.heap.get a = _; rw [hsame], log_note s _⟩,
        .inr ⟨rfl, not_quiet_note rfl⟩⟩
    · have hexact : ∀ e ∈ [Event.alloc (k * P.elementSize) (k * P.elementSize) (q ≠ 0)],
          e.Exact := List.forall_mem_cons.mpr ⟨rfl, fun e he => absurd he List.not_mem_nil⟩
      have hheld := h.moved hexact ho hget hlen hlt
      refine ⟨_, true, by rw [if_neg hq0]; rfl, hheld, ⟨hkeep, List.prefix_append _ _⟩,
        .inl ⟨rfl, rfl, fun hquiet => quiet_note (s := s) hquiet ?_⟩⟩
      simp [Event.failed, hq0]

theorem firstAllocated_pos (elementSize : Nat) : 0 < firstAllocated elementSize := by
  unfold firstAllocated
  split
  · decide
  · split <;> decide

/-- A full array has room for one more element now, or the allocator refused. -/
theorem emplaceEnlarge_spec (h : Holds P h₀ G s L) (hfull : s.used = s.allocated) :
    ∃ s' ok, emplaceEnlarge A P s = some (s', ok) ∧ Holds P h₀ G s' L ∧ Kept G s s' ∧
      (ok = true ∧ s'.used < s'.allocated ∧ (s.Quiet → s'.Quiet) ∨ ok = false ∧ ¬s'.Quiet) := by
  have hroom : ∀ k, L.length < k → ∃ s' ok, enlarge A P k k s = some (s', ok) ∧
      Holds P h₀ G s' L ∧ Kept G s s' ∧
      (ok = true ∧ s'.used < s'.allocated ∧ (s.Quiet → s'.Quiet) ∨ ok = false ∧ ¬s'.Quiet) := by
    intro k hk
    obtain ⟨s', ok, hcall, hheld, hkept, hok⟩ := enlarge_spec (A := A) h (Nat.le_of_lt hk)
    refine ⟨s', ok, hcall, hheld, hkept, hok.imp (fun ⟨htrue, halloc, hquiet⟩ => ?_) id⟩
    exact ⟨htrue, by rw [hheld.used, halloc]; exact hk, hquiet⟩
  have hlen := h.used
  have hlt := h.allocated_lt
  unfold emplaceEnlarge
  split
  · next h0 =>
    have hpos := firstAllocated_pos P.elementSize
    exact hroom _ (by omega)
  · have hexact : (s.allocated + s.allocated / 2 + 1) % 2 ^ 64 = s.allocated + s.allocated / 2 + 1 :=
      Nat.mod_eq_of_lt (by omega)
    dsimp only
    rw [hexact, if_neg (by omega)]
    exact hroom _ (by omega)

/-! ## Freeing the block -/

/-- The array after its block was freed. -/
structure Freed (h₀ : Heap (List UInt8)) (G : List Nat) (s : State) (m : Mem (List UInt8)) : Prop where
  owned : Owned h₀ m.heap G
  kept : ∀ a ∈ G, m.heap.get a = s.mem.heap.get a

theorem freed_scratch (b : Base P h₀ G s) (harray : s.array = P.scratchPtr) :
    Freed h₀ G s s.mem := by
  have howned := b.owned
  rw [harray, P.blocks_scratchPtr, List.nil_append] at howned
  exact ⟨howned, fun _ _ => rfl⟩

theorem freeBlock_heap (b : Base P h₀ G s) {p : Nat} (harray : s.array = .heap p) :
    ∃ m, s.freeBlock = some { s with mem := m } ∧ Freed h₀ G s m := by
  have howned := b.owned
  rw [harray] at howned
  have hp := (howned.fresh p List.mem_cons_self).1
  have hne : ∀ a ∈ G, a ≠ p := fun a ha hap => (List.nodup_cons.mp howned.nodup).1 (hap ▸ ha)
  obtain ⟨m, hfree, hm, hframe⟩ := @Owned.free _ h₀ G s.mem p (by
    rw [ptrs_cons_nil hp]
    exact howned)
  refine ⟨m, ?_, hm, fun a ha => hframe a (hne a ha)⟩
  unfold State.freeBlock
  rw [harray]
  exact congrArg (Option.map _) hfree

theorem scratchPtr_ne_heap (P : Params) (p : Nat) : Ptr.heap p ≠ P.scratchPtr := by
  unfold Params.scratchPtr
  split <;> nofun

theorem freeArray_spec (b : Base P h₀ G s) (harray : s.array = P.scratchPtr ∨ ∃ p, s.array = .heap p) :
    ∃ m, freeArray P s = some { s with mem := m } ∧ Freed h₀ G s m := by
  rcases harray with hscratch | ⟨p, hheap⟩
  · refine ⟨s.mem, ?_, freed_scratch b hscratch⟩
    unfold freeArray
    unfold Params.scratchPtr at hscratch
    split at hscratch
    · next hpos => rw [if_pos hpos, if_neg (not_not_intro hscratch)]
    · next hpos =>
      have hnull : s.freeBlock = some s := by rw [State.freeBlock, hscratch]
      rw [if_neg hpos, hnull]
  · obtain ⟨m, hfree, hm⟩ := freeBlock_heap b hheap
    refine ⟨m, ?_, hm⟩
    have hne : s.array ≠ .scratch := by
      rw [hheap]
      nofun
    unfold freeArray
    rw [if_pos hne, hfree, ite_self]

theorem freeOther_spec (b : Base P h₀ G s) (harray : s.array = P.scratchPtr ∨ ∃ p, s.array = .heap p) :
    ∃ m, freeOther P s = some { s with mem := m } ∧ Freed h₀ G s m := by
  rcases harray with hscratch | ⟨p, hheap⟩
  · exact ⟨s.mem, if_neg (not_not_intro hscratch), freed_scratch b hscratch⟩
  · obtain ⟨m, hfree, hm⟩ := freeBlock_heap b hheap
    refine ⟨m, ?_, hm⟩
    have hne : s.array ≠ P.scratchPtr := by
      rw [hheap]
      exact scratchPtr_ne_heap P p
    rw [freeOther, if_pos hne, hfree]

/-- All elements and the block are freed. -/
theorem freeAll_spec (h : Holds P h₀ G s L) :
    ∃ m evs, (freeElements P 0 s.used s).bind (freeArray P) =
        some { s with mem := m, log := s.log ++ evs } ∧
      (∀ e ∈ evs, e.Exact ∧ e.failed = false) ∧ Freed h₀ G s m := by
  obtain ⟨evs, hfree, hevs⟩ := freeElements_spec h 0 s.used (by rw [h.used]; omega)
  have hb : Base P h₀ G { s with log := s.log ++ evs } := h.toBase.congr rfl rfl rfl fun e he =>
    (List.mem_append.mp he).elim (h.exact e) fun hm => (hevs e hm).1
  obtain ⟨m, harr, hm⟩ := freeArray_spec hb h.array
  exact ⟨m, evs, by rw [hfree, Option.bind_some, harr], hevs, hm.owned, hm.kept⟩

theorem markFailed_spec (h : Holds P h₀ G s L) :
    ∃ s', markFailed P s = some s' ∧ Marked P h₀ G s' ∧ s'.used = 0 ∧ Kept G s s' := by
  obtain ⟨m, evs, hfree, hevs, hm⟩ := freeAll_spec h
  obtain ⟨s₁, h₁, h₂⟩ := Option.bind_eq_some_iff.mp hfree
  refine ⟨{ s with mem := m, log := s.log ++ evs, array := P.scratchPtr, used := 0,
                   allocated := errorMarker }, ?_,
    ⟨⟨h.scratch, fun e he => ?_, ?_⟩, rfl, rfl, Nat.zero_le _⟩, rfl, hm.kept,
    List.prefix_append _ evs⟩
  · exact (congrArg (Option.bind · _) h₁).trans ((congrArg (Option.bind · _) h₂).trans rfl)
  · exact (List.mem_append.mp he).elim (h.exact e) fun hmem => (hevs e hmem).1
  · show Owned h₀ m.heap (P.scratchPtr.blocks ++ G)
    rw [P.blocks_scratchPtr]
    exact hm.owned

/-- The state that `init` leaves. -/
structure Fresh (P : Params) (s : State) : Prop where
  used : s.used = 0
  allocated : s.allocated = P.initialSize
  array : s.array = P.scratchPtr

theorem init_fresh (P : Params) (s : State) : Fresh P (init P s) := ⟨rfl, rfl, rfl⟩

theorem Fresh.holds (hf : Fresh P s) (hscratch : s.scratch.length = P.initialSize * P.elementSize)
    (hexact : ∀ e ∈ s.log, e.Exact) (howned : Owned h₀ s.mem.heap G) : Holds P h₀ G s [] := by
  refine ⟨⟨hscratch, hexact, ?_⟩, hf.used, by rw [hf.allocated]; exact P.scratch_lt, .inl hf.array,
    ?_⟩
  · rw [hf.array, P.blocks_scratchPtr]
    exact howned
  · have harray := hf.array
    rw [hf.allocated]
    unfold Params.scratchPtr at harray
    split at harray
    · refine ⟨s.scratch, .inl ?_, hscratch⟩
      rw [State.block, harray]
      rfl
    · next h0 =>
      refine ⟨[], .inr ⟨harray, rfl⟩, ?_⟩
      rw [Nat.eq_zero_of_not_pos h0, Nat.zero_mul]
      rfl

theorem freeList_spec (h : Holds P h₀ G s L) :
    ∃ s', freeList P s = some s' ∧ Fresh P s' ∧ Holds P h₀ G s' [] ∧ Kept G s s' ∧
      (s.Quiet → s'.Quiet) := by
  obtain ⟨m, evs, hfree, hevs, hm⟩ := freeAll_spec h
  obtain ⟨s₁, h₁, h₂⟩ := Option.bind_eq_some_iff.mp hfree
  have hfresh := init_fresh P { s with mem := m, log := s.log ++ evs }
  refine ⟨_, ?_, hfresh, hfresh.holds h.scratch (fun e he => ?_) hm.owned,
    ⟨hm.kept, List.prefix_append _ evs⟩, fun hq e he => ?_⟩
  · exact (congrArg (Option.bind · _) h₁).trans ((congrArg (Option.bind · _) h₂).trans rfl)
  · exact (List.mem_append.mp he).elim (h.exact e) fun hmem => (hevs e hmem).1
  · exact (List.mem_append.mp he).elim (hq e) fun hmem => (hevs e hmem).2

end Librecompat.Dynarray
