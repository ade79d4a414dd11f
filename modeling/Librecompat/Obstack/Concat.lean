/-
  A grown object is the concatenation of what was added to it.

  `Growable` is enough for that, and unlike the invariant of the finished objects it also holds of
  an obstack whose first chunk has no room for the alignment: the object is empty then, and the
  first byte moves it to another chunk. `Piece.add_spec` is the step, `addAll_spec` the run,
  `grown_object` the statement for every obstack in use. Lengths are below `INT_MAX`, so that
  `__len + 1` does not overflow; the proofs need no bound.
-/
import Librecompat.Obstack.Objects
import Mathlib.Data.List.Forall2

namespace Librecompat.Obstack

open Librecompat.Lib

/-! ## Pieces -/

/-- What is added to the current object. -/
inductive Piece
  | grow (bs : List UInt8)
  | grow0 (bs : List UInt8)
  | onegrow (b : UInt8)
  | blank (length : Nat)

def Piece.length : Piece → Nat
  | grow bs => bs.length
  | grow0 bs => bs.length + 1
  | onegrow _ => 1
  | blank length => length

/-- The bytes of a piece; `none` is a byte that is not specified. -/
def Piece.pattern : Piece → List (Option UInt8)
  | grow bs => bs.map some
  | grow0 bs => bs.map some ++ [some 0]
  | onegrow b => [some b]
  | blank length => List.replicate length none

def Piece.add {abi : Abi} (A : Allocator abi) (s : State) : Piece → Option State
  | grow bs => Obstack.grow A bs s
  | grow0 bs => Obstack.grow0 A bs s
  | onegrow b => Obstack.onegrow A b s
  | blank length => Obstack.blank A length s

/-- The bytes are those of the pattern, where it says something. -/
def Matches (pattern : List (Option UInt8)) (bs : List UInt8) : Prop :=
  List.Forall₂ (fun p b => ∀ c, p = some c → b = c) pattern bs

variable {abi : Abi} {A : Allocator abi} {mask k : Nat} {s : State} {c : Chunk} {objs : List Obj}
  {cs : List Chunk} {e : Bool}

theorem matches_bytes (bs : List UInt8) : Matches (bs.map some) bs := by
  induction bs with
  | nil => exact .nil
  | cons b bs ih => exact .cons (fun c hc => Option.some.inj hc) ih

theorem matches_blank (bs : List UInt8) : Matches (List.replicate bs.length none) bs := by
  induction bs with
  | nil => exact .nil
  | cons b bs ih => exact .cons nofun ih

theorem Piece.length_pattern (p : Piece) : p.pattern.length = p.length := by
  cases p <;> simp [pattern, length]

/-! ## Growing in one chunk or the next -/

/-- The old chunk may be freed; the new one stays, and so do the bytes. -/
theorem dropOldChunk_kept {h : Obstack} {m : Mem} {new : Chunk} {rest : List Chunk}
    (hblocks : m.blocks = new :: rest) (hc : c ∈ rest) (hchunk : h.chunk = c.addr)
    (hne : new.addr ≠ c.addr) :
    ∃ m' head, dropOldChunk h new.addr m = some m' ∧ m'.byte = m.byte ∧
      { new with head := head } ∈ m'.blocks := by
  unfold dropOldChunk
  split
  · have hold : ∃ head, m.head h.chunk = some head := by
      have hfind : (m.blocks.find? (·.addr = h.chunk)).isSome := by
        rw [List.find?_isSome]
        exact ⟨c, by rw [hblocks]; exact List.mem_cons_of_mem _ hc, decide_eq_true hchunk.symm⟩
      obtain ⟨b, hb⟩ := Option.isSome_iff_exists.mp hfind
      exact ⟨b.head, by rw [Memory.head, hb, Option.map_some]⟩
    obtain ⟨old, hold⟩ := hold
    have hnew : m.head new.addr = some new.head := by
      simp [Memory.head, hblocks]
    rw [hold, hnew]
    simp only [Option.bind_eq_bind, Option.bind_some, Memory.setHead, hblocks, List.any_cons,
      decide_true, Bool.true_or, if_true, List.map_cons]
    rw [Memory.free, if_pos ?_]
    · refine ⟨_, { new.head with prev := old.prev }, rfl, rfl, ?_⟩
      rw [List.eraseP_cons_of_neg (by simpa [hchunk] using hne)]
      exact List.mem_cons_self
    · refine List.any_eq_true.mpr ⟨if c.addr = new.addr then _ else c, List.mem_cons_of_mem _
        (List.mem_map.mpr ⟨c, hc, rfl⟩), ?_⟩
      rw [if_neg hne.symm]
      exact decide_eq_true hchunk.symm
  · exact ⟨m, new.head, rfl, rfl, by rw [hblocks]; exact List.mem_cons_self⟩

/-- A new chunk has the room that was asked for, and the object in it. -/
theorem Growable.newchunk (hmask : mask + 1 = 2 ^ k) (h : Growable mask s c) (length : Nat) :
    ∃ s' c', newchunk A length s = some s' ∧ Growable mask s' c' ∧
      s'.h.nextFree + length ≤ s'.h.chunkLimit ∧ s'.growing = s.growing := by
  obtain ⟨m, hcopy, hmblocks, -, hgrown⟩ := copied (A := A) hmask h length
  have hroom := newBlock_room (A := A) h.alignmentMask length
  have hapart : (newBlock A s length).Apart c := newBlock_apart A s length c h.mem
  have hstart : (newBlock A s length).addr + contentsOffset ≤
    contentsAligned (newBlock A s length).addr mask := contents_le hmask
  have hhead := h.head
  rw [← h.alignmentMask] at hcopy
  rw [newchunk_eq hcopy]
  generalize newBlock A s length = new at *
  have hne : new.addr ≠ c.addr := by
    unfold contentsOffset at hhead hstart
    rcases hapart with hapart | hapart <;> omega
  obtain ⟨m', head, hdrop, hbyte, hmem⟩ := dropOldChunk_kept hmblocks h.mem h.chunk hne
  have hbase : (s.moved new m').h.objectBase = contentsAligned new.addr mask := by
    rw [← h.alignmentMask]
    rfl
  have hnext : (s.moved new m').h.nextFree =
      contentsAligned new.addr mask + (s.h.nextFree - s.h.objectBase) := by
    rw [← h.alignmentMask]
    rfl
  refine ⟨s.moved new m', { new with head := head }, by rw [hdrop]; rfl,
    ⟨h.alignmentMask, hmem, rfl, rfl, ?_, ?_, ?_, .inr ?_⟩, ?_, ?_⟩
  · show contentsOffset ≤ new.size
    omega
  · rw [hbase]
    exact hstart
  · rw [hbase, hnext]
    exact Nat.le_add_right _ _
  · rw [hnext]
    exact Nat.le_trans (Nat.le_add_right _ length) hroom
  · rw [hnext]
    exact hroom
  · rw [← hgrown, State.growing, hnext, hbase, Nat.add_sub_cancel_left]
    unfold Memory.bytes
    rw [show (s.moved new m').mem = m' from rfl, hbyte]

theorem Growable.reserve (hmask : mask + 1 = 2 ^ k) (h : Growable mask s c) (length : Nat) :
    ∃ s' c', reserve A length s = some s' ∧ Growable mask s' c' ∧
      s'.h.nextFree + length ≤ s'.h.chunkLimit ∧ s'.growing = s.growing := by
  unfold Obstack.reserve
  split
  · exact h.newchunk hmask length
  · next hroom => exact ⟨s, c, rfl, h, Nat.le_of_not_lt hroom, rfl⟩

/-- What is behind the object becomes part of it. -/
theorem growing_add (m : Mem) (n : Nat) (hle : s.h.objectBase ≤ s.h.nextFree) :
    State.growing { h := { s.h with nextFree := s.h.nextFree + n }, mem := m } =
      m.bytes s.h.objectBase (s.h.nextFree - s.h.objectBase) ++ m.bytes s.h.nextFree n := by
  have hsize : s.h.nextFree + n - s.h.objectBase = s.h.nextFree - s.h.objectBase + n := by omega
  have hend : s.h.objectBase + (s.h.nextFree - s.h.objectBase) = s.h.nextFree := by omega
  unfold State.growing
  dsimp only
  rw [hsize, Memory.bytes_append, hend]

theorem Growable.append (h : Growable mask s c) (bs : List UInt8)
    (hroom : s.h.nextFree + bs.length ≤ s.h.chunkLimit) :
    ∃ s', append bs s = some s' ∧ Growable mask s' c ∧ s'.growing = s.growing ++ bs ∧
      s'.h.nextFree = s.h.nextFree + bs.length ∧ s'.h.chunkLimit = s.h.chunkLimit := by
  have hlow := h.low
  have hbase := h.base
  have hlimit := h.limit
  have hin : s.mem.Inside contentsOffset s.h.nextFree bs.length := ⟨c, h.mem, by omega, by omega⟩
  unfold Obstack.append
  rw [Memory.stores_eq hin]
  refine ⟨_, rfl, ⟨h.alignmentMask, by rw [Memory.blocks_write]; exact h.mem, h.chunk, hlimit,
    h.head, hlow, Nat.le_add_right_of_le hbase, .inr (by rw [← hlimit]; exact hroom)⟩, ?_, rfl, rfl⟩
  rw [growing_add _ _ hbase, Memory.bytes_write_self, Memory.bytes_write_apart (.inl (by omega)),
    State.growing]

/-! ## Growing by pieces -/

/-- What a piece adds to the object. -/
theorem Piece.add_spec (hmask : mask + 1 = 2 ^ k) (h : Growable mask s c) (p : Piece) :
    ∃ s' c' bs, p.add A s = some s' ∧ Growable mask s' c' ∧ s'.growing = s.growing ++ bs ∧
      Matches p.pattern bs := by
  have hgrow : ∀ bs, ∃ s' c', Obstack.grow A bs s = some s' ∧ Growable mask s' c' ∧
      s'.growing = s.growing ++ bs := by
    intro bs
    obtain ⟨s₁, c₁, hreserve, h₁, hroom, hgrown⟩ := h.reserve (A := A) hmask bs.length
    obtain ⟨s₂, happend, h₂, hbs, -⟩ := h₁.append bs hroom
    exact ⟨s₂, c₁, by rw [Obstack.grow, hreserve, Option.bind_some, happend], h₂,
      by rw [hbs, hgrown]⟩
  cases p with
  | grow bs =>
    obtain ⟨s', c', hcall, h', hbs⟩ := hgrow bs
    exact ⟨s', c', bs, hcall, h', hbs, matches_bytes bs⟩
  | onegrow b =>
    obtain ⟨s', c', hcall, h', hbs⟩ := hgrow [b]
    exact ⟨s', c', [b], hcall, h', hbs, matches_bytes [b]⟩
  | grow0 bs =>
    obtain ⟨s₁, c₁, hreserve, h₁, hroom, hgrown⟩ := h.reserve (A := A) hmask (bs.length + 1)
    obtain ⟨s₂, happend, h₂, hbs, hnext, hlimit⟩ := h₁.append bs (by omega)
    obtain ⟨s₃, hzero, h₃, hbs₃, -⟩ := h₂.append [0] (by
      rw [hnext, hlimit]
      exact hroom)
    refine ⟨s₃, c₁, bs ++ [0], ?_, h₃, by rw [hbs₃, hbs, hgrown, List.append_assoc], ?_⟩
    · show Obstack.grow0 A bs s = some s₃
      rw [Obstack.grow0, hreserve, Option.bind_eq_bind, Option.bind_some, happend, Option.bind_some,
        hzero]
    · have hmatch := matches_bytes (bs ++ [0])
      rwa [List.map_append] at hmatch
  | blank length =>
    obtain ⟨s₁, c₁, hreserve, h₁, hroom, hgrown⟩ := h.reserve (A := A) hmask length
    have hbase := h₁.base
    refine ⟨{ s₁ with h := { s₁.h with nextFree := s₁.h.nextFree + length } }, c₁,
      s₁.mem.bytes s₁.h.nextFree length, ?_, ⟨h₁.alignmentMask, h₁.mem, h₁.chunk, h₁.limit, h₁.head,
        h₁.low, Nat.le_add_right_of_le hbase, .inr (by rw [← h₁.limit]; exact hroom)⟩, ?_, ?_⟩
    · show Obstack.blank A length s = _
      rw [Obstack.blank, hreserve]
      rfl
    · rw [← hgrown]
      exact growing_add _ _ hbase
    · have hmatch := matches_blank (s₁.mem.bytes s₁.h.nextFree length)
      rwa [Memory.length_bytes] at hmatch

/-- Add the pieces one after the other. -/
def addAll (A : Allocator abi) (pieces : List Piece) (s : State) : Option State :=
  pieces.foldlM (Piece.add A) s

theorem addAll_spec (hmask : mask + 1 = 2 ^ k) (h : Growable mask s c) (pieces : List Piece) :
    ∃ s' c' bs, addAll A pieces s = some s' ∧ Growable mask s' c' ∧
      s'.growing = s.growing ++ bs ∧ Matches (pieces.flatMap Piece.pattern) bs := by
  induction pieces generalizing s c with
  | nil => exact ⟨s, c, [], rfl, h, (List.append_nil _).symm, .nil⟩
  | cons p pieces ih =>
    obtain ⟨s₁, c₁, bs₁, hadd, h₁, hgrown₁, hmatch₁⟩ := p.add_spec (A := A) hmask h
    obtain ⟨s₂, c₂, bs₂, hall, h₂, hgrown₂, hmatch₂⟩ := ih h₁
    refine ⟨s₂, c₂, bs₁ ++ bs₂, ?_, h₂, by rw [hgrown₂, hgrown₁, List.append_assoc],
      List.rel_append hmatch₁ hmatch₂⟩
    rw [addAll, List.foldlM_cons, hadd, Option.bind_eq_bind, Option.bind_some]
    exact hall

theorem length_pattern (pieces : List Piece) :
    (pieces.flatMap Piece.pattern).length = (pieces.map Piece.length).sum := by
  induction pieces with
  | nil => rfl
  | cons p pieces ih =>
    rw [List.flatMap_cons, List.length_append, ih, p.length_pattern, List.map_cons, List.sum_cons]

/-! ## Obstacks in use -/

theorem Growable.finish (h : Growable mask s c) (hmask : mask + 1 = 2 ^ k) :
    Growable mask (finish s).1 c := by
  have hlimit := h.limit
  have hhead := h.head
  have hlow := h.low
  have hbase := h.base
  have hle : s.h.nextFree ≤ ptrAlign s.h.nextFree s.h.alignmentMask := by
    rw [h.alignmentMask]
    exact le_ptrAlign hmask
  refine ⟨h.alignmentMask, h.mem, h.chunk, hlimit, hhead, ?_, Nat.le_refl _, .inl rfl⟩
  show c.addr + contentsOffset ≤ if _ then _ else _
  split <;> omega

/-- Every operation but `obstack_free` keeps it. -/
theorem Growable.step {t : Track} (hmask : mask + 1 = 2 ^ k) (h : Growable mask t.state c) (op : Op)
    (hop : ∀ i, op ≠ .free i) :
    ∃ t', step A t op = some t' ∧ ∃ c', Growable mask t'.state c' := by
  have hadd : ∀ p : Piece, ∃ s' c', p.add A t.state = some s' ∧ Growable mask s' c' := fun p =>
    let ⟨s', c', _, hcall, h', _⟩ := p.add_spec hmask h
    ⟨s', c', hcall, h'⟩
  cases op with
  | grow bs =>
    obtain ⟨s', c', hcall, h'⟩ := hadd (.grow bs)
    exact ⟨_, congrArg (Option.map _) hcall, c', h'⟩
  | grow0 bs =>
    obtain ⟨s', c', hcall, h'⟩ := hadd (.grow0 bs)
    exact ⟨_, congrArg (Option.map _) hcall, c', h'⟩
  | onegrow b =>
    obtain ⟨s', c', hcall, h'⟩ := hadd (.onegrow b)
    exact ⟨_, congrArg (Option.map _) hcall, c', h'⟩
  | blank length =>
    obtain ⟨s', c', hcall, h'⟩ := hadd (.blank length)
    exact ⟨_, congrArg (Option.map _) hcall, c', h'⟩
  | alloc length =>
    obtain ⟨s', c', hcall, h'⟩ := hadd (.blank length)
    exact ⟨_, congrArg (Option.map _) hcall, c', h'.finish hmask⟩
  | copy bs =>
    obtain ⟨s', c', hcall, h'⟩ := hadd (.grow bs)
    exact ⟨_, congrArg (Option.map _) hcall, c', h'.finish hmask⟩
  | finish => exact ⟨_, rfl, c, h.finish hmask⟩
  | free i => exact absurd rfl (hop i)

/-- An obstack in use: it was begun with the alignment and the size, and then `ops` were done.
    Objects are only freed when the first chunk had room for the alignment. -/
structure InUse (A : Allocator abi) (size alignment : Nat) (byte : Nat → UInt8) (ops : List Op)
    (t : Track) : Prop where
  pow : alignment = 0 ∨ ∃ k, alignment = 2 ^ k
  head : size = 0 ∨ contentsOffset ≤ size
  legal : Legal (step A) allowed (begun A size alignment byte) ops
  freed : ∀ i, .free i ∈ ops → (begun A size alignment byte).state.h.objectBase ≤
    (begun A size alignment byte).state.h.chunkLimit
  ran : run (step A) (begun A size alignment byte) ops = some t

theorem begun_growable {size alignment : Nat} {byte : Nat → UInt8}
    (hpow : abi.alignment alignment = 2 ^ k) (hsize : size = 0 ∨ contentsOffset ≤ size) :
    ∃ c, Growable (abi.alignment alignment - 1) (begun A size alignment byte).state c := by
  have hmask : abi.alignment alignment - 1 + 1 = 2 ^ k := by
    rw [hpow, Nat.sub_add_cancel (Nat.two_pow_pos k)]
  have hdefault : contentsOffset ≤ abi.defaultSize := by
    cases abi <;> decide
  refine ⟨_, rfl, List.mem_cons_self, rfl, rfl, ?_, contents_le hmask, Nat.le_refl _, .inl rfl⟩
  show contentsOffset ≤ if size = 0 then abi.defaultSize else size
  split
  · exact hdefault
  · next h0 => exact hsize.resolve_left h0

theorem InUse.growable {size alignment : Nat} {byte : Nat → UInt8} {ops : List Op} {t : Track}
    (h : InUse A size alignment byte ops t) :
    ∃ mask k c, mask + 1 = 2 ^ k ∧ Growable mask t.state c := by
  obtain ⟨k, hpow⟩ := abi.alignment_pow h.pow
  have hmask : abi.alignment alignment - 1 + 1 = 2 ^ k := by
    rw [hpow, Nat.sub_add_cancel (Nat.two_pow_pos k)]
  by_cases hfree : ∃ i, .free i ∈ ops
  · obtain ⟨i, hi⟩ := hfree
    obtain ⟨t', hrun, c, cs, e, hinv⟩ := run_inv (fun t op => step_spec A hmask t op)
      (begun_inv hpow (h.freed i hi)) h.legal
    obtain rfl := Option.some.inj (hrun.symm.trans h.ran)
    exact ⟨_, k, c, hmask, hinv.growable hmask⟩
  · have hlegal :
        Legal (step A) (fun _ op => ∀ i, op ≠ .free i) (begun A size alignment byte) ops :=
      legal_of_mem fun op hop _ i heq => hfree ⟨i, heq ▸ hop⟩
    obtain ⟨t', hrun, c, hgrow⟩ := @run_inv _ _ (step A) (fun _ op => ∀ i, op ≠ .free i)
      (fun t => ∃ c, Growable (abi.alignment alignment - 1) t.state c)
      (fun t op ⟨_, hgrow⟩ hop => hgrow.step hmask op hop) ops _ (begun_growable hpow h.head) hlegal
    obtain rfl := Option.some.inj (hrun.symm.trans h.ran)
    exact ⟨_, k, c, hmask, hgrow⟩

/-- Whatever an obstack in use has been through, the pieces that are added to its current object are
    in the finished object one behind the other, and a new chunk always has the room that it is made
    for. -/
theorem grown_object {size alignment : Nat} {byte : Nat → UInt8} {ops : List Op} {t : Track}
    (h : InUse A size alignment byte ops t) (pieces : List Piece) :
    ∃ s bs, addAll A pieces t.state = some s ∧
      (finish s).1.mem.loads contentsOffset (finish s).2 (s.h.nextFree - s.h.objectBase) =
        some (t.state.growing ++ bs) ∧
      Matches (pieces.flatMap Piece.pattern) bs ∧
      s.h.nextFree - s.h.objectBase =
        t.state.growing.length + (pieces.map Piece.length).sum ∧
      ∀ length, ∃ s', newchunk A length s = some s' ∧
        s'.h.nextFree + length ≤ s'.h.chunkLimit := by
  obtain ⟨mask, k, c, hmask, hgrow⟩ := h.growable
  obtain ⟨s, c', bs, hall, h', hgrown, hmatch⟩ := addAll_spec (A := A) hmask hgrow pieces
  have hsize : s.growing.length = s.h.nextFree - s.h.objectBase := Memory.length_bytes
  refine ⟨s, bs, hall, ?_, hmatch, ?_, fun length => ?_⟩
  · rw [← hgrown]
    show s.mem.loads contentsOffset s.h.objectBase _ = _
    rcases h'.object with hempty | hend
    · have hzero : s.h.nextFree - s.h.objectBase = 0 := by omega
      rw [State.growing, hzero]
      rfl
    · have hbase := h'.base
      exact Memory.loads_eq ⟨c', h'.mem, h'.low, by omega⟩
  · rw [← hsize, hgrown, List.length_append, ← length_pattern, hmatch.length_eq]
  · obtain ⟨s', _, hcall, _, hroom, _⟩ := h'.newchunk (A := A) hmask length
    exact ⟨s', hcall, hroom⟩

/-- An object that is begun behind its chunk and needs two more. -/
theorem grown_object_moved :
    ∃ s bs, addAll pages [.grow [1, 2, 3], .blank 5000, .grow0 [4], .onegrow 5]
        ((begun pages 0 4096 fun _ => 0).finish).state = some s ∧
      (finish s).1.mem.loads contentsOffset (finish s).2 (s.h.nextFree - s.h.objectBase) =
        some (((begun pages 0 4096 fun _ => 0).finish).state.growing ++ bs) ∧
      Matches ([Piece.grow [1, 2, 3], .blank 5000, .grow0 [4], .onegrow 5].flatMap
        Piece.pattern) bs ∧
      s.h.nextFree - s.h.objectBase =
        ((begun pages 0 4096 fun _ => 0).finish).state.growing.length +
          ([Piece.grow [1, 2, 3], .blank 5000, .grow0 [4], .onegrow 5].map Piece.length).sum ∧
      ∀ length, ∃ s', newchunk pages length s = some s' ∧
        s'.h.nextFree + length ≤ s'.h.chunkLimit :=
  @grown_object .x86_64 pages 0 4096 (fun _ => 0) [.finish] _
    ⟨.inr ⟨12, rfl⟩, .inl rfl, ⟨trivial, fun _ _ => trivial⟩, fun i hi => by simp at hi, rfl⟩
    [.grow [1, 2, 3], .blank 5000, .grow0 [4], .onegrow 5]

end Librecompat.Obstack
