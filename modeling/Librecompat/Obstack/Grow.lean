/-
  Growing the current object.

  `Inv` is the invariant of an obstack between two operations. `newchunk_spec` says that the object
  is carried over to a chunk with room for more and that the finished objects stay, `reserve_spec`
  and `append_spec` are what the macros for growing are made of.
-/
import Librecompat.Obstack.Chunks

namespace Librecompat.Obstack

open Librecompat.Lib

/-- The objects `objs`, the newest one first, lie in the chunks `c` and `cs`, and the one that grows
    behind them. -/
structure Inv (mask : Nat) (s : State) (objs : List Obj) (c : Chunk) (cs : List Chunk) (e : Bool) :
    Prop where
  alignmentMask : s.h.alignmentMask = mask
  blocks : s.mem.blocks = c :: cs
  chain : Chain s.h.chunk (c :: cs)
  roomy : ∀ c' ∈ c :: cs, Roomy mask c'
  apart : (c :: cs).Pairwise Block.Apart
  packed : Packed mask (c :: cs) s.h.objectBase objs e
  flag : e = true → s.h.maybeEmptyObject = true
  base : s.h.objectBase ≤ s.h.nextFree
  next : s.h.nextFree ≤ s.h.chunkLimit
  limit : s.h.chunkLimit = c.addr + c.size
  aligned : mask + 1 ∣ s.h.objectBase ∨ s.h.objectBase = s.h.chunkLimit
  kept : ∀ o ∈ objs, s.mem.bytes o.addr o.contents.length = o.contents

variable {abi : Abi} {A : Allocator abi} {mask k : Nat} {s : State} {objs : List Obj} {c : Chunk}
  {cs : List Chunk} {e : Bool} {n : Nat}

/-- The bytes of the object that grows. -/
def State.growing (s : State) : List UInt8 :=
  s.mem.bytes s.h.objectBase (s.h.nextFree - s.h.objectBase)

/-- What growing the current object needs, whatever the other chunks hold: the object lies in the
    chunk `c`, or it is empty. -/
structure Growable (mask : Nat) (s : State) (c : Chunk) : Prop where
  alignmentMask : s.h.alignmentMask = mask
  mem : c ∈ s.mem.blocks
  chunk : s.h.chunk = c.addr
  limit : s.h.chunkLimit = c.addr + c.size
  head : contentsOffset ≤ c.size
  low : c.addr + contentsOffset ≤ s.h.objectBase
  base : s.h.objectBase ≤ s.h.nextFree
  object : s.h.nextFree = s.h.objectBase ∨ s.h.nextFree ≤ c.addr + c.size

theorem Inv.growable (h : Inv mask s objs c cs e) (hmask : mask + 1 = 2 ^ k) :
    Growable mask s c := by
  have hstart : c.addr + contentsOffset ≤ contentsAligned c.addr mask := contents_le hmask
  have hroom := h.roomy c List.mem_cons_self
  have htop := h.packed.le_top
  have hnext := h.next
  have hlimit := h.limit
  unfold Roomy at hroom
  exact ⟨h.alignmentMask, by simp [h.blocks], h.chain.1, h.limit, by omega, by omega, h.base,
    .inr (by omega)⟩

/-! ## A new chunk -/

theorem copyOrder_le (abi : Abi) (mask n : Nat) :
    ∀ piece ∈ copyOrder abi mask n, piece.1 + piece.2 ≤ n := by
  have hwords : n / copyingUnit * copyingUnit ≤ n := Nat.div_mul_le_self n copyingUnit
  intro piece hp
  unfold copyOrder at hp
  split at hp
  · rcases List.mem_append.mp hp with hp | hp
    · obtain ⟨i, hi, rfl⟩ := List.mem_map.mp hp
      have hlt : i < n / copyingUnit := List.mem_range.mp (List.mem_reverse.mp hi)
      have hmul := Nat.mul_le_mul_right copyingUnit hlt
      rw [Nat.succ_mul] at hmul
      exact Nat.le_trans hmul hwords
    · obtain ⟨i, hi, rfl⟩ := List.mem_map.mp hp
      have hlt := (List.mem_range'_1.mp hi).2
      show i + 1 ≤ n
      omega
  · obtain ⟨i, hi, rfl⟩ := List.mem_map.mp hp
    have hlt := (List.mem_range'_1.mp hi).2
    show i + 1 ≤ n
    omega

theorem copyOrder_covered (abi : Abi) (mask : Nat) {i : Nat} (hi : i < n) :
    Memory.Covered (copyOrder abi mask n) i := by
  have hone : ∀ lo len, lo ≤ i → i < lo + len →
      (i, 1) ∈ (List.range' lo len).map fun i => (i, 1) := fun lo len h1 h2 =>
    List.mem_map.mpr ⟨i, List.mem_range'_1.mpr ⟨h1, h2⟩, rfl⟩
  unfold copyOrder
  split
  · by_cases hword : i < n / copyingUnit * copyingUnit
    · have hdiv : i / copyingUnit < n / copyingUnit := Nat.div_lt_of_lt_mul (by
        rwa [Nat.mul_comm] at hword)
      have hmod := Nat.div_add_mod i copyingUnit
      have hlt : i % copyingUnit < copyingUnit := Nat.mod_lt _ (by decide)
      rw [Nat.mul_comm] at hmod
      refine ⟨(i / copyingUnit * copyingUnit, copyingUnit), List.mem_append_left _ ?_, ?_, ?_⟩
      · exact List.mem_map.mpr ⟨_, List.mem_reverse.mpr (List.mem_range.mpr hdiv), rfl⟩
      · show i / copyingUnit * copyingUnit ≤ i
        omega
      · show i < i / copyingUnit * copyingUnit + copyingUnit
        omega
    · exact ⟨(i, 1), List.mem_append_right _ (hone _ _ (by omega) (by omega)), Nat.le_refl i,
        Nat.lt_succ_self i⟩
  · exact ⟨(i, 1), hone 0 n (Nat.zero_le i) (by omega), Nat.le_refl i, Nat.lt_succ_self i⟩

theorem newSize_ge (h : Obstack) (length : Nat) :
    h.nextFree - h.objectBase + length + h.alignmentMask + 100 ≤ newSize h length := by
  unfold newSize
  dsimp only
  split <;> omega

theorem addr_ne (hmask : mask + 1 = 2 ^ k) {c c' : Chunk} (hroom : Roomy mask c)
    (hroom' : Roomy mask c') (h : c.Apart c') : c.addr ≠ c'.addr := by
  have h1 : c.addr + 16 ≤ c.addr + c.size := Nat.le_trans (contents_le hmask) hroom
  have h2 : c'.addr + 16 ≤ c'.addr + c'.size := Nat.le_trans (contents_le hmask) hroom'
  rcases h with h | h <;> omega

/-- The old chunk is freed or stays behind the new one. -/
theorem dropOldChunk_eq {h : Obstack} {m : Mem} {new : Chunk} (hblocks : m.blocks = new :: c :: cs)
    (hchunk : h.chunk = c.addr) (hne : new.addr ≠ c.addr) (hcs : ∀ c' ∈ cs, c'.addr ≠ new.addr) :
    dropOldChunk h new.addr m =
      if ¬ h.maybeEmptyObject ∧ h.objectBase = contentsAligned c.addr h.alignmentMask then
        some { m with blocks :=
          { new with head := { new.head with prev := c.head.prev } } :: cs }
      else some m := by
  unfold dropOldChunk
  rw [hchunk]
  split
  · have hmap : cs.map (fun b => if b.addr = new.addr then
        { b with head := { new.head with prev := c.head.prev } } else b) = cs :=
      (List.map_congr_left fun b hb => if_neg (hcs b hb)).trans (List.map_id _)
    simp [Memory.head, Memory.setHead, Memory.free, hblocks, hne, hne.symm, hmap]
  · rfl

/-- The bytes of the objects stay when the memory changes at other addresses only. -/
theorem Inv.kept_of_apart (h : Inv mask s objs c cs e) (hmask : mask + 1 = 2 ^ k) {m : Mem}
    {lo hi : Nat} (hout : ∀ c' ∈ c :: cs, hi ≤ c'.addr ∨ c'.addr + c'.size ≤ lo)
    (hm : ∀ q, q < lo ∨ hi ≤ q → m.byte q = s.mem.byte q) :
    ∀ o ∈ objs, m.bytes o.addr o.contents.length = o.contents := by
  intro o ho
  obtain ⟨c', hc', hlo, hhi⟩ := h.packed.mem_in h.roomy ho
  have hstart : c'.addr + 16 ≤ o.addr := Nat.le_trans (contents_le hmask) hlo
  have hapart := hout c' hc'
  rw [Memory.bytes_congr fun q hq hqn => hm q (by omega), h.kept o ho]

/-- The chunk that `_obstack_newchunk` gets. -/
def newBlock (A : Allocator abi) (s : State) (length : Nat) : Chunk :=
  { addr := A.place s.mem (newSize s.h length), size := newSize s.h length,
    head := { limit := A.place s.mem (newSize s.h length) + newSize s.h length,
              prev := s.h.chunk } }

theorem newBlock_room (halign : s.h.alignmentMask = mask) (length : Nat) :
    contentsAligned (newBlock A s length).addr mask +
        (s.h.nextFree - s.h.objectBase) + length ≤
      (newBlock A s length).addr + (newBlock A s length).size := by
  have hle := ptrAlign_le ((newBlock A s length).addr + contentsOffset) mask
  have hge := newSize_ge s.h length
  have hsize : (newBlock A s length).size = newSize s.h length := rfl
  rw [halign] at hge
  unfold contentsAligned
  unfold contentsOffset at hle ⊢
  omega

theorem newBlock_apart (A : Allocator abi) (s : State) (length : Nat) :
    ∀ c' ∈ s.mem.blocks, (newBlock A s length).Apart c' :=
  A.fresh s.mem (newSize s.h length)

/-- The object in the new chunk. -/
theorem copied (hmask : mask + 1 = 2 ^ k) (h : Growable mask s c) (length : Nat) :
    ∃ m, (s.mem.alloc A (newBlock A s length).size (newBlock A s length).head).1.copyPieces
        contentsOffset s.h.objectBase (contentsAligned (newBlock A s length).addr mask)
        (copyOrder abi mask (s.h.nextFree - s.h.objectBase)) = some m ∧
      m.blocks = newBlock A s length :: s.mem.blocks ∧
      (∀ q, q < (newBlock A s length).addr ∨
          (newBlock A s length).addr + (newBlock A s length).size ≤ q →
        m.byte q = s.mem.byte q) ∧
      m.bytes (contentsAligned (newBlock A s length).addr mask)
        (s.h.nextFree - s.h.objectBase) = s.growing := by
  have hroom := newBlock_room (A := A) h.alignmentMask length
  have hnew := newBlock_apart A s length c h.mem
  have hplace : A.place s.mem (newBlock A s length).size = (newBlock A s length).addr := rfl
  have hstart : (newBlock A s length).addr + 16 ≤
      contentsAligned (newBlock A s length).addr mask := contents_le hmask
  have hlow := h.low
  have hbase := h.base
  generalize newBlock A s length = new at hroom hnew hplace hstart
  generalize contentsAligned new.addr mask = dst at hroom hstart
  have hbyte : ∀ q, q < new.addr ∨ new.addr + new.size ≤ q →
      (s.mem.alloc A new.size new.head).1.byte q = s.mem.byte q := by
    intro q hq
    show (if A.place s.mem new.size ≤ q ∧ q < A.place s.mem new.size + new.size then _ else _) = _
    rw [hplace]
    exact if_neg (by omega)
  have hblocks : (s.mem.alloc A new.size new.head).1.blocks = new :: s.mem.blocks := by
    show ⟨A.place s.mem new.size, new.size, new.head⟩ :: s.mem.blocks = _
    rw [hplace]
  generalize (s.mem.alloc A new.size new.head).1 = m₁ at hbyte hblocks
  rcases h.object with hempty | hend
  · -- an empty object may lie behind its chunk, but nothing of it is copied
    have hzero : s.h.nextFree - s.h.objectBase = 0 := by omega
    have horder : copyOrder abi mask 0 = [] := by
      unfold copyOrder
      split <;> rfl
    rw [State.growing, hzero, horder]
    exact ⟨m₁, rfl, hblocks, hbyte, rfl⟩
  · have hcnew : new.addr + new.size ≤ c.addr ∨ c.addr + c.size ≤ new.addr := hnew
    have hapart : s.h.objectBase + (s.h.nextFree - s.h.objectBase) ≤ dst ∨
        dst + (s.h.nextFree - s.h.objectBase) ≤ s.h.objectBase := by omega
    have hsrc : m₁.Inside contentsOffset s.h.objectBase (s.h.nextFree - s.h.objectBase) :=
      ⟨c, by rw [hblocks]; exact List.mem_cons_of_mem _ h.mem, hlow, by omega⟩
    have hdst : m₁.Inside contentsOffset dst (s.h.nextFree - s.h.objectBase) :=
      ⟨new, by rw [hblocks]; exact List.mem_cons_self, hstart, by omega⟩
    obtain ⟨m, hcopy, hmblocks, -, hframe, hcovered⟩ := Memory.copyPieces_spec hapart
      (copyOrder abi mask (s.h.nextFree - s.h.objectBase)) hsrc hdst (copyOrder_le abi mask _)
    refine ⟨m, hcopy, hmblocks.trans hblocks, fun q hq => ?_, ?_⟩
    · rw [hframe q fun i hi _ => by omega]
      exact hbyte q hq
    · refine List.ext_getElem (by simp [State.growing]) fun i hi hi' => ?_
      have hin : i < s.h.nextFree - s.h.objectBase := by simpa using hi
      simp only [State.growing, Memory.bytes, List.getElem_map, List.getElem_range', Nat.one_mul]
      rw [hcovered i hin (copyOrder_covered abi mask hin)]
      exact hbyte _ (by unfold contentsOffset at hlow; omega)

/-- The state with the new chunk `new`, behind the copy. -/
def State.moved (s : State) (new : Chunk) (m : Mem) : State :=
  { h := { s.h with
      chunk := new.addr, chunkLimit := new.addr + new.size,
      objectBase := contentsAligned new.addr s.h.alignmentMask,
      nextFree := contentsAligned new.addr s.h.alignmentMask + (s.h.nextFree - s.h.objectBase),
      maybeEmptyObject := false }
    mem := m }

theorem newchunk_eq {m : Mem} {length : Nat}
    (hcopy : (s.mem.alloc A (newBlock A s length).size (newBlock A s length).head).1.copyPieces
      contentsOffset s.h.objectBase
      (contentsAligned (newBlock A s length).addr s.h.alignmentMask)
      (copyOrder abi s.h.alignmentMask (s.h.nextFree - s.h.objectBase)) = some m) :
    newchunk A length s = (dropOldChunk s.h (newBlock A s length).addr m).map
      (s.moved (newBlock A s length)) := by
  unfold newchunk
  refine (congrArg (Option.bind · _) hcopy).trans ?_
  show (dropOldChunk s.h (newBlock A s length).addr m).bind _ = _
  cases dropOldChunk s.h (newBlock A s length).addr m <;> rfl

/-- The invariant behind the new chunk `new`, in front of the chunks `rest`. -/
theorem Inv.moved (h : Inv mask s objs c cs e) (hmask : mask + 1 = 2 ^ k) {new : Chunk}
    {rest : List Chunk} {m : Mem} (hblocks : m.blocks = new :: rest) (hpos : 0 < new.addr)
    (hlimit : new.head.limit = new.addr + new.size) (hchain : Chain new.head.prev rest)
    (hsub : ∀ c' ∈ rest, c' ∈ c :: cs) (hapart : (new :: rest).Pairwise Block.Apart)
    (hpacked : Packed mask (new :: rest) (contentsAligned new.addr mask) objs false)
    (hroom : contentsAligned new.addr mask + (s.h.nextFree - s.h.objectBase) ≤ new.addr + new.size)
    (hkept : ∀ o ∈ objs, m.bytes o.addr o.contents.length = o.contents) :
    Inv mask (s.moved new m) objs new rest false := by
  have hbase : (s.moved new m).h.objectBase = contentsAligned new.addr mask := by
    rw [← h.alignmentMask]
    rfl
  have hnext : (s.moved new m).h.nextFree =
      contentsAligned new.addr mask + (s.h.nextFree - s.h.objectBase) := by
    rw [← h.alignmentMask]
    rfl
  refine ⟨h.alignmentMask, hblocks, ⟨rfl, hpos, hlimit, hchain⟩, ?_, hapart, ?_, nofun, ?_, ?_,
    rfl, .inl ?_, hkept⟩
  · exact List.forall_mem_cons.mpr ⟨Nat.le_trans (Nat.le_add_right _ _) hroom,
      fun c' hc' => h.roomy c' (hsub c' hc')⟩
  · rw [hbase]
    exact hpacked
  · rw [hbase, hnext]
    exact Nat.le_add_right _ _
  · rw [hnext]
    exact hroom
  · rw [hbase]
    exact dvd_ptrAlign hmask

/-- The object that grows is carried over to a new chunk that has room for `length` more bytes. -/
theorem newchunk_spec (hmask : mask + 1 = 2 ^ k) (h : Inv mask s objs c cs e) (length : Nat) :
    ∃ s' c' cs', newchunk A length s = some s' ∧ Inv mask s' objs c' cs' false ∧
      s'.h.nextFree + length ≤ s'.h.chunkLimit ∧ s'.growing = s.growing := by
  obtain ⟨m, hcopy, hmblocks, hframe, hgrown⟩ := copied (A := A) hmask (h.growable hmask) length
  have hroom := newBlock_room (A := A) h.alignmentMask length
  have hfresh := newBlock_apart A s length
  rw [h.blocks] at hmblocks hfresh
  have hkept := h.kept_of_apart hmask hfresh hframe
  have hprev : (newBlock A s length).head.prev = c.addr := h.chain.1
  have hlimit : (newBlock A s length).head.limit =
      (newBlock A s length).addr + (newBlock A s length).size := rfl
  have hpos : 0 < (newBlock A s length).addr := A.pos _ _
  rw [← h.alignmentMask] at hcopy
  rw [newchunk_eq hcopy]
  generalize newBlock A s length = new at *
  have hroomy : Roomy mask new := by
    unfold Roomy
    omega
  have hne : ∀ c' ∈ c :: cs, new.addr ≠ c'.addr := fun c' hc' =>
    addr_ne hmask hroomy (h.roomy c' hc') (hfresh c' hc')
  obtain ⟨hchunk, hcpos, hclimit, hrest⟩ := h.chain
  rw [dropOldChunk_eq hmblocks hchunk (hne c List.mem_cons_self)
    fun c' hc' => (hne c' (List.mem_cons_of_mem c hc')).symm]
  have hcarried : ∀ m' : Mem, m'.byte = m.byte → (s.moved new m').growing = s.growing := by
    intro m' hm'
    rw [← hgrown]
    unfold State.growing State.moved Memory.bytes
    rw [hm', h.alignmentMask, Nat.add_sub_cancel_left]
  have hmore : ∀ m' : Mem,
      (s.moved new m').h.nextFree + length ≤ (s.moved new m').h.chunkLimit := by
    intro m'
    rw [← h.alignmentMask] at hroom
    exact hroom
  split
  · next hdrop =>
    obtain ⟨hempty, hstart⟩ := hdrop
    have he : e = false := Bool.eq_false_iff.mpr fun he => hempty (h.flag he)
    have hpacked := h.packed
    rw [hstart, h.alignmentMask, he] at hpacked
    have hroom' := Nat.le_trans (Nat.le_add_right _ _) hroom
    have hapart : ({ new with head := { new.head with prev := c.head.prev } } :: cs).Pairwise
        Block.Apart := List.pairwise_cons.mpr
      ⟨fun c' hc' => hfresh c' (List.mem_cons_of_mem c hc'), (List.pairwise_cons.mp h.apart).2⟩
    have hinv := @Inv.moved mask k s objs c cs e h hmask
      { new with head := { new.head with prev := c.head.prev } } cs
      { m with blocks := { new with head := { new.head with prev := c.head.prev } } :: cs } rfl hpos
      hlimit hrest (fun c' => List.mem_cons_of_mem c) hapart (hpacked.skip _) hroom' hkept
    exact ⟨_, _, cs, rfl, hinv, hmore _, hcarried _ rfl⟩
  · exact ⟨_, new, c :: cs, rfl, h.moved hmask hmblocks hpos hlimit
      (by rw [hprev]; exact ⟨rfl, hcpos, hclimit, hrest⟩) (fun _ => id)
      (List.pairwise_cons.mpr ⟨hfresh, h.apart⟩) (.chunk new h.packed) (by omega) hkept, hmore m,
      hcarried m rfl⟩

/-! ## Growing -/

theorem reserve_spec (hmask : mask + 1 = 2 ^ k) (h : Inv mask s objs c cs e) (length : Nat) :
    ∃ s' c' cs' e', reserve A length s = some s' ∧ Inv mask s' objs c' cs' e' ∧
      s'.h.nextFree + length ≤ s'.h.chunkLimit ∧ s'.growing = s.growing := by
  unfold reserve
  split
  · obtain ⟨s', c', cs', hcall, hinv, hroom, hgrown⟩ := newchunk_spec (A := A) hmask h length
    exact ⟨s', c', cs', false, hcall, hinv, hroom, hgrown⟩
  · next hroom => exact ⟨s, c, cs, e, rfl, h, Nat.le_of_not_lt hroom, rfl⟩

/-- The bytes from `next_free` on belong to no finished object. -/
theorem Inv.append_kept (h : Inv mask s objs c cs e) (hmask : mask + 1 = 2 ^ k) {bs : List UInt8}
    (hroom : s.h.nextFree + bs.length ≤ s.h.chunkLimit) :
    ∀ o ∈ objs, (s.mem.write s.h.nextFree bs).bytes o.addr o.contents.length = o.contents := by
  intro o ho
  have hbase := h.base
  have hlimit := h.limit
  have htop := h.packed.le_top
  have hstart : c.addr + 16 ≤ contentsAligned c.addr mask := contents_le hmask
  rw [Memory.bytes_write_apart ?_, h.kept o ho]
  rcases h.packed.mem (List.forall_mem_cons.mp h.roomy).2 ho with ⟨-, hle⟩ | ⟨c', hc', h1, h2⟩
  · exact .inl (by omega)
  · have hstart' : c'.addr + 16 ≤ contentsAligned c'.addr mask := contents_le hmask
    rcases (List.pairwise_cons.mp h.apart).1 c' hc' with hapart | hapart <;> omega

theorem append_spec (hmask : mask + 1 = 2 ^ k) (h : Inv mask s objs c cs e) (bs : List UInt8)
    (hroom : s.h.nextFree + bs.length ≤ s.h.chunkLimit) :
    ∃ s', append bs s = some s' ∧ Inv mask s' objs c cs e ∧ s'.growing = s.growing ++ bs ∧
      s'.h.nextFree = s.h.nextFree + bs.length ∧ s'.h.chunkLimit = s.h.chunkLimit := by
  have hbase := h.base
  have hlimit := h.limit
  have htop := h.packed.le_top
  have hstart : c.addr + 16 ≤ contentsAligned c.addr mask := contents_le hmask
  have hin : s.mem.Inside contentsOffset s.h.nextFree bs.length :=
    ⟨c, by simp [h.blocks], by unfold contentsOffset; omega, by omega⟩
  unfold append
  rw [Memory.stores_eq hin]
  refine ⟨_, rfl, ⟨h.alignmentMask, (Memory.blocks_write).trans h.blocks, h.chain, h.roomy, h.apart,
    h.packed, h.flag, Nat.le_add_right_of_le hbase, hroom, hlimit, h.aligned,
    h.append_kept hmask hroom⟩, ?_, rfl, rfl⟩
  unfold State.growing
  dsimp only
  have hsize : s.h.nextFree + bs.length - s.h.objectBase =
      s.h.nextFree - s.h.objectBase + bs.length := by omega
  have hend : s.h.objectBase + (s.h.nextFree - s.h.objectBase) = s.h.nextFree := by omega
  rw [hsize, Memory.bytes_append, hend, Memory.bytes_write_self,
    Memory.bytes_write_apart (.inl (by omega))]

theorem grow_spec (hmask : mask + 1 = 2 ^ k) (h : Inv mask s objs c cs e) (bs : List UInt8) :
    ∃ s' c' cs' e', grow A bs s = some s' ∧ Inv mask s' objs c' cs' e' ∧
      s'.growing = s.growing ++ bs := by
  obtain ⟨s₁, c₁, cs₁, e₁, hreserve, hinv₁, hroom, hgrown⟩ :=
    reserve_spec (A := A) hmask h bs.length
  obtain ⟨s₂, happend, hinv₂, hbs, -⟩ := append_spec hmask hinv₁ bs hroom
  refine ⟨s₂, c₁, cs₁, e₁, ?_, hinv₂, by rw [hbs, hgrown]⟩
  rw [grow, hreserve, Option.bind_some, happend]

theorem grow0_spec (hmask : mask + 1 = 2 ^ k) (h : Inv mask s objs c cs e) (bs : List UInt8) :
    ∃ s' c' cs' e', grow0 A bs s = some s' ∧ Inv mask s' objs c' cs' e' ∧
      s'.growing = s.growing ++ (bs ++ [0]) := by
  obtain ⟨s₁, c₁, cs₁, e₁, hreserve, hinv₁, hroom, hgrown⟩ :=
    reserve_spec (A := A) hmask h (bs.length + 1)
  obtain ⟨s₂, happend, hinv₂, hbs, hnext, hlimit⟩ := append_spec hmask hinv₁ bs (by omega)
  obtain ⟨s₃, hzero, hinv₃, hbs₃, -⟩ := append_spec hmask hinv₂ [0] (by
    rw [hnext, hlimit]
    exact hroom)
  refine ⟨s₃, c₁, cs₁, e₁, ?_, hinv₃, by rw [hbs₃, hbs, hgrown, List.append_assoc]⟩
  rw [grow0, hreserve, Option.bind_eq_bind, Option.bind_some, happend,
    Option.bind_some, hzero]

theorem onegrow_spec (hmask : mask + 1 = 2 ^ k) (h : Inv mask s objs c cs e) (b : UInt8) :
    ∃ s' c' cs' e', onegrow A b s = some s' ∧ Inv mask s' objs c' cs' e' ∧
      s'.growing = s.growing ++ [b] := grow_spec hmask h [b]

/-- The blank part of the object is what the memory holds there. -/
theorem blank_spec (hmask : mask + 1 = 2 ^ k) (h : Inv mask s objs c cs e) (length : Nat) :
    ∃ s' c' cs' e' bs, blank A length s = some s' ∧ Inv mask s' objs c' cs' e' ∧
      s'.growing = s.growing ++ bs ∧ bs.length = length := by
  obtain ⟨s₁, c₁, cs₁, e₁, hreserve, hinv₁, hroom, hgrown⟩ := reserve_spec (A := A) hmask h length
  have hbase := hinv₁.base
  refine ⟨{ s₁ with h := { s₁.h with nextFree := s₁.h.nextFree + length } }, c₁, cs₁, e₁,
    s₁.mem.bytes s₁.h.nextFree length, ?_, ⟨hinv₁.alignmentMask,
    hinv₁.blocks, hinv₁.chain, hinv₁.roomy, hinv₁.apart, hinv₁.packed, hinv₁.flag,
    Nat.le_add_right_of_le hbase, hroom, hinv₁.limit, hinv₁.aligned, hinv₁.kept⟩, ?_,
    Memory.length_bytes⟩
  · rw [blank, hreserve]
    rfl
  · rw [← hgrown]
    unfold State.growing
    dsimp only
    have hsize : s₁.h.nextFree + length - s₁.h.objectBase =
        s₁.h.nextFree - s₁.h.objectBase + length := by omega
    have hend : s₁.h.objectBase + (s₁.h.nextFree - s₁.h.objectBase) = s₁.h.nextFree := by omega
    rw [hsize, Memory.bytes_append, hend]

end Librecompat.Obstack
