/-
  A byte memory with live blocks at numeric addresses.

  Unlike on a heap of separate blocks, addresses can be compared, rounded and computed with here. A
  block has a head of a type of its own in its first `hdr` bytes; the rest are bytes. Reading or
  writing outside of the bytes of a live block gives `none`.

  An `Allocator` places each block where no live one is, and says which bytes it finds there.
  `loads_eq`, `stores_eq` and `copyPieces_spec` are the rules for ranges that are `Inside` a block,
  `loads_of_any` and `stores_of_any` those for ranges that may cross from one block into the next.
-/
import Mathlib.Algebra.GroupWithZero.Nat
import Mathlib.Data.List.Basic

namespace Librecompat.Lib

structure Block (β : Type) where
  addr : Nat
  size : Nat
  head : β

/-- `calls` is the number of allocations made so far. -/
structure Memory (β : Type) where
  blocks : List (Block β)
  byte : Nat → UInt8
  calls : Nat

variable {β : Type}

/-- The two blocks share no address. -/
def Block.Apart (b b' : Block β) : Prop := b.addr + b.size ≤ b'.addr ∨ b'.addr + b'.size ≤ b.addr

namespace Memory

/-- Where an allocation of `size` bytes is placed, on a multiple of `alignment`. `junk n p` is what
    the `n`-th allocation finds at `p`. -/
structure Allocator (β : Type) (alignment : Nat) where
  place : Memory β → Nat → Nat
  junk : Nat → Nat → UInt8
  pos : ∀ m size, 0 < place m size
  aligned : ∀ m size, alignment ∣ place m size
  fresh : ∀ m size, ∀ b ∈ m.blocks, place m size + size ≤ b.addr ∨ b.addr + b.size ≤ place m size

/-- An address behind all the blocks. -/
def behind : List (Block β) → Nat
  | [] => 0
  | b :: bs => max (b.addr + b.size) (behind bs)

theorem le_behind {b : Block β} : ∀ {bs : List (Block β)}, b ∈ bs → b.addr + b.size ≤ behind bs
  | b' :: bs, hb => by
    rcases List.mem_cons.mp hb with rfl | hb
    · exact Nat.le_max_left _ _
    · exact Nat.le_trans (le_behind hb) (Nat.le_max_right _ _)

/-- The allocator that places every block on the next multiple of `step` above all live ones. -/
def Allocator.bump (β : Type) {alignment : Nat} (step : Nat) (hpos : 0 < step)
    (h : alignment ∣ step) : Allocator β alignment where
  place m _ := step * (1 + behind m.blocks)
  junk _ _ := 0xAA
  pos _ _ := Nat.mul_pos hpos (by omega)
  aligned _ _ := Nat.dvd_mul_right_of_dvd h _
  fresh m _ b hb := by
    have hmul := Nat.mul_le_mul hpos (Nat.le_trans (le_behind hb) (Nat.le_add_left _ 1))
    rw [Nat.succ_eq_add_one, Nat.zero_add, Nat.one_mul] at hmul
    exact .inr hmul

/-- A new block, in front of the others, and where it is. -/
def alloc {alignment : Nat} (A : Allocator β alignment) (m : Memory β) (size : Nat) (head : β) :
    Memory β × Nat :=
  ({ blocks := ⟨A.place m size, size, head⟩ :: m.blocks
     byte := fun p =>
       if A.place m size ≤ p ∧ p < A.place m size + size then A.junk m.calls p else m.byte p
     calls := m.calls + 1 }, A.place m size)

/-- The head of the live block at `p`. -/
def head (m : Memory β) (p : Nat) : Option β := (m.blocks.find? (·.addr = p)).map (·.head)

/-- Set the head of the live block at `p`. -/
def setHead (m : Memory β) (p : Nat) (h : β) : Option (Memory β) :=
  if m.blocks.any (·.addr = p) then
    some { m with blocks := m.blocks.map fun b => if b.addr = p then { b with head := h } else b }
  else none

/-- `free (p)` -/
def free (m : Memory β) (p : Nat) : Option (Memory β) :=
  if m.blocks.any (·.addr = p) then some { m with blocks := m.blocks.eraseP (·.addr = p) }
  else none

variable (hdr : Nat)

/-- There is a byte of the block at `p`. -/
def hasByte (b : Block β) (p : Nat) : Bool := b.addr + hdr ≤ p ∧ p < b.addr + b.size

def load (m : Memory β) (p : Nat) : Option UInt8 :=
  if m.blocks.any (hasByte hdr · p) then some (m.byte p) else none

/-- The memory in which `p` holds `c`. -/
def put (m : Memory β) (p : Nat) (c : UInt8) : Memory β :=
  { m with byte := fun q => if q = p then c else m.byte q }

def store (m : Memory β) (p : Nat) (c : UInt8) : Option (Memory β) :=
  if m.blocks.any (hasByte hdr · p) then some (m.put p c) else none

/-- The `n` bytes from `p` on, one after the other. -/
def loads (m : Memory β) (p : Nat) : Nat → Option (List UInt8)
  | 0 => some []
  | n + 1 => do
    let c ← m.load hdr p
    let bs ← loads m (p + 1) n
    some (c :: bs)

/-- `memcpy (p, bs, length)` -/
def stores (m : Memory β) (p : Nat) : List UInt8 → Option (Memory β)
  | [] => some m
  | c :: bs => do
    let m ← m.store hdr p c
    stores m (p + 1) bs

/-- Copy pieces of the range at `src` to the same places of the range at `dst`: for each one where
    it starts and how long it is. -/
def copyPieces (src dst : Nat) (m : Memory β) : List (Nat × Nat) → Option (Memory β)
  | [] => some m
  | (i, n) :: pieces => do
    let bs ← m.loads hdr (src + i) n
    let m ← m.stores hdr (dst + i) bs
    copyPieces src dst m pieces

/-! ## Ranges -/

/-- The `n` bytes from `p` on, whether they may be read or not. -/
def bytes (m : Memory β) (p n : Nat) : List UInt8 := (List.range' p n).map m.byte

/-- The `n` bytes from `p` on are bytes of one live block. -/
def Inside (m : Memory β) (p n : Nat) : Prop :=
  ∃ b ∈ m.blocks, b.addr + hdr ≤ p ∧ p + n ≤ b.addr + b.size

/-- The memory behind `memcpy (p, bs, length)`. -/
def write (m : Memory β) (p : Nat) : List UInt8 → Memory β
  | [] => m
  | c :: bs => write (m.put p c) (p + 1) bs

variable {hdr} {m : Memory β} {p q n k : Nat} {c : UInt8} {bs : List UInt8}

@[simp] theorem bytes_zero : m.bytes p 0 = [] := rfl

theorem bytes_succ : m.bytes p (n + 1) = m.byte p :: m.bytes (p + 1) n := rfl

@[simp] theorem length_bytes : (m.bytes p n).length = n := by
  simp [bytes]

theorem bytes_congr {m' : Memory β} (h : ∀ q, p ≤ q → q < p + n → m'.byte q = m.byte q) :
    m'.bytes p n = m.bytes p n := by
  refine List.map_congr_left fun q hq => ?_
  have hbounds := List.mem_range'_1.mp hq
  exact h q hbounds.1 hbounds.2

theorem bytes_append : m.bytes p (n + k) = m.bytes p n ++ m.bytes (p + n) k := by
  unfold bytes
  rw [← List.map_append, List.range'_append_1]

theorem write_frame : ∀ (bs : List UInt8) (m : Memory β) (p : Nat),
    (m.write p bs).blocks = m.blocks ∧ (m.write p bs).calls = m.calls ∧
      ∀ q, q < p ∨ p + bs.length ≤ q → (m.write p bs).byte q = m.byte q
  | [], _, _ => ⟨rfl, rfl, fun _ _ => rfl⟩
  | c :: bs, m, p => by
    obtain ⟨hblocks, hcalls, hbyte⟩ := write_frame bs (m.put p c) (p + 1)
    refine ⟨hblocks, hcalls, fun q hq => ?_⟩
    rw [List.length_cons] at hq
    rw [write, hbyte q (by omega)]
    exact if_neg (by omega)

@[simp] theorem blocks_write : (m.write p bs).blocks = m.blocks := (write_frame bs m p).1

@[simp] theorem calls_write : (m.write p bs).calls = m.calls := (write_frame bs m p).2.1

theorem byte_write_apart (h : q < p ∨ p + bs.length ≤ q) : (m.write p bs).byte q = m.byte q :=
  (write_frame bs m p).2.2 q h

theorem bytes_write_self : ∀ {bs : List UInt8} {m : Memory β} {p : Nat},
    (m.write p bs).bytes p bs.length = bs
  | [], _, _ => rfl
  | c :: bs, m, p => by
    have hhead : ((m.put p c).write (p + 1) bs).byte p = c :=
      (byte_write_apart (.inl (Nat.lt_succ_self p))).trans (if_pos rfl)
    rw [List.length_cons, bytes_succ, write, bytes_write_self, hhead]

theorem bytes_write_apart (h : q + n ≤ p ∨ p + bs.length ≤ q) :
    (m.write p bs).bytes q n = m.bytes q n :=
  bytes_congr fun x hx hxn => byte_write_apart (by omega)

theorem Inside.any (h : m.Inside hdr p n) (hp : p ≤ q) (hq : q < p + n) :
    m.blocks.any (hasByte hdr · q) = true := by
  obtain ⟨b, hb, h1, h2⟩ := h
  exact List.any_eq_true.mpr ⟨b, hb, decide_eq_true ⟨by omega, by omega⟩⟩

theorem Inside.mono (h : m.Inside hdr p n) (hp : p ≤ q) (hq : q + k ≤ p + n) :
    m.Inside hdr q k := by
  obtain ⟨b, hb, h1, h2⟩ := h
  exact ⟨b, hb, by omega, by omega⟩

theorem loads_of_any : ∀ {n p : Nat},
    (∀ q, p ≤ q → q < p + n → m.blocks.any (hasByte hdr · q) = true) →
    m.loads hdr p n = some (m.bytes p n)
  | 0, _, _ => rfl
  | n + 1, p, h => by
    unfold loads load
    rw [if_pos (h p (Nat.le_refl p) (by omega)), Option.bind_eq_bind, Option.bind_some,
      loads_of_any fun q hp hq => h q (by omega) (by omega)]
    rfl

theorem stores_of_any : ∀ {bs : List UInt8} {m : Memory β} {p : Nat},
    (∀ q, p ≤ q → q < p + bs.length → m.blocks.any (hasByte hdr · q) = true) →
    m.stores hdr p bs = some (m.write p bs)
  | [], _, _, _ => rfl
  | c :: bs, m, p, h => by
    rw [List.length_cons] at h
    have hrest : ∀ q, p + 1 ≤ q → q < p + 1 + bs.length →
        (m.put p c).blocks.any (hasByte hdr · q) = true := fun q hp hq => h q (by omega) (by omega)
    unfold stores store
    rw [if_pos (h p (Nat.le_refl p) (by omega)), Option.bind_eq_bind, Option.bind_some,
      stores_of_any hrest, write]

theorem loads_eq (h : m.Inside hdr p n) : m.loads hdr p n = some (m.bytes p n) :=
  loads_of_any fun _ hp hq => h.any hp hq

theorem stores_eq (h : m.Inside hdr p bs.length) : m.stores hdr p bs = some (m.write p bs) :=
  stores_of_any fun _ hp hq => h.any hp hq

/-! ## Copying -/

/-- Some piece covers the place `i`. -/
def Covered (pieces : List (Nat × Nat)) (i : Nat) : Prop :=
  ∃ piece ∈ pieces, piece.1 ≤ i ∧ i < piece.1 + piece.2

theorem byte_write_bytes {dst : Nat} (h : q < n) :
    (m.write dst (m.bytes p n)).byte (dst + q) = m.byte (p + q) := by
  have hself := @bytes_write_self β (m.bytes p n) m dst
  have hat := congrArg (·[q]?) hself
  simp only [length_bytes] at hat
  simpa [bytes, h] using hat

/-- The covered places of the range at `dst` become what they are in the range at `src`, when the
    two do not overlap, and nothing else changes. -/
theorem copyPieces_spec {src dst : Nat} (hapart : src + n ≤ dst ∨ dst + n ≤ src) :
    ∀ (pieces : List (Nat × Nat)) {m : Memory β}, m.Inside hdr src n → m.Inside hdr dst n →
      (∀ piece ∈ pieces, piece.1 + piece.2 ≤ n) →
      ∃ m', copyPieces hdr src dst m pieces = some m' ∧ m'.blocks = m.blocks ∧
        m'.calls = m.calls ∧
        (∀ q, (∀ i < n, Covered pieces i → q ≠ dst + i) → m'.byte q = m.byte q) ∧
        ∀ i < n, Covered pieces i → m'.byte (dst + i) = m.byte (src + i)
  | [], m, _, _, _ => ⟨m, rfl, rfl, rfl, fun _ _ => rfl, fun _ _ ⟨_, hp, _⟩ => nomatch hp⟩
  | (j, k) :: pieces, m, hsrc, hdst, hin => by
    have hjk : j + k ≤ n := hin (j, k) List.mem_cons_self
    have hload : m.loads hdr (src + j) k = some (m.bytes (src + j) k) :=
      loads_eq (hsrc.mono (Nat.le_add_right src j) (by omega))
    have hstore : m.stores hdr (dst + j) (m.bytes (src + j) k) =
        some (m.write (dst + j) (m.bytes (src + j) k)) :=
      stores_eq (hdst.mono (Nat.le_add_right dst j) (by rw [length_bytes]; omega))
    obtain ⟨m', hcopy, hblocks, hcalls, hframe, hcovered⟩ := copyPieces_spec hapart pieces
      (m := m.write (dst + j) (m.bytes (src + j) k)) (by simpa [Inside] using hsrc)
      (by simpa [Inside] using hdst) fun piece hp => hin piece (List.mem_cons_of_mem _ hp)
    have hapart' : ∀ q, q < dst + j ∨ dst + j + k ≤ q →
        (m.write (dst + j) (m.bytes (src + j) k)).byte q = m.byte q :=
      fun q hq => byte_write_apart (by rwa [length_bytes])
    refine ⟨m', ?_, hblocks.trans blocks_write, hcalls.trans calls_write, fun q hq => ?_,
      fun i hi hcov => ?_⟩
    · rw [copyPieces, hload, Option.bind_eq_bind, Option.bind_some, hstore, Option.bind_eq_bind,
        Option.bind_some, hcopy]
    · have hrest : m'.byte q = _ := hframe q fun i hi ⟨piece, hp, hcov⟩ =>
        hq i hi ⟨piece, List.mem_cons_of_mem _ hp, hcov⟩
      rw [hrest]
      apply hapart'
      by_contra hno
      have hlt : q - dst < n := by omega
      refine hq (q - dst) hlt ⟨(j, k), List.mem_cons_self, ?_, ?_⟩ ?_
      · show j ≤ q - dst
        omega
      · show q - dst < j + k
        omega
      · omega
    · by_cases hrest : Covered pieces i
      · rw [hcovered i hi hrest]
        exact hapart' _ (by omega)
      · -- the place is written by this piece only
        obtain ⟨piece, hp, hlo, hhi⟩ := hcov
        rcases List.mem_cons.mp hp with rfl | hp
        · have hlast := hframe (dst + i) fun i' _ hcov heq =>
            hrest (Nat.add_left_cancel heq ▸ hcov)
          have hsplit : dst + i = dst + j + (i - j) := by
            dsimp only at hlo
            omega
          have hsplit' : src + i = src + j + (i - j) := by
            dsimp only at hlo
            omega
          rw [hlast, hsplit, hsplit']
          dsimp only at hhi
          exact byte_write_bytes (by omega)
        · exact absurd ⟨piece, hp, hlo, hhi⟩ hrest

end Memory

end Librecompat.Lib
