/-
  C strings in a byte memory, and an allocator that may fail.

  The blocks have no heads here: every byte of a live block may be read and written, and a range
  may cross from one block into the next (`loads_live`, `stores_live`). `StrAt m p s` says that the
  string `s` and its NUL lie at `p`.

  `Gives m m' q n` says that `m'` is `m` with a new block of `n` bytes at `q`, whatever the block
  holds. `Keeps D m m'` says that every block of `m` is still there and that only bytes in `D` have
  changed; a string outside of `D` is then what it was (`StrAt.keep`). Strings that are copied are
  copied to bytes that were not `Alive` before (`strdup_spec`, `strdupEach_spec`).
-/
import Librecompat.Lib.Memory
import Mathlib.Data.List.Forall2

namespace Librecompat.Lib.Memory

variable {alignment : Nat}

/-- A byte of a live block. -/
def Alive (m : Memory Unit) (q : Nat) : Prop := ∃ b ∈ m.blocks, b.addr ≤ q ∧ q < b.addr + b.size

/-- The `n` bytes from `p` on may be read and written. -/
def Live (m : Memory Unit) (p n : Nat) : Prop := ∀ q, p ≤ q → q < p + n → m.Alive q

/-- The `n` bytes from `p` on belong to no live block. -/
def Unborn (m : Memory Unit) (p n : Nat) : Prop := ∀ q, p ≤ q → q < p + n → ¬ m.Alive q

/-- The string `s` and its NUL are at `p`. -/
structure StrAt (m : Memory Unit) (p : Nat) (s : List UInt8) : Prop where
  noNul : 0 ∉ s
  live : m.Live p (s.length + 1)
  bytes : m.bytes p (s.length + 1) = s ++ [0]

/-! ## The functions -/

/-- `malloc`; call number `n` fails when `fails n`. -/
def malloc (A : Allocator Unit alignment) (fails : Nat → Bool) (m : Memory Unit) (size : Nat) :
    Memory Unit × Nat :=
  if fails m.calls then ({ m with calls := m.calls + 1 }, 0) else m.alloc A size ()

/-- `strlen (p)`, looking at `k` bytes at most. -/
def strlenWithin (m : Memory Unit) : Nat → Nat → Option Nat
  | 0, _ => none
  | k + 1, p => do
    let c ← m.load 0 p
    if c = 0 then some 0 else (strlenWithin m k (p + 1)).map (· + 1)

/-- `strlen (p)`; no string goes beyond the last block. -/
def strlen (m : Memory Unit) (p : Nat) : Option Nat := strlenWithin m (behind m.blocks) p

/-- The string at `p`. -/
def readStr (m : Memory Unit) (p : Nat) : Option (List UInt8) := do m.loads 0 p (← m.strlen p)

variable (A : Allocator Unit alignment) (fails : Nat → Bool)

/-- A new block that holds a string; `0` when there is no memory for it. -/
def newStr (m : Memory Unit) (s : List UInt8) : Option (Memory Unit × Nat) := do
  let (m, q) := m.malloc A fails (s.length + 1)
  if q = 0 then some (m, 0)
  else do
    let m ← m.stores 0 q (s ++ [0])
    some (m, q)

/-- `strdup (p)` -/
def strdup (m : Memory Unit) (p : Nat) : Option (Memory Unit × Nat) := do
  m.newStr A fails (← m.readStr p)

/-- `strdup` of one string after the other until one fails: the copies. -/
def strdupEach (m : Memory Unit) : List Nat → Option (Memory Unit × List Nat)
  | [] => some (m, [])
  | p :: ps => do
    let (m, q) ← m.strdup A fails p
    if q = 0 then some (m, [])
    else do
      let (m, qs) ← strdupEach m ps
      some (m, q :: qs)

/-- `free` of one block after the other. -/
def freeEach (m : Memory Unit) : List Nat → Option (Memory Unit)
  | [] => some m
  | p :: ps => do
    let m ← m.free p
    freeEach m ps

/-- `strlcpy (p, s, size)`: as much of `s` as fits into `size` bytes with its NUL. -/
def strlcpy (m : Memory Unit) (p : Nat) (s : List UInt8) (size : Nat) : Option (Memory Unit) :=
  if size = 0 then some m else m.stores 0 p (s.take (size - 1) ++ [0])

/-! ## Live bytes -/

variable {A fails} {m m' m'' : Memory Unit} {p q n k : Nat} {s : List UInt8}

theorem any_hasByte : m.blocks.any (hasByte 0 · q) = true ↔ m.Alive q := by
  simp [hasByte, Alive]

theorem Live.mono (h : m.Live p n) (hp : p ≤ q) (hq : q + k ≤ p + n) : m.Live q k :=
  fun x hx hxk => h x (by omega) (by omega)

theorem load_alive (h : m.Alive p) : m.load 0 p = some (m.byte p) := if_pos (any_hasByte.mpr h)

theorem store_alive (h : m.Alive p) (c : UInt8) : m.store 0 p c = some (m.put p c) :=
  if_pos (any_hasByte.mpr h)

theorem loads_live (h : m.Live p n) : m.loads 0 p n = some (m.bytes p n) :=
  loads_of_any fun q hp hq => any_hasByte.mpr (h q hp hq)

theorem stores_live {bs : List UInt8} (h : m.Live p bs.length) :
    m.stores 0 p bs = some (m.write p bs) :=
  stores_of_any fun q hp hq => any_hasByte.mpr (h q hp hq)

/-! ## Strings -/

theorem strlenWithin_live : ∀ {s : List UInt8} {k p : Nat}, m.Live p (s.length + 1) →
    m.bytes p (s.length + 1) = s ++ [0] → 0 ∉ s → s.length < k →
    m.strlenWithin k p = some s.length
  | [], k + 1, p, hl, hb, _, _ => by
    have hc : m.byte p = 0 := List.head_eq_of_cons_eq hb
    rw [strlenWithin, load_alive (hl p (Nat.le_refl p) (Nat.lt_succ_self p)), Option.bind_eq_bind,
      Option.bind_some, if_pos hc]
    rfl
  | c :: s, k + 1, p, hl, hb, h0, hk => by
    obtain ⟨hc, hrest⟩ := List.cons.inj hb
    rw [List.mem_cons, not_or] at h0
    rw [List.length_cons] at hl hk ⊢
    have hne : m.byte p ≠ 0 := hc ▸ Ne.symm h0.1
    rw [strlenWithin, load_alive (hl p (Nat.le_refl p) (by omega)), Option.bind_eq_bind,
      Option.bind_some, if_neg hne,
      strlenWithin_live (hl.mono (Nat.le_succ p) (by omega)) hrest h0.2 (by omega)]
    rfl

theorem Alive.lt_behind (h : m.Alive q) : q < behind m.blocks := by
  obtain ⟨b, hb, _, hlt⟩ := h
  exact Nat.lt_of_lt_of_le hlt (le_behind hb)

theorem StrAt.strlen (h : m.StrAt p s) : m.strlen p = some s.length := by
  have hlast := (h.live (p + s.length) (by omega) (by omega)).lt_behind
  exact strlenWithin_live h.live h.bytes h.noNul (by omega)

/-- The byte at `p` is the NUL of an empty string. -/
theorem StrAt.byte_eq_zero_iff (h : m.StrAt p s) : m.byte p = 0 ↔ s = [] := by
  have hbytes := h.bytes
  cases s with
  | nil => exact iff_of_true (List.cons.inj hbytes).1 rfl
  | cons c s =>
    rw [List.length_cons, bytes_succ, List.cons_append] at hbytes
    rw [(List.cons.inj hbytes).1]
    exact iff_of_false (fun hc => h.noNul (hc ▸ List.mem_cons_self)) (List.cons_ne_nil c s)

theorem StrAt.bytes_self (h : m.StrAt p s) : m.bytes p s.length = s := by
  have hb := h.bytes
  rw [bytes_append] at hb
  exact (List.append_inj hb length_bytes).1

theorem StrAt.loads (h : m.StrAt p s) : m.loads 0 p s.length = some s := by
  rw [loads_live (h.live.mono (Nat.le_refl p) (by omega)), h.bytes_self]

theorem StrAt.readStr (h : m.StrAt p s) : m.readStr p = some s := by
  rw [Memory.readStr, h.strlen, Option.bind_eq_bind, Option.bind_some, h.loads]

theorem Live.write {bs : List UInt8} (h : m.Live p n) : (m.write q bs).Live p n :=
  fun x hx hxn => by simpa [Alive] using h x hx hxn

/-- A string is what bytes hold up to the first NUL. -/
theorem StrAt.of_bytes {t : List UInt8} (h0 : 0 ∉ s) (hl : m.Live p n)
    (hb : m.bytes p n = s ++ 0 :: t) : m.StrAt p s := by
  have hlen := congrArg List.length hb
  rw [length_bytes, List.length_append, List.length_cons] at hlen
  refine ⟨h0, hl.mono (Nat.le_refl p) (by omega), ?_⟩
  have hn : n = (s.length + 1) + t.length := by omega
  rw [hn, bytes_append, ← List.singleton_append, ← List.append_assoc] at hb
  exact (List.append_inj hb (by simp)).1

theorem StrAt.of_write (h0 : 0 ∉ s) (hl : m.Live p (s.length + 1)) :
    (m.write p (s ++ [0])).StrAt p s := by
  have hself := @bytes_write_self _ (s ++ [0]) m p
  rw [List.length_append, List.length_singleton] at hself
  exact StrAt.of_bytes h0 hl.write hself

theorem write_append : ∀ {a b : List UInt8} {m : Memory Unit} {p : Nat},
    m.write p (a ++ b) = (m.write p a).write (p + a.length) b
  | [], _, _, _ => rfl
  | c :: a, b, m, p => by
    rw [List.cons_append, write, write_append, write, List.length_cons, Nat.add_right_comm,
      Nat.add_assoc]

/-- What is written behind bytes leaves them. -/
theorem bytes_write_behind {a b : List UInt8} (ha : m.bytes p a.length = a) :
    (m.write (p + a.length) b).bytes p (a.length + b.length) = a ++ b := by
  rw [bytes_append, bytes_write_apart (.inl (Nat.le_refl _)), bytes_write_self, ha]

theorem bytes_write_prefix {a b : List UInt8} :
    (m.write p (a ++ b)).bytes p a.length = a := by
  rw [write_append, bytes_write_apart (.inl (Nat.le_refl _)), bytes_write_self]

theorem strlcpy_live (hl : m.Live p n) (hn : 0 < n) :
    m.strlcpy p s n = some (m.write p (s.take (n - 1) ++ [0])) := by
  rw [strlcpy, if_neg (Nat.pos_iff_ne_zero.mp hn), stores_live]
  refine hl.mono (Nat.le_refl p) ?_
  rw [List.length_append, List.length_take, List.length_singleton]
  omega

/-! ## What stays -/

/-- Every block is still there, and only bytes in `D` have changed. -/
structure Keeps (D : Nat → Prop) (m m' : Memory Unit) : Prop where
  blocks : m.blocks <:+ m'.blocks
  byte : ∀ q, m.Alive q → ¬ D q → m'.byte q = m.byte q

/-- No byte. -/
def Nowhere : Nat → Prop := fun _ => False

variable {D D' : Nat → Prop}

theorem Keeps.refl (D : Nat → Prop) (m : Memory Unit) : Keeps D m m :=
  ⟨List.suffix_refl _, fun _ _ _ => rfl⟩

theorem Keeps.alive (h : Keeps D m m') (hq : m.Alive q) : m'.Alive q := by
  obtain ⟨b, hb, hbq⟩ := hq
  exact ⟨b, h.blocks.subset hb, hbq⟩

theorem Keeps.live (h : Keeps D m m') (hl : m.Live p n) : m'.Live p n :=
  fun q hp hq => h.alive (hl q hp hq)

theorem Keeps.unborn (h : Keeps D m m') (hu : m'.Unborn p n) : m.Unborn p n :=
  fun q hp hq ha => hu q hp hq (h.alive ha)

/-- Writes to bytes that were not alive at first do not count. -/
theorem Keeps.trans (h : Keeps D m m') (h' : Keeps D' m' m'')
    (hD : ∀ q, m.Alive q → D' q → D q) : Keeps D m m'' := by
  refine ⟨h.blocks.trans h'.blocks, fun q hq hno => ?_⟩
  rw [h'.byte q (h.alive hq) fun hq' => hno (hD q hq hq'), h.byte q hq hno]

theorem Keeps.mono (h : Keeps D m m') (hD : ∀ q, m.Alive q → D q → D' q) : Keeps D' m m' :=
  ⟨h.blocks, fun q hq hno => h.byte q hq fun hq' => hno (hD q hq hq')⟩

theorem Keeps.then (h : Keeps Nowhere m m') (h' : Keeps Nowhere m' m'') : Keeps Nowhere m m'' :=
  h.trans h' fun _ _ => id

theorem StrAt.keep (h : m.StrAt p s) (hk : Keeps D m m')
    (hD : ∀ q, p ≤ q → q < p + (s.length + 1) → ¬ D q) : m'.StrAt p s := by
  refine ⟨h.noNul, hk.live h.live, ?_⟩
  rw [bytes_congr fun q hp hq => hk.byte q (h.live q hp hq) (hD q hp hq), h.bytes]

theorem StrAt.keep_nowhere (h : m.StrAt p s) (hk : Keeps Nowhere m m') : m'.StrAt p s :=
  h.keep hk fun _ _ _ => id

theorem write_keeps {bs : List UInt8} (hD : ∀ q, p ≤ q → q < p + bs.length → D q) :
    Keeps D m (m.write p bs) := by
  refine ⟨blocks_write (m := m) ▸ List.suffix_refl _, fun q _ hno => byte_write_apart ?_⟩
  by_contra hin
  exact hno (hD q (by omega) (by omega))

/-! ## New blocks -/

/-- `m'` is `m` with a new block of `n` bytes at `q`. -/
structure Gives (m m' : Memory Unit) (q n : Nat) : Prop where
  ne_null : q ≠ 0
  blocks : m'.blocks = ⟨q, n, ()⟩ :: m.blocks
  unborn : m.Unborn q n
  byte : ∀ x, m.Alive x → m'.byte x = m.byte x

theorem Gives.keeps (h : Gives m m' q n) : Keeps Nowhere m m' :=
  ⟨h.blocks ▸ List.suffix_cons _ _, fun x hx _ => h.byte x hx⟩

theorem Gives.live (h : Gives m m' q n) : m'.Live q n := by
  intro x hx hxn
  exact ⟨⟨q, n, ()⟩, by rw [h.blocks]; exact List.mem_cons_self, hx, hxn⟩

theorem Gives.write (h : Gives m m' q n) (bs : List UInt8) (hp : q ≤ p)
    (hn : p + bs.length ≤ q + n) : Gives m (m'.write p bs) q n := by
  refine ⟨h.ne_null, by rw [blocks_write, h.blocks], h.unborn, fun x hx => ?_⟩
  rw [byte_write_apart, h.byte x hx]
  by_contra hin
  exact h.unborn x (by omega) (by omega) hx

theorem malloc_cases (A : Allocator Unit alignment) (fails : Nat → Bool) (m : Memory Unit)
    (n : Nat) : (∃ m', m.malloc A fails n = (m', 0) ∧ m'.blocks = m.blocks ∧ m'.byte = m.byte) ∨
      ∃ m' q, m.malloc A fails n = (m', q) ∧ Gives m m' q n := by
  unfold malloc
  split
  · exact .inl ⟨_, rfl, rfl, rfl⟩
  · refine .inr ⟨_, _, rfl, Nat.pos_iff_ne_zero.mp (A.pos m n), rfl,
      fun x hx hxn ⟨b, hb, hlo, hhi⟩ => ?_, fun x ⟨b, hb, hlo, hhi⟩ => if_neg fun hx => ?_⟩
    · have := A.fresh m n b hb
      omega
    · have := A.fresh m n b hb
      omega

theorem malloc_eq_null {A : Allocator Unit alignment} (h : (m.malloc A fails n).2 = 0) :
    fails m.calls = true := by
  unfold malloc at h
  split at h
  · assumption
  · exact absurd h (Nat.pos_iff_ne_zero.mp (A.pos m n))

/-- The outcome of `newStr` and `strdup`. -/
def NewStr (m : Memory Unit) (s : List UInt8) (r : Memory Unit × Nat) : Prop :=
  (r.2 = 0 ∧ r.1.blocks = m.blocks ∧ r.1.byte = m.byte) ∨
  (Gives m r.1 r.2 (s.length + 1) ∧ r.1.StrAt r.2 s)

theorem NewStr.keeps {r : Memory Unit × Nat} (h : NewStr m s r) : Keeps Nowhere m r.1 := by
  obtain ⟨_, hblocks, hbyte⟩ | ⟨hgives, _⟩ := h
  · exact ⟨hblocks ▸ List.suffix_refl _, fun q _ _ => by rw [hbyte]⟩
  · exact hgives.keeps

theorem newStr_spec (A : Allocator Unit alignment) (fails : Nat → Bool) (m : Memory Unit)
    (h0 : 0 ∉ s) : ∃ r, m.newStr A fails s = some r ∧ NewStr m s r := by
  unfold newStr
  obtain ⟨m', hm, hblocks, hbyte⟩ | ⟨m', q, hm, hgives⟩ := malloc_cases A fails m (s.length + 1)
  · rw [hm]
    exact ⟨(m', 0), rfl, .inl ⟨rfl, hblocks, hbyte⟩⟩
  · have hlen : (s ++ [0]).length = s.length + 1 := by simp
    have hstore : m'.stores 0 q (s ++ [0]) = some (m'.write q (s ++ [0])) :=
      stores_live (hlen ▸ hgives.live)
    rw [hm]
    refine ⟨(m'.write q (s ++ [0]), q), ?_, .inr ⟨?_, StrAt.of_write h0 hgives.live⟩⟩
    · simp only [if_neg hgives.ne_null, hstore, Option.bind_eq_bind, Option.bind_some]
    · exact hgives.write (s ++ [0]) (Nat.le_refl q) (by omega)

theorem strdup_spec (A : Allocator Unit alignment) (fails : Nat → Bool) (h : m.StrAt p s) :
    ∃ r, m.strdup A fails p = some r ∧ NewStr m s r := by
  rw [strdup, h.readStr, Option.bind_eq_bind, Option.bind_some]
  exact newStr_spec A fails m h.noNul

/-! ## Copying strings -/

/-- The string `s` is at `q` in `m'`, in bytes that `m` did not have. -/
structure CopyAt (m m' : Memory Unit) (q : Nat) (s : List UInt8) : Prop where
  str : m'.StrAt q s
  unborn : m.Unborn q (s.length + 1)

theorem CopyAt.later (h : CopyAt m m' q s) (hk : Keeps Nowhere m' m'') : CopyAt m m'' q s :=
  ⟨h.str.keep_nowhere hk, h.unborn⟩

theorem CopyAt.earlier (h : CopyAt m' m'' q s) (hk : Keeps D m m') : CopyAt m m'' q s :=
  ⟨h.str, hk.unborn h.unborn⟩

theorem NewStr.copyAt {r : Memory Unit × Nat} (h : NewStr m s r) :
    r.2 = 0 ∨ CopyAt m r.1 r.2 s :=
  h.imp And.left fun ⟨hg, hs⟩ => ⟨hs, hg.unborn⟩

/-- The copies `qs` of the first strings of `ss`. -/
structure Copies (m m' : Memory Unit) (ss : List (List UInt8)) (qs : List Nat) : Prop where
  keeps : Keeps Nowhere m m'
  blocks : ∃ new, m'.blocks = new ++ m.blocks ∧ new.map (·.addr) = qs.reverse
  ne_null : ∀ q ∈ qs, q ≠ 0
  copied : List.Forall₂ (CopyAt m m') qs (ss.take qs.length)

theorem forall₂_keep {ps : List Nat} {ss : List (List UInt8)} (hk : Keeps Nowhere m m')
    (h : List.Forall₂ m.StrAt ps ss) : List.Forall₂ m'.StrAt ps ss :=
  h.imp fun _ _ hs => hs.keep_nowhere hk

theorem strdupEach_spec : ∀ {ps : List Nat} {ss : List (List UInt8)} {m : Memory Unit},
    List.Forall₂ m.StrAt ps ss →
    ∃ m' qs, m.strdupEach A fails ps = some (m', qs) ∧ qs.length ≤ ps.length ∧
      Copies m m' ss qs
  | _, _, m, .nil => ⟨m, [], rfl, Nat.le_refl 0, Keeps.refl _ m, ⟨[], rfl, rfl⟩,
      fun _ h => absurd h List.not_mem_nil, .nil⟩
  | p :: ps, s :: ss, m, .cons hp hps => by
    obtain ⟨⟨m₁, q⟩, hdup, hnew⟩ := strdup_spec A fails hp
    have hk₁ : Keeps Nowhere m m₁ := hnew.keeps
    unfold strdupEach
    rw [hdup, Option.bind_eq_bind, Option.bind_some]
    obtain ⟨hq, hblocks, _⟩ | ⟨hgives, hstr⟩ := hnew
    · dsimp only at hq hblocks ⊢
      rw [if_pos hq]
      exact ⟨m₁, [], rfl, Nat.zero_le _, hk₁, ⟨[], hblocks, rfl⟩,
        fun _ h => absurd h List.not_mem_nil, .nil⟩
    · dsimp only at hgives hstr ⊢
      obtain ⟨m', qs, hrec, hlen, hc⟩ := strdupEach_spec (forall₂_keep hk₁ hps)
      obtain ⟨new, hnew, haddr⟩ := hc.blocks
      rw [if_neg hgives.ne_null, hrec]
      refine ⟨m', q :: qs, rfl, Nat.succ_le_succ hlen, hk₁.then hc.keeps,
        ⟨new ++ [⟨q, s.length + 1, ()⟩], ?_, ?_⟩,
        List.forall_mem_cons.mpr ⟨hgives.ne_null, hc.ne_null⟩, ?_⟩
      · rw [hnew, hgives.blocks, List.append_assoc, List.singleton_append]
      · rw [List.map_append, haddr, List.reverse_cons]
        rfl
      · exact .cons ⟨hstr.keep_nowhere hc.keeps, hgives.unborn⟩
          (hc.copied.imp fun _ _ h => h.earlier hk₁)

/-- Freeing the newest blocks, the last one first. -/
theorem freeEach_new : ∀ {new : List (Block Unit)} {m : Memory Unit} {old : List (Block Unit)},
    m.blocks = new ++ old →
    ∃ m', m.freeEach (new.map (·.addr)) = some m' ∧ m'.blocks = old ∧ m'.byte = m.byte
  | [], m, _, h => ⟨m, rfl, h, rfl⟩
  | b :: new, m, old, h => by
    have hfree : m.free b.addr = some { m with blocks := new ++ old } := by
      simp [Memory.free, h]
    obtain ⟨m', hrec, hblocks, hbyte⟩ := @freeEach_new new { m with blocks := new ++ old } old rfl
    refine ⟨m', ?_, hblocks, hbyte⟩
    rw [List.map_cons, freeEach, hfree, Option.bind_eq_bind, Option.bind_some, hrec]

/-- Freeing the copies leaves what was there before. -/
theorem Copies.freeEach {ss : List (List UInt8)} {qs : List Nat} (h : Copies m m' ss qs) :
    ∃ m'', m'.freeEach qs.reverse = some m'' ∧ Keeps Nowhere m m'' := by
  obtain ⟨new, hblocks, haddr⟩ := h.blocks
  obtain ⟨m'', hfree, hold, hbyte⟩ := freeEach_new hblocks
  refine ⟨m'', haddr ▸ hfree, hold ▸ List.suffix_refl _, fun q hq hno => ?_⟩
  rw [hbyte, h.keeps.byte q hq hno]

/-! ## Adjacent strings -/

/-- The strings at the addresses of the list lie one right behind the other, from `a` up to `b`. -/
inductive Chain (m : Memory Unit) : Nat → List Nat → Nat → Prop
  | nil (a : Nat) : Chain m a [] a
  | cons {p b : Nat} {s : List UInt8} {ps : List Nat} (str : m.StrAt p s)
      (rest : Chain m (p + s.length + 1) ps b) : Chain m p (p :: ps) b

variable {a b c : Nat} {ps qs : List Nat}

theorem Chain.append (h : Chain m a ps b) (h' : Chain m b qs c) : Chain m a (ps ++ qs) c := by
  induction h with
  | nil => exact h'
  | cons str _ ih => exact .cons str (ih h')

theorem Chain.le (h : Chain m a ps b) : a ≤ b := by
  induction h with
  | nil => exact Nat.le_refl _
  | cons _ _ ih => omega

theorem Chain.live (h : Chain m a ps b) : m.Live a (b - a) := by
  induction h with
  | nil => exact fun q hp hq => absurd hq (by omega)
  | @cons p b s ps str rest ih =>
    have hle := rest.le
    intro q hp hq
    by_cases hin : q < p + (s.length + 1)
    · exact str.live q hp hin
    · exact ih q (by omega) (by omega)

end Librecompat.Lib.Memory
