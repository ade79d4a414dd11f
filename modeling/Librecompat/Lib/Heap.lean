/-
  A heap of live blocks and an allocator that may fail and may place a block anywhere.

  A heap maps base addresses to block contents of an arbitrary type `β`; address `0` is the
  null pointer. `malloc`, `realloc` and `free` are those of C: a failing call returns `0` and
  changes nothing, `realloc` may move the block, `free` of `0` does nothing. Passing an address
  that is not the base of a live block is undefined behaviour: the result is `none`.

  An `Allocator` fixes, for the `n`-th call, whether it fails and where it places the block
  otherwise; a placed block never hits a live one. Quantifying over allocators quantifies over
  every choice of failing calls, addresses and garbage in fresh bytes.

  `Extends h₀ h` says that every block of `h₀` is still live and unchanged in `h`. It is kept
  by every operation on a pointer that is `Private h₀` (`malloc_private`, `realloc_private`,
  `free_extends`, `store_extends`): memory a function allocated for itself can be grown, moved,
  written and freed without the caller noticing.
-/
import Mathlib.Data.Finmap
import Mathlib.Data.Finset.Lattice.Fold
import Mathlib.Order.Lattice.Nat

namespace Librecompat.Lib

/-- Live blocks by base address. -/
def Heap (β : Type) := Finmap fun _ : Nat => β

namespace Heap

variable {β : Type}

/-- No live block. -/
def empty : Heap β := (∅ : Finmap fun _ : Nat => β)

/-- The contents of the live block at `a`. -/
def get (h : Heap β) (a : Nat) : Option β := Finmap.lookup a h

/-- The heap in which `a` is the base of a block that holds `b`. -/
def set (h : Heap β) (a : Nat) (b : β) : Heap β := Finmap.insert a b h

/-- The heap in which `a` is the base of no block. -/
def del (h : Heap β) (a : Nat) : Heap β := Finmap.erase a h

/-- The bases of the live blocks. -/
def bases (h : Heap β) : Finset Nat := Finmap.keys h

@[simp] theorem get_empty (a : Nat) : (empty : Heap β).get a = none := Finmap.lookup_empty a

@[simp] theorem get_set_self (h : Heap β) (a : Nat) (b : β) : (h.set a b).get a = some b :=
  Finmap.lookup_insert h

theorem get_set_ne (h : Heap β) {a c : Nat} (b : β) (hne : c ≠ a) :
    (h.set a b).get c = h.get c :=
  Finmap.lookup_insert_of_ne h hne

@[simp] theorem get_del_self (h : Heap β) (a : Nat) : (h.del a).get a = none :=
  Finmap.lookup_erase a h

theorem get_del_ne (h : Heap β) {a c : Nat} (hne : c ≠ a) : (h.del a).get c = h.get c :=
  Finmap.lookup_erase_ne hne

theorem get_eq_none {h : Heap β} {a : Nat} : h.get a = none ↔ a ∉ h.bases :=
  Finmap.lookup_eq_none.trans (not_congr Finmap.mem_keys.symm)

end Heap

/-- The answers of `malloc` and `realloc`: call number `n` fails when `fails n`, otherwise it
    places its block at `place n h`. `junk n i` is what byte `i` of a block from call `n` holds
    before it is written. -/
structure Allocator (β : Type) where
  fails : Nat → Bool
  place : Nat → Heap β → Nat
  junk : Nat → Nat → UInt8
  place_ne_null : ∀ n (h : Heap β), place n h ≠ 0
  place_fresh : ∀ n (h : Heap β), h.get (place n h) = none

/-- The allocator that places every block above all live bases and fails where told to. -/
def Allocator.bump (β : Type) (fails : Nat → Bool) : Allocator β where
  fails := fails
  place _ h := h.bases.sup id + 4096
  junk _ _ := 0xAA
  place_ne_null _ _ := by simp
  place_fresh _ h := by
    rw [Heap.get_eq_none]
    intro hm
    have hle : h.bases.sup id + 4096 ≤ h.bases.sup id := Finset.le_sup (f := id) hm
    omega

/-- A heap and the number of allocator calls made so far. -/
structure Mem (β : Type) where
  heap : Heap β
  calls : Nat

variable {β : Type}

/-- `malloc` of a block that will hold `b`. -/
def malloc (A : Allocator β) (m : Mem β) (b : β) : Mem β × Nat :=
  if A.fails m.calls then ({ m with calls := m.calls + 1 }, 0)
  else
    ({ heap := m.heap.set (A.place m.calls m.heap) b, calls := m.calls + 1 },
      A.place m.calls m.heap)

/-- `realloc p`: `resize` is what happens to the contents, `init` the contents of a new block
    when `p` is `0`. -/
def realloc (A : Allocator β) (m : Mem β) (p : Nat) (init : β) (resize : β → β) :
    Option (Mem β × Nat) :=
  if p = 0 then some (malloc A m init)
  else
    (m.heap.get p).map fun b =>
      if A.fails m.calls then ({ m with calls := m.calls + 1 }, 0)
      else
        ({ heap := (m.heap.del p).set (A.place m.calls (m.heap.del p)) (resize b),
           calls := m.calls + 1 }, A.place m.calls (m.heap.del p))

/-- `free p`. -/
def free (m : Mem β) (p : Nat) : Option (Mem β) :=
  if p = 0 then some m
  else (m.heap.get p).map fun _ => { m with heap := m.heap.del p }

/-- `free` of one pointer after the other. -/
def freeAll (m : Mem β) : List Nat → Option (Mem β)
  | [] => some m
  | p :: ps => (free m p).bind fun m => freeAll m ps

/-- Overwrite the contents of the live block `p`. -/
def store (m : Mem β) (p : Nat) (b : β) : Option (Mem β) :=
  (m.heap.get p).map fun _ => { m with heap := m.heap.set p b }

/-! ## What each operation can do -/

theorem malloc_cases (A : Allocator β) (m : Mem β) (b : β) :
    (A.fails m.calls = true ∧ malloc A m b = ({ m with calls := m.calls + 1 }, 0)) ∨
    (A.fails m.calls = false ∧ ∃ a, a ≠ 0 ∧ m.heap.get a = none ∧
      malloc A m b = ({ heap := m.heap.set a b, calls := m.calls + 1 }, a)) := by
  unfold malloc
  cases hf : A.fails m.calls with
  | true => exact .inl ⟨rfl, rfl⟩
  | false =>
    exact .inr ⟨rfl, _, A.place_ne_null m.calls _, A.place_fresh _ _, rfl⟩

theorem realloc_null (A : Allocator β) (m : Mem β) (init : β) (resize : β → β) :
    realloc A m 0 init resize = some (malloc A m init) := by
  simp [realloc]

theorem realloc_cases (A : Allocator β) {m : Mem β} {p : Nat} (init : β) (resize : β → β)
    {b : β} (hp : p ≠ 0) (hb : m.heap.get p = some b) :
    (A.fails m.calls = true ∧
      realloc A m p init resize = some ({ m with calls := m.calls + 1 }, 0)) ∨
    (A.fails m.calls = false ∧ ∃ a, a ≠ 0 ∧ (m.heap.del p).get a = none ∧
      realloc A m p init resize =
        some ({ heap := (m.heap.del p).set a (resize b), calls := m.calls + 1 }, a)) := by
  unfold realloc
  rw [if_neg hp, hb]
  cases hf : A.fails m.calls with
  | true => exact .inl ⟨rfl, rfl⟩
  | false =>
    exact .inr ⟨rfl, _, A.place_ne_null m.calls _, A.place_fresh _ _, rfl⟩

/-- A `malloc` that does not fail gives a live block with the wanted contents. -/
theorem malloc_ok {A : Allocator β} {m : Mem β} (hf : A.fails m.calls = false) (b : β) :
    ∃ m' a, malloc A m b = (m', a) ∧ a ≠ 0 ∧ m'.heap.get a = some b := by
  obtain ⟨hf', _⟩ | ⟨_, a, ha, _, hm⟩ := malloc_cases A m b
  · rw [hf] at hf'
    cases hf'
  · exact ⟨_, a, hm, ha, Heap.get_set_self _ _ _⟩

/-- A `realloc` of a live block that does not fail gives a live block with the resized
    contents. -/
theorem realloc_ok {A : Allocator β} {m : Mem β} (hf : A.fails m.calls = false) {p : Nat}
    (init : β) (resize : β → β) {b : β} (hp : p ≠ 0) (hb : m.heap.get p = some b) :
    ∃ m' a, realloc A m p init resize = some (m', a) ∧ a ≠ 0 ∧
      m'.heap.get a = some (resize b) := by
  obtain ⟨hf', _⟩ | ⟨_, a, ha, _, hm⟩ := realloc_cases A init resize hp hb
  · rw [hf] at hf'
    cases hf'
  · exact ⟨_, a, hm, ha, Heap.get_set_self _ _ _⟩

theorem free_null (m : Mem β) : free m 0 = some m := by simp [free]

theorem free_live {m : Mem β} {p : Nat} {b : β} (hp : p ≠ 0) (hb : m.heap.get p = some b) :
    free m p = some { m with heap := m.heap.del p } := by
  simp [free, hp, hb]

theorem free_ok {m : Mem β} {p : Nat} (hp : p = 0 ∨ ∃ b, m.heap.get p = some b) :
    ∃ m', free m p = some m' ∧ ∀ a, a ≠ p → m'.heap.get a = m.heap.get a := by
  by_cases hnull : p = 0
  · rw [hnull]
    exact ⟨m, free_null m, fun _ _ => rfl⟩
  · obtain ⟨b, hb⟩ := hp.resolve_left hnull
    exact ⟨_, free_live hnull hb, fun a ha => Heap.get_del_ne _ ha⟩

theorem store_live {m : Mem β} {p : Nat} {b c : β} (hb : m.heap.get p = some b) :
    store m p c = some { m with heap := m.heap.set p c } := by
  simp [store, hb]

/-! ## Memory of the caller -/

/-- Every block of `h₀` is live and unchanged in `h`. -/
def Extends (h₀ h : Heap β) : Prop := ∀ a b, h₀.get a = some b → h.get a = some b

theorem Extends.refl (h : Heap β) : Extends h h := fun _ _ hb => hb

theorem Extends.trans {h₀ h₁ h₂ : Heap β} (h : Extends h₀ h₁) (h' : Extends h₁ h₂) :
    Extends h₀ h₂ := fun a b hb => h' a b (h a b hb)

variable {h₀ : Heap β}

theorem Extends.none_of_none {h : Heap β} {p : Nat} (he : Extends h₀ h)
    (hp : h.get p = none) : h₀.get p = none := by
  cases hb : h₀.get p with
  | none => rfl
  | some b => rw [he p b hb] at hp; exact hp

theorem Extends.set {h : Heap β} {p : Nat} (b : β) (he : Extends h₀ h)
    (hp : h₀.get p = none) : Extends h₀ (h.set p b) := by
  intro a c hc
  have hne : a ≠ p := by rintro rfl; rw [hp] at hc; cases hc
  rw [h.get_set_ne b hne]
  exact he a c hc

theorem Extends.del {h : Heap β} {p : Nat} (he : Extends h₀ h) (hp : h₀.get p = none) :
    Extends h₀ (h.del p) := by
  intro a c hc
  have hne : a ≠ p := by rintro rfl; rw [hp] at hc; cases hc
  rw [h.get_del_ne hne]
  exact he a c hc

/-- `p` is null or is the base of no block of the caller. -/
def Private (h₀ : Heap β) (p : Nat) : Prop := p ≠ 0 → h₀.get p = none

/-- A block from `malloc` is not one of the caller's, and the caller's are unchanged. -/
theorem malloc_private {A : Allocator β} {m m' : Mem β} {b : β} {a : Nat}
    (he : Extends h₀ m.heap) (h : malloc A m b = (m', a)) :
    Extends h₀ m'.heap ∧ Private h₀ a := by
  obtain ⟨_, h'⟩ | ⟨_, q, _, hq, h'⟩ := malloc_cases A m b <;>
    obtain ⟨rfl, rfl⟩ := Prod.mk.inj (h.symm.trans h')
  · exact ⟨he, fun hn => absurd rfl hn⟩
  · have hq₀ := he.none_of_none hq
    exact ⟨he.set b hq₀, fun _ => hq₀⟩

/-- `realloc` of a block of one's own gives a block of one's own. -/
theorem realloc_private {A : Allocator β} {m m' : Mem β} {p a : Nat} {init : β}
    {resize : β → β} (he : Extends h₀ m.heap) (hp : Private h₀ p)
    (h : realloc A m p init resize = some (m', a)) : Extends h₀ m'.heap ∧ Private h₀ a := by
  by_cases hnull : p = 0
  · rw [hnull, realloc_null] at h
    exact malloc_private he (Option.some.inj h)
  · cases hb : m.heap.get p with
    | none => simp [realloc, hnull, hb] at h
    | some b =>
      obtain ⟨_, h'⟩ | ⟨_, q, _, hq, h'⟩ := realloc_cases A init resize hnull hb <;>
        obtain ⟨rfl, rfl⟩ := Prod.mk.inj (Option.some.inj (h.symm.trans h'))
      · exact ⟨he, fun hn => absurd rfl hn⟩
      · have he' := he.del (hp hnull)
        have hq₀ := he'.none_of_none hq
        exact ⟨he'.set _ hq₀, fun _ => hq₀⟩

/-- A `realloc` that returns null has failed and done nothing. -/
theorem realloc_failed {A : Allocator β} {m m' : Mem β} {p : Nat} {init : β} {resize : β → β}
    (h : realloc A m p init resize = some (m', 0)) :
    A.fails m.calls = true ∧ m' = { m with calls := m.calls + 1 } := by
  by_cases hnull : p = 0
  · rw [hnull, realloc_null] at h
    obtain ⟨hf, h'⟩ | ⟨_, q, hq, _, h'⟩ := malloc_cases A m init <;>
      obtain ⟨rfl, h0⟩ := Prod.mk.inj ((Option.some.inj h).symm.trans h')
    · exact ⟨hf, rfl⟩
    · exact absurd h0.symm hq
  · cases hb : m.heap.get p with
    | none => simp [realloc, hnull, hb] at h
    | some b =>
      obtain ⟨hf, h'⟩ | ⟨_, q, hq, _, h'⟩ := realloc_cases A init resize hnull hb <;>
        obtain ⟨rfl, h0⟩ := Prod.mk.inj (Option.some.inj (h.symm.trans h'))
      · exact ⟨hf, rfl⟩
      · exact absurd h0.symm hq

theorem realloc_calls {A : Allocator β} {m m' : Mem β} {p a : Nat} {init : β} {resize : β → β}
    (h : realloc A m p init resize = some (m', a)) : m'.calls = m.calls + 1 := by
  by_cases hnull : p = 0
  · rw [hnull, realloc_null] at h
    obtain ⟨_, h'⟩ | ⟨_, q, _, _, h'⟩ := malloc_cases A m init <;>
      obtain ⟨rfl, _⟩ := Prod.mk.inj ((Option.some.inj h).symm.trans h') <;> rfl
  · cases hb : m.heap.get p with
    | none => simp [realloc, hnull, hb] at h
    | some b =>
      obtain ⟨_, h'⟩ | ⟨_, q, _, _, h'⟩ := realloc_cases A init resize hnull hb <;>
        obtain ⟨rfl, _⟩ := Prod.mk.inj (Option.some.inj (h.symm.trans h')) <;> rfl

theorem realloc_fails {A : Allocator β} {m : Mem β} {p : Nat} (init : β) (resize : β → β)
    (hf : A.fails m.calls = true) (hp : p = 0 ∨ ∃ b, m.heap.get p = some b) :
    realloc A m p init resize = some ({ m with calls := m.calls + 1 }, 0) := by
  by_cases hnull : p = 0
  · rw [hnull, realloc_null, malloc, if_pos hf]
  · obtain ⟨b, hb⟩ := hp.resolve_left hnull
    rw [realloc, if_neg hnull, hb, Option.map_some, if_pos hf]

theorem realloc_eq_zero_iff {A : Allocator β} {m m' : Mem β} {p q : Nat} {init : β}
    {resize : β → β} (h : realloc A m p init resize = some (m', q)) :
    q = 0 ↔ A.fails m.calls = true := by
  constructor
  · rintro rfl
    exact (realloc_failed h).1
  · intro hf
    have hlive : p = 0 ∨ ∃ b, m.heap.get p = some b := by
      by_cases hnull : p = 0
      · exact .inl hnull
      · rw [realloc, if_neg hnull] at h
        obtain ⟨b, hb, _⟩ := Option.map_eq_some_iff.mp h
        exact .inr ⟨b, hb⟩
    rw [realloc_fails _ _ hf hlive] at h
    exact (Prod.mk.inj (Option.some.inj h)).2.symm

theorem free_extends {m m' : Mem β} {p : Nat} (he : Extends h₀ m.heap) (hp : Private h₀ p)
    (h : free m p = some m') : Extends h₀ m'.heap := by
  unfold free at h
  split at h
  · obtain rfl := Option.some.inj h
    exact he
  · obtain ⟨b, _, rfl⟩ := Option.map_eq_some_iff.mp h
    exact he.del (hp ‹_›)

theorem store_extends {m m' : Mem β} {p : Nat} {b : β} (he : Extends h₀ m.heap)
    (hp : h₀.get p = none) (h : store m p b = some m') : Extends h₀ m'.heap := by
  obtain ⟨_, _, rfl⟩ := Option.map_eq_some_iff.mp h
  exact he.set b hp

end Librecompat.Lib
