/-
  Chunks and the objects in them.

  `Chain` says that the chunks are linked from the current one on. `Packed` says how the finished
  objects lie in them: one behind the other in each chunk, the older ones in the older chunks. It is
  built by the two events that matter, a new chunk and a finished object, so that going back to an
  object is going back in the derivation (`Packed.rollback`).
-/
import Librecompat.Obstack.Model

namespace Librecompat.Obstack

open Librecompat.Lib

/-! ## Alignment -/

variable {p q k mask : Nat}

theorem clearBits_eq (hmask : mask + 1 = 2 ^ k) : clearBits p mask = p - p % (mask + 1) := by
  have hand := Nat.and_two_pow_sub_one_eq_mod p k
  rw [← hmask, Nat.add_sub_cancel] at hand
  rw [clearBits, hand]

theorem ptrAlign_eq (hmask : mask + 1 = 2 ^ k) :
    ptrAlign p mask = p + mask - (p + mask) % (mask + 1) := clearBits_eq hmask

theorem dvd_ptrAlign (hmask : mask + 1 = 2 ^ k) : mask + 1 ∣ ptrAlign p mask := by
  rw [ptrAlign_eq hmask]
  exact Nat.dvd_sub_mod _

theorem le_ptrAlign (hmask : mask + 1 = 2 ^ k) : p ≤ ptrAlign p mask := by
  have hlt : (p + mask) % (mask + 1) < mask + 1 := Nat.mod_lt _ (Nat.succ_pos _)
  rw [ptrAlign_eq hmask]
  omega

theorem ptrAlign_le (p mask : Nat) : ptrAlign p mask ≤ p + mask := Nat.sub_le _ _

/-- Rounding up gives the least multiple that is not below. -/
theorem ptrAlign_le_of_dvd (hmask : mask + 1 = 2 ^ k) (hle : p ≤ q) (hq : mask + 1 ∣ q) :
    ptrAlign p mask ≤ q := by
  obtain ⟨j, rfl⟩ := hq
  have hdiv : (p + mask) / (mask + 1) ≤ j := by
    have hlt : p + mask < (mask + 1) * (j + 1) := by
      rw [Nat.mul_add]
      omega
    exact Nat.le_of_lt_succ (Nat.div_lt_of_lt_mul hlt)
  have hmod := Nat.div_add_mod (p + mask) (mask + 1)
  have hmul := Nat.mul_le_mul_left (mask + 1) hdiv
  rw [ptrAlign_eq hmask]
  omega

theorem contents_le (hmask : mask + 1 = 2 ^ k) : p + 16 ≤ contentsAligned p mask :=
  le_ptrAlign hmask

/-! ## The chain -/

/-- The chunks are linked by `prev` from `p` on, and `limit` is their end. -/
def Chain : Nat → List Chunk → Prop
  | p, [] => p = 0
  | p, c :: cs => p = c.addr ∧ 0 < c.addr ∧ c.head.limit = c.addr + c.size ∧ Chain c.head.prev cs

theorem Chain.mem {c : Chunk} : ∀ {p : Nat} {cs : List Chunk}, Chain p cs → c ∈ cs →
    0 < c.addr ∧ c.head.limit = c.addr + c.size
  | _, _ :: _, ⟨_, hpos, hlimit, hrest⟩, hc => by
    rcases List.mem_cons.mp hc with rfl | hc
    · exact ⟨hpos, hlimit⟩
    · exact hrest.mem hc

theorem Chain.suffix {c : Chunk} {cs : List Chunk} : ∀ {p : Nat} {popped : List Chunk},
    Chain p (popped ++ c :: cs) → Chain c.addr (c :: cs)
  | _, [], ⟨_, h⟩ => ⟨rfl, h⟩
  | _, _ :: _, ⟨_, _, _, hrest⟩ => hrest.suffix

/-- A live object, or one that was: its address, and what it held when it was finished. -/
structure Obj where
  addr : Nat
  contents : List UInt8

/-- `top` is behind the objects `objs`, the newest one first, in the chunks; the flag says whether
    there is an empty one in the first chunk. -/
inductive Packed (mask : Nat) : List Chunk → Nat → List Obj → Bool → Prop
  | nil : Packed mask [] 0 [] false
  | chunk {cs : List Chunk} {top : Nat} {objs : List Obj} {e : Bool} (c : Chunk)
      (h : Packed mask cs top objs e) :
      Packed mask (c :: cs) (contentsAligned c.addr mask) objs false
  | object {c : Chunk} {cs : List Chunk} {top top' : Nat} {objs : List Obj} {e : Bool}
      {contents : List UInt8} (h : Packed mask (c :: cs) top objs e)
      (hend : top + contents.length ≤ top') (hlimit : top' ≤ c.addr + c.size)
      (haligned : mask + 1 ∣ top ∨ top = c.addr + c.size) :
      Packed mask (c :: cs) top' (⟨top, contents⟩ :: objs) (e || contents.isEmpty)

variable {c : Chunk} {cs : List Chunk} {top : Nat} {objs : List Obj} {e : Bool}

theorem Packed.le_top (h : Packed mask (c :: cs) top objs e) :
    contentsAligned c.addr mask ≤ top := by
  generalize hchain : c :: cs = chain at h
  induction h with
  | nil => cases hchain
  | chunk c' h => exact Nat.le_of_eq (by rw [(List.cons.inj hchain).1])
  | object h hend hlimit haligned ih =>
    have := ih hchain
    omega

/-- The chunk has room for the rounding. -/
def Roomy (mask : Nat) (c : Chunk) : Prop := contentsAligned c.addr mask ≤ c.addr + c.size

/-- The object lies in the chunk. -/
def In (mask : Nat) (o : Obj) (c : Chunk) : Prop :=
  contentsAligned c.addr mask ≤ o.addr ∧ o.addr + o.contents.length ≤ c.addr + c.size

theorem Packed.top_le (hroom : Roomy mask c) (h : Packed mask (c :: cs) top objs e) :
    top ≤ c.addr + c.size := by
  cases h with
  | chunk _ h => exact hroom
  | object h hend hlimit haligned => exact hlimit

/-- Each object lies in the first chunk below `top`, or in one of the others. -/
theorem Packed.mem (h : Packed mask (c :: cs) top objs e) (hroom : ∀ c' ∈ cs, Roomy mask c')
    {o : Obj} (ho : o ∈ objs) :
    contentsAligned c.addr mask ≤ o.addr ∧ o.addr + o.contents.length ≤ top ∨
      ∃ c' ∈ cs, In mask o c' := by
  generalize hchain : c :: cs = chain at h
  induction h generalizing c cs with
  | nil => cases ho
  | @chunk cs' top' objs e c' h ih =>
    obtain ⟨rfl, rfl⟩ := List.cons.inj hchain
    cases cs with
    | nil =>
      cases h
      cases ho
    | cons c' cs' =>
      have hroom' := List.forall_mem_cons.mp hroom
      refine .inr ?_
      rcases ih hroom'.2 ho rfl with ⟨h1, h2⟩ | ⟨c₂, hc₂, hin⟩
      · exact ⟨c', List.mem_cons_self, h1, Nat.le_trans h2 (h.top_le hroom'.1)⟩
      · exact ⟨c₂, List.mem_cons_of_mem _ hc₂, hin⟩
  | @object c' cs' top top' objs e contents h hend hlimit haligned ih =>
    obtain ⟨rfl, rfl⟩ := List.cons.inj hchain
    rcases List.mem_cons.mp ho with rfl | hmem
    · exact .inl ⟨h.le_top, hend⟩
    · refine (ih hroom hmem rfl).imp (fun ⟨h1, h2⟩ => ⟨h1, ?_⟩) id
      omega

theorem Packed.mem_in (h : Packed mask (c :: cs) top objs e)
    (hroom : ∀ c' ∈ c :: cs, Roomy mask c') {o : Obj} (ho : o ∈ objs) :
    ∃ c' ∈ c :: cs, In mask o c' := by
  have hroom' := List.forall_mem_cons.mp hroom
  rcases h.mem hroom'.2 ho with ⟨h1, h2⟩ | ⟨c', hc', hin⟩
  · exact ⟨c, List.mem_cons_self, h1, Nat.le_trans h2 (h.top_le hroom'.1)⟩
  · exact ⟨c', List.mem_cons_of_mem c hc', hin⟩

theorem Packed.aligned (h : Packed mask (c :: cs) top objs e) {o : Obj} (ho : o ∈ objs)
    (hne : o.contents ≠ []) : mask + 1 ∣ o.addr := by
  generalize c :: cs = chain at h
  induction h with
  | nil => cases ho
  | chunk _ _ ih => exact ih ho
  | object _ hend hlimit haligned ih =>
    rcases List.mem_cons.mp ho with rfl | hmem
    · have hpos := List.length_pos_iff.mpr hne
      dsimp only at hpos
      exact haligned.resolve_right (by omega)
    · exact ih hmem

/-- The bytes of the two objects do not overlap. -/
def Obj.Apart (o o' : Obj) : Prop :=
  o.addr + o.contents.length ≤ o'.addr ∨ o'.addr + o'.contents.length ≤ o.addr

theorem In.apart {o o' : Obj} {c' : Chunk} (ho : In mask o c) (ho' : In mask o' c')
    (hmask : mask + 1 = 2 ^ k) (h : c.Apart c') : o.Apart o' := by
  have h1 := @contents_le c.addr k mask hmask
  have h2 := @contents_le c'.addr k mask hmask
  obtain ⟨h3, h4⟩ := ho
  obtain ⟨h5, h6⟩ := ho'
  rcases h with h | h
  · exact .inl (by omega)
  · exact .inr (by omega)

theorem Packed.apart (hmask : mask + 1 = 2 ^ k) {chain : List Chunk}
    (h : Packed mask chain top objs e) (hroom : ∀ c ∈ chain, Roomy mask c)
    (hapart : chain.Pairwise Block.Apart) : objs.Pairwise Obj.Apart := by
  induction h with
  | nil => exact .nil
  | chunk c h ih =>
    exact ih (fun c' hc' => hroom c' (List.mem_cons_of_mem _ hc')) (List.pairwise_cons.mp hapart).2
  | @object c cs top top' objs e contents h hend hlimit haligned ih =>
    have hroom' := List.forall_mem_cons.mp hroom
    refine List.pairwise_cons.mpr ⟨fun o ho => ?_, ih hroom hapart⟩
    rcases h.mem hroom'.2 ho with ⟨-, hle⟩ | ⟨c', hc', hin⟩
    · exact .inr hle
    · have hnew : In mask ⟨top, contents⟩ c := ⟨h.le_top, Nat.le_trans hend hlimit⟩
      exact hnew.apart hin hmask ((List.pairwise_cons.mp hapart).1 c' hc')

/-- Back to an object: the chunks above its own one are left, and the objects below it stay. -/
theorem Packed.rollback {chain : List Chunk} (h : Packed mask chain top objs e)
    (hroom : ∀ c ∈ chain, Roomy mask c) : ∀ {i : Nat} {o : Obj}, objs[i]? = some o →
    ∃ popped c cs e', chain = popped ++ c :: cs ∧
      Packed mask (c :: cs) o.addr (objs.drop (i + 1)) e' ∧
      (popped = [] → e' = true → e = true) ∧ o.addr ≤ c.addr + c.size ∧
      (mask + 1 ∣ o.addr ∨ o.addr = c.addr + c.size) := by
  induction h with
  | nil => exact fun ho => nomatch ho
  | chunk c h ih =>
    intro i o ho
    obtain ⟨popped, c', cs, e', hchain, hp, -, hle⟩ :=
      ih (fun c' hc' => hroom c' (List.mem_cons_of_mem _ hc')) ho
    exact ⟨c :: popped, c', cs, e', by rw [hchain]; rfl, hp, nofun, hle⟩
  | @object c cs top top' objs e contents h hend hlimit haligned ih =>
    intro i o ho
    cases i with
    | zero =>
      obtain rfl := Option.some.inj ho
      exact ⟨[], c, cs, e, rfl, h, fun _ he => by rw [he]; rfl,
        h.top_le (hroom c List.mem_cons_self), haligned⟩
    | succ i =>
      obtain ⟨popped, c', cs', e', hchain, hp, hflag, hle⟩ := ih hroom ho
      exact ⟨popped, c', cs', e', hchain, hp, fun h0 he => by rw [hflag h0 he]; rfl, hle⟩

/-- A chunk without objects is left out. -/
theorem Packed.skip (h : Packed mask (c :: cs) (contentsAligned c.addr mask) objs false)
    (c' : Chunk) : Packed mask (c' :: cs) (contentsAligned c'.addr mask) objs false := by
  generalize hchain : c :: cs = chain at h
  generalize htop : contentsAligned c.addr mask = top at h
  generalize he : false = e at h
  cases h with
  | nil => cases hchain
  | chunk c₁ h =>
    obtain ⟨-, rfl⟩ := List.cons.inj hchain
    exact .chunk c' h
  | @object c₁ cs₁ top top' objs e contents h hend hlimit haligned =>
    -- an object that is not empty does not end where the chunk starts
    obtain ⟨rfl, rfl⟩ := List.cons.inj hchain
    have hle := h.le_top
    have hcontents : contents = [] := List.eq_nil_of_length_eq_zero (by omega)
    rw [hcontents] at he
    simp at he

end Librecompat.Obstack
