/-
  Copying the strings of `argv` and of the environment, and joining those of `argv`.

  `copyStrings` either gives an array of copies in new memory or leaves everything as it was
  (`copyStrings_spec`); `Quiet` is what both have in common. `sptDetachArgvLocked` then writes the
  slots of `argv` and nothing else (`sptDetachArgvLocked_spec`). `sptJoinArgv` gives the strings
  with a blank between any two of them (`sptJoinArgv_spec`).
-/
import Librecompat.Setproctitle.Model

namespace Librecompat.Setproctitle

open Librecompat.Lib
open Librecompat.Lib.Memory (StrAt Keeps Nowhere CopyAt Copies NewStr Gives)

variable {O : Outside} {s s' s'' : State} {ps qs : List Nat} {ss : List (List UInt8)}

/-! ## Pointer arrays -/

/-- Other pointers in the slots of those that were walked over. -/
theorem upTo_replaced : ∀ {n : Nat} {slots ps qs : List Nat}, upTo n slots = some ps →
    qs.length = ps.length → (∀ q ∈ qs, q ≠ 0) → upTo n (qs ++ slots.drop ps.length) = some qs
  | 0, _, ps, qs, h, hlen, _ => by
    obtain rfl : [] = ps := Option.some.inj h
    obtain rfl := List.length_eq_zero_iff.mp hlen
    rfl
  | n + 1, p :: slots, ps, qs, h, hlen, hqs => by
    have hwalk := h
    unfold upTo at h
    split at h
    · obtain rfl : [] = ps := Option.some.inj h
      obtain rfl := List.length_eq_zero_iff.mp hlen
      exact hwalk
    · obtain ⟨ps', hps, rfl⟩ := Option.map_eq_some_iff.mp h
      obtain ⟨q, qs, rfl⟩ := List.exists_cons_of_length_eq_add_one hlen
      rw [List.forall_mem_cons] at hqs
      rw [List.length_cons, List.length_cons, Nat.succ_inj] at hlen
      rw [List.cons_append, upTo, if_neg hqs.1, List.length_cons, List.drop_succ_cons,
        upTo_replaced hps hlen hqs.2]
      rfl

theorem upToNull_copies : ∀ {qs : List Nat}, (∀ q ∈ qs, q ≠ 0) → ∀ slots,
    upToNull (qs ++ 0 :: slots) = some qs
  | [], _, _ => rfl
  | q :: qs, h, slots => by
    rw [List.forall_mem_cons] at h
    rw [List.cons_append, upToNull, if_neg h.1, upToNull_copies h.2]
    rfl

/-! ## Nothing but allocations -/

/-- All the memory that was there is as it was, and so are the variables. -/
structure Quiet (s s' : State) : Prop where
  mem : Keeps Nowhere s.mem s'.mem
  arrays : Extends s.arrays.heap s'.arrays.heap
  others : s' = { s with mem := s'.mem, arrays := s'.arrays }

/-- `s'` has got a new array at `dupv` with copies of `ss`, and `NULL` behind them up to `n`. -/
structure Dup (s s' : State) (n dupv : Nat) (qs : List Nat) (ss : List (List UInt8)) : Prop where
  quiet : Quiet s s'
  ne_null : dupv ≠ 0
  fresh : s.arrays.heap.get dupv = none
  array : s'.arrays.heap.get dupv = some (qs ++ List.replicate (n - qs.length) 0)
  qs_ne_null : ∀ q ∈ qs, q ≠ 0
  copied : List.Forall₂ (CopyAt s.mem s'.mem) qs ss

theorem copyStrings_spec (O : Outside) (n : Nat) (h : List.Forall₂ s.mem.StrAt ps ss) :
    (∃ s', copyStrings O s n ps = some (s', 0) ∧ Quiet s s') ∨
    ∃ s' dupv qs, copyStrings O s n ps = some (s', dupv) ∧ Dup s s' n dupv qs ss := by
  unfold copyStrings
  obtain ⟨_, hm⟩ | ⟨_, a, ha, hfree, hm⟩ := malloc_cases O.arrays s.arrays (List.replicate n 0)
  · rw [hm]
    exact .inl ⟨_, rfl, Keeps.refl _ _, Extends.refl _, rfl⟩
  · obtain ⟨m, qs, hdup, hle, hc⟩ := @Memory.strdupEach_spec 1 O.place O.fails ps ss s.mem h
    have hstore : store ⟨s.arrays.heap.set a (List.replicate n 0), s.arrays.calls + 1⟩ a
        (qs ++ List.replicate (n - qs.length) 0) = some _ :=
      store_live (Heap.get_set_self _ _ _)
    have hext : Extends s.arrays.heap
        ((s.arrays.heap.set a (List.replicate n 0)).set a
          (qs ++ List.replicate (n - qs.length) 0)) :=
      ((Extends.refl _).set _ hfree).set _ hfree
    rw [hm]
    dsimp only
    rw [if_neg ha, hdup, Option.bind_eq_bind, Option.bind_some]
    dsimp only
    rw [hstore, Option.bind_eq_bind, Option.bind_some]
    by_cases hlt : qs.length < ps.length
    · obtain ⟨m', hfreed, hkeep⟩ := hc.freeEach
      rw [if_pos hlt, hfreed, Option.bind_eq_bind, Option.bind_some,
        free_live ha (Heap.get_set_self _ _ _)]
      exact .inl ⟨_, rfl, hkeep, hext.del hfree, rfl⟩
    · have hlen : qs.length = ss.length := by
        have := h.length_eq
        omega
      have hcopied := hc.copied
      rw [hlen, List.take_length] at hcopied
      rw [if_neg hlt]
      exact .inr ⟨_, a, qs, rfl, ⟨hc.keeps, hext, rfl⟩, ha, hfree, Heap.get_set_self _ _ _,
        hc.ne_null, hcopied⟩

/-! ## `spt_detach_argv_locked` -/

/-- `argv` has got copies of its strings, and nothing else that was there has changed. -/
structure Detached (s s' : State) (argv : Nat) (argc : Int) (ss : List (List UInt8)) : Prop where
  mem : Keeps Nowhere s.mem s'.mem
  arrays : Extends (s.arrays.heap.del argv) s'.arrays.heap
  others : s' = { s with mem := s'.mem, arrays := s'.arrays }
  args : ∃ slots qs, s'.arrays.heap.get argv = some slots ∧ upTo argc.toNat slots = some qs ∧
    List.Forall₂ (CopyAt s.mem s'.mem) qs ss

theorem sptDetachArgvLocked_spec (O : Outside) {argv : Nat} {argc : Int} {slots : List Nat}
    (hargv : argv ≠ 0) (hargc : ¬ argc ≤ 0) (hslots : s.arrays.heap.get argv = some slots)
    (hps : upTo argc.toNat slots = some ps) (h : List.Forall₂ s.mem.StrAt ps ss) :
    (∃ s', sptDetachArgvLocked O s argv argc = some (s', false) ∧ Quiet s s') ∨
    ∃ s', sptDetachArgvLocked O s argv argc = some (s', true) ∧ Detached s s' argv argc ss := by
  unfold sptDetachArgvLocked
  rw [if_neg fun hor => hor.elim hargv hargc, hslots, Option.bind_eq_bind, Option.bind_some, hps,
    Option.bind_eq_bind, Option.bind_some]
  obtain ⟨s', hcopy, hq⟩ | ⟨s', dupv, qs, hcopy, hd⟩ := copyStrings_spec O argc.toNat h
  · rw [hcopy]
    exact .inl ⟨s', rfl, hq⟩
  · have hlen : qs.length = ps.length := hd.copied.length_eq.trans h.length_eq.symm
    have hne : argv ≠ dupv := by
      rintro rfl
      rw [hd.fresh] at hslots
      cases hslots
    have hstore := store_live (c := qs ++ slots.drop ps.length) (hd.quiet.arrays argv _ hslots)
    have hdup : (s'.arrays.heap.set argv (qs ++ slots.drop ps.length)).get dupv =
        some (qs ++ List.replicate (argc.toNat - qs.length) 0) := by
      rw [Heap.get_set_ne _ _ hne.symm, hd.array]
    rw [hcopy, Option.bind_eq_bind, Option.bind_some]
    dsimp only
    rw [if_neg hd.ne_null, hd.array, Option.bind_some, ← hlen, List.take_left, hlen, hstore,
      Option.bind_some, free_live hd.ne_null hdup]
    refine .inr ⟨_, rfl, hd.quiet.mem, ?_, ?_, ?_⟩
    · intro a l hl
      have hna : a ≠ argv := by
        rintro rfl
        rw [Heap.get_del_self] at hl
        cases hl
      rw [Heap.get_del_ne _ hna] at hl
      have hnd : a ≠ dupv := by
        rintro rfl
        rw [hd.fresh] at hl
        cases hl
      rw [Heap.get_del_ne _ hnd, Heap.get_set_ne _ _ hna]
      exact hd.quiet.arrays a l hl
    · rw [hd.quiet.others]
    · refine ⟨_, qs, ?_, upTo_replaced hps hlen hd.qs_ne_null, hd.copied⟩
      rw [Heap.get_del_ne _ hne, Heap.get_set_self]

/-! ## `spt_join_argv` -/

/-- What stands in front of a string. -/
def blank (first : Bool) : List UInt8 := if first then [] else [32]

/-- The strings with a blank in front of each, but not of the `first` one. -/
def spaced (first : Bool) : List (List UInt8) → List UInt8
  | [] => []
  | s :: ss => blank first ++ (s ++ spaced false ss)

theorem zero_not_mem_spaced {m : Memory Unit} : ∀ {ps : List Nat} {ss : List (List UInt8)}
    {first : Bool}, List.Forall₂ m.StrAt ps ss → 0 ∉ spaced first ss
  | _, _, _, .nil => List.not_mem_nil
  | _, s :: ss, first, .cons hp hps => by
    have hblank : 0 ∉ blank first := by cases first <;> decide
    rw [spaced, List.mem_append, List.mem_append, not_or, not_or]
    exact ⟨hblank, hp.noNul, zero_not_mem_spaced hps⟩

theorem joinNeed_spec {m : Memory Unit} : ∀ {ps : List Nat} {ss : List (List UInt8)},
    List.Forall₂ m.StrAt ps ss → ∀ (first : Bool) (need : Nat),
    joinNeed m first need ps = some (need + (spaced first ss).length)
  | _, _, .nil, _, _ => rfl
  | p :: ps, s :: ss, .cons hp hps, first, need => by
    rw [joinNeed, hp.strlen, Option.bind_eq_bind, Option.bind_some, joinNeed_spec hps, spaced,
      List.length_append, List.length_append]
    cases first with
    | true => simp [blank, Nat.add_assoc]
    | false =>
      simp only [blank, Bool.false_eq_true, if_false, List.length_singleton]
      congr 1
      omega

theorem joinWrite_spec {m₀ : Memory Unit} {out n : Nat} : ∀ {ps : List Nat}
    {ss : List (List UInt8)} {m : Memory Unit} {first : Bool} {off : Nat},
    List.Forall₂ m₀.StrAt ps ss → Gives m₀ m out n → off + (spaced first ss).length ≤ n →
    joinWrite m out first off ps =
      some (m.write (out + off) (spaced first ss), off + (spaced first ss).length)
  | _, _, _, _, _, .nil, _, _ => rfl
  | p :: ps, s :: ss, m, first, off, .cons hp hps, hg, hn => by
    rw [spaced, List.length_append, List.length_append] at hn
    have hblank : (if first then some (m, off)
        else (m.store 0 (out + off) 32).map fun m => (m, off + 1)) =
        some (m.write (out + off) (blank first), off + (blank first).length) := by
      cases first with
      | true => rfl
      | false =>
        have hlen : (blank false).length = 1 := rfl
        rw [if_neg Bool.false_ne_true,
          Memory.store_alive (hg.live _ (Nat.le_add_right out off) (by omega))]
        rfl
    have hg₁ := hg.write (p := out + off) (blank first) (by omega) (by omega)
    have hg₂ := hg₁.write (p := out + off + (blank first).length) s (by omega) (by omega)
    have hstr := hp.keep_nowhere hg.keeps
    have hstr₁ := hp.keep_nowhere hg₁.keeps
    have hstore : (m.write (out + off) (blank first)).stores 0 (out + (off + (blank first).length))
        s = some _ := Memory.stores_live (hg₁.live.mono (by omega) (by omega))
    rw [joinWrite, hstr.strlen, Option.bind_eq_bind, Option.bind_some, hblank, Option.bind_eq_bind,
      Option.bind_some]
    dsimp only
    rw [hstr₁.loads, Option.bind_eq_bind, Option.bind_some, hstore, Option.bind_eq_bind,
      Option.bind_some, joinWrite_spec hps (Nat.add_assoc out off _ ▸ hg₂) (by omega), spaced,
      Memory.write_append, Memory.write_append, List.length_append, List.length_append]
    simp only [Nat.add_assoc]

theorem sptJoinArgv_spec (O : Outside) {argv : Nat} {argc : Int} {slots : List Nat}
    (hargv : argv ≠ 0) (hargc : ¬ argc ≤ 0) (hslots : s.arrays.heap.get argv = some slots)
    (hps : upTo argc.toNat slots = some ps) (h : List.Forall₂ s.mem.StrAt ps ss) :
    ∃ r, sptJoinArgv O s argv argc = some ({ s with mem := r.1 }, r.2) ∧
      NewStr s.mem (spaced true ss) r := by
  have h0 : 0 ∉ spaced true ss := zero_not_mem_spaced h
  unfold sptJoinArgv
  rw [if_neg fun hor => hor.elim hargv hargc, hslots, Option.bind_eq_bind, Option.bind_some, hps,
    Option.bind_eq_bind, Option.bind_some, joinNeed_spec h, Option.bind_eq_bind, Option.bind_some]
  obtain ⟨m, hm, hblocks, hbyte⟩ | ⟨m, out, hm, hg⟩ :=
    Memory.malloc_cases O.place O.fails s.mem (1 + (spaced true ss).length)
  · rw [hm]
    exact ⟨(m, 0), rfl, .inl ⟨rfl, hblocks, hbyte⟩⟩
  · have hg₁ := hg.write (p := out + 0) (spaced true ss) (by omega) (by omega)
    have hstore := Memory.store_alive (hg₁.live (out + (0 + (spaced true ss).length)) (by omega)
      (by omega)) 0
    have hwrite : ((m.write (out + 0) (spaced true ss)).put (out + (0 + (spaced true ss).length))
        0) = m.write out (spaced true ss ++ [0]) := by
      rw [Memory.write_append, Nat.zero_add, Nat.add_zero]
      rfl
    have hlen : (spaced true ss ++ [0]).length = (spaced true ss).length + 1 := by simp
    rw [hm]
    dsimp only
    rw [if_neg hg.ne_null, joinWrite_spec h hg (by omega), Option.bind_eq_bind, Option.bind_some]
    dsimp only
    rw [hstore, Option.bind_some, hwrite]
    rw [Nat.add_comm 1] at hg
    exact ⟨(_, out), rfl, .inr ⟨hg.write _ (Nat.le_refl out) (by omega), StrAt.of_write h0 hg.live⟩⟩

end Librecompat.Setproctitle
