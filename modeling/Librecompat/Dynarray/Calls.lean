/-
  What each operation does to an array that holds a list.

  There is one lemma for each operation that may have to allocate (`add_spec`, `emplace_spec`,
  `resize_spec`, `finalize_spec`): either the array holds the new list, or it is as a failed
  allocation leaves it. The other operations always go through.
-/
import Librecompat.Dynarray.Grow

namespace Librecompat.Dynarray

open Librecompat.Lib

variable {A : Allocator (List UInt8)} {P : Params} {h₀ : Heap (List UInt8)} {G : List Nat}
  {s s' : State} {L : List P.Element}

/-! ## Elements -/

/-- Writing elements over as many bytes behind `a`. -/
theorem poke_flat (b : Base P h₀ G s) (a new : List P.Element) {old rest : List UInt8}
    (hblock : s.block = some (flat a ++ old ++ rest))
    (hold : old.length = new.length * P.elementSize) :
    ∃ s', s.poke (a.length * P.elementSize) (flat new) = some s' ∧ Base P h₀ G s' ∧
      Wrote G s s' (flat (a ++ new) ++ rest) :=
  poke_spec b hblock (writeAt_cells a new hold)

/-- Some elements are replaced. -/
theorem poke_holds (a new old c : List P.Element) (h : Holds P h₀ G s (a ++ old ++ c))
    (hlen : new.length = old.length) (hne : old ≠ []) :
    ∃ s', s.poke (a.length * P.elementSize) (flat new) = some s' ∧
      Holds P h₀ G s' (a ++ new ++ c) ∧ Kept G s s' ∧ s'.log = s.log := by
  obtain ⟨rest, hbacked, hsize⟩ := h.contents
  have hpos : 0 < (flat (a ++ old ++ c) ++ rest).length := by
    have hold := List.length_pos_iff.mpr hne
    have hmul := Nat.mul_pos hold P.elementSize_pos
    simp only [flat_append, List.length_append, length_flat]
    omega
  have hblock := block_of_backed hbacked hpos
  have hsplit : flat (a ++ old ++ c) ++ rest = flat a ++ flat old ++ (flat c ++ rest) := by simp
  rw [hsplit] at hblock hsize
  obtain ⟨s', hpoke, hb, hw⟩ := poke_flat h.toBase a new hblock (by rw [length_flat, hlen])
  refine ⟨s', hpoke, ⟨hb, ?_, ?_, ?_, rest, .inl ?_, ?_⟩, hw.toKept, hw.sameLog⟩
  · rw [hw.used, h.used]
    simp only [List.length_append, hlen]
  · rw [hw.allocated]
    exact h.bound
  · rw [hw.array]
    exact h.array
  · rw [hw.block]
    simp
  · rw [hw.allocated, ← hsize]
    simp [hlen]

/-- With more of the room in use, the list is longer by whatever is there. -/
theorem Holds.extend (h : Holds P h₀ G s L) {k : Nat} (hk : L.length ≤ k) (hroom : k ≤ s.allocated) :
    ∃ new, new.length = k - L.length ∧ Holds P h₀ G { s with used := k } (L ++ new) := by
  obtain ⟨rest, hbacked, hsize⟩ := h.contents
  have hmul := Nat.mul_le_mul_right P.elementSize hroom
  have hsub : (k - L.length) * P.elementSize = k * P.elementSize - L.length * P.elementSize :=
    Nat.sub_mul ..
  have hrest : (rest.take ((k - L.length) * P.elementSize)).length =
      (k - L.length) * P.elementSize := by
    rw [List.length_append, length_flat] at hsize
    rw [List.length_take]
    omega
  obtain ⟨new, hnew, hflat⟩ := exists_flat hrest
  have heq : flat (L ++ new) ++ rest.drop ((k - L.length) * P.elementSize) = flat L ++ rest := by
    rw [flat_append, hflat, List.append_assoc, List.take_append_drop]
  refine ⟨new, hnew, h.toBase.congr rfl rfl rfl h.exact, ?_, h.bound, h.array,
    rest.drop ((k - L.length) * P.elementSize), ?_, ?_⟩
  · rw [List.length_append, hnew]
    exact (Nat.add_sub_cancel' hk).symm
  · rw [heq]
    exact hbacked
  · rw [heq]
    exact hsize

/-- With less of it in use, the list is shorter; the elements taken off were freed. -/
theorem Holds.shorten {n : Nat} (h : Holds P h₀ G s L) (hn : n ≤ L.length) {evs : List Event}
    (hevs : ∀ e ∈ evs, e.Exact ∧ e.failed = false) :
    Holds P h₀ G { s with used := n, log := s.log ++ evs } (L.take n) := by
  obtain ⟨rest, hbacked, hsize⟩ := h.contents
  have heq : flat (L.take n) ++ (flat (L.drop n) ++ rest) = flat L ++ rest := by
    rw [← List.append_assoc, ← flat_append, List.take_append_drop]
  refine ⟨h.toBase.congr rfl rfl rfl fun e he => ?_, (List.length_take_of_le hn).symm, h.bound,
    h.array, flat (L.drop n) ++ rest, ?_, ?_⟩
  · exact (List.mem_append.mp he).elim (h.exact e) fun hm => (hevs e hm).1
  · rw [heq]
    exact hbacked
  · rw [heq]
    exact hsize

theorem kept_log (G : List Nat) (s : State) (n : Nat) (evs : List Event) :
    Kept G s { s with used := n, log := s.log ++ evs } :=
  ⟨fun _ _ => rfl, List.prefix_append _ _⟩

theorem quiet_log {n : Nat} {evs : List Event} (hevs : ∀ e ∈ evs, e.Exact ∧ e.failed = false)
    (hq : s.Quiet) : State.Quiet { s with used := n, log := s.log ++ evs } :=
  fun e he => (List.mem_append.mp he).elim (hq e) fun hm => (hevs e hm).2

/-! ## Adding -/

/-- An element is stored behind the last one. -/
theorem poke_last (h : Holds P h₀ G s L) (hroom : s.used < s.allocated) (item : P.Element) :
    ∃ s₁, s.poke (s.used * P.elementSize) item.1 = some s₁ ∧ s₁.used = s.used ∧
      Holds P h₀ G { s₁ with used := s.used + 1 } (L ++ [item]) ∧ Kept G s s₁ ∧
      s₁.log = s.log := by
  have hused := h.used
  obtain ⟨new, hnew, hext⟩ := h.extend (Nat.le_succ _) (k := L.length + 1) (by omega)
  obtain ⟨e, rfl⟩ := List.length_eq_one_iff.mp (hnew.trans (by omega))
  obtain ⟨rest, hbacked, hsize⟩ := hext.contents
  have hpos : 0 < (flat (L ++ [e]) ++ rest).length := by
    have := P.elementSize_pos
    simp only [flat_append, flat_singleton, List.length_append, e.2]
    omega
  have hblock : s.block = some (flat L ++ e.1 ++ rest) := by
    have hsome := block_of_backed hbacked hpos
    rw [flat_append, flat_singleton] at hsome
    exact hsome
  obtain ⟨s₁, hpoke, hb, hw⟩ := poke_flat h.toBase L [item] hblock (by simp [e.2])
  rw [flat_singleton, ← hused] at hpoke
  refine ⟨s₁, hpoke, hw.used, ⟨hb.congr rfl rfl rfl hb.exact, ?_, ?_, ?_, rest, .inl hw.block, ?_⟩,
    hw.toKept, hw.sameLog⟩
  · simp [hused]
  · show s₁.allocated * _ < _
    rw [hw.allocated]
    exact h.bound
  · show s₁.array = _ ∨ ∃ p, s₁.array = _
    rw [hw.array]
    exact h.array
  · show _ = s₁.allocated * _
    rw [hw.allocated, ← hsize]
    simp [item.2, e.2]

theorem push_spec (h : Holds P h₀ G s L) (hroom : s.used < s.allocated) (item : P.Element) :
    ∃ s', push P item s = some s' ∧ Holds P h₀ G s' (L ++ [item]) ∧ Kept G s s' ∧
      s'.log = s.log := by
  obtain ⟨s₁, hpoke, hused, hheld, hkept, hlog⟩ := poke_last h hroom item
  rw [← hused] at hheld
  exact ⟨_, congrArg (Option.map _) hpoke, hheld, ⟨hkept.blocks, hkept.log⟩, hlog⟩

/-- The new element of `emplace` is what new elements are set to, or whatever is there. -/
theorem emplaceTail_spec (h : Holds P h₀ G s L) (hroom : s.used < s.allocated) :
    ∃ s' e, emplaceTail P s = some (s', L.length) ∧ Holds P h₀ G s' (L ++ [e]) ∧
      (∀ f, P.fill = some f → e = f) ∧ Kept G s s' ∧ s'.log = s.log := by
  have hused := h.used
  unfold emplaceTail
  cases hfill : P.fill with
  | some f =>
    obtain ⟨s₁, hpoke, hsame, hheld, hkept, hlog⟩ := poke_last h hroom f
    refine ⟨_, f, ?_, hheld, fun f' hf' => Option.some.inj hf', ⟨hkept.blocks, hkept.log⟩, hlog⟩
    rw [← hused]
    exact congrArg (Option.map _) hpoke
  | none =>
    obtain ⟨new, hnew, hext⟩ := h.extend (Nat.le_succ _) (k := L.length + 1) (by omega)
    obtain ⟨e, rfl⟩ := List.length_eq_one_iff.mp (hnew.trans (by omega))
    rw [← hused] at hext
    exact ⟨_, e, by rw [← hused], hext, fun f hf => absurd hf nofun,
      ⟨fun _ _ => rfl, List.prefix_refl _⟩, rfl⟩

/-- What `add`, `emplace` and `resize` leave when they fail. -/
structure FailedBy (P : Params) (h₀ : Heap (List UInt8)) (G : List Nat) (s s' : State) : Prop extends
    Marked P h₀ G s', Kept G s s' where
  zero : s'.used = 0
  loud : ¬s'.Quiet

theorem markFailed_after {s₁ : State} (h : Holds P h₀ G s₁ L) (hk : Kept G s s₁) (hq : ¬s₁.Quiet) :
    ∃ s', markFailed P s₁ = some s' ∧ FailedBy P h₀ G s s' := by
  obtain ⟨s', hcall, hmarked, hzero, hkept⟩ := markFailed_spec h
  exact ⟨s', hcall, hmarked, hk.trans hkept, hzero, not_quiet_mono hkept.log hq⟩

theorem add_spec (h : Holds P h₀ G s L) (item : P.Element) :
    ∃ s', add A P item s = some s' ∧
      (Holds P h₀ G s' (L ++ [item]) ∧ Kept G s s' ∧ (s.Quiet → s'.Quiet) ∨
        FailedBy P h₀ G s s') := by
  unfold add
  rw [if_neg (by rw [h.not_failed]; nofun)]
  split
  · next hfull =>
    unfold addSlow
    obtain ⟨s₁, ok, hcall, hheld, hkept, hok⟩ := emplaceEnlarge_spec (A := A) h hfull
    rw [hcall, Option.bind_eq_bind, Option.bind_some]
    dsimp only
    rcases hok with ⟨rfl, hroom, hquiet⟩ | ⟨rfl, hquiet⟩
    · obtain ⟨s', hpush, hheld', hkept', hlog⟩ := push_spec hheld hroom item
      exact ⟨s', hpush, .inl ⟨hheld', hkept.trans hkept', fun hq =>
        quiet_of_log hlog (hquiet hq)⟩⟩
    · obtain ⟨s', hmark, hfailed⟩ := markFailed_after hheld hkept hquiet
      exact ⟨s', hmark, .inr hfailed⟩
  · next hroom =>
    obtain ⟨s', hpush, hheld', hkept', hlog⟩ :=
      push_spec h (Nat.lt_of_le_of_ne h.le_allocated hroom) item
    exact ⟨s', hpush, .inl ⟨hheld', hkept', quiet_of_log hlog⟩⟩

theorem emplace_spec (h : Holds P h₀ G s L) :
    ∃ s' i, emplace A P s = some (s', i) ∧
      (i = some L.length ∧ (∃ e, Holds P h₀ G s' (L ++ [e]) ∧ ∀ f, P.fill = some f → e = f) ∧
          Kept G s s' ∧ (s.Quiet → s'.Quiet) ∨
        i = none ∧ FailedBy P h₀ G s s') := by
  unfold emplace
  rw [if_neg (by rw [h.not_failed]; nofun)]
  split
  · next hfull =>
    unfold emplaceSlow
    obtain ⟨s₁, ok, hcall, hheld, hkept, hok⟩ := emplaceEnlarge_spec (A := A) h hfull
    rw [hcall, Option.bind_eq_bind, Option.bind_some]
    dsimp only
    rcases hok with ⟨rfl, hroom, hquiet⟩ | ⟨rfl, hquiet⟩
    · obtain ⟨s', e, htail, hheld', hfill, hkept', hlog⟩ := emplaceTail_spec hheld hroom
      exact ⟨s', _, congrArg (Option.map _) htail, .inl ⟨rfl, ⟨e, hheld', hfill⟩,
        hkept.trans hkept', fun hq => quiet_of_log hlog (hquiet hq)⟩⟩
    · obtain ⟨s', hmark, hfailed⟩ := markFailed_after hheld hkept hquiet
      exact ⟨s', none, congrArg (Option.map _) hmark, .inr ⟨rfl, hfailed⟩⟩
  · next hroom =>
    obtain ⟨s', e, htail, hheld', hfill, hkept', hlog⟩ :=
      emplaceTail_spec h (Nat.lt_of_le_of_ne h.le_allocated hroom)
    exact ⟨s', _, congrArg (Option.map _) htail, .inl ⟨rfl, ⟨e, hheld', hfill⟩, hkept',
      quiet_of_log hlog⟩⟩

/-! ## Resizing -/

theorem libcResize_spec (h : Holds P h₀ G s L) {k : Nat} (hk : L.length ≤ k) :
    ∃ s' ok, libcResize A P k s = some (s', ok) ∧ Kept G s s' ∧
      (ok = true ∧ (∃ new, new.length = k - L.length ∧ Holds P h₀ G s' (L ++ new)) ∧
          (s.Quiet → s'.Quiet) ∨
        ok = false ∧ Holds P h₀ G s' L ∧ ¬s'.Quiet) := by
  unfold libcResize
  split
  · next hroom =>
    obtain ⟨new, hnew, hext⟩ := h.extend hk hroom
    exact ⟨_, true, rfl, ⟨fun _ _ => rfl, List.prefix_refl _⟩, .inl ⟨rfl, ⟨new, hnew, hext⟩, id⟩⟩
  · obtain ⟨s₁, ok, hcall, hheld, hkept, hok⟩ := enlarge_spec (A := A) h hk
    rw [hcall, Option.map_some]
    dsimp only
    rcases hok with ⟨rfl, halloc, hquiet⟩ | ⟨rfl, hquiet⟩
    · obtain ⟨new, hnew, hext⟩ := hheld.extend hk (Nat.le_of_eq halloc.symm)
      exact ⟨_, true, rfl, ⟨hkept.blocks, hkept.log⟩, .inl ⟨rfl, ⟨new, hnew, hext⟩, hquiet⟩⟩
    · exact ⟨s₁, false, rfl, hkept, .inr ⟨rfl, hheld, hquiet⟩⟩

/-- The new elements are set to `e`, one after the other. -/
theorem initLoop_spec (e : P.Element) : ∀ (old a : List P.Element) {s : State},
    Holds P h₀ G s (a ++ old) →
    ∃ s', initLoop P e a.length old.length s = some s' ∧
      Holds P h₀ G s' (a ++ List.replicate old.length e) ∧ Kept G s s' ∧ s'.log = s.log
  | [], a, s, h => ⟨s, rfl, h, Kept.refl G s, rfl⟩
  | o :: old, a, s, h => by
    obtain ⟨s₁, hpoke, hheld, hkept, hlog⟩ := poke_holds a [e] [o] old
      (by rw [List.append_assoc]; exact h) rfl (List.cons_ne_nil o [])
    obtain ⟨s', hloop, hheld', hkept', hlog'⟩ := initLoop_spec e old (a ++ [e]) hheld
    rw [flat_singleton] at hpoke
    rw [List.length_append, List.length_singleton] at hloop
    refine ⟨s', ?_, ?_, hkept.trans hkept', hlog'.trans hlog⟩
    · rw [List.length_cons, initLoop, hpoke, Option.bind_eq_bind, Option.bind_some, hloop]
    · rw [List.length_cons, List.replicate_succ]
      simpa using hheld'

/-- The part of the array that is cleared has the size it is meant to have. -/
theorem Holds.mulSize_sub (h : Holds P h₀ G s L) {n : Nat} (hn : n ≤ L.length) :
    mulSize n P.elementSize = n * P.elementSize := by
  have hle := Nat.mul_le_mul_right P.elementSize (h.used ▸ h.le_allocated)
  have hmul := Nat.mul_le_mul_right P.elementSize hn
  have hlt := h.bound
  exact Nat.mod_eq_of_lt (by omega)

/-- What `resize` to a larger size does: new elements that are set to what they should be set to. -/
def Grown (P : Params) (h₀ : Heap (List UInt8)) (G : List Nat) (k : Nat) (L : List P.Element)
    (s' : State) : Prop :=
  ∃ new, new.length = k - L.length ∧ (∀ f, P.fill = some f → ∀ e ∈ new, e = f) ∧
    Holds P h₀ G s' (L ++ new)

theorem resizeUp_spec (h : Holds P h₀ G s L) {k : Nat} (hk : L.length < k) (hlt : k < 2 ^ 64) :
    ∃ s' ok, resizeUp A P k s = some (s', ok) ∧ Kept G s s' ∧
      (ok = true ∧ Grown P h₀ G k L s' ∧ (s.Quiet → s'.Quiet) ∨
        ok = false ∧ Holds P h₀ G s' L ∧ ¬s'.Quiet) := by
  obtain ⟨s₁, ok, hcall, hkept, hok⟩ := libcResize_spec (A := A) h (Nat.le_of_lt hk)
  have hused := h.used
  unfold resizeUp
  cases hinit : P.elementInit with
  | some f =>
    dsimp only
    rw [hcall, Option.bind_eq_bind, Option.bind_some]
    dsimp only
    rcases hok with ⟨rfl, ⟨new, hnew, hheld⟩, hquiet⟩ | ⟨rfl, hfail⟩
    · obtain ⟨s', hloop, hheld', hkept', hlog⟩ := initLoop_spec f new L hheld
      rw [hnew, ← hused] at hloop
      refine ⟨s', true, congrArg (Option.map _) hloop, hkept.trans hkept', .inl ⟨rfl,
        ⟨_, ?_, fun f' hf' e he => ?_, hheld'⟩, fun hq => quiet_of_log hlog (hquiet hq)⟩⟩
      · rw [List.length_replicate, hnew]
      · rw [Params.fill, hinit] at hf'
        rw [List.eq_of_mem_replicate he, Option.some.inj hf']
    · exact ⟨s₁, false, rfl, hkept, .inr ⟨rfl, hfail⟩⟩
  | none =>
    dsimp only
    split
    · next hfree =>
      unfold libcResizeClear
      rw [hcall, Option.bind_eq_bind, Option.bind_some]
      dsimp only
      rcases hok with ⟨rfl, ⟨new, hnew, hheld⟩, hquiet⟩ | ⟨rfl, hfail⟩
      · have hold := hheld.mulSize_sub (n := L.length) (by simp)
        have hsub : subSize k s.used = k - L.length := by rw [hused, subSize_of_le (Nat.le_of_lt hk)]
        have hclear := hheld.mulSize_sub (n := k - L.length) (by rw [List.length_append]; omega)
        obtain ⟨s', hpoke, hheld', hkept', hlog⟩ :=
          poke_holds L (List.replicate (k - L.length) (Cell.zero _)) new []
            (by rw [List.append_nil]; exact hheld) (by rw [List.length_replicate, hnew])
            (List.ne_nil_of_length_pos (by omega))
        rw [flat_replicate_zero] at hpoke
        rw [List.append_nil] at hheld'
        refine ⟨s', true, ?_, hkept.trans hkept', .inl ⟨rfl, ⟨_, List.length_replicate,
          fun f' hf' e he => ?_, hheld'⟩, fun hq => quiet_of_log hlog (hquiet hq)⟩⟩
        · rw [if_pos rfl, hsub, hclear, hused, hold, hpoke]
          rfl
        · rw [Params.fill, hinit] at hf'
          dsimp only at hf'
          rw [if_pos hfree] at hf'
          rw [List.eq_of_mem_replicate he, Option.some.inj hf']
      · exact ⟨s₁, false, rfl, hkept, .inr ⟨rfl, hfail⟩⟩
    · next hfree =>
      refine ⟨s₁, ok, hcall, hkept, hok.imp (fun ⟨htrue, ⟨new, hnew, hheld⟩, hquiet⟩ => ?_) id⟩
      refine ⟨htrue, ⟨new, hnew, fun f' hf' => ?_, hheld⟩, hquiet⟩
      rw [Params.fill, hinit] at hf'
      dsimp only at hf'
      rw [if_neg hfree] at hf'
      exact absurd hf' nofun

/-- The list after `resize`. -/
def Resized (P : Params) (k : Nat) (L L' : List P.Element) : Prop :=
  ∃ new, L' = L.take k ++ new ∧ new.length = k - L.length ∧
    ∀ f, P.fill = some f → ∀ e ∈ new, e = f

theorem resize_spec (h : Holds P h₀ G s L) (size : UInt64) :
    ∃ s' ok, resize A P size s = some (s', ok) ∧
      (ok = true ∧ (∃ L', Resized P size.toNat L L' ∧ Holds P h₀ G s' L') ∧ Kept G s s' ∧
          (s.Quiet → s'.Quiet) ∨
        ok = false ∧ FailedBy P h₀ G s s') := by
  have hused := h.used
  unfold resize
  split
  · next hup =>
    obtain ⟨s₁, ok, hcall, hkept, hok⟩ :=
      resizeUp_spec (A := A) h (show L.length < size.toNat by omega) size.toNat_lt
    rw [hcall, Option.bind_eq_bind, Option.bind_some]
    dsimp only
    rcases hok with ⟨rfl, ⟨new, hnew, hfill, hheld⟩, hquiet⟩ | ⟨rfl, hheld, hquiet⟩
    · refine ⟨s₁, true, rfl, .inl ⟨rfl, ⟨L ++ new, ⟨new, ?_, hnew, hfill⟩, hheld⟩, hkept, hquiet⟩⟩
      rw [List.take_of_length_le (by omega)]
    · obtain ⟨s', hmark, hfailed⟩ := markFailed_after hheld hkept hquiet
      exact ⟨s', false, congrArg (Option.map _) hmark, .inr ⟨rfl, hfailed⟩⟩
  · next hdown =>
    obtain ⟨evs, hfree, hevs⟩ := freeElements_spec h size.toNat (s.used - size.toNat) (by omega)
    have hheld := h.shorten (n := size.toNat) (by omega) hevs
    refine ⟨_, true, congrArg (Option.map _) hfree, .inl ⟨rfl, ⟨_, ⟨[], ?_, ?_, ?_⟩, hheld⟩,
      kept_log G s _ evs, quiet_log hevs⟩⟩
    · rw [List.append_nil]
    · show 0 = _
      omega
    · exact fun f _ e he => absurd he List.not_mem_nil

/-! ## Taking elements off -/

theorem removeLast_spec (h : Holds P h₀ G s L) :
    ∃ s', removeLast P s = some s' ∧ Holds P h₀ G s' L.dropLast ∧ Kept G s s' ∧
      (s.Quiet → s'.Quiet) := by
  have hused := h.used
  unfold removeLast
  split
  · next hpos =>
    obtain ⟨evs, hfree, hevs⟩ := freeElements_spec h (s.used - 1) 1 (by omega)
    have hheld := h.shorten (n := s.used - 1) (by omega) hevs
    rw [hused, ← List.dropLast_eq_take] at hheld
    rw [← hused] at hheld
    exact ⟨_, congrArg (Option.map _) hfree, hheld, kept_log G s _ evs, quiet_log hevs⟩
  · next hzero =>
    have hnil : L = [] := List.length_eq_zero_iff.mp (by omega)
    exact ⟨s, rfl, by rw [hnil] at h ⊢; exact h, Kept.refl G s, id⟩

theorem clear_spec (h : Holds P h₀ G s L) :
    ∃ s', clear P s = some s' ∧ Holds P h₀ G s' [] ∧ Kept G s s' ∧ (s.Quiet → s'.Quiet) := by
  obtain ⟨evs, hfree, hevs⟩ := freeElements_spec h 0 s.used (by rw [h.used]; omega)
  exact ⟨_, congrArg (Option.map _) hfree, h.shorten (Nat.zero_le _) hevs, kept_log G s 0 evs,
    quiet_log hevs⟩

/-! ## Handing the array over -/

/-- The result of `finalize` is a block with the elements of `L`, or `NULL` if there are none. -/
def Handed (m : Mem (List UInt8)) (L : List P.Element) (res : Nat × Nat) : Prop :=
  res.2 = L.length ∧ (L = [] ∧ res.1 = 0 ∨ res.1 ≠ 0 ∧ m.heap.get res.1 = some (flat L))

theorem finalize_spec (h : Holds P h₀ G s L) :
    ∃ s' r, finalize A P s = some (s', r) ∧ Fresh P s' ∧ Kept G s s' ∧
      ((∃ res, r = some res ∧ Handed s'.mem L res ∧ Holds P h₀ (ptrs [res.1] ++ G) s' [] ∧
          (s.Quiet → s'.Quiet)) ∨
        r = none ∧ Holds P h₀ G s' [] ∧ ¬s'.Quiet) := by
  have hused := h.used
  unfold finalize libcFinalize
  rw [if_neg (by rw [h.not_failed]; nofun)]
  split
  · next h0 =>
    have hnil : L = [] := List.length_eq_zero_iff.mp (by omega)
    obtain ⟨m, hfree, hm⟩ := freeOther_spec h.toBase h.array
    have hfresh := init_fresh P { s with mem := m }
    rw [hfree]
    refine ⟨_, _, rfl, hfresh, ⟨hm.kept, List.prefix_refl _⟩,
      .inl ⟨(0, 0), rfl, ⟨by rw [hnil]; rfl, .inl ⟨hnil, rfl⟩⟩, ?_, id⟩⟩
    exact hfresh.holds h.scratch h.exact hm.owned
  · next hpos =>
    have hsize : mulSize s.used P.elementSize = s.used * P.elementSize := by
      rw [h.mulSize_used, hused]
    obtain ⟨n, hn⟩ : ∃ n, n = s.used * P.elementSize := ⟨_, rfl⟩
    have hn' : n = L.length * P.elementSize := by rw [hn, hused]
    dsimp only
    rw [hsize, ← hn]
    cases hm : mallocBytes A s.mem n with
    | mk m p =>
    dsimp only
    by_cases hp : p = 0
    · subst hp
      have hsame : m.heap = s.mem.heap := (mallocBytes_owned hm).1.heap_eq
      have hheld := h.refused hsame (e := .alloc n n false) rfl
      obtain ⟨s', hfree, hfresh, hheld', hkept, -⟩ := freeList_spec hheld
      refine ⟨s', none, congrArg (Option.map _) hfree, hfresh,
        ⟨fun a ha => (hkept.blocks a ha).trans ?_, (log_note s _).trans hkept.log⟩,
        .inr ⟨rfl, hheld', not_quiet_mono hkept.log (not_quiet_note rfl)⟩⟩
      show m.heap.get a = _
      rw [hsame]
    · obtain ⟨m', evs, rest, hcopy, hevs, ho, hget, hlen⟩ :=
        malloc_copy h hm hp (Nat.le_of_eq hn'.symm) (.alloc n n (p ≠ 0))
      have hrest : rest = [] := by
        rw [List.length_append, length_flat] at hlen
        exact List.length_eq_zero_iff.mp (by omega)
      rw [hrest, List.append_nil] at hget
      obtain ⟨log, hlog⟩ : ∃ log, log = s.log ++ Event.alloc n n (p ≠ 0) :: evs := ⟨_, rfl⟩
      rw [← hlog] at hcopy
      have hall : ∀ e ∈ log, (e.Exact) ∧ (s.Quiet → e.failed = false) := by
        intro e he
        rw [hlog] at he
        rcases List.mem_append.mp he with hmem | hmem
        · exact ⟨h.exact e hmem, fun hq => hq e hmem⟩
        · rcases List.mem_cons.mp hmem with rfl | hmem
          · exact ⟨rfl, fun _ => by simp [Event.failed, hp]⟩
          · exact ⟨(hevs e hmem).1, fun _ => (hevs e hmem).2⟩
      have hheap : Owned h₀ m'.heap (s.array.blocks ++ (p :: G)) := by
        refine (h.owned.trans ho).perm ?_
        rw [List.append_assoc]
        exact List.Perm.append_left _ List.perm_append_comm
      have hb : Base P h₀ (p :: G) { s with mem := m', log := log } :=
        ⟨h.scratch, fun e he => (hall e he).1, hheap⟩
      obtain ⟨m₂, hfree, hfreed⟩ := freeOther_spec hb h.array
      have hfresh := init_fresh P { s with mem := m₂, log := log }
      have hnot : ∀ a ∈ G, a ∉ [p] := fun a ha hap => by
        rw [List.mem_singleton.mp hap] at ha
        exact (List.nodup_cons.mp hfreed.owned.nodup).1 ha
      refine ⟨init P { s with mem := m₂, log := log }, some (p, s.used), ?_, hfresh,
        ⟨fun a ha => (hfreed.kept a (List.mem_cons_of_mem p ha)).trans (ho.frame a (hnot a ha)), ?_⟩,
        .inl ⟨(p, s.used), rfl, ⟨hused, .inr ⟨hp, ?_⟩⟩, ?_, fun hq e he => (hall e he).2 hq⟩⟩
      · simp only [if_pos hp, hcopy, hfree, Option.bind_eq_bind, Option.bind_some]
        rfl
      · show s.log <+: log
        rw [hlog]
        exact List.prefix_append _ _
      · exact (hfreed.kept p List.mem_cons_self).trans hget
      · rw [ptrs_cons_nil hp]
        exact hfresh.holds h.scratch (fun e he => (hall e he).1) hfreed.owned

end Librecompat.Dynarray
