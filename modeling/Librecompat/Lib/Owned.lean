/-
  Which blocks a piece of code has allocated and not yet freed.

  `Owned h₀ h L` says that `h` is `h₀` with the blocks `L` added, each once, and nothing else
  changed. `Owned.trans` puts two such pieces together, so a function is specified by the blocks
  it adds to the heap it was called with (`malloc_owned`), and `Owned.free`, `freeAll_owned` take
  blocks off again; with none left the heap is the old one (`Owned.heap_eq`).

  An array that grows by `realloc` starts out as the null pointer; `ArrayAt mk h p cells` covers
  both, and `realloc_array` is the one lemma about growing it.
-/
import Librecompat.Lib.Heap

namespace Librecompat.Lib

variable {β : Type} {h₀ h h' : Heap β} {L L' : List Nat}

/-- `h` is `h₀` and the blocks `L`. -/
structure Owned (h₀ h : Heap β) (L : List Nat) : Prop where
  nodup : L.Nodup
  fresh : ∀ a ∈ L, a ≠ 0 ∧ h₀.get a = none ∧ ∃ b, h.get a = some b
  frame : ∀ a, a ∉ L → h.get a = h₀.get a

/-- The pointers that are not null. -/
def ptrs (ps : List Nat) : List Nat := ps.filter (· ≠ 0)

@[simp] theorem ptrs_nil : ptrs [] = [] := rfl

@[simp] theorem ptrs_zero (ps : List Nat) : ptrs (0 :: ps) = ptrs ps := rfl

theorem ptrs_cons {p : Nat} (hp : p ≠ 0) (ps : List Nat) : ptrs (p :: ps) = p :: ptrs ps := by
  simp [ptrs, hp]

theorem ptrs_cons_nil {p : Nat} (hp : p ≠ 0) : ptrs [p] = [p] := ptrs_cons hp []

theorem mem_ptrs_self {p : Nat} (hp : p ≠ 0) : p ∈ ptrs [p] := by
  rw [ptrs_cons_nil hp]
  exact List.mem_singleton_self p

theorem ptrs_append (ps qs : List Nat) : ptrs (ps ++ qs) = ptrs ps ++ ptrs qs :=
  List.filter_append ..

theorem ptrs_eq_self {ps : List Nat} (h : ∀ p ∈ ps, p ≠ 0) : ptrs ps = ps :=
  List.filter_eq_self.mpr fun p hp => decide_eq_true (h p hp)

/-! ## Composition -/

theorem Heap.ext_get (heq : ∀ a, h.get a = h'.get a) : h = h' := Finmap.ext_lookup heq

theorem Owned.nil (h : Heap β) : Owned h h [] :=
  ⟨List.nodup_nil, fun _ ha => absurd ha List.not_mem_nil, fun _ _ => rfl⟩

theorem Owned.heap_eq (o : Owned h₀ h []) : h = h₀ :=
  Heap.ext_get fun a => o.frame a List.not_mem_nil

theorem Owned.perm (o : Owned h₀ h L) (hp : L.Perm L') : Owned h₀ h L' :=
  ⟨hp.nodup_iff.mp o.nodup, fun a ha => o.fresh a (hp.mem_iff.mpr ha),
    fun a ha => o.frame a fun hm => ha (hp.mem_iff.mp hm)⟩

theorem Owned.not_mem (o : Owned h₀ h L) {a : Nat} {b : β} (hb : h₀.get a = some b) :
    a ∉ L := by
  intro ha
  rw [(o.fresh a ha).2.1] at hb
  cases hb

/-- A block of `h₀` is still there. -/
theorem Owned.extends (o : Owned h₀ h L) : Extends h₀ h := fun a _ hb =>
  (o.frame a (o.not_mem hb)).trans hb

theorem Owned.trans {h₁ : Heap β} (o : Owned h₀ h₁ L) (o' : Owned h₁ h L') :
    Owned h₀ h (L ++ L') := by
  have hdisj : ∀ a ∈ L, a ∉ L' := fun a ha =>
    let ⟨_, _, _, hb⟩ := o.fresh a ha
    o'.not_mem hb
  refine ⟨List.nodup_append.mpr ⟨o.nodup, o'.nodup, fun a ha c hc heq => hdisj a ha (heq ▸ hc)⟩,
    ?_, ?_⟩
  · intro a ha
    rcases List.mem_append.mp ha with ha | ha
    · obtain ⟨h0, hn, b, hb⟩ := o.fresh a ha
      exact ⟨h0, hn, b, (o'.frame a (hdisj a ha)).trans hb⟩
    · obtain ⟨h0, hn, hb⟩ := o'.fresh a ha
      exact ⟨h0, (o.frame a fun hm => hdisj a hm ha) ▸ hn, hb⟩
  · intro a ha
    rw [List.mem_append, not_or] at ha
    exact (o'.frame a ha.2).trans (o.frame a ha.1)

/-! ## One block -/

theorem Owned.add (o : Owned h₀ h L) {a : Nat} (b : β) (ha : a ≠ 0) (hn : h.get a = none) :
    Owned h₀ (h.set a b) (L ++ [a]) := by
  refine o.trans ⟨List.nodup_singleton a, ?_, ?_⟩
  · intro c hc
    rw [List.mem_singleton.mp hc]
    exact ⟨ha, hn, b, Heap.get_set_self _ _ _⟩
  · intro c hc
    exact Heap.get_set_ne _ _ (List.mem_singleton.not.mp hc)

theorem Owned.set (o : Owned h₀ h L) {a : Nat} (b : β) (ha : a ∈ L) :
    Owned h₀ (h.set a b) L := by
  refine ⟨o.nodup, ?_, ?_⟩
  · intro c hc
    obtain ⟨h0, hn, hb⟩ := o.fresh c hc
    refine ⟨h0, hn, ?_⟩
    by_cases hca : c = a
    · exact ⟨b, hca ▸ Heap.get_set_self _ _ _⟩
    · rw [Heap.get_set_ne _ _ hca]
      exact hb
  · intro c hc
    have hca : c ≠ a := fun hca => hc (hca ▸ ha)
    rw [Heap.get_set_ne _ _ hca]
    exact o.frame c hc

theorem Owned.del {a : Nat} (o : Owned h₀ h (a :: L)) : Owned h₀ (h.del a) L := by
  have hnd := List.nodup_cons.mp o.nodup
  refine ⟨hnd.2, ?_, ?_⟩
  · intro c hc
    have hca : c ≠ a := fun hca => hnd.1 (hca ▸ hc)
    rw [Heap.get_del_ne _ hca]
    exact o.fresh c (List.mem_cons_of_mem a hc)
  · intro c hc
    by_cases hca : c = a
    · rw [hca, Heap.get_del_self]
      exact (o.fresh a List.mem_cons_self).2.1.symm
    · rw [Heap.get_del_ne _ hca]
      exact o.frame c (by simp [hca, hc])

/-- A block that is not owned can be written under the owned ones. -/
theorem Owned.setBase (o : Owned h₀ h L) {a : Nat} (b : β) (ha : a ∉ L) :
    Owned (h₀.set a b) (h.set a b) L := by
  have hne : ∀ c ∈ L, c ≠ a := fun c hc hca => ha (hca ▸ hc)
  refine ⟨o.nodup, ?_, ?_⟩
  · intro c hc
    rw [Heap.get_set_ne _ _ (hne c hc), Heap.get_set_ne _ _ (hne c hc)]
    exact o.fresh c hc
  · intro c hc
    by_cases hca : c = a
    · rw [hca, Heap.get_set_self, Heap.get_set_self]
    · rw [Heap.get_set_ne _ _ hca, Heap.get_set_ne _ _ hca]
      exact o.frame c hc

/-- A block that is not owned can be freed under the owned ones. -/
theorem Owned.delBase (o : Owned h₀ h L) {a : Nat} (ha : a ∉ L) :
    Owned (h₀.del a) (h.del a) L := by
  have hne : ∀ c ∈ L, c ≠ a := fun c hc hca => ha (hca ▸ hc)
  refine ⟨o.nodup, ?_, ?_⟩
  · intro c hc
    rw [Heap.get_del_ne _ (hne c hc), Heap.get_del_ne _ (hne c hc)]
    exact o.fresh c hc
  · intro c hc
    by_cases hca : c = a
    · rw [hca, Heap.get_del_self, Heap.get_del_self]
    · rw [Heap.get_del_ne _ hca, Heap.get_del_ne _ hca]
      exact o.frame c hc

/-- The heap without the blocks `L`. -/
theorem Owned.split : ∀ {L : List Nat} {h : Heap β}, Owned h₀ h (L ++ L') →
    ∃ h₁, Owned h₀ h₁ L' ∧ Owned h₁ h L := by
  intro L
  induction L with
  | nil => exact fun {h} o => ⟨h, o, Owned.nil h⟩
  | cons a L ih =>
    intro h o
    rw [List.cons_append] at o
    obtain ⟨h₁, o₁, o₂⟩ := ih o.del
    have hnd := List.nodup_cons.mp o.nodup
    rw [List.mem_append, not_or] at hnd
    obtain ⟨ha0, han, b, hb⟩ := o.fresh a List.mem_cons_self
    have hne : ∀ c ∈ L, c ≠ a := fun c hc hca => hnd.1.1 (hca ▸ hc)
    refine ⟨h₁, o₁, List.nodup_cons.mpr ⟨hnd.1.1, o₂.nodup⟩, ?_, ?_⟩
    · intro c hc
      rcases List.mem_cons.mp hc with rfl | hc
      · exact ⟨ha0, (o₁.frame c hnd.1.2).trans han, b, hb⟩
      · rw [← Heap.get_del_ne h (hne c hc)]
        exact o₂.fresh c hc
    · intro c hc
      rw [List.mem_cons, not_or] at hc
      rw [← Heap.get_del_ne h hc.1]
      exact o₂.frame c hc.2

/-- Of two pieces, either may be taken for the one that was added last. -/
theorem Owned.swap {h₁ : Heap β} (o : Owned h₀ h₁ L) (o' : Owned h₁ h L') :
    ∃ h₂, Owned h₀ h₂ L' ∧ Owned h₂ h L :=
  (o.trans o').split

/-- The blocks of the first piece are the same before and after the second. -/
theorem Owned.get_eq {h₁ : Heap β} (o : Owned h₀ h₁ L) (o' : Owned h₁ h L') {a : Nat}
    (ha : a ∈ L) : h₁.get a = h.get a := by
  obtain ⟨_, _, b, hb⟩ := o.fresh a ha
  exact (o'.frame a (o'.not_mem hb)).symm

/-! ## The operations -/

theorem malloc_owned {A : Allocator β} {m m' : Mem β} {b : β} {a : Nat}
    (h : malloc A m b = (m', a)) :
    Owned m.heap m'.heap (ptrs [a]) ∧ (a ≠ 0 → m'.heap.get a = some b) := by
  obtain ⟨_, h'⟩ | ⟨_, q, hq, hn, h'⟩ := malloc_cases A m b <;>
    obtain ⟨rfl, rfl⟩ := Prod.mk.inj (h.symm.trans h')
  · exact ⟨Owned.nil _, fun hn => absurd rfl hn⟩
  · rw [ptrs_cons hq]
    exact ⟨(Owned.nil m.heap).add b hq hn, fun _ => Heap.get_set_self _ _ _⟩

theorem Owned.free {m : Mem β} {p : Nat} (o : Owned h₀ m.heap (ptrs [p] ++ L)) :
    ∃ m', Lib.free m p = some m' ∧ Owned h₀ m'.heap L ∧
      ∀ a, a ≠ p → m'.heap.get a = m.heap.get a := by
  by_cases hp : p = 0
  · rw [hp] at o ⊢
    exact ⟨m, free_null m, o, fun _ _ => rfl⟩
  · rw [ptrs_cons hp] at o
    obtain ⟨_, _, b, hb⟩ := o.fresh p List.mem_cons_self
    exact ⟨_, free_live hp hb, o.del, fun a ha => Heap.get_del_ne _ ha⟩

/-- A block that is freed right after it was made leaves nothing behind. -/
theorem free_fresh {h : Heap β} {a : Nat} (b : β) (calls : Nat) (ha : a ≠ 0)
    (hn : h.get a = none) :
    Lib.free { heap := h.set a b, calls := calls } a = some { heap := h, calls := calls } := by
  have o : Owned h (h.set a b) [a] := (Owned.nil h).add b ha hn
  rw [free_live ha (Heap.get_set_self _ _ _)]
  dsimp only
  rw [o.del.heap_eq]

theorem Owned.store {m : Mem β} {p : Nat} {b : β} (o : Owned h₀ m.heap L) (hp : p ∈ L) :
    ∃ m', Lib.store m p b = some m' ∧ Owned h₀ m'.heap L ∧ m'.heap.get p = some b ∧
      ∀ a, a ≠ p → m'.heap.get a = m.heap.get a := by
  obtain ⟨_, _, c, hc⟩ := o.fresh p hp
  exact ⟨_, store_live hc, o.set b hp, Heap.get_set_self _ _ _,
    fun a ha => Heap.get_set_ne _ _ ha⟩

theorem freeAll_owned {ps : List Nat} : ∀ {m : Mem β}, Owned h₀ m.heap (ptrs ps ++ L) →
    ∃ m', freeAll m ps = some m' ∧ Owned h₀ m'.heap L ∧
      ∀ a, a ∉ ps → m'.heap.get a = m.heap.get a := by
  induction ps with
  | nil => exact fun o => ⟨_, rfl, o, fun _ _ => rfl⟩
  | cons p ps ih =>
    intro m o
    have hsplit : ptrs (p :: ps) = ptrs [p] ++ ptrs ps := ptrs_append [p] ps
    rw [hsplit, List.append_assoc] at o
    obtain ⟨m₁, h₁, o₁, hkeep₁⟩ := o.free
    obtain ⟨m₂, h₂, o₂, hkeep₂⟩ := ih o₁
    refine ⟨m₂, by rw [freeAll, h₁, Option.bind_some, h₂], o₂, ?_⟩
    intro a ha
    rw [List.mem_cons, not_or] at ha
    exact (hkeep₂ a ha.2).trans (hkeep₁ a ha.1)

/-! ## Arrays that grow -/

/-- `p` is null and there are no cells, or it is the base of the block with the cells. -/
def ArrayAt {γ : Type} (mk : List γ → β) (h : Heap β) (p : Nat) (cells : List γ) : Prop :=
  (p = 0 ∧ cells = []) ∨ (p ≠ 0 ∧ h.get p = some (mk cells))

theorem ArrayAt.congr {γ : Type} {mk : List γ → β} {p : Nat} {cells : List γ}
    (ha : ArrayAt mk h p cells) (heq : h'.get p = h.get p) : ArrayAt mk h' p cells :=
  ha.imp id fun ⟨hp, hb⟩ => ⟨hp, heq.trans hb⟩

theorem ArrayAt.keep {γ : Type} {mk : List γ → β} {p : Nat} {cells : List γ}
    (ha : ArrayAt mk h p cells) (heq : ∀ a ∈ ptrs [p], h'.get a = h.get a) :
    ArrayAt mk h' p cells :=
  ha.imp id fun ⟨hp, hb⟩ => ⟨hp, (heq p (mem_ptrs_self hp)).trans hb⟩

/-- `realloc` of an array: it fails and changes nothing, or the array has moved and its cells
    went through `resize`. -/
theorem realloc_array {γ : Type} {mk : List γ → β} (A : Allocator β) {m : Mem β} {p : Nat}
    {cells : List γ} (resize : List γ → List γ) {f : β → β}
    (hf : ∀ cs, f (mk cs) = mk (resize cs)) (o : Owned h₀ m.heap (ptrs [p] ++ L))
    (ha : ArrayAt mk m.heap p cells) :
    ∃ m' q, realloc A m p (mk (resize [])) f = some (m', q) ∧
      ((q = 0 ∧ m'.heap = m.heap) ∨
        (q ≠ 0 ∧ Owned h₀ m'.heap (ptrs [q] ++ L) ∧ m'.heap.get q = some (mk (resize cells)) ∧
          ∀ a ∈ L, m'.heap.get a = m.heap.get a)) := by
  rcases ha with ⟨rfl, rfl⟩ | ⟨hp, hb⟩
  · rw [realloc_null]
    obtain ⟨_, h'⟩ | ⟨_, q, hq, hn, h'⟩ := malloc_cases A m (mk (resize [])) <;> rw [h']
    · exact ⟨_, _, rfl, .inl ⟨rfl, rfl⟩⟩
    · rw [ptrs_zero, ptrs_nil, List.nil_append] at o
      refine ⟨_, q, rfl, .inr ⟨hq, ?_, Heap.get_set_self _ _ _, ?_⟩⟩
      · rw [ptrs_cons hq]
        exact (o.add _ hq hn).perm List.perm_append_comm
      · intro a ha
        obtain ⟨_, _, b, hb⟩ := o.fresh a ha
        refine Heap.get_set_ne _ _ ?_
        rintro rfl
        rw [hn] at hb
        cases hb
  · obtain ⟨_, h'⟩ | ⟨_, q, hq, hn, h'⟩ := realloc_cases A (mk (resize [])) f hp hb <;> rw [h']
    · exact ⟨_, _, rfl, .inl ⟨rfl, rfl⟩⟩
    · rw [ptrs_cons hp] at o
      have hne : ∀ a ∈ L, a ≠ p := fun a ha hap =>
        (List.nodup_cons.mp o.nodup).1 (hap ▸ ha)
      refine ⟨_, q, rfl, .inr ⟨hq, ?_, ?_, ?_⟩⟩
      · rw [ptrs_cons hq]
        exact (o.del.add _ hq hn).perm List.perm_append_comm
      · rw [← hf]
        exact Heap.get_set_self _ _ _
      · intro a ha
        obtain ⟨_, _, b, hb⟩ := o.fresh a (List.mem_cons_of_mem p ha)
        rw [← Heap.get_del_ne _ (hne a ha)] at hb
        have hqa : a ≠ q := by
          rintro rfl
          rw [hn] at hb
          cases hb
        exact (Heap.get_set_ne _ _ hqa).trans (Heap.get_del_ne _ (hne a ha))

end Librecompat.Lib
