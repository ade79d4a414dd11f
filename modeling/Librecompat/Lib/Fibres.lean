/-
  Lists of blocks that are the fibres of a labelling, and how a new mark refines them.

  Every point has a label, the list of its marks. `Fibres label blocks` says that the blocks are
  disjoint, that each of them is empty or all points with one label, and that no point with marks is
  missing. `Fibres.split`, `Fibres.take` and `Fibres.add` give a new mark `b` to a part of a block,
  to a whole block and to points without a mark, as long as the label that comes out is new. It is
  new when the points are marked in portions (`Apart`): no point that is still to be marked has
  the old label of a point that is marked already. `Fibres.length_eq` counts the blocks.
-/
import Mathlib.Data.Finset.Card
import Mathlib.Data.Fintype.Basic
import Mathlib.Data.List.Dedup
import Mathlib.Data.Set.Lattice
import Mathlib.Order.CompletePartialOrder

namespace Librecompat.Lib

open scoped Classical in
/-- The labelling with a new mark on the points of `C`. -/
noncomputable def mark {α β : Type} (b : β) (C : Set α) (label : α → List β) (x : α) : List β :=
  if x ∈ C then label x ++ [b] else label x

variable {α β : Type}

/-- The blocks are the fibres of the labelling. -/
structure Fibres (label : α → List β) (blocks : List (Set α × List β)) : Prop where
  total : ∀ x, label x ≠ [] → ∃ p ∈ blocks, x ∈ p.1
  fibre : ∀ p ∈ blocks, p.2 ≠ [] ∧ (p.1 = ∅ ∨ p.1 = {x | label x = p.2})
  disjoint : blocks.Pairwise fun p q => Disjoint p.1 q.1

variable {label : α → List β} {blocks pre post : List (Set α × List β)} {b : β} {C A D I : Set α}
  {L : List β}

/-! ## Marks -/

theorem mark_mem {x : α} (h : x ∈ C) : mark b C label x = label x ++ [b] := if_pos h

theorem mark_notMem {x : α} (h : x ∉ C) : mark b C label x = label x := if_neg h

@[simp] theorem mark_empty (b : β) (label : α → List β) : mark b ∅ label = label :=
  funext fun _ => if_neg (Set.notMem_empty _)

theorem mark_mark (h : Disjoint C I) : mark b I (mark b C label) = mark b (C ∪ I) label := by
  funext x
  by_cases hC : x ∈ C
  · rw [mark_notMem (Set.disjoint_left.mp h hC), mark_mem hC, mark_mem (.inl hC)]
  · by_cases hI : x ∈ I
    · rw [mark_mem hI, mark_notMem hC, mark_mem (.inr hI)]
    · rw [mark_notMem hI, mark_notMem hC, mark_notMem (by simp [hC, hI])]

/-! ## Blocks -/

theorem fibres_nil : Fibres (fun _ : α => ([] : List β)) [] :=
  ⟨fun _ h => absurd rfl h, by simp, List.Pairwise.nil⟩

theorem Fibres.eq_label (h : Fibres label blocks) {p : Set α × List β} (hp : p ∈ blocks) {x : α}
    (hx : x ∈ p.1) : label x = p.2 := by
  obtain hempty | hfibre := (h.fibre p hp).2
  · simp [hempty] at hx
  · rwa [hfibre] at hx

theorem Fibres.mem_iff (h : Fibres label blocks) {p : Set α × List β} (hp : p ∈ blocks) {x : α}
    (hx : x ∈ p.1) (y : α) : y ∈ p.1 ↔ label y = p.2 := by
  obtain hempty | hfibre := (h.fibre p hp).2
  · simp [hempty] at hx
  · rw [hfibre]
    rfl

theorem fibre_of_iff {S : Set α} (h : ∀ x ∈ S, ∀ y, y ∈ S ↔ label y = L) :
    S = ∅ ∨ S = {x | label x = L} := by
  obtain rfl | ⟨x, hx⟩ := S.eq_empty_or_nonempty
  · exact .inl rfl
  · exact .inr (Set.ext (h x hx))

theorem Fibres.drop_empty (h : Fibres label (blocks ++ [(∅, L)])) : Fibres label blocks := by
  refine ⟨fun x hx => ?_, fun p hp => h.fibre p (List.mem_append_left _ hp),
    (List.pairwise_append.mp h.disjoint).1⟩
  obtain ⟨p, hp, hxp⟩ := h.total x hx
  obtain hp | hp := List.mem_append.mp hp
  · exact ⟨p, hp, hxp⟩
  · rw [List.mem_singleton.mp hp] at hxp
    exact absurd hxp (Set.notMem_empty x)

/-- The points of one label `L` that are marked are a fibre. -/
theorem fibre_marked (hI : ∀ x ∈ I, label x = L) (hnew : ∀ y, label y ≠ L ++ [b]) :
    I = ∅ ∨ I = {x | mark b I label x = L ++ [b]} := by
  refine fibre_of_iff fun x _ y => ⟨fun hy => ?_, fun hy => ?_⟩
  · rw [mark_mem hy, hI y hy]
  · by_contra hyI
    exact hnew y (by rwa [mark_notMem hyI] at hy)

/-- A block that has none of them stays a fibre. -/
theorem Fibres.unmarked (h : Fibres label blocks) {p : Set α × List β} (hp : p ∈ blocks)
    (hI : ∀ x ∈ I, label x = L) (hnew : ∀ y, label y ≠ L ++ [b]) (hdisj : Disjoint p.1 I) :
    p.1 = ∅ ∨ p.1 = {x | mark b I label x = p.2} := by
  refine fibre_of_iff fun x hx y => ?_
  by_cases hy : y ∈ I
  · refine ⟨fun hyp => absurd hy (Set.disjoint_left.mp hdisj hyp), fun hmark => ?_⟩
    rw [mark_mem hy, hI y hy] at hmark
    exact absurd ((h.eq_label hp hx).trans hmark.symm) (hnew x)
  · rw [mark_notMem hy]
    exact h.mem_iff hp hx y

/-- The mark is given to a part of a block: the block is split. -/
theorem Fibres.split (h : Fibres label (pre ++ (D, L) :: post)) (hI : I ⊆ D)
    (hnew : ∀ y, label y ≠ L ++ [b]) :
    Fibres (mark b I label) (pre ++ (I, L ++ [b]) :: post ++ [(D \ I, L)]) := by
  have hD : (D, L) ∈ pre ++ (D, L) :: post := by simp
  have hlabel : ∀ x ∈ I, label x = L := fun x hx => h.eq_label hD (hI hx)
  have hpair := h.disjoint
  simp only [List.pairwise_append, List.pairwise_cons, List.mem_cons, forall_eq_or_imp] at hpair
  obtain ⟨hpre, ⟨hDpost, hpost⟩, hcross⟩ := hpair
  have hrest : ∀ q ∈ pre ++ post, q ∈ pre ++ (D, L) :: post ∧ Disjoint q.1 D := fun q hq => by
    obtain hq | hq := List.mem_append.mp hq
    · exact ⟨by simp [hq], (hcross q hq).1⟩
    · exact ⟨by simp [hq], (hDpost q hq).symm⟩
  refine ⟨fun x hx => ?_, fun q hq => ?_, ?_⟩
  · by_cases hxI : x ∈ I
    · exact ⟨(I, L ++ [b]), by simp, hxI⟩
    · rw [mark_notMem hxI] at hx
      obtain ⟨p, hp, hxp⟩ := h.total x hx
      simp only [List.mem_append, List.mem_cons] at hp
      obtain hp | rfl | hp := hp
      · exact ⟨p, by simp [hp], hxp⟩
      · exact ⟨(D \ I, L), by simp, hxp, hxI⟩
      · exact ⟨p, by simp [hp], hxp⟩
  · have hcases : q = (I, L ++ [b]) ∨ q = (D \ I, L) ∨ q ∈ pre ++ post := by
      simp only [List.mem_append, List.mem_cons, List.not_mem_nil, or_false] at hq ⊢
      tauto
    obtain rfl | rfl | hq := hcases
    · exact ⟨by simp, fibre_marked hlabel hnew⟩
    · refine ⟨(h.fibre _ hD).1, fibre_of_iff fun x hx y => ⟨fun hy => ?_, fun hy => ?_⟩⟩
      · rw [mark_notMem hy.2, h.eq_label hD hy.1]
      · have hyI : y ∉ I := fun hyI => by
          rw [mark_mem hyI, hlabel y hyI] at hy
          simp at hy
        rw [mark_notMem hyI] at hy
        exact ⟨(h.mem_iff hD hx.1 y).mpr hy, hyI⟩
    · obtain ⟨hold, hdisj⟩ := hrest q hq
      exact ⟨(h.fibre q hold).1, h.unmarked hold hlabel hnew (hdisj.mono_right hI)⟩
  · rw [List.pairwise_append, List.pairwise_append, List.pairwise_cons]
    refine ⟨⟨hpre, ⟨fun q hq => (hDpost q hq).mono_left hI, hpost⟩, fun q hq =>
      List.forall_mem_cons.mpr ⟨(hcross q hq).1.mono_right hI, (hcross q hq).2⟩⟩,
      List.pairwise_singleton _ _, fun q hq r hr => ?_⟩
    rw [List.mem_singleton.mp hr]
    simp only [List.mem_append, List.mem_cons] at hq
    obtain hq | rfl | hq := hq
    · exact (hrest q (List.mem_append_left _ hq)).2.mono_right Set.sdiff_subset
    · exact disjoint_sdiff_self_right
    · exact (hrest q (List.mem_append_right _ hq)).2.mono_right Set.sdiff_subset

/-- The mark is given to a whole block. -/
theorem Fibres.take (h : Fibres label (pre ++ (D, L) :: post)) (hnew : ∀ y, label y ≠ L ++ [b]) :
    Fibres (mark b D label) (pre ++ (D, L ++ [b]) :: post) := by
  have hsplit := h.split (Set.Subset.refl D) hnew
  rw [sdiff_self] at hsplit
  exact hsplit.drop_empty

/-- The mark is given to points without a mark: they are a new block. -/
theorem Fibres.add (h : Fibres label blocks) (hA : ∀ x ∈ A, label x = [])
    (hnew : ∀ y, label y ≠ [b]) : Fibres (mark b A label) (blocks ++ [(A, [b])]) := by
  have hout : ∀ p ∈ blocks, Disjoint p.1 A := fun p hp => Set.disjoint_left.mpr fun x hx hxA =>
    (h.fibre p hp).1 ((h.eq_label hp hx).symm.trans (hA x hxA))
  refine ⟨fun x hx => ?_, fun p hp => ?_, ?_⟩
  · by_cases hxA : x ∈ A
    · exact ⟨(A, [b]), by simp, hxA⟩
    · rw [mark_notMem hxA] at hx
      obtain ⟨p, hp, hxp⟩ := h.total x hx
      exact ⟨p, List.mem_append_left _ hp, hxp⟩
  · obtain hp | hp := List.mem_append.mp hp
    · exact ⟨(h.fibre p hp).1, h.unmarked hp hA hnew (hout p hp)⟩
    · rw [List.mem_singleton.mp hp]
      exact ⟨by simp, fibre_marked hA hnew⟩
  · rw [List.pairwise_append]
    exact ⟨h.disjoint, List.pairwise_singleton _ _, fun p hp q hq =>
      List.mem_singleton.mp hq ▸ hout p hp⟩

/-- Every point with marks is in exactly one block. -/
theorem Fibres.existsUnique (h : Fibres label blocks) {x : α} (hx : label x ≠ []) :
    ∃! i : Nat, ∃ p, blocks[i]? = some p ∧ x ∈ p.1 := by
  obtain ⟨p, hp, hxp⟩ := h.total x hx
  obtain ⟨i, hi⟩ := List.getElem?_of_mem hp
  refine ⟨i, ⟨p, hi, hxp⟩, fun j ⟨q, hj, hxq⟩ => ?_⟩
  obtain ⟨hi', hpi⟩ := List.getElem?_eq_some_iff.mp hi
  obtain ⟨hj', hqj⟩ := List.getElem?_eq_some_iff.mp hj
  by_contra hne
  have hdisj : Disjoint q.1 p.1 := by
    rw [← hpi, ← hqj]
    obtain hlt | hlt := Nat.lt_or_gt_of_ne hne
    · exact List.pairwise_iff_getElem.mp h.disjoint j i hj' hi' hlt
    · exact (List.pairwise_iff_getElem.mp h.disjoint i j hi' hj' hlt).symm
  exact Set.disjoint_left.mp hdisj hxq hxp

/-! ## Marking in portions -/

/-- No point of `A` has the label of a point of `C`. -/
def Apart (label : α → List β) (C A : Set α) : Prop :=
  Disjoint C A ∧ ∀ x ∈ A, ∀ y ∈ C, label x ≠ label y

theorem apart_empty (label : α → List β) (A : Set α) : Apart label ∅ A :=
  ⟨Set.empty_disjoint A, by simp⟩

/-- The label that a point of `A` gets is new. -/
theorem Apart.new (h : Apart label C A) (hb : ∀ x, b ∉ label x) {x : α} (hx : x ∈ A) (y : α) :
    mark b C label y ≠ mark b C label x ++ [b] := by
  rw [mark_notMem (Set.disjoint_right.mp h.1 hx)]
  by_cases hy : y ∈ C
  · rw [mark_mem hy]
    exact fun heq => h.2 x hx y hy (List.append_cancel_right heq).symm
  · rw [mark_notMem hy]
    exact fun heq => hb y (by simp [heq])

/-- The points of `A` in the block of the label are marked. -/
theorem Apart.next (h : Apart label C A) (hfib : Fibres (mark b C label) blocks)
    {p : Set α × List β} (hp : p ∈ blocks) : Apart label (C ∪ A ∩ p.1) (A \ p.1) := by
  refine ⟨Set.disjoint_left.mpr ?_, fun x hx y hy => ?_⟩
  · rintro x (hx | hx) hxA
    · exact Set.disjoint_left.mp h.1 hx hxA.1
    · exact hxA.2 hx.2
  · obtain hy | hy := hy
    · exact h.2 x hx.1 y hy
    · intro heq
      refine hx.2 ((hfib.mem_iff hp hy.2 x).mpr ?_)
      rw [← hfib.eq_label hp hy.2, mark_notMem (Set.disjoint_right.mp h.1 hx.1),
        mark_notMem (Set.disjoint_right.mp h.1 hy.1), heq]

/-! ## How many blocks -/

section count

variable [Fintype α] [DecidableEq β]

/-- The labels with marks. -/
def labels (label : α → List β) : Finset (List β) := (Finset.univ.image label).erase []

theorem mem_labels {L : List β} : L ∈ labels label ↔ L ≠ [] ∧ ∃ x, label x = L := by
  simp [labels]

/-- A labelling that tells more points apart has more labels. -/
theorem card_labels_le {label' : α → List β} (h : ∀ x y, label' x = label' y → label x = label y)
    (hne : ∀ x, label x ≠ [] → label' x ≠ []) :
    (labels label).card ≤ (labels label').card := by
  classical
  refine Finset.card_le_card_of_surjOn
    (fun L => if hL : ∃ x, label' x = L then label hL.choose else []) fun L hL => ?_
  obtain ⟨hne', x, rfl⟩ := mem_labels.mp hL
  refine ⟨label' x, mem_labels.mpr ⟨hne x hne', x, rfl⟩, ?_⟩
  have hex : ∃ y, label' y = label' x := ⟨x, rfl⟩
  exact (dif_pos hex).trans (h _ _ hex.choose_spec)

open scoped Classical in
/-- There is a block for every label, and there are the empty ones. -/
theorem Fibres.length_eq (h : Fibres label blocks) :
    blocks.length = (labels label).card + blocks.countP (·.1 = ∅) := by
  have hcard : (labels label).card = blocks.countP fun p => !decide (p.1 = ∅) := by
    have hnodup : ((blocks.filter fun p => !decide (p.1 = ∅)).map Prod.snd).Nodup := by
      rw [List.Nodup, List.pairwise_map]
      refine (h.disjoint.sublist List.filter_sublist).imp_of_mem fun hp hq hdisj heq => ?_
      simp only [List.mem_filter, Bool.not_eq_true', decide_eq_false_iff_not] at hp hq
      obtain ⟨x, hx⟩ := Set.nonempty_iff_ne_empty.mpr hp.2
      obtain ⟨y, hy⟩ := Set.nonempty_iff_ne_empty.mpr hq.2
      refine Set.disjoint_left.mp hdisj hx ((h.mem_iff hq.1 hy x).mpr ?_)
      rw [h.eq_label hp.1 hx, heq]
    rw [List.countP_eq_length_filter, ← List.length_map (f := Prod.snd),
      ← List.toFinset_card_of_nodup hnodup]
    congr 1
    ext L
    simp only [mem_labels, List.mem_toFinset, List.mem_map, List.mem_filter, Bool.not_eq_true',
      decide_eq_false_iff_not]
    constructor
    · rintro ⟨hL, x, rfl⟩
      obtain ⟨p, hp, hx⟩ := h.total x hL
      exact ⟨p, ⟨hp, Set.nonempty_iff_ne_empty.mp ⟨x, hx⟩⟩, (h.eq_label hp hx).symm⟩
    · rintro ⟨p, ⟨hp, hne⟩, rfl⟩
      obtain ⟨x, hx⟩ := Set.nonempty_iff_ne_empty.mpr hne
      exact ⟨(h.fibre p hp).1, x, h.eq_label hp hx⟩
  rw [hcard, Nat.add_comm]
  simpa using List.length_eq_countP_add_countP (l := blocks) (fun p => decide (p.1 = ∅))

/-- When the rest is marked too, there are no fewer labels. -/
theorem Apart.card_labels_le (h : Apart label C A) (hb : ∀ x, b ∉ label x) :
    (labels (mark b C label)).card ≤ (labels (mark b (C ∪ A) label)).card := by
  have hlast : ∀ {S : Set α} {x y : α}, mark b S label x = mark b S label y →
      (x ∈ S ↔ y ∈ S) ∧ label x = label y := fun {S x y} heq => by
    by_cases hx : x ∈ S <;> by_cases hy : y ∈ S
    · rw [mark_mem hx, mark_mem hy] at heq
      exact ⟨iff_of_true hx hy, List.append_cancel_right heq⟩
    · rw [mark_mem hx, mark_notMem hy] at heq
      exact absurd (by simp [← heq]) (hb y)
    · rw [mark_notMem hx, mark_mem hy] at heq
      exact absurd (by simp [heq]) (hb x)
    · rw [mark_notMem hx, mark_notMem hy] at heq
      exact ⟨iff_of_false hx hy, heq⟩
  refine Lib.card_labels_le (fun x y hxy => ?_) fun x hx => ?_
  · obtain ⟨hmem, hlabel⟩ := hlast hxy
    -- marked both or none: `C` and `A` have no label in common
    have hC : ∀ {x y : α}, label x = label y → (x ∈ C ∪ A ↔ y ∈ C ∪ A) → x ∈ C → y ∈ C :=
      fun hlabel hmem hx => (hmem.mp (.inl hx)).resolve_right fun hy => h.2 _ hy _ hx hlabel.symm
    by_cases hx : x ∈ C
    · rw [mark_mem hx, mark_mem (hC hlabel hmem hx), hlabel]
    · rw [mark_notMem hx, mark_notMem fun hy => hx (hC hlabel.symm hmem.symm hy), hlabel]
  · by_cases hU : x ∈ C ∪ A
    · simp [mark_mem hU]
    · rw [mark_notMem hU]
      rwa [mark_notMem fun hC => hU (.inl hC)] at hx

end count

end Librecompat.Lib
