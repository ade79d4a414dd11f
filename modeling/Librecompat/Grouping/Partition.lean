/-
  `group_nodes_into_DFAstates` computes a partition.

  The label of a character is the list of the nodes seen so far that accept it; the groups are its
  fibres (`Grouped`). While a node `e` is divided, the characters of its set that have left
  `accepts` have the new label already (`Dividing`). `takePart_spec` is the pass that gives
  a part of a group to the node, `divide_spec` the loop, `groupNodes_spec` the loop over the nodes.
  Each says when the arrays are too small: the number of groups is the number of labels and of the
  empty brackets.
-/
import Librecompat.Grouping.Accepts
import Librecompat.Lib.Fibres
import Librecompat.NodeSet.Elements

namespace Librecompat.Grouping

open Librecompat.Lib Librecompat.NodeSet
open Librecompat.Regex

/-! ## The invariant -/

/-- The characters and the nodes of a group. -/
def Dest.block (d : Dest) : Set (Fin SBC_MAX) × List Int := (d.ch.chars, d.node.members)

/-- The groups are the fibres of the labelling; `k` of them are empty. -/
structure Grouped (label : Fin SBC_MAX → List Int) (k : Nat) (s : Groups) : Prop where
  sets : ∀ d ∈ s.dests, Holds d.node d.node.members
  fibres : Fibres label (s.dests.map Dest.block)
  empties : s.dests.countP (fun d => d.ch = 0#256) = k

/-- How many groups there are. -/
def count (label : Fin SBC_MAX → List Int) (k : Nat) : Nat := (labels label).card + k

/-- The node `e` with the set `A` is divided into the groups below `j`. -/
structure Dividing (label : Fin SBC_MAX → List Int) (e : Int) (A : Set (Fin SBC_MAX)) (k : Nat)
    (s : Groups) (j : Nat) : Prop where
  grouped : Grouped (mark e (A \ s.accepts.chars) label) k s
  sub : s.accepts.chars ⊆ A
  apart : Apart label (A \ s.accepts.chars) s.accepts.chars
  passed : ∀ d ∈ s.dests.take j, Disjoint d.ch.chars s.accepts.chars
  le : j ≤ s.dests.length

variable {label : Fin SBC_MAX → List Int} {e : Int} {A : Set (Fin SBC_MAX)} {k j : Nat}
  {s : Groups}

theorem fibres_length {dests : List Dest} (h : Fibres label (dests.map Dest.block)) :
    dests.length = count label (dests.countP fun d => d.ch = 0#256) := by
  classical
  have hlen := h.length_eq
  rw [List.length_map, List.countP_map] at hlen
  rw [hlen, count]
  congr 1
  refine List.countP_congr fun d _ => ?_
  simp [Dest.block, Bitset.chars_eq_empty]

theorem Grouped.length_eq (h : Grouped label k s) : s.dests.length = count label k := by
  rw [fibres_length h.fibres, h.empties]

theorem Dividing.card_le (h : Dividing label e A k s j) (hfresh : ∀ c, e ∉ label c) :
    count (mark e (A \ s.accepts.chars) label) k ≤ count (mark e A label) k := by
  have hle := h.apart.card_labels_le hfresh
  rw [Set.sdiff_union_of_subset h.sub] at hle
  exact Nat.add_le_add_right hle k

theorem exists_split {dests : List Dest} {d : Dest} (h : dests[j]? = some d) :
    ∃ pre post, dests = pre ++ d :: post ∧ pre.length = j := by
  obtain ⟨hlt, rfl⟩ := List.getElem?_eq_some_iff.mp h
  exact ⟨dests.take j, dests.drop (j + 1), by simp, by simp; omega⟩

theorem set_split (pre post : List Dest) (d d' : Dest) (h : pre.length = j) :
    (pre ++ d :: post).set j d' = pre ++ d' :: post := by
  subst h
  simp

/-! ## One group -/

variable {ok : Nat → Bool}

theorem addDest_spec {ch : Bitset} {node : Option (ReNodeSet × RegErrcode)} {set : ReNodeSet}
    (hnode : node = some (set, REG_NOERROR)) :
    addDest s ch node = some (if s.dests.length < SBC_MAX then
      .ok { s with dests := s.dests ++ [⟨ch, set⟩], calls := s.calls + 1 }
    else .error .overflow) := by
  unfold addDest
  subst hnode
  split <;> rfl

theorem insertPosition_spec (hok : ∀ k, ok k = true) {pre post : List Dest} {d : Dest}
    {L : List Int} (hs : s.dests = pre ++ d :: post) (hj : pre.length = j)
    (hd : Holds d.node L) (he : ∀ x ∈ L, x < e) :
    ∃ set, insertPosition ok s j e = some (.ok { s with
        dests := pre ++ { d with node := set } :: post, calls := s.calls + 1 }) ∧
      Holds set (L ++ [e]) := by
  have hd' : Holds d.node (L ++ []) := by rwa [List.append_nil]
  obtain ⟨set, hinsert, hset⟩ := insert_spec hd' he (by simp)
  refine ⟨set, ?_, hset⟩
  have hget : s.dests[j]? = some d := by
    rw [hs, ← hj]
    simp
  have hset' := set_split pre post d { d with node := set } hj
  rw [← hs] at hset'
  simp [insertPosition, hget, hok, hinsert, hset']

theorem holds_members {set : ReNodeSet} {xs : List Int} (h : Holds set xs) :
    Holds set set.members := by
  rwa [h.members]

/-- The groups up to the one that took the place of `d`. -/
theorem mem_take_next {pre rest : List Dest} {d d' x : Dest} {post : List Dest}
    (hs : s.dests = pre ++ d :: post) (hj : pre.length = j)
    (hd' : d' ∈ (pre ++ x :: rest).take (j + 1)) : d' ∈ s.dests.take j ∨ d' = x := by
  subst hj
  rw [hs, List.take_left]
  rw [List.take_append, List.take_of_length_le (Nat.le_succ _), Nat.add_sub_cancel_left] at hd'
  simpa using hd'

/-- When the characters that `accepts` has in common with the group `d` have the new label, `d` is
    left behind. -/
theorem Dividing.next (h : Dividing label e A k s j) {d : Dest} (hd : d ∈ s.dests) {t : Groups}
    (haccepts : t.accepts = s.accepts &&& ~~~d.ch)
    (hsets : ∀ d' ∈ t.dests, Holds d'.node d'.node.members)
    (hfib : Fibres (mark e (s.accepts.chars ∩ d.ch.chars) (mark e (A \ s.accepts.chars) label))
      (t.dests.map Dest.block))
    (hempties : t.dests.countP (fun d => d.ch = 0#256) = k)
    (hpassed : ∀ d' ∈ t.dests.take (j + 1), d' ∈ s.dests.take j ∨ d'.ch.chars ⊆ d.ch.chars)
    (hle : j + 1 ≤ t.dests.length) : Dividing label e A k t (j + 1) := by
  have hchars : t.accepts.chars = s.accepts.chars \ d.ch.chars := by
    rw [haccepts, Bitset.chars_and_not]
  have hC : A \ (s.accepts.chars \ d.ch.chars) =
      A \ s.accepts.chars ∪ s.accepts.chars ∩ d.ch.chars := by
    ext c
    have := @h.sub c
    simp only [Set.mem_sdiff, Set.mem_union, Set.mem_inter_iff]
    tauto
  have hblock : d.block ∈ s.dests.map Dest.block := List.mem_map_of_mem hd
  rw [mark_mark (h.apart.1.mono_right Set.inter_subset_left), ← hC, ← hchars] at hfib
  refine ⟨⟨hsets, hfib, hempties⟩, ?_, ?_, fun d' hd' => ?_, hle⟩
  · exact hchars ▸ Set.sdiff_subset.trans h.sub
  · rw [hchars, hC]
    exact h.apart.next h.grouped.fibres hblock
  · rw [hchars]
    obtain hold | hsub := hpassed d' hd'
    · exact (h.passed d' hold).mono_right Set.sdiff_subset
    · exact Set.disjoint_left.mpr fun c hc hc' => hc'.2 (hsub hc)

/-- The group `d` is split. -/
theorem Dividing.split (h : Dividing label e A k s j) {pre post : List Dest} {d : Dest}
    (hs : s.dests = pre ++ d :: post) (hj : pre.length = j)
    (hnew : ∀ c, mark e (A \ s.accepts.chars) label c ≠ d.node.members ++ [e])
    (hcommon : s.accepts &&& d.ch ≠ 0#256) (hrest : ~~~s.accepts &&& d.ch ≠ 0#256)
    {set set' : ReNodeSet} (hset : Holds set (d.node.members ++ [e]))
    (hset' : Holds set' d.node.members) (calls : Nat) :
    Dividing label e A k ⟨pre ++ ⟨s.accepts &&& d.ch, set⟩ :: post ++
      [⟨~~~s.accepts &&& d.ch, set'⟩], s.accepts &&& ~~~d.ch, calls⟩ (j + 1) := by
  have hfib := h.grouped.fibres
  have hsets := h.grouped.sets
  have hempties := h.grouped.empties
  have hd : d.ch ≠ 0#256 := fun hzero => hcommon (by rw [hzero, BitVec.and_zero])
  have hremains : Bitset.chars (~~~s.accepts &&& d.ch) =
      d.ch.chars \ (s.accepts.chars ∩ d.ch.chars) := by
    rw [BitVec.and_comm, Bitset.chars_and_not, Set.sdiff_inter_self_eq_sdiff]
  rw [hs] at hempties hsets
  rw [hs, List.map_append, List.map_cons] at hfib
  simp only [List.forall_mem_append, List.forall_mem_cons] at hsets
  refine h.next (hs ▸ by simp) rfl ?_ ?_ ?_ (fun d' hd' => ?_) (by simp [← hj])
  · simp only [List.forall_mem_append, List.forall_mem_cons]
    exact ⟨⟨hsets.1, holds_members hset, hsets.2.2⟩, holds_members hset', by simp⟩
  · have hsplit := Fibres.split hfib (Set.inter_subset_right (s := s.accepts.chars)) hnew
    simpa only [List.map_append, List.map_cons, List.map_nil, Dest.block, hset.members,
      hset'.members, Bitset.chars_and, hremains] using hsplit
  · simpa [List.countP_append, List.countP_cons, hcommon, hrest, hd] using hempties
  · rw [List.append_assoc] at hd'
    refine (mem_take_next hs hj hd').imp_right ?_
    rintro rfl
    rw [Bitset.chars_and]
    exact Set.inter_subset_right

/-- The group `d` is taken as a whole. -/
theorem Dividing.take (h : Dividing label e A k s j) {pre post : List Dest} {d : Dest}
    (hs : s.dests = pre ++ d :: post) (hj : pre.length = j)
    (hnew : ∀ c, mark e (A \ s.accepts.chars) label c ≠ d.node.members ++ [e])
    (hrest : ~~~s.accepts &&& d.ch = 0#256)
    {set : ReNodeSet} (hset : Holds set (d.node.members ++ [e])) (calls : Nat) :
    Dividing label e A k ⟨pre ++ ⟨d.ch, set⟩ :: post, s.accepts &&& ~~~d.ch, calls⟩ (j + 1) := by
  have hcommon : s.accepts.chars ∩ d.ch.chars = d.ch.chars := by
    have hempty : d.ch.chars \ s.accepts.chars = ∅ := by
      rw [← Bitset.chars_and_not, Bitset.chars_eq_empty, BitVec.and_comm, hrest]
    exact Set.inter_eq_right.mpr (Set.sdiff_eq_empty.mp hempty)
  have hfib := h.grouped.fibres
  have hsets := h.grouped.sets
  have hempties := h.grouped.empties
  rw [hs] at hempties hsets
  rw [hs, List.map_append, List.map_cons] at hfib
  simp only [List.forall_mem_append, List.forall_mem_cons] at hsets
  refine h.next (hs ▸ by simp) rfl ?_ ?_ ?_ (fun d' hd' => ?_) (by simp [← hj])
  · simp only [List.forall_mem_append, List.forall_mem_cons]
    exact ⟨hsets.1, holds_members hset, hsets.2.2⟩
  · rw [hcommon]
    have htake := Fibres.take hfib hnew
    simpa only [List.map_append, List.map_cons, Dest.block, hset.members] using htake
  · simpa [List.countP_append, List.countP_cons] using hempties
  · refine (mem_take_next hs hj hd').imp_right ?_
    rintro rfl
    exact Set.Subset.refl _

/-- The part of a group that the node gets: `t` is what comes of it, if the arrays have room. -/
theorem takePart_spec (hok : ∀ k, ok k = true) (h : Dividing label e A k s j)
    (hsmall : s.dests.length ≤ SBC_MAX) (hlt : ∀ c, ∀ x ∈ label c, x < e) {d : Dest}
    (hd : s.dests[j]? = some d) (hcommon : s.accepts &&& d.ch ≠ 0#256) :
    ∃ t, Dividing label e A k t (j + 1) ∧ t.accepts = s.accepts &&& ~~~d.ch ∧
      (t.dests.length ≤ SBC_MAX ∧ takePart ok s j d e = some (.ok t) ∨
        SBC_MAX < t.dests.length ∧ takePart ok s j d e = some (.error .overflow)) := by
  obtain ⟨pre, post, hs, hj⟩ := exists_split hd
  have hmem : d ∈ s.dests := List.mem_of_getElem? hd
  have hsets := h.grouped.sets d hmem
  obtain ⟨c, hc, hcd⟩ : ∃ c, c ∈ s.accepts.chars ∧ c ∈ d.ch.chars := by
    have hne : (Bitset.chars (s.accepts &&& d.ch)).Nonempty := by
      rw [Set.nonempty_iff_ne_empty]
      exact fun hempty => hcommon (Bitset.chars_eq_empty.mp hempty)
    rwa [Bitset.chars_and] at hne
  have hlabel := h.grouped.fibres.eq_label (List.mem_map_of_mem hmem : d.block ∈ _) hcd
  have hnew : ∀ y, mark e (A \ s.accepts.chars) label y ≠ d.node.members ++ [e] := fun y => by
    have hy := h.apart.new (fun x hx => lt_irrefl e (hlt x e hx)) hc y
    rwa [hlabel] at hy
  have hL : ∀ x ∈ d.node.members, x < e := by
    rw [mark_notMem (fun hA => hA.2 hc)] at hlabel
    rw [← show label c = d.node.members from hlabel]
    exact hlt c
  unfold takePart splitDest
  by_cases hrest : ~~~s.accepts &&& d.ch = 0#256
  · obtain ⟨set, hinsert, hset⟩ := insertPosition_spec
      (s := { s with accepts := s.accepts &&& ~~~d.ch }) hok hs hj hsets hL
    refine ⟨_, h.take hs hj hnew hrest hset (s.calls + 1), rfl, .inl ⟨?_, ?_⟩⟩
    · rw [hs] at hsmall
      simpa using hsmall
    · simp only [hrest, ne_eq, not_true_eq_false, if_false, Option.bind_eq_bind,
        Option.bind_some]
      exact hinsert
  · obtain ⟨set', hcopy, hset'⟩ := initCopy_spec hsets
    rw [← hok s.calls] at hcopy
    have hset₁ := set_split pre post d { d with ch := s.accepts &&& d.ch } hj
    rw [← hs] at hset₁
    simp only [ne_eq, hrest, not_false_eq_true, if_true]
    rw [addDest_spec hcopy]
    simp only [hset₁]
    obtain ⟨set, hinsert, hset⟩ := insertPosition_spec
      (s := ⟨pre ++ { d with ch := s.accepts &&& d.ch } ::
        (post ++ [⟨~~~s.accepts &&& d.ch, set'⟩]), s.accepts &&& ~~~d.ch, s.calls + 1⟩)
      hok rfl hj hsets hL
    refine ⟨_, h.split hs hj hnew hcommon hrest hset hset' (s.calls + 2), rfl, ?_⟩
    have hlen : ∀ node, (pre ++ ⟨s.accepts &&& d.ch, node⟩ :: post).length = s.dests.length := by
      intro node
      rw [hs, List.length_append, List.length_append, List.length_cons, List.length_cons]
    by_cases hfull : s.dests.length < SBC_MAX
    · refine .inl ⟨by rw [List.length_append, hlen]; exact hfull, ?_⟩
      simp only [hlen, hfull, if_true, Option.bind_eq_bind, Option.bind_some, List.append_assoc,
        List.cons_append]
      exact hinsert
    · refine .inr ⟨by rw [List.length_append, hlen]; exact Nat.lt_succ_of_le (not_lt.mp hfull), ?_⟩
      simp only [hlen, hfull, if_false, Option.bind_eq_bind, Option.bind_some]

/-! ## The loop over the groups -/

/-- A group that has nothing in common with `accepts` is left behind. -/
theorem Dividing.skip (h : Dividing label e A k s j) {d : Dest} (hd : s.dests[j]? = some d)
    (hdisj : Disjoint d.ch.chars s.accepts.chars) : Dividing label e A k s (j + 1) := by
  refine ⟨h.grouped, h.sub, h.apart, fun d' hd' => ?_, (List.getElem?_eq_some_iff.mp hd).1⟩
  rw [List.take_add_one, hd, Option.toList_some, List.mem_append, List.mem_singleton] at hd'
  obtain hd' | rfl := hd'
  · exact h.passed d' hd'
  · exact hdisj

/-- The head of the loop: something is left of `accepts`, unless there was nothing. -/
structure Head (label : Fin SBC_MAX → List Int) (e : Int) (A : Set (Fin SBC_MAX)) (k : Nat)
    (s : Groups) (j : Nat) : Prop extends Dividing label e A k s j where
  small : s.dests.length ≤ SBC_MAX
  left : s.accepts = 0#256 → A = ∅

/-- The loop starts with all of `accepts`. -/
theorem Grouped.head (h : Grouped label k s) (hsmall : s.dests.length ≤ SBC_MAX) (set : Bitset) :
    Head label e set.chars k { s with accepts := set } 0 := by
  refine ⟨⟨⟨h.sets, ?_, h.empties⟩, subset_rfl, ?_, by simp, Nat.zero_le _⟩, hsmall, fun hzero =>
    Bitset.chars_eq_empty.mpr hzero⟩
  · rw [sdiff_self, Set.bot_eq_empty, mark_empty]
    exact h.fibres
  · rw [sdiff_self]
    exact apart_empty _ _

/-- How the loop ends: behind the last group, or earlier because nothing is left. -/
inductive Ends (label : Fin SBC_MAX → List Int) (e : Int) (A : Set (Fin SBC_MAX)) (k : Nat) :
    Except Stop (Groups × Nat) → Prop
  | behind {s : Groups} (h : Head label e A k s s.dests.length) :
      Ends label e A k (.ok (s, s.dests.length))
  | consumed {s : Groups} {j : Nat} (hj : j < s.dests.length) (hA : A ≠ ∅)
      (hsmall : s.dests.length ≤ SBC_MAX) (hzero : s.accepts = 0#256)
      (h : Grouped (mark e A label) k s) : Ends label e A k (.ok (s, j))
  | overflow (h : SBC_MAX < count (mark e A label) k) : Ends label e A k (.error .overflow)

theorem dividePass_spec (hok : ∀ k, ok k = true) {node : Token}
    (hnode : node.type = .character → ∀ c ∈ A, c = node.c) (hlt : ∀ c, ∀ x ∈ label c, x < e)
    (h : Head label e A k s j) :
    (∃ t, dividePass ok node e (s, j) = some (.inl (t, j + 1)) ∧ Head label e A k t (j + 1)) ∨
      ∃ r, dividePass ok node e (s, j) = some (.inr r) ∧ Ends label e A k r := by
  unfold dividePass
  by_cases hend : s.dests.length ≤ j
  · obtain rfl : j = s.dests.length := le_antisymm h.le hend
    exact .inr ⟨_, if_pos (le_refl _), .behind h⟩
  · obtain ⟨d, hd⟩ : ∃ d, s.dests[j]? = some d := ⟨_, List.getElem?_eq_getElem (not_le.mp hend)⟩
    have hskip : Disjoint d.ch.chars s.accepts.chars → Head label e A k s (j + 1) :=
      fun hdisj => ⟨h.toDividing.skip hd hdisj, h.small, h.left⟩
    simp only [hend, if_false, hd, Option.bind_eq_bind, Option.bind_some]
    by_cases hchar : node.type = .character ∧ !bitsetContain d.ch node.c
    · refine .inl ⟨s, if_pos hchar, hskip (Set.disjoint_left.mpr fun c hc hcs => ?_)⟩
      rw [hnode hchar.1 c (h.sub hcs), Bitset.mem_chars] at hc
      simp [hc] at hchar
    · rw [if_neg hchar]
      by_cases hcommon : s.accepts &&& d.ch = 0#256
      · refine .inl ⟨s, if_pos hcommon, hskip (Set.disjoint_iff_inter_eq_empty.mpr ?_)⟩
        rw [Set.inter_comm, ← Bitset.chars_and, hcommon]
        exact Bitset.chars_eq_empty.mpr rfl
      · rw [if_neg hcommon]
        obtain ⟨t, ht, haccepts, ⟨hsmall, hrun⟩ | ⟨hbig, hrun⟩⟩ :=
          takePart_spec hok h.toDividing h.small hlt hd hcommon
        · simp only [hrun, Option.bind_some]
          by_cases hzero : t.accepts = 0#256
          · have hA : A ≠ ∅ := fun hA => hcommon <| by
              have hs : s.accepts.chars = ∅ := Set.subset_empty_iff.mp (hA ▸ h.sub)
              rw [Bitset.chars_eq_empty.mp hs, BitVec.zero_and]
            have hgrouped := ht.grouped
            rw [Bitset.chars_eq_empty.mpr hzero, Set.sdiff_empty] at hgrouped
            exact .inr ⟨_, if_pos hzero, .consumed ht.le hA hsmall hzero hgrouped⟩
          · exact .inl ⟨t, if_neg hzero, ht, hsmall, fun h => absurd h hzero⟩
        · rw [hrun]
          refine .inr ⟨_, rfl, .overflow ?_⟩
          rw [ht.grouped.length_eq] at hbig
          exact hbig.trans_le (ht.card_le fun c hc => lt_irrefl e (hlt c e hc))

/-- What remains behind the last group gets a group of its own. -/
theorem Head.add (h : Head label e A k s s.dests.length) (hfresh : ∀ c, e ∉ label c)
    {set : ReNodeSet} (hset : Holds set [e]) {k' : Nat} (hempty : A = ∅ → k' = k + 1)
    (hne : A ≠ ∅ → k' = k) (accepts : Bitset) (calls : Nat) :
    Grouped (mark e A label) k' ⟨s.dests ++ [⟨s.accepts, set⟩], accepts, calls⟩ := by
  have hnil : ∀ c ∈ s.accepts.chars, mark e (A \ s.accepts.chars) label c = [] := fun c hc => by
    by_contra hlabel
    obtain ⟨p, hp, hcp⟩ := h.grouped.fibres.total c hlabel
    obtain ⟨d, hd, rfl⟩ := List.mem_map.mp hp
    exact Set.disjoint_left.mp (h.passed d (by rwa [List.take_length])) hcp hc
  have hnew : ∀ c, mark e (A \ s.accepts.chars) label c ≠ [e] := fun c => by
    obtain hzero | ⟨x, hx⟩ := s.accepts.chars.eq_empty_or_nonempty
    · rw [h.left (Bitset.chars_eq_empty.mp hzero), Set.empty_sdiff, mark_empty]
      exact fun heq => hfresh c (by simp [heq])
    · have hx' := h.apart.new hfresh hx c
      rwa [hnil x hx, List.nil_append] at hx'
  refine ⟨?_, ?_, ?_⟩
  · simp only [List.forall_mem_append, List.forall_mem_singleton]
    exact ⟨h.grouped.sets, holds_members hset⟩
  · have hadd := h.grouped.fibres.add hnil hnew
    rw [mark_mark h.apart.1, Set.sdiff_union_of_subset h.sub] at hadd
    simpa only [List.map_append, List.map_cons, List.map_nil, Dest.block, hset.members] using hadd
  · have hzero : s.accepts = 0#256 ↔ A = ∅ := ⟨h.left, fun hA =>
      Bitset.chars_eq_empty.mp (Set.subset_empty_iff.mp (hA ▸ h.sub))⟩
    have hempties := h.grouped.empties
    by_cases hA : A = ∅
    · simp [List.countP_append, hempties, hzero.mpr hA, hempty hA]
    · simp [List.countP_append, hempties, mt hzero.mp hA, hne hA]

/-- A node is divided; `k'` counts it if its set is empty. -/
theorem divide_spec (hok : ∀ k, ok k = true) {node : Token}
    (hnode : node.type = .character → ∀ c ∈ A, c = node.c) (hlt : ∀ c, ∀ x ∈ label c, x < e)
    (h : Head label e A k s 0) {k' : Nat} (hempty : A = ∅ → k' = k + 1) (hne : A ≠ ∅ → k' = k) :
    (∃ t, divide ok node e s = some (.ok t) ∧ Grouped (mark e A label) k' t ∧
      t.accepts = 0#256 ∧ t.dests.length ≤ SBC_MAX) ∨
    divide ok node e s = some (.error .overflow) ∧ SBC_MAX < count (mark e A label) k' := by
  have hfresh : ∀ c, e ∉ label c := fun c hc => lt_irrefl e (hlt c e hc)
  obtain ⟨r, hrun, hends⟩ := @tryLoop_total _ _ (dividePass ok node e)
    (fun p => Head label e A k p.1 p.2) (Ends label e A k) (fun p => SBC_MAX - p.2)
    (fun p hp => by
      obtain ⟨t, hpass, ht⟩ | ⟨r, hpass, hr⟩ := dividePass_spec hok hnode hlt hp
      · have hle := ht.le.trans ht.small
        exact .inl ⟨_, hpass, ht, by simp only; omega⟩
      · exact .inr ⟨r, hpass, hr⟩) (SBC_MAX + 1) (s, 0) h (by omega)
  unfold divide
  rw [hrun]
  cases hends with
  | @behind t ht =>
    obtain ⟨set, hinit, hset⟩ := init1_spec e
    rw [← hok t.calls] at hinit
    have hgrouped := ht.add hfresh hset hempty hne 0#256 (t.calls + 1)
    have hlen := hgrouped.length_eq
    rw [List.length_append, List.length_singleton] at hlen
    simp only [Option.bind_eq_bind, Option.bind_some, if_true, addDest_spec hinit]
    by_cases hfull : t.dests.length < SBC_MAX
    · rw [if_pos hfull]
      exact .inl ⟨_, rfl, hgrouped, rfl, by rw [List.length_append]; exact hfull⟩
    · rw [if_neg hfull]
      exact .inr ⟨rfl, hlen ▸ Nat.lt_succ_of_le (not_lt.mp hfull)⟩
  | consumed hj hA hsmall hzero hgrouped =>
    refine .inl ⟨_, if_neg hj.ne, ?_, hzero, hsmall⟩
    rwa [hne hA]
  | overflow hbig =>
    refine .inr ⟨rfl, hbig.trans_le (Nat.add_le_add_left ?_ _)⟩
    by_cases hA : A = ∅
    · exact (hempty hA).symm ▸ Nat.le_succ k
    · exact (hne hA).ge

/-! ## The loop over the nodes -/

variable {dfa : Dfa}

variable (dfa) in
/-- The nodes that accept the character. -/
def acceptors (xs : List Int) (c : Fin SBC_MAX) : List Int :=
  xs.filter fun x => (getAt dfa.nodes x).any (·.accepts dfa c)

variable (dfa) in
def emptyBrackets (xs : List Int) : Nat :=
  xs.countP fun x => (getAt dfa.nodes x).any Token.emptyBracket

theorem acceptors_append (p q : List Int) (c : Fin SBC_MAX) :
    acceptors dfa (p ++ q) c = acceptors dfa p c ++ acceptors dfa q c := List.filter_append ..

theorem acceptors_snoc {node : Token} (hnode : getAt dfa.nodes e = some node) (p : List Int) :
    acceptors dfa (p ++ [e]) = mark e {c | node.accepts dfa c = true} (acceptors dfa p) := by
  funext c
  rw [acceptors_append]
  by_cases hc : node.accepts dfa c = true
  · rw [mark_mem (C := {c | node.accepts dfa c = true}) hc]
    simp [acceptors, hnode, hc]
  · rw [mark_notMem (C := {c | node.accepts dfa c = true}) hc]
    simp [acceptors, hnode, hc]

theorem emptyBrackets_snoc {node : Token} (hnode : getAt dfa.nodes e = some node) (p : List Int) :
    emptyBrackets dfa (p ++ [e]) =
      emptyBrackets dfa p + if node.emptyBracket then 1 else 0 := by
  simp [emptyBrackets, List.countP_append, hnode]

/-- More nodes make no fewer groups. -/
theorem count_le (p q : List Int) :
    count (acceptors dfa p) (emptyBrackets dfa p) ≤
      count (acceptors dfa (p ++ q)) (emptyBrackets dfa (p ++ q)) := by
  refine Nat.add_le_add (card_labels_le (fun c c' heq => ?_) fun c hc => ?_) ?_
  · refine List.filter_congr fun x hx => ?_
    have hmem := congrArg (x ∈ ·) heq
    simp only [acceptors, List.mem_filter, List.mem_append, hx, true_or, true_and,
      eq_iff_iff] at hmem
    exact Bool.eq_iff_iff.mpr hmem
  · rw [acceptors_append]
    exact List.append_ne_nil_of_left_ne_nil hc _
  · rw [emptyBrackets, emptyBrackets, List.countP_append]
    exact Nat.le_add_right _ _

/-- A node that accepts nothing, and is no bracket. -/
theorem Grouped.skipNode {p : List Int} {node : Token}
    (h : Grouped (acceptors dfa p) (emptyBrackets dfa p) s) (hnode : getAt dfa.nodes e = some node)
    (hnone : ∀ c, node.accepts dfa c = false) (hfree : node.emptyBracket = false) :
    Grouped (acceptors dfa (p ++ [e])) (emptyBrackets dfa (p ++ [e])) s := by
  have hempty : {c | node.accepts dfa c = true} = ∅ :=
    Set.eq_empty_iff_forall_notMem.mpr fun c hc => by simp [hnone c] at hc
  rwa [acceptors_snoc hnode, emptyBrackets_snoc hnode, hempty, mark_empty, hfree,
    if_neg (by simp), Nat.add_zero]

/-- One node. -/
theorem groupNode_spec (hok : ∀ k, ok k = true) (hmb : dfa.mbCurMax ≤ 1) {p : List Int}
    (hs : Grouped (acceptors dfa p) (emptyBrackets dfa p) s) (hsmall : s.dests.length ≤ SBC_MAX)
    (haccepts : s.accepts = 0#256) (hlt : ∀ x ∈ p, x < e) {node : Token}
    (hnode : getAt dfa.nodes e = some node) (hword : node.WordCharRight dfa) :
    (∃ t, groupNode dfa ok e s = some (.ok t) ∧
      Grouped (acceptors dfa (p ++ [e])) (emptyBrackets dfa (p ++ [e])) t ∧
      t.accepts = 0#256 ∧ t.dests.length ≤ SBC_MAX) ∨
    groupNode dfa ok e s = some (.error .overflow) ∧
      SBC_MAX < count (acceptors dfa (p ++ [e])) (emptyBrackets dfa (p ++ [e])) := by
  unfold groupNode
  rw [hnode, haccepts]
  simp only [Option.bind_eq_bind, Option.bind_some]
  obtain ⟨henum, hnone, hfree⟩ | ⟨set, henum, hset, hstop, hgo⟩ := accepts_spec hmb hword
  · rw [henum]
    exact .inl ⟨s, rfl, hs.skipNode hnode hnone hfree, haccepts, hsmall⟩
  · simp only [henum]
    cases hsift : (sift dfa node set).2 with
    | false =>
      have hzero := hstop hsift
      have hnone : ∀ c, node.accepts dfa c = false := fun c => by
        rw [← hset, hzero, bitsetContain_zero]
      have hgrouped := hs.skipNode hnode hnone ((hgo hzero).symm.trans hsift)
      exact .inl ⟨_, if_neg (by simp), ⟨hgrouped.sets, hgrouped.fibres, hgrouped.empties⟩, hzero,
        hsmall⟩
    | true =>
      rw [hsift] at hgo
      have hA : {c | node.accepts dfa c = true} = (sift dfa node set).1.chars :=
        Set.ext fun c => by rw [Bitset.mem_chars, hset]; rfl
      have hempty : (sift dfa node set).1.chars = ∅ ↔ node.emptyBracket = true := by
        refine ⟨fun h => (hgo (Bitset.chars_eq_empty.mp h)).symm, fun h => ?_⟩
        exact Set.eq_empty_iff_forall_notMem.mpr fun c hc => by
          simp [← hA, accepts_of_emptyBracket h c] at hc
      have hchar : node.type = .character → ∀ c ∈ (sift dfa node set).1.chars, c = node.c :=
        fun htype c hc => by
          simp only [← hA, Set.mem_ofPred_eq, Token.accepts, Token.has, htype, Bool.and_eq_true,
            decide_eq_true_eq] at hc
          exact hc.1
      rw [acceptors_snoc hnode, emptyBrackets_snoc hnode, hA, if_pos rfl]
      exact divide_spec hok hchar (fun c x hx => hlt x (List.mem_of_mem_filter hx))
        (hs.head hsmall _) (fun h => by rw [if_pos (hempty.mp h)])
        (fun h => by rw [if_neg (mt hempty.mpr h), add_zero])

/-- The loop over the nodes behind `p`. -/
theorem groupNodes_spec (hok : ∀ k, ok k = true) (hmb : dfa.mbCurMax ≤ 1) {curNodes : ReNodeSet}
    {xs : List Int} (hxs : Holds curNodes xs)
    (hnodes : ∀ x ∈ xs, ∃ node, getAt dfa.nodes x = some node ∧ node.WordCharRight dfa) :
    ∀ (q p : List Int) (s : Groups), xs = p ++ q →
      Grouped (acceptors dfa p) (emptyBrackets dfa p) s → s.accepts = 0#256 →
      s.dests.length ≤ SBC_MAX →
      (∃ t, groupNodes dfa ok curNodes (List.range' p.length q.length) s = some (.ok t) ∧
        Grouped (acceptors dfa xs) (emptyBrackets dfa xs) t ∧ t.dests.length ≤ SBC_MAX) ∨
      groupNodes dfa ok curNodes (List.range' p.length q.length) s = some (.error .overflow) ∧
        SBC_MAX < count (acceptors dfa xs) (emptyBrackets dfa xs)
  | [], p, s, hpq, hs, _, hsmall => by
    rw [List.append_nil] at hpq
    exact .inl ⟨s, rfl, hpq ▸ hs, hsmall⟩
  | e :: q, p, s, hpq, hs, haccepts, hsmall => by
    obtain ⟨node, hnode, hword⟩ := hnodes e (by simp [hpq])
    have hlt : ∀ x ∈ p, x < e := fun x hx => by
      have hsorted := hxs.sorted
      rw [hpq, List.pairwise_append] at hsorted
      exact hsorted.2.2 x hx e List.mem_cons_self
    have hread : readCell curNodes.elems p.length = some e := (hpq ▸ hxs).read rfl
    have hsnoc : xs = (p ++ [e]) ++ q := by rw [hpq, List.append_assoc]; rfl
    rw [List.length_cons, List.range'_succ, groupNodes, hread]
    simp only [Option.bind_eq_bind, Option.bind_some]
    obtain ⟨t, hrun, ht, haccepts', hsmall'⟩ | ⟨hrun, hbig⟩ :=
      groupNode_spec hok hmb hs hsmall haccepts hlt hnode hword
    · rw [hrun]
      have ih := groupNodes_spec hok hmb hxs hnodes q (p ++ [e]) t hsnoc ht haccepts' hsmall'
      rwa [List.length_append, List.length_singleton] at ih
    · rw [hrun]
      exact .inr ⟨rfl, hsnoc ▸ hbig.trans_le (count_le (p ++ [e]) q)⟩

/-- What the function returns, and when its arrays are too small. -/
theorem groupNodesIntoDFAstates_spec (hok : ∀ k, ok k = true) (hmb : dfa.mbCurMax ≤ 1)
    {curNodes : ReNodeSet} {xs : List Int} (hxs : Holds curNodes xs)
    (hnodes : ∀ x ∈ xs, ∃ node, getAt dfa.nodes x = some node ∧ node.WordCharRight dfa) :
    (∃ t : Groups, groupNodesIntoDFAstates dfa ok curNodes = some (.ok t.dests) ∧
      Grouped (acceptors dfa xs) (emptyBrackets dfa xs) t ∧ t.dests.length ≤ SBC_MAX) ∨
    groupNodesIntoDFAstates dfa ok curNodes = some (.error .overflow) ∧
      SBC_MAX < count (acceptors dfa xs) (emptyBrackets dfa xs) := by
  have hlen : curNodes.nelem.toNat = xs.length := by rw [hxs.nelem, Int.toNat_natCast]
  have hstart : Grouped (acceptors dfa []) (emptyBrackets dfa []) ⟨[], 0#256, 0⟩ :=
    ⟨by simp, fibres_nil, rfl⟩
  unfold groupNodesIntoDFAstates
  rw [hlen, List.range_eq_range', bitsetEmpty_eq]
  obtain ⟨t, hrun, ht, hsmall⟩ | ⟨hrun, hbig⟩ :=
    groupNodes_spec hok hmb hxs hnodes xs [] ⟨[], 0#256, 0⟩ rfl hstart rfl (by simp)
  · rw [List.length_nil] at hrun
    rw [hrun]
    exact .inl ⟨t, rfl, ht, hsmall⟩
  · rw [List.length_nil] at hrun
    rw [hrun]
    exact .inr ⟨rfl, hbig⟩

/-! ## The partition -/

/-- The call has written past the end of the arrays. -/
def overflows (r : Option (Except Stop (List Dest))) : Bool :=
  match r with
  | some (.error .overflow) => true
  | _ => false

/-- The arrays are too small when there are too many groups. -/
theorem overflows_iff (hok : ∀ k, ok k = true) (hmb : dfa.mbCurMax ≤ 1) {curNodes : ReNodeSet}
    {xs : List Int} (hxs : Holds curNodes xs)
    (hnodes : ∀ x ∈ xs, ∃ node, getAt dfa.nodes x = some node ∧ node.WordCharRight dfa) :
    overflows (groupNodesIntoDFAstates dfa ok curNodes) = true ↔
      SBC_MAX < count (acceptors dfa xs) (emptyBrackets dfa xs) := by
  obtain ⟨t, hrun, ht, hsmall⟩ | ⟨hrun, hbig⟩ := groupNodesIntoDFAstates_spec hok hmb hxs hnodes
  · rw [ht.length_eq] at hsmall
    rw [hrun]
    exact iff_of_false Bool.false_ne_true (not_lt.mpr hsmall)
  · rw [hrun]
    exact iff_of_true rfl hbig

/-- The groups are disjoint, every character that a node accepts is in exactly one of them, and the
    nodes of a group are those that accept any of its characters. -/
theorem groups_partition (hok : ∀ k, ok k = true) (hmb : dfa.mbCurMax ≤ 1) {curNodes : ReNodeSet}
    {xs : List Int} (hxs : Holds curNodes xs)
    (hnodes : ∀ x ∈ xs, ∃ node, getAt dfa.nodes x = some node ∧ node.WordCharRight dfa)
    (hfits : overflows (groupNodesIntoDFAstates dfa ok curNodes) = false) :
    ∃ dests, groupNodesIntoDFAstates dfa ok curNodes = some (.ok dests) ∧
      dests.Pairwise (fun d d' => Disjoint d.ch.chars d'.ch.chars) ∧
      (∀ c, (∃ x ∈ xs, ∃ node, getAt dfa.nodes x = some node ∧ node.accepts dfa c = true) →
        ∃! i : Nat, ∃ d, dests[i]? = some d ∧ c ∈ d.ch.chars) ∧
      ∀ d ∈ dests, ∀ c ∈ d.ch.chars,
        (∃ x, x ∈ d.node.members) ∧ ∀ x, x ∈ d.node.members ↔
          x ∈ xs ∧ ∃ node, getAt dfa.nodes x = some node ∧ node.accepts dfa c = true := by
  have hmem : ∀ c x, x ∈ acceptors dfa xs c ↔
      x ∈ xs ∧ ∃ node, getAt dfa.nodes x = some node ∧ node.accepts dfa c = true := fun c x => by
    rw [acceptors, List.mem_filter, Option.any_eq_true]
  obtain ⟨t, hrun, ht, _⟩ | ⟨hrun, _⟩ := groupNodesIntoDFAstates_spec hok hmb hxs hnodes
  · have hdisj : (t.dests.map Dest.block).Pairwise fun p q => Disjoint p.1 q.1 := ht.fibres.disjoint
    rw [List.pairwise_map] at hdisj
    refine ⟨t.dests, hrun, hdisj, fun c ⟨x, hx⟩ => ?_, fun d hd c hc => ?_⟩
    · obtain ⟨i, ⟨p, hp, hcp⟩, huniq⟩ :=
        ht.fibres.existsUnique (List.ne_nil_of_mem ((hmem c x).mpr hx))
      rw [List.getElem?_map, Option.map_eq_some_iff] at hp
      obtain ⟨d, hd, rfl⟩ := hp
      refine ⟨i, ⟨d, hd, hcp⟩, fun j ⟨d', hd', hc⟩ => huniq j ⟨d'.block, ?_, hc⟩⟩
      rw [List.getElem?_map, hd', Option.map_some]
    · have hblock : d.block ∈ t.dests.map Dest.block := List.mem_map_of_mem hd
      have hlabel : acceptors dfa xs c = d.node.members := ht.fibres.eq_label hblock hc
      rw [← hlabel]
      exact ⟨List.exists_mem_of_ne_nil _ (hlabel ▸ (ht.fibres.fibre _ hblock).1), hmem c⟩
  · simp [hrun, overflows] at hfits

/-- A word character, a bracket and a period. -/
def threeNodes : Dfa :=
  { nodes := [
      { type := .character, c := 0x61, constraint := NEXT_WORD_CONSTRAINT, wordChar := true },
      { type := .simpleBracket, sbcset := bitsetSet (bitsetSet 0#256 0x61) 0x2d },
      { type := .opPeriod, constraint := NEXT_NOTWORD_CONSTRAINT }]
    dotNewline := true
    dotNotNull := true
    mbCurMax := 1
    wordChar := bitsetSet 0#256 0x61
    sbChar := 0#256 }

theorem groups_partition_three :
    ∃ dests, groupNodesIntoDFAstates threeNodes (fun _ => true)
        ⟨3, 3, [some 0, some 1, some 2]⟩ = some (.ok dests) ∧
      ∃! i : Nat, ∃ d, dests[i]? = some d ∧ (0x2d : Fin SBC_MAX) ∈ d.ch.chars := by
  have hholds : Holds ⟨3, 3, [some 0, some 1, some 2]⟩ [0, 1, 2] := ⟨by decide, rfl, rfl, [], rfl⟩
  obtain ⟨dests, hrun, _, hunique, _⟩ := @groups_partition (fun _ => true) threeNodes (fun _ => rfl)
    (by decide) _ _ hholds (by
      simp only [List.forall_mem_cons]
      exact ⟨⟨_, rfl, fun _ _ => by decide⟩, ⟨_, rfl, fun h => absurd h (by decide)⟩,
        ⟨_, rfl, fun h => absurd h (by decide)⟩, by simp⟩) (by decide)
  exact ⟨dests, hrun, hunique 0x2d ⟨1, by decide, _, rfl, by decide⟩⟩

end Librecompat.Grouping
