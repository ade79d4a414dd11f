/-
  Where the groups of a pattern are: a run over its marks, from left to right.

  A place in the pattern is given by the groups around it, the innermost first, each with the branch
  of its alternation that the place is in. The whole pattern counts as group 0, and a group without
  alternation has one branch. Two places are in different branches of one alternation if and only
  if a group around both comes with two numbers.
-/
import Librecompat.Regcomp.Model

namespace Librecompat.Regcomp

/-- The groups around a place, each with the number of a branch. -/
abbrev Place := List (Nat × Nat)

/-- A group whose closing parenthesis has been read; `place` is what is around the group. -/
structure Group where
  number : Nat
  place : Place
  closedAt : Nat

/-- `here` is the place that the run has reached. -/
structure Scan where
  opened : Nat
  here : Place
  groups : List Group

def Scan.step (sc : Scan) (m : Mark) : Scan :=
  match m.kind, sc.here with
  | .openSubexp, here => { sc with opened := sc.opened + 1, here := (sc.opened + 1, 0) :: here }
  | .closeSubexp, (group, _) :: around =>
    { sc with here := around, groups := sc.groups ++ [⟨group, around, m.idx⟩] }
  | .alt, (group, branch) :: around => { sc with here := (group, branch + 1) :: around }
  | _, _ => sc

def scan (marks : List Mark) : Scan := marks.foldl Scan.step ⟨0, [(0, 0)], []⟩

/-- No group around both places has them in different branches. -/
def SameBranches (p q : Place) : Prop :=
  ∀ group branch branch', (group, branch) ∈ p → (group, branch') ∈ q → branch = branch'

/-- Group `k + 1` is closed, and not in another branch of an alternation around the place. -/
def Scan.Sees (sc : Scan) (place : Place) (k : Nat) : Prop :=
  ∃ g ∈ sc.groups, g.number = k + 1 ∧ SameBranches place g.place

@[simp] theorem scan_append_singleton (marks : List Mark) (m : Mark) :
    scan (marks ++ [m]) = (scan marks).step m := by
  rw [scan, List.foldl_append]
  rfl

/-! ## Places -/

theorem SameBranches.of_cons {x : Nat × Nat} {p q : Place} (h : SameBranches (x :: p) q) :
    SameBranches p q :=
  fun group branch branch' hp hq => h group branch branch' (List.mem_cons_of_mem x hp) hq

theorem SameBranches.cons {group branch : Nat} {p q : Place} (h : SameBranches p q)
    (hfresh : ∀ x ∈ q, x.1 ≠ group) : SameBranches ((group, branch) :: p) q := by
  intro g b b' hp hq
  obtain heq | hp := List.mem_cons.mp hp
  · exact absurd (Prod.mk.inj heq).1 (hfresh _ hq)
  · exact h g b b' hp hq

theorem sameBranches_self {p : Place} (h : p.Pairwise fun x y => y.1 < x.1) : SameBranches p p := by
  intro g b b' hb hb'
  induction p with
  | nil => exact absurd hb List.not_mem_nil
  | cons x p ih =>
    obtain ⟨hx, hp⟩ := List.pairwise_cons.mp h
    rw [List.mem_cons] at hb hb'
    obtain rfl | hb := hb
    · obtain heq | hb' := hb'
      · exact (Prod.mk.inj heq).2.symm
      · exact absurd (hx _ hb') (Nat.lt_irrefl _)
    · obtain rfl | hb' := hb'
      · exact absurd (hx _ hb) (Nat.lt_irrefl _)
      · exact ih hp hb hb'

theorem Scan.Sees.of_cons {sc : Scan} {x : Nat × Nat} {p : Place} {k : Nat}
    (h : sc.Sees (x :: p) k) : sc.Sees p k := by
  obtain ⟨g, hg, hnumber, hsame⟩ := h
  exact ⟨g, hg, hnumber, hsame.of_cons⟩

theorem Scan.Sees.mono {sc sc' : Scan} {p : Place} {k : Nat} (h : sc.Sees p k)
    (hsub : sc.groups ⊆ sc'.groups) : sc'.Sees p k := by
  obtain ⟨g, hg, hsees⟩ := h
  exact ⟨g, hsub hg, hsees⟩

/-! ## What holds behind every list of marks -/

/-- The groups around the place are numbered from the outside to the inside, and no group has a
    number that is still to come. -/
structure Scan.Numbered (sc : Scan) : Prop where
  here_le : ∀ x ∈ sc.here, x.1 ≤ sc.opened
  here_lt : sc.here.Pairwise fun x y => y.1 < x.1
  groups_le : ∀ g ∈ sc.groups, ∀ x ∈ g.place, x.1 ≤ sc.opened

theorem Scan.Numbered.step {sc : Scan} (h : sc.Numbered) (m : Mark) : (sc.step m).Numbered := by
  obtain ⟨opened, here, groups⟩ := sc
  obtain ⟨hle, hlt, hgroups⟩ := h
  obtain ⟨kind, idx⟩ := m
  cases kind with
  | openSubexp =>
    refine ⟨?_, ?_, fun g hg x hx => Nat.le_succ_of_le (hgroups g hg x hx)⟩
    · simp only [Scan.step, List.mem_cons, forall_eq_or_imp]
      exact ⟨Nat.le_refl _, fun x hx => Nat.le_succ_of_le (hle x hx)⟩
    · exact List.pairwise_cons.mpr ⟨fun x hx => Nat.lt_succ_of_le (hle x hx), hlt⟩
  | closeSubexp =>
    cases here with
    | nil => exact ⟨hle, hlt, hgroups⟩
    | cons x around =>
      refine ⟨fun y hy => hle y (List.mem_cons_of_mem x hy), (List.pairwise_cons.mp hlt).2, ?_⟩
      intro g hg y hy
      obtain hg | hg := List.mem_append.mp hg
      · exact hgroups g hg y hy
      · obtain rfl := List.mem_singleton.mp hg
        exact hle y (List.mem_cons_of_mem x hy)
  | alt =>
    cases here with
    | nil => exact ⟨hle, hlt, hgroups⟩
    | cons x around =>
      obtain ⟨hx, haround⟩ := List.pairwise_cons.mp hlt
      refine ⟨?_, List.pairwise_cons.mpr ⟨hx, haround⟩, hgroups⟩
      simp only [Scan.step, List.mem_cons, forall_eq_or_imp]
      exact ⟨hle x List.mem_cons_self, fun y hy => hle y (List.mem_cons_of_mem x hy)⟩
  | backRef k => exact ⟨hle, hlt, hgroups⟩

theorem scan_numbered (marks : List Mark) : (scan marks).Numbered := by
  induction marks using List.reverseRecOn with
  | nil => exact ⟨by decide, by decide, by decide⟩
  | append_singleton marks m ih => rw [scan_append_singleton]; exact ih.step m

theorem Scan.groups_subset_step (sc : Scan) (m : Mark) : sc.groups ⊆ (sc.step m).groups := by
  unfold Scan.step
  split
  · exact List.Subset.refl _
  · exact List.subset_append_left _ _
  · exact List.Subset.refl _
  · exact List.Subset.refl _

theorem scan_groups_mono {marks marks' : List Mark} (h : marks <+: marks') :
    (scan marks).groups ⊆ (scan marks').groups := by
  obtain ⟨rest, rfl⟩ := h
  induction rest using List.reverseRecOn with
  | nil => rw [List.append_nil]; exact List.Subset.refl _
  | append_singleton rest m ih =>
    rw [← List.append_assoc, scan_append_singleton]
    exact List.Subset.trans ih (Scan.groups_subset_step _ m)

/-- A group is closed at a mark. -/
theorem closedAt_mem {marks : List Mark} {g : Group} (h : g ∈ (scan marks).groups) :
    ⟨.closeSubexp, g.closedAt⟩ ∈ marks := by
  induction marks using List.reverseRecOn with
  | nil => exact absurd h List.not_mem_nil
  | append_singleton marks m ih =>
    rw [scan_append_singleton] at h
    obtain ⟨kind, idx⟩ := m
    have hold : g ∈ (scan marks).groups → ⟨.closeSubexp, g.closedAt⟩ ∈ marks ++ [⟨kind, idx⟩] :=
      fun hg => List.mem_append_left _ (ih hg)
    cases kind with
    | closeSubexp =>
      cases hhere : (scan marks).here with
      | nil => exact hold (by simpa [Scan.step, hhere] using h)
      | cons x around =>
        simp only [Scan.step, hhere, List.mem_append, List.mem_singleton] at h
        obtain h | rfl := h
        · exact hold h
        · exact List.mem_append_right _ List.mem_cons_self
    | alt =>
      cases hhere : (scan marks).here with
      | nil => exact hold (by simpa [Scan.step, hhere] using h)
      | cons x around => exact hold (by simpa [Scan.step, hhere] using h)
    | openSubexp => exact hold h
    | backRef k => exact hold h

/-! ## Back references -/

def MarkKind.ref : MarkKind → Option Nat
  | .backRef idx => some idx
  | _ => none

/-- The numbers of the back references. -/
def refs (marks : List Mark) : List Nat := marks.filterMap fun m => m.kind.ref

theorem refs_append_singleton (marks : List Mark) (m : Mark) :
    refs (marks ++ [m]) = refs marks ++ m.kind.ref.toList := by
  rw [refs, List.filterMap_append]
  cases hkind : m.kind.ref <;> simp [refs, hkind]

/-- Each back reference names a group that it sees. -/
def Seen (marks : List Mark) : Prop :=
  ∀ before k idx after, marks = before ++ ⟨.backRef k, idx⟩ :: after →
    (scan before).Sees (scan before).here k

theorem seen_nil : Seen [] := by
  intro before k idx after h
  simp at h

theorem Seen.append_singleton {marks : List Mark} {m : Mark} (h : Seen marks)
    (hm : ∀ k, m.kind = .backRef k → (scan marks).Sees (scan marks).here k) :
    Seen (marks ++ [m]) := by
  intro before k idx after heq
  induction after using List.reverseRecOn with
  | nil =>
    obtain ⟨rfl, hlast⟩ := List.append_inj' heq rfl
    exact hm k (by rw [List.singleton_inj.mp hlast])
  | append_singleton after m' _ =>
    rw [← List.cons_append, ← List.append_assoc] at heq
    exact h before k idx after (List.append_inj' heq rfl).1

end Librecompat.Regcomp
