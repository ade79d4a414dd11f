/-
  Fragments of automata with empty moves.

  In a graph a move reads a letter or nothing. A fragment for a language is the part of the graph
  between two nodes that reads the words of the language (`Fragment`): what is accepted from its
  entry is such a word and then what is accepted from its exit. Fragments are put together as regular
  expressions are. That a part of the word is left for the exit after no more moves than the whole
  took is what makes the loop of a star end.
-/
import Mathlib.Computability.NFA
import Mathlib.Logic.Relation

namespace Librecompat.Lib

open scoped Computability

variable {ι α : Type*}

/-- The words of one letter of the set. -/
def letters (s : Set α) : Language α := {w | ∃ a ∈ s, w = [a]}

/-- The moves of an automaton, and the nodes where it accepts. -/
structure Moves (ι α : Type*) where
  empty : ι → ι → Prop
  letter : ι → α → ι → Prop
  final : ι → Prop

variable (M : Moves ι α)

/-- From the node the word is accepted in `n` moves. -/
inductive Moves.Accepts : Nat → ι → List α → Prop
  | final {i : ι} (h : M.final i) : Accepts 0 i []
  | empty {n : Nat} {i j : ι} {w : List α} (h : M.empty i j) (hw : Accepts n j w) :
      Accepts (n + 1) i w
  | letter {n : Nat} {i j : ι} {a : α} {w : List α} (h : M.letter i a j) (hw : Accepts n j w) :
      Accepts (n + 1) i (a :: w)

/-- Between the nodes `i` and `k` the words of `L` are read. -/
structure Moves.Fragment (i : ι) (L : Language α) (k : ι) : Prop where
  reads : ∀ u ∈ L, ∀ v n, M.Accepts n k v → ∃ m, M.Accepts m i (u ++ v)
  splits : ∀ n w, M.Accepts n i w → ∃ u ∈ L, ∃ v m, w = u ++ v ∧ M.Accepts m k v ∧ m ≤ n

/-- From the node there are empty moves only, to the nodes of the set. -/
structure Moves.Branches (i : ι) (s : Set ι) : Prop where
  empty : ∀ j, M.empty i j ↔ j ∈ s
  letter : ∀ a j, ¬ M.letter i a j
  final : ¬ M.final i

namespace Moves

variable {M} {i j k : ι} {L L' : Language α} {n : Nat} {w : List α}

theorem Branches.accepts {s : Set ι} (h : M.Branches i s) (hw : M.Accepts n i w) :
    ∃ m j, n = m + 1 ∧ j ∈ s ∧ M.Accepts m j w := by
  cases hw with
  | final hfinal => exact absurd hfinal h.final
  | empty hmove hw => exact ⟨_, _, rfl, (h.empty _).mp hmove, hw⟩
  | letter hmove hw => exact absurd hmove (h.letter _ _)

/-! ## Putting fragments together -/

theorem fragment_refl (k : ι) : M.Fragment k 1 k := by
  refine ⟨fun u hu v n hv => ?_, fun n w hw => ?_⟩
  · rw [Language.mem_one] at hu
    exact ⟨n, by rwa [hu, List.nil_append]⟩
  · exact ⟨[], Language.nil_mem_one, w, n, rfl, hw, le_rfl⟩

/-- A node that goes on without reading. -/
theorem Branches.fragment (h : M.Branches i {k}) : M.Fragment i 1 k := by
  refine ⟨fun u hu v n hv => ?_, fun n w hw => ?_⟩
  · rw [Language.mem_one] at hu
    rw [hu, List.nil_append]
    exact ⟨n + 1, .empty ((h.empty k).mpr rfl) hv⟩
  · obtain ⟨m, j, rfl, rfl, hw⟩ := h.accepts hw
    exact ⟨[], Language.nil_mem_one, w, m, rfl, hw, Nat.le_succ m⟩

/-- A node that reads a letter. -/
theorem fragment_letter {s : Set α} (hempty : ∀ j, ¬ M.empty i j)
    (hletter : ∀ a j, M.letter i a j ↔ a ∈ s ∧ j = k) (hfinal : ¬ M.final i) :
    M.Fragment i (letters s) k := by
  refine ⟨?_, fun n w hw => ?_⟩
  · rintro _ ⟨a, ha, rfl⟩ v n hv
    exact ⟨n + 1, .letter ((hletter a k).mpr ⟨ha, rfl⟩) hv⟩
  · cases hw with
    | final h => exact absurd h hfinal
    | empty h hw => exact absurd h (hempty _)
    | letter h hw =>
      obtain ⟨ha, rfl⟩ := (hletter _ _).mp h
      exact ⟨_, ⟨_, ha, rfl⟩, _, _, rfl, hw, Nat.le_succ _⟩

theorem Fragment.concat (h : M.Fragment i L j) (h' : M.Fragment j L' k) :
    M.Fragment i (L * L') k := by
  refine ⟨fun u hu v n hv => ?_, fun n w hw => ?_⟩
  · obtain ⟨a, ha, b, hb, rfl⟩ := Language.mem_mul.mp hu
    obtain ⟨m, hm⟩ := h'.reads b hb v n hv
    rw [List.append_assoc]
    exact h.reads a ha _ m hm
  · obtain ⟨a, ha, v, m, rfl, hv, hle⟩ := h.splits n w hw
    obtain ⟨b, hb, v, m', rfl, hv, hle'⟩ := h'.splits m v hv
    exact ⟨a ++ b, Language.mem_mul.mpr ⟨a, ha, b, hb, rfl⟩, v, m', (List.append_assoc _ _ _).symm,
      hv, hle'.trans hle⟩

/-- A node that leads to two fragments. -/
theorem Branches.alternation {a b : ι} (hi : M.Branches i {a, b}) (ha : M.Fragment a L k)
    (hb : M.Fragment b L' k) : M.Fragment i (L + L') k := by
  refine ⟨fun u hu v n hv => ?_, fun n w hw => ?_⟩
  · obtain hu | hu := (Language.mem_add _ _ _).mp hu
    · obtain ⟨m, hm⟩ := ha.reads u hu v n hv
      exact ⟨m + 1, .empty ((hi.empty a).mpr (.inl rfl)) hm⟩
    · obtain ⟨m, hm⟩ := hb.reads u hu v n hv
      exact ⟨m + 1, .empty ((hi.empty b).mpr (.inr rfl)) hm⟩
  · obtain ⟨m, j, rfl, hj, hw⟩ := hi.accepts hw
    obtain rfl | rfl := hj
    · obtain ⟨u, hu, v, m', rfl, hv, hle⟩ := ha.splits m w hw
      exact ⟨u, (Language.mem_add _ _ _).mpr (.inl hu), v, m', rfl, hv, hle.trans (Nat.le_succ m)⟩
    · obtain ⟨u, hu, v, m', rfl, hv, hle⟩ := hb.splits m w hw
      exact ⟨u, (Language.mem_add _ _ _).mpr (.inr hu), v, m', rfl, hv, hle.trans (Nat.le_succ m)⟩

theorem nil_mem_kstar (L : Language α) : [] ∈ L∗ := Language.nil_mem_kstar L

theorem append_mem_kstar {u v : List α} (hu : u ∈ L) (hv : v ∈ L∗) : u ++ v ∈ L∗ := by
  rw [← Language.one_add_self_mul_kstar_eq_kstar]
  exact (Language.mem_add _ _ _).mpr (.inr (Language.mem_mul.mpr ⟨u, hu, v, hv, rfl⟩))

/-- A node that leads to a fragment which comes back, or out of the loop. -/
theorem Branches.star {a : ι} (hi : M.Branches i {a, k}) (ha : M.Fragment a L i) :
    M.Fragment i L∗ k := by
  refine ⟨fun u hu v n hv => ?_, fun n => ?_⟩
  · have hout : M.Accepts (n + 1) i v := .empty ((hi.empty k).mpr (.inr rfl)) hv
    obtain ⟨words, rfl, hwords⟩ := Language.mem_kstar.mp hu
    clear hu
    induction words with
    | nil => exact ⟨n + 1, hout⟩
    | cons u words ih =>
      obtain ⟨m, hm⟩ := ih fun x hx => hwords x (List.mem_cons_of_mem _ hx)
      obtain ⟨m', hm'⟩ := ha.reads u (hwords u List.mem_cons_self) _ m hm
      rw [List.flatten_cons, List.append_assoc]
      exact ⟨m' + 1, .empty ((hi.empty a).mpr (.inl rfl)) hm'⟩
  · induction n using Nat.strong_induction_on with
    | _ n ih =>
      intro w hw
      obtain ⟨m, j, rfl, hj, hw⟩ := hi.accepts hw
      obtain rfl | rfl := hj
      · -- once around: what is left is shorter
        obtain ⟨u, hu, v, m', rfl, hv, hle⟩ := ha.splits m w hw
        obtain ⟨u', hu', v, m'', rfl, hv, hle'⟩ := ih m' (Nat.lt_succ_of_le hle) v hv
        exact ⟨u ++ u', append_mem_kstar hu hu', v, m'', (List.append_assoc _ _ _).symm, hv, by omega⟩
      · exact ⟨[], nil_mem_kstar L, w, m, rfl, hw, Nat.le_succ m⟩

/-! ## Words that are read from a closure -/

/-- First the empty moves, then the word ends or its first letter is read. -/
theorem accepts_iff {i : ι} {w : List α} : (∃ n, M.Accepts n i w) ↔
    ∃ j, Relation.ReflTransGen M.empty i j ∧ ((w = [] ∧ M.final j) ∨
      ∃ a v k, w = a :: v ∧ M.letter j a k ∧ ∃ n, M.Accepts n k v) := by
  constructor
  · rintro ⟨n, hw⟩
    induction hw with
    | final h => exact ⟨_, .refl, .inl ⟨rfl, h⟩⟩
    | empty h hw ih =>
      obtain ⟨j, hj, hrest⟩ := ih
      exact ⟨j, .head h hj, hrest⟩
    | letter h hw ih => exact ⟨_, .refl, .inr ⟨_, _, _, rfl, h, _, hw⟩⟩
  · rintro ⟨j, hj, hrest⟩
    have hfrom : ∃ n, M.Accepts n j w := by
      obtain ⟨rfl, hfinal⟩ | ⟨a, v, k, rfl, h, n, hv⟩ := hrest
      · exact ⟨0, .final hfinal⟩
      · exact ⟨n + 1, .letter h hv⟩
    clear hrest
    induction hj using Relation.ReflTransGen.head_induction_on with
    | refl => exact hfrom
    | head h _ ih =>
      obtain ⟨n, hn⟩ := ih
      exact ⟨n + 1, .empty h hn⟩

/-- An automaton without empty moves, whose moves end with those of the graph. -/
theorem mem_acceptsFrom_closure {N : NFA α ι}
    (hstep : ∀ q a p, p ∈ N.step q a ↔ ∃ k, M.letter q a k ∧ Relation.ReflTransGen M.empty k p)
    (haccept : ∀ q, q ∈ N.accept ↔ M.final q) {i : ι} {w : List α} :
    w ∈ N.acceptsFrom {p | Relation.ReflTransGen M.empty i p} ↔ ∃ n, M.Accepts n i w := by
  induction w generalizing i with
  | nil =>
    rw [NFA.nil_mem_acceptsFrom, accepts_iff]
    constructor
    · rintro ⟨j, hj, hfinal⟩
      exact ⟨j, hj, .inl ⟨rfl, (haccept j).mp hfinal⟩⟩
    · rintro ⟨j, hj, ⟨-, hfinal⟩ | ⟨a, v, k, hcons, -⟩⟩
      · exact ⟨j, hj, (haccept j).mpr hfinal⟩
      · cases hcons
  | cons a v ih =>
    have hset : N.stepSet {p | Relation.ReflTransGen M.empty i p} a =
        ⋃ (k : ι) (_ : ∃ j, Relation.ReflTransGen M.empty i j ∧ M.letter j a k),
          {p | Relation.ReflTransGen M.empty k p} := by
      ext p
      simp only [NFA.mem_stepSet, hstep, Set.mem_iUnion, Set.mem_ofPred_eq, exists_prop]
      constructor
      · rintro ⟨j, hj, k, hk, hp⟩
        exact ⟨k, ⟨j, hj, hk⟩, hp⟩
      · rintro ⟨k, ⟨j, hj, hk⟩, hp⟩
        exact ⟨j, hj, k, hk, hp⟩
    rw [NFA.cons_mem_acceptsFrom, hset, NFA.acceptsFrom_iUnion₂, accepts_iff]
    constructor
    · intro hv
      obtain ⟨k, ⟨j, hj, hk⟩, hv⟩ := Set.mem_iUnion₂.mp hv
      exact ⟨j, hj, .inr ⟨a, v, k, rfl, hk, ih.mp hv⟩⟩
    · rintro ⟨j, hj, ⟨hnil, -⟩ | ⟨b, v', k, hcons, hk, hv⟩⟩
      · cases hnil
      · obtain ⟨rfl, rfl⟩ := List.cons.inj hcons
        exact Set.mem_iUnion₂.mpr ⟨k, ⟨j, hj, hk⟩, ih.mpr hv⟩

end Moves

end Librecompat.Lib
