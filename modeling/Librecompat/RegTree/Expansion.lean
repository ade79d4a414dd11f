/-
  What `parse_dup_op` makes of an operand.

  The result consists of the chain of the mandatory copies and the nest of the optional ones
  (`Assembled`), all of the operand's shape (`expandDup_spec`). The first optional copy gets the
  mark of an optional subexpression, the others are copied from it without the mark. From two
  mandatory copies on the mark gets to the last of them too: the copy to be marked still has the
  top of the chain as its parent (`markBeside_spec`).
-/
import Librecompat.RegTree.Chains
import Librecompat.RegTree.Operators

namespace Librecompat.RegTree

open Librecompat.Lib
open Librecompat.Regex (RegErrcode REG_NOERROR REG_ESPACE)

variable {ok : Nat → Bool} {dfa : Dfa}

/-! ## The mark on a whole copy -/

namespace Tree

def isSubexp : Tree → Bool
  | nil => false
  | node _ token _ _ => token.type = .subexp

/-- What the marks of the group of the root do to a tree. -/
def markGroup : Tree → Tree
  | nil => nil
  | node a token l r =>
    if token.type = .subexp then (node a token l r).map (Token.mark token.opr)
    else node a token l r

theorem markGroup_node (a : Nat) (token : Token) (l r : Tree) : (node a token l r).markGroup =
    if token.type = .subexp then (node a token l r).map (Token.mark token.opr)
    else node a token l r := rfl

@[simp] theorem shape_markGroup (t : Tree) : t.markGroup.shape = t.shape := by
  cases t with
  | nil => rfl
  | node a token l r =>
    rw [markGroup_node]
    split
    · exact shape_mark _ _
    · rfl

@[simp] theorem root_markGroup (t : Tree) : t.markGroup.root = t.root := by
  cases t with
  | nil => rfl
  | node a token l r =>
    rw [markGroup_node]
    split <;> rfl

@[simp] theorem addrs_markGroup (t : Tree) : t.markGroup.addrs = t.addrs := by
  cases t with
  | nil => rfl
  | node a token l r =>
    rw [markGroup_node]
    split
    · exact addrs_map _ _
    · rfl

theorem marked_markGroup {t : Tree} (h : t.isSubexp) : t.markGroup.marked = true := by
  cases t with
  | nil => simp [isSubexp] at h
  | node a token l r =>
    have htype : token.type = .subexp := by simpa [isSubexp] using h
    simp [markGroup, htype, map, marked, Token.mark]

theorem isSubexp_shape (t : Tree) : t.shape.isSubexp = t.isSubexp := by
  cases t <;> rfl

theorem isSubexp_eq_of_shape {t t' : Tree} (h : t.shape = t'.shape) :
    t.isSubexp = t'.isSubexp := by
  rw [← isSubexp_shape, h, isSubexp_shape]

end Tree

/-! ## Marking the copy -/

/-- The statement that marks `elem`. -/
def markElem (fuel : Nat) (dfa : Dfa) (elem : Nat) : Option Dfa := do
  let node ← dfa.trees[elem]?
  if node.token.type = .subexp then postorder fuel (markOptSubexp node.token.opr) dfa elem
  else some dfa

/-- A copy without a parent is marked alone. -/
theorem markAlone_spec {B c : Tree} {elem fuel : Nat} (hB : Linked dfa.trees none B)
    (hc : Linked dfa.trees none c) (helem : c.root = some elem)
    (hnd : (B.addrs ++ c.addrs).Nodup) (hfuel : 2 * c.size ≤ fuel) :
    ∃ dfa', markElem fuel dfa elem = some dfa' ∧ Linked dfa'.trees none c.markGroup ∧
      Linked dfa'.trees none B := by
  obtain ⟨_, hcnd, hdisj⟩ := List.nodup_append'.mp hnd
  cases c with
  | nil => simp at helem
  | node a token l r =>
    obtain rfl : a = elem := by simpa using helem
    unfold markElem
    simp only [hc.1, Option.bind_eq_bind, Option.bind_some, Tree.markGroup_node]
    split
    · obtain ⟨dfa', hrun, hall⟩ := postorder_root (keepsLinks_mark token.opr) rfl hc hcnd hfuel
      have hread := visitAll_mark (fun v hv => hc.lt v (mem_visits.mp hv)) hall
      refine ⟨dfa', hrun, hc.mark fun i hi => ?_, hB.congr fun i hi => ?_⟩
      · rw [hread, if_pos (mem_visits.mpr hi)]
      · rw [hread, if_neg fun h => hdisj hi (mem_visits.mp h)]
    · exact ⟨dfa, rfl, hc, hB⟩

/-- A copy that has the top of a chain as its parent is marked together with the last copy of the
    chain. -/
theorem markBeside_spec {M q c : Tree} {elem p fuel : Nat}
    (hB : Linked dfa.trees none (.node p { type := .concat } M q))
    (hc : Linked dfa.trees (some p) c) (helem : c.root = some elem)
    (hnd : ((Tree.node p { type := .concat } M q).addrs ++ c.addrs).Nodup)
    (hshape : q.shape = c.shape) (hfuel : 4 * c.size < fuel) :
    ∃ dfa', markElem fuel dfa elem = some dfa' ∧ Linked dfa'.trees (some p) c.markGroup ∧
      Linked dfa'.trees none (.node p { type := .concat } M q.markGroup) := by
  obtain ⟨hndB, hcnd, hdisj⟩ := List.nodup_append'.mp hnd
  obtain ⟨hp, hM, hq⟩ := hB
  simp only [Tree.addrs, List.nodup_cons, List.nodup_append', List.mem_append, not_or] at hndB
  obtain ⟨⟨hpM, hpq⟩, _, hqnd, hMq⟩ := hndB
  cases c with
  | nil => simp at helem
  | node a token l r =>
    obtain rfl : a = elem := by simpa using helem
    cases q with
    | nil => simp [Tree.shape] at hshape
    | node qa qtoken ql qr =>
      have hsum : 2 * (Tree.node a token l r).size + 2 * (Tree.node qa qtoken ql qr).size <
          fuel := by
        rw [Tree.size_eq_of_shape hshape]
        omega
      simp only [Tree.shape, Tree.node.injEq, Token.mk.injEq] at hshape
      obtain ⟨-, ⟨htype, hopr, -, -⟩, -, -⟩ := hshape
      unfold markElem
      simp only [hc.1, Option.bind_eq_bind, Option.bind_some, Tree.markGroup_node, htype, hopr]
      split
      · have hne : qa ≠ a := by
          rintro rfl
          exact hdisj (by simp [Tree.addrs]) List.mem_cons_self
        obtain ⟨dfa', hrun, hall⟩ := postorder_beside (keepsLinks_mark token.opr) rfl hc hcnd hp
          rfl hq hqnd hne hsum
        have hread := visitAll_mark (fun v hv => by
          simp only [List.mem_append, List.mem_singleton, mem_visits] at hv
          obtain (hv | hv) | rfl := hv
          · exact hc.lt v hv
          · exact hq.lt v hv
          · exact (List.getElem?_eq_some_iff.mp hp).1) hall
        simp only [List.mem_append, List.mem_singleton, mem_visits] at hread
        refine ⟨dfa', hrun, hc.mark fun i hi => ?_, ?_, hM.congr fun i hi => ?_,
          hq.mark fun i hi => ?_⟩
        · rw [hread, if_pos (.inl (.inl hi))]
        · rw [hread, if_pos (.inr rfl), hp]
          rfl
        · rw [hread, if_neg]
          rintro ((h | h) | rfl)
          · exact hdisj (by simp [Tree.addrs, hi]) h
          · exact hMq hi h
          · exact hpM hi
        · rw [hread, if_pos (.inl (.inr hi))]
      · exact ⟨dfa, rfl, hc, hp, hM, hq⟩

/-! ## The result -/

/-- The chain of the mandatory copies, the nest of the optional ones, or both under a CONCAT. -/
inductive Assembled (type : TokenType) : List Tree → List Tree → Tree → Prop
  | mandatory {ms : List Tree} {M : Tree} (hM : Chain ms M) : Assembled type ms [] M
  | optional {os : List Tree} {O : Tree} (hO : Nest type os O) : Assembled type [] os O
  | both {ms os : List Tree} {M O : Tree} (hM : Chain ms M) (hO : Nest type os O) (a : Nat) :
      Assembled type ms os (.node a { type := .concat } M O)

/-- The type of the node of the first optional copy. -/
def optionalType (stop : Int) : TokenType := if stop = -1 then .opDupAsterisk else .opAlt

/-- From the creation of the first optional node on, beside the tree `B` of the mandatory copies:
    the tree becomes the operand of the result, if there is one. -/
theorem expandOptional_spec (hok : ∀ k, ok k = true) {T B c : Tree} {par : Option Nat}
    {elem fuel : Nat} {dfa₁ : Dfa} (start stop : Int) (hfuel : 3 * T.size + 2 ≤ fuel)
    (hmark : markElem fuel dfa elem = some dfa₁) (hB : Linked dfa₁.trees none B)
    (hc : Linked dfa₁.trees par c) (helem : c.root = some elem)
    (hnd : (B.addrs ++ c.addrs).Nodup) (hshape : c.shape = T.shape) :
    ∃ dfa' os O p R, expandOptional ok fuel dfa elem B.root start stop =
        some (dfa', some p, REG_NOERROR) ∧ Nest (optionalType stop) (c :: os) O ∧
      os.length = (stop - (start + 1)).toNat ∧ (∀ d ∈ os, d.shape = T.shape) ∧
      (∀ d ∈ os, d.marked = false) ∧ Stands dfa' (some p) R ∧ (B = .nil → R = O) ∧
      (B ≠ .nil → ∃ a, R = .node a { type := .concat } B O) := by
  obtain ⟨dfa₂, hcreate, hO, hB₂, hnd₂⟩ := createTree_beside hok hB hc (.nil _ none)
    (by simpa [Tree.addrs] using hnd) (optionalType stop)
  rw [helem, Tree.root_nil] at hcreate
  have hstart : Optional T B (optionalType stop) dfa₂ elem dfa₁.trees.length [c]
      (.node dfa₁.trees.length { type := optionalType stop } c .nil) :=
    { nest := .one _ c
      root := rfl
      linked := hO
      before := hB₂
      nodup := hnd₂
      shapes := by simpa using hshape
      last := ⟨c, rfl, helem⟩ }
  obtain ⟨dfa₃, elem', tree, os, O, hrun, hinv, hlen, hmarks⟩ :=
    optionalCopies_spec hok hfuel (stop - (start + 1)).toNat hstart
  have hshapes : ∀ d ∈ os, d.shape = T.shape := fun d hd => hinv.shapes d (by simp [hd])
  have hnode : ∃ node, dfa.trees[elem]? = some node ∧
      (if node.token.type = .subexp then postorder fuel (markOptSubexp node.token.opr) dfa elem
        else some dfa) = some dfa₁ := by
    obtain ⟨node, hnode, hrest⟩ := Option.bind_eq_some_iff.mp hmark
    exact ⟨node, hnode, hrest⟩
  obtain ⟨node, hnode, hmark⟩ := hnode
  rw [optionalType] at hcreate
  unfold expandOptional
  simp only [hnode, hmark, hcreate, hrun, Option.bind_eq_bind, Option.bind_some]
  by_cases hnil : B = .nil
  · subst hnil
    exact ⟨dfa₃, os, O, tree, O, rfl, hinv.nest, hlen, hshapes, hmarks,
      ⟨hinv.root, hinv.linked, hinv.nodup⟩, fun _ => rfl, fun h => absurd rfl h⟩
  · obtain ⟨oldTree, hold⟩ := Option.ne_none_iff_exists'.mp (mt Tree.root_eq_none.mp hnil)
    obtain ⟨dfa₄, hcreate₄, hR, _, hnd₄⟩ := createTree_beside hok (.nil _ none)
      hinv.before hinv.linked hinv.nodup .concat
    rw [hold, hinv.root] at hcreate₄
    simp only [hold, hcreate₄, Option.bind_some]
    exact ⟨dfa₄, os, O, _, _, rfl, hinv.nest, hlen, hshapes, hmarks, ⟨rfl, hR, hnd₄⟩,
      fun h => absurd h hnil, fun _ => ⟨_, rfl⟩⟩

/-- The copy that becomes the first optional one: it is marked, and with it the last mandatory
    copy if there are two of them at least. -/
theorem markCopy_spec (hok : ∀ k, ok k = true) {T M : Tree} {cs : List Tree}
    {elem tree fuel : Nat} (h : Mandatory T dfa elem tree cs M) (hfuel : 4 * T.size + 2 ≤ fuel) :
    ∃ dfa₁ dfa₂ e par c cs₂ M₂, duplicateTree ok fuel dfa elem = some (dfa₁, some e) ∧
      markElem fuel dfa₁ e = some dfa₂ ∧ Linked dfa₂.trees par c ∧ c.root = some e ∧
      Linked dfa₂.trees none M₂ ∧ (M₂.addrs ++ c.addrs).Nodup ∧ Chain cs₂ M₂ ∧
      M₂.root = some tree ∧ cs₂.length = cs.length ∧ (∀ d ∈ cs₂, d.shape = T.shape) ∧
      c.shape = T.shape ∧ (T.isSubexp → c.marked = true) ∧ (cs.length ≤ 1 → cs₂ = cs) ∧
      (T.isSubexp → 2 ≤ cs.length → ∃ d ∈ cs₂, d.marked = true) := by
  obtain ⟨hchain, hroot, hlinked, hnd, hshapes, c, hlast, helem⟩ := h
  have hshape := hshapes c (List.mem_of_getLast? hlast)
  have hsize := Tree.size_eq_of_shape hshape
  have hcopy : (c.copyAt dfa.trees.length).shape = T.shape := by rw [Tree.shape_copyAt, hshape]
  have hcsize : (c.copyAt dfa.trees.length).size = T.size := by rw [size_copyAt, hsize]
  have hcroot := root_copyAt helem dfa.trees.length
  have hsubexp : T.isSubexp → (c.copyAt dfa.trees.length).isSubexp := fun h => by
    rwa [Tree.isSubexp_eq_of_shape hcopy]
  have hndnew : (M.addrs ++ (c.copyAt dfa.trees.length).addrs).Nodup := by
    rw [addrs_copyAt]
    refine List.nodup_append'.mpr ⟨hnd, List.nodup_range', fun a ha hmem => ?_⟩
    exact absurd (hlinked.lt a ha) (Nat.not_lt.mpr (List.mem_range'_1.mp hmem).1)
  cases hchain with
  | one =>
    obtain rfl : M = c := by simpa using hlast
    obtain ⟨dfa₁, hdup, htrees⟩ := duplicateTree_spec hok helem hlinked hnd (.top elem)
      (by omega : 3 * M.size + 0 ≤ fuel)
    have hnew := linked_cells M none dfa.trees []
    rw [List.append_nil, ← htrees] at hnew
    obtain ⟨dfa₂, hmark, hc₂, hM₂⟩ := markAlone_spec (htrees ▸ hlinked.append _) hnew hcroot hndnew
      (by omega : 2 * (M.copyAt dfa.trees.length).size ≤ fuel)
    exact ⟨dfa₁, dfa₂, _, none, _, [M], M, hdup, hmark, hc₂, by rwa [Tree.root_markGroup], hM₂,
      by rwa [Tree.addrs_markGroup], .one M, hroot, rfl, hshapes, by rwa [Tree.shape_markGroup],
      fun h => Tree.marked_markGroup (hsubexp h), fun _ => rfl, fun _ h => by simp at h⟩
  | @more cs M hM p q =>
    obtain rfl : q = c := by simpa using hlast
    have hall := hlinked
    obtain ⟨hp, _, hq⟩ := hall
    have hqnd := hnd
    simp only [Tree.addrs, List.nodup_cons, List.nodup_append'] at hqnd
    obtain ⟨dfa₁, hdup, htrees⟩ := duplicateTree_spec hok helem hq hqnd.2.2.1
      (.up hp (.inl helem) (.top p)) (by omega : 3 * q.size + 1 ≤ fuel)
    have hnew := linked_cells q (some p) dfa.trees []
    rw [List.append_nil, ← htrees] at hnew
    obtain ⟨dfa₂, hmark, hc₂, hM₂⟩ := markBeside_spec (htrees ▸ hlinked.append _) hnew hcroot hndnew
      (Tree.shape_copyAt _ q).symm (by omega : 4 * (q.copyAt dfa.trees.length).size < fuel)
    refine ⟨dfa₁, dfa₂, _, some p, _, cs ++ [q.markGroup], _, hdup, hmark, hc₂,
      by rwa [Tree.root_markGroup], hM₂, ?_, .more hM p _, hroot, by simp, ?_,
      by rwa [Tree.shape_markGroup], fun h => Tree.marked_markGroup (hsubexp h), ?_, ?_⟩
    · rw [Tree.addrs_markGroup]
      simpa [Tree.addrs] using hndnew
    · exact Tree.shapes_concat (fun d hd => hshapes d (List.mem_append_left _ hd))
        (by rw [Tree.shape_markGroup, hshape])
    · intro hle
      cases hM <;> simp at hle
    · refine fun h _ => ⟨q.markGroup, by simp, Tree.marked_markGroup ?_⟩
      rwa [Tree.isSubexp_eq_of_shape hshape]

/-- What the copies of the result are. -/
structure Expanded (T : Tree) (start stop : Int) (ms os : List Tree) (R : Tree) : Prop where
  assembled : Assembled (optionalType stop) ms os R
  shapes : ∀ c ∈ ms ++ os, c.shape = T.shape
  mandatory : (ms.length : Int) = start
  optional : (os.length : Int) = if stop = -1 then 1 else stop - start
  first : T.isSubexp → ∀ c ∈ os.head?, c.marked = true
  others : ∀ c ∈ os.tail, c.marked = false
  alone : ms.length ≤ 1 → ∀ c ∈ ms, c.marked = T.marked
  beside : T.isSubexp → 2 ≤ ms.length → os ≠ [] → ∃ c ∈ ms, c.marked = true

/-- No mandatory copy: the operand is the first optional one. -/
theorem expandOptional_alone (hok : ∀ k, ok k = true) {T : Tree} {elem fuel : Nat} {stop : Int}
    (hT : Stands dfa (some elem) T) (hstop : stop = -1 ∨ 0 < stop)
    (hfuel : 4 * T.size + 2 ≤ fuel) :
    ∃ dfa' p R os, expandOptional ok fuel dfa elem none 0 stop =
        some (dfa', some p, REG_NOERROR) ∧ Stands dfa' (some p) R ∧ Expanded T 0 stop [] os R := by
  obtain ⟨dfa₁, hmark, hc, _⟩ := markAlone_spec (.nil _ none) hT.linked hT.root hT.nodup
    (by omega : 2 * T.size ≤ fuel)
  obtain ⟨dfa', os, O, p, R, hrun, hnest, hlen, hshapes, hmarks, hR, hRO, _⟩ :=
    expandOptional_spec (T := T) hok 0 stop (by omega) hmark (.nil _ none) hc
      (by rw [Tree.root_markGroup, hT.root]) (by rw [Tree.addrs_markGroup]; exact hT.nodup)
      (by simp)
  obtain rfl := hRO rfl
  refine ⟨dfa', p, R, T.markGroup :: os, hrun, hR, .optional hnest, ?_, rfl, ?_, ?_, hmarks,
    by simp, fun _ h => by simp at h⟩
  · exact List.forall_mem_cons.mpr ⟨Tree.shape_markGroup T, hshapes⟩
  · rw [List.length_cons, hlen]
    split <;> omega
  · intro h c hc
    obtain rfl : T.markGroup = c := by simpa using hc
    exact Tree.marked_markGroup h

/-- Exactly as many copies as are mandatory. -/
theorem Mandatory.expanded {T M : Tree} {cs : List Tree} {elem tree : Nat} {start : Int}
    (h : Mandatory T dfa elem tree (T :: cs) M) (hlen : ((T :: cs).length : Int) = start) :
    Expanded T start start (T :: cs) [] M where
  assembled := .mandatory h.chain
  shapes := by simpa using h.shapes
  mandatory := hlen
  optional := by
    rw [if_neg (by omega), sub_self]
    rfl
  first := by simp
  others := by simp
  alone := by
    intro hle c hc
    obtain rfl : cs = [] := by simpa using hle
    rw [List.mem_singleton.mp hc]
  beside := by simp

/-- Optional copies behind the mandatory ones. -/
theorem expandOptional_behind (hok : ∀ k, ok k = true) {T M : Tree} {cs : List Tree}
    {elem tree fuel : Nat} {start stop : Int} (h : Mandatory T dfa elem tree (T :: cs) M)
    (hlen : ((T :: cs).length : Int) = start) (hstop : stop = -1 ∨ start < stop)
    (hfuel : 4 * T.size + 2 ≤ fuel) :
    ∃ dfa₁ e dfa' p R ms os, duplicateTree ok fuel dfa elem = some (dfa₁, some e) ∧
      expandOptional ok fuel dfa₁ e (some tree) start stop = some (dfa', some p, REG_NOERROR) ∧
      Stands dfa' (some p) R ∧ Expanded T start stop ms os R := by
  obtain ⟨dfa₁, dfa₂, e, par, c, ms, B, hdup, hmark, hc, hcroot, hB, hnd, hchain, hBroot, hms,
    hmshapes, hcshape, hcmark, halone, hbeside⟩ := markCopy_spec hok h hfuel
  obtain ⟨dfa', os, O, p, R, hrun, hnest, hoslen, hshapes, hmarks, hR, _, hRO⟩ :=
    expandOptional_spec hok start stop (by omega) hmark hB hc hcroot hnd hcshape
  obtain ⟨a, rfl⟩ := hRO (fun h => by simp [h] at hBroot)
  rw [hBroot] at hrun
  refine ⟨dfa₁, e, dfa', p, _, ms, c :: os, hdup, hrun, hR, .both hchain hnest a, ?_,
    by rw [hms, hlen], ?_, ?_, hmarks, ?_, ?_⟩
  · simp only [List.mem_append, List.mem_cons]
    rintro d (hd | rfl | hd)
    · exact hmshapes d hd
    · exact hcshape
    · exact hshapes d hd
  · rw [List.length_cons, hoslen]
    split <;> omega
  · intro h d hd
    obtain rfl : c = d := by simpa using hd
    exact hcmark h
  · intro hle d hd
    rw [hms] at hle
    rw [halone hle] at hd
    obtain rfl : cs = [] := by simpa using hle
    rw [List.mem_singleton.mp hd]
  · exact fun h hle _ => hbeside h (by rwa [← hms])

theorem expandDup_spec (hok : ∀ k, ok k = true) {T : Tree} {elem fuel : Nat} {start stop : Int}
    (hT : Stands dfa (some elem) T) (hstart : 0 ≤ start)
    (hstop : stop = -1 ∨ start ≤ stop ∧ 0 < stop) (hfuel : 4 * T.size + 2 ≤ fuel) :
    ∃ dfa' p R ms os, expandDup ok fuel dfa elem start stop = some (dfa', some p, REG_NOERROR) ∧
      Stands dfa' (some p) R ∧ Expanded T start stop ms os R := by
  unfold expandDup
  by_cases hzero : start = 0
  · subst hzero
    obtain ⟨dfa', p, R, os, hrun, hR, hexp⟩ :=
      expandOptional_alone hok hT (hstop.imp_right (·.2)) hfuel
    exact ⟨dfa', p, R, [], os, hrun, hR, hexp⟩
  · have hpos : start > 0 := by omega
    have hbegin : Mandatory T dfa elem elem [T] T :=
      { chain := .one T
        root := hT.root
        linked := hT.linked
        nodup := hT.nodup
        shapes := by simp
        last := ⟨T, rfl, hT.root⟩ }
    obtain ⟨dfa₁, elem₁, tree, cs, M, hrun₁, hinv, hlen⟩ :=
      mandatoryCopies_spec hok (by omega : 3 * T.size + 2 ≤ fuel) (start - 1).toNat hbegin
    have hcount : ((T :: cs).length : Int) = start := by
      rw [List.length_cons, hlen]
      omega
    simp only [if_pos hpos, hrun₁, Option.bind_eq_bind, Option.bind_some]
    by_cases heq : start = stop
    · subst heq
      rw [if_pos rfl]
      exact ⟨dfa₁, tree, M, T :: cs, [], rfl, ⟨hinv.root, hinv.linked, hinv.nodup⟩,
        hinv.expanded hcount⟩
    · obtain ⟨dfa₂, e, dfa', p, R, ms, os, hdup, hrun, hR, hexp⟩ :=
        expandOptional_behind hok hinv hcount
          (hstop.imp_right fun h => lt_of_le_of_ne h.1 heq) hfuel
      rw [if_neg heq, hdup]
      simp only [Option.bind_some]
      exact ⟨dfa', p, R, ms, os, hrun, hR, hexp⟩

/-! ## The call -/

section Call

variable {token : Token} {regexp rest : List Token} {n : Nat} {m : Option Nat}

variable (ok) in
/-- Without an operand there is no result. -/
theorem parseDupOp_none (hop : Spelled token regexp n m rest) (invalidOrd : Bool) (fuel : Nat)
    (dfa : Dfa) : ∃ r, parseDupOp ok fuel none regexp dfa token invalidOrd = some r ∧
      r.err = REG_NOERROR ∧ r.tree = none := by
  obtain ⟨tok, hbounds⟩ := dupBounds_spelled hop invalidOrd
  simp only [parseDupOp, hbounds]
  exact ⟨_, rfl, rfl, rfl⟩

variable (ok) in
/-- No repetition at all: the operand is freed. -/
theorem parseDupOp_free {T : Tree} {elem fuel : Nat} (hT : Stands dfa (some elem) T)
    (hop : Spelled token regexp n m rest) (invalidOrd : Bool) (hn : n = 0) (hm : m = some 0)
    (hfuel : 2 * T.size ≤ fuel) :
    ∃ r, parseDupOp ok fuel (some elem) regexp dfa token invalidOrd = some r ∧
      r.err = REG_NOERROR ∧ r.tree = none := by
  obtain ⟨tok, hbounds⟩ := dupBounds_spelled hop invalidOrd
  obtain ⟨dfa', hfree, _⟩ := postorder_root keepsLinks_free hT.root hT.linked hT.nodup hfuel
  subst hn hm
  have hboth : ((0 : Nat) : Int) = 0 ∧ stopOf (some 0) = 0 := ⟨rfl, rfl⟩
  simp only [parseDupOp, hbounds, if_pos hboth, hfree, Option.bind_eq_bind, Option.bind_some]
  exact ⟨_, rfl, rfl, rfl⟩

/-- Any other repetition of an operand is expanded. -/
theorem parseDupOp_expanded (hok : ∀ k, ok k = true) {T : Tree} {elem fuel : Nat}
    (hT : Stands dfa (some elem) T) (hop : Spelled token regexp n m rest) (invalidOrd : Bool)
    (hpos : ¬ (n = 0 ∧ m = some 0)) (hfuel : 4 * T.size + 2 ≤ fuel) :
    ∃ r R ms os, parseDupOp ok fuel (some elem) regexp dfa token invalidOrd = some r ∧
      r.err = REG_NOERROR ∧ Stands r.dfa r.tree R ∧ Expanded T n (stopOf m) ms os R := by
  obtain ⟨tok, hbounds⟩ := dupBounds_spelled hop invalidOrd
  have hle := hop.le
  have hstop : stopOf m = -1 ∨ (n : Int) ≤ stopOf m ∧ 0 < stopOf m := by
    cases m with
    | none => exact .inl rfl
    | some m =>
      have hnm : n ≤ m := hle m rfl
      have hm : ¬ (n = 0 ∧ m = 0) := by simpa using hpos
      refine .inr ⟨Int.ofNat_le.mpr hnm, ?_⟩
      change (0 : Int) < m
      omega
  have hboth : ¬ ((n : Int) = 0 ∧ stopOf m = 0) := by omega
  obtain ⟨dfa', p, R, ms, os, hrun, hR, hexp⟩ :=
    expandDup_spec hok hT (Int.natCast_nonneg n) hstop hfuel
  simp only [parseDupOp, hbounds, if_neg hboth, hrun, Option.bind_eq_bind, Option.bind_some]
  exact ⟨_, R, ms, os, rfl, rfl, hR, hexp⟩

end Call

end Librecompat.RegTree
