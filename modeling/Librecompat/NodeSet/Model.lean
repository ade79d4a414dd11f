/-
  Node sets, the "Functions for set operation" of src/regex/regex_internal.c.

  A set is the block `elems` of `alloc` cells, of which the first `nelem` are its elements. A
  cell is `none` as long as nothing was written to it, and the block is empty for a null pointer.
  Every access is checked: `none` means that the call leaves a block, reads a cell that was never
  written or calls `memcpy` on ranges that overlap. Each function makes at most one allocation;
  `ok` says whether it succeeds. `Idx` is `Int`; the sizes stay in the range of the C type.
-/
import Librecompat.Regex.Model
import Librecompat.Lib.Indexed
import Librecompat.Lib.Loop

namespace Librecompat.NodeSet

open Librecompat.Lib
open Librecompat.Regex (RegErrcode REG_NOERROR REG_ESPACE)

/-- A block of cells. -/
abbrev Cells := List (Option Int)

/-- `re_node_set`. -/
structure ReNodeSet where
  alloc : Int
  nelem : Int
  elems : Cells

/-- `re_node_set_init_empty`. -/
def reNodeSetInitEmpty : ReNodeSet := ⟨0, 0, []⟩

/-- The element in the cell `i`. -/
def readCell (elems : Cells) (i : Int) : Option Int := (getAt elems i).join

/-- `re_malloc (Idx, n)`. -/
def reMalloc (n : Int) : Cells := List.replicate n.toNat none

/-- `re_realloc (elems, Idx, n)`. -/
def reRealloc (elems : Cells) (n : Int) : Cells := resizeCells n.toNat elems

/-! ## Making sets -/

/-- `re_node_set_alloc`; `malloc (0)` is not null. -/
def reNodeSetAlloc (ok : Bool) (size : Int) : ReNodeSet × RegErrcode :=
  if ok then (⟨size, 0, reMalloc size⟩, REG_NOERROR) else (⟨size, 0, []⟩, REG_ESPACE)

def reNodeSetInit1 (ok : Bool) (elem : Int) : Option (ReNodeSet × RegErrcode) :=
  if ok then do some (⟨1, 1, ← setAt (reMalloc 1) 0 (some elem)⟩, REG_NOERROR)
  else some (⟨0, 0, []⟩, REG_ESPACE)

/-- `re_node_set_init_2`; where the allocation fails `nelem` stays what it was. -/
def reNodeSetInit2 (ok : Bool) (set : ReNodeSet) (elem1 elem2 : Int) :
    Option (ReNodeSet × RegErrcode) :=
  if !ok then some ({ set with alloc := 2, elems := [] }, REG_ESPACE)
  else if elem1 = elem2 then do
    some (⟨2, 1, ← setAt (reMalloc 2) 0 (some elem1)⟩, REG_NOERROR)
  else if elem1 < elem2 then do
    let elems ← setAt (reMalloc 2) 0 (some elem1)
    some (⟨2, 2, ← setAt elems 1 (some elem2)⟩, REG_NOERROR)
  else do
    let elems ← setAt (reMalloc 2) 0 (some elem2)
    some (⟨2, 2, ← setAt elems 1 (some elem1)⟩, REG_NOERROR)

def reNodeSetInitCopy (ok : Bool) (src : ReNodeSet) : Option (ReNodeSet × RegErrcode) :=
  if src.nelem > 0 then
    if !ok then some (⟨0, 0, []⟩, REG_ESPACE)
    else do
      let elems ← setRange (reMalloc src.nelem) 0 (← getRange src.elems 0 src.nelem)
      some (⟨src.nelem, src.nelem, elems⟩, REG_NOERROR)
  else some (reNodeSetInitEmpty, REG_NOERROR)

/-! ## re_node_set_init_union -/

/-- The variables of its loop. -/
structure Union where
  elems : Cells
  i1 : Int
  i2 : Int
  id : Int

/-- One pass of `for (i1 = i2 = id = 0 ; i1 < src1->nelem && i2 < src2->nelem ;)`. -/
def unionPass (src1 src2 : ReNodeSet) (s : Union) : Option (Union ⊕ Union) :=
  if s.i1 < src1.nelem ∧ s.i2 < src2.nelem then do
    let x1 ← readCell src1.elems s.i1
    let x2 ← readCell src2.elems s.i2
    if x1 > x2 then do
      let elems ← setAt s.elems s.id (some x2)
      some (.inl { s with elems := elems, id := s.id + 1, i2 := s.i2 + 1 })
    else do
      let i2 := if x1 = x2 then s.i2 + 1 else s.i2
      let elems ← setAt s.elems s.id (some x1)
      some (.inl ⟨elems, s.i1 + 1, i2, s.id + 1⟩)
  else some (.inr s)

/-- The merge of two sets, neither of them empty, into a new block. -/
def unionInto (src1 src2 : ReNodeSet) : Option ReNodeSet := do
  let alloc := src1.nelem + src2.nelem
  let s ← tryLoop (unionPass src1 src2) (alloc.toNat + 1) ⟨reMalloc alloc, 0, 0, 0⟩
  if s.i1 < src1.nelem then do
    let n := src1.nelem - s.i1
    some ⟨alloc, s.id + n, ← setRange s.elems s.id (← getRange src1.elems s.i1 n)⟩
  else if s.i2 < src2.nelem then do
    let n := src2.nelem - s.i2
    some ⟨alloc, s.id + n, ← setRange s.elems s.id (← getRange src2.elems s.i2 n)⟩
  else some ⟨alloc, s.id, s.elems⟩

/-- `re_node_set_init_union`; where the allocation fails `nelem` stays what it was. -/
def reNodeSetInitUnion (ok : Bool) (dest : ReNodeSet) (src1 src2 : Option ReNodeSet) :
    Option (ReNodeSet × RegErrcode) :=
  match src1.filter (·.nelem > 0), src2.filter (·.nelem > 0) with
  | some src1, some src2 =>
    if !ok then some ({ dest with alloc := src1.nelem + src2.nelem, elems := [] }, REG_ESPACE)
    else (unionInto src1 src2).map (·, REG_NOERROR)
  | some src1, none => reNodeSetInitCopy ok src1
  | none, some src2 => reNodeSetInitCopy ok src2
  | none, none => some (reNodeSetInitEmpty, REG_NOERROR)

/-! ## Merging in place -/

/-- The block grown to `newAlloc` cells if it is too `small`; `none` when that fails. -/
def grow (ok : Bool) (set : ReNodeSet) (small : Bool) (newAlloc : Int) : Option ReNodeSet :=
  if small then
    if ok then some { set with alloc := newAlloc, elems := reRealloc set.elems newAlloc }
    else none
  else some set

/-- The variables of the loop that moves the elements to their places. -/
structure Slide where
  elems : Cells
  is : Int
  id : Int
  delta : Int

/-- One pass of that loop. -/
def slidePass (s : Slide) : Option (Slide ⊕ Slide) := do
  let x ← readCell s.elems s.is
  let d ← readCell s.elems s.id
  if x > d then do
    -- copy from the top
    let elems ← setAt s.elems (s.id + s.delta) (some x)
    let s' := { s with elems := elems, delta := s.delta - 1, is := s.is - 1 }
    some (if s'.delta = 0 then .inr s' else .inl s')
  else do
    -- slide from the bottom
    let elems ← setAt s.elems (s.id + s.delta) (some d)
    let s' := { s with elems := elems, id := s.id - 1 }
    some (if s'.id < 0 then .inr s' else .inl s')

def slide (s : Slide) : Option Slide :=
  tryLoop slidePass ((s.id + 1).toNat + s.delta.toNat + 1) s

/-! ## re_node_set_add_intersect -/

/-- The variables of its first loop. -/
structure Intersect where
  elems : Cells
  i1 : Int
  i2 : Int
  id : Int
  sbase : Int

/-- One pass of `while (id >= 0 && dest->elems[id] > x) --id;`. -/
def lowerPass (elems : Cells) (x : Int) (id : Int) : Option (Int ⊕ Int) :=
  if id ≥ 0 then do
    let d ← readCell elems id
    some (if d > x then .inl (id - 1) else .inr id)
  else some (.inr id)

def lowerId (elems : Cells) (x : Int) (id : Int) : Option Int :=
  tryLoop (lowerPass elems x) ((id + 1).toNat + 1) id

/-- `id < 0 || dest->elems[id] != x`. -/
def isAbsent (elems : Cells) (x : Int) (id : Int) : Option Bool :=
  if id < 0 then some true else (readCell elems id).map (· ≠ x)

/-- `x` is copied into the top of `dest` unless it is in `dest` itself. -/
def stageAbsent (s : Intersect) (x : Int) : Option Intersect :=
  (isAbsent s.elems x s.id).bind fun absent =>
    if absent then do
      let elems ← setAt s.elems (s.sbase - 1) (some x)
      some { s with elems := elems, sbase := s.sbase - 1 }
    else some s

/-- One pass of the first loop. -/
def intersectPass (src1 src2 : ReNodeSet) (s : Intersect) :
    Option (Intersect ⊕ Intersect) := do
  let x1 ← readCell src1.elems s.i1
  let x2 ← readCell src2.elems s.i2
  if x1 = x2 then do
    let id ← lowerId s.elems x1 s.id
    let s ← stageAbsent { s with id := id } x1
    if s.i1 - 1 < 0 then some (.inr { s with i1 := s.i1 - 1 })
    else
      let s := { s with i1 := s.i1 - 1, i2 := s.i2 - 1 }
      some (if s.i2 < 0 then .inr s else .inl s)
  else if x1 < x2 then
    let s := { s with i2 := s.i2 - 1 }
    some (if s.i2 < 0 then .inr s else .inl s)
  else
    let s := { s with i1 := s.i1 - 1 }
    some (if s.i1 < 0 then .inr s else .inl s)

/-- What follows the allocation. -/
def addIntersect (dest src1 src2 : ReNodeSet) : Option ReNodeSet := do
  let top := dest.nelem + src1.nelem + src2.nelem
  let s ← tryLoop (intersectPass src1 src2) (src1.nelem.toNat + src2.nelem.toNat + 1)
    ⟨dest.elems, src1.nelem - 1, src2.nelem - 1, dest.nelem - 1, top⟩
  let t : Slide := ⟨s.elems, top - 1, dest.nelem - 1, top - 1 - s.sbase + 1⟩
  let nelem := dest.nelem + t.delta
  let t ← (if t.delta > 0 ∧ t.id ≥ 0 then slide t else some t)
  some { dest with nelem := nelem, elems := ← memcpy t.elems 0 s.sbase t.delta }

def reNodeSetAddIntersect (ok : Bool) (dest src1 src2 : ReNodeSet) :
    Option (ReNodeSet × RegErrcode) :=
  if src1.nelem = 0 ∨ src2.nelem = 0 then some (dest, REG_NOERROR)
  else
    match grow ok dest (src1.nelem + src2.nelem + dest.nelem > dest.alloc)
        (src1.nelem + src2.nelem + dest.alloc) with
    | none => some (dest, REG_ESPACE)
    | some dest => (addIntersect dest src1 src2).map (·, REG_NOERROR)

/-! ## re_node_set_merge -/

/-- The variables of its first loop. -/
structure Missing where
  elems : Cells
  sbase : Int
  is : Int
  id : Int

/-- One pass of the first loop, which ends unless `is >= 0 && id >= 0`. -/
def missingPass (src : ReNodeSet) (s : Missing) : Option (Missing ⊕ Missing) :=
  if s.is ≥ 0 ∧ s.id ≥ 0 then do
    let d ← readCell s.elems s.id
    let x ← readCell src.elems s.is
    if d = x then some (.inl { s with is := s.is - 1, id := s.id - 1 })
    else if d < x then do
      let elems ← setAt s.elems (s.sbase - 1) (some x)
      some (.inl { s with elems := elems, sbase := s.sbase - 1, is := s.is - 1 })
    else some (.inl { s with id := s.id - 1 })
  else some (.inr s)

/-- What follows the allocation. -/
def merge (dest src : ReNodeSet) : Option ReNodeSet :=
  if dest.nelem = 0 then do
    let elems ← setRange dest.elems 0 (← getRange src.elems 0 src.nelem)
    some { dest with nelem := src.nelem, elems := elems }
  else do
    let top := dest.nelem + 2 * src.nelem
    let s ← tryLoop (missingPass src) (src.nelem.toNat + dest.nelem.toNat + 1)
      ⟨dest.elems, top, src.nelem - 1, dest.nelem - 1⟩
    -- if `dest` is exhausted, the remaining items of `src` must be unique
    let s ← (if s.is ≥ 0 then do
        let sbase := s.sbase - (s.is + 1)
        let elems ← setRange s.elems sbase (← getRange src.elems 0 (s.is + 1))
        some { s with elems := elems, sbase := sbase }
      else some s)
    let t : Slide := ⟨s.elems, top - 1, dest.nelem - 1, top - 1 - s.sbase + 1⟩
    if t.delta = 0 then some { dest with elems := t.elems }
    else
      let nelem := dest.nelem + t.delta
      let t ← slide t
      if t.delta = 0 then some { dest with nelem := nelem, elems := t.elems }
      else some { dest with nelem := nelem, elems := ← memcpy t.elems 0 s.sbase t.delta }

def reNodeSetMerge (ok : Bool) (dest : ReNodeSet) (src : Option ReNodeSet) :
    Option (ReNodeSet × RegErrcode) :=
  match src with
  | none => some (dest, REG_NOERROR)
  | some src =>
    if src.nelem = 0 then some (dest, REG_NOERROR)
    else
      match grow ok dest (dest.alloc < 2 * src.nelem + dest.nelem)
          (2 * (src.nelem + dest.alloc)) with
      | none => some (dest, REG_ESPACE)
      | some dest => (merge dest src).map (·, REG_NOERROR)

/-! ## Single elements -/

/-- `for (idx = set->nelem; idx > 0; idx--) set->elems[idx] = set->elems[idx - 1];` -/
def shiftAll : Nat → Cells → Option Cells
  | 0, elems => some elems
  | idx + 1, elems => do
    let x ← readCell elems idx
    shiftAll idx (← setAt elems (idx + 1) (some x))

/-- The same loop with the condition `set->elems[idx - 1] > elem`, and the `idx` it ends with. -/
def shiftAbove (elem : Int) : Nat → Cells → Option (Int × Cells)
  | 0, _ => none
  | idx + 1, elems => do
    let x ← readCell elems idx
    if x > elem then shiftAbove elem idx (← setAt elems (idx + 1) (some x))
    else some (idx + 1, elems)

def reNodeSetInsert (ok : Bool) (set : ReNodeSet) (elem : Int) : Option (ReNodeSet × Bool) :=
  if set.alloc = 0 then
    (reNodeSetInit1 ok elem).map fun (set, err) => (set, err = REG_NOERROR)
  else if set.nelem = 0 then do
    some ({ set with elems := ← setAt set.elems 0 (some elem), nelem := set.nelem + 1 }, true)
  else if set.alloc = set.nelem ∧ !ok then some ({ set with alloc := set.alloc * 2 }, false)
  else do
    let set := if set.alloc = set.nelem then
        { set with alloc := set.alloc * 2, elems := reRealloc set.elems (set.alloc * 2) }
      else set
    let first ← readCell set.elems 0
    let (idx, elems) ← (if elem < first then do
        some (0, ← shiftAll set.nelem.toNat set.elems)
      else shiftAbove elem set.nelem.toNat set.elems)
    some ({ set with elems := ← setAt elems idx (some elem), nelem := set.nelem + 1 }, true)

def reNodeSetInsertLast (ok : Bool) (set : ReNodeSet) (elem : Int) :
    Option (ReNodeSet × Bool) :=
  if set.alloc = set.nelem ∧ !ok then some ({ set with alloc := (set.alloc + 1) * 2 }, false)
  else do
    let set := if set.alloc = set.nelem then
        { set with
          alloc := (set.alloc + 1) * 2
          elems := reRealloc set.elems ((set.alloc + 1) * 2) }
      else set
    let elems ← setAt set.elems set.nelem (some elem)
    some ({ set with elems := elems, nelem := set.nelem + 1 }, true)

/-- One pass of the search in `re_node_set_contains`, with `idx` and `right` unsigned. -/
def searchPass (elems : Cells) (elem : Int) (s : Nat × Nat) : Option ((Nat × Nat) ⊕ Nat) :=
  if s.1 < s.2 then do
    let mid := (s.1 + s.2) / 2
    let x ← readCell elems mid
    some (.inl (if x < elem then (mid + 1, s.2) else (s.1, mid)))
  else some (.inr s.1)

/-- `re_node_set_contains`: `idx + 1` or `0`. -/
def reNodeSetContains (set : ReNodeSet) (elem : Int) : Option Nat :=
  if set.nelem ≤ 0 then some 0
  else do
    let right := (set.nelem - 1).toNat
    let idx ← tryLoop (searchPass set.elems elem) (right + 1) (0, right)
    let x ← readCell set.elems idx
    some (if x = elem then idx + 1 else 0)

/-- `set->elems[idx] = set->elems[idx + 1];` -/
def removePass (elems : Cells) (idx : Nat) : Option Cells := do
  let x ← readCell elems (idx + 1)
  setAt elems idx (some x)

def reNodeSetRemoveAt (set : ReNodeSet) (idx : Int) : Option ReNodeSet :=
  if idx < 0 ∨ idx ≥ set.nelem then some set
  else do
    let nelem := set.nelem - 1
    let elems ← (List.range' idx.toNat (nelem - idx).toNat).foldlM removePass set.elems
    some { set with nelem := nelem, elems := elems }

end Librecompat.NodeSet
