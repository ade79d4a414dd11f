/-
  Runs of argz calls, side by side with the runs of the list they stand for.

  A state is the vector together with the list; `Op.step` makes the call on the one and the list
  operation on the other. An entry is named by its address, in the list by the position of that
  address among `starts`. `argz_refines_list` says that after every sequence of legal calls from
  the empty vector, with every allocation succeeding, vector and list agree.
-/
import Librecompat.Argz.Refine
import Librecompat.Lib.Run

namespace Librecompat.Argz

open Librecompat.Lib

/-- A call of a mutator; `before` and `entry` are addresses, `0` is the null pointer. -/
inductive Op where
  | create (argv : List CString)
  | add (str : CString)
  | append (buf : List UInt8)
  | insert (before : Nat) (entry : CString)
  | delete (entry : Nat)

namespace Op

/-- The call on the vector, with the error number it returns. -/
def exec (A : Allocator (List UInt8)) (s : Vec) : Op → Option (Vec × Errno)
  | create argv => argzCreate A argv s
  | add str => argzAdd A str s
  | append buf => argzAppend A buf s
  | insert before entry => argzInsert A before entry s
  | delete entry => (argzDelete entry s).map fun s' => (s', 0)

/-- The operation on the list whose entries are stored from address `base` on. -/
def apply (base : Nat) (l : List (List UInt8)) : Op → List (List UInt8)
  | create argv => strings argv
  | add str => l ++ [str.1]
  | append buf => l ++ entries 0 buf
  | insert before entry =>
    if before = 0 then l ++ [entry.1] else l.insertIdx ((starts base l).idxOf before) entry.1
  | delete entry => if entry = 0 then l else l.eraseIdx ((starts base l).idxOf entry)

/-- A buffer to append is not empty and ends in a NUL; `before` and `entry` are null or the
    address of an entry's first byte. -/
def Ok (s : Vec × List (List UInt8)) : Op → Prop
  | create _ => True
  | add _ => True
  | append buf => buf.getLast? = some 0
  | insert before _ => before = 0 ∨ before ∈ starts s.1.argz (value s.1)
  | delete entry => entry = 0 ∨ entry ∈ starts s.1.argz (value s.1)

instance (s : Vec × List (List UInt8)) : (op : Op) → Decidable (op.Ok s)
  | create _ => inferInstanceAs (Decidable True)
  | add _ => inferInstanceAs (Decidable True)
  | append buf => inferInstanceAs (Decidable (buf.getLast? = some 0))
  | insert before _ =>
    inferInstanceAs (Decidable (before = 0 ∨ before ∈ starts s.1.argz (value s.1)))
  | delete entry =>
    inferInstanceAs (Decidable (entry = 0 ∨ entry ∈ starts s.1.argz (value s.1)))

/-- One call on both sides; a call that does not return `0` ends the run. -/
def step (A : Allocator (List UInt8)) (s : Vec × List (List UInt8)) (op : Op) :
    Option (Vec × List (List UInt8)) :=
  (op.exec A s.1).bind fun (s', err) =>
    if err = 0 then some (s', op.apply s.1.argz s.2) else none

/-- A call that is right on the vector is right on both sides. -/
theorem step_of_exec {A : Allocator (List UInt8)} {s : Vec × List (List UInt8)} {op : Op}
    (h : ∃ s', op.exec A s.1 = some (s', 0) ∧ Holds s' (op.apply s.1.argz s.2)) :
    ∃ t, op.step A s = some t ∧ Holds t.1 t.2 := by
  obtain ⟨s', hs, hh⟩ := h
  refine ⟨(s', op.apply s.1.argz s.2), ?_, hh⟩
  simp only [step, hs, Option.bind_some, if_pos]

theorem insertIdx_length {α : Type} (pre post : List α) (x : α) :
    (pre ++ post).insertIdx pre.length x = pre ++ x :: post := by
  induction pre with
  | nil => simp
  | cons a pre ih => simpa using ih

theorem eraseIdx_length {α : Type} (pre post : List α) (e : α) :
    (pre ++ e :: post).eraseIdx pre.length = pre ++ post := by
  rw [List.eraseIdx_append_of_length_le (Nat.le_refl _), Nat.sub_self, List.eraseIdx_cons_zero]

/-- Step lemma: a legal call does not go wrong, returns `0` and keeps vector and list
    together. -/
theorem step_holds {A : Allocator (List UInt8)} (hA : ∀ n, A.fails n = false)
    (s : Vec × List (List UInt8)) (op : Op) (h : Holds s.1 s.2) (hok : op.Ok s) :
    ∃ t, op.step A s = some t ∧ Holds t.1 t.2 := by
  apply step_of_exec
  obtain ⟨s, l⟩ := s
  cases op with
  | create argv => exact argzCreate_holds hA s argv
  | add str => exact argzAdd_holds hA h str
  | append buf =>
    obtain ⟨l', hne, hl', rfl⟩ := exists_terminate 0 hok
    have happ := argzAppend_holds hA h hne hl'
    simpa only [exec, apply, entries_terminate 0 hl'] using happ
  | insert before entry =>
    by_cases h0 : before = 0
    · have hadd := argzAdd_holds hA h entry
      simpa only [exec, apply, argzInsert, if_pos h0] using hadd
    · have hmem := hok.resolve_left h0
      simp only [h.value_eq] at hmem
      obtain ⟨pre, e, post, rfl, rfl⟩ := mem_starts 0 hmem
      have hins := argzInsert_holds hA h entry
      simpa only [exec, apply, if_neg h0, idxOf_starts, insertIdx_length] using hins
  | delete entry =>
    by_cases h0 : entry = 0
    · subst h0
      exact ⟨s, rfl, h⟩
    · have hmem := hok.resolve_left h0
      simp only [h.value_eq] at hmem
      obtain ⟨pre, e, post, rfl, rfl⟩ := mem_starts 0 hmem
      obtain ⟨s', hs, hh⟩ := argzDelete_holds h
      refine ⟨s', by simp only [exec, hs, Option.map_some], ?_⟩
      simpa only [apply, if_neg h0, idxOf_starts, eraseIdx_length] using hh

end Op

/-- The empty vector and the empty list agree, whatever else is in memory. -/
theorem holds_empty (mem : Mem (List UInt8)) : Holds { mem := mem, argz := 0, argzLen := 0 } [] :=
  ⟨by simp, rfl, fun _ => rfl, fun h => absurd rfl h⟩

/-- Run theorem: after any sequence of legal calls from the empty vector the vector is well
    formed, stands for the list and is null when the list is empty; `argz_count` counts its
    entries, `argz_extract` writes their addresses and a null pointer, and `argz_next` walks
    over the same addresses. -/
theorem argz_refines_list {A : Allocator (List UInt8)} (hA : ∀ n, A.fails n = false)
    (mem : Mem (List UInt8)) (ops : List Op)
    (hok : Legal (Op.step A) (fun s op => op.Ok s) ({ mem := mem, argz := 0, argzLen := 0 }, [])
      ops) :
    ∃ s l, run (Op.step A) ({ mem := mem, argz := 0, argzLen := 0 }, []) ops = some (s, l) ∧
      WellFormed s ∧ value s = l ∧ (l = [] → s.argz = 0 ∧ s.argzLen = 0) ∧
      argzCount s = some l.length ∧ argzExtract s = some (starts s.argz l ++ [0]) ∧
      List.IsChain (fun p q => argzNext s p = some q) (0 :: starts s.argz l ++ [0]) := by
  have hstep := fun s op => @Op.step_holds A hA s op
  obtain ⟨⟨s, l⟩, hrun, h⟩ := run_inv hstep (holds_empty mem) hok
  refine ⟨s, l, hrun, h.wellFormed, h.value_eq, fun hl => ⟨h.null hl, ?_⟩, argzCount_holds h,
    argzExtract_holds h, argzNext_holds h⟩
  rw [h.len, hl]
  rfl

/-- A vector built from `"a"` and `""`, with `"b"` put in front, `"c"` appended and the first
    entry deleted again. -/
theorem argz_refines_list_run :
    ∃ s l, run (Op.step (Allocator.bump _ fun _ => false))
        ({ mem := ⟨Heap.empty, 0⟩, argz := 0, argzLen := 0 }, [])
        [.create [⟨[97], by decide⟩, ⟨[], by decide⟩], .insert 4096 ⟨[98], by decide⟩,
          .append [99, 0], .delete 4096] = some (s, l) ∧
      WellFormed s ∧ value s = l ∧ (l = [] → s.argz = 0 ∧ s.argzLen = 0) ∧
      argzCount s = some l.length ∧ argzExtract s = some (starts s.argz l ++ [0]) ∧
      List.IsChain (fun p q => argzNext s p = some q) (0 :: starts s.argz l ++ [0]) :=
  argz_refines_list (fun _ => rfl) _ _ (by decide)

end Librecompat.Argz
