/-
  The grammar of the services file.

  `record` is what a line says, if it is a record. A line is cut at the first character of a set
  by `cutAt`, which is what `strpbrk` finds (`strpbrk_cases`); `lineText_eq` says that the code
  copies the text of a line.
-/
import Librecompat.Services.Model

namespace Librecompat.Services

open Librecompat.Lib

/-- What stands before and behind the first character out of `stops`. -/
def cutAt (stops s : List UInt8) : Option (List UInt8 × List UInt8) :=
  match s.dropWhile (· ∉ stops) with
  | [] => none
  | _ :: rest => some (s.takeWhile (· ∉ stops), rest)

/-- The text of a line: what stands before the newline and the first `#`. -/
def text (line : List UInt8) : List UInt8 := (line.takeWhile (· ≠ 10)).takeWhile (· ≠ 35)

/-- The port that a word denotes. -/
def portOf (word : List UInt8) : Option UInt16 :=
  let (l, stop) := strtol word
  if word ≠ [] ∧ stop = word.length ∧ 0 ≤ l ∧ l ≤ USHRT_MAX then some (UInt16.ofInt l) else none

/-- What a text says: name, blanks, port, `,` or `/`, protocol, and aliases between blanks. -/
def recordOf (text : List UInt8) : Option Service := do
  let (name, rest) ← cutAt (chars " \t") text
  let (word, tail) ← cutAt (chars ",/") (rest.dropWhile (· ∈ chars " \t"))
  let port ← portOf word
  some { name := name, port := htons port, proto := tail.takeWhile (· ∉ chars " \t"),
         aliases := tokens (chars " \t") (tail.dropWhile (· ∉ chars " \t")) }

def record (line : List UInt8) : Option Service := recordOf (text line)

/-- The records of a file, in order. -/
def records (file : List UInt8) : List Service := (fgetlnLines file).filterMap record

example : records (chars "# ports\nssh 22/tcp\n\nhttp\t 80/tcp www\twww-http # web\nx 99999/udp\n") =
    [⟨chars "ssh", htons 22, chars "tcp", []⟩,
     ⟨chars "http", htons 80, chars "tcp", [chars "www", chars "www-http"]⟩] := by decide

/-! ## Cutting -/

variable {stops : List UInt8}

theorem takeWhile_stop {u : List UInt8} (hu : ∀ c ∈ u, c ∉ stops) {c : UInt8} (hc : c ∈ stops)
    (v : List UInt8) : (u ++ c :: v).takeWhile (· ∉ stops) = u := by
  rw [List.takeWhile_append_of_pos fun d hd => decide_eq_true (hu d hd),
    List.takeWhile_cons_of_neg (by simpa using hc), List.append_nil]

theorem dropWhile_stop {u : List UInt8} (hu : ∀ c ∈ u, c ∉ stops) {c : UInt8} (hc : c ∈ stops)
    (v : List UInt8) : (u ++ c :: v).dropWhile (· ∉ stops) = c :: v := by
  rw [List.dropWhile_append_of_pos fun d hd => decide_eq_true (hu d hd),
    List.dropWhile_cons_of_neg (by simpa using hc)]

theorem cutAt_append {u : List UInt8} (hu : ∀ c ∈ u, c ∉ stops) {c : UInt8} (hc : c ∈ stops)
    (v : List UInt8) : cutAt stops (u ++ c :: v) = some (u, v) := by
  unfold cutAt
  rw [dropWhile_stop hu hc, takeWhile_stop hu hc]

theorem cutAt_none {s : List UInt8} (hs : ∀ c ∈ s, c ∉ stops) : cutAt stops s = none := by
  unfold cutAt
  rw [List.dropWhile_eq_nil_iff.mpr fun c hc => decide_eq_true (hs c hc)]

/-! ## Lines -/

/-- The lines have a newline at the end at most, and no other characters than the file. -/
theorem mem_fgetlnLines {file line : List UInt8} (h : line ∈ fgetlnLines file) :
    line ⊆ file ∧ ∃ w, 10 ∉ w ∧ (line = w ∧ w ≠ [] ∨ line = w ++ [10]) := by
  induction file generalizing line with
  | nil => exact absurd h List.not_mem_nil
  | cons c file ih =>
    unfold fgetlnLines at h
    split at h
    · next hc =>
      rcases List.mem_cons.mp h with rfl | h
      · exact ⟨List.cons_subset_cons c (List.nil_subset file), [], List.not_mem_nil,
          .inr (by rw [hc]; rfl)⟩
      · obtain ⟨hsub, hw⟩ := ih h
        exact ⟨List.subset_cons_of_subset c hsub, hw⟩
    · next hc =>
      have hlong : ∀ w : List UInt8, 10 ∉ w → 10 ∉ c :: w := fun w hw hm =>
        (List.mem_cons.mp hm).elim (fun heq => hc heq.symm) hw
      cases hlines : fgetlnLines file with
      | nil =>
        rw [hlines, List.mem_singleton] at h
        rw [h]
        exact ⟨List.cons_subset_cons c (List.nil_subset file), [c], hlong [] List.not_mem_nil,
          .inl ⟨rfl, List.cons_ne_nil c []⟩⟩
      | cons l ls =>
        rw [hlines] at h ih
        rcases List.mem_cons.mp h with rfl | h
        · obtain ⟨hsub, w, hw, ⟨rfl, _⟩ | rfl⟩ := ih List.mem_cons_self
          · exact ⟨List.cons_subset_cons c hsub, c :: l, hlong l hw,
              .inl ⟨rfl, List.cons_ne_nil c l⟩⟩
          · exact ⟨List.cons_subset_cons c hsub, c :: w, hlong w hw, .inr rfl⟩
        · obtain ⟨hsub, hw⟩ := ih (List.mem_cons_of_mem l h)
          exact ⟨List.subset_cons_of_subset c hsub, hw⟩

theorem takeWhile_ne_self {w : List UInt8} {c : UInt8} (hw : c ∉ w) :
    w.takeWhile (· ≠ c) = w :=
  List.takeWhile_eq_self_iff.mpr fun _ hd => decide_eq_true fun heq => hw (heq ▸ hd)

theorem takeWhile_idxOf (w : List UInt8) (c : UInt8) :
    (match w.idxOf? c with | some i => w.take i | none => w) = w.takeWhile (· ≠ c) := by
  induction w with
  | nil => rfl
  | cons d w ih =>
    rw [List.idxOf?_cons]
    by_cases hd : d = c
    · simp [hd]
    · have hbeq : (d == c) = false := beq_false_of_ne hd
      have hkeep : (d :: w).takeWhile (· ≠ c) = d :: w.takeWhile (· ≠ c) :=
        List.takeWhile_cons_of_pos (by simpa using hd)
      rw [hkeep, ← ih, hbeq]
      cases w.idxOf? c <;> simp

/-- The text of a line is what the code copies of it. -/
theorem lineText_eq {line w : List UInt8} (hw : 10 ∉ w)
    (hline : line = w ∧ w ≠ [] ∨ line = w ++ [10]) :
    lineText line = none ∧ text line = [] ∨ lineText line = some (text line) := by
  have htext : text line = w.takeWhile (· ≠ 35) := by
    unfold text
    rcases hline with ⟨rfl, _⟩ | rfl
    · rw [takeWhile_ne_self hw]
    · have hkeep : (w ++ [10]).takeWhile (· ≠ 10) = w := by
        rw [List.takeWhile_append_of_pos, List.takeWhile_cons_of_neg (by simp), List.append_nil]
        exact fun d hd => decide_eq_true fun heq => hw (heq ▸ hd)
      rw [hkeep]
  have hlen : line.take (if line.getLast? = some 10 then line.length - 1 else line.length) = w := by
    rcases hline with ⟨rfl, _⟩ | rfl
    · rw [if_neg fun hlast => hw (List.mem_of_getLast? hlast), List.take_length]
    · simp
  unfold lineText
  split
  · next hskip =>
    refine .inl ⟨rfl, ?_⟩
    rw [htext]
    cases w with
    | nil => rfl
    | cons c w =>
      have hc : c = 35 := by
        have hne : line.head? = some c := by rcases hline with ⟨rfl, _⟩ | rfl <;> rfl
        have hnil : line ≠ [] := fun h => by rw [h] at hne; cases hne
        rw [hne, Option.some.injEq, Option.some.injEq] at hskip
        rcases hskip.resolve_left hnil with h35 | h10
        · exact h35
        · exact absurd (h10 ▸ List.mem_cons_self) hw
      simp [hc]
  · right
    dsimp only
    rw [hlen, htext, ← takeWhile_idxOf w 35]
    cases hidx : w.idxOf? 35 with
    | none => rfl
    | some i =>
      have hlt : i < w.length := (List.idxOf?_eq_some_iff.mp hidx).1
      rcases hline with ⟨rfl, _⟩ | rfl
      · rfl
      · exact congrArg some (List.take_append_of_le_length (Nat.le_of_lt hlt))

end Librecompat.Services
