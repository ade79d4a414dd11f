/-
  The file loader and the lines of the file.

  `fgets` cuts every line into fragments of at most `MAXNETCONFIGLINE - 1` characters, and the
  loop tests each fragment for `#`. A long line that is no comment makes the load fail, but the
  rest of a long comment is read as if it were a line of its own. `RespectsLines` is what the
  loader should do, `CommentsFit` the condition under which it does: in the comments that the
  loop gets to, each fragment behind the first one starts with `#` again.
-/
import Librecompat.Netconfig.Runs
import Librecompat.Netconfig.Succeeds

namespace Librecompat.Netconfig

open Librecompat.Lib

/-! ## Lines and fragments -/

/-- The lines of a file, each with its newline. -/
def linesOf : List UInt8 → List (List UInt8)
  | [] => []
  | c :: file =>
    if c = 10 then [c] :: linesOf file
    else
      match linesOf file with
      | [] => [[c]]
      | l :: ls => (c :: l) :: ls

def IsComment (l : List UInt8) : Prop := l.head? = some 35

instance : DecidablePred IsComment := fun l => inferInstanceAs (Decidable (l.head? = some 35))

/-- The pieces of `n + 1` characters of a line, and the rest. -/
def fragments (n : Nat) (l : List UInt8) : List (List UInt8) :=
  if h : l = [] then [] else l.take (n + 1) :: fragments n (l.drop (n + 1))
termination_by l.length
decreasing_by
  have := List.length_pos_iff.mpr h
  rw [List.length_drop]
  omega

/-- What `fgets` stores, with `feof` behind the call. -/
def withEof (n : Nat) (error : Bool) (p : List UInt8) : List UInt8 × Bool :=
  (p, 10 ∉ p ∧ p.length < n ∧ !error)

theorem linesOf_flatten (file : List UInt8) : (linesOf file).flatten = file := by
  induction file with
  | nil => rfl
  | cons c file ih =>
    unfold linesOf
    split
    · rw [List.flatten_cons, ih]
      rfl
    · split
      · next h =>
        rw [h] at ih
        rw [← ih]
        rfl
      · next h =>
        rw [h, List.flatten_cons] at ih
        rw [List.flatten_cons, List.cons_append, ih]

/-- The first line goes up to the first newline. -/
theorem linesOf_eq {file : List UInt8} (hne : file ≠ []) :
    linesOf file = file.take (file.idxOf 10 + 1) :: linesOf (file.drop (file.idxOf 10 + 1)) := by
  induction file with
  | nil => exact absurd rfl hne
  | cons c file ih =>
    rw [linesOf]
    split
    · next h =>
      rw [h, List.idxOf_cons_self]
      rfl
    · next h =>
      rw [List.idxOf_cons_ne file (fun h0 => h h0), List.take_succ_cons, List.drop_succ_cons]
      cases file with
      | nil => rfl
      | cons d file => rw [ih (List.cons_ne_nil d file)]

/-- A newline can only be the last character of a line. -/
theorem not_mem_dropLast_of_mem_linesOf {file l : List UInt8} (hl : l ∈ linesOf file) :
    l ≠ [] ∧ 10 ∉ l.dropLast := by
  induction file generalizing l with
  | nil => exact absurd hl List.not_mem_nil
  | cons c file ih =>
    unfold linesOf at hl
    split at hl
    · rcases List.mem_cons.mp hl with rfl | hl
      · exact ⟨List.cons_ne_nil _ _, List.not_mem_nil⟩
      · exact ih hl
    · next h =>
      split at hl
      · obtain rfl := List.mem_singleton.mp hl
        exact ⟨List.cons_ne_nil _ _, List.not_mem_nil⟩
      · next l' ls heq =>
        rcases List.mem_cons.mp hl with rfl | hl
        · obtain ⟨hne, hnot⟩ := ih (heq ▸ List.mem_cons_self)
          refine ⟨List.cons_ne_nil _ _, ?_⟩
          rw [List.dropLast_cons_of_ne_nil hne]
          exact fun hm => (List.mem_cons.mp hm).elim (fun h0 => h h0.symm) hnot
        · exact ih (heq ▸ List.mem_cons_of_mem l' hl)

/-- Only the last line can be without a newline. -/
theorem mem_of_linesOf {file l : List UInt8} {pre post : List (List UInt8)}
    (hlines : linesOf file = pre ++ l :: post) (hpost : post ≠ []) : 10 ∈ l := by
  induction file generalizing pre l with
  | nil => simp [linesOf] at hlines
  | cons c file ih =>
    unfold linesOf at hlines
    split at hlines
    · next h =>
      cases pre with
      | nil =>
        obtain ⟨rfl, _⟩ := List.cons.inj hlines
        exact h ▸ List.mem_singleton_self c
      | cons p pre => exact ih (List.cons.inj hlines).2
    · split at hlines
      · cases pre with
        | nil => exact absurd (List.cons.inj hlines).2.symm hpost
        | cons p pre => simp at hlines
      · next l' ls heq =>
        cases pre with
        | nil =>
          obtain ⟨rfl, rfl⟩ := List.cons.inj hlines
          have hlines : linesOf file = [] ++ l' :: ls := heq
          exact List.mem_cons_of_mem c (ih hlines)
        | cons p pre =>
          obtain ⟨rfl, rfl⟩ := List.cons.inj hlines
          have hlines : linesOf file = (l' :: pre) ++ l :: post := heq
          exact ih hlines

theorem fragments_cons (n : Nat) {l : List UInt8} (h : l ≠ []) :
    fragments n l = l.take (n + 1) :: fragments n (l.drop (n + 1)) := by
  rw [fragments, dif_neg h]

theorem fragments_nil (n : Nat) : fragments n [] = [] := by
  rw [fragments, dif_pos rfl]

theorem fragments_flatten (n : Nat) (l : List UInt8) : (fragments n l).flatten = l := by
  fun_induction fragments n l with
  | case1 => rfl
  | case2 l h ih => rw [List.flatten_cons, ih, List.take_append_drop]

/-- The fragments by their numbers. -/
theorem fragments_getElem? (n : Nat) (l : List UInt8) (k : Nat) :
    (fragments n l)[k]? =
      if k * (n + 1) < l.length then some ((l.drop (k * (n + 1))).take (n + 1)) else none := by
  induction k generalizing l with
  | zero =>
    by_cases h : l = []
    · simp [h, fragments_nil]
    · rw [fragments_cons n h, if_pos (by rw [Nat.zero_mul]; exact List.length_pos_iff.mpr h)]
      simp
  | succ k ih =>
    by_cases h : l = []
    · simp [h, fragments_nil]
    · rw [fragments_cons n h, List.getElem?_cons_succ, ih, List.length_drop, List.drop_drop,
        Nat.add_comm (n + 1), ← Nat.succ_mul]
      have hiff : k * (n + 1) < l.length - (n + 1) ↔ (k + 1) * (n + 1) < l.length := by
        rw [Nat.succ_mul]
        omega
      simp only [hiff]

theorem fragments_take_flatten (n : Nat) (l : List UInt8) (k : Nat) :
    ((fragments n l).take k).flatten = l.take (k * (n + 1)) := by
  induction k generalizing l with
  | zero => simp
  | succ k ih =>
    by_cases h : l = []
    · simp [h, fragments_nil]
    · rw [fragments_cons n h, List.take_succ_cons, List.flatten_cons, ih, Nat.succ_mul,
        Nat.add_comm (k * _)]
      exact List.take_add.symm

/-- The loop of `fgets` cuts each line into its fragments. -/
theorem fgetsLines_eq (n : Nat) (error : Bool) {fuel : Nat} {file : List UInt8}
    (hfuel : file.length ≤ fuel) :
    fgetsLines (n + 2) error fuel file =
      ((linesOf file).flatMap (fragments n)).map (withEof (n + 1) error) := by
  induction fuel generalizing file with
  | zero =>
    obtain rfl := List.length_eq_zero_iff.mp (Nat.le_zero.mp hfuel)
    rfl
  | succ fuel ih =>
    cases file with
    | nil => rfl
    | cons c file =>
      have hlen : ∀ k, 0 < k → ((c :: file).drop k).length ≤ fuel := by
        intro k hk
        rw [List.length_drop, List.length_cons]
        rw [List.length_cons] at hfuel
        omega
      have hne := List.cons_ne_nil c file
      rw [fgetsLines, fgets]
      case x_2 => exact hne
      dsimp only
      generalize c :: file = file at hlen hne ⊢
      rw [linesOf_eq hne, List.flatMap_cons, fragments_cons n, List.take_take, List.cons_append,
        List.map_cons]
      swap
      · exact fun h => hne ((List.take_eq_nil_iff.mp h).resolve_left (by omega))
      rw [show n + 2 - 1 = n + 1 from rfl]
      by_cases hle : file.idxOf 10 + 1 ≤ n + 1
      · rw [Nat.min_eq_right hle, ih (hlen _ (by omega)), List.drop_take,
          Nat.sub_eq_zero_of_le hle, List.take_zero, fragments_nil, List.nil_append]
        rfl
      · have hidx : file.idxOf 10 = n + 1 + (file.drop (n + 1)).idxOf 10 := by
          conv_lhs => rw [← List.take_append_drop (n + 1) file]
          have hnot : 10 ∉ file.take (n + 1) := by
            intro hm
            have hlt := List.idxOf_lt_length_of_mem hm
            rw [List.length_take] at hlt
            have heq : file.idxOf 10 = (file.take (n + 1)).idxOf 10 := by
              conv_lhs => rw [← List.take_append_drop (n + 1) file]
              exact List.idxOf_append_of_mem hm
            omega
          have hlong : n + 1 ≤ file.length := by
            have hle' := List.idxOf_le_length (a := (10 : UInt8)) (l := file)
            omega
          rw [List.idxOf_append_of_notMem hnot, List.length_take, Nat.min_eq_left hlong]
        rw [Nat.min_eq_left (by omega), ih (hlen _ (by omega)), List.drop_take]
        by_cases hrest : file.drop (n + 1) = []
        · have hend : file.drop (file.idxOf 10 + 1) = [] := by
            rw [List.drop_eq_nil_iff] at hrest ⊢
            omega
          rw [hrest, hend, List.take_nil, fragments_nil]
          rfl
        · rw [linesOf_eq hrest, List.flatMap_cons, List.drop_drop]
          have hsub : file.idxOf 10 + 1 - (n + 1) = (file.drop (n + 1)).idxOf 10 + 1 := by omega
          have hadd : n + 1 + ((file.drop (n + 1)).idxOf 10 + 1) = file.idxOf 10 + 1 := by omega
          rw [hsub, hadd]
          rfl

/-- A fragment belongs to one line. -/
theorem flatMap_eq_append_cons {f : List UInt8 → List (List UInt8)}
    {lines done rest : List (List UInt8)} {p : List UInt8} (h : lines.flatMap f = done ++ p :: rest) :
    ∃ pre l post d e, lines = pre ++ l :: post ∧ f l = d ++ p :: e ∧ done = pre.flatMap f ++ d := by
  induction lines generalizing done with
  | nil => simp at h
  | cons l lines ih =>
    rw [List.flatMap_cons] at h
    have hlater : ∀ {done' : List (List UInt8)}, done = f l ++ done' →
        lines.flatMap f = done' ++ p :: rest → ∃ pre l' post d e, l :: lines = pre ++ l' :: post ∧
          f l' = d ++ p :: e ∧ done = pre.flatMap f ++ d := by
      intro done' hdone heq
      obtain ⟨pre, l', post, d, e, rfl, hl', rfl⟩ := ih heq
      exact ⟨l :: pre, l', post, d, e, rfl, hl', by rw [hdone]; simp⟩
    rcases List.append_eq_append_iff.mp h with ⟨done', hdone, heq⟩ | ⟨e, hl, heq⟩
    · exact hlater hdone heq
    · cases e with
      | nil => exact @hlater [] (by simp [hl]) heq.symm
      | cons q e =>
        obtain ⟨rfl, rfl⟩ := List.cons.inj heq
        exact ⟨[], l, lines, done, e, rfl, hl, rfl⟩

theorem flatMap_fragments_flatten (n : Nat) (lines : List (List UInt8)) :
    (lines.flatMap (fragments n)).flatten = lines.flatten := by
  induction lines with
  | nil => rfl
  | cons l lines ih =>
    rw [List.flatMap_cons, List.flatten_append, fragments_flatten, ih, List.flatten_cons]

/-- The beginning of a line is not in the middle of another one. -/
theorem lines_apart {pre post pre' post' : List (List UInt8)} {l l' : List UInt8} {m : Nat}
    (h : pre ++ l :: post = pre' ++ l' :: post') (hpos : 0 < m) (hlt : m < l.length) :
    pre'.flatten.length ≠ pre.flatten.length + m := by
  intro hlen
  rcases List.append_eq_append_iff.mp h with ⟨a, rfl, heq⟩ | ⟨c, rfl, _⟩
  · cases a with
    | nil =>
      rw [List.append_nil] at hlen
      omega
    | cons b a =>
      obtain ⟨rfl, _⟩ := List.cons.inj heq
      rw [List.flatten_append, List.length_append, List.flatten_cons, List.length_append] at hlen
      omega
  · rw [List.flatten_append, List.length_append] at hlen
    omega

/-! ## The loop -/

variable {A : Allocator Obj} {base : Heap Obj} {s : Nc} {rs : List Row}

/-- What the loop makes an entry of: a comment is skipped, and anything else has to be the end
    of a line and to parse. -/
def Accepted (l : List UInt8 × Bool) : Prop :=
  (10 ∈ cstr l.1 ∨ l.2 = true) ∧ (parseLine l.1).isSome = true

/-- The loop gets through the fragments `ls` when it accepts those that are not skipped and the
    table has room for them. -/
theorem loadFileLines_ok_iff (hA : ∀ n, A.fails n = false) {ls : List (List UInt8 × Bool)}
    (hlen : ∀ l ∈ ls, l.1.length < 2 ^ 55) : ∀ {s : Nc} {rs : List Row}, Table base s rs →
      CapOk s → ((∃ s', loadFileLines A ls true s = some (s', .ok)) ↔
        (∀ l ∈ ls, ¬ IsComment l.1 → Accepted l) ∧
        rs.length + (ls.filter fun l => ¬ IsComment l.1).length ≤ maxEntries) := by
  induction ls with
  | nil => exact fun {s rs} t hc => ⟨fun _ => ⟨by simp, t.length_le hc⟩, fun _ => ⟨s, rfl⟩⟩
  | cons l ls ih =>
    obtain ⟨line, eof⟩ := l
    intro s rs t hc
    rw [List.forall_mem_cons] at hlen
    rw [List.forall_mem_cons, loadFileLines]
    by_cases hhash : IsComment line
    · rw [if_pos (show line.head? = some 35 from hhash),
        List.filter_cons_of_neg (by simpa using hhash), ih hlen.2 t hc]
      exact and_congr_left' (iff_and_self.mpr fun _ hn => absurd hhash hn)
    · rw [if_neg (show ¬ line.head? = some 35 from hhash),
        List.filter_cons_of_pos (by simpa using hhash)]
      by_cases hcut : 10 ∉ cstr line ∧ eof = false
      · rw [if_pos (by simpa using hcut)]
        constructor
        · rintro ⟨_, h⟩
          cases h
        · rintro ⟨⟨h, _⟩, _⟩
          rcases (h hhash).1 with hin | heof
          · exact absurd hin hcut.1
          · exact absurd (heof.symm.trans hcut.2) (by decide)
      · rw [if_neg (by simpa using hcut)]
        have hend : 10 ∈ cstr line ∨ eof = true := by
          rcases Decidable.em (10 ∈ cstr line) with h | h
          · exact .inl h
          · exact .inr (Bool.not_eq_false eof ▸ fun h0 => hcut ⟨h, h0⟩)
        obtain ⟨s₁, ok, h₁, hres, _, _⟩ := loadLine_spec A t line
        obtain ⟨hc₁, hok⟩ := loadLine_ok hA hlen.1 t hc h₁
        simp only [h₁, Option.bind_eq_bind, Option.bind_some]
        rcases hres with ⟨rfl, r, hr, t₁⟩ | ⟨rfl, t₁⟩
        · rw [if_pos rfl, ih hlen.2 t₁ hc₁, List.length_append, List.length_singleton,
            List.length_cons, Nat.add_assoc, Nat.add_comm 1]
          have hhead : ¬ IsComment line → Accepted (line, eof) := fun _ =>
            ⟨hend, by rw [hr]; rfl⟩
          exact and_congr_left' (iff_and_self.mpr fun _ => hhead)
        · rw [if_neg Bool.false_ne_true]
          constructor
          · rintro ⟨_, h⟩
            cases h
          · rintro ⟨⟨h, _⟩, hroom⟩
            rw [List.length_cons] at hroom
            exact absurd (hok (h hhash).2 (by omega)) Bool.false_ne_true

/-- The loop has got through the fragments `done`, and makes an entry of the fragment `l`. -/
def Builds (A : Allocator Obj) (s : Nc) (done : List (List UInt8 × Bool))
    (l : List UInt8 × Bool) : Prop :=
  ∃ s₁ s₂, loadFileLines A done true s = some (s₁, .ok) ∧
    loadFileLines A (done ++ [l]) true s = some (s₂, .ok) ∧
    s₂.gEntryCount = s₁.gEntryCount + 1

/-- The loop has got through the fragments `done`, and the load fails at the fragment `l`. -/
def FailsAt (A : Allocator Obj) (s : Nc) (done : List (List UInt8 × Bool))
    (l : List UInt8 × Bool) : Prop :=
  ∃ s₁ s₂, loadFileLines A done true s = some (s₁, .ok) ∧
    loadFileLines A (done ++ [l]) true s = some (s₂, .error)

/-- The fragment `l` behind the fragments `done` starts where the line `line` of the file
    starts. -/
def StartsAt (file : List UInt8) (done : List (List UInt8 × Bool)) (line : List UInt8) : Prop :=
  ∃ pre post, linesOf file = pre ++ line :: post ∧ (done.map Prod.fst).flatten = pre.flatten

/-- The loader respects the lines of the file: when a load succeeds, the table is the list of the
    parses of the lines that are no comments; an entry is only made of a whole line; and a load
    never fails in a comment. -/
structure RespectsLines (A : Allocator Obj) (db : Database) (file : List UInt8) (s : Nc) :
    Prop where
  table : ∀ s', loadFileEntries A db s = some (s', .ok) →
    ∃ table, decodeTable s' = some table ∧
      ((linesOf file).filter fun l => ¬ IsComment l).mapM parseLine = some table
  built : ∀ done l rest, fgetsLines MAXNETCONFIGLINE db.fileError file.length file =
    done ++ l :: rest → Builds A s done l → StartsAt file done l.1
  failed : ∀ done l rest, fgetsLines MAXNETCONFIGLINE db.fileError file.length file =
    done ++ l :: rest → FailsAt A s done l → ∃ line, StartsAt file done line ∧ ¬ IsComment line

/-- In each comment that the loop gets to, all fragments start with `#`. It gets there when the
    lines before that are no comments fit into the buffer and parse, and the table has room for
    them. -/
def CommentsFit (file : List UInt8) : Prop :=
  ∀ pre l post, linesOf file = pre ++ l :: post → IsComment l →
    (∀ l' ∈ pre, ¬ IsComment l' → l'.length < MAXNETCONFIGLINE ∧ (parseLine l').isSome = true) →
    (pre.filter fun l' => ¬ IsComment l').length ≤ maxEntries →
    ∀ k, 0 < k → k * (MAXNETCONFIGLINE - 1) < l.length →
      l[k * (MAXNETCONFIGLINE - 1)]? = some 35

/-! ## Accepted fragments -/

/-- The fragments of a line, as they are read from the file. -/
def lineFragments : List UInt8 → List (List UInt8) := fragments (MAXNETCONFIGLINE - 2)

def eofOf (error : Bool) : List UInt8 → List UInt8 × Bool := withEof (MAXNETCONFIGLINE - 1) error

theorem fgetsLines_file (error : Bool) (file : List UInt8) :
    fgetsLines MAXNETCONFIGLINE error file.length file =
      ((linesOf file).flatMap lineFragments).map (eofOf error) :=
  fgetsLines_eq (MAXNETCONFIGLINE - 2) error (Nat.le_refl _)

theorem lineFragments_cons {l : List UInt8} (h : l ≠ []) :
    lineFragments l = l.take 999 :: lineFragments (l.drop 999) :=
  fragments_cons _ h

theorem lineFragments_getElem? {l p : List UInt8} {k : Nat} (h : (lineFragments l)[k]? = some p) :
    k * 999 < l.length ∧ p = (l.drop (k * 999)).take 999 := by
  rw [show (lineFragments l)[k]? = _ from fragments_getElem? 998 l k] at h
  split at h
  · next hlt => exact ⟨hlt, (Option.some.inj h).symm⟩
  · cases h

theorem isComment_take {l : List UInt8} : IsComment (l.take 999) ↔ IsComment l := by
  cases l <;> exact Iff.rfl

theorem isComment_drop {l : List UInt8} {i : Nat} :
    IsComment ((l.drop i).take 999) ↔ l[i]? = some 35 := by
  rw [isComment_take, IsComment, List.head?_drop]

/-- A fragment of a comment is a comment, when behind the first one it starts with `#`. -/
theorem isComment_fragment {l p : List UInt8} {k : Nat} (hc : IsComment l)
    (hk : (lineFragments l)[k]? = some p)
    (hhash : 0 < k → k * 999 < l.length → l[k * 999]? = some 35) : IsComment p := by
  obtain ⟨hlt, rfl⟩ := lineFragments_getElem? hk
  rw [isComment_drop]
  rcases Nat.eq_zero_or_pos k with rfl | hpos
  · rw [Nat.zero_mul, ← List.head?_eq_getElem?]
    exact hc
  · exact hhash hpos hlt

theorem lineFragments_of_short {l : List UInt8} (hne : l ≠ []) (hlt : l.length < MAXNETCONFIGLINE) :
    lineFragments l = [l] := by
  have hle : l.length ≤ 999 := Nat.le_of_lt_succ hlt
  rw [lineFragments_cons hne, List.take_of_length_le hle, List.drop_of_length_le hle]
  exact congrArg _ (fragments_nil _)

/-- A line whose first fragment is accepted is not longer than that fragment. -/
theorem short_of_accepted {file l : List UInt8} {error : Bool} (hl : l ∈ linesOf file)
    (h : Accepted (eofOf error (l.take 999))) :
    l.length < MAXNETCONFIGLINE ∧ (parseLine l).isSome = true := by
  have hle : l.length ≤ 999 := by
    rcases h.1 with hnl | heof
    · by_contra hgt
      have hsub : l.take 999 ⊆ l.dropLast := by
        rw [List.dropLast_eq_take]
        exact List.take_subset_take_left l (by omega)
      exact (not_mem_dropLast_of_mem_linesOf hl).2 (hsub ((List.takeWhile_prefix _).subset hnl))
    · have hlt : (l.take 999).length < 999 := (of_decide_eq_true heof).2.1
      rw [List.length_take] at hlt
      omega
  have hparse := h.2
  rw [show (eofOf error (l.take 999)).1 = l.take 999 from rfl, List.take_of_length_le hle] at hparse
  exact ⟨Nat.lt_succ_of_le hle, hparse⟩

/-- In accepted fragments every line that is no comment is short and parses. -/
theorem lines_good {file : List UInt8} {error : Bool} {pre : List (List UInt8)}
    (hsub : ∀ l ∈ pre, l ∈ linesOf file)
    (h : ∀ p ∈ pre.flatMap lineFragments, ¬ IsComment p → Accepted (eofOf error p)) :
    ∀ l ∈ pre, ¬ IsComment l → l.length < MAXNETCONFIGLINE ∧ (parseLine l).isSome = true := by
  intro l hl hn
  have hne := (not_mem_dropLast_of_mem_linesOf (hsub l hl)).1
  refine short_of_accepted (hsub l hl) (h _ ?_ (isComment_take.not.mpr hn))
  exact List.mem_flatMap.mpr ⟨l, hl, by rw [lineFragments_cons hne]; exact List.mem_cons_self⟩

/-- When the lines that are no comments are short and the fragments of the comments are skipped,
    the fragments that are left are the lines that are no comments. -/
theorem filter_fragments {pre : List (List UInt8)} (hne : ∀ l ∈ pre, l ≠ [])
    (hshort : ∀ l ∈ pre, ¬ IsComment l → l.length < MAXNETCONFIGLINE)
    (hskip : ∀ l ∈ pre, IsComment l → ∀ p ∈ lineFragments l, IsComment p) :
    (pre.flatMap lineFragments).filter (fun p => ¬ IsComment p) =
      pre.filter fun l => ¬ IsComment l := by
  induction pre with
  | nil => rfl
  | cons l pre ih =>
    rw [List.forall_mem_cons] at hne hshort hskip
    rw [List.flatMap_cons, List.filter_append, ih hne.2 hshort.2 hskip.2]
    by_cases hc : IsComment l
    · have hnil : (lineFragments l).filter (fun p => ¬ IsComment p) = [] :=
        List.filter_eq_nil_iff.mpr fun p hp => by simpa using hskip.1 hc p hp
      rw [hnil, List.filter_cons_of_neg (by simpa using hc), List.nil_append]
    · rw [lineFragments_of_short hne.1 (hshort.1 hc), List.filter_cons_of_pos (by simpa using hc),
        List.filter_cons_of_pos (by simpa using hc)]
      rfl

/-- There are at least as many such fragments as there are lines that are no comments. -/
theorem length_filter_fragments {pre : List (List UInt8)} (hne : ∀ l ∈ pre, l ≠ []) :
    (pre.filter fun l => ¬ IsComment l).length ≤
      ((pre.flatMap lineFragments).filter fun p => ¬ IsComment p).length := by
  induction pre with
  | nil => exact Nat.le_refl _
  | cons l pre ih =>
    rw [List.forall_mem_cons] at hne
    rw [List.flatMap_cons, List.filter_append, List.length_append]
    have hle := ih hne.2
    by_cases hc : IsComment l
    · rw [List.filter_cons_of_neg (by simpa using hc)]
      omega
    · rw [List.filter_cons_of_pos (by simpa using hc), lineFragments_cons hne.1,
        List.filter_cons_of_pos (by simpa using isComment_take.not.mpr hc), List.length_cons,
        List.length_cons]
      omega

theorem CommentsFit.skips {file : List UInt8} (hfit : CommentsFit file)
    {pre post : List (List UInt8)} {l : List UInt8} (hlines : linesOf file = pre ++ l :: post)
    (hc : IsComment l)
    (hgood : ∀ l' ∈ pre, ¬ IsComment l' →
      l'.length < MAXNETCONFIGLINE ∧ (parseLine l').isSome = true)
    (hroom : (pre.filter fun l' => ¬ IsComment l').length ≤ maxEntries) :
    ∀ p ∈ lineFragments l, IsComment p := by
  intro p hp
  obtain ⟨k, hk⟩ := List.mem_iff_getElem?.mp hp
  exact isComment_fragment hc hk (hfit pre l post hlines hc hgood hroom k)

/-- Behind accepted fragments, a fragment that is not skipped is the first one of a line. -/
theorem CommentsFit.starts {file : List UInt8} {error : Bool} (hfit : CommentsFit file)
    {done rest : List (List UInt8)} {p : List UInt8}
    (hsplit : (linesOf file).flatMap lineFragments = done ++ p :: rest)
    (haccepted : ∀ q ∈ done, ¬ IsComment q → Accepted (eofOf error q))
    (hroom : (done.filter fun q => ¬ IsComment q).length ≤ maxEntries) (hp : ¬ IsComment p) :
    ∃ pre l post, linesOf file = pre ++ l :: post ∧ done = pre.flatMap lineFragments ∧
      p = l.take 999 := by
  obtain ⟨pre, l, post, d, e, hlines, hl, rfl⟩ := flatMap_eq_append_cons hsplit
  have hmem : ∀ l' ∈ pre ++ l :: post, l' ∈ linesOf file := fun l' h => hlines ▸ h
  have hne : l ≠ [] := (not_mem_dropLast_of_mem_linesOf (hmem l (by simp))).1
  cases d with
  | nil =>
    rw [lineFragments_cons hne] at hl
    exact ⟨pre, l, post, hlines, List.append_nil _, (List.cons.inj hl).1.symm⟩
  | cons q d =>
    have hk : (lineFragments l)[d.length + 1]? = some p := by
      rw [hl]
      simp
    obtain ⟨hlt, hdrop⟩ := lineFragments_getElem? hk
    by_cases hc : IsComment l
    · have hsub : ∀ l' ∈ pre, l' ∈ linesOf file := fun l' h => hmem l' (List.mem_append_left _ h)
      have hgood := lines_good hsub fun q hq =>
        haccepted q (List.mem_append_left _ hq)
      have hcount := length_filter_fragments fun l' h =>
        (not_mem_dropLast_of_mem_linesOf (hsub l' h)).1
      rw [List.filter_append, List.length_append] at hroom
      exact absurd (hfit.skips hlines hc hgood (by omega) p (List.mem_of_getElem? hk)) hp
    · -- the first fragment of the line has been accepted, so there is no second one
      obtain ⟨rfl, _⟩ := List.cons.inj ((lineFragments_cons hne).symm.trans hl)
      have hfirst := haccepted (l.take 999) (by simp) (isComment_take.not.mpr hc)
      have hshort := (short_of_accepted (hmem l (by simp)) hfirst).1
      unfold MAXNETCONFIGLINE at hshort
      omega

/-! ## When the loader respects the lines -/

theorem length_of_mapM {α γ : Type} {f : α → Option γ} {as : List α} {cs : List γ}
    (h : as.mapM f = some cs) : cs.length = as.length := by
  induction as generalizing cs with
  | nil =>
    obtain rfl := Option.some.inj h
    rfl
  | cons a as ih =>
    rw [List.mapM_cons] at h
    obtain ⟨b, _, h⟩ := Option.bind_eq_some_iff.mp h
    obtain ⟨bs, hbs, h⟩ := Option.bind_eq_some_iff.mp h
    obtain rfl := Option.some.inj h
    exact congrArg Nat.succ (ih hbs)

/-- The loop has made one entry of each fragment that is not skipped. -/
theorem loadFileLines_count {ls : List (List UInt8 × Bool)} {saw : Bool} {s' : Nc}
    (t : Table base s rs) (h : loadFileLines A ls saw s = some (s', .ok)) :
    s'.gEntryCount = rs.length + (ls.filter fun l => ¬ IsComment l.1).length := by
  obtain ⟨s₁, rs', state, h₁, _, t₁, _, _, hok⟩ := loadFileLines_spec A ls saw t
  obtain ⟨rfl, rfl⟩ := Prod.mk.inj (Option.some.inj (h.symm.trans h₁))
  obtain ⟨_, hmap, _⟩ := hok rfl
  have hlen := length_of_mapM hmap
  rw [List.length_map] at hlen
  rw [t₁.count, List.length_append, hlen]
  rfl

/-- Whether there was a line before only matters when there is none. -/
theorem loadFileLines_saw {ls : List (List UInt8 × Bool)} : ∀ {s s' : Nc},
    loadFileLines A ls false s = some (s', .ok) → loadFileLines A ls true s = some (s', .ok) := by
  induction ls with
  | nil => exact fun h => by cases h
  | cons l ls ih =>
    obtain ⟨line, eof⟩ := l
    intro s s' h
    rw [loadFileLines] at h ⊢
    split
    · next hc =>
      rw [if_pos hc] at h
      exact ih h
    · next hc =>
      rw [if_neg hc] at h
      exact h

section Fragments

variable {file : List UInt8} {error : Bool}

theorem length_fragment {p : List UInt8} (hp : p ∈ (linesOf file).flatMap lineFragments) :
    p.length < 2 ^ 55 := by
  obtain ⟨l, _, hp⟩ := List.mem_flatMap.mp hp
  obtain ⟨k, hk⟩ := List.mem_iff_getElem?.mp hp
  obtain ⟨_, rfl⟩ := lineFragments_getElem? hk
  rw [List.length_take]
  omega

/-- The loop gets through the fragments `done` when they are accepted and the empty table has
    room for them. -/
theorem loads_iff (error : Bool) (hA : ∀ n, A.fails n = false) (he : Empty s)
    {done rest : List (List UInt8)}
    (hsplit : (linesOf file).flatMap lineFragments = done ++ rest) :
    (∃ s', loadFileLines A (done.map (eofOf error)) true s = some (s', .ok)) ↔
      (∀ p ∈ done, ¬ IsComment p → Accepted (eofOf error p)) ∧
      (done.filter fun p => ¬ IsComment p).length ≤ maxEntries := by
  have hlen : ∀ l ∈ done.map (eofOf error), l.1.length < 2 ^ 55 := by
    intro l hl
    obtain ⟨p, hp, rfl⟩ := List.mem_map.mp hl
    exact length_fragment (hsplit ▸ List.mem_append_left rest hp)
  have hfilter : ((done.map (eofOf error)).filter fun l => ¬ IsComment l.1).length =
      (done.filter fun p => ¬ IsComment p).length := by
    rw [List.filter_map, List.length_map]
    rfl
  rw [loadFileLines_ok_iff hA hlen he.table (.inl he.cap), hfilter, List.forall_mem_map]
  simp only [List.length_nil, Nat.zero_add]
  exact Iff.rfl

theorem split_map {done rest : List (List UInt8 × Bool)} {l : List UInt8 × Bool}
    (h : fgetsLines MAXNETCONFIGLINE error file.length file = done ++ l :: rest) :
    ∃ ps p qs, (linesOf file).flatMap lineFragments = ps ++ p :: qs ∧
      done = ps.map (eofOf error) ∧ l = eofOf error p := by
  rw [fgetsLines_file, List.map_eq_append_iff] at h
  obtain ⟨ps, rs, hsplit, rfl, h⟩ := h
  obtain ⟨p, qs, rfl, rfl, _⟩ := List.map_eq_cons_iff.mp h
  exact ⟨ps, p, qs, hsplit, rfl, rfl⟩

theorem map_eofOf_fst (ps : List (List UInt8)) : (ps.map (eofOf error)).map Prod.fst = ps := by
  rw [List.map_map]
  exact List.map_id ps

/-- Where the loop does not skip the next fragment, a line starts. -/
theorem CommentsFit.startsAt (hA : ∀ n, A.fails n = false) (he : Empty s) (hfit : CommentsFit file)
    {ps qs : List (List UInt8)} {p : List UInt8}
    (hsplit : (linesOf file).flatMap lineFragments = ps ++ p :: qs)
    (hdone : ∃ s', loadFileLines A (ps.map (eofOf error)) true s = some (s', .ok))
    (hp : ¬ IsComment p) :
    ∃ l, p = l.take 999 ∧ l ∈ linesOf file ∧ StartsAt file (ps.map (eofOf error)) l := by
  obtain ⟨haccepted, hroom⟩ := (loads_iff error hA he hsplit).mp hdone
  obtain ⟨pre, l, post, hlines, rfl, rfl⟩ := hfit.starts hsplit haccepted hroom hp
  refine ⟨l, rfl, by rw [hlines]; simp, pre, post, hlines, ?_⟩
  rw [map_eofOf_fst]
  exact flatMap_fragments_flatten _ pre

/-- A fragment that is skipped changes nothing. -/
theorem loads_comment (hA : ∀ n, A.fails n = false) (he : Empty s) {ps qs : List (List UInt8)}
    {p : List UInt8} (hsplit : (linesOf file).flatMap lineFragments = ps ++ p :: qs)
    (hp : IsComment p) {s₁ : Nc}
    (hdone : loadFileLines A (ps.map (eofOf error)) true s = some (s₁, .ok)) :
    ∃ s₂, loadFileLines A (ps.map (eofOf error) ++ [eofOf error p]) true s = some (s₂, .ok) ∧
      s₂.gEntryCount = s₁.gEntryCount := by
  obtain ⟨haccepted, hroom⟩ := (loads_iff error hA he hsplit).mp ⟨s₁, hdone⟩
  have hsplit' : (linesOf file).flatMap lineFragments = (ps ++ [p]) ++ qs := by
    rw [hsplit, List.append_assoc, List.singleton_append]
  have hfilter : (ps ++ [p]).filter (fun p => ¬ IsComment p) = ps.filter fun p => ¬ IsComment p := by
    rw [List.filter_append, List.filter_cons_of_neg (by simpa using hp), List.filter_nil,
      List.append_nil]
  obtain ⟨s₂, h₂⟩ := (loads_iff error hA he hsplit').mpr ⟨fun q hq hn => by
    rcases List.mem_append.mp hq with hq | hq
    · exact haccepted q hq hn
    · exact absurd (List.mem_singleton.mp hq ▸ hp) hn, by rw [hfilter]; exact hroom⟩
  have hcount := loadFileLines_count he.table h₂
  have hcount₁ := loadFileLines_count he.table hdone
  rw [List.filter_map, List.length_map] at hcount hcount₁
  rw [List.map_append, List.map_singleton] at h₂
  refine ⟨s₂, h₂, hcount.trans (Eq.trans ?_ hcount₁.symm)⟩
  exact congrArg (fun l => _ + List.length l) hfilter

theorem CommentsFit.built (hA : ∀ n, A.fails n = false) (he : Empty s) (hfit : CommentsFit file)
    {done rest : List (List UInt8 × Bool)} {l : List UInt8 × Bool}
    (hfrags : fgetsLines MAXNETCONFIGLINE error file.length file = done ++ l :: rest)
    (hb : Builds A s done l) : StartsAt file done l.1 := by
  obtain ⟨ps, p, qs, hsplit, rfl, rfl⟩ := split_map hfrags
  obtain ⟨s₁, s₂, h₁, h₂, hcount⟩ := hb
  have hp : ¬ IsComment p := by
    intro hp
    obtain ⟨s₂', h₂', hsame⟩ := loads_comment hA he hsplit hp h₁
    obtain ⟨rfl, _⟩ := Prod.mk.inj (Option.some.inj (h₂.symm.trans h₂'))
    omega
  obtain ⟨l, rfl, hmem, hstarts⟩ := hfit.startsAt hA he hsplit ⟨s₁, h₁⟩ hp
  have hsplit' : (linesOf file).flatMap lineFragments = (ps ++ [l.take 999]) ++ qs := by
    rw [hsplit, List.append_assoc, List.singleton_append]
  have hnext : ∃ s', loadFileLines A ((ps ++ [l.take 999]).map (eofOf error)) true s =
      some (s', .ok) := ⟨s₂, by rw [List.map_append]; exact h₂⟩
  have haccepted := ((loads_iff error hA he hsplit').mp hnext).1 (l.take 999) (by simp) hp
  have hle := Nat.le_of_lt_succ (short_of_accepted hmem haccepted).1
  rw [show (eofOf error (l.take 999)).1 = l.take 999 from rfl, List.take_of_length_le hle]
  exact hstarts

theorem CommentsFit.failed (hA : ∀ n, A.fails n = false) (he : Empty s) (hfit : CommentsFit file)
    {done rest : List (List UInt8 × Bool)} {l : List UInt8 × Bool}
    (hfrags : fgetsLines MAXNETCONFIGLINE error file.length file = done ++ l :: rest)
    (hf : FailsAt A s done l) : ∃ line, StartsAt file done line ∧ ¬ IsComment line := by
  obtain ⟨ps, p, qs, hsplit, rfl, rfl⟩ := split_map hfrags
  obtain ⟨s₁, s₂, h₁, h₂⟩ := hf
  have hp : ¬ IsComment p := by
    intro hp
    obtain ⟨s₂', h₂', _⟩ := loads_comment hA he hsplit hp h₁
    rw [h₂'] at h₂
    cases h₂
  obtain ⟨l, rfl, _, hstarts⟩ := hfit.startsAt hA he hsplit ⟨s₁, h₁⟩ hp
  exact ⟨l, hstarts, isComment_take.not.mp hp⟩

/-- All fragments that are not skipped are lines that are no comments. -/
theorem CommentsFit.filter_eq (hfit : CommentsFit file)
    (haccepted : ∀ p ∈ (linesOf file).flatMap lineFragments, ¬ IsComment p →
      Accepted (eofOf error p))
    (hroom : (((linesOf file).flatMap lineFragments).filter fun p => ¬ IsComment p).length ≤
      maxEntries) :
    ((linesOf file).flatMap lineFragments).filter (fun p => ¬ IsComment p) =
      (linesOf file).filter fun l => ¬ IsComment l := by
  have hne : ∀ l ∈ linesOf file, l ≠ [] := fun l hl => (not_mem_dropLast_of_mem_linesOf hl).1
  have hgood := lines_good (fun l hl => hl) haccepted
  refine filter_fragments hne (fun l hl hn => (hgood l hl hn).1) fun l hl hc => ?_
  obtain ⟨pre, post, hlines⟩ := List.append_of_mem hl
  have hmem : ∀ l' ∈ pre, l' ∈ linesOf file := fun l' hl' => by
    rw [hlines]
    exact List.mem_append_left _ hl'
  refine hfit.skips hlines hc (fun l' hl' => hgood l' (hmem l' hl')) ?_
  have hcount := length_filter_fragments fun l' hl' => hne l' (hmem l' hl')
  rw [hlines, List.flatMap_append, List.filter_append, List.length_append] at hroom
  omega

theorem CommentsFit.table (hA : ∀ n, A.fails n = false) (he : Empty s) (hfit : CommentsFit file)
    {s' : Nc}
    (h : loadFileLines A (fgetsLines MAXNETCONFIGLINE error file.length file) false s =
      some (s', .ok)) :
    ∃ table, decodeTable s' = some table ∧
      ((linesOf file).filter fun l => ¬ IsComment l).mapM parseLine = some table := by
  rw [fgetsLines_file] at h
  obtain ⟨haccepted, hroom⟩ :=
    (loads_iff error hA he (List.append_nil _).symm).mp ⟨s', loadFileLines_saw h⟩
  obtain ⟨s₁, rs, state, h₁, _, t, _, _, hok⟩ :=
    loadFileLines_spec A (((linesOf file).flatMap lineFragments).map (eofOf error)) false he.table
  obtain ⟨rfl, rfl⟩ := Prod.mk.inj (Option.some.inj (h.symm.trans h₁))
  refine ⟨_, t.decode, ?_⟩
  have hmap := (hok rfl).2.1
  rw [List.filter_map, List.mapM_map] at hmap
  rw [← hfit.filter_eq haccepted hroom]
  exact hmap

/-- A line that is accepted as it is: it ends with its newline. -/
theorem accepted_of_short {pre post : List (List UInt8)} {l : List UInt8}
    (hlines : linesOf file = pre ++ l :: post) (hpost : post ≠ []) (hnul : 0 ∉ file)
    (hparse : (parseLine l).isSome = true) : Accepted (eofOf error l) := by
  have hmem : ∀ c ∈ l, c ∈ file := by
    intro c hc
    rw [← linesOf_flatten file, hlines]
    simp [hc]
  have hcstr : cstr l = l := by
    refine List.takeWhile_eq_self_iff.mpr fun c hc => ?_
    have hne : c ≠ 0 := fun h0 => hnul (h0 ▸ hmem c hc)
    simpa using hne
  refine ⟨.inl ?_, hparse⟩
  rw [show (eofOf error l).1 = l from rfl, hcstr]
  exact mem_of_linesOf hlines hpost

/-- The loop gets to the fragment `k` of a comment when everything before it is in order. -/
theorem loads_comment_fragments (error : Bool) (hA : ∀ n, A.fails n = false) (he : Empty s)
    (hnul : 0 ∉ file) {pre post rest : List (List UInt8)} {l : List UInt8} {k : Nat}
    (hlines : linesOf file = pre ++ l :: post)
    (hgood : ∀ l' ∈ pre, ¬ IsComment l' →
      l'.length < MAXNETCONFIGLINE ∧ (parseLine l').isSome = true)
    (hroom : (pre.filter fun l' => ¬ IsComment l').length ≤ maxEntries)
    (hskip : ∀ l' ∈ pre, IsComment l' → ∀ p ∈ lineFragments l', IsComment p)
    (hl : ∀ p ∈ (lineFragments l).take k, IsComment p)
    (hsplit : (linesOf file).flatMap lineFragments =
      (pre.flatMap lineFragments ++ (lineFragments l).take k) ++ rest) :
    ∃ s', loadFileLines A ((pre.flatMap lineFragments ++ (lineFragments l).take k).map
      (eofOf error)) true s = some (s', .ok) := by
  have hne : ∀ l' ∈ pre, l' ≠ [] := fun l' hl' =>
    (not_mem_dropLast_of_mem_linesOf (hlines ▸ List.mem_append_left _ hl')).1
  have hfilter : (pre.flatMap lineFragments ++ (lineFragments l).take k).filter
      (fun p => ¬ IsComment p) = pre.filter fun l' => ¬ IsComment l' := by
    have hnil : ((lineFragments l).take k).filter (fun p => ¬ IsComment p) = [] :=
      List.filter_eq_nil_iff.mpr fun p hp => by simpa using hl p hp
    rw [List.filter_append, hnil, List.append_nil]
    exact filter_fragments hne (fun l' hl' hn => (hgood l' hl' hn).1) hskip
  rw [loads_iff error hA he hsplit, hfilter]
  refine ⟨fun p hp hn => ?_, hroom⟩
  have hpre : p ∈ pre.filter fun l' => ¬ IsComment l' := by
    rw [← hfilter]
    exact List.mem_filter.mpr ⟨hp, by simpa using hn⟩
  obtain ⟨hpre, _⟩ := List.mem_filter.mp hpre
  obtain ⟨pre₁, pre₂, rfl⟩ := List.append_of_mem hpre
  rw [List.append_assoc, List.cons_append] at hlines
  exact accepted_of_short hlines (by simp) hnul (hgood p hpre hn).2

/-- A fragment of a line behind its first one does not start a line. -/
theorem not_startsAt {pre post : List (List UInt8)} {l line : List UInt8} {k : Nat}
    (hlines : linesOf file = pre ++ l :: post) (hpos : 0 < k) (hlt : k * 999 < l.length) :
    ¬ StartsAt file ((pre.flatMap lineFragments ++ (lineFragments l).take k).map (eofOf error))
      line := by
  rintro ⟨pre', post', hlines', heq⟩
  have hmem : l ∈ linesOf file := by
    rw [hlines]
    simp
  have hne : l ≠ [] := (not_mem_dropLast_of_mem_linesOf hmem).1
  have htake : ((lineFragments l).take k).flatten = l.take (k * 999) :=
    fragments_take_flatten 998 l k
  rw [map_eofOf_fst, List.flatten_append, htake] at heq
  refine lines_apart (hlines.symm.trans hlines') (m := k * 999) (by omega) hlt ?_
  rw [← heq, List.length_append, List.length_take, Nat.min_eq_left (Nat.le_of_lt hlt)]
  exact congrArg (fun l => List.length l + k * 999) (flatMap_fragments_flatten _ pre)

end Fragments

/-- The converse: a fragment of a comment that is not skipped makes an entry or an error. -/
theorem RespectsLines.commentsFit {db : Database} {file : List UInt8}
    (hA : ∀ n, A.fails n = false) (he : Empty s) (hnul : 0 ∉ file)
    (hr : RespectsLines A db file s) : CommentsFit file := by
  intro pre
  induction hn : pre.length using Nat.strong_induction_on generalizing pre with
  | _ n ih =>
    intro l post hlines hc hgood hroom k
    have hskip : ∀ l' ∈ pre, IsComment l' → ∀ p ∈ lineFragments l', IsComment p := by
      intro l' hl' hc' p hp
      obtain ⟨pre₁, pre₂, rfl⟩ := List.append_of_mem hl'
      obtain ⟨j, hj⟩ := List.mem_iff_getElem?.mp hp
      rw [List.append_assoc, List.cons_append] at hlines
      rw [List.filter_append, List.length_append] at hroom
      refine isComment_fragment hc' hj (ih pre₁.length ?_ pre₁ rfl l' _ hlines hc' ?_ (by omega) j)
      · rw [← hn, List.length_append, List.length_cons]
        omega
      · exact fun q hq => hgood q (List.mem_append_left _ hq)
    induction k using Nat.strong_induction_on with
    | _ k ihk =>
      intro hpos hlt
      by_contra hhash
      have hl : ∀ p ∈ (lineFragments l).take k, IsComment p := by
        intro p hp
        obtain ⟨j, hj⟩ := List.mem_iff_getElem?.mp hp
        rw [List.getElem?_take] at hj
        split at hj
        · next hjk => exact isComment_fragment hc hj (ihk j hjk)
        · cases hj
      have hp : (lineFragments l)[k]? = some ((l.drop (k * 999)).take 999) :=
        (fragments_getElem? 998 l k).trans (if_pos hlt)
      have hnot : ¬ IsComment ((l.drop (k * 999)).take 999) := isComment_drop.not.mpr hhash
      generalize (l.drop (k * 999)).take 999 = p at hp hnot
      obtain ⟨hk, hpk⟩ := List.getElem?_eq_some_iff.mp hp
      have hsplit : (linesOf file).flatMap lineFragments =
          (pre.flatMap lineFragments ++ (lineFragments l).take k) ++
            p :: ((lineFragments l).drop (k + 1) ++ post.flatMap lineFragments) := by
        have hcut : lineFragments l =
            (lineFragments l).take k ++ p :: (lineFragments l).drop (k + 1) := by
          rw [← hpk, ← List.drop_eq_getElem_cons hk, List.take_append_drop]
        rw [hlines, List.flatMap_append, List.flatMap_cons]
        conv_lhs => rw [hcut]
        simp only [List.append_assoc, List.cons_append]
      obtain ⟨s₁, h₁⟩ := loads_comment_fragments db.fileError hA he hnul hlines hgood hroom hskip
        hl hsplit
      have hstarts : ∀ line, ¬ StartsAt file ((pre.flatMap lineFragments ++
          (lineFragments l).take k).map (eofOf db.fileError)) line :=
        fun _ => not_startsAt hlines hpos hlt
      have hfrags := fgetsLines_file db.fileError file
      rw [hsplit, List.map_append, List.map_cons] at hfrags
      generalize (pre.flatMap lineFragments ++ (lineFragments l).take k).map (eofOf db.fileError) =
        done at h₁ hstarts hfrags
      obtain ⟨s₂, rs', state, h₂, hne, _⟩ :=
        loadFileLines_spec A (done ++ [eofOf db.fileError p]) true he.table
      cases state with
      | ok =>
        refine hstarts _ (hr.built _ _ _ hfrags ⟨s₁, s₂, h₁, h₂, ?_⟩)
        rw [loadFileLines_count he.table h₁, loadFileLines_count he.table h₂, List.filter_append,
          List.filter_cons_of_pos (by simpa [eofOf, withEof] using hnot)]
        simp
      | nofile => exact absurd rfl hne
      | error =>
        obtain ⟨line, hline, _⟩ := hr.failed _ _ _ hfrags ⟨s₁, s₂, h₁, h₂⟩
        exact hstarts line hline

/-- The loader respects the lines of a file exactly when all fragments of the comments that it
    gets to start with `#`. -/
theorem respectsLines_iff (A : Allocator Obj) (db : Database) (file : List UInt8) (s : Nc)
    (hA : ∀ n, A.fails n = false) (he : Empty s) (hfile : db.file = some file)
    (hnul : 0 ∉ file) : RespectsLines A db file s ↔ CommentsFit file := by
  refine ⟨fun hr => hr.commentsFit hA he hnul, fun hfit => ⟨fun s' h => ?_, ?_, ?_⟩⟩
  · unfold loadFileEntries at h
    rw [hfile] at h
    exact hfit.table hA he h
  · exact fun done l rest hfrags hb => hfit.built hA he hfrags hb
  · exact fun done l rest hfrags hf => hfit.failed hA he hfrags hf

/-- A comment of 998 characters and a line. -/
def shortComment : List UInt8 :=
  35 :: List.replicate 997 99 ++ chars "\nlocal tpi_cots_ord - loopback - - -\n"

/-- All fragments of its lines are first ones. -/
theorem respectsLines_iff_shortComment :
    RespectsLines (Allocator.bump Obj fun _ => false) { oneLine with file := some shortComment }
      shortComment (World.start ⟨Heap.empty, 0⟩).nc := by
  refine (respectsLines_iff _ _ _ _ (fun _ => rfl) ⟨rfl, rfl, rfl, rfl⟩ rfl
    (by decide +kernel)).mpr ?_
  intro pre l post hlines _ _ _ k hpos hlt
  have hshort : ∀ l ∈ linesOf shortComment, l.length ≤ 999 := by decide +kernel
  have hle := hshort l (by rw [hlines]; simp)
  unfold MAXNETCONFIGLINE at hlt
  omega

/-- A comment of more than 999 characters, the rest of which looks like a line. -/
def longComment : List UInt8 :=
  35 :: List.replicate 998 99 ++ chars "local tpi_cots_ord - loopback - - -\n"

theorem not_respectsLines_longComment :
    ¬ RespectsLines (Allocator.bump Obj fun _ => false) { oneLine with file := some longComment }
      longComment (World.start ⟨Heap.empty, 0⟩).nc := by
  intro hr
  have hfit := hr.commentsFit (fun _ => rfl) ⟨rfl, rfl, rfl, rfl⟩ (by decide +kernel)
  have hlines : linesOf longComment = [] ++ longComment :: [] := by decide +kernel
  have hhash := hfit [] longComment [] hlines rfl (by simp) (Nat.zero_le _) 1 (by decide)
  revert hhash
  decide +kernel

end Librecompat.Netconfig
