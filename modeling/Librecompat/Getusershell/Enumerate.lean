/-
  What successive calls of `getusershell` return.

  `shellOf` is the shell that a line of the file names. `entries_point` says that every pointer in
  `shells` still points to the text of its line when all lines have been read, `shells_of_pieces`
  that cutting a line in two adds no shell and changes none. `getusershell_enumerates` puts the
  two together.
-/
import Librecompat.Getusershell.Buffers

namespace Librecompat.Getusershell

open Librecompat.Lib

/-! ## Shells -/

/-- A line from its first `/` on, unless there is a `#` before that. -/
def fromSlash : List UInt8 → Option (List UInt8)
  | [] => none
  | c :: line => if c = 47 then some (c :: line) else if c = 35 then none else fromSlash line

/-- The shell that a line names: from the first `/` to the next white space, `#` or end of the
    line. -/
def shellOf (isspace : UInt8 → Bool) (line : List UInt8) : Option (List UInt8) :=
  (fromSlash line).map (List.takeWhile fun c => !isspace c && c ≠ 35 && c ≠ 10)

/-- The shells that a file names, in the order of its lines. -/
def shellsOf (isspace : UInt8 → Bool) (file : List UInt8) : List (List UInt8) :=
  (Netconfig.linesOf file).filterMap (shellOf isspace)

/-- Where a `char *` that the code returns points to, `none` being a null pointer. -/
def State.Points (s : State) : Option CharPtr → Option (List UInt8) → Prop
  | none, none => True
  | some p, some t => s.text p = some t
  | _, _ => False

/-- Successive calls from `s` on return the texts one after the other and then a null pointer. The
    texts are those behind the last call. -/
def Enumerates (isspace : UInt8 → Bool) (sz : Sizing) (s : State) (ws : List World)
    (texts : List (List UInt8)) : Prop :=
  ∃ rets s', getusershells isspace sz ws s = some (rets, s') ∧
    List.Forall₂ s'.Points rets ((List.range ws.length).map (texts[·]?))

variable {isspace : UInt8 → Bool} {sz : Sizing} {file : List UInt8} {s : State}

/-! ## The texts in the buffer -/

/-- The shell that the code takes from what it reads at once. -/
def pieceShell (isspace : UInt8 → Bool) (line : List UInt8) : Option (List UInt8) :=
  if hasShell line then
    some ((line.drop (start line)).takeWhile fun c => !endStop isspace c)
  else none

theorem kept_of_shell {line text : List UInt8} (h : pieceShell isspace line = some text) :
    kept isspace line = line.take (start line) ++ text ++ [0] ∧ 0 ∉ text := by
  unfold pieceShell at h
  split at h
  · next hshell =>
    obtain rfl := Option.some.inj h
    constructor
    · rw [kept, if_pos hshell, stop, List.take_add, List.takeWhile_eq_take_findIdx_not]
      simp only [Bool.not_not]
    · intro hmem
      have hstop := List.mem_takeWhile_imp hmem
      simp [endStop] at hstop
  · cases h

theorem hasShell_of_none {line : List UInt8} (h : pieceShell isspace line = none) :
    hasShell line = false := by
  unfold pieceShell at h
  split at h
  · cases h
  · next hshell => simpa using hshell

/-- The pointers point to the shells of their lines. -/
theorem entries_point {strings before : List UInt8} {lines : List (List UInt8)} {cp : Nat}
    (hs : s.strings = some strings) (hcp : before.length = cp)
    (h : before ++ lines.flatMap (kept isspace) <+: strings) :
    List.Forall₂ s.Points (entries isspace cp lines)
      ((lines.filterMap (pieceShell isspace)).map some) := by
  induction lines generalizing before cp with
  | nil => exact .nil
  | cons line lines ih =>
    rw [List.flatMap_cons, ← List.append_assoc] at h
    have hrest := @ih (before ++ kept isspace line) (cp + (kept isspace line).length)
      (by rw [List.length_append, hcp]) h
    rw [entries, entry]
    cases hp : pieceShell isspace line with
    | none =>
      rw [List.filterMap_cons_none hp, if_neg (by rw [hasShell_of_none hp]; decide)]
      exact hrest
    | some text =>
      obtain ⟨hkept, hnul⟩ := kept_of_shell hp
      have hshell : hasShell line = true := by
        by_contra hno
        rw [pieceShell, if_neg hno] at hp
        cases hp
      rw [List.filterMap_cons_some hp, if_pos hshell]
      refine .cons ?_ hrest
      obtain ⟨tail, rfl⟩ := h
      have hcut : before ++ kept isspace line ++ lines.flatMap (kept isspace) ++ tail =
          (before ++ line.take (start line)) ++
            (text ++ 0 :: (lines.flatMap (kept isspace) ++ tail)) := by
        rw [hkept]
        simp only [List.append_assoc, List.cons_append, List.nil_append]
      have hlen : cp + start line = (before ++ line.take (start line)).length := by
        rw [List.length_append, List.length_take, hcp, Nat.min_eq_left (start_le line)]
      show (s.strings.bind _) = _
      rw [hs, Option.bind_some, hcut, hlen, List.drop_left, strlen_append_zero hnul,
        Option.map_some, List.take_left]

/-! ## Lines in pieces -/

theorem start_cons (c : UInt8) (line : List UInt8) :
    start (c :: line) = if startStop c then 0 else start line + 1 := by
  rw [start, List.findIdx_cons]
  cases startStop c <;> rfl

/-- What the first loop finds in a line without a NUL. -/
theorem fromSlash_eq {line : List UInt8} (hnul : 0 ∉ line) :
    fromSlash line = if hasShell line then some (line.drop (start line)) else none := by
  induction line with
  | nil => rfl
  | cons c line ih =>
    rw [List.mem_cons, not_or] at hnul
    unfold fromSlash
    by_cases h47 : c = 47
    · subst h47
      rfl
    · by_cases h35 : c = 35
      · subst h35
        rfl
      · have hno : startStop c = false := by
          simp [startStop, h35, h47, Ne.symm hnul.1]
        have hstart : start (c :: line) = start line + 1 := by
          rw [start_cons, hno]
          rfl
        rw [if_neg h47, if_neg h35, hasShell, hstart, List.getElem?_cons_succ,
          List.drop_succ_cons]
        exact ih hnul.2

theorem fromSlash_subset {line text : List UInt8} (h : fromSlash line = some text) :
    text ⊆ line := by
  induction line with
  | nil => cases h
  | cons c line ih =>
    unfold fromSlash at h
    split at h
    · exact Option.some.inj h ▸ List.Subset.refl _
    · split at h
      · cases h
      · exact List.subset_cons_of_subset c (ih h)

theorem takeWhile_congr {α : Type} {p q : α → Bool} {l : List α} (h : ∀ a ∈ l, p a = q a) :
    l.takeWhile p = l.takeWhile q := by
  induction l with
  | nil => rfl
  | cons a l ih =>
    rw [List.forall_mem_cons] at h
    rw [List.takeWhile_cons, List.takeWhile_cons, h.1, ih h.2]

/-- What the code takes from a line that it reads as a whole. -/
theorem pieceShell_eq {line : List UInt8} (hspace : isspace 10 = true) (hnul : 0 ∉ line) :
    pieceShell isspace line = shellOf isspace line := by
  have hstop : ∀ c, c ≠ 0 → (!endStop isspace c) = (!isspace c && c ≠ 35 && c ≠ 10) := by
    intro c h0
    by_cases h10 : c = 10
    · simp [endStop, h10, hspace]
    · simp [endStop, h0, h10]
  have hpiece : pieceShell isspace line =
      (fromSlash line).map (List.takeWhile fun c => !endStop isspace c) := by
    rw [fromSlash_eq hnul, pieceShell]
    split <;> rfl
  rw [hpiece, shellOf]
  cases htext : fromSlash line with
  | none => rfl
  | some text =>
    have hsub := fromSlash_subset htext
    exact congrArg some (takeWhile_congr fun c hc => hstop c fun h => hnul (h ▸ hsub hc))

theorem fromSlash_newline (t : List UInt8) :
    fromSlash (t ++ [10]) = (fromSlash t).map (· ++ [10]) := by
  induction t with
  | nil => rfl
  | cons c t ih =>
    rw [List.cons_append, fromSlash, fromSlash]
    split
    · rfl
    · split
      · rfl
      · exact ih

/-- The newline at the end of a line names nothing. -/
theorem shellOf_newline (t : List UInt8) : shellOf isspace (t ++ [10]) = shellOf isspace t := by
  rw [shellOf, shellOf, fromSlash_newline, Option.map_map]
  congr 1
  funext text
  rw [Function.comp_apply, List.takeWhile_append]
  split
  · next hall =>
    rw [List.takeWhile_cons_of_neg (by simp), List.append_nil]
    exact ((List.takeWhile_prefix _).eq_of_length hall).symm
  · rfl

/-- A line of at most `MAXPATHLEN` characters is read at once, but for its newline perhaps. -/
theorem fragments_of_short {line : List UInt8} (hend : 10 ∉ line.dropLast)
    (hshort : (line.takeWhile (· ≠ 10)).length ≤ MAXPATHLEN) (hne : line ≠ []) :
    Netconfig.fragments (MAXPATHLEN - 1) line = [line] ∨
      ∃ t, line = t ++ [10] ∧ Netconfig.fragments (MAXPATHLEN - 1) line = [t, [10]] := by
  have hsucc : MAXPATHLEN - 1 + 1 = MAXPATHLEN := rfl
  rw [Netconfig.fragments_cons _ hne, hsucc]
  rcases Nat.lt_or_ge MAXPATHLEN line.length with hlong | hle
  · obtain ⟨t, c, rfl⟩ : ∃ t c, line = t ++ [c] :=
      ⟨line.dropLast, line.getLast hne, (List.dropLast_append_getLast hne).symm⟩
    rw [List.dropLast_concat] at hend
    rw [List.length_append, List.length_singleton] at hlong
    have hall : ∀ a ∈ t, decide (a ≠ 10) = true :=
      fun a ha => decide_eq_true fun h => hend (h ▸ ha)
    rw [List.takeWhile_append_of_pos hall, List.length_append] at hshort
    have hlen : t.length = MAXPATHLEN := by omega
    have hc : c = 10 := by
      by_contra hc
      rw [List.takeWhile_cons, if_pos (decide_eq_true hc), List.length_cons] at hshort
      omega
    subst hc
    refine .inr ⟨t, rfl, ?_⟩
    rw [List.take_left' hlen, List.drop_left' hlen,
      Netconfig.fragments_cons _ (List.cons_ne_nil _ _)]
    simp only [MAXPATHLEN, List.take_succ_cons, List.take_nil, List.drop_succ_cons, List.drop_nil,
      Netconfig.fragments_nil]
  · rw [List.take_of_length_le hle, List.drop_of_length_le hle, Netconfig.fragments_nil]
    exact .inl rfl

/-- The pieces that `fgets` reads name the shells of the lines. -/
theorem shells_of_pieces (hspace : isspace 10 = true) (hnul : 0 ∉ file)
    (hshort : ∀ l ∈ Netconfig.linesOf file, (l.takeWhile (· ≠ 10)).length ≤ MAXPATHLEN) :
    (linesRead file).filterMap (pieceShell isspace) = shellsOf isspace file := by
  have hlines : ∀ l ∈ Netconfig.linesOf file,
      (Netconfig.fragments (MAXPATHLEN - 1) l).filterMap (pieceShell isspace) =
        (shellOf isspace l).toList := by
    intro l hl
    have hnul' : 0 ∉ l := fun h =>
      hnul (Netconfig.linesOf_flatten file ▸ List.mem_flatten.mpr ⟨l, hl, h⟩)
    obtain ⟨hne, hend⟩ := Netconfig.not_mem_dropLast_of_mem_linesOf hl
    obtain heq | ⟨t, rfl, heq⟩ := fragments_of_short hend (hshort l hl) hne
    · rw [heq, List.filterMap_cons, pieceShell_eq hspace hnul']
      cases shellOf isspace l <;> rfl
    · have hnewline : pieceShell isspace [10] = none := rfl
      have ht : 0 ∉ t := fun h => hnul' (List.mem_append_left _ h)
      rw [heq, List.filterMap_cons, List.filterMap_cons_none hnewline, pieceShell_eq hspace ht,
        shellOf_newline]
      cases shellOf isspace t <;> rfl
  unfold linesRead shellsOf
  generalize Netconfig.linesOf file = lines at hlines
  induction lines with
  | nil => rfl
  | cons l ls ih =>
    rw [List.forall_mem_cons] at hlines
    rw [List.flatMap_cons, List.filterMap_append, hlines.1, ih hlines.2, List.filterMap_cons]
    cases shellOf isspace l <;> rfl

/-! ## Calls -/

theorem points_getElem? {ps : List (Option CharPtr)} {texts : List (List UInt8)}
    (h : List.Forall₂ s.Points ps (texts.map some)) (j : Nat) :
    s.Points (ps[j]?).join texts[j]? := by
  induction texts generalizing ps j with
  | nil =>
    cases h
    exact trivial
  | cons t texts ih =>
    obtain _ | ⟨hp, hps⟩ := h
    cases j with
    | zero => exact hp
    | succ j => exact ih hps j

theorem getusershell_shells {w : World} {ps shells : List (Option CharPtr)} {i : Nat}
    (hshells : s.shells = some shells) (hcur : s.curshell = some (.shells, i)) (hnull : none ∉ ps)
    (hps : ps ++ [none] <+: shells) (hi : i ≤ ps.length) :
    ∃ i', getusershell isspace sz w s =
        some ((ps[i]?).join, { s with curshell := some (.shells, i') }) ∧
      i' ≤ ps.length ∧ ∀ j, (ps[i + (j + 1)]?).join = (ps[i' + j]?).join := by
  have hcell : s.cell (.shells, i) = some (ps[i]?).join := by
    obtain ⟨tail, rfl⟩ := hps
    rw [State.cell, hshells, Option.bind_some, List.append_assoc]
    rcases Nat.lt_or_eq_of_le hi with hlt | rfl
    · rw [List.getElem?_append_left hlt, List.getElem?_eq_getElem hlt]
      rfl
    · rw [List.getElem?_append_right (Nat.le_refl _), Nat.sub_self, List.getElem?_eq_none hi]
      rfl
  unfold getusershell
  rw [hcur, if_neg (by simp)]
  simp only [Option.bind_eq_bind, Option.bind_some, hcur, hcell]
  rcases Nat.lt_or_eq_of_le hi with hlt | rfl
  · have hne : (ps[i]?).join ≠ none := by
      rw [List.getElem?_eq_getElem hlt]
      exact fun h => hnull (h ▸ List.getElem_mem hlt)
    rw [if_neg hne]
    exact ⟨i + 1, rfl, hlt, fun j => by rw [Nat.add_right_comm, Nat.add_assoc i]⟩
  · have hend : ∀ j, ps[ps.length + j]? = none := fun j =>
      List.getElem?_eq_none (Nat.le_add_right _ j)
    have hlast := hend 0
    rw [Nat.add_zero] at hlast
    rw [hlast, Option.join_none, if_pos rfl]
    exact ⟨ps.length, by rw [← hcur], Nat.le_refl _, fun j => by rw [hend, hend]⟩

/-- The pointers up to the null pointer, and then null pointers. -/
theorem getusershells_shells {ws : List World} {ps shells : List (Option CharPtr)} {i : Nat}
    (hshells : s.shells = some shells) (hcur : s.curshell = some (.shells, i)) (hnull : none ∉ ps)
    (hps : ps ++ [none] <+: shells) (hi : i ≤ ps.length) :
    ∃ s', getusershells isspace sz ws s =
        some ((List.range ws.length).map fun j => (ps[i + j]?).join, s') ∧
      s'.strings = s.strings := by
  induction ws generalizing s i with
  | nil => exact ⟨s, rfl, rfl⟩
  | cons w ws ih =>
    obtain ⟨i', hcall, hi', hnext⟩ :=
      @getusershell_shells isspace sz s w ps shells i hshells hcur hnull hps hi
    obtain ⟨s', hcalls, hstrings⟩ :=
      @ih { s with curshell := some (.shells, i') } i' hshells rfl hi'
    refine ⟨s', ?_, hstrings⟩
    rw [getusershells, hcall, Option.bind_eq_bind, Option.bind_some]
    dsimp only
    rw [hcalls, List.length_cons, List.range_succ_eq_map, List.map_cons, List.map_map, Nat.add_zero]
    simp only [Option.bind_eq_bind, Option.bind_some, Function.comp_def, hnext]

theorem entries_not_null {cp : Nat} {lines : List (List UInt8)} :
    none ∉ entries isspace cp lines := by
  induction lines generalizing cp with
  | nil => exact List.not_mem_nil
  | cons line lines ih =>
    rw [entries, List.mem_append, not_or]
    refine ⟨?_, ih⟩
    unfold entry
    split <;> simp

/-- A world in which the shells file is read. -/
def Reads (w : World) (file : List UInt8) : Prop :=
  w.file = some file ∧ ¬ (w.fstatFails ∨ w.mallocFails ∨ w.callocFails)

/-- What the calls behind `setusershell` return. -/
theorem setusershell_enumerates {w : World} (hspace : isspace 10 = true) (hnul : 0 ∉ file)
    (hshort : ∀ l ∈ Netconfig.linesOf file, (l.takeWhile (· ≠ 10)).length ≤ MAXPATHLEN)
    (hfits : Fits isspace sz file) (hw : Reads w file) (s : State) :
    ∃ s', setusershell isspace sz w s = some s' ∧ s'.curshell ≠ none ∧
      ∀ ws, Enumerates isspace sz s' ws (shellsOf isspace file) := by
  obtain ⟨_, b, hfill, hstrings, hshells⟩ | ⟨hno, _⟩ := fill_spec isspace sz w.junk file
  · refine ⟨{ curshell := some (.shells, 0), shells := some b.shells, strings := some b.strings },
      ?_, by simp, fun ws => ?_⟩
    · unfold setusershell initshells
      rw [hw.1]
      dsimp only
      rw [if_neg hw.2, hfill]
      rfl
    · obtain ⟨s', hcalls, hsame⟩ := @getusershells_shells isspace sz
        { curshell := some (.shells, 0), shells := some b.shells, strings := some b.strings } ws _ _
        0 rfl rfl entries_not_null hshells (Nat.zero_le _)
      refine ⟨_, s', hcalls, ?_⟩
      have hpoint := @entries_point isspace s' b.strings [] (linesRead file) 0 hsame rfl hstrings
      rw [shells_of_pieces hspace hnul hshort] at hpoint
      rw [List.forall₂_map_left_iff, List.forall₂_map_right_iff, List.forall₂_same]
      intro j _
      rw [Nat.zero_add]
      exact points_getElem? hpoint j
  · exact absurd hfits hno

/-- The first call without a `curshell` reads the file itself. -/
theorem enumerates_of_unset {w : World} {s s' : State} {ws : List World}
    {texts : List (List UInt8)} (hunset : s.curshell = none)
    (hset : setusershell isspace sz w s = some s') (hne : s'.curshell ≠ none)
    (h : Enumerates isspace sz s' (w :: ws) texts) : Enumerates isspace sz s (w :: ws) texts := by
  have hcall : getusershell isspace sz w s = getusershell isspace sz w s' := by
    unfold getusershell
    rw [if_pos hunset, if_neg hne, hset]
  obtain ⟨rets, t, hcalls, hpoint⟩ := h
  refine ⟨rets, t, ?_, hpoint⟩
  rw [getusershells] at hcalls ⊢
  rwa [hcall]

/-- Behind `setusershell`, behind `endusershell` and at the start the calls return the shells of the
    file in the order of its lines, and then null pointers. Reading the later lines leaves them as
    they are. -/
theorem getusershell_enumerates {w : World} (hspace : isspace 10 = true) (hnul : 0 ∉ file)
    (hshort : ∀ l ∈ Netconfig.linesOf file, (l.takeWhile (· ≠ 10)).length ≤ MAXPATHLEN)
    (hfits : Fits isspace sz file) (hw : Reads w file) (s : State) (ws : List World) :
    (∃ s', setusershell isspace sz w s = some s' ∧
        Enumerates isspace sz s' ws (shellsOf isspace file)) ∧
      Enumerates isspace sz (endusershell s) (w :: ws) (shellsOf isspace file) ∧
      Enumerates isspace sz State.initial (w :: ws) (shellsOf isspace file) := by
  have hset := setusershell_enumerates hspace hnul hshort hfits hw
  have hunset : ∀ t : State, t.curshell = none →
      Enumerates isspace sz t (w :: ws) (shellsOf isspace file) := by
    intro t ht
    obtain ⟨s', hs', hne, hall⟩ := hset t
    exact enumerates_of_unset ht hs' hne (hall (w :: ws))
  obtain ⟨s', hs', _, hall⟩ := hset s
  exact ⟨⟨s', hs', hall ws⟩, hunset _ rfl, hunset _ rfl⟩

/-- A shells file with a comment in front. -/
def commented : World :=
  { file := some (chars "# shells\n/bin/sh # x\n"), fstatFails := false, mallocFails := false,
    callocFails := false, junk := fun _ => 0 }

theorem fits_commented :
    Fits isSpace Sizing.source (chars "# shells\n/bin/sh # x\n") := by
  obtain ⟨hfits, _⟩ | ⟨_, hfill⟩ := fill_spec isSpace Sizing.source (fun _ => 0)
    (chars "# shells\n/bin/sh # x\n")
  · exact hfits
  · have hinside : (fill isSpace Sizing.source (fun _ => 0)
        (chars "# shells\n/bin/sh # x\n")).join.isSome = true := by decide
    rw [hfill] at hinside
    cases hinside

theorem getusershell_enumerates_commented :
    (∃ s', setusershell isSpace Sizing.source commented State.initial = some s' ∧
        Enumerates isSpace Sizing.source s' [commented]
          (shellsOf isSpace (chars "# shells\n/bin/sh # x\n"))) ∧
      Enumerates isSpace Sizing.source (endusershell State.initial) [commented, commented]
        (shellsOf isSpace (chars "# shells\n/bin/sh # x\n")) ∧
      Enumerates isSpace Sizing.source State.initial [commented, commented]
        (shellsOf isSpace (chars "# shells\n/bin/sh # x\n")) :=
  getusershell_enumerates (by decide) (by decide) (by decide) fits_commented ⟨rfl, by decide⟩
    State.initial [commented]

example : shellsOf isSpace (chars " /bin/sh#\nno\n# /x\n/bin/csh") =
    [chars "/bin/sh", chars "/bin/csh"] := by
  decide

end Librecompat.Getusershell
