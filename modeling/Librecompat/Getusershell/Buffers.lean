/-
  What `initshells` writes, and when it stays inside of its buffers.

  A pass of the loop keeps the `kept` bytes of a line in `strings` and goes on behind them; the next
  line is read there, with its NUL. `readLine_eq` says what a pass does, `fill_spec` what the loop
  does. Whatever the file, the loop ends, and it stays inside exactly when the file `Fits`
  (`initshells_inside_iff`): the buffers have no room for the NUL of the last line or for the
  null pointer of `shells`.
-/
import Librecompat.Getusershell.Model
import Librecompat.Netconfig.Lines
import Librecompat.Strtol

namespace Librecompat.Getusershell

open Librecompat.Lib

/-! ## Lines -/

/-- What the calls of `fgets` read: the lines, those longer than `MAXPATHLEN` in pieces. -/
def linesRead (file : List UInt8) : List (List UInt8) :=
  (Netconfig.linesOf file).flatMap (Netconfig.fragments (MAXPATHLEN - 1))

/-- Where the first loop stops in a line. -/
def start (line : List UInt8) : Nat := line.findIdx startStop

/-- The line names a shell. -/
def hasShell (text : List UInt8) : Bool := text[start text]? = some 47

/-- Where the second loop stops. -/
def stop (isspace : UInt8 → Bool) (line : List UInt8) : Nat :=
  start line + (line.drop (start line)).findIdx (endStop isspace)

/-- What stays of a line in front of `cp`. -/
def kept (isspace : UInt8 → Bool) (line : List UInt8) : List UInt8 :=
  if hasShell line then line.take (stop isspace line) ++ [0] else line.take (start line)

variable {isspace : UInt8 → Bool}

theorem start_le (line : List UInt8) : start line ≤ line.length := List.findIdx_le_length

theorem stop_le (line : List UInt8) : stop isspace line ≤ line.length := by
  have hle : (line.drop (start line)).findIdx (endStop isspace) ≤ _ := List.findIdx_le_length
  have hlen : (line.drop (start line)).length = line.length - start line := List.length_drop
  have hstart := start_le line
  unfold stop
  omega

theorem length_kept (line : List UInt8) : (kept isspace line).length =
    if hasShell line then stop isspace line + 1 else start line := by
  have hstart := start_le line
  have hstop := @stop_le isspace line
  unfold kept
  split
  · rw [List.length_append, List.length_take, List.length_singleton]
    omega
  · rw [List.length_take]
    omega

theorem linesRead_cons {file : List UInt8} (hne : file ≠ []) :
    linesRead file = (Netconfig.fgets (MAXPATHLEN + 1) file).1 ::
        linesRead (Netconfig.fgets (MAXPATHLEN + 1) file).2 ∧
      (Netconfig.fgets (MAXPATHLEN + 1) file).2.length < file.length := by
  have hpos := List.length_pos_iff.mpr hne
  have hshort : (Netconfig.fgets (MAXPATHLEN + 1) file).2.length < file.length := by
    simp only [Netconfig.fgets, List.length_drop, MAXPATHLEN]
    omega
  refine ⟨?_, hshort⟩
  -- both sides are the first components of what the loop over `fgets` stores
  have hfst : ∀ (n : Nat) (fs : List (List UInt8)),
      (fs.map (Netconfig.withEof n false)).map Prod.fst = fs := fun n fs => by
    rw [List.map_map]
    exact List.map_id _
  have hall := fun (fuel : Nat) (file : List UInt8) (h : file.length ≤ fuel) =>
    congrArg (List.map Prod.fst) (@Netconfig.fgetsLines_eq (MAXPATHLEN - 1) false fuel file h)
  obtain ⟨c, file, rfl⟩ := List.exists_cons_of_ne_nil hne
  have hleft := hall (file.length + 1) (c :: file) (Nat.le_refl _)
  have hright := hall file.length (Netconfig.fgets (MAXPATHLEN + 1) (c :: file)).2
    (Nat.le_of_lt_succ hshort)
  rw [hfst] at hleft hright
  exact hleft.symm.trans (congrArg _ hright)

/-! ## One line -/

theorem scan_append {stop : UInt8 → Bool} (hstop : stop 0 = true) (before line after : List UInt8) :
    scan stop (before ++ (line ++ [0]) ++ after) before.length =
      some (before.length + line.findIdx stop) := by
  have hidx : ∀ l : List UInt8, (l ++ 0 :: after).findIdx? stop = some (l.findIdx stop) := by
    intro l
    induction l with
    | nil => rw [List.nil_append, List.findIdx?_cons, if_pos hstop, List.findIdx_nil]
    | cons c l ih =>
      rw [List.cons_append, List.findIdx?_cons, List.findIdx_cons, ih]
      cases stop c <;> simp
  rw [scan, List.append_assoc, List.drop_left, List.append_assoc, List.singleton_append, hidx,
    Option.map_some]

/-- The character that the first loop stops at. -/
theorem at_start (text : List UInt8) : ∃ c, (text ++ [0])[start text]? = some c ∧
    if hasShell text then c = 47 else c = 35 ∨ c = 0 := by
  rcases Nat.lt_or_ge (start text) text.length with hlt | hge
  · have hstop : startStop text[start text] = true := List.findIdx_getElem
    have hget := List.getElem?_eq_getElem hlt
    refine ⟨text[start text], (List.getElem?_append_left hlt).trans hget, ?_⟩
    rw [startStop, decide_eq_true_eq] at hstop
    unfold hasShell
    rw [hget]
    by_cases h47 : text[start text] = 47
    · rw [if_pos (decide_eq_true (congrArg some h47))]
      exact h47
    · rw [if_neg (by simpa using h47)]
      exact hstop.imp_right fun h => h.resolve_left h47
  · have heq : start text = text.length := Nat.le_antisymm (start_le text) hge
    refine ⟨0, by rw [heq, List.getElem?_concat_length], ?_⟩
    rw [hasShell, List.getElem?_eq_none hge, if_neg (by decide)]
    exact .inr rfl

variable {w : Fill}

/-- A line that does not fit goes wrong. -/
theorem readLine_none
    (h : ¬ w.cp + (Netconfig.fgets (MAXPATHLEN + 1) w.rest).1.length + 1 ≤ w.strings.length) :
    readLine isspace w = none := by
  have hno : ¬ w.cp + ((Netconfig.fgets (MAXPATHLEN + 1) w.rest).1 ++ [0]).length ≤
      w.strings.length := by
    rwa [List.length_append, List.length_singleton, ← Nat.add_assoc]
  unfold readLine
  simp only [writeAt, if_neg hno, Option.bind_eq_bind, Option.bind_none]

/-- The scan for the end of the shell, from its start on. -/
theorem scan_endStop (before line after : List UInt8) :
    scan (endStop isspace) (before ++ (line ++ [0]) ++ after) (before.length + start line) =
      some (before.length + stop isspace line) := by
  have hcut : before ++ (line ++ [0]) ++ after =
      (before ++ line.take (start line)) ++ (line.drop (start line) ++ [0]) ++ after := by
    simp only [List.append_assoc]
    rw [← List.append_assoc (line.take _), List.take_append_drop]
  have hlen : (before ++ line.take (start line)).length = before.length + start line := by
    rw [List.length_append, List.length_take_of_le (start_le line)]
  rw [hcut, ← hlen, scan_append (by simp [endStop]), hlen, stop, Nat.add_assoc]

/-- The null byte behind the shell cuts the line. -/
theorem writeAt_stop (before after : List UInt8) {line : List UInt8} (h : hasShell line = true) :
    writeAt (before ++ (line ++ [0]) ++ after) (before.length + stop isspace line) [0] =
      some (before ++ kept isspace line ++
        (before ++ (line ++ [0]) ++ after).drop (before.length + stop isspace line + 1)) := by
  have hstop := @stop_le isspace line
  rw [writeAt, if_pos (by simp; omega), kept, if_pos h, List.append_assoc before,
    List.take_length_add_append, List.append_assoc (line), List.take_append_of_le_length hstop]
  simp

/-- What a pass does with a line that fits. -/
theorem readLine_eq {line rest before mid after : List UInt8}
    (hread : Netconfig.fgets (MAXPATHLEN + 1) w.rest = (line, rest))
    (hstrings : w.strings = before ++ mid ++ after) (hcp : w.cp = before.length)
    (hmid : mid.length = line.length + 1) :
    ∃ tail, (kept isspace line).length + tail.length = mid.length + after.length ∧
      readLine isspace w =
        if hasShell line then
          (writeAt w.shells w.sp [some (.strings (w.cp + start line))]).map fun shells =>
            { strings := before ++ kept isspace line ++ tail
              shells := shells
              sp := w.sp + 1
              cp := w.cp + (kept isspace line).length
              rest := rest }
        else
          some
            { strings := before ++ kept isspace line ++ tail
              shells := w.shells
              sp := w.sp
              cp := w.cp + (kept isspace line).length
              rest := rest } := by
  have hstart := start_le line
  have hstop := @stop_le isspace line
  have hwrite : writeAt w.strings w.cp (line ++ [0]) = some (before ++ (line ++ [0]) ++ after) := by
    rw [hstrings, hcp]
    exact writeAt_append (by rw [hmid, List.length_append, List.length_singleton])
  have hscan : scan startStop (before ++ (line ++ [0]) ++ after) w.cp =
      some (w.cp + start line) := by
    rw [hcp]
    exact scan_append rfl before line after
  obtain ⟨c, hc, hshell⟩ := at_start line
  have hlen : start line < (line ++ [0]).length := by
    rw [List.length_append, List.length_singleton]
    omega
  have hat : (before ++ (line ++ [0]) ++ after)[w.cp + start line]? = some c := by
    rw [hcp, List.append_assoc, List.getElem?_append_right (Nat.le_add_right _ _),
      Nat.add_sub_cancel_left, List.getElem?_append_left hlen, hc]
  unfold readLine
  simp only [hread, hwrite, hscan, hat, Option.bind_eq_bind, Option.bind_some]
  by_cases h : hasShell line = true
  · rw [if_pos h] at hshell
    have hscan' : scan (endStop isspace) (before ++ (line ++ [0]) ++ after) (w.cp + start line) =
        some (w.cp + stop isspace line) := hcp ▸ scan_endStop before line after
    refine ⟨(before ++ (line ++ [0]) ++ after).drop (w.cp + stop isspace line + 1), ?_, ?_⟩
    · rw [length_kept, if_pos h, List.length_drop, hmid, hcp]
      simp only [List.length_append, List.length_singleton]
      omega
    · have hput := @writeAt_stop isspace before after line h
      rw [← hcp] at hput
      rw [if_neg (by rw [hshell]; decide), if_pos h]
      simp only [hscan', hput, Option.bind_some, length_kept, if_pos h, ← Nat.add_assoc]
      cases writeAt w.shells w.sp [some (CharPtr.strings (w.cp + start line))] <;> rfl
  · rw [if_neg h] at hshell
    refine ⟨line.drop (start line) ++ [0] ++ after, ?_, ?_⟩
    · rw [length_kept, if_neg h, hmid]
      simp only [List.length_append, List.length_drop, List.length_singleton]
      omega
    · rw [if_pos hshell, if_neg h, length_kept, if_neg h, kept, if_neg h]
      simp only [List.append_assoc]
      rw [← List.append_assoc (line.take _), List.take_append_drop]

/-! ## One pass -/

/-- What a line that is read at `cp` adds to `shells`. -/
def entry (cp : Nat) (line : List UInt8) : List (Option CharPtr) :=
  if hasShell line then [some (.strings (cp + start line))] else []

/-- At the head of the loop with `before` in front of `cp` and `front` in front of `sp`. -/
structure At (w : Fill) (before : List UInt8) (front : List (Option CharPtr)) : Prop where
  strings : before <+: w.strings
  cp : w.cp = before.length
  shells : front <+: w.shells
  sp : w.sp = front.length

/-- A line fits with its NUL, and so does its pointer. -/
def LineFits (w : Fill) (line : List UInt8) : Prop :=
  w.cp + line.length + 1 ≤ w.strings.length ∧
    w.sp + (entry w.cp line).length ≤ w.shells.length

theorem writeAt_entry {blk : List (Option CharPtr)} {sp : Nat} {p : Option CharPtr} :
    writeAt blk sp [p] =
      if sp + 1 ≤ blk.length then some (blk.take sp ++ [p] ++ blk.drop (sp + 1)) else none := rfl

/-- A pass either goes wrong or gets behind one more line. -/
theorem fillPass_cases {before line rest : List UInt8} {front : List (Option CharPtr)}
    (hat : At w before front) (hend : w.rest ≠ [])
    (hread : Netconfig.fgets (MAXPATHLEN + 1) w.rest = (line, rest)) :
    (¬ LineFits w line ∧ fillPass isspace w = .inr none) ∨
    (LineFits w line ∧ ∃ w', fillPass isspace w = .inl w' ∧ w'.rest = rest ∧
      w'.strings.length = w.strings.length ∧ w'.shells.length = w.shells.length ∧
      At w' (before ++ kept isspace line) (front ++ entry w.cp line)) := by
  obtain ⟨⟨after, hstrings⟩, hcp, ⟨back, hshells⟩, hsp⟩ := hat
  have hpass : fillPass isspace w = (readLine isspace w).elim (.inr none) .inl := by
    rw [fillPass, if_neg hend]
    cases readLine isspace w <;> rfl
  by_cases hfit : w.cp + line.length + 1 ≤ w.strings.length
  case neg =>
    refine .inl ⟨fun h => hfit h.1, ?_⟩
    rw [hpass, readLine_none (by rwa [hread]), Option.elim_none]
  have hlen : w.strings.length = before.length + after.length := by
    rw [← hstrings, List.length_append]
  have hcount : w.shells.length = front.length + back.length := by
    rw [← hshells, List.length_append]
  have hmid : (after.take (line.length + 1)).length = line.length + 1 := by
    rw [List.length_take]
    omega
  obtain ⟨tail, htail, hline⟩ := @readLine_eq isspace w line rest before
    (after.take (line.length + 1)) (after.drop (line.length + 1)) hread
    (by rw [List.append_assoc, List.take_append_drop, hstrings]) hcp hmid
  rw [List.length_drop, hmid] at htail
  have hsame : (before ++ kept isspace line ++ tail).length = w.strings.length := by
    simp only [List.length_append]
    omega
  have hkept : w.cp + (kept isspace line).length = (before ++ kept isspace line).length := by
    rw [List.length_append, hcp]
  rw [hpass, hline]
  unfold LineFits entry
  by_cases hshell : hasShell line = true
  · rw [if_pos hshell, if_pos hshell, List.length_singleton, writeAt_entry]
    by_cases hsp1 : w.sp + 1 ≤ w.shells.length
    · rw [if_pos hsp1, Option.map_some]
      refine .inr ⟨⟨hfit, hsp1⟩, _, rfl, rfl, hsame, ?_, List.prefix_append _ _, hkept, ?_, ?_⟩
      · simp only [List.length_append, List.length_take, List.length_drop, List.length_singleton]
        omega
      · rw [← hshells, hsp, List.take_left]
        exact List.prefix_append _ _
      · rw [List.length_append, List.length_singleton, hsp]
    · rw [if_neg hsp1, Option.map_none]
      exact .inl ⟨fun h => hsp1 h.2, rfl⟩
  · rw [if_neg hshell, if_neg hshell, List.append_nil]
    exact .inr ⟨⟨hfit, by rw [List.length_nil]; omega⟩, _, rfl, rfl, hsame, rfl,
      List.prefix_append _ _, hkept, ⟨back, hshells⟩, hsp⟩

/-! ## All lines -/

/-- What the lines add to `shells`, the first of them being read at `cp`. -/
def entries (isspace : UInt8 → Bool) : Nat → List (List UInt8) → List (Option CharPtr)
  | _, [] => []
  | cp, line :: lines => entry cp line ++ entries isspace (cp + (kept isspace line).length) lines

/-- The lines fit into a buffer of `size` bytes and an array of `count` pointers, from `cp` and `sp`
    on. -/
def Room (isspace : UInt8 → Bool) (size count : Nat) : Nat → Nat → List (List UInt8) → Prop
  | _, sp, [] => sp + 1 ≤ count
  | cp, sp, line :: lines =>
    (cp + line.length + 1 ≤ size ∧ sp + (entry cp line).length ≤ count) ∧
      Room isspace size count (cp + (kept isspace line).length) (sp + (entry cp line).length) lines

/-- The loop ends. It stays inside when the lines that it reads fit, and then keeps what they
    keep. -/
theorem loop_fill {n : Nat} (hn : w.rest.length < n) {before : List UInt8}
    {front : List (Option CharPtr)} (hat : At w before front) :
    (Room isspace w.strings.length w.shells.length w.cp w.sp (linesRead w.rest) ∧
      ∃ b, loop (fillPass isspace) n w = some (some b) ∧
        before ++ (linesRead w.rest).flatMap (kept isspace) <+: b.strings ∧
        front ++ entries isspace w.cp (linesRead w.rest) ++ [none] <+: b.shells) ∨
    (¬ Room isspace w.strings.length w.shells.length w.cp w.sp (linesRead w.rest) ∧
      loop (fillPass isspace) n w = some none) := by
  induction n generalizing w before front with
  | zero => exact absurd hn (Nat.not_lt_zero _)
  | succ n ih =>
    by_cases hend : w.rest = []
    · have hlines : linesRead w.rest = [] := by rw [hend]; rfl
      have hpass : fillPass isspace w =
          .inr ((writeAt w.shells w.sp [none]).map fun shells => { w with shells := shells }) :=
        if_pos hend
      rw [hlines, loop_succ_inr hpass, Room, writeAt_entry]
      by_cases hsp : w.sp + 1 ≤ w.shells.length
      · obtain ⟨back, hshells⟩ := hat.shells
        refine .inl ⟨hsp, _, by rw [if_pos hsp]; rfl, ?_, ?_⟩
        · simpa using hat.strings
        · rw [← hshells, hat.sp, List.take_left]
          simp [entries]
      · exact .inr ⟨hsp, by rw [if_neg hsp]; rfl⟩
    · obtain ⟨hlines, hshort⟩ := linesRead_cons hend
      obtain ⟨line, rest, hread⟩ : ∃ line rest,
          Netconfig.fgets (MAXPATHLEN + 1) w.rest = (line, rest) := ⟨_, _, rfl⟩
      rw [hread] at hlines hshort
      rw [hlines, Room]
      obtain ⟨hno, hpass⟩ | ⟨hfit, w', hpass, hrest, hsize, hcount, hat'⟩ :=
        @fillPass_cases isspace w before line rest front hat hend hread
      · rw [loop_succ_inr hpass]
        exact .inr ⟨fun h => hno h.1, rfl⟩
      · have hcp' : w'.cp = w.cp + (kept isspace line).length := by
          rw [hat'.cp, hat.cp, List.length_append]
        have hsp' : w'.sp = w.sp + (entry w.cp line).length := by
          rw [hat'.sp, hat.sp, List.length_append]
        have hgo := @ih w' (by rw [hrest]; dsimp only at hshort; omega) _ _ hat'
        rw [hrest, hsize, hcount, hcp', hsp'] at hgo
        rw [loop_succ_inl hpass, List.flatMap_cons, entries, ← List.append_assoc before,
          ← List.append_assoc front]
        exact hgo.imp (fun h => ⟨⟨hfit, h.1⟩, h.2⟩) fun h => ⟨fun hroom => h.1 hroom.2, h.2⟩

/-! ## When the buffers are large enough -/

variable {sz : Sizing} {file : List UInt8}

/-- The buffers are large enough for the file: each line fits with its NUL behind what the lines
    before it keep, and each shell has a pointer, as has the end of the array. -/
structure Fits (isspace : UInt8 → Bool) (sz : Sizing) (file : List UInt8) : Prop where
  strings : ∀ before line after, linesRead file = before ++ line :: after →
    (before.flatMap (kept isspace)).length + line.length + 1 ≤ sz.strings file.length
  shells : (linesRead file).countP hasShell + 1 ≤ sz.shells file.length

theorem length_entry (cp : Nat) (line : List UInt8) :
    (entry cp line).length = if hasShell line then 1 else 0 := by
  unfold entry
  split <;> rfl

theorem room_iff {size count cp sp : Nat} {lines : List (List UInt8)} :
    Room isspace size count cp sp lines ↔
      (∀ before line after, lines = before ++ line :: after →
        cp + (before.flatMap (kept isspace)).length + line.length + 1 ≤ size) ∧
      sp + lines.countP hasShell + 1 ≤ count := by
  induction lines generalizing cp sp with
  | nil =>
    rw [Room, List.countP_nil, Nat.add_zero]
    exact ⟨fun h => ⟨fun before line after hnil => by simp at hnil, h⟩, And.right⟩
  | cons line lines ih =>
    rw [Room, ih, List.countP_cons, length_entry]
    constructor
    · rintro ⟨⟨hline, _⟩, hlines, hcount⟩
      refine ⟨fun before l after heq => ?_, by omega⟩
      cases before with
      | nil =>
        obtain ⟨rfl, _⟩ := List.cons.inj heq
        simpa using hline
      | cons b before =>
        obtain ⟨rfl, hrest⟩ := List.cons.inj heq
        have hle := hlines before l after hrest
        rw [List.flatMap_cons, List.length_append]
        omega
    · rintro ⟨hlines, hcount⟩
      have hline := hlines [] line lines rfl
      rw [List.flatMap_nil, List.length_nil] at hline
      refine ⟨⟨by omega, by omega⟩, fun before l after heq => ?_, by omega⟩
      have hle := hlines (line :: before) l after (by rw [heq, List.cons_append])
      rw [List.flatMap_cons, List.length_append] at hle
      omega

/-- The loop ends whatever the file. It stays inside of the buffers when the file fits, and they
    hold what the lines keep. -/
theorem fill_spec (isspace : UInt8 → Bool) (sz : Sizing) (junk : Nat → UInt8) (file : List UInt8) :
    (Fits isspace sz file ∧ ∃ b, fill isspace sz junk file = some (some b) ∧
      (linesRead file).flatMap (kept isspace) <+: b.strings ∧
      entries isspace 0 (linesRead file) ++ [none] <+: b.shells) ∨
    (¬ Fits isspace sz file ∧ fill isspace sz junk file = some none) := by
  have hat : At (allocated sz junk file) [] [] :=
    ⟨List.nil_prefix, rfl, List.nil_prefix, rfl⟩
  have hspec := @loop_fill isspace (allocated sz junk file) (file.length + 1)
    (Nat.lt_succ_self _) [] [] hat
  have hsize : (allocated sz junk file).strings.length = sz.strings file.length := by
    simp [allocated]
  have hcount : (allocated sz junk file).shells.length = sz.shells file.length :=
    List.length_replicate
  have hroom : Room isspace (sz.strings file.length) (sz.shells file.length) 0 0 (linesRead file) ↔
      Fits isspace sz file := by
    rw [room_iff, Nat.zero_add]
    simp only [Nat.zero_add]
    exact ⟨fun h => ⟨h.1, h.2⟩, fun h => ⟨h.1, h.2⟩⟩
  rw [hsize, hcount] at hspec
  exact hspec.imp (fun h => ⟨hroom.mp h.1, h.2⟩) fun h => ⟨fun hf => h.1 (hroom.mpr hf), h.2⟩

/-- `initshells` gets to its end without an access outside of what it allocates exactly when the
    file, if it is read at all, fits. -/
theorem initshells_inside_iff (isspace : UInt8 → Bool) (w : World) (s : State) :
    (∃ r, initshells isspace Sizing.source w s = some r) ↔
      ∀ file, w.file = some file → ¬ (w.fstatFails ∨ w.mallocFails ∨ w.callocFails) →
        Fits isspace Sizing.source file := by
  unfold initshells
  cases hfile : w.file with
  | none => exact ⟨fun _ file h => (nomatch h), fun _ => ⟨_, rfl⟩⟩
  | some file =>
    by_cases hfails : w.fstatFails ∨ w.mallocFails ∨ w.callocFails
    · simp only [if_pos hfails]
      exact ⟨fun _ _ _ h => absurd hfails h, fun _ => ⟨_, rfl⟩⟩
    · simp only [if_neg hfails]
      obtain ⟨hfits, b, hb, _⟩ | ⟨hno, hb⟩ := fill_spec isspace Sizing.source w.junk file
      · rw [hb]
        exact ⟨fun _ file' h _ => Option.some.inj h ▸ hfits, fun _ => ⟨_, rfl⟩⟩
      · rw [hb]
        exact ⟨fun ⟨_, h⟩ => (nomatch h), fun h => absurd (h file rfl hfails) hno⟩

/-- The NUL behind a file of one line is written outside of `strings`. -/
theorem initshells_one_line :
    initshells isSpace Sizing.source
      { file := some (chars "/bin/sh\n"), fstatFails := false, mallocFails := false,
        callocFails := false, junk := fun _ => 0 } State.initial = none := by
  decide

end Librecompat.Getusershell
