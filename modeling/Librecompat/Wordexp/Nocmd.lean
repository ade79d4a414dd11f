/-
  What `we_check` with `WRDE_NOCMD` lets through.

  `Quoting` is the shell's reading of the quotes, character by character, `ActiveAt w i` says
  that a command substitution starts at position `i` of `w`. The scan of `we_check` looks at a
  position when it is at the head of its main loop (`headAt`); an active substitution that it
  looks at with the shell's quoting makes it return `WRDE_CMDSUB` (`checkBody_active`). Every
  position up to the end is a head or is `Skipped`: it lies in the body of a `${` or `$((` that
  an inner loop runs over. Those loops keep no quote state, so behind a body whose quotes do not
  balance the scan may also be `Misread`ing. `weCheck_nocmd_iff` says that these two are the
  only holes; `weCheck_nocmd_of_no_skip` that there are none without a skipped body.
-/
import Librecompat.Wordexp.Check

namespace Librecompat.Wordexp

open Librecompat.Lib

/-! ## The shell's quoting -/

/-- The next character is escaped, the text is in single quotes, in double quotes. -/
structure Quoting where
  esc : Bool
  sq : Bool
  dq : Bool
  deriving DecidableEq

/-- The quoting behind the character `c`. -/
def Quoting.next (q : Quoting) (c : UInt8) : Quoting where
  esc := !q.sq && !q.esc && c == backslash
  sq := if c = squoteChar && !q.esc && !q.dq then !q.sq else q.sq
  dq := if c = dquoteChar && !q.esc && !q.sq then !q.dq else q.dq

/-- The quoting in front of position `i`. -/
def quotingAt (w : List UInt8) (i : Nat) : Quoting :=
  (w.take i).foldl Quoting.next ⟨false, false, false⟩

/-- A command substitution starts at `i`: an unescaped backquote or `$(` outside single quotes,
    the latter not an arithmetic `$((`. -/
def ActiveAt (w : List UInt8) (i : Nat) : Prop :=
  (quotingAt w i).esc = false ∧ (quotingAt w i).sq = false ∧
  (w[i]? = some backquote ∨
    (w[i]? = some dollar ∧ w[i + 1]? = some openParen ∧ w[i + 2]? ≠ some openParen))

instance (w : List UInt8) (i : Nat) : Decidable (ActiveAt w i) :=
  inferInstanceAs (Decidable (_ ∧ _ ∧ _))

theorem quotingAt_succ {w : List UInt8} {i : Nat} {c : UInt8} (h : w[i]? = some c) :
    quotingAt w (i + 1) = (quotingAt w i).next c := by
  rw [quotingAt, List.take_add_one, h, List.foldl_append]
  rfl

theorem quotingAt_append {w rest : List UInt8} {i : Nat} (h : i ≤ w.length) :
    quotingAt (w ++ rest) i = quotingAt w i := by
  rw [quotingAt, List.take_append_of_le_length h, quotingAt]

/-! ## One pass -/

/-- The quote flags of the scan, in the shell's terms. -/
def Scan.quoting (s : Scan) : Quoting := ⟨s.quote, s.squote, s.dquote⟩

theorem Quoting.next_of_ne {q : Quoting} {c : UInt8} (hb : c ≠ backslash) (hs : c ≠ squoteChar)
    (hd : c ≠ dquoteChar) : q.next c = { q with esc := false } := by
  simp [Quoting.next, hb, hs, hd]

/-- Nothing is escaped in single quotes. -/
def Scan.Ok (s : Scan) : Prop := s.squote = true → s.quote = false

/-- `rest` is what is left of `words` behind at least one character. -/
def Behind (rest words : List UInt8) : Prop := rest <:+ words ∧ rest.length < words.length

theorem behind_cons (c : UInt8) (words : List UInt8) : Behind words (c :: words) :=
  ⟨List.suffix_cons c words, Nat.lt_succ_self _⟩

theorem Behind.cons {rest words : List UInt8} (c : UInt8) (h : Behind rest words) :
    Behind rest (c :: words) :=
  ⟨h.1.trans (List.suffix_cons c words), Nat.lt_succ_of_lt h.2⟩

theorem behind_append {body : List UInt8} (hbody : body ≠ []) (rest : List UInt8) :
    Behind rest (body ++ rest) := by
  refine ⟨List.suffix_append body rest, ?_⟩
  rw [List.length_append]
  have := List.length_pos_of_ne_nil hbody
  omega

/-- What a loop runs over: the text up to its closing character, in which there is no NUL. -/
theorem skipBackquote_body {words rest : List UInt8} (h : skipBackquote words = .closed rest) :
    ∃ body, words = body ++ rest ∧ 0 ∉ body ∧ skipBackquote body = .closed [] := by
  fun_induction skipBackquote words with
  | case1 => cases h
  | case2 => cases h
  | case3 =>
    obtain rfl := Skip.closed.inj h
    exact ⟨[backquote], rfl, by decide, by rw [skipBackquote.eq_def]; rfl⟩
  | case4 => cases h
  | case5 => cases h
  | case6 d words hd _ _ ih =>
    obtain ⟨body, rfl, hnul, hbody⟩ := ih h
    refine ⟨backslash :: d :: body, rfl, ?_, ?_⟩
    · simp [hnul, Ne.symm hd, backslash]
    · rw [skipBackquote.eq_def]
      simpa [hd, backslash, backquote] using hbody
  | case7 c words hz hq hb ih =>
    obtain ⟨body, rfl, hnul, hbody⟩ := ih h
    refine ⟨c :: body, rfl, ?_, ?_⟩
    · simp [hnul, Ne.symm hz]
    · rw [skipBackquote.eq_def]
      simpa [hz, hq, hb] using hbody

theorem skipNested_body {opn cls : UInt8} {level : Nat} {words rest : List UInt8}
    (h : skipNested opn cls level words = .closed rest) :
    ∃ body, words = body ++ rest ∧ 0 ∉ body ∧ skipNested opn cls level body = .closed [] := by
  fun_induction skipNested opn cls level words with
  | case1 => cases h
  | case2 => cases h
  | case3 => cases h
  | case4 => cases h
  | case5 level d words hd _ ih =>
    obtain ⟨body, rfl, hnul, hbody⟩ := ih h
    refine ⟨backslash :: d :: body, rfl, ?_, ?_⟩
    · simp [hnul, Ne.symm hd, backslash]
    · rw [skipNested.eq_def]
      simpa [hd, backslash] using hbody
  | case6 level words hz hb ih =>
    obtain ⟨body, rfl, hnul, hbody⟩ := ih h
    refine ⟨opn :: body, rfl, ?_, ?_⟩
    · simp [hnul, Ne.symm hz]
    · rw [skipNested.eq_def]
      simpa [hz, hb] using hbody
  | case7 level words hl hz hb ho =>
    obtain rfl := Skip.closed.inj h
    refine ⟨[cls], rfl, ?_, ?_⟩
    · simp [Ne.symm hz]
    · rw [skipNested.eq_def]
      simp [hz, hb, ho, hl]
  | case8 level words hl hz hb ho ih =>
    obtain ⟨body, rfl, hnul, hbody⟩ := ih h
    refine ⟨cls :: body, rfl, ?_, ?_⟩
    · simp [hnul, Ne.symm hz]
    · rw [skipNested.eq_def]
      simpa [hz, hb, ho, hl] using hbody
  | case9 level c words hz hb ho hc ih =>
    obtain ⟨body, rfl, hnul, hbody⟩ := ih h
    refine ⟨c :: body, rfl, ?_, ?_⟩
    · simp [hnul, Ne.symm hz]
    · rw [skipNested.eq_def]
      simpa [hz, hb, ho, hc] using hbody

theorem skipBackquote_behind {words rest : List UInt8}
    (h : skipBackquote words = .closed rest) : Behind rest words := by
  obtain ⟨body, rfl, _, hbody⟩ := skipBackquote_body h
  refine behind_append ?_ rest
  rintro rfl
  cases hbody

theorem skipNested_behind {opn cls : UInt8} {level : Nat} {words rest : List UInt8}
    (h : skipNested opn cls level words = .closed rest) : Behind rest words := by
  obtain ⟨body, rfl, _, hbody⟩ := skipNested_body h
  refine behind_append ?_ rest
  rintro rfl
  cases hbody

/-- A pass over more than one character, from the state `s` to `rest`. -/
inductive Leap (flags : Nat) (s : Scan) (rest : List UInt8) : Prop where
  /-- A `$` in front of the NUL: the NUL is passed over as well. -/
  | nul (h : s.words = dollar :: 0 :: rest)
  /-- `$(…)`, with `WRDE_NOCMD` only `$((…)`. -/
  | paren (words : List UInt8) (h : s.words = dollar :: openParen :: words)
      (hq : s.quote = false ∧ s.squote = false)
      (harith : hasFlag flags WRDE_NOCMD = true → words.head? = some openParen)
      (hskip : skipNested openParen closeParen 1 words = .closed rest)
  /-- `${…}`. -/
  | brace (words : List UInt8) (h : s.words = dollar :: openBrace :: words)
      (hq : s.quote = false ∧ s.squote = false)
      (hskip : skipNested openBrace closeBrace 1 words = .closed rest)
  /-- A command in backquotes, without `WRDE_NOCMD`. -/
  | command (words : List UInt8) (h : s.words = backquote :: words)
      (hq : s.quote = false ∧ s.squote = false) (hcmd : hasFlag flags WRDE_NOCMD = false)
      (hskip : skipBackquote words = .closed rest)

theorem Leap.behind {flags : Nat} {s : Scan} {rest : List UInt8} (h : Leap flags s rest) :
    ∃ c words, s.words = c :: words ∧ Behind rest words := by
  cases h with
  | nul h => exact ⟨_, _, h, behind_cons _ _⟩
  | paren words h _ _ hskip => exact ⟨_, _, h, (skipNested_behind hskip).cons _⟩
  | brace words h _ hskip => exact ⟨_, _, h, (skipNested_behind hskip).cons _⟩
  | command words h _ _ hskip => exact ⟨_, _, h, skipBackquote_behind hskip⟩

/-- A pass reads one character as the shell does, or leaps. -/
def Pass (flags : Nat) (s s' : Scan) : Prop :=
  (∃ c, s.words = c :: s'.words ∧ s'.quoting = s.quoting.next c) ∨
  (Leap flags s s'.words ∧ s'.quoting = { s.quoting with esc := false })

theorem skip_cases {s s' : Scan} {k : Skip} (h : s.skip k = .inl s') :
    k = .closed s'.words ∧ s'.quoting = { s.quoting with esc := false } := by
  cases k with
  | overrun => cases h
  | unclosed => cases h
  | closed words =>
    obtain rfl := Sum.inl.inj h
    exact ⟨rfl, rfl⟩

theorem checkDollar_cases {flags : Nat} {s s' : Scan} {words : List UInt8}
    (hw : s.words = dollar :: words) (h : checkDollar flags s words = .inl s') :
    Pass flags s s' := by
  unfold checkDollar at h
  split at h
  · cases h
  · next c rest =>
    split at h
    · next hc =>
      subst hc
      obtain rfl := Sum.inl.inj h
      exact .inr ⟨.nul hw, rfl⟩
    · split at h
      · next hc =>
        have hq : s.quote = false ∧ s.squote = false := by simp at hc; exact hc.1
        obtain rfl : c = openParen := by simp at hc; exact hc.2
        split at h
        · next hcmd =>
          split at h
          · cases h
          · next d tail =>
            split at h
            · cases h
            · next hd =>
              obtain ⟨hskip, hquot⟩ := skip_cases h
              refine .inr ⟨.paren _ hw hq (fun _ => ?_) hskip, hquot⟩
              simpa using hd
        · next hcmd =>
          obtain ⟨hskip, hquot⟩ := skip_cases h
          exact .inr ⟨.paren _ hw hq (fun hc => absurd hc hcmd) hskip, hquot⟩
      · split at h
        · next hc =>
          have hq : s.quote = false ∧ s.squote = false := by simp at hc; exact hc.1
          obtain rfl : c = openBrace := by simp at hc; exact hc.2
          obtain ⟨hskip, hquot⟩ := skip_cases h
          exact .inr ⟨.brace _ hw hq hskip, hquot⟩
        · obtain rfl := Sum.inl.inj h
          refine .inl ⟨dollar, hw, ?_⟩
          rw [Quoting.next_of_ne (by decide) (by decide) (by decide)]
          rfl

/-- A pass that only goes on reads a character as the shell does, unless it is a backslash or a
    quote. -/
theorem pass_of_next {flags : Nat} {s s' : Scan} {c : UInt8} {words : List UInt8}
    (hw : s.words = c :: words) (hb : c ≠ backslash) (hs : c ≠ squoteChar)
    (hd : c ≠ dquoteChar) (h : s.next words = .inl s') : Pass flags s s' := by
  obtain rfl := Sum.inl.inj h
  refine .inl ⟨c, hw, ?_⟩
  rw [Quoting.next_of_ne hb hs hd]
  rfl

/-- What a pass can do. -/
theorem checkBody_cases {flags : Nat} {s s' : Scan} (hok : s.Ok)
    (h : checkBody flags s = .inl s') : Pass flags s s' := by
  unfold checkBody at h
  split at h
  · cases h
  · next c words hw =>
    split at h
    · cases h
    split at h
    · next hc =>
      subst hc
      obtain rfl := Sum.inl.inj h
      refine .inl ⟨backslash, hw, ?_⟩
      have hne : (backslash = squoteChar) = False := by decide
      have hne' : (backslash = dquoteChar) = False := by decide
      cases hsq : s.squote with
      | true => simp [Scan.quoting, Quoting.next, hsq, hok hsq, hne, hne']
      | false => simp [Scan.quoting, Quoting.next, hsq, hne, hne']
    next hb =>
    split at h
    · next hc =>
      subst hc
      obtain rfl := Sum.inl.inj h
      refine .inl ⟨squoteChar, hw, ?_⟩
      have hne : (squoteChar = dquoteChar) = False := by decide
      cases hq : s.quote <;> cases hd : s.dquote <;>
        simp [Scan.quoting, Quoting.next, hq, hd, hb, hne]
    next hs =>
    split at h
    · next hc =>
      subst hc
      obtain rfl := Sum.inl.inj h
      refine .inl ⟨dquoteChar, hw, ?_⟩
      cases hq : s.quote <;> cases hsq : s.squote <;>
        simp [Scan.quoting, Quoting.next, hq, hsq, hb, hs]
    next hd =>
    split at h
    · next hc =>
      split at h
      · exact pass_of_next hw hb hs hd h
      · next hq =>
        split at h
        · cases h
        · next hcmd =>
          obtain ⟨hskip, hquot⟩ := skip_cases h
          rw [hc] at hw
          exact .inr ⟨.command _ hw (by simpa using hq) (by simpa using hcmd) hskip, hquot⟩
    split at h
    · split at h
      · exact pass_of_next hw hb hs hd h
      · cases h
    split at h
    · next hc =>
      rw [hc] at hw
      exact checkDollar_cases hw h
    · exact pass_of_next hw hb hs hd h

theorem Quoting.next_ok {q : Quoting} {c : UInt8} (h : (q.next c).sq = true) :
    (q.next c).esc = false := by
  by_cases hc : c = backslash
  · subst hc
    have hne : (backslash = squoteChar) = False := by decide
    have hsq : q.sq = true := by simpa [Quoting.next, hne] using h
    simp [Quoting.next, hsq]
  · simp [Quoting.next, hc]

theorem Pass.ok {flags : Nat} {s s' : Scan} (h : Pass flags s s') : s'.Ok := by
  obtain ⟨c, _, hquot⟩ | ⟨_, hquot⟩ := h
  · have hnext : s'.quoting.sq = true → s'.quoting.esc = false := by
      rw [hquot]
      exact Quoting.next_ok
    exact hnext
  · exact fun _ => congrArg Quoting.esc hquot

theorem Pass.behind {flags : Nat} {s s' : Scan} (h : Pass flags s s') :
    Behind s'.words s.words := by
  obtain ⟨c, hw, _⟩ | ⟨hleap, _⟩ := h
  · rw [hw]
    exact behind_cons _ _
  · obtain ⟨c, words, hw, hb⟩ := hleap.behind
    rw [hw]
    exact hb.cons c

/-! ## The loop heads -/

/-- The scan of `mem` gets to the loop head `s`. -/
def Head (flags : Nat) (mem : List UInt8) (s : Scan) : Prop :=
  Passes (checkBody flags) (Scan.start mem) s

/-- The position in `mem` of a loop head. -/
def Scan.pos (mem : List UInt8) (s : Scan) : Nat := mem.length - s.words.length

theorem Head.inv {flags : Nat} {mem : List UInt8} {s : Scan} (h : Head flags mem s) :
    s.Ok ∧ s.words <:+ mem := by
  refine Passes.inv (I := fun s => s.Ok ∧ s.words <:+ mem) ?_ h ⟨fun _ => rfl, List.suffix_refl _⟩
  intro s s' hs hb
  have hpass := checkBody_cases hs.1 hb
  exact ⟨hpass.ok, hpass.behind.1.trans hs.2⟩

theorem Head.pass {flags : Nat} {mem : List UInt8} {s s' : Scan} (h : Head flags mem s)
    (hb : checkBody flags s = .inl s') : Pass flags s s' :=
  checkBody_cases h.inv.1 hb

theorem Head.words_eq {flags : Nat} {mem : List UInt8} {s : Scan} (h : Head flags mem s) :
    s.words = mem.drop (s.pos mem) :=
  List.suffix_iff_eq_drop.mp h.inv.2

theorem Head.getElem? {flags : Nat} {mem : List UInt8} {s : Scan} (h : Head flags mem s)
    (k : Nat) : mem[s.pos mem + k]? = s.words[k]? := by
  rw [h.words_eq, List.getElem?_drop]

/-- Position `i` is passed over by a pass that starts before it and ends behind it. -/
def Skipped (flags : Nat) (mem : List UInt8) (i : Nat) : Prop :=
  ∃ s s', Head flags mem s ∧ checkBody flags s = .inl s' ∧ s.pos mem < i ∧ i < s'.pos mem

/-- The scan is at position `i` with other quote flags than the shell. -/
def Misread (flags : Nat) (mem : List UInt8) (i : Nat) : Prop :=
  ∃ s, Head flags mem s ∧ s.pos mem = i ∧ s.quoting ≠ quotingAt mem i

/-- The scan gets to a NUL with no quote open. -/
def Completes (flags : Nat) (mem : List UInt8) : Prop :=
  ∃ s, Head flags mem s ∧ s.words.head? = some 0 ∧ s.quoting = ⟨false, false, false⟩

/-- What is skipped is the body of a `${`, a `$(` or a backquoted command, or the NUL behind a
    `$`. -/
theorem Skipped.leap {flags : Nat} {mem : List UInt8} {i : Nat} (h : Skipped flags mem i) :
    ∃ s rest, Head flags mem s ∧ Leap flags s rest ∧ s.pos mem < i ∧
      i < mem.length - rest.length := by
  obtain ⟨s, s', hs, hb, hlt, hlt'⟩ := h
  obtain ⟨c, hw, _⟩ | ⟨hleap, _⟩ := hs.pass hb
  · have hlen := congrArg List.length hw
    have hle := hs.inv.2.length_le
    rw [List.length_cons] at hlen
    unfold Scan.pos at hlt hlt'
    omega
  · exact ⟨s, s'.words, hs, hleap, hlt, hlt'⟩

/-! ## In step with the shell -/

/-- As long as nothing has been skipped, the scan reads the quotes as the shell does. -/
theorem Head.inStep {flags : Nat} {mem : List UInt8} {s : Scan} (h : Head flags mem s)
    (hskip : ∀ i < s.pos mem, ¬ Skipped flags mem i) :
    s.quoting = quotingAt mem (s.pos mem) := by
  induction h with
  | refl =>
    have hpos : (Scan.start mem).pos mem = 0 := Nat.sub_self _
    rw [hpos]
    rfl
  | @tail s s' hs hb ih =>
    have hs : Head flags mem s := hs
    have hpass := hs.pass hb
    have hle := hs.inv.2.length_le
    have hlt := hpass.behind.2
    have hpos : s.pos mem < s'.pos mem := by
      unfold Scan.pos
      omega
    have hquot := ih fun i hi => hskip i (Nat.lt_trans hi hpos)
    obtain ⟨c, hw, hnext⟩ | ⟨hleap, _⟩ := hpass
    · -- one character, read as the shell reads it
      have hlen := congrArg List.length hw
      rw [List.length_cons] at hlen
      have hsucc : s'.pos mem = s.pos mem + 1 := by
        unfold Scan.pos
        omega
      have hget : mem[s.pos mem]? = some c := by
        have := hs.getElem? 0
        rw [Nat.add_zero, hw] at this
        exact this
      rw [hnext, hquot, hsucc, quotingAt_succ hget]
    · -- a leap passes over the position behind `s`
      obtain ⟨c, words, hw, hbeh⟩ := hleap.behind
      have hlen := congrArg List.length hw
      rw [List.length_cons] at hlen
      have hltw := hbeh.2
      have hlt' : s.pos mem + 1 < s'.pos mem := by
        unfold Scan.pos
        omega
      exact absurd ⟨s, s', hs, hb, Nat.lt_succ_self _, hlt'⟩ (hskip _ hlt')

/-- The scan is only out of step behind a body that it has skipped. -/
theorem Misread.skipped {flags : Nat} {mem : List UInt8} {i : Nat} (h : Misread flags mem i) :
    ∃ j < i, Skipped flags mem j := by
  obtain ⟨s, hs, rfl, hne⟩ := h
  by_contra hno
  exact hne (hs.inStep fun j hj hskip => hno ⟨j, hj, hskip⟩)

/-! ## What is let through -/

theorem checkBody_backquote {flags : Nat} {s : Scan} {words : List UInt8}
    (hw : s.words = backquote :: words) :
    checkBody flags s =
      if s.quote || s.squote then s.next words
      else if hasFlag flags WRDE_NOCMD then .inr (some WRDE_CMDSUB)
      else s.skip (skipBackquote words) := by
  rw [checkBody, hw]
  rfl

theorem checkBody_dollar {flags : Nat} {s : Scan} {words : List UInt8}
    (hw : s.words = dollar :: words) : checkBody flags s = checkDollar flags s words := by
  rw [checkBody, hw]
  rfl

/-- The scan returns `0` only at a NUL with no quote open. -/
theorem checkBody_zero {flags : Nat} {s : Scan} :
    checkBody flags s = .inr (some 0) ↔
      s.words.head? = some 0 ∧ s.quoting = ⟨false, false, false⟩ := by
  have hskip : ∀ k, s.skip k ≠ .inr (some 0) := fun k h => by
    obtain ⟨hr, _⟩ | hr := skip_exit h <;> cases hr
  have hdollar : ∀ words, checkDollar flags s words ≠ .inr (some 0) := fun words h => by
    obtain hr | hr | hr := checkDollar_exit h <;> cases hr
  unfold checkBody Scan.next Scan.quoting
  constructor
  · intro h
    grind [WRDE_CMDSUB, WRDE_SYNTAX, WRDE_BADCHAR]
  · intro h
    grind

/-- The result of `we_check` is that of the pass that leaves the loop; there is one. -/
theorem weCheck_eq_iff {flags : Nat} {mem : List UInt8} {r : Option Nat} :
    weCheck mem flags = r ↔ ∃ s, Head flags mem s ∧ checkBody flags s = .inr r := by
  have hpass : ∀ s s' : Scan, s.Ok → checkBody flags s = .inl s' →
      s'.Ok ∧ s'.words.length < s.words.length := by
    intro s s' hok hb
    have hpass := checkBody_cases hok hb
    exact ⟨hpass.ok, hpass.behind.2⟩
  obtain ⟨r', hr', _⟩ := loop_total (Q := fun _ => True) (fun s : Scan => s.words.length) hpass
    (fun _ _ _ _ => trivial) (s := Scan.start mem) (fun _ => rfl) (Nat.lt_succ_self mem.length)
  rw [weCheck, hr', Option.join_some]
  constructor
  · intro h
    subst h
    exact loop_passes hr'
  · intro ⟨s, hs, hb⟩
    exact loop_eq_of_passes hs hb hr'

/-- `we_check` returns `0` exactly when its scan completes. -/
theorem weCheck_eq_zero_iff {flags : Nat} {mem : List UInt8} :
    weCheck mem flags = some 0 ↔ Completes flags mem := by
  simp only [weCheck_eq_iff, checkBody_zero, Completes]

section Nocmd

variable {flags : Nat} (hcmd : hasFlag flags WRDE_NOCMD = true)
include hcmd

/-- The scan that looks at an active substitution with the shell's quoting stops. -/
theorem checkBody_active {w rest : List UInt8} {s : Scan} {i : Nat}
    (hs : Head flags (w ++ 0 :: rest) s) (hpos : s.pos (w ++ 0 :: rest) = i)
    (hquot : s.quoting = quotingAt w i) (ha : ActiveAt w i) :
    checkBody flags s = .inr (some WRDE_CMDSUB) := by
  obtain ⟨hesc, hsq, hchar⟩ := ha
  have hquote : s.quote = false := by
    rw [← hesc, ← hquot]
    rfl
  have hsquote : s.squote = false := by
    rw [← hsq, ← hquot]
    rfl
  have hget : ∀ k c, w[i + k]? = some c → s.words[k]? = some c := by
    intro k c hc
    obtain ⟨hlt, _⟩ := List.getElem?_eq_some_iff.mp hc
    rw [← hs.getElem? k, hpos, List.getElem?_append_left hlt]
    exact hc
  rcases hchar with hc | ⟨hc, hopen, harith⟩
  · have h0 := hget 0 _ hc
    cases hw : s.words with
    | nil => simp [hw] at h0
    | cons c words =>
      obtain rfl : c = backquote := by simpa [hw] using h0
      rw [checkBody_backquote hw, hquote, hsquote, hcmd]
      rfl
  · have h0 := hget 0 _ hc
    have h1 := hget 1 _ hopen
    -- behind `$(` there is at least the NUL
    obtain ⟨d, h2, hd⟩ : ∃ d, s.words[2]? = some d ∧ d ≠ openParen := by
      obtain ⟨hlt, _⟩ := List.getElem?_eq_some_iff.mp hopen
      rw [← hs.getElem? 2, hpos]
      by_cases hend : i + 2 < w.length
      · refine ⟨w[i + 2], ?_, ?_⟩
        · rw [List.getElem?_append_left hend, List.getElem?_eq_getElem hend]
        · rw [List.getElem?_eq_getElem hend] at harith
          exact fun h => harith (congrArg some h)
      · refine ⟨0, ?_, by decide⟩
        rw [List.getElem?_append_right (by omega), show i + 2 - w.length = 0 by omega]
        rfl
    match hw : s.words with
    | [] => simp [hw] at h0
    | [_] => simp [hw] at h1
    | [_, _] => simp [hw] at h2
    | a :: b :: e :: words =>
      obtain rfl : a = dollar := by simpa [hw] using h0
      obtain rfl : b = openParen := by simpa [hw] using h1
      obtain rfl : e = d := by simpa [hw] using h2
      have hdollar : checkDollar flags s (openParen :: e :: words) = .inr (some WRDE_CMDSUB) := by
        have hnul : openParen ≠ 0 := by decide
        simp [checkDollar, hquote, hsquote, hcmd, hd, hnul]
      rw [checkBody_dollar hw, hdollar]

/-- A scan that completes has met every active substitution that it neither skipped nor
    misread, and would have stopped there. -/
theorem active_skipped_or_misread {w rest : List UInt8} {i : Nat} (hnul : 0 ∉ w)
    (hdone : Completes flags (w ++ 0 :: rest)) (ha : ActiveAt w i) :
    Skipped flags (w ++ 0 :: rest) i ∨ Misread flags (w ++ 0 :: rest) i := by
  have hzero := weCheck_eq_zero_iff.mpr hdone
  obtain ⟨t, ht, hend, _⟩ := hdone
  have hi : i < w.length := by
    rcases ha.2.2 with hc | ⟨hc, _⟩ <;> exact (List.getElem?_eq_some_iff.mp hc).1
  -- the end of the scan is not inside the string
  have hlt : i < t.pos (w ++ 0 :: rest) := by
    by_contra hge
    have hget := ht.getElem? 0
    rw [← List.head?_eq_getElem?, hend, List.getElem?_append_left (by omega)] at hget
    exact hnul (List.mem_of_getElem? hget)
  obtain ⟨u, hu, hpos | ⟨v, hb, hlt, hlt'⟩⟩ :=
    Passes.covers (Scan.pos (w ++ 0 :: rest)) ht (by simp [Scan.pos, Scan.start]) hlt
  · by_cases hquot : u.quoting = quotingAt w i
    · -- the scan is at `i` in step, so it stops there instead of completing
      have hstop := checkBody_active hcmd hu hpos hquot ha
      have hcodes := loop_eq_of_passes hu hstop (Option.join_eq_some_iff.mp hzero)
      exact absurd hcodes (by decide)
    · refine .inr ⟨u, hu, hpos, ?_⟩
      rw [quotingAt_append (Nat.le_of_lt hi)]
      exact hquot
  · exact .inl ⟨u, v, hu, hb, hlt, hlt'⟩

/-- A string that is accepted without skipping anything has no active substitution. -/
theorem weCheck_nocmd_of_no_skip (w : CString) (rest : List UInt8)
    (hno : ∀ i, ¬ Skipped flags (w.1 ++ 0 :: rest) i)
    (h : weCheck (w.1 ++ 0 :: rest) flags = some 0) (i : Nat) : ¬ ActiveAt w.1 i := by
  intro ha
  rcases active_skipped_or_misread hcmd w.2 (weCheck_eq_zero_iff.mp h) ha with hs | hm
  · exact hno i hs
  · obtain ⟨j, _, hs⟩ := hm.skipped
    exact hno j hs

end Nocmd

/-- ``${x:-`i`}'$(j)'``: a body with a command in it, and one in single quotes. -/
def bodyAndQuotes : CString :=
  ⟨[36, 123, 120, 58, 45, 96, 105, 96, 125, 39, 36, 40, 106, 41, 39], by decide⟩

/-- The quote in the body of ``${'}'`i`'`` leaves the scan out of step: it takes the command
    behind the body for quoted text. -/
example : weCheck [36, 123, 39, 125, 39, 96, 105, 96, 39, 0] WRDE_NOCMD = some 0 ∧
    ActiveAt [36, 123, 39, 125, 39, 96, 105, 96, 39] 5 := by decide

end Librecompat.Wordexp
