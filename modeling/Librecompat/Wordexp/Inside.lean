/-
  `we_check` and the end of its string.

  A scan that stays inside its memory does the same when there is more behind it
  (`weCheck_append`), and the inner loops stop at the NUL. The one pass that goes over the NUL
  is that of a `$` in front of it: `case '$'` has read the NUL when it breaks, and the main loop
  goes on behind it. `Text` is a string that the main loop scans to its end, piece by piece, and
  `weCheck_inside_iff` says that the scan stays inside its string unless that is such a text with
  a `$` behind it.
-/
import Librecompat.Wordexp.Nocmd

namespace Librecompat.Wordexp

open Librecompat.Lib

/-! ## More memory -/

/-- The end of an inner loop with `rest` behind the memory. -/
def Skip.append (rest : List UInt8) : Skip → Skip
  | .overrun => .overrun
  | .unclosed => .unclosed
  | .closed words => .closed (words ++ rest)

/-- The scan with `rest` behind the memory. -/
def Scan.append (rest : List UInt8) (s : Scan) : Scan := { s with words := s.words ++ rest }

theorem skipBackquote_append {words : List UInt8} (h : skipBackquote words ≠ .overrun)
    (rest : List UInt8) :
    skipBackquote (words ++ rest) = (skipBackquote words).append rest := by
  fun_induction skipBackquote words with
  | case1 => exact absurd rfl h
  | case2 =>
    rw [List.cons_append, skipBackquote.eq_def]
    rfl
  | case3 =>
    rw [List.cons_append, skipBackquote.eq_def]
    rfl
  | case4 => exact absurd rfl h
  | case5 => rfl
  | case6 d words hd _ _ ih =>
    rw [← ih h, List.cons_append, List.cons_append, skipBackquote.eq_def]
    simp [hd, backslash, backquote]
  | case7 c words hz hq hb ih =>
    rw [← ih h, List.cons_append, skipBackquote.eq_def]
    simp [hz, hq, hb]

theorem skipNested_append {opn cls : UInt8} {level : Nat} {words : List UInt8}
    (h : skipNested opn cls level words ≠ .overrun) (rest : List UInt8) :
    skipNested opn cls level (words ++ rest) =
      (skipNested opn cls level words).append rest := by
  fun_induction skipNested opn cls level words with
  | case1 => exact absurd rfl h
  | case2 =>
    rw [List.cons_append, skipNested.eq_def]
    rfl
  | case3 => exact absurd rfl h
  | case4 => rfl
  | case5 level d words hd _ ih =>
    rw [← ih h, List.cons_append, List.cons_append, skipNested.eq_def]
    simp [hd, backslash]
  | case6 level words hz hb ih =>
    rw [← ih h, List.cons_append, skipNested.eq_def]
    simp [hz, hb]
  | case7 level words hl hz hb ho =>
    rw [List.cons_append, skipNested.eq_def]
    simp [hz, hb, ho, hl, Skip.append]
  | case8 level words hl hz hb ho ih =>
    rw [← ih h, List.cons_append, skipNested.eq_def]
    simp [hz, hb, ho, hl]
  | case9 level c words hz hb ho hc ih =>
    rw [← ih h, List.cons_append, skipNested.eq_def]
    simp [hz, hb, ho, hc]

@[simp] theorem append_words (s : Scan) (rest : List UInt8) :
    (s.append rest).words = s.words ++ rest := rfl

@[simp] theorem append_quote (s : Scan) (rest : List UInt8) :
    (s.append rest).quote = s.quote := rfl

@[simp] theorem append_squote (s : Scan) (rest : List UInt8) :
    (s.append rest).squote = s.squote := rfl

@[simp] theorem append_dquote (s : Scan) (rest : List UInt8) :
    (s.append rest).dquote = s.dquote := rfl

theorem skip_append {s : Scan} {k : Skip} (h : s.skip k ≠ .inr none) (rest : List UInt8) :
    (s.append rest).skip (k.append rest) = (s.skip k).map (Scan.append rest) id := by
  cases k with
  | overrun => exact absurd rfl h
  | unclosed => rfl
  | closed words => rfl

theorem skip_ne_overrun {s : Scan} {k : Skip} (h : s.skip k ≠ .inr none) : k ≠ .overrun :=
  fun hk => h (by rw [hk]; rfl)

theorem checkDollar_append {flags : Nat} {s : Scan} {words : List UInt8}
    (h : checkDollar flags s words ≠ .inr none) (rest : List UInt8) :
    checkDollar flags (s.append rest) (words ++ rest) =
      (checkDollar flags s words).map (Scan.append rest) id := by
  have hskip : ∀ opn cls words, s.skip (skipNested opn cls 1 words) ≠ .inr none →
      (s.append rest).skip (skipNested opn cls 1 (words ++ rest)) =
        (s.skip (skipNested opn cls 1 words)).map (Scan.append rest) id := by
    intro opn cls words h
    rw [skipNested_append (skip_ne_overrun h), skip_append h]
  match words with
  | [] => exact absurd rfl h
  | c :: words =>
    unfold checkDollar at h ⊢
    dsimp only [List.cons_append, append_quote, append_squote] at h ⊢
    by_cases hz : c = 0
    · simp only [hz, if_true]
      rfl
    by_cases hp : (!(s.quote || s.squote) && c == openParen) = true
    · by_cases hcmd : hasFlag flags WRDE_NOCMD = true
      · match words with
        | [] =>
          simp only [hz, hp, hcmd, if_true, if_false] at h
          exact absurd rfl h
        | d :: words =>
          by_cases hd : d = openParen
          · simp only [hz, hp, hcmd, hd, List.cons_append, if_true, if_false, ne_eq,
              not_true_eq_false] at h ⊢
            exact hskip _ _ _ h
          · simp only [hz, hp, hcmd, hd, List.cons_append, if_true, if_false, ne_eq,
              not_false_eq_true]
            rfl
      · simp only [hz, hp, hcmd, if_true, if_false] at h ⊢
        exact hskip _ _ _ h
    by_cases hb : (!(s.quote || s.squote) && c == openBrace) = true
    · simp only [hz, hp, hb, if_true, if_false] at h ⊢
      exact hskip _ _ _ h
    · simp only [hz, hp, hb, if_false]
      rfl

/-- A pass that stays inside the memory is the same with more behind it. -/
theorem checkBody_append {flags : Nat} {s : Scan} (h : checkBody flags s ≠ .inr none)
    (rest : List UInt8) :
    checkBody flags (s.append rest) = (checkBody flags s).map (Scan.append rest) id := by
  unfold checkBody at h ⊢
  match hw : s.words with
  | [] => exact absurd (by rw [hw]) h
  | c :: words =>
    simp only [hw, append_words, List.cons_append, append_quote, append_squote,
      append_dquote] at h ⊢
    by_cases hz : c = 0
    · subst hz
      rfl
    by_cases hb : c = backslash
    · subst hb
      rfl
    by_cases hs : c = squoteChar
    · subst hs
      rfl
    by_cases hd : c = dquoteChar
    · subst hd
      rfl
    simp only [hz, hb, hs, hd, if_false] at h ⊢
    by_cases hq : c = backquote
    · simp only [hq, if_true] at h ⊢
      by_cases hquoted : (s.quote || s.squote) = true
      · simp only [hquoted, if_true]
        rfl
      by_cases hcmd : hasFlag flags WRDE_NOCMD = true
      · simp only [hquoted, hcmd, if_true]
        rfl
      · simp only [hquoted, hcmd, Bool.false_eq_true, if_false] at h ⊢
        rw [skipBackquote_append (skip_ne_overrun h), skip_append h]
    by_cases hbad : c ∈ badChars
    · by_cases hquoted : (s.quote || s.squote || s.dquote) = true
      · simp only [hq, hbad, hquoted, if_true, if_false]
        rfl
      · simp only [hq, hbad, hquoted, if_true, if_false]
        rfl
    by_cases hdol : c = dollar
    · subst hdol
      exact checkDollar_append h rest
    · simp only [hq, hbad, hdol, if_false]
      rfl

theorem passes_append {flags : Nat} {s t : Scan} (h : Passes (checkBody flags) s t)
    (rest : List UInt8) : Passes (checkBody flags) (s.append rest) (t.append rest) := by
  refine h.lift (Scan.append rest) fun a b hab => ?_
  have hin : checkBody flags a ≠ .inr none := by
    rw [hab]
    exact Sum.inl_ne_inr
  change checkBody flags (a.append rest) = .inl (b.append rest)
  rw [checkBody_append hin, hab]
  rfl

/-- A scan that stays inside the memory has the same result with more behind it. -/
theorem weCheck_append {mem : List UInt8} {flags code : Nat} (h : weCheck mem flags = some code)
    (rest : List UInt8) : weCheck (mem ++ rest) flags = some code := by
  obtain ⟨s, hs, hb⟩ := weCheck_eq_iff.mp h
  have hin : checkBody flags s ≠ .inr none := by
    rw [hb]
    exact fun he => Option.some_ne_none _ (Sum.inr.inj he)
  refine weCheck_eq_iff.mpr ⟨s.append rest, passes_append hs rest, ?_⟩
  rw [checkBody_append hin, hb]
  rfl

/-! ## The inner loops stop at the NUL -/

theorem skipBackquote_inside {words : List UInt8} (h : 0 ∈ words) :
    skipBackquote words ≠ .overrun := by
  fun_induction skipBackquote words with
  | case1 => exact absurd h List.not_mem_nil
  | case2 => exact Skip.noConfusion
  | case3 => exact Skip.noConfusion
  | case4 => exact absurd h (by decide)
  | case5 => exact Skip.noConfusion
  | case6 d words hd _ _ ih =>
    have h : 0 = backslash ∨ 0 = d ∨ 0 ∈ words := by simpa using h
    exact ih ((h.resolve_left (by decide)).resolve_left (Ne.symm hd))
  | case7 c words hz hq hb ih => exact ih ((List.mem_cons.mp h).resolve_left (Ne.symm hz))

theorem skipNested_inside {opn cls : UInt8} {level : Nat} {words : List UInt8} (h : 0 ∈ words) :
    skipNested opn cls level words ≠ .overrun := by
  fun_induction skipNested opn cls level words with
  | case1 => exact absurd h List.not_mem_nil
  | case2 => exact Skip.noConfusion
  | case3 => exact absurd h (by decide)
  | case4 => exact Skip.noConfusion
  | case5 level d words hd _ ih =>
    have h : 0 = backslash ∨ 0 = d ∨ 0 ∈ words := by simpa using h
    exact ih ((h.resolve_left (by decide)).resolve_left (Ne.symm hd))
  | case6 level words hz hb ih => exact ih ((List.mem_cons.mp h).resolve_left (Ne.symm hz))
  | case7 => exact Skip.noConfusion
  | case8 level words _ hz _ _ ih => exact ih ((List.mem_cons.mp h).resolve_left (Ne.symm hz))
  | case9 level c words hz hb ho hc ih =>
    exact ih ((List.mem_cons.mp h).resolve_left (Ne.symm hz))

/-! ## Leaving the memory -/

theorem skip_inside {s : Scan} {k : Skip} (h : k ≠ .overrun) : s.skip k ≠ .inr none := by
  intro he
  obtain ⟨_, hk⟩ | hr := skip_exit he
  · exact h hk
  · cases hr

theorem checkDollar_inside {flags : Nat} {s : Scan} {words : List UInt8} (h : 0 ∈ words) :
    checkDollar flags s words ≠ .inr none := by
  have hskip : ∀ {opn cls words}, 0 ∈ words →
      s.skip (skipNested opn cls 1 words) ≠ .inr none :=
    fun h => skip_inside (skipNested_inside h)
  unfold checkDollar Scan.next
  match words with
  | [] => exact absurd h List.not_mem_nil
  | c :: [] => grind
  | c :: d :: words => grind

/-- The scan leaves the memory only at a loop head behind the NUL. -/
theorem checkBody_inside {flags : Nat} {s : Scan} (h : 0 ∈ s.words) :
    checkBody flags s ≠ .inr none := by
  unfold checkBody Scan.next
  match hw : s.words with
  | [] => simp [hw] at h
  | c :: words =>
    rw [hw] at h
    have hback : 0 ∈ words → s.skip (skipBackquote words) ≠ .inr none :=
      fun h => skip_inside (skipBackquote_inside h)
    have hdollar : 0 ∈ words → checkDollar flags s words ≠ .inr none := checkDollar_inside
    grind

/-! ## Bodies -/

/-- What a pass runs over at once: `$(…)`, `${…}` or a command in backquotes. -/
inductive Body (flags : Nat) : List UInt8 → Prop where
  | paren (body : List UInt8)
      (harith : hasFlag flags WRDE_NOCMD = true → body.head? = some openParen)
      (hbody : skipNested openParen closeParen 1 body = .closed []) :
      Body flags (dollar :: openParen :: body)
  | brace (body : List UInt8) (hbody : skipNested openBrace closeBrace 1 body = .closed []) :
      Body flags (dollar :: openBrace :: body)
  | command (body : List UInt8) (hcmd : hasFlag flags WRDE_NOCMD = false)
      (hbody : skipBackquote body = .closed []) : Body flags (backquote :: body)

/-- A leap runs over a body that has no NUL in it, or over the NUL behind a `$`. -/
theorem Leap.body {flags : Nat} {s : Scan} {rest : List UInt8} (h : Leap flags s rest) :
    s.words = dollar :: 0 :: rest ∨
    ∃ body, s.words = body ++ rest ∧ 0 ∉ body ∧ Body flags body ∧
      s.quote = false ∧ s.squote = false := by
  cases h with
  | nul h => exact .inl h
  | paren words h hq harith hskip =>
    obtain ⟨body, rfl, hnul, hbody⟩ := skipNested_body hskip
    refine .inr ⟨dollar :: openParen :: body, h, ?_, .paren body (fun hcmd => ?_) hbody, hq⟩
    · simp [hnul, dollar, openParen]
    · have hhead := harith hcmd
      cases body with
      | nil => cases hbody
      | cons => exact hhead
  | brace words h hq hskip =>
    obtain ⟨body, rfl, hnul, hbody⟩ := skipNested_body hskip
    refine .inr ⟨dollar :: openBrace :: body, h, ?_, .brace body hbody, hq⟩
    simp [hnul, dollar, openBrace]
  | command words h hq hcmd hskip =>
    obtain ⟨body, rfl, hnul, hbody⟩ := skipBackquote_body hskip
    refine .inr ⟨backquote :: body, h, ?_, .command body hcmd hbody, hq⟩
    simp [hnul, backquote]

theorem checkDollar_paren {flags : Nat} {s : Scan} {words : List UInt8} (hq : s.quote = false)
    (hs : s.squote = false)
    (harith : hasFlag flags WRDE_NOCMD = true → words.head? = some openParen) :
    checkDollar flags s (openParen :: words) =
      s.skip (skipNested openParen closeParen 1 words) := by
  have hz : openParen ≠ 0 := by decide
  unfold checkDollar
  by_cases hcmd : hasFlag flags WRDE_NOCMD = true
  · match words, harith hcmd with
    | d :: words, hd =>
      obtain rfl := Option.some.inj hd
      simp [hq, hs, hcmd, hz]
  · simp [hq, hs, hcmd, hz]

theorem checkDollar_brace {flags : Nat} {s : Scan} {words : List UInt8} (hq : s.quote = false)
    (hs : s.squote = false) :
    checkDollar flags s (openBrace :: words) =
      s.skip (skipNested openBrace closeBrace 1 words) := by
  have hz : openBrace ≠ 0 := by decide
  have hne : openBrace ≠ openParen := by decide
  simp [checkDollar, hq, hs, hz, hne]

theorem skipNested_closed {opn cls : UInt8} {body : List UInt8}
    (h : skipNested opn cls 1 body = .closed []) (rest : List UInt8) :
    skipNested opn cls 1 (body ++ rest) = .closed rest := by
  have hin : skipNested opn cls 1 body ≠ .overrun := by
    rw [h]
    exact Skip.noConfusion
  rw [skipNested_append hin, h]
  rfl

/-- A pass runs over a body outside quotes. -/
theorem Body.pass {flags : Nat} {s : Scan} {body rest : List UInt8} (h : Body flags body)
    (hw : s.words = body ++ rest) (hq : s.quote = false) (hs : s.squote = false) :
    checkBody flags s = s.next rest := by
  cases h with
  | paren body harith hbody =>
    have hhead : hasFlag flags WRDE_NOCMD = true → (body ++ rest).head? = some openParen := by
      intro hcmd
      rw [List.head?_append, harith hcmd]
      rfl
    rw [checkBody_dollar hw]
    change checkDollar flags s (openParen :: (body ++ rest)) = s.next rest
    rw [checkDollar_paren hq hs hhead, skipNested_closed hbody]
    rfl
  | brace body hbody =>
    rw [checkBody_dollar hw]
    change checkDollar flags s (openBrace :: (body ++ rest)) = s.next rest
    rw [checkDollar_brace hq hs, skipNested_closed hbody]
    rfl
  | command body hcmd hbody =>
    have hin : skipBackquote body ≠ .overrun := by
      rw [hbody]
      exact Skip.noConfusion
    have hskip : skipBackquote (body ++ rest) = .closed rest := by
      rw [skipBackquote_append hin, hbody]
      rfl
    have hw : s.words = backquote :: (body ++ rest) := hw
    rw [checkBody_backquote hw, hskip, hq, hs, hcmd]
    rfl

/-! ## Texts -/

/-- The main loop reads `c` in front of `rest` by itself: it is quoted or nothing special. -/
def Alone (q : Quoting) (c : UInt8) (rest : List UInt8) : Prop :=
  (c = backquote → q.esc = true ∨ q.sq = true) ∧
  (c ∈ badChars → q.esc = true ∨ q.sq = true ∨ q.dq = true) ∧
  (c = dollar → q.esc = true ∨ q.sq = true ∨
    (rest.head? ≠ some openParen ∧ rest.head? ≠ some openBrace))

/-- What the main loop scans to its end, starting with the quotes `q`: characters read by
    themselves and bodies. -/
inductive Text (flags : Nat) : Quoting → List UInt8 → Prop where
  | nil (q : Quoting) : Text flags q []
  | char (q : Quoting) (c : UInt8) (text : List UInt8) (halone : Alone q c text)
      (htext : Text flags (q.next c) text) : Text flags q (c :: text)
  | body (q : Quoting) (body text : List UInt8) (hbody : Body flags body)
      (hq : q.esc = false ∧ q.sq = false) (htext : Text flags q text) :
      Text flags q (body ++ text)

@[simp] theorem quoting_esc (s : Scan) : s.quoting.esc = s.quote := rfl

@[simp] theorem quoting_sq (s : Scan) : s.quoting.sq = s.squote := rfl

@[simp] theorem quoting_dq (s : Scan) : s.quoting.dq = s.dquote := rfl

theorem skip_shorter {s s' : Scan} {k : Skip} {words : List UInt8}
    (hk : ∀ rest, k = .closed rest → Behind rest words) (h : s.skip k = .inl s') :
    s'.words ≠ words := by
  obtain ⟨hk', _⟩ := skip_cases h
  intro he
  have hlt := (hk _ hk').2
  rw [he] at hlt
  exact Nat.lt_irrefl _ hlt

theorem skipBackquote_shorter {s s' : Scan} {words : List UInt8}
    (h : s.skip (skipBackquote words) = .inl s') : s'.words ≠ words :=
  skip_shorter (fun _ => skipBackquote_behind) h

theorem skipNested_shorter {opn cls : UInt8} {s s' : Scan} {words : List UInt8} (c : UInt8)
    (h : s.skip (skipNested opn cls 1 words) = .inl s') : s'.words ≠ c :: words :=
  skip_shorter (fun _ hk => (skipNested_behind hk).cons c) h

theorem checkBody_bad {flags : Nat} {s : Scan} {c : UInt8} {words : List UInt8}
    (hw : s.words = c :: words) (hc : c ∈ badChars) :
    checkBody flags s =
      if s.quote || s.squote || s.dquote then s.next words else .inr (some WRDE_BADCHAR) := by
  have hne : ∀ d, d ∉ badChars → c ≠ d := fun d hd he => hd (he ▸ hc)
  have hz := hne 0 (by decide)
  have hb := hne backslash (by decide)
  have hs := hne squoteChar (by decide)
  have hd := hne dquoteChar (by decide)
  have hq := hne backquote (by decide)
  simp [checkBody, hw, hz, hb, hs, hd, hq, hc]

/-- What is not quoted and starts a body is not read by itself. -/
theorem not_paren_of_pass {flags : Nat} {s s' : Scan} {tail : List UInt8} (hq : s.quote = false)
    (hs : s.squote = false) (hw : s'.words = openParen :: tail) :
    checkDollar flags s (openParen :: tail) ≠ .inl s' := by
  intro h
  by_cases harith : hasFlag flags WRDE_NOCMD = true → tail.head? = some openParen
  · rw [checkDollar_paren hq hs harith] at h
    exact skipNested_shorter openParen h hw
  · obtain ⟨hcmd, hne⟩ := Classical.not_imp.mp harith
    have hz : openParen ≠ 0 := by decide
    cases tail with
    | nil => simp [checkDollar, hq, hs, hcmd, hz] at h
    | cons d tail =>
      have hd : d ≠ openParen := fun he => hne (congrArg some he)
      simp [checkDollar, hq, hs, hcmd, hz, hd] at h

theorem alone_of_pass {flags : Nat} {s s' : Scan} {c : UInt8} (hw : s.words = c :: s'.words)
    (h : checkBody flags s = .inl s') : Alone s.quoting c s'.words := by
  refine ⟨?_, ?_, ?_⟩
  · rintro rfl
    have hback := @skipBackquote_shorter s s' s'.words
    rw [checkBody_backquote hw] at h
    simp only [quoting_esc, quoting_sq]
    grind
  · intro hc
    rw [checkBody_bad hw hc] at h
    simp only [quoting_esc, quoting_sq, quoting_dq]
    grind
  · rintro rfl
    rw [checkBody_dollar hw] at h
    by_contra hno
    obtain ⟨hq, hs, hhead⟩ : s.quote = false ∧ s.squote = false ∧
        (s'.words.head? = some openParen ∨ s'.words.head? = some openBrace) := by
      simp only [quoting_esc, quoting_sq] at hno
      grind
    obtain hhead | hhead := hhead
    · obtain ⟨tail, ht⟩ := List.head?_eq_some_iff.mp hhead
      rw [ht] at h
      exact not_paren_of_pass hq hs ht h
    · obtain ⟨tail, ht⟩ := List.head?_eq_some_iff.mp hhead
      rw [ht, checkDollar_brace hq hs] at h
      exact skipNested_shorter openBrace h ht

theorem checkDollar_alone {flags : Nat} {s : Scan} {d : UInt8} {words : List UInt8}
    (hd : d ≠ 0) (h : s.quote = true ∨ s.squote = true ∨ (d ≠ openParen ∧ d ≠ openBrace)) :
    checkDollar flags s (d :: words) = s.next (d :: words) := by
  have hp : (!(s.quote || s.squote) && d == openParen) = false := by grind
  have hb : (!(s.quote || s.squote) && d == openBrace) = false := by grind
  unfold checkDollar
  simp only [hd, hp, hb, Bool.false_eq_true, if_false]

/-- The pass that reads a character by itself. -/
theorem Alone.pass {flags : Nat} {s : Scan} {c d : UInt8} {words : List UInt8}
    (hw : s.words = c :: d :: words) (hc : c ≠ 0) (hd : d ≠ 0)
    (h : Alone s.quoting c (d :: words)) :
    ∃ s', checkBody flags s = .inl s' ∧ s'.words = d :: words := by
  obtain ⟨hback, hbad, hdollar⟩ := h
  by_cases hq : c = backquote
  · subst hq
    have hquoted : (s.quote || s.squote) = true := by simpa using hback rfl
    rw [checkBody_backquote hw, hquoted]
    exact ⟨_, rfl, rfl⟩
  by_cases hb : c ∈ badChars
  · have hquoted : (s.quote || s.squote || s.dquote) = true := by
      simpa [or_assoc] using hbad hb
    rw [checkBody_bad hw hb, hquoted]
    exact ⟨_, rfl, rfl⟩
  by_cases hdol : c = dollar
  · subst hdol
    have hplain : s.quote = true ∨ s.squote = true ∨ (d ≠ openParen ∧ d ≠ openBrace) := by
      simpa using hdollar rfl
    rw [checkBody_dollar hw, checkDollar_alone hd hplain]
    exact ⟨_, rfl, rfl⟩
  · unfold checkBody Scan.next
    grind

theorem Alone.append {q : Quoting} {c d : UInt8} {text : List UInt8} (rest : List UInt8)
    (hplain : d ≠ openParen ∧ d ≠ openBrace) (h : Alone q c text) :
    Alone q c (text ++ d :: rest) := by
  refine ⟨h.1, h.2.1, fun hc => ?_⟩
  cases text with
  | nil => simp [hplain]
  | cons e text => exact h.2.2 hc

theorem Alone.of_append {q : Quoting} {c : UInt8} {text rest : List UInt8}
    (h : Alone q c (text ++ rest)) : Alone q c text := by
  refine ⟨h.1, h.2.1, fun hc => ?_⟩
  cases text with
  | nil => simp
  | cons e text => exact h.2.2 hc

/-- A pass over one character reads it as the shell does. -/
theorem Pass.quoting_next {flags : Nat} {s s' : Scan} {c : UInt8} (h : Pass flags s s')
    (hw : s.words = c :: s'.words) : s'.quoting = s.quoting.next c := by
  obtain ⟨d, hd, hquot⟩ | ⟨hleap, _⟩ := h
  · rw [hw] at hd
    rw [hquot, List.head_eq_of_cons_eq hd]
  · obtain ⟨d, words, hd, hbeh⟩ := hleap.behind
    rw [hw] at hd
    rw [List.tail_eq_of_cons_eq hd] at hbeh
    exact absurd hbeh.2 (Nat.lt_irrefl _)

/-- The main loop scans a text to its end. -/
theorem Text.passes {flags : Nat} {q : Quoting} {text : List UInt8} (h : Text flags q text)
    (hnul : 0 ∉ text) {d : UInt8} (rest : List UInt8) (hd : d ≠ 0)
    (hplain : d ≠ openParen ∧ d ≠ openBrace) {s : Scan} (hok : s.Ok) (hq : s.quoting = q)
    (hw : s.words = text ++ d :: rest) :
    ∃ t, Passes (checkBody flags) s t ∧ t.words = d :: rest := by
  induction h generalizing s with
  | nil => exact ⟨s, .refl, hw⟩
  | char q c text halone _ ih =>
    subst hq
    obtain ⟨e, words, hword, he⟩ : ∃ e words, text ++ d :: rest = e :: words ∧ e ≠ 0 := by
      cases text with
      | nil => exact ⟨d, rest, rfl, hd⟩
      | cons e text =>
        refine ⟨e, text ++ d :: rest, rfl, ?_⟩
        rintro rfl
        simp at hnul
    have halone := halone.append rest hplain
    have hw : s.words = c :: (text ++ d :: rest) := hw
    have hc : c ≠ 0 := fun h0 => hnul (h0 ▸ List.mem_cons_self)
    rw [hword] at halone hw
    obtain ⟨s', hpass, hw'⟩ : ∃ s', checkBody flags s = .inl s' ∧ s'.words = e :: words :=
      halone.pass hw hc he
    rw [← hw'] at hw
    have hcases := checkBody_cases hok hpass
    obtain ⟨t, hp, ht⟩ := ih (fun h0 => hnul (List.mem_cons_of_mem _ h0)) hcases.ok
      (hcases.quoting_next hw) (hw'.trans hword.symm)
    exact ⟨t, .head hpass hp, ht⟩
  | body q body text hbody hquote _ ih =>
    subst hq
    have hpass := hbody.pass (hw.trans (List.append_assoc _ _ _)) hquote.1 hquote.2
    have hquot : s.quoting = ⟨false, s.squote, s.dquote⟩ := by
      rw [← hquote.1]
      rfl
    obtain ⟨t, hp, ht⟩ := ih (fun h0 => hnul (List.mem_append_right _ h0))
      (s := ⟨text ++ d :: rest, false, s.squote, s.dquote⟩) (fun _ => rfl) hquot.symm rfl
    exact ⟨t, .head hpass hp, ht⟩

/-- What the main loop has scanned when it gets to the last character of a string is a text. -/
theorem text_of_passes {flags : Nat} {s t : Scan} (hp : Passes (checkBody flags) s t) {d : UInt8}
    (ht : t.words = [d, 0]) (hok : s.Ok) (hnul : ∀ x, s.words = x ++ [0] → 0 ∉ x) :
    ∃ text, s.words = text ++ [d, 0] ∧ Text flags s.quoting text := by
  induction hp using Relation.ReflTransGen.head_induction_on with
  | refl => exact ⟨[], ht, .nil _⟩
  | @head s s' hpass _ ih =>
    have hcases := checkBody_cases hok hpass
    obtain ⟨front, hfront⟩ := hcases.behind.1
    have hnul' : ∀ x, s'.words = x ++ [0] → 0 ∉ x := by
      intro x hx h0
      rw [hx, ← List.append_assoc] at hfront
      exact hnul _ hfront.symm (List.mem_append_right _ h0)
    obtain ⟨text, hw', htext⟩ := ih hcases.ok hnul'
    obtain ⟨c, hw, hquot⟩ | ⟨hleap, hquot⟩ := hcases
    · have halone := alone_of_pass hw hpass
      rw [hquot] at htext
      rw [hw'] at halone hw
      exact ⟨c :: text, hw, .char _ c text halone.of_append htext⟩
    · obtain hw | ⟨body, hw, _, hbody, hquote⟩ := hleap.body
      · rw [hw'] at hw
        have h0 : 0 ∉ dollar :: 0 :: (text ++ [d]) := hnul _ (by simp [hw])
        simp at h0
      · have hsame : s'.quoting = s.quoting := by
          rw [hquot, ← hquote.1]
          rfl
        rw [hsame] at htext
        refine ⟨body ++ text, ?_, .body _ body text hbody hquote htext⟩
        rw [hw, hw', List.append_assoc]

/-! ## The end of the string -/

/-- A loop head of the scan is behind the NUL or has it in front of it. -/
theorem Head.nul {flags : Nat} {w : List UInt8} {s : Scan} (h : Head flags (w ++ [0]) s)
    (hnul : 0 ∉ w) : s.words = [] ∨ ∃ x, s.words = x ++ [0] ∧ 0 ∉ x := by
  obtain hw | ⟨x, hw, hx⟩ := List.suffix_concat_iff.mp h.inv.2
  · exact .inl hw
  · exact .inr ⟨x, hw, fun hx0 => hnul (hx.mem hx0)⟩

/-- The only pass that goes over the NUL is that of a `$` in front of it. -/
theorem pass_over_nul {flags : Nat} {x : List UInt8} {s s' : Scan} (hok : s.Ok)
    (hw : s.words = x ++ [0]) (hb : checkBody flags s = .inl s') (hend : s'.words = []) :
    s.words = [dollar, 0] := by
  obtain ⟨c, hc, _⟩ | ⟨hleap, _⟩ := checkBody_cases hok hb
  · -- the NUL ends the loop
    rw [hend] at hc
    rw [hc] at hw
    obtain ⟨_, rfl⟩ : x = [] ∧ c = 0 := by cases x <;> simp_all
    simp [checkBody, hc] at hb
  · obtain hdol | ⟨body, hbody, hnul, _⟩ := hleap.body
    · rw [hdol, hend]
    · rw [hend, List.append_nil] at hbody
      rw [hbody] at hw
      exact absurd (hw ▸ List.mem_append_right x List.mem_cons_self) hnul

theorem weCheck_none_iff {flags : Nat} {w : List UInt8} (hnul : 0 ∉ w) :
    weCheck (w ++ [0]) flags = none ↔
      ∃ s, Head flags (w ++ [0]) s ∧ s.words = [dollar, 0] := by
  rw [weCheck_eq_iff]
  constructor
  · rintro ⟨s, hs, hb⟩
    have hend : s.words = [] := by
      obtain hw | ⟨x, hw, _⟩ := hs.nul hnul
      · exact hw
      · exact absurd hb (checkBody_inside (by simp [hw]))
    obtain rfl | ⟨t, ht, hpass⟩ := Relation.ReflTransGen.cases_tail hs
    · simp [Scan.start] at hend
    · have ht : Head flags (w ++ [0]) t := ht
      obtain hw | ⟨x, hw, _⟩ := ht.nul hnul
      · simp [checkBody, hw] at hpass
      · exact ⟨t, ht, pass_over_nul ht.inv.1 hw hpass hend⟩
  · rintro ⟨s, hs, hw⟩
    have hpass : checkBody flags s = s.next [] := by
      rw [checkBody_dollar hw]
      rfl
    exact ⟨{ s with words := [], quote := false }, .tail hs hpass, rfl⟩

/-- The scan leaves its string through a `$` at its end behind a text. -/
theorem weCheck_none_iff_text {flags : Nat} {w : List UInt8} (hnul : 0 ∉ w) :
    weCheck (w ++ [0]) flags = none ↔
      ∃ text, w = text ++ [dollar] ∧ Text flags ⟨false, false, false⟩ text := by
  rw [weCheck_none_iff hnul]
  constructor
  · rintro ⟨s, hs, hw⟩
    have hstart : ∀ x, (Scan.start (w ++ [0])).words = x ++ [0] → 0 ∉ x := by
      intro x hx
      rw [← List.append_cancel_right hx]
      exact hnul
    obtain ⟨text, htext, h⟩ := text_of_passes hs hw (fun _ => rfl) hstart
    have hsplit : w ++ [0] = (text ++ [dollar]) ++ [0] := by
      rw [List.append_assoc]
      exact htext
    exact ⟨text, List.append_cancel_right hsplit, h⟩
  · rintro ⟨text, rfl, h⟩
    have h0 : 0 ∉ text := fun h0 => hnul (List.mem_append_left _ h0)
    exact h.passes h0 [0] (by decide) (by decide) (s := Scan.start (text ++ [dollar] ++ [0]))
      (fun _ => rfl) rfl (List.append_assoc _ _ _)

/-- `we_check` stays inside its string, whatever is behind the NUL, unless that is a text with a
    `$` at its end. -/
theorem weCheck_inside_iff (w : CString) (flags : Nat) :
    (∃ code, ∀ rest, weCheck (w.1 ++ 0 :: rest) flags = some code) ↔
      ¬ ∃ text, w.1 = text ++ [dollar] ∧ Text flags ⟨false, false, false⟩ text := by
  rw [← weCheck_none_iff_text w.2]
  constructor
  · intro ⟨code, h⟩ hnone
    rw [h []] at hnone
    cases hnone
  · intro hsome
    obtain ⟨code, hcode⟩ := Option.ne_none_iff_exists'.mp hsome
    refine ⟨code, fun rest => ?_⟩
    have happ := weCheck_append hcode rest
    rwa [List.append_assoc] at happ

/-- The scan of `$` goes on behind the NUL: it leaves the memory, or returns `WRDE_BADCHAR` for
    the `|` that it finds there. -/
theorem weCheck_not_inside :
    ¬ ∀ (w : CString) (flags : Nat), ∃ code, ∀ rest,
      weCheck (w.1 ++ 0 :: rest) flags = some code := by
  intro h
  obtain ⟨code, hcode⟩ := h ⟨[36], by decide⟩ 0
  have hnul : some code = some 0 := (hcode [0]).symm.trans (by decide)
  have hbar : some code = some WRDE_BADCHAR := (hcode [124, 0]).symm.trans (by decide)
  exact absurd (hnul.symm.trans hbar) (by decide)

end Librecompat.Wordexp
