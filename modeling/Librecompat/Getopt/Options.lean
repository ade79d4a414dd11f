/-
  The handling of an option, in terms of the elements that are still to come.

  `takeLong`, `takeShort` and `takeOption` say what `process_long_option`, the block for short
  options and the whole part for an option element do: how many elements they pass over and what
  they return (`Taken`). They do not see the elements before `optind`. `processLongOption_eq`,
  `shortOption_eq` and `optionElement_eq` connect them with the code, the last one as long as no
  long option with the value -1 is taken for "not a long option".
-/
import Librecompat.Getopt.LongMatch

namespace Librecompat.Getopt

open Librecompat.Lib

/-! ## What an option takes -/

/-- The effect of an option: `taken` elements are passed over. -/
structure Taken where
  ret : Int
  optarg : Option Str := none
  nextchar : Option Str := none
  optopt : Option Int := none
  diag : Option Diagnosis := none
  longind : Option Nat := none
  store : Option (Nat × Int) := none
  taken : Nat

/-- The effect on a world in which the call has left nothing behind yet. -/
def Taken.apply (a : Args) (t : Taken) (w : World) : World :=
  { argv := w.argv
    data := { w.data with optind := w.data.optind + t.taken, optarg := t.optarg,
                          nextchar := t.nextchar, optopt := t.optopt.getD w.data.optopt }
    diag := t.diag
    longind := if a.longind then t.longind else none
    store := t.store }

variable (a : Args) (mallocOk : Bool) (optstring : Str) (printErrors : Bool)

/-- The option `p` with its argument. -/
def takeValue (p : LongOption) (index : Nat) (optarg : Option Str) (taken : Nat) : Taken :=
  match p.flag with
  | some flag => { ret := 0, optarg := optarg, longind := some index, store := some (flag, p.val),
                   taken := taken }
  | none => { ret := p.val, optarg := optarg, optopt := some p.val, longind := some index,
              taken := taken }

/-- The option `p`, where `nameend` is the text behind the name and `next` are the elements behind
    this one. -/
def takeFound (pfx : Str) (p : LongOption) (index : Nat) (nameend : Str) (next : List CString) :
    Taken :=
  if nameend ≠ [] then
    if p.hasArg ≠ 0 then takeValue p index (some nameend.tail) 1
    else { ret := question, optopt := some p.val, diag := some (.doesntAllow pfx p.name.1),
           taken := 1 }
  else if p.hasArg = 1 then
    match next with
    | arg :: _ => takeValue p index (some arg.1) 2
    | [] => { ret := missingCode optstring, optopt := some p.val,
              diag := some (.requires pfx p.name.1), taken := 1 }
  else takeValue p index none 1

/-- `text` as a long option; `e` is the element at `optind`. `none`: not a long option. -/
def takeLong (longOnly : Bool) (pfx : Str) (longopts : List LongOption) (text : Str)
    (e : CString) (next : List CString) : Option Taken :=
  match matchLong longopts longOnly printErrors mallocOk (text.takeWhile (· ≠ 61)) with
  | .ambiguous names =>
    some { ret := question, nextchar := some [], optopt := some 0,
           diag := some (.ambiguous pfx text names), taken := 1 }
  | .unknown =>
    if longOnly ∧ ¬ (e.1[1]? = some 45 ∨ strchr optstring (text.headD 0) = none) then none
    else some { ret := question, optopt := some 0, diag := some (.unrecognized pfx text),
                taken := 1 }
  | .found p index => some (takeFound optstring pfx p index (text.dropWhile (· ≠ 61)) next)

/-- The option `c` that is not `-W`; `t` is the text behind it and `temp` the option string from `c`
    on. -/
def takeOrdinary (c : UInt8) (t temp : Str) (next : List CString) : Taken :=
  if temp[1]? = some 58 then
    if temp[2]? = some 58 then
      { ret := charVal c, optarg := if t ≠ [] then some t else none, optopt := some (charVal c),
        taken := 1 }
    else if t ≠ [] then
      { ret := charVal c, optarg := some t, optopt := some (charVal c), taken := 1 }
    else
      match next with
      | arg :: _ =>
        { ret := charVal c, optarg := some arg.1, optopt := some (charVal c), taken := 2 }
      | [] => { ret := missingCode optstring, optopt := some (missingCode optstring),
                diag := some (.requiresShort c), taken := 1 }
  else { ret := charVal c, nextchar := some t, optopt := some (charVal c),
         taken := if t = [] then 1 else 0 }

/-- What follows `-W` as a long option. -/
def takeAfterW (c : UInt8) (t : Str) (longopts : List LongOption) (e : CString)
    (next : List CString) : Option Taken :=
  if t ≠ [] then takeLong mallocOk optstring printErrors false (chars "-W ") longopts t e next
  else
    match next with
    | arg :: next =>
      (takeLong mallocOk optstring printErrors false (chars "-W ") longopts arg.1 arg next).map
        fun t => { t with taken := t.taken + 1 }
    | [] => some { ret := missingCode optstring, nextchar := some [], optopt := some (charVal c),
                   diag := some (.requiresShort c), taken := 1 }

/-- `text` as short options, in the element `e`. -/
def takeShort (text : Str) (e : CString) (next : List CString) : Option Taken :=
  match text with
  | [] => none
  | c :: t =>
    let invalid : Taken := { ret := question, nextchar := some t, optopt := some (charVal c),
                             diag := some (.invalid c), taken := if t = [] then 1 else 0 }
    match strchr optstring c with
    | none => some invalid
    | some temp =>
      if c = 58 ∨ c = 59 then some invalid
      else
        match a.longopts with
        | some longopts =>
          if c = 87 ∧ temp[1]? = some 59 then
            takeAfterW mallocOk optstring printErrors c t longopts e next
          else some (takeOrdinary optstring c t temp next)
        | none => some (takeOrdinary optstring c t temp next)

/-- The element `e`, which is an option. -/
def takeOption (e : CString) (next : List CString) : Option Taken :=
  let short := takeShort a mallocOk optstring printErrors e.1.tail e next
  match a.longopts with
  | none => short
  | some longopts =>
    if e.1[1]? = some 45 then
      takeLong mallocOk optstring printErrors a.longOnly (chars "--") longopts (e.1.drop 2) e next
    else if looksLong a optstring e then
      match takeLong mallocOk optstring printErrors a.longOnly (chars "-") longopts (e.1.drop 1) e
          next with
      | some t => some t
      | none => short
    else short

/-- Behind the single dash of `e` is the name of a long option with the value -1 and no `flag`,
    with the argument that it asks for: the code takes its value for "not a long option". -/
def MinusOne (e : CString) (next : List CString) : Prop :=
  ∃ longopts p index, a.longopts = some longopts ∧ e.1[1]? ≠ some 45 ∧ looksLong a optstring e ∧
    matchLong longopts a.longOnly false false ((e.1.drop 1).takeWhile (· ≠ 61)) =
      .found p index ∧ p.flag = none ∧ p.val = -1 ∧
    ((e.1.drop 1).dropWhile (· ≠ 61) ≠ [] → p.hasArg ≠ 0) ∧
    ((e.1.drop 1).dropWhile (· ≠ 61) = [] → p.hasArg = 1 → next ≠ [])

/-! ## The code -/

/-- The elements from `optind` on are `rest`. -/
structure Rest (a : Args) (w : World) (rest : List CString) : Prop where
  argc : w.data.optind + rest.length = a.argc
  get : ∀ i e, rest[i]? = some e → w.argv[w.data.optind + i]? = some (some e)

/-- The call has left nothing behind yet. -/
structure Clean (w : World) : Prop where
  optarg : w.data.optarg = none
  diag : w.diag = none
  longind : w.longind = none
  store : w.store = none

variable {a mallocOk optstring printErrors}

theorem Rest.head {w : World} {e : CString} {next : List CString} (h : Rest a w (e :: next)) :
    w.argv[w.data.optind]? = some (some e) := h.get 0 e rfl

theorem Rest.tail {w w' : World} {e : CString} {next : List CString} (h : Rest a w (e :: next))
    (hargv : w'.argv = w.argv) (hind : w'.data.optind = w.data.optind + 1) : Rest a w' next := by
  refine ⟨?_, fun i e' hi => ?_⟩
  · rw [← h.argc, hind, List.length_cons]
    omega
  · rw [hargv, hind, Nat.add_assoc, Nat.add_comm 1]
    exact h.get (i + 1) e' hi

theorem processLongOption_eq {longOnly : Bool} {pfx : Str} {longopts : List LongOption} {w : World}
    {text : Str} {e : CString} {next : List CString} (hw : Clean w)
    (htext : w.data.nextchar = some text) (hrest : Rest a w (e :: next)) (he : longOnly → e.1 ≠ []) :
    processLongOption a mallocOk optstring printErrors longOnly pfx longopts w =
      match takeLong mallocOk optstring printErrors longOnly pfx longopts text e next with
      | some t => some (t.apply a w, t.ret)
      | none => some (w, -1) := by
  obtain ⟨argv, d, diag, longind, store⟩ := w
  obtain ⟨hoptarg, rfl, rfl, rfl⟩ := hw
  have hhead := hrest.head
  dsimp only at htext hoptarg hhead
  unfold processLongOption takeLong
  dsimp only
  rw [htext, Option.bind_eq_bind, Option.bind_some]
  generalize matchLong longopts longOnly printErrors mallocOk (text.takeWhile (· ≠ 61)) = found
  generalize text.dropWhile (· ≠ 61) = nameend
  generalize strchr optstring (text.headD 0) = temp
  cases found with
  | ambiguous names => simp [Taken.apply, hoptarg]
  | unknown =>
    cases longOnly with
    | false => simp [Taken.apply, hoptarg]
    | true =>
      by_cases herr : e.1[1]? = some 45 ∨ temp = none
      · simp [hhead, he rfl, herr, Taken.apply, hoptarg]
      · simp [hhead, he rfl, herr]
  | found p index =>
    unfold takeFound takeValue
    by_cases hend : nameend = []
    · by_cases harg : p.hasArg = 1
      · cases next with
        | nil =>
          have hlt : ¬ d.optind + 1 < a.argc := by
            rw [← hrest.argc]
            simp
          simp [hend, harg, hlt, Taken.apply, hoptarg]
        | cons arg next =>
          have hlt : d.optind + 1 < a.argc := by
            rw [← hrest.argc]
            simp
          have hget : argv[d.optind + 1]? = some (some arg) := hrest.get 1 arg rfl
          cases hflag : p.flag <;> simp [hend, harg, hlt, hget, Taken.apply, hflag]
      · cases hflag : p.flag <;> simp [hend, harg, Taken.apply, hoptarg, hflag]
    · by_cases harg : p.hasArg = 0
      · simp [hend, harg, Taken.apply, hoptarg]
      · cases hflag : p.flag <;> simp [hend, harg, Taken.apply, hflag]

theorem missingCode_ne (optstring : Str) : missingCode optstring ≠ -1 := by
  unfold missingCode
  split <;> decide

/-- Only the value of an option makes `process_long_option` return -1 for a long option. -/
theorem takeFound_minusOne {pfx : Str} {p : LongOption} {index : Nat} {nameend : Str}
    {next : List CString} (h : (takeFound optstring pfx p index nameend next).ret = -1) :
    p.flag = none ∧ p.val = -1 ∧ (nameend ≠ [] → p.hasArg ≠ 0) ∧
      (nameend = [] → p.hasArg = 1 → next ≠ []) := by
  have hvalue : ∀ optarg taken, (takeValue p index optarg taken).ret = -1 →
      p.flag = none ∧ p.val = -1 := by
    intro optarg taken hret
    unfold takeValue at hret
    cases hflag : p.flag with
    | none =>
      rw [hflag] at hret
      exact ⟨rfl, hret⟩
    | some flag =>
      rw [hflag] at hret
      exact absurd hret (show (0 : Int) ≠ -1 by decide)
  unfold takeFound at h
  split at h
  · next hend =>
    split at h
    · next harg => exact ⟨(hvalue _ _ h).1, (hvalue _ _ h).2, fun _ => harg, fun h0 => absurd h0 hend⟩
    · exact absurd h (show question ≠ -1 by decide)
  · next hend =>
    split at h
    · split at h
      · exact ⟨(hvalue _ _ h).1, (hvalue _ _ h).2, fun h0 => absurd h0 hend,
          fun _ _ => List.cons_ne_nil _ _⟩
      · exact absurd h (missingCode_ne optstring)
    · next harg =>
      exact ⟨(hvalue _ _ h).1, (hvalue _ _ h).2, fun h0 => absurd h0 hend, fun _ h1 => absurd h1 harg⟩

theorem takeLong_minusOne {longOnly : Bool} {pfx : Str} {longopts : List LongOption} {text : Str}
    {e : CString} {next : List CString} {t : Taken}
    (ht : takeLong mallocOk optstring printErrors longOnly pfx longopts text e next = some t)
    (hret : t.ret = -1) :
    ∃ p index, matchLong longopts longOnly false false (text.takeWhile (· ≠ 61)) =
        .found p index ∧ p.flag = none ∧ p.val = -1 ∧
      (text.dropWhile (· ≠ 61) ≠ [] → p.hasArg ≠ 0) ∧
      (text.dropWhile (· ≠ 61) = [] → p.hasArg = 1 → next ≠ []) := by
  have hsame := @matchLong_same longOnly printErrors mallocOk (text.takeWhile (· ≠ 61)) longopts
    false false
  unfold takeLong at ht
  generalize matchLong longopts longOnly false false _ = found' at hsame ⊢
  generalize matchLong longopts longOnly printErrors mallocOk _ = found at ht hsame
  cases hsame with
  | ambiguous names names' =>
    obtain rfl := Option.some.inj ht
    exact absurd hret (show question ≠ -1 by decide)
  | found p index =>
    obtain rfl := Option.some.inj ht
    exact ⟨p, index, rfl, takeFound_minusOne hret⟩
  | unknown =>
    dsimp only at ht
    split at ht
    · cases ht
    · obtain rfl := Option.some.inj ht
      exact absurd hret (show question ≠ -1 by decide)

theorem takeLong_isSome {longOnly : Bool} {pfx : Str} {longopts : List LongOption} {text : Str}
    {e : CString} {next : List CString} (h : longOnly → e.1[1]? = some 45) :
    ∃ t, takeLong mallocOk optstring printErrors longOnly pfx longopts text e next = some t := by
  unfold takeLong
  split
  · exact ⟨_, rfl⟩
  · exact ⟨_, if_neg fun hlong => hlong.2 (.inl (h hlong.1))⟩
  · exact ⟨_, rfl⟩

/-- The world of a call that has left nothing behind yet. -/
abbrev World.start (argv : List (Option CString)) (d : GetoptData) : World :=
  ⟨argv, d, none, none, none⟩

theorem Rest.passChar {argv : List (Option CString)} {d : GetoptData} {t : Str} {e : CString}
    {next : List CString} (h : Rest a (World.start argv d) (e :: next)) :
    Rest a (World.start argv (passChar t d)) (if t = [] then next else e :: next) := by
  by_cases ht : t = []
  · rw [if_pos ht]
    exact h.tail rfl (if_pos ht)
  · rw [if_neg ht]
    have hind : (Getopt.passChar t d).optind = d.optind := if_neg ht
    refine ⟨?_, fun i e' hi => ?_⟩
    · rw [hind]
      exact h.argc
    · rw [hind]
      exact h.get i e' hi

variable {c : UInt8} {t temp : Str} {longopts : List LongOption} {argv : List (Option CString)}
  {d : GetoptData} {e : CString} {next : List CString}

theorem longAfterW_eq (hd : d.optarg = none) (hrest : Rest a (World.start argv d) (e :: next)) :
    longAfterW a mallocOk optstring printErrors c t longopts (World.start argv (passChar t d)) =
      (takeAfterW mallocOk optstring printErrors c t longopts e next).map fun t =>
        (t.apply a (World.start argv d), t.ret) := by
  have hlong : ∀ (text : Str) (d' : GetoptData) (e : CString) (next : List CString),
      Rest a (World.start argv d') (e :: next) → ∃ t', takeLong mallocOk optstring
        printErrors false (chars "-W ") longopts text e next = some t' ∧
        processLongOption a mallocOk optstring printErrors false (chars "-W ") longopts
          (World.start argv { d' with nextchar := some text, optarg := none }) =
        some (t'.apply a (World.start argv d'), t'.ret) := by
    intro text d' e next hrest
    obtain ⟨t', ht'⟩ := @takeLong_isSome mallocOk optstring printErrors false (chars "-W ") longopts
      text e next nofun
    have hrest' : Rest a (World.start argv { d' with nextchar := some text, optarg := none })
        (e :: next) := ⟨hrest.argc, hrest.get⟩
    have hno : false = true → e.1 ≠ [] := nofun
    refine ⟨t', ht', ?_⟩
    rw [processLongOption_eq ⟨rfl, rfl, rfl, rfl⟩ rfl hrest' hno, ht']
    rfl
  have hafter := hrest.passChar (t := t)
  unfold longAfterW takeAfterW
  by_cases ht : t = []
  · subst ht
    rw [if_pos rfl] at hafter
    cases next with
    | nil =>
      have hind : (passChar [] d).optind = a.argc := hafter.argc
      simp only [ne_eq, not_true_eq_false, if_false, if_pos hind]
      simp [passChar, Taken.apply, hd]
    | cons arg next =>
      have hind : (passChar [] d).optind ≠ a.argc := by
        rw [← hafter.argc]
        simp
      obtain ⟨t', ht', hcall⟩ := hlong arg.1 _ arg next hafter
      have hhead : argv[(passChar [] d).optind]? = some (some arg) := hafter.head
      simp only [ne_eq, not_true_eq_false, if_false, if_neg hind, hhead, Option.bind_eq_bind,
        Option.bind_some, Option.map_some, hcall, ht']
      simp [passChar, Taken.apply, Nat.add_assoc, Nat.add_comm 1]
  · rw [if_neg ht] at hafter
    obtain ⟨t', ht', hcall⟩ := hlong t _ e next hafter
    simp only [ne_eq, ht, not_false_eq_true, if_true, hcall, ht']
    simp [passChar, Taken.apply, ht]

theorem ordinary_eq (hd : d.optarg = none) (hrest : Rest a (World.start argv d) (e :: next)) :
    shortOption.ordinary a optstring c t temp (World.start argv (passChar t d)) =
      some ((takeOrdinary optstring c t temp next).apply a (World.start argv d),
        (takeOrdinary optstring c t temp next).ret) := by
  have hafter := hrest.passChar (t := t)
  unfold shortOption.ordinary takeOrdinary requiredArg
  by_cases h1 : temp[1]? = some 58
  · by_cases h2 : temp[2]? = some 58
    · by_cases ht : t = [] <;> simp [h1, h2, ht, passChar, Taken.apply]
    · by_cases ht : t = []
      · rw [if_pos ht] at hafter
        subst ht
        cases next with
        | nil =>
          have hind : d.optind + 1 = a.argc := hafter.argc
          simp [h1, h2, hind, passChar, Taken.apply, hd]
        | cons arg next =>
          have hind : d.optind + 1 ≠ a.argc := by
            rw [← hrest.argc]
            simp
          have hget : argv[d.optind + 1]? = some (some arg) := hafter.head
          simp [h1, h2, hind, hget, passChar, Taken.apply]
      · simp [h1, h2, ht, passChar, Taken.apply]
  · by_cases ht : t = [] <;> simp [h1, ht, passChar, Taken.apply, hd]

theorem shortOption_eq {text : Str} (hd : d.optarg = none) (htext : d.nextchar = some text)
    (hrest : Rest a (World.start argv d) (e :: next)) :
    shortOption a mallocOk optstring printErrors (World.start argv d) =
      (takeShort a mallocOk optstring printErrors text e next).map fun t =>
        (t.apply a (World.start argv d), t.ret) := by
  unfold shortOption takeShort
  dsimp only
  rw [htext]
  cases text with
  | nil => rfl
  | cons c t =>
    have hinvalid : some ({ World.start argv (passChar t d) with
        diag := some (.invalid c), data := { passChar t d with optopt := charVal c } }, question) =
        some (({ ret := question, nextchar := some t, optopt := some (charVal c),
                 diag := some (.invalid c), taken := if t = [] then 1 else 0 } : Taken).apply a
          (World.start argv d), question) := by
      by_cases ht : t = [] <;> simp [passChar, Taken.apply, ht, hd]
    simp only [Option.bind_eq_bind, Option.bind_some]
    rw [hinvalid]
    cases strchr optstring c with
    | none => rfl
    | some temp =>
      dsimp only
      split
      · rfl
      · cases a.longopts with
        | none => exact ordinary_eq hd hrest
        | some longopts =>
          dsimp only
          split
          · exact longAfterW_eq hd hrest
          · exact ordinary_eq hd hrest

theorem takeShort_isSome {text : Str} (htext : text ≠ []) :
    ∃ t, takeShort a mallocOk optstring printErrors text e next = some t := by
  unfold takeShort
  cases text with
  | nil => exact absurd rfl htext
  | cons c t =>
    dsimp only
    split
    · exact ⟨_, rfl⟩
    · split
      · exact ⟨_, rfl⟩
      · split
        · next longopts _ =>
          split
          · unfold takeAfterW
            split
            · exact takeLong_isSome nofun
            · split
              · next arg next =>
                obtain ⟨t', ht'⟩ := @takeLong_isSome mallocOk optstring printErrors false
                  (chars "-W ") longopts arg.1 arg next nofun
                rw [ht']
                exact ⟨_, rfl⟩
              · exact ⟨_, rfl⟩
          · exact ⟨_, rfl⟩
        · exact ⟨_, rfl⟩

/-- An option element has a character behind its dash. -/
theorem tail_ne_nil {e : CString} (he : isNonoption e = false) : e.1 ≠ [] ∧ e.1.tail ≠ [] := by
  unfold isNonoption at he
  rcases h : e.1 with _ | ⟨c, _ | ⟨c', t⟩⟩ <;> simp [h] at he ⊢

theorem optionElement_eq (hd : d.optarg = none) (hrest : Rest a (World.start argv d) (e :: next))
    (he : isNonoption e = false) (hm : ¬ MinusOne a optstring e next) :
    ∃ t, takeOption a mallocOk optstring printErrors e next = some t ∧
      optionElement a mallocOk optstring printErrors e (World.start argv d) =
        some (t.apply a (World.start argv d), t.ret) := by
  obtain ⟨hne, htail⟩ := tail_ne_nil he
  have hhead : argv[d.optind]? = some (some e) := hrest.head
  have hdata : ∀ text, Rest a (World.start argv { d with nextchar := some text }) (e :: next) :=
    fun text => ⟨hrest.argc, hrest.get⟩
  have hlong : ∀ pfx longopts text, processLongOption a mallocOk optstring printErrors a.longOnly
      pfx longopts (World.start argv { d with nextchar := some text }) =
      match takeLong mallocOk optstring printErrors a.longOnly pfx longopts text e next with
      | some t => some (t.apply a (World.start argv d), t.ret)
      | none => some (World.start argv { d with nextchar := some text }, -1) := by
    intro pfx longopts text
    rw [processLongOption_eq (w := World.start argv { d with nextchar := some text })
      ⟨hd, rfl, rfl, rfl⟩ rfl (hdata text) fun _ => hne]
    rfl
  obtain ⟨short, hshort⟩ := @takeShort_isSome a mallocOk optstring printErrors e next _ htail
  have hfall : ∀ nextchar, shortElement a mallocOk optstring printErrors
      (World.start argv { d with nextchar := nextchar }) =
      some (short.apply a (World.start argv d), short.ret) := by
    intro nextchar
    unfold shortElement
    simp only [hhead, Option.bind_eq_bind, Option.bind_some, if_neg hne]
    rw [shortOption_eq (d := { d with nextchar := some e.1.tail }) hd rfl (hdata _), hshort]
    rfl
  unfold optionElement longOption takeOption
  cases hlongopts : a.longopts with
  | none => exact ⟨short, hshort, hfall d.nextchar⟩
  | some longopts =>
    dsimp only
    by_cases hdash : e.1[1]? = some 45
    · obtain ⟨t, ht⟩ := @takeLong_isSome mallocOk optstring printErrors a.longOnly (chars "--")
        longopts (e.1.drop 2) e next fun _ => hdash
      rw [if_pos hdash, if_pos hdash, hlong, ht]
      exact ⟨t, rfl, rfl⟩
    · rw [if_neg hdash, if_neg hdash]
      by_cases hlooks : looksLong a optstring e
      · rw [if_pos hlooks, if_pos hlooks, hlong]
        cases ht : takeLong mallocOk optstring printErrors a.longOnly (chars "-") longopts
            (e.1.drop 1) e next with
        | none => exact ⟨short, hshort, hfall (some (e.1.drop 1))⟩
        | some t =>
          have hret : t.ret ≠ -1 := fun h => by
            obtain ⟨p, index, hfound⟩ := takeLong_minusOne ht h
            exact hm ⟨longopts, p, index, hlongopts, hdash, hlooks, hfound⟩
          exact ⟨t, rfl, by simp [hret]⟩
      · rw [if_neg hlooks, if_neg hlooks]
        exact ⟨short, hshort, hfall d.nextchar⟩

end Librecompat.Getopt
