/-
  What `process_long_option` does with a long option.

  `Does` says what a call leaves behind for each thing that the text may stand for: the value that
  it returns, `optarg`, `optopt`, `optind` and what it stores through `flag`. `processLongOption_iff`
  says that this is what the code does, so that neither the order of the table nor the messages nor
  the memory for them make a difference (`processLongOption_perm`).
-/
import Librecompat.Getopt.LongOrder

namespace Librecompat.Getopt

/-- What a call does, without its message and `*longind`. -/
structure Effect where
  code : Int
  data : GetoptData
  store : Option (Nat × Int)
  argv : List (Option CString)
  deriving DecidableEq

def effect (r : World × Int) : Effect :=
  { code := r.2, data := r.1.data, store := r.1.store, argv := r.1.argv }

/-- A long option is a name, or a name with a value behind `=`. -/
inductive Reads : Str → Str → Option Str → Prop
  | bare (name : Str) (hname : 61 ∉ name) : Reads name name none
  | valued (name value : Str) (hname : 61 ∉ name) : Reads (name ++ 61 :: value) name (some value)

/-- The argument that an option gets, and the index behind it: its value, or the next element of
    `argv` when it needs one, or nothing. -/
inductive Argument (a : Args) (w : World) (p : LongOption) :
    Option Str → Option Str → Nat → Prop
  | value (value : Str) (harg : p.hasArg ≠ 0) :
    Argument a w p (some value) (some value) (w.data.optind + 1)
  | next (arg : Option CString) (harg : p.hasArg = 1) (hargc : w.data.optind + 1 < a.argc)
      (hnext : w.argv[w.data.optind + 1]? = some arg) :
    Argument a w p none (arg.map (·.1)) (w.data.optind + 2)
  | absent (harg : p.hasArg ≠ 1) : Argument a w p none w.data.optarg (w.data.optind + 1)

/-- The element that `optind` stands at. -/
def ElementAt (w : World) (s : Str) : Prop :=
  ∃ e, w.argv[w.data.optind]? = some (some e) ∧ e.1 = s

/-- Behind its first dash an element has no second one, and the text starts with an option
    character. -/
def IsLetter (optstring text rest : Str) : Prop :=
  rest.head? ≠ some 45 ∧ (text.headD 0 = 0 ∨ text.headD 0 ∈ optstring)

/-- An option is taken: its value is stored where it says, or else returned. -/
def chosen (p : LongOption) (w : World) (d : GetoptData) : Effect :=
  match p.flag with
  | some flag => { code := 0, data := d, store := some (flag, p.val), argv := w.argv }
  | none =>
    { code := p.val, data := { d with optopt := p.val }, store := w.store, argv := w.argv }

/-- What `process_long_option` does when the text stands for what is given. -/
inductive Does (a : Args) (optstring : Str) (longOnly : Bool) (text : Str) (value : Option Str)
    (w : World) : LongMatch → Effect → Prop
  | taken (p : LongOption) (index optind : Nat) (optarg : Option Str)
      (harg : Argument a w p value optarg optind) :
    Does a optstring longOnly text value w (.found p index)
      (chosen p w { w.data with optarg := optarg, optind := optind, nextchar := none })
  /-- The option has a value that it does not allow. -/
  | unwanted (p : LongOption) (index : Nat) (hvalue : value ≠ none) (harg : p.hasArg = 0) :
    Does a optstring longOnly text value w (.found p index)
      { code := 63
        data := { w.data with optind := w.data.optind + 1, nextchar := none, optopt := p.val }
        store := w.store
        argv := w.argv }
  /-- There is no element for the argument that the option requires. -/
  | missing (p : LongOption) (index : Nat) (hvalue : value = none) (harg : p.hasArg = 1)
      (hargc : a.argc ≤ w.data.optind + 1) :
    Does a optstring longOnly text value w (.found p index)
      { code := if optstring.head? = some 58 then 58 else 63
        data := { w.data with optind := w.data.optind + 1, nextchar := none, optopt := p.val }
        store := w.store
        argv := w.argv }
  /-- The element is passed over, and no option is complained about. -/
  | ambiguous (names : Option (List Str)) :
    Does a optstring longOnly text value w (.ambiguous names)
      { code := 63
        data := { w.data with optind := w.data.optind + 1, nextchar := some [], optopt := 0 }
        store := w.store
        argv := w.argv }
  | unknown (h : longOnly = true →
      ∃ dash rest, ElementAt w (dash :: rest) ∧ ¬ IsLetter optstring text rest) :
    Does a optstring longOnly text value w .unknown
      { code := 63
        data := { w.data with optind := w.data.optind + 1, nextchar := none, optopt := 0 }
        store := w.store
        argv := w.argv }
  /-- The element is left to the short options. -/
  | letter (dash : UInt8) (rest : Str) (hlong : longOnly = true)
      (he : ElementAt w (dash :: rest)) (hletter : IsLetter optstring text rest) :
    Does a optstring longOnly text value w .unknown
      { code := -1, data := w.data, store := w.store, argv := w.argv }

variable {a : Args} {optstring pfx text name : Str} {value : Option Str} {w : World}
variable {longopts longopts' : List LongOption} {m m' : LongMatch} {e : Effect}
variable {longOnly printErrors mallocOk printErrors' mallocOk' : Bool}

/-! ## The text -/

/-- Every text is a name or a name and a value. -/
theorem exists_reads (text : Str) : ∃ name value, Reads text name value := by
  have hname : 61 ∉ text.takeWhile (· ≠ 61) := fun hmem => by
    simpa using List.mem_takeWhile_imp hmem
  have happ : text.takeWhile (· ≠ 61) ++ text.dropWhile (· ≠ 61) = text :=
    List.takeWhile_append_dropWhile
  cases hdrop : text.dropWhile (· ≠ 61) with
  | nil =>
    rw [hdrop, List.append_nil] at happ
    rw [happ] at hname
    exact ⟨text, none, .bare text hname⟩
  | cons c value =>
    have hc : c = 61 := by
      have hhead := List.head?_dropWhile_not (· ≠ (61 : UInt8)) text
      rw [hdrop] at hhead
      simpa using hhead
    subst hc
    rw [hdrop] at happ
    have hvalued := Reads.valued _ value hname
    rw [happ] at hvalued
    exact ⟨_, some value, hvalued⟩

/-- The name is what stands in front of the first `=`. -/
theorem Reads.split (h : Reads text name value) :
    text.takeWhile (· ≠ 61) = name ∧ text.dropWhile (· ≠ 61) = value.elim [] (61 :: ·) := by
  have hall : 61 ∉ name → ∀ c ∈ name, decide (c ≠ 61) = true :=
    fun hname c hc => decide_eq_true fun heq => hname (heq ▸ hc)
  cases h with
  | bare _ hname =>
    exact ⟨List.takeWhile_eq_self_iff.mpr (hall hname), List.dropWhile_eq_nil_iff.mpr (hall hname)⟩
  | valued _ value hname =>
    rw [List.takeWhile_append_of_pos (hall hname), List.dropWhile_append_of_pos (hall hname)]
    simp

/-! ## One match -/

theorem processLongOption_ambiguous {names : Option (List Str)}
    (hnext : w.data.nextchar = some text)
    (hm : matchLong longopts longOnly printErrors mallocOk (text.takeWhile (· ≠ 61)) =
      .ambiguous names) :
    (processLongOption a mallocOk optstring printErrors longOnly pfx longopts w).map effect =
        some e ↔ Does a optstring longOnly text value w (.ambiguous names) e := by
  unfold processLongOption
  rw [hnext, Option.bind_eq_bind, Option.bind_some]
  dsimp only
  rw [hm]
  constructor
  · intro h
    obtain rfl := Option.some.inj h
    exact .ambiguous names
  · intro h
    cases h
    rfl

/-- The test whether a text that no option has is an error. -/
theorem isError_iff {dash : UInt8} {rest : Str} :
    ((dash :: rest)[1]? = some 45 ∨ strchr optstring (text.headD 0) = none) ↔
      ¬ IsLetter optstring text rest := by
  have hhead : (dash :: rest)[1]? = rest.head? := by
    rw [List.getElem?_cons_succ, List.head?_eq_getElem?]
  rw [IsLetter, hhead, strchr_eq_none_iff, not_and_or, not_not, not_or]

/-- Without an element to look at there is no result. -/
theorem processLongOption_noElement (hnext : w.data.nextchar = some text)
    (hm : matchLong longopts longOnly printErrors mallocOk (text.takeWhile (· ≠ 61)) = .unknown)
    (hlong : longOnly = true) (hno : ∀ dash rest, ¬ ElementAt w (dash :: rest)) :
    processLongOption a mallocOk optstring printErrors longOnly pfx longopts w = none := by
  unfold processLongOption
  rw [hnext, Option.bind_eq_bind, Option.bind_some]
  dsimp only
  rw [hm]
  dsimp only
  rw [if_neg (not_not_intro hlong)]
  rcases ho : w.argv[w.data.optind]? with _ | _ | ⟨_ | ⟨dash, rest⟩, h0⟩
  · rfl
  · rfl
  · rfl
  · exact absurd ⟨_, ho, rfl⟩ (hno dash rest)

theorem processLongOption_element {dash : UInt8} {rest : Str} (hnext : w.data.nextchar = some text)
    (hm : matchLong longopts longOnly printErrors mallocOk (text.takeWhile (· ≠ 61)) = .unknown)
    (hlong : longOnly = true) (hat : ElementAt w (dash :: rest)) :
    (processLongOption a mallocOk optstring printErrors longOnly pfx longopts w).map effect =
        some e ↔ Does a optstring longOnly text value w .unknown e := by
  obtain ⟨⟨_, h0⟩, ho, rfl⟩ := hat
  have hsame : ∀ dash' rest', ElementAt w (dash' :: rest') → rest' = rest := by
    rintro dash' rest' ⟨elem, ho', hs⟩
    rw [ho, Option.some.injEq, Option.some.injEq] at ho'
    rw [← ho'] at hs
    exact (List.cons.inj hs).2.symm
  unfold processLongOption
  rw [hnext, Option.bind_eq_bind, Option.bind_some]
  dsimp only
  rw [hm]
  dsimp only
  rw [if_neg (not_not_intro hlong), ho]
  simp only [Option.bind_eq_bind, Option.bind_some, reduceCtorEq, if_false, decide_eq_true_eq]
  constructor
  · intro h
    by_cases hletter : IsLetter optstring text rest
    · rw [if_neg (not_not_intro hletter ∘ isError_iff.mp)] at h
      obtain rfl := Option.some.inj h
      exact .letter dash rest hlong ⟨_, ho, rfl⟩ hletter
    · rw [if_pos (isError_iff.mpr hletter)] at h
      obtain rfl := Option.some.inj h
      exact .unknown fun _ => ⟨dash, rest, ⟨_, ho, rfl⟩, hletter⟩
  · intro h
    cases h with
    | unknown h =>
      obtain ⟨dash', rest', hat, hletter⟩ := h hlong
      rw [hsame dash' rest' hat] at hletter
      rw [if_pos (isError_iff.mpr hletter)]
      rfl
    | letter dash' rest' _ hat hletter =>
      rw [hsame dash' rest' hat] at hletter
      rw [if_neg (not_not_intro hletter ∘ isError_iff.mp)]
      rfl

theorem processLongOption_unknown (hnext : w.data.nextchar = some text)
    (hm : matchLong longopts longOnly printErrors mallocOk (text.takeWhile (· ≠ 61)) = .unknown) :
    (processLongOption a mallocOk optstring printErrors longOnly pfx longopts w).map effect =
        some e ↔ Does a optstring longOnly text value w .unknown e := by
  by_cases hlong : longOnly = true
  · by_cases hat : ∃ dash rest, ElementAt w (dash :: rest)
    · obtain ⟨dash, rest, hat⟩ := hat
      exact processLongOption_element hnext hm hlong hat
    · have hno : ∀ dash rest, ¬ ElementAt w (dash :: rest) :=
        fun dash rest h => hat ⟨dash, rest, h⟩
      rw [processLongOption_noElement hnext hm hlong hno]
      refine ⟨fun h => (by cases h), fun h => ?_⟩
      cases h with
      | unknown h =>
        obtain ⟨dash, rest, h, _⟩ := h hlong
        exact absurd h (hno dash rest)
      | letter dash rest _ h => exact absurd h (hno dash rest)
  · unfold processLongOption
    rw [hnext, Option.bind_eq_bind, Option.bind_some]
    dsimp only
    rw [hm]
    dsimp only
    rw [if_pos hlong]
    constructor
    · intro h
      obtain rfl := Option.some.inj h
      exact .unknown fun ht => absurd ht hlong
    · intro h
      cases h with
      | unknown _ => rfl
      | letter _ _ ht => exact absurd ht hlong

theorem found_of_does {p : LongOption} {index : Nat} (hnext : w.data.nextchar = some text)
    (hdrop : text.dropWhile (· ≠ 61) = value.elim [] (61 :: ·))
    (hm : matchLong longopts longOnly printErrors mallocOk (text.takeWhile (· ≠ 61)) =
      .found p index)
    (h : Does a optstring longOnly text value w (.found p index) e) :
    (processLongOption a mallocOk optstring printErrors longOnly pfx longopts w).map effect =
      some e := by
  unfold processLongOption
  rw [hnext, Option.bind_eq_bind, Option.bind_some]
  dsimp only
  rw [hm, hdrop]
  dsimp only
  cases h with
  | taken _ _ optind optarg harg =>
    cases harg with
    | value value harg =>
      rw [Option.elim_some, if_pos (List.cons_ne_nil 61 value), if_pos harg, chosen]
      cases p.flag <;> rfl
    | next arg harg hargc hnextArg =>
      rw [Option.elim_none, if_neg (not_not_intro rfl), if_pos harg, if_pos hargc, hnextArg,
        Option.bind_eq_bind, Option.bind_some, chosen]
      cases p.flag <;> rfl
    | absent harg =>
      rw [Option.elim_none, if_neg (not_not_intro rfl), if_neg harg, chosen]
      cases p.flag <;> rfl
  | unwanted _ _ hvalue harg =>
    obtain ⟨value, rfl⟩ := Option.ne_none_iff_exists'.mp hvalue
    rw [Option.elim_some, if_pos (List.cons_ne_nil 61 value), if_neg (not_not_intro harg)]
    rfl
  | missing _ _ hvalue harg hargc =>
    subst hvalue
    rw [Option.elim_none, if_neg (not_not_intro rfl), if_pos harg, if_neg (Nat.not_lt.mpr hargc)]
    rfl

/-- An option has an effect unless its argument would have to be read outside of `argv`. -/
theorem exists_does (a : Args) (optstring : Str) (longOnly : Bool) (text : Str)
    (value : Option Str) (w : World) (p : LongOption) (index : Nat) :
    (∃ e, Does a optstring longOnly text value w (.found p index) e) ∨
      value = none ∧ p.hasArg = 1 ∧ w.data.optind + 1 < a.argc ∧
        w.argv[w.data.optind + 1]? = none := by
  cases value with
  | some value =>
    by_cases harg : p.hasArg = 0
    · exact .inl ⟨_, .unwanted p index nofun harg⟩
    · exact .inl ⟨_, .taken p index _ _ (.value value harg)⟩
  | none =>
    by_cases harg : p.hasArg = 1
    · by_cases hargc : w.data.optind + 1 < a.argc
      · cases hnextArg : w.argv[w.data.optind + 1]? with
        | none => exact .inr ⟨rfl, harg, hargc, rfl⟩
        | some arg => exact .inl ⟨_, .taken p index _ _ (.next arg harg hargc hnextArg)⟩
      · exact .inl ⟨_, .missing p index rfl harg (Nat.not_lt.mp hargc)⟩
    · exact .inl ⟨_, .taken p index _ _ (.absent harg)⟩

theorem processLongOption_found {p : LongOption} {index : Nat}
    (hnext : w.data.nextchar = some text)
    (hdrop : text.dropWhile (· ≠ 61) = value.elim [] (61 :: ·))
    (hm : matchLong longopts longOnly printErrors mallocOk (text.takeWhile (· ≠ 61)) =
      .found p index) :
    (processLongOption a mallocOk optstring printErrors longOnly pfx longopts w).map effect =
        some e ↔ Does a optstring longOnly text value w (.found p index) e := by
  refine ⟨fun h => ?_, found_of_does hnext hdrop hm⟩
  obtain ⟨e', he'⟩ | ⟨rfl, harg, hargc, hnone⟩ :=
    exists_does a optstring longOnly text value w p index
  · have hsome : (processLongOption a mallocOk optstring printErrors longOnly pfx longopts w).map
        effect = some e' := found_of_does hnext hdrop hm he'
    rw [h] at hsome
    exact Option.some.inj hsome ▸ he'
  · unfold processLongOption at h
    rw [hnext, Option.bind_eq_bind, Option.bind_some] at h
    dsimp only at h
    rw [hm, hdrop] at h
    dsimp only at h
    rw [Option.elim_none, if_neg (not_not_intro rfl), if_pos harg, if_pos hargc, hnone] at h
    cases h

/-! ## All matches -/

theorem processLongOption_does (hnext : w.data.nextchar = some text)
    (hdrop : text.dropWhile (· ≠ 61) = value.elim [] (61 :: ·)) :
    (processLongOption a mallocOk optstring printErrors longOnly pfx longopts w).map effect =
        some e ↔
      Does a optstring longOnly text value w
        (matchLong longopts longOnly printErrors mallocOk (text.takeWhile (· ≠ 61))) e := by
  cases hm : matchLong longopts longOnly printErrors mallocOk (text.takeWhile (· ≠ 61)) with
  | found p index => exact processLongOption_found hnext hdrop hm
  | ambiguous names => exact processLongOption_ambiguous hnext hm
  | unknown => exact processLongOption_unknown hnext hm

/-- Options that differ in name only have the same arguments. -/
theorem Argument.alike {p q : LongOption} {optarg : Option Str} {optind : Nat}
    (hasArg : p.hasArg = q.hasArg) (h : Argument a w p value optarg optind) :
    Argument a w q value optarg optind := by
  cases h with
  | value value harg => exact .value value (hasArg ▸ harg)
  | next arg harg hargc hnext => exact .next arg (hasArg ▸ harg) hargc hnext
  | absent harg => exact .absent (hasArg ▸ harg)

theorem Does.alike (hm : Alike m m') (h : Does a optstring longOnly text value w m e) :
    Does a optstring longOnly text value w m' e := by
  cases hm with
  | ambiguous names names' =>
    cases h with
    | ambiguous _ => exact .ambiguous names'
  | unknown => exact h
  | found p q index index' hasArg flag val =>
    cases h with
    | taken _ _ optind optarg harg =>
      have htaken : ∀ d, chosen p w d = chosen q w d := fun d => by rw [chosen, chosen, flag, val]
      rw [htaken]
      exact .taken q index' optind optarg (harg.alike hasArg)
    | unwanted _ _ hvalue harg =>
      rw [val]
      exact .unwanted q index' hvalue (hasArg ▸ harg)
    | missing _ _ hvalue harg hargc =>
      rw [val]
      exact .missing q index' hvalue (hasArg ▸ harg) hargc

/-- `process_long_option` does what the text stands for, whichever of the equivalent candidates is
    taken. -/
theorem processLongOption_iff (hnames : (longopts.map (·.name)).Nodup)
    (hnext : w.data.nextchar = some text) (hreads : Reads text name value) :
    (processLongOption a mallocOk optstring printErrors longOnly pfx longopts w).map effect =
        some e ↔
      ∃ m, Resolves longopts longOnly name m ∧ Does a optstring longOnly text value w m e := by
  obtain ⟨rfl, hdrop⟩ := hreads.split
  have hresolves : Resolves longopts longOnly (text.takeWhile (· ≠ 61))
      (matchLong longopts longOnly printErrors mallocOk (text.takeWhile (· ≠ 61))) :=
    matchLong_resolves hnames
  rw [processLongOption_does hnext hdrop]
  constructor
  · intro h
    exact ⟨_, hresolves, h⟩
  · rintro ⟨m, hm, h⟩
    exact h.alike (hm.alike hnames hresolves)

/-- With pairwise distinct names `process_long_option` does what its text stands for in the table:
    an exact match first, a complaint about two candidates that are not alike, or else any of the
    candidates. So neither the order of the table nor whether messages are printed nor whether
    `malloc` fails makes a difference. -/
theorem processLongOption_perm (a : Args) (optstring pfx : Str) (w : World)
    (printErrors mallocOk printErrors' mallocOk' : Bool)
    (hnames : (longopts.map (·.name)).Nodup) (hperm : longopts.Perm longopts') :
    (∀ text name value, w.data.nextchar = some text → Reads text name value →
      ∀ e, (processLongOption a mallocOk optstring printErrors longOnly pfx longopts w).map effect =
          some e ↔
        ∃ m, Resolves longopts longOnly name m ∧ Does a optstring longOnly text value w m e) ∧
      (processLongOption a mallocOk optstring printErrors longOnly pfx longopts w).map effect =
        (processLongOption a mallocOk' optstring printErrors' longOnly pfx longopts' w).map
          effect := by
  refine ⟨fun text name value hnext hreads e => processLongOption_iff hnames hnext hreads, ?_⟩
  have hnames' : (longopts'.map (·.name)).Nodup := (hperm.map _).nodup_iff.mp hnames
  cases hnext : w.data.nextchar with
  | none =>
    unfold processLongOption
    rw [hnext]
    rfl
  | some text =>
    obtain ⟨name, value, hreads⟩ := exists_reads text
    refine Option.ext fun e => ?_
    rw [processLongOption_iff hnames hnext hreads, processLongOption_iff hnames' hnext hreads]
    constructor
    · rintro ⟨m, hm, h⟩
      exact ⟨m, hm.perm hperm, h⟩
    · rintro ⟨m, hm, h⟩
      exact ⟨m, hm.perm hperm.symm, h⟩

def verboseOption : LongOption :=
  { name := ⟨chars "verbose", by decide⟩, hasArg := 2, flag := some 400, val := 118 }

def versionOption : LongOption :=
  { name := ⟨chars "version", by decide⟩, hasArg := 0, flag := none, val := 86 }

/-- A call with the text `text`. -/
def callWith (text : Str) : World :=
  { argv := []
    data := { optind := 1, opterr := true, optopt := 0, optarg := none, initialized := true,
              nextchar := some text, ordering := .permute, firstNonopt := 1, lastNonopt := 1 }
    diag := none
    longind := none
    store := none }

theorem zero_not_mem_nil : (0 : UInt8) ∉ [] := List.not_mem_nil

def twoLongOptions : Args :=
  { argc := 2, optstring := ⟨[], zero_not_mem_nil⟩, longopts := some [verboseOption, versionOption],
    longind := false, longOnly := false, posixlyCorrect := false, posixlyEnv := false }

/-- With either order of the table `--verb=3` stores the value of `verbose`, and `--ver` is
    ambiguous. -/
theorem processLongOption_perm_two :
    (processLongOption twoLongOptions false [] true false [] [versionOption, verboseOption]
        (callWith (chars "verb=3"))).map effect =
      some
        { code := 0
          data := { (callWith []).data with optind := 2, optarg := some (chars "3"),
                                            nextchar := none }
          store := some (400, 118)
          argv := [] } ∧
      (processLongOption twoLongOptions true [] true false [] [verboseOption, versionOption]
          (callWith (chars "ver"))).map effect =
        (processLongOption twoLongOptions false [] false false [] [versionOption, verboseOption]
          (callWith (chars "ver"))).map effect := by
  constructor
  · refine ((processLongOption_perm twoLongOptions [] [] (callWith (chars "verb=3")) true false
      true true (by decide) (List.Perm.swap verboseOption versionOption [])).1 _ _ _ rfl
        (.valued (chars "verb") (chars "3") (by decide)) _).mpr ?_
    refine ⟨.found verboseOption 1, .candidate _ _ (by decide) ?_ (by decide) (by decide),
      .taken _ _ _ _ (.value _ (by decide))⟩
    rintro ⟨p, hp, q, hq, hpname, hqname, hne, _⟩
    have hone : ∀ p ∈ [versionOption, verboseOption], chars "verb" <+: p.name.1 →
        p = verboseOption := by
      decide
    exact hne ((hone p hp hpname).trans (hone q hq hqname).symm)
  · exact (processLongOption_perm twoLongOptions [] [] (callWith (chars "ver")) true true false
      false (by decide) (List.Perm.swap _ _ _)).2

end Librecompat.Getopt
