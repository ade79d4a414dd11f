/-
  Printing an entry and reading the line back.

  `printLine` prints an entry as a line of netconfig(5): seven fields with blanks and tabs
  between them. What `strtok_r` makes of words with gaps between them are the words
  (`tokens_spaced`, `tokens_commas`), so the line denotes the entry it was printed from
  (`parseLine_printLine`), and with every allocation succeeding `parse_netconfig_line` builds
  that entry and `dup_entry` a second one beside it.
-/
import Librecompat.Netconfig.Succeeds

namespace Librecompat.Netconfig

open Librecompat.Lib

/-! ## Fields with gaps between them -/

/-- One or more blanks or tabs. -/
structure Gap where
  bytes : List UInt8
  ne : bytes ≠ []
  blank : ∀ c ∈ bytes, c ∈ chars " \t"

/-- The fields with `gap i` behind the `i`-th of them. -/
def spaced : List (List UInt8) → (Nat → Gap) → List UInt8
  | [], _ => []
  | [f], _ => f
  | f :: fs, gap => f ++ (gap 0).bytes ++ spaced fs fun i => gap (i + 1)

theorem tokens_spaced {fs : List (List UInt8)} (gap : Nat → Gap)
    (hfs : ∀ f ∈ fs, Word (chars " \t") f) : tokens (chars " \t") (spaced fs gap) = fs := by
  induction fs generalizing gap with
  | nil => rfl
  | cons f fs ih =>
    rw [List.forall_mem_cons] at hfs
    cases fs with
    | nil => exact tokens_word hfs.1
    | cons g fs =>
      obtain ⟨c, rest, hgap⟩ := List.exists_cons_of_ne_nil (gap 0).ne
      have hblank := (gap 0).blank
      rw [hgap, List.forall_mem_cons] at hblank
      rw [spaced, hgap, List.append_assoc, List.cons_append, tokens_word_cons hfs.1 hblank.1,
        tokens_gap hblank.2, ih _ hfs.2]
      exact List.cons_ne_nil g fs

theorem mem_spaced {fs : List (List UInt8)} {gap : Nat → Gap} {c : UInt8}
    (hc : c ∈ spaced fs gap) : c ∈ chars " \t" ∨ ∃ f ∈ fs, c ∈ f := by
  induction fs generalizing gap with
  | nil => exact absurd hc List.not_mem_nil
  | cons f fs ih =>
    cases fs with
    | nil => exact .inr ⟨f, List.mem_cons_self, hc⟩
    | cons g fs =>
      rw [spaced, List.mem_append, List.mem_append] at hc
      · rcases hc with (hc | hc) | hc
        · exact .inr ⟨f, List.mem_cons_self, hc⟩
        · exact .inl ((gap 0).blank c hc)
        · exact (ih hc).imp_right fun ⟨w, hw, hcw⟩ => ⟨w, List.mem_cons_of_mem f hw, hcw⟩
      · exact List.cons_ne_nil g fs

/-! ## Printing -/

/-- The names with commas between them. -/
def commas (names : List (List UInt8)) : List UInt8 := (chars ",").intercalate names

def printLookups (names : List (List UInt8)) : List UInt8 :=
  if names = [] then chars "-" else commas names

def printSemantics (semantics : Nat) : List UInt8 :=
  if semantics = NC_TPI_CLTS then chars "tpi_clts"
  else if semantics = NC_TPI_COTS then chars "tpi_cots"
  else if semantics = NC_TPI_COTS_ORD then chars "tpi_cots_ord"
  else chars "tpi_raw"

/-- How a flag set is printed: its letters in some order, or a dash. -/
inductive PrintFlags : Nat → List UInt8 → Prop where
  | none : PrintFlags NC_NOFLAG (chars "-")
  | visible : PrintFlags NC_VISIBLE (chars "v")
  | broadcast : PrintFlags NC_BROADCAST (chars "b")
  | both : PrintFlags (NC_VISIBLE ||| NC_BROADCAST) (chars "vb")
  | both' : PrintFlags (NC_VISIBLE ||| NC_BROADCAST) (chars "bv")

/-- The line of an entry, without the newline. -/
def printLine (e : Entry) (letters : List UInt8) (gap : Nat → Gap) : List UInt8 :=
  spaced [e.netid, printSemantics e.semantics, letters, e.protofmly, e.proto, e.device,
    printLookups e.lookups] gap

/-- What no field may contain: NUL, tab, LF, CR and blank. -/
def stops : List UInt8 := [0, 9, 10, 13, 32]

/-- The entries that can be printed. -/
structure Printable (e : Entry) : Prop where
  netid : Word stops e.netid
  semantics : e.semantics ∈ [NC_TPI_CLTS, NC_TPI_COTS, NC_TPI_COTS_ORD, NC_TPI_RAW]
  protofmly : Word stops e.protofmly
  proto : Word stops e.proto
  device : Word stops e.device
  lookups : ∀ v ∈ e.lookups, Word (44 :: stops) v
  notDash : e.lookups ≠ [chars "-"]

theorem parseSemantics_printSemantics {semantics : Nat}
    (h : semantics ∈ [NC_TPI_CLTS, NC_TPI_COTS, NC_TPI_COTS_ORD, NC_TPI_RAW]) :
    parseSemantics (printSemantics semantics) = some semantics ∧
      Word stops (printSemantics semantics) := by
  simp only [List.mem_cons, List.not_mem_nil, or_false] at h
  rcases h with rfl | rfl | rfl | rfl <;> exact ⟨by decide, by decide, by decide⟩

theorem PrintFlags.parseFlags {flag : Nat} {letters : List UInt8} (h : PrintFlags flag letters) :
    parseFlags letters = some flag ∧ Word stops letters := by
  cases h <;> exact ⟨by decide, by decide, by decide⟩

/-! ## The list of names -/

theorem commas_cons (v w : List UInt8) (vs : List (List UInt8)) :
    commas (v :: w :: vs) = v ++ 44 :: commas (w :: vs) := by
  rw [commas, List.intercalate_cons_cons, List.append_assoc]
  rfl

theorem tokens_commas {names : List (List UInt8)} (hnames : ∀ v ∈ names, Word (chars ",") v) :
    tokens (chars ",") (commas names) = names := by
  induction names with
  | nil => rfl
  | cons v names ih =>
    rw [List.forall_mem_cons] at hnames
    cases names with
    | nil => simpa [commas] using tokens_word hnames.1
    | cons w names =>
      rw [commas_cons, tokens_word_cons hnames.1 (by decide), ih hnames.2]

theorem mem_commas {names : List (List UInt8)} {c : UInt8} (hc : c ∈ commas names) :
    c ∈ chars "," ∨ ∃ v ∈ names, c ∈ v := by
  induction names with
  | nil => exact absurd hc List.not_mem_nil
  | cons v names ih =>
    cases names with
    | nil => exact .inr ⟨v, List.mem_cons_self, by simpa [commas] using hc⟩
    | cons w names =>
      rw [commas_cons, List.mem_append, List.mem_cons] at hc
      rcases hc with hc | rfl | hc
      · exact .inr ⟨v, List.mem_cons_self, hc⟩
      · exact .inl (by decide)
      · exact (ih hc).imp_right fun ⟨u, hu, hcu⟩ => ⟨u, List.mem_cons_of_mem v hu, hcu⟩

theorem commas_eq_dash {names : List (List UInt8)} (hnames : ∀ v ∈ names, Word (chars ",") v)
    (h : commas names = chars "-") : names = [chars "-"] := by
  rw [← tokens_commas hnames, h]
  decide

theorem commas_ne_nil {names : List (List UInt8)} (hnames : ∀ v ∈ names, Word (chars ",") v)
    (hne : names ≠ []) : commas names ≠ [] := by
  intro h
  rw [← tokens_commas hnames, h] at hne
  exact hne rfl

/-- The names come back, unless the only one is a dash. -/
theorem lookupNames_printLookups {names : List (List UInt8)}
    (hnames : ∀ v ∈ names, Word (chars ",") v) (hdash : names ≠ [chars "-"]) :
    lookupNames (printLookups names) = names := by
  unfold lookupNames printLookups
  by_cases h : names = []
  · rw [if_pos h, if_pos rfl, h]
  · rw [if_neg h, if_neg fun heq => hdash (commas_eq_dash hnames heq), tokens_commas hnames]

theorem Printable.wordLookups {e : Entry} (he : Printable e) :
    Word stops (printLookups e.lookups) := by
  unfold printLookups
  by_cases h : e.lookups = []
  · rw [if_pos h]
    exact ⟨by decide, by decide⟩
  · rw [if_neg h]
    refine ⟨commas_ne_nil (fun v hv => (he.lookups v hv).mono (by decide)) h, fun c hc => ?_⟩
    rcases mem_commas hc with hc | ⟨v, hv, hc⟩
    · rw [List.mem_singleton.mp hc]
      decide
    · exact fun hm => (he.lookups v hv).2 c hc (List.mem_cons_of_mem _ hm)

/-! ## Reading the line back -/

theorem mem_stops_of_mem_cut {c : UInt8} (h : c = 0 ∨ c = 10 ∨ c = 13) : c ∈ stops ∧
    c ∉ chars " \t" := by
  rcases h with rfl | rfl | rfl <;> decide

theorem cutLine_append {line : List UInt8} (h : ∀ c ∈ line, ¬ (c = 0 ∨ c = 10 ∨ c = 13))
    {c : UInt8} (hc : c = 0 ∨ c = 10) (rest : List UInt8) :
    cutLine (line ++ c :: rest) = line := by
  have hline : ∀ d ∈ line, d ≠ 0 ∧ d ≠ 10 ∧ d ≠ 13 := fun d hd => by
    have := h d hd
    simp only [not_or] at this
    exact this
  unfold cutLine cstr
  rw [List.takeWhile_append_of_pos fun d hd => decide_eq_true (hline d hd).1]
  rw [List.takeWhile_append_of_pos fun d hd => by simp [(hline d hd).2]]
  rcases hc with rfl | rfl <;> simp

/-- A printed line denotes the entry it was printed from. -/
theorem parseLine_printLine {e : Entry} (he : Printable e) {letters : List UInt8}
    (hletters : PrintFlags e.flag letters) (gap : Nat → Gap) {c : UInt8} (hc : c = 0 ∨ c = 10)
    (rest : List UInt8) : parseLine (printLine e letters gap ++ c :: rest) = some e := by
  obtain ⟨hsem, hsemWord⟩ := parseSemantics_printSemantics he.semantics
  obtain ⟨hflag, hflagWord⟩ := hletters.parseFlags
  have hwords : ∀ f ∈ [e.netid, printSemantics e.semantics, letters, e.protofmly, e.proto,
      e.device, printLookups e.lookups], Word stops f := by
    simp only [List.forall_mem_cons, List.not_mem_nil, false_imp_iff, implies_true, and_true]
    exact ⟨he.netid, hsemWord, hflagWord, he.protofmly, he.proto, he.device, he.wordLookups⟩
  have hclean : ∀ d ∈ printLine e letters gap, ¬ (d = 0 ∨ d = 10 ∨ d = 13) := by
    intro d hd hstop
    obtain ⟨hmem, hnot⟩ := mem_stops_of_mem_cut hstop
    rcases mem_spaced hd with hd | ⟨f, hf, hd⟩
    · exact hnot hd
    · exact (hwords f hf).2 d hd hmem
  unfold parseLine
  rw [cutLine_append hclean hc, printLine,
    tokens_spaced gap fun f hf => (hwords f hf).mono (by decide)]
  simp only [hsem, hflag, lookupNames_printLookups
    (fun v hv => (he.lookups v hv).mono (by decide)) he.notDash]

/-- A line printed from an entry is parsed into an equal entry, and an entry is copied into an
    equal one that shares no block with it; the arrays of the names have a size that is a
    `size_t`, and no allocation fails. -/
theorem parseNetconfigLine_printLine (A : Allocator Obj) (hA : ∀ n, A.fails n = false) {e : Entry}
    (he : Printable e) (hsize : e.lookups.length ≤ maxLookups) :
    (∀ (m : Mem Obj) (letters : List UInt8) (gap : Nat → Gap) (newline : Bool)
      (rest : List UInt8), PrintFlags e.flag letters →
      ∃ m' out names,
        parseNetconfigLine A m (printLine e letters gap ++
          (if newline then [10, 0] else [0]) ++ rest) = some (m', out, true) ∧
        EntryAt m'.heap out e names ∧ Owned m.heap m'.heap (blocks out names)) ∧
    (∀ (m : Mem Obj) (source : Netconfig) (names : List Nat), EntryAt m.heap source e names →
      ∃ m' copy out names', dupEntry A m source = some (m', copy) ∧ copy ≠ 0 ∧
        m'.heap.get copy = some (.entries [some out]) ∧ EntryAt m'.heap out e names' ∧
        Owned m.heap m'.heap (copy :: blocks out names') ∧ EntryAt m'.heap source e names ∧
        ∀ a ∈ copy :: blocks out names', a ∉ blocks source names) := by
  constructor
  · intro m letters gap newline rest hletters
    obtain ⟨c, rest', hc, hrest⟩ : ∃ c rest', (c = 0 ∨ c = 10) ∧
        (if newline then [10, 0] else [0]) ++ rest = c :: rest' := by
      cases newline
      · exact ⟨0, rest, .inl rfl, rfl⟩
      · exact ⟨10, 0 :: rest, .inr rfl, rfl⟩
    rw [List.append_assoc, hrest]
    have hparse := parseLine_printLine he hletters gap hc rest'
    obtain ⟨m', out, ok, hp, hres⟩ :=
      parseNetconfigLine_spec A m (printLine e letters gap ++ c :: rest')
    obtain rfl := parseNetconfigLine_ok hA hparse hsize hp
    obtain ⟨_, v, names, hv, hat, ho⟩ := hres.resolve_right fun h => Bool.noConfusion h.1
    obtain rfl := Option.some.inj (hparse.symm.trans hv)
    exact ⟨m', out, names, hp, hat, ho⟩
  · intro m source names hat
    obtain ⟨m', copy, hd, hres⟩ := dupEntry_spec A hat
    have hcopy := dupEntry_ne hA hat (hat.strs.length_eq ▸ hsize) hd
    obtain ⟨_, out, names', hget, hat', ho⟩ := hres.resolve_left fun h => hcopy h.1
    refine ⟨m', copy, out, names', hd, hcopy, hget, hat', ho, hat.mono ho.extends, ?_⟩
    intro a ha hm
    obtain ⟨b, hb⟩ := hat.live a hm
    exact ho.not_mem hb ha

def blank : Gap := ⟨chars " ", by decide, by decide⟩

def udp : Entry :=
  { netid := chars "udp", semantics := NC_TPI_CLTS, flag := NC_VISIBLE, protofmly := chars "inet",
    proto := chars "udp", device := chars "-", lookups := [chars "switch", chars "tcpip"] }

/-- An entry with two libraries is parsed back from its line. -/
theorem parseNetconfigLine_printLine_udp :
    ∃ m' out names,
      parseNetconfigLine (Allocator.bump Obj fun _ => false) ⟨Heap.empty, 0⟩
        (chars "udp tpi_clts v inet udp - switch,tcpip" ++ [10, 0] ++ []) =
          some (m', out, true) ∧
      EntryAt m'.heap out udp names ∧ Owned Heap.empty m'.heap (blocks out names) := by
  have hudp : Printable udp := by
    refine ⟨⟨by decide, by decide⟩, by decide, ⟨by decide, by decide⟩, ⟨by decide, by decide⟩,
      ⟨by decide, by decide⟩, ?_, by decide⟩
    simp only [udp, List.forall_mem_cons, List.not_mem_nil, false_imp_iff, implies_true, and_true]
    exact ⟨⟨by decide, by decide⟩, by decide, by decide⟩
  exact (parseNetconfigLine_printLine (Allocator.bump Obj fun _ => false) (fun _ => rfl) hudp
    (by decide)).1 ⟨Heap.empty, 0⟩ (chars "v") (fun _ => blank) true [] .visible

end Librecompat.Netconfig
