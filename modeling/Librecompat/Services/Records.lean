/-
  Runs of `getservent_r`.

  A line is answered as the grammar says (`readLine_spec`): the next line is read when it is no
  record, and otherwise the call returns what the record says. So `n` calls give the first `n`
  records of the file, and -1 from then on, exactly when none of these records has `maxWords`
  aliases or more (`getservents_iff`).
-/
import Librecompat.Services.Aliases

namespace Librecompat.Services

open Librecompat.Lib

variable {A : Allocator Obj} (hA : ∀ n, A.fails n = false)

/-! ## The aliases of a line -/

/-- The state between two calls: the line buffer and the array are blocks of their own. -/
structure Idle (s : Proc) : Prop where
  line : s.sd.line ≠ 0 → ∃ bs, s.mem.heap.get s.sd.line = some (.bytes bs)
  array : s.sd.aliases ≠ 0 → CapOk s.sd.maxaliases ∧ ∃ cells,
    s.mem.heap.get s.sd.aliases = some (.slots cells) ∧ cells.length = s.sd.maxaliases

/-- What the code behind `again:` has to do for a line that says `r`. -/
def Answers (fp : Option (List (List UInt8))) :
    Option Service → Option (Proc × Outcome) → Prop
  | none, res => ∃ s', res = some (s', .again) ∧ Idle s' ∧ s'.sd.fp = fp
  | some r, res =>
    (r.aliases.length < maxWords → ∃ s' se, res = some (s', .entry se) ∧ Idle s' ∧
      s'.sd.fp = fp ∧ decode s'.mem se = some r) ∧
    (maxWords ≤ r.aliases.length → res = none)

variable {s : Proc} {bs : List UInt8}

include hA in
theorem ensureAliases_spec (hs : Idle s) (hline : s.mem.heap.get s.sd.line = some (.bytes bs)) :
    ∃ s', ensureAliases A s = some (s', true) ∧ Cells s' [] ∧
      s'.mem.heap.get s'.sd.line = some (.bytes bs) ∧ s'.sd.line = s.sd.line ∧
      s'.sd.fp = s.sd.fp := by
  unfold ensureAliases
  by_cases h0 : s.sd.aliases = 0
  · obtain ⟨m', a, hm, ha, hget, hkeep⟩ := malloc_frame hA s.mem
      (.slots (List.replicate 10 (some none)))
    rw [if_pos h0, hm]
    dsimp only
    rw [if_neg ha]
    refine ⟨_, rfl, ⟨ha, ⟨0, by omega, rfl⟩, Nat.succ_pos 9, _, hget, rfl⟩, hkeep _ _ hline, rfl, rfl⟩
  · obtain ⟨hcap, cells, hget, hlen⟩ := hs.array h0
    rw [if_neg h0]
    have hle := hcap.le
    exact ⟨s, rfl, ⟨h0, hcap, by rw [List.length_nil]; omega, cells, hget,
      by rw [List.length_nil, hlen, Nat.zero_add]⟩, hline, rfl, rfl⟩

theorem untilNull_append (ps : List CharPtr) (cells : List (Option (Option CharPtr))) :
    untilNull (ps.map (fun p => some (some p)) ++ some none :: cells) = some ps := by
  induction ps with
  | nil => rfl
  | cons p ps ih => simp [untilNull, ih]

/-- `*q = NULL`, and what the array says then. -/
theorem endAliases_spec {off : Nat} {ps : List CharPtr} {ws : List (List UInt8)}
    (t : Taken s bs off ps ws) :
    ∃ m', setSlot s.mem s.sd.aliases ps.length none = some m' ∧ Idle { s with mem := m' } ∧
      m'.heap.get s.sd.line = some (.bytes bs) ∧
      ∃ cells, m'.heap.get s.sd.aliases = some (.slots cells) ∧ untilNull cells = some ps ∧
        ps.mapM (str m') = some ws := by
  obtain ⟨rest, hget, hlen⟩ := t.cells.get
  have hroom := t.cells.room
  cases rest with
  | nil =>
    rw [List.length_nil] at hlen
    omega
  | cons r rest =>
    obtain ⟨m', hset, hnew, hkeep⟩ := setSlot_ok none hget (i := ps.length) (by simp)
    have hcells : (ps.map (fun p => some (some p)) ++ r :: rest).set ps.length (some none) =
        ps.map (fun p => some (some p)) ++ some none :: rest := by
      rw [List.set_append_right _ _ (by rw [List.length_map]), List.length_map, Nat.sub_self]
      rfl
    rw [hcells] at hnew
    have hline := (hkeep _ (t.cells.ne_line t.line).symm).trans t.line
    refine ⟨m', hset, ⟨fun _ => ⟨bs, hline⟩, fun _ => ⟨t.cells.cap, _, hnew, ?_⟩⟩, hline, _, hnew,
      untilNull_append ps rest, ?_⟩
    · rw [List.length_append, List.length_map]
      exact hlen
    · have hwords := t.words
      clear hget hlen hroom hset hnew hkeep hcells t
      induction hwords with
      | nil => rfl
      | cons hw _ ih =>
        have hstr := str_of_strIn (p := _) (hw.1 ▸ hline) hw.2.2
        rw [List.mapM_cons, hstr, ih]
        rfl

/-- What follows the loop. -/
theorem entry_spec {line off : Nat} {ps : List CharPtr} {name proto : List UInt8}
    {ws : List (List UInt8)} (port : UInt16) (t : Taken s bs bs.length ps ws)
    (hname : StrIn bs 0 name) (hproto : StrIn bs off proto) (hline : s.sd.line = line) :
    ∃ s' se, ((setSlot s.mem s.sd.aliases ps.length none).bind fun mem =>
        some ({ s with mem := mem }, Outcome.entry
          { sName := ⟨line, 0⟩, sAliases := s.sd.aliases, sPort := port,
            sProto := ⟨line, off⟩ })) = some (s', .entry se) ∧
      Idle s' ∧ s'.sd.fp = s.sd.fp ∧
      decode s'.mem se = some { name := name, port := port, proto := proto, aliases := ws } := by
  obtain ⟨m', hset, hidle, hget, cells, hcells, huntil, hmap⟩ := endAliases_spec t
  rw [hset, Option.bind_some]
  refine ⟨_, _, rfl, hidle, rfl, ?_⟩
  unfold decode
  rw [← hline, str_of_strIn (p := ⟨s.sd.line, 0⟩) hget hname,
    str_of_strIn (p := ⟨s.sd.line, off⟩) hget hproto]
  simp only [hcells, huntil, hmap, Option.bind_eq_bind, Option.bind_some]

include hA in
/-- The protocol is cut off and the aliases are collected. -/
theorem readAliases_spec (hs : Idle s) (hline : s.mem.heap.get s.sd.line = some (.bytes bs))
    {name tail : List UInt8} {off : Nat} (hname : StrIn bs 0 name) (hoff : name.length < off)
    (htail : StrIn bs off tail) (port : UInt16) :
    Answers s.sd.fp
      (some { name := name, port := port, proto := tail.takeWhile (· ∉ chars " \t"),
              aliases := tokens (chars " \t") (tail.dropWhile (· ∉ chars " \t")) })
      (readAliases A ⟨s.sd.line, 0⟩ ⟨s.sd.line, off⟩ port s) := by
  obtain ⟨s₁, h₁, c₁, hline₁, heq₁, hfp₁⟩ := ensureAliases_spec hA hs hline
  have t₁ : Taken s₁ bs off [] [] := ⟨hline₁, c₁, .nil⟩
  have hproto : str s₁.mem ⟨s.sd.line, off⟩ = some tail := by
    rw [← heq₁]
    exact str_of_strIn (p := ⟨s₁.sd.line, off⟩) hline₁ htail
  unfold readAliases
  rw [h₁, Option.bind_eq_bind, Option.bind_some]
  simp only [Bool.not_true, Bool.false_eq_true, if_false, hproto, Option.bind_eq_bind,
    Option.bind_some]
  obtain ⟨hnil, hall⟩ | ⟨u, d, v, rfl, hu, hd, hbrk⟩ := strpbrk_cases (chars " \t") tail
  · have htake : tail.takeWhile (· ∉ chars " \t") = tail :=
      List.takeWhile_eq_self_iff.mpr fun c hc => decide_eq_true (hall c hc)
    have hdrop : tail.dropWhile (· ∉ chars " \t") = [] :=
      List.dropWhile_eq_nil_iff.mpr fun c hc => decide_eq_true (hall c hc)
    rw [hnil, htake, hdrop]
    dsimp only [Option.bind_some]
    rw [aliasLoop, Option.bind_some]
    rw [← hfp₁]
    exact ⟨fun _ => entry_spec port (t₁.mono (by have := htail.lt_length; omega)) hname htail heq₁,
      fun hge => absurd (show maxWords ≤ 0 from hge) (by decide)⟩
  · have hlt := htail.lt_length
    rw [List.length_append] at hlt
    obtain ⟨m₂, h₂, c₂, hline₂⟩ := setNul_cells (i := off + u.length) c₁ hline₁ (by omega)
    have t₂ : Taken { s₁ with mem := m₂ } (bs.set (off + u.length) 0) (off + u.length + 1) [] [] :=
      ⟨hline₂, c₂, .nil⟩
    obtain ⟨hreads, hnone⟩ := aliasLoop_spec hA ((u ++ d :: v).length + 2) t₂ htail.cut.2
      (by simp; omega)
    rw [List.nil_append] at hreads hnone
    rw [hbrk, takeWhile_stop hu hd, dropWhile_stop hu hd, tokens_skip hd]
    dsimp only [CharPtr.add]
    rw [← heq₁, h₂, Option.map_some, Option.bind_some, ← Nat.add_assoc]
    constructor
    · intro hfew
      obtain ⟨s₃, bs₃, ps, h₃, t₃, hk, heq₃, hfp₃⟩ := hreads hfew
      rw [List.length_nil] at h₃
      rw [h₃, Option.bind_some]
      dsimp only
      rw [← hfp₁, ← hfp₃]
      exact entry_spec port t₃ (hk _ _ (by omega) (hname.keep (by omega)))
        (hk _ _ (by omega) htail.cut.1) heq₃
    · intro hmany
      have h₃ := hnone hmany
      rw [List.length_nil] at h₃
      rw [h₃]
      rfl

/-! ## One line -/

theorem setNul_idle (hs : Idle s) (hline : s.mem.heap.get s.sd.line = some (.bytes bs)) {i : Nat}
    (hlt : i < bs.length) :
    ∃ m', setNul s.mem ⟨s.sd.line, i⟩ = some m' ∧ Idle { s with mem := m' } ∧
      m'.heap.get s.sd.line = some (.bytes (bs.set i 0)) := by
  obtain ⟨m', hset, hnew, hkeep⟩ := setNul_ok (p := ⟨s.sd.line, i⟩) hline hlt
  refine ⟨m', hset, ⟨fun _ => ⟨_, hnew⟩, fun ha => ?_⟩, hnew⟩
  obtain ⟨hcap, cells, hget, hlen⟩ := hs.array ha
  have hne : s.sd.aliases ≠ s.sd.line := fun heq => by
    rw [heq, hline] at hget
    cases hget
  exact ⟨hcap, cells, (hkeep _ hne).trans hget, hlen⟩

/-- The check of the port. -/
theorem portOf_eq (word : List UInt8) : portOf word =
    if (strtol word).2 = 0 ∨ (strtol word).2 ≠ word.length ∨ (strtol word).1 < 0 ∨
      (strtol word).1 > USHRT_MAX then none else some (UInt16.ofInt (strtol word).1) := by
  have hnil : word = [] ↔ word.length = 0 := List.length_eq_zero_iff.symm
  unfold portOf
  dsimp only
  split
  · next h =>
    rw [if_neg]
    have := mt hnil.mpr h.1
    omega
  · next h =>
    rw [if_pos]
    by_contra hcon
    simp only [not_or] at hcon
    exact h ⟨fun heq => by have := hnil.mp heq; omega, by omega, by omega, by omega⟩

include hA in
theorem readFields_spec (hs : Idle s) (hline : s.mem.heap.get s.sd.line = some (.bytes bs))
    {text : List UInt8} (htext : StrIn bs 0 text) :
    Answers s.sd.fp (recordOf text) (readFields A ⟨s.sd.line, 0⟩ s) := by
  unfold readFields recordOf
  rw [str_of_strIn (p := ⟨s.sd.line, 0⟩) hline htext]
  simp only [Option.bind_eq_bind, Option.bind_some]
  obtain ⟨hnil, hall⟩ | ⟨name, d, v, rfl, hname, hd, hbrk⟩ := strpbrk_cases (chars " \t") text
  · rw [hnil, cutAt_none hall]
    exact ⟨s, rfl, hs, rfl⟩
  · have hlt := htext.lt_length
    rw [List.length_append, List.length_cons] at hlt
    obtain ⟨m₁, h₁, hs₁, hline₁⟩ := setNul_idle hs hline (i := 0 + name.length) (by omega)
    obtain ⟨hn₁, hv⟩ := htext.cut
    rw [hbrk, cutAt_append hname hd]
    simp only [CharPtr.add, Option.bind_some, h₁]
    rw [← Nat.add_assoc, str_of_strIn (p := ⟨s.sd.line, 0 + name.length + 1⟩) hline₁ hv,
      Option.bind_some]
    -- the blanks before the port
    have hskip := List.takeWhile_append_dropWhile (p := (· ∈ chars " \t")) (l := v)
    rw [← hskip] at hv
    have hrest := hv.skip
    generalize hoff : 0 + name.length + 1 + (v.takeWhile (· ∈ chars " \t")).length = off at hrest
    have hadd : 0 + (name.length + 1 + (v.takeWhile (· ∈ chars " \t")).length) = off := by omega
    rw [hadd, str_of_strIn (p := ⟨s.sd.line, off⟩) hline₁ hrest, Option.bind_some]
    obtain ⟨hnil, hall⟩ | ⟨word, e, tail, hsplit, hword, he, hbrk⟩ :=
      strpbrk_cases (chars ",/") (v.dropWhile (· ∈ chars " \t"))
    · rw [hnil, cutAt_none hall]
      exact ⟨_, rfl, hs₁, rfl⟩
    · rw [hsplit] at hrest hbrk ⊢
      have hlt₁ := hrest.lt_length
      rw [List.length_append] at hlt₁
      obtain ⟨m₂, h₂, hs₂, hline₂⟩ := setNul_idle hs₁ hline₁ (i := off + word.length) (by omega)
      rw [hbrk, cutAt_append hword he, Option.bind_some]
      simp only [h₂, Option.bind_some, str_of_strIn (p := ⟨s.sd.line, off⟩) hline₂ hrest.cut.1,
        portOf_eq]
      split
      · exact ⟨_, rfl, hs₂, rfl⟩
      · exact readAliases_spec hA hs₂ hline₂ (hn₁.keep (by omega)) (by omega) hrest.cut.2 _

include hA in
/-- A line is answered as the grammar says. -/
theorem readLine_spec (hs : Idle s) {line w : List UInt8} (hnul : 0 ∉ line) (hw : 10 ∉ w)
    (hline : line = w ∧ w ≠ [] ∨ line = w ++ [10]) :
    Answers s.sd.fp (record line) (readLine A line s) := by
  unfold readLine record
  obtain ⟨htext, hempty⟩ | htext := lineText_eq hw hline
  · rw [htext, hempty]
    exact ⟨s, rfl, hs, rfl⟩
  · rw [htext]
    generalize htxt : text line = txt
    have hnul' : 0 ∉ txt := fun hm => hnul <| by
      rw [← htxt] at hm
      exact (List.takeWhile_prefix _).subset ((List.takeWhile_prefix _).subset hm)
    dsimp only
    generalize A.junk s.mem.calls = junk
    obtain ⟨bs, hbs⟩ : ∃ bs, s.sd.line ≠ 0 → s.mem.heap.get s.sd.line = some (.bytes bs) := by
      by_cases h0 : s.sd.line = 0
      · exact ⟨[], fun hne => absurd h0 hne⟩
      · obtain ⟨bs, hget⟩ := hs.line h0
        exact ⟨bs, fun _ => hget⟩
    obtain ⟨m', cp, hr, hcp, hnew, hkeep⟩ := realloc_frame hA
      (.bytes (resize junk (txt.length + 1) [])) (resizeBytes junk (txt.length + 1)) hbs
    obtain ⟨old, hold, hlen⟩ : ∃ old : List UInt8, m'.heap.get cp = some (.bytes old) ∧
        old.length = (txt ++ [0]).length := by
      rw [List.length_append, List.length_singleton]
      split at hnew
      · exact ⟨_, hnew, length_resize ..⟩
      · exact ⟨_, hnew, length_resize ..⟩
    have hwrite : writeAt old 0 (txt ++ [0]) = some (txt ++ [0]) := by
      have h := writeAt_append (a := []) (c := []) hlen
      rwa [List.nil_append, List.append_nil, List.nil_append, List.append_nil] at h
    rw [hr, Option.bind_eq_bind, Option.bind_some]
    simp only [if_neg hcp, memcpy, hold, hwrite, Option.bind_some, store_live hold,
      Option.bind_eq_bind]
    refine readFields_spec hA (s := ⟨_, { s.sd with line := cp }⟩) 
      ⟨fun _ => ⟨txt ++ [0], Heap.get_set_self _ _ _⟩, fun ha => ?_⟩
      (Heap.get_set_self _ _ _) (StrIn.start hnul')
    obtain ⟨hcap, cells, hget, hlen'⟩ := hs.array ha
    have hne : s.sd.aliases ≠ s.sd.line := fun heq => by
      have hl := heq ▸ ha
      rw [heq, hbs hl] at hget
      cases hget
    have hget' := hkeep _ _ hne hget
    have hcells : s.sd.aliases ≠ cp := fun heq => by
      rw [heq, hold] at hget'
      cases hget'
    exact ⟨hcap, cells, (Heap.get_set_ne _ _ hcells).trans hget', hlen'⟩

/-! ## Runs -/

/-- The lines that are still to be read. -/
structure Rest (lines : List (List UInt8)) : Prop where
  nul : ∀ line ∈ lines, 0 ∉ line
  ends : ∀ line ∈ lines, ∃ w, 10 ∉ w ∧ (line = w ∧ w ≠ [] ∨ line = w ++ [10])

theorem Rest.tail {line : List UInt8} {lines : List (List UInt8)} (h : Rest (line :: lines)) :
    Rest lines :=
  ⟨fun l hl => h.nul l (List.mem_cons_of_mem _ hl), fun l hl => h.ends l (List.mem_cons_of_mem _ hl)⟩

theorem Rest.start {file : List UInt8} (hfile : 0 ∉ file) : Rest (fgetlnLines file) :=
  ⟨fun _ hl hm => hfile ((mem_fgetlnLines hl).1 hm), fun _ hl => (mem_fgetlnLines hl).2⟩

include hA in
/-- One call: the first record of the lines that are left, or -1 at their end. -/
theorem readLines_spec {lines : List (List UInt8)} : ∀ {s : Proc}, Idle s → Rest lines →
    (lines.filterMap record = [] ∧ ∃ s', readLines A lines s = some (s', none) ∧ Idle s' ∧
      s'.sd.fp = some []) ∨
    ∃ r rest, lines.filterMap record = r :: rest.filterMap record ∧ Rest rest ∧
      (r.aliases.length < maxWords → ∃ s' se, readLines A lines s = some (s', some se) ∧
        Idle s' ∧ s'.sd.fp = some rest ∧ decode s'.mem se = some r) ∧
      (maxWords ≤ r.aliases.length → readLines A lines s = none) := by
  induction lines with
  | nil => exact fun hs _ => .inl ⟨rfl, _, rfl, ⟨hs.line, hs.array⟩, rfl⟩
  | cons line lines ih =>
    intro s hs hrest
    obtain ⟨w, hw, hline⟩ := hrest.ends line List.mem_cons_self
    have hans := readLine_spec hA (s := { s with sd := { s.sd with fp := some lines } })
      ⟨hs.line, hs.array⟩ (hrest.nul line List.mem_cons_self) hw hline
    unfold readLines
    rw [List.filterMap_cons]
    cases hrec : record line with
    | none =>
      rw [hrec] at hans
      obtain ⟨s₁, h₁, hs₁, _⟩ := hans
      rw [h₁]
      exact ih hs₁ hrest.tail
    | some r =>
      rw [hrec] at hans
      refine .inr ⟨r, lines, rfl, hrest.tail, fun hfew => ?_, fun hmany => ?_⟩
      · obtain ⟨s₁, se, h₁, hs₁, hfp₁, hdec⟩ := hans.1 hfew
        rw [h₁]
        exact ⟨s₁, se, rfl, hs₁, hfp₁, hdec⟩
      · rw [hans.2 hmany]
        rfl

/-- The first `n` of `rs`, and -1 when there are no more. -/
def answers (rs : List Service) (n : Nat) : List (Option Service) :=
  (rs.take n).map some ++ List.replicate (n - rs.length) none

include hA in
/-- The induction is on the calls; `lines` are those that the file still has. -/
theorem getservents_spec {file : List UInt8} (n : Nat) : ∀ {s : Proc} {lines : List (List UInt8)},
    Idle s → Rest lines → (∀ s', getserventR A (some file) s = some s' ↔
      readLines A lines s = some s') →
    ((∀ r ∈ (lines.filterMap record).take n, r.aliases.length < maxWords) →
      ∃ s', getservents A (some file) n s = some (s', answers (lines.filterMap record) n)) ∧
    ((∃ r ∈ (lines.filterMap record).take n, maxWords ≤ r.aliases.length) →
      getservents A (some file) n s = none) := by
  induction n with
  | zero =>
    intro s lines _ _ _
    refine ⟨fun _ => ⟨s, ?_⟩, fun ⟨r, hr, _⟩ => absurd hr List.not_mem_nil⟩
    simp [getservents, answers]
  | succ n ih =>
    intro s lines hs hrest hopen
    have heq : getserventR A (some file) s = readLines A lines s := Option.ext hopen
    unfold getservents
    rw [heq]
    have hnext : ∀ {s' : Proc} {rest : List (List UInt8)}, s'.sd.fp = some rest →
        ∀ t, getserventR A (some file) s' = some t ↔ readLines A rest s' = some t :=
      fun {s' rest} hfp t => by rw [getserventR, hfp]
    obtain ⟨hnil, s₁, h₁, hs₁, hfp₁⟩ | ⟨r, rest, hrecs, hrest', hfew, hmany⟩ :=
      readLines_spec hA hs hrest
    · obtain ⟨hsome, _⟩ := @ih s₁ [] hs₁ ⟨fun _ h => absurd h List.not_mem_nil,
        fun _ h => absurd h List.not_mem_nil⟩ (hnext hfp₁)
      rw [hnil, h₁]
      refine ⟨fun _ => ?_, fun ⟨r, hr, _⟩ => absurd hr (by simp)⟩
      obtain ⟨s', h'⟩ := hsome (by simp)
      refine ⟨s', ?_⟩
      simp only [Option.bind_eq_bind, Option.bind_some, h']
      simp [answers, List.replicate_succ]
    · rw [hrecs, List.take_succ_cons, List.forall_mem_cons, List.exists_mem_cons_iff]
      by_cases hr : r.aliases.length < maxWords
      · obtain ⟨s₁, se, h₁, hs₁, hfp₁, hdec⟩ := hfew hr
        obtain ⟨hsome, hnone⟩ := ih hs₁ hrest' (hnext hfp₁)
        rw [h₁]
        simp only [Option.bind_eq_bind, Option.bind_some, hdec, Option.map_some]
        constructor
        · rintro ⟨_, hall⟩
          obtain ⟨s', h'⟩ := hsome hall
          exact ⟨s', by rw [h']; simp [answers]⟩
        · rintro (hge | hex)
          · omega
          · rw [hnone hex]
            rfl
      · rw [hmany (by omega)]
        exact ⟨fun h => absurd h.1 hr, fun _ => rfl⟩

/-- `n` calls from a zeroed state give the first `n` records of the file, and -1 behind the last
    one, without going wrong. -/
def ReadsRecords (A : Allocator Obj) (file : List UInt8) (n : Nat) (m : Mem Obj) : Prop :=
  ∃ s, getservents A (some file) n ⟨m, ServentData.zero⟩ = some (s, answers (records file) n)

include hA in
theorem getservents_start {file : List UInt8} (hfile : 0 ∉ file) (m : Mem Obj) (n : Nat) :
    ((∀ r ∈ (records file).take n, r.aliases.length < maxWords) → ReadsRecords A file n m) ∧
    ((∃ r ∈ (records file).take n, maxWords ≤ r.aliases.length) →
      getservents A (some file) n ⟨m, ServentData.zero⟩ = none) :=
  getservents_spec hA n ⟨fun h => absurd rfl h, fun h => absurd rfl h⟩ (Rest.start hfile)
    fun _ => Iff.rfl

include hA in
/-- The calls read the file as the grammar says exactly when the array for the aliases of the
    records that they read has a capacity that is an `int`. -/
theorem getservents_iff {file : List UInt8} (hfile : 0 ∉ file) (m : Mem Obj) (n : Nat) :
    ReadsRecords A file n m ↔ ∀ r ∈ (records file).take n, r.aliases.length < maxWords := by
  obtain ⟨hfew, hmany⟩ := getservents_start hA hfile m n
  refine ⟨fun ⟨s, h⟩ r hr => ?_, hfew⟩
  by_contra hge
  rw [hmany ⟨r, hr, Nat.not_lt.mp hge⟩] at h
  cases h

/-- Three calls on a file with two records, one of them with aliases. -/
theorem getservents_iff_ssh :
    ReadsRecords (Allocator.bump Obj fun _ => false)
      (chars "http 80/tcp www www-http # web\n# none\nssh 22/tcp\n") 3
      ⟨Heap.empty, 0⟩ :=
  (getservents_iff (fun _ => rfl) (by decide) _ 3).mpr (by decide)

/-! ## A line with too many aliases -/

/-- `n` times a blank and a `z`. -/
def many : Nat → List UInt8
  | 0 => []
  | n + 1 => 32 :: 122 :: many n

/-- A line with `n + 1` aliases. -/
def crowded (n : Nat) : List UInt8 := chars "x 1/y z" ++ many n

theorem mem_many {n : Nat} {c : UInt8} (h : c ∈ many n) : c = 32 ∨ c = 122 := by
  induction n with
  | zero => exact absurd h List.not_mem_nil
  | succ n ih =>
    rcases List.mem_cons.mp h with rfl | h
    · exact .inl rfl
    · rcases List.mem_cons.mp h with rfl | h
      · exact .inr rfl
      · exact ih h

theorem not_mem_crowded {c : UInt8} (h : c ∉ chars "x 1/y z") (n : Nat) : c ∉ crowded n := by
  intro hm
  rcases List.mem_append.mp hm with hm | hm
  · exact h hm
  · rcases mem_many hm with rfl | rfl
    · exact h (by decide)
    · exact h (by decide)

theorem tokens_many (n : Nat) :
    tokens (chars " \t") (122 :: many n) = List.replicate (n + 1) (chars "z") := by
  induction n with
  | zero => decide
  | succ n ih =>
    have h := @tokens_word_cons (chars " \t") (chars "z") 32 ⟨by decide, by decide⟩
      (by decide) (122 :: many n)
    rw [ih] at h
    exact h

theorem fgetlnLines_single {line : List UInt8} (h : 10 ∉ line) (hne : line ≠ []) :
    fgetlnLines line = [line] := by
  induction line with
  | nil => exact absurd rfl hne
  | cons c line ih =>
    rw [List.mem_cons, not_or] at h
    unfold fgetlnLines
    rw [if_neg (Ne.symm h.1)]
    cases line with
    | nil => rfl
    | cons d line => rw [ih h.2 (List.cons_ne_nil d line)]

theorem records_crowded (n : Nat) : records (crowded n) =
    [{ name := chars "x", port := htons 1, proto := chars "y",
       aliases := List.replicate (n + 1) (chars "z") }] := by
  have htext : text (crowded n) = crowded n := by
    unfold text
    rw [takeWhile_ne_self (not_mem_crowded (by decide) n),
      takeWhile_ne_self (not_mem_crowded (by decide) n)]
  have hname : cutAt (chars " \t") (crowded n) = some (chars "x", chars "1/y z" ++ many n) :=
    cutAt_append (u := chars "x") (by decide) (by decide) _
  have hblank : (chars "1/y z" ++ many n).dropWhile (· ∈ chars " \t") =
      chars "1/y z" ++ many n := rfl
  have hport : cutAt (chars ",/") (chars "1/y z" ++ many n) =
      some (chars "1", chars "y z" ++ many n) :=
    cutAt_append (u := chars "1") (by decide) (by decide) _
  have hone : portOf (chars "1") = some 1 := by decide
  have hproto : (chars "y z" ++ many n).takeWhile (· ∉ chars " \t") = chars "y" :=
    takeWhile_stop (u := chars "y") (c := 32) (by decide) (by decide) (122 :: many n)
  have haliases : (chars "y z" ++ many n).dropWhile (· ∉ chars " \t") = 32 :: 122 :: many n :=
    dropWhile_stop (u := chars "y") (c := 32) (by decide) (by decide) (122 :: many n)
  unfold records
  rw [fgetlnLines_single (not_mem_crowded (by decide) n) (List.cons_ne_nil _ _)]
  unfold record recordOf
  rw [List.filterMap_cons, List.filterMap_nil, htext, hname]
  simp only [Option.bind_eq_bind, Option.bind_some, hblank, hport, hone, hproto, haliases]
  rw [tokens_skip (by decide), tokens_many]

/-- A line with more than `maxWords` aliases is not read. -/
theorem crowded_overflows :
    ¬ ReadsRecords (Allocator.bump Obj fun _ => false) (crowded maxWords) 1 ⟨Heap.empty, 0⟩ := by
  intro ⟨s, h⟩
  have hmany := (getservents_start (A := Allocator.bump Obj fun _ => false) (fun _ => rfl)
    (not_mem_crowded (by decide) maxWords) ⟨Heap.empty, 0⟩ 1).2
  rw [hmany ⟨_, by rw [records_crowded]; exact List.mem_singleton_self _, ?_⟩] at h
  · cases h
  · dsimp only
    rw [List.length_replicate]
    exact Nat.le_succ maxWords

end Librecompat.Services
