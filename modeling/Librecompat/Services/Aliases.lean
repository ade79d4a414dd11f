/-
  The loop that collects the aliases of a line.

  `Taken s bs off ps ws` is its invariant: the cells in use point to the words `ws`, which end
  before offset `off` of the line buffer `bs`, and there is a cell left. The loop ends with the
  words of the whole text (`aliasLoop_spec`), unless there are `maxWords` of them: then the
  capacity, doubled from ten on, is no longer an `int`.
-/
import Librecompat.Services.Grammar

namespace Librecompat.Services

open Librecompat.Lib

/-! ## Memory -/

variable {m : Mem Obj} {bs : List UInt8}

theorem str_of_strIn {p : CharPtr} {v : List UInt8} (hb : m.heap.get p.block = some (.bytes bs))
    (hs : StrIn bs p.off v) : str m p = some v := by
  unfold str
  rw [hb]
  exact hs.read

theorem setNul_ok {p : CharPtr} (hb : m.heap.get p.block = some (.bytes bs))
    (hlt : p.off < bs.length) :
    ∃ m', setNul m p = some m' ∧ m'.heap.get p.block = some (.bytes (bs.set p.off 0)) ∧
      ∀ a, a ≠ p.block → m'.heap.get a = m.heap.get a := by
  unfold setNul
  rw [hb]
  dsimp only
  rw [if_pos hlt, store_live hb]
  exact ⟨_, rfl, Heap.get_set_self _ _ _, fun a ha => Heap.get_set_ne _ _ ha⟩

theorem setSlot_ok {array i : Nat} {cells : List (Option (Option CharPtr))} (p : Option CharPtr)
    (hb : m.heap.get array = some (.slots cells)) (hlt : i < cells.length) :
    ∃ m', setSlot m array i p = some m' ∧
      m'.heap.get array = some (.slots (cells.set i (some p))) ∧
      ∀ a, a ≠ array → m'.heap.get a = m.heap.get a := by
  unfold setSlot
  rw [hb]
  dsimp only
  rw [if_pos hlt, store_live hb]
  exact ⟨_, rfl, Heap.get_set_self _ _ _, fun a ha => Heap.get_set_ne _ _ ha⟩

variable {A : Allocator Obj} (hA : ∀ n, A.fails n = false)

include hA in
/-- `malloc` leaves the other blocks as they are. -/
theorem malloc_frame (m : Mem Obj) (b : Obj) :
    ∃ m' a, malloc A m b = (m', a) ∧ a ≠ 0 ∧ m'.heap.get a = some b ∧
      ∀ c o, m.heap.get c = some o → m'.heap.get c = some o := by
  obtain ⟨hf, _⟩ | ⟨_, a, ha, hnone, hm⟩ := malloc_cases A m b
  · rw [hA] at hf
    cases hf
  · refine ⟨_, a, hm, ha, Heap.get_set_self _ _ _, fun c o hc => ?_⟩
    have hne : c ≠ a := fun heq => by rw [heq, hnone] at hc; cases hc
    exact (Heap.get_set_ne _ _ hne).trans hc

include hA in
/-- `realloc` leaves the other blocks as they are. -/
theorem realloc_frame {p : Nat} (init : Obj) (resize : Obj → Obj) {b : Obj}
    (hb : p ≠ 0 → m.heap.get p = some b) :
    ∃ m' a, realloc A m p init resize = some (m', a) ∧ a ≠ 0 ∧
      m'.heap.get a = some (if p = 0 then init else resize b) ∧
      ∀ c o, c ≠ p → m.heap.get c = some o → m'.heap.get c = some o := by
  by_cases hp : p = 0
  · rw [hp, realloc_null, if_pos rfl]
    obtain ⟨m', a, hm, ha, hget, hkeep⟩ := malloc_frame hA m init
    exact ⟨m', a, congrArg some hm, ha, hget, fun c o _ => hkeep c o⟩
  · rw [if_neg hp]
    obtain ⟨hf, _⟩ | ⟨_, a, ha, hnone, hr⟩ := realloc_cases A init resize hp (hb hp)
    · rw [hA] at hf
      cases hf
    · refine ⟨_, a, hr, ha, Heap.get_set_self _ _ _, fun c o hcp hc => ?_⟩
      have hdel : (m.heap.del p).get c = some o := (Heap.get_del_ne _ hcp).trans hc
      have hne : c ≠ a := fun heq => by rw [heq, hnone] at hdel; cases hdel
      exact (Heap.get_set_ne _ _ hne).trans hdel

/-! ## The invariant -/

/-- The first number of aliases that is too large: with so many the capacity of the array, which
    includes the null pointer at the end, would be more than an `int` can hold. -/
def maxWords : Nat := 1342177280

/-- The capacities that the doubling goes through. -/
def CapOk (n : Nat) : Prop := ∃ k ≤ 27, n = 10 * 2 ^ k

theorem CapOk.le {n : Nat} (h : CapOk n) : 10 ≤ n ∧ n ≤ maxWords := by
  obtain ⟨k, hk, rfl⟩ := h
  have hpos := Nat.two_pow_pos k
  have hpow : 2 ^ k ≤ 2 ^ 27 := Nat.pow_le_pow_right (by omega) hk
  unfold maxWords
  omega

theorem CapOk.double {n : Nat} (h : CapOk n) (hlt : n < maxWords) :
    CapOk (n * 2) ∧ n * 2 ≤ INT_MAX := by
  obtain ⟨k, hk, rfl⟩ := h
  have hk' : k < 27 := by
    by_contra hge
    have hpow : 2 ^ 27 ≤ 2 ^ k := Nat.pow_le_pow_right (by omega) (by omega)
    unfold maxWords at hlt
    omega
  have hpow : 2 ^ k ≤ 2 ^ 26 := Nat.pow_le_pow_right (by omega) (by omega)
  refine ⟨⟨k + 1, hk', by rw [Nat.pow_succ]; omega⟩, ?_⟩
  unfold INT_MAX
  omega

/-- `p` points to the word `w` of the line buffer, which ends before offset `off`. -/
def WordAt (line : Nat) (bs : List UInt8) (off : Nat) (p : CharPtr) (w : List UInt8) : Prop :=
  p.block = line ∧ p.off + w.length < off ∧ StrIn bs p.off w

/-- The array holds `ps` and has a cell behind them. -/
structure Cells (s : Proc) (ps : List CharPtr) : Prop where
  ne : s.sd.aliases ≠ 0
  cap : CapOk s.sd.maxaliases
  room : ps.length < s.sd.maxaliases
  get : ∃ rest, s.mem.heap.get s.sd.aliases =
      some (.slots (ps.map (fun p => some (some p)) ++ rest)) ∧
    ps.length + rest.length = s.sd.maxaliases

structure Taken (s : Proc) (bs : List UInt8) (off : Nat) (ps : List CharPtr)
    (ws : List (List UInt8)) : Prop where
  line : s.mem.heap.get s.sd.line = some (.bytes bs)
  cells : Cells s ps
  words : List.Forall₂ (WordAt s.sd.line bs off) ps ws

/-- The strings of `bs` that end before `off` are in `bs'`. -/
def Kept (bs bs' : List UInt8) (off : Nat) : Prop :=
  ∀ o v, o + v.length < off → StrIn bs o v → StrIn bs' o v

theorem Kept.refl (bs : List UInt8) (off : Nat) : Kept bs bs off := fun _ _ _ h => h

theorem Kept.trans {bs bs' bs'' : List UInt8} {off off' : Nat} (hk : Kept bs bs' off)
    (hk' : Kept bs' bs'' off') (hle : off ≤ off') : Kept bs bs'' off :=
  fun o v hlt h => hk' o v (by omega) (hk o v hlt h)

theorem Kept.set (bs : List UInt8) {off i : Nat} (hi : off ≤ i) : Kept bs (bs.set i 0) off :=
  fun _ _ hlt h => h.keep (by omega)

theorem WordAt.mono {line off off' : Nat} {bs' : List UInt8} {p : CharPtr} {w : List UInt8}
    (h : WordAt line bs off p w) (hk : Kept bs bs' off) (hle : off ≤ off') :
    WordAt line bs' off' p w :=
  ⟨h.1, Nat.lt_of_lt_of_le h.2.1 hle, hk _ _ h.2.1 h.2.2⟩

theorem Taken.length_eq {s : Proc} {off : Nat} {ps : List CharPtr} {ws : List (List UInt8)}
    (t : Taken s bs off ps ws) : ps.length = ws.length := t.words.length_eq

/-- The array is not the line buffer. -/
theorem Cells.ne_line {s : Proc} {ps : List CharPtr} (c : Cells s ps)
    (hline : s.mem.heap.get s.sd.line = some (.bytes bs)) : s.sd.aliases ≠ s.sd.line := by
  intro heq
  obtain ⟨rest, hget, _⟩ := c.get
  rw [heq, hline] at hget
  cases hget

/-! ## One word -/

section Word

variable {s : Proc} {off : Nat} {ps : List CharPtr} {ws : List (List UInt8)}

include hA in
theorem growAliases_spec (t : Taken s bs off ps ws) :
    (s.sd.maxaliases < maxWords → ∃ s', growAliases A s = some (s', true) ∧
      Taken s' bs off ps ws ∧ ps.length + 1 < s'.sd.maxaliases ∧ s'.sd.line = s.sd.line ∧
      s'.sd.fp = s.sd.fp) ∧
    (maxWords ≤ s.sd.maxaliases → growAliases A s = none) := by
  obtain ⟨rest, hget, hlen⟩ := t.cells.get
  obtain ⟨m', a, hr, ha, hnew, hkeep⟩ := realloc_frame hA
    (.slots (resizeCells (s.sd.maxaliases * 2) [])) (resizeSlots (s.sd.maxaliases * 2))
    fun _ => hget
  have hle := t.cells.cap.le
  have hroom := t.cells.room
  unfold growAliases
  rw [hr]
  simp only [Option.bind_eq_bind, Option.bind_some, if_neg ha]
  constructor
  · intro hlt
    obtain ⟨hcap, hint⟩ := t.cells.cap.double hlt
    rw [if_neg (by omega)]
    refine ⟨_, rfl, ⟨hkeep _ _ (t.cells.ne_line t.line).symm t.line,
      ⟨ha, hcap, by dsimp only; omega, ?_⟩, t.words⟩, by dsimp only; omega, rfl, rfl⟩
    rw [if_neg t.cells.ne, resizeSlots, resizeCells_of_le (by simp; omega),
      List.append_assoc] at hnew
    refine ⟨_, hnew, ?_⟩
    simp only [List.length_append, List.length_replicate, List.length_map]
    omega
  · intro hge
    rw [if_pos]
    have : maxWords * 2 > INT_MAX := by decide
    omega

include hA in
/-- Room for one more word and the null pointer. -/
theorem room_spec (t : Taken s bs off ps ws) :
    (ws.length + 1 < maxWords → ∃ s',
      (if ps.length = s.sd.maxaliases - 1 then growAliases A s else some (s, true)) =
        some (s', true) ∧ Taken s' bs off ps ws ∧ ps.length + 1 < s'.sd.maxaliases ∧
      s'.sd.line = s.sd.line ∧ s'.sd.fp = s.sd.fp) ∧
    (maxWords ≤ ws.length + 1 →
      (if ps.length = s.sd.maxaliases - 1 then growAliases A s else some (s, true)) = none) := by
  have hle := t.cells.cap.le
  have hroom := t.cells.room
  have hlen := t.length_eq
  obtain ⟨hgrow, hnone⟩ := growAliases_spec hA t
  by_cases hfull : ps.length = s.sd.maxaliases - 1
  · rw [if_pos hfull]
    exact ⟨fun hlt => hgrow (by omega), fun hge => hnone (by omega)⟩
  · rw [if_neg hfull]
    exact ⟨fun _ => ⟨s, rfl, t, by omega, rfl, rfl⟩, fun hge => by omega⟩

/-- `*q++ = cp`. -/
theorem setSlot_cells (c : Cells s ps) (hline : s.mem.heap.get s.sd.line = some (.bytes bs))
    (hroom : ps.length + 1 < s.sd.maxaliases) (cp : CharPtr) :
    ∃ m', setSlot s.mem s.sd.aliases ps.length (some cp) = some m' ∧
      Cells { s with mem := m' } (ps ++ [cp]) ∧ m'.heap.get s.sd.line = some (.bytes bs) := by
  obtain ⟨rest, hget, hlen⟩ := c.get
  obtain ⟨m', hset, hnew, hkeep⟩ := setSlot_ok (some cp) hget
    (i := ps.length) (by simp; omega)
  refine ⟨m', hset, ⟨c.ne, c.cap, ?_, ?_⟩, (hkeep _ (c.ne_line hline).symm).trans hline⟩
  · rw [List.length_append, List.length_singleton]
    exact hroom
  · cases rest with
    | nil =>
      rw [List.length_nil] at hlen
      omega
    | cons r rest =>
      have hcells : (ps.map (fun p => some (some p)) ++ r :: rest).set ps.length (some (some cp)) =
          (ps ++ [cp]).map (fun p => some (some p)) ++ rest := by
        rw [List.set_append_right _ _ (by rw [List.length_map]), List.length_map, Nat.sub_self]
        simp
      rw [hcells] at hnew
      refine ⟨rest, hnew, ?_⟩
      rw [List.length_cons] at hlen
      rw [List.length_append, List.length_singleton]
      dsimp only
      omega

/-- `*cp = '\0'` in the line buffer. -/
theorem setNul_cells (c : Cells s ps) (hline : s.mem.heap.get s.sd.line = some (.bytes bs)) {i : Nat}
    (hlt : i < bs.length) :
    ∃ m', setNul s.mem ⟨s.sd.line, i⟩ = some m' ∧ Cells { s with mem := m' } ps ∧
      m'.heap.get s.sd.line = some (.bytes (bs.set i 0)) := by
  obtain ⟨m', hset, hnew, hkeep⟩ := setNul_ok (p := ⟨s.sd.line, i⟩) hline hlt
  obtain ⟨rest, hget, hlen⟩ := c.get
  exact ⟨m', hset, ⟨c.ne, c.cap, c.room, rest, (hkeep _ (c.ne_line hline)).trans hget, hlen⟩, hnew⟩

theorem Taken.words_mono (t : Taken s bs off ps ws) {bs' : List UInt8} {off' : Nat}
    (hk : Kept bs bs' off) (hle : off ≤ off') :
    List.Forall₂ (WordAt s.sd.line bs' off') ps ws :=
  t.words.imp fun _ _ h => h.mono hk hle

theorem Taken.mono (t : Taken s bs off ps ws) {off' : Nat} (hle : off ≤ off') :
    Taken s bs off' ps ws :=
  ⟨t.line, t.cells, t.words_mono (Kept.refl bs off) hle⟩

/-- The last word of the line. -/
theorem lastWord_spec (t : Taken s bs off ps ws) (hroom : ps.length + 1 < s.sd.maxaliases)
    {w : List UInt8} (hs : StrIn bs off w) :
    ∃ m', setSlot s.mem s.sd.aliases ps.length (some ⟨s.sd.line, off⟩) = some m' ∧
      Taken { s with mem := m' } bs bs.length (ps ++ [⟨s.sd.line, off⟩]) (ws ++ [w]) := by
  have hlt := hs.lt_length
  obtain ⟨m', hset, c', hline⟩ := setSlot_cells t.cells t.line hroom ⟨s.sd.line, off⟩
  exact ⟨m', hset, hline, c', List.rel_append (t.words_mono (Kept.refl bs off) (by omega))
    (.cons ⟨rfl, hlt, hs⟩ .nil)⟩

/-- A word that is cut off at the character behind it. -/
theorem nextWord_spec (t : Taken s bs off ps ws) (hroom : ps.length + 1 < s.sd.maxaliases)
    {u v : List UInt8} {d : UInt8} (hs : StrIn bs off (u ++ d :: v)) :
    ∃ m₁ m₂, setSlot s.mem s.sd.aliases ps.length (some ⟨s.sd.line, off⟩) = some m₁ ∧
      setNul m₁ ⟨s.sd.line, off + u.length⟩ = some m₂ ∧
      Taken { s with mem := m₂ } (bs.set (off + u.length) 0) (off + u.length + 1)
        (ps ++ [⟨s.sd.line, off⟩]) (ws ++ [u]) := by
  have hlt := hs.lt_length
  rw [List.length_append] at hlt
  obtain ⟨m₁, hset, c₁, hline₁⟩ := setSlot_cells t.cells t.line hroom ⟨s.sd.line, off⟩
  obtain ⟨m₂, hnul, c₂, hline₂⟩ := setNul_cells (i := off + u.length) c₁ hline₁ (by omega)
  refine ⟨m₁, m₂, hset, hnul, hline₂, c₂, List.rel_append ?_ (.cons ?_ .nil)⟩
  · exact t.words_mono (Kept.set bs (Nat.le_add_right _ _)) (by omega)
  · exact ⟨rfl, Nat.lt_succ_self _, hs.cut.1⟩

end Word

/-! ## The loop -/

/-- The loop ends with the words `ws`, the strings before `off` being as they were. -/
def Reads (s : Proc) (bs : List UInt8) (off : Nat) (ws : List (List UInt8))
    (r : Option (Proc × Option Nat)) : Prop :=
  ∃ s' bs' ps, r = some (s', some ps.length) ∧ Taken s' bs' bs'.length ps ws ∧ Kept bs bs' off ∧
    s'.sd.line = s.sd.line ∧ s'.sd.fp = s.sd.fp

theorem Reads.mono {s s' : Proc} {bs bs' : List UInt8} {off off' : Nat} {ws : List (List UInt8)}
    {r : Option (Proc × Option Nat)} (h : Reads s' bs' off' ws r) (hk : Kept bs bs' off)
    (hle : off ≤ off') (hline : s'.sd.line = s.sd.line) (hfp : s'.sd.fp = s.sd.fp) :
    Reads s bs off ws r := by
  obtain ⟨s₁, bs₁, ps, hr, t, hk₁, hline₁, hfp₁⟩ := h
  exact ⟨s₁, bs₁, ps, hr, t, hk.trans hk₁ hle, hline₁.trans hline, hfp₁.trans hfp⟩

include hA in
/-- The induction is on the passes; the cursor is behind the words `ws` and before `text`. -/
theorem aliasLoop_spec (n : Nat) : ∀ {s : Proc} {bs : List UInt8} {off : Nat} {ps : List CharPtr}
    {ws : List (List UInt8)} {text : List UInt8}, Taken s bs off ps ws → StrIn bs off text →
    text.length < n →
    ((ws ++ tokens (chars " \t") text).length < maxWords →
      Reads s bs off (ws ++ tokens (chars " \t") text)
        (aliasLoop A n s ps.length (some ⟨s.sd.line, off⟩))) ∧
    (maxWords ≤ (ws ++ tokens (chars " \t") text).length →
      aliasLoop A n s ps.length (some ⟨s.sd.line, off⟩) = none) := by
  induction n with
  | zero => exact fun _ _ h => absurd h (Nat.not_lt_zero _)
  | succ n ih =>
    intro s bs off ps ws text t hs hn
    have hle := t.cells.cap.le
    have hroom := t.cells.room
    have hlen := t.length_eq
    unfold aliasLoop
    rw [str_of_strIn (p := ⟨s.sd.line, off⟩) t.line hs, Option.bind_eq_bind, Option.bind_some]
    cases text with
    | nil =>
      have htok : tokens (chars " \t") [] = [] := rfl
      rw [htok, List.append_nil]
      exact ⟨fun _ => ⟨s, bs, ps, rfl, t.mono (Nat.le_of_lt hs.lt_length), Kept.refl bs off, rfl,
        rfl⟩, fun hge => by omega⟩
    | cons c text =>
      rw [List.length_cons] at hn
      dsimp only
      by_cases hc : c ∈ chars " \t"
      · rw [if_pos hc, tokens_skip hc]
        obtain ⟨hreads, hnone⟩ := ih (t.mono (Nat.le_succ off)) (hs.skip (u := [c])) (by omega)
        exact ⟨fun hlt => (hreads hlt).mono (Kept.refl bs off) (Nat.le_succ off) rfl rfl, hnone⟩
      · rw [if_neg hc]
        obtain ⟨hsome, hnone⟩ := room_spec hA t
        have hword := word_cases hc text
        by_cases hfew : ws.length + 1 < maxWords
        · obtain ⟨s₁, h₁, t₁, hroom₁, hline₁, hfp₁⟩ := hsome hfew
          rw [h₁, Option.bind_eq_bind, Option.bind_some, ← hline₁]
          simp only [Bool.not_true, Bool.false_eq_true, if_false]
          obtain ⟨hbrk, htok⟩ | ⟨u, d, v, htext, hbrk, hv, htok⟩ := hword
          · obtain ⟨m₂, h₂, t₂⟩ := lastWord_spec t₁ hroom₁ hs
            obtain ⟨k, rfl⟩ : ∃ k, n = k + 1 := ⟨n - 1, by omega⟩
            rw [htok, h₂, Option.bind_eq_bind, Option.bind_some, hbrk]
            refine ⟨fun _ => ⟨_, bs, _, ?_, t₂, Kept.refl bs off, hline₁, hfp₁⟩, fun hge => ?_⟩
            · dsimp only
              rw [aliasLoop, List.length_append, List.length_singleton]
            · rw [List.length_append, List.length_singleton] at hge
              omega
          · rw [htext] at hs
            obtain ⟨m₂, m₃, h₂, h₃, t₃⟩ := nextWord_spec t₁ hroom₁ hs
            obtain ⟨hreads, hnone'⟩ := ih t₃ hs.cut.2 (by omega)
            rw [List.append_assoc, List.singleton_append, ← htok] at hreads hnone'
            rw [@List.length_append _ _ [_], List.length_singleton] at hreads hnone'
            rw [h₂, Option.bind_eq_bind, Option.bind_some, hbrk]
            dsimp only [CharPtr.add]
            rw [h₃, Option.bind_some, ← Nat.add_assoc]
            exact ⟨fun h => (hreads h).mono (Kept.set bs (Nat.le_add_right _ _)) (by omega) hline₁
              hfp₁, hnone'⟩
        · -- the array cannot be doubled for this word
          have hpos : 1 ≤ (tokens (chars " \t") (c :: text)).length := by
            obtain ⟨_, htok⟩ | ⟨_, _, _, _, _, _, htok⟩ := hword <;> rw [htok] <;>
              exact Nat.succ_pos _
          rw [List.length_append, hnone (by omega)]
          exact ⟨fun h => by omega, fun _ => rfl⟩

end Librecompat.Services
