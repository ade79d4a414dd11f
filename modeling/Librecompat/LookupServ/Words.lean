/-
  The loop that looks for the service name in a line finds a word of the line.

  `mem_tokens_iff` says where the words of a text stand: between delimiters or the ends. The loop
  goes from one occurrence of the name to the next until one stands so (`findName_spec`).
-/
import Librecompat.LookupServ.Model

namespace Librecompat.LookupServ

open Librecompat.Lib

/-! ## Where words stand -/

/-- The characters that `isspace` accepts. -/
def spaces : List UInt8 := [9, 10, 11, 12, 13, 32]

theorem isSpace_eq (c : UInt8) : isSpace c = decide (c ∈ spaces) := by
  unfold isSpace spaces
  simp only [List.mem_cons, List.not_mem_nil, or_false]
  have hle : (9 ≤ c ∧ c ≤ 13) ↔ c = 9 ∨ c = 10 ∨ c = 11 ∨ c = 12 ∨ c = 13 := by
    simp only [UInt8.le_iff_toNat_le, ← UInt8.toNat_inj]
    show 9 ≤ c.toNat ∧ c.toNat ≤ 13 ↔
      c.toNat = 9 ∨ c.toNat = 10 ∨ c.toNat = 11 ∨ c.toNat = 12 ∨ c.toNat = 13
    omega
  rw [← Bool.decide_and, ← Bool.decide_or, decide_eq_decide, hle]
  tauto

variable {delims : List UInt8}

/-- How a text starts. -/
theorem text_cases (delims s : List UInt8) :
    s = [] ∨ (∃ c t, s = c :: t ∧ c ∈ delims) ∨ Word delims s ∨
      ∃ u d v, s = u ++ d :: v ∧ Word delims u ∧ d ∈ delims := by
  cases s with
  | nil => exact .inl rfl
  | cons c t =>
    right
    by_cases hc : c ∈ delims
    · exact .inl ⟨c, t, rfl, hc⟩
    · right
      obtain ⟨_, hall⟩ | ⟨u, d, v, hs, hu, hd, _⟩ := strpbrk_cases delims (c :: t)
      · exact .inl ⟨List.cons_ne_nil c t, hall⟩
      · refine .inr ⟨u, d, v, hs, ⟨?_, hu⟩, hd⟩
        rintro rfl
        obtain ⟨rfl, _⟩ := List.cons.inj hs
        exact hc hd

/-- A string ends in a delimiter, if it is not empty. -/
def EndsIn (delims a : List UInt8) : Prop := a = [] ∨ ∃ a' d, a = a' ++ [d] ∧ d ∈ delims

/-- A string starts with a delimiter, if it is not empty. -/
def StartsWith (delims b : List UInt8) : Prop := b = [] ∨ ∃ d b', b = d :: b' ∧ d ∈ delims

theorem EndsIn.append {a b : List UInt8} {d : UInt8} (hb : EndsIn delims b) (hd : d ∈ delims) :
    EndsIn delims (a ++ d :: b) := by
  rcases hb with rfl | ⟨b', e, rfl, he⟩
  · exact .inr ⟨a, d, rfl, hd⟩
  · exact .inr ⟨a ++ d :: b', e, by simp, he⟩

theorem tokens_endsIn {a : List UInt8} (ha : EndsIn delims a) (s : List UInt8) :
    tokens delims (a ++ s) = tokens delims a ++ tokens delims s := by
  rcases ha with rfl | ⟨a', d, rfl, hd⟩
  · rfl
  · rw [List.append_assoc, List.singleton_append, tokens_cut hd, tokens_cut hd]
    simp [tokens]

theorem tokens_startsWith {b : List UInt8} (hb : StartsWith delims b) (s : List UInt8) :
    tokens delims (s ++ b) = tokens delims s ++ tokens delims b := by
  rcases hb with rfl | ⟨d, b', rfl, hd⟩
  · simp [tokens]
  · rw [tokens_cut hd, tokens_skip hd]

/-- The words of a text stand between delimiters or the ends. -/
theorem mem_tokens_iff {w s : List UInt8} : w ∈ tokens delims s ↔
    Word delims w ∧ ∃ a b, s = a ++ (w ++ b) ∧ EndsIn delims a ∧ StartsWith delims b := by
  constructor
  · intro hw
    induction hn : s.length using Nat.strong_induction_on generalizing s with
    | _ n ih =>
      obtain rfl | ⟨c, t, rfl, hc⟩ | hword | ⟨u, d, v, rfl, hu, hd⟩ := text_cases delims s
      · exact absurd hw List.not_mem_nil
      · rw [tokens_skip hc] at hw
        rw [List.length_cons] at hn
        obtain ⟨hword, a, b, rfl, ha, hb⟩ := ih t.length (by omega) hw rfl
        exact ⟨hword, c :: a, b, rfl, ha.append (a := []) hc, hb⟩
      · rw [tokens_word hword, List.mem_singleton] at hw
        exact ⟨hw ▸ hword, [], [], by rw [hw]; simp, .inl rfl, .inl rfl⟩
      · rw [tokens_word_cons hu hd] at hw
        rcases List.mem_cons.mp hw with rfl | hw
        · exact ⟨hu, [], d :: v, rfl, .inl rfl, .inr ⟨d, v, rfl, hd⟩⟩
        · rw [List.length_append, List.length_cons] at hn
          obtain ⟨hword, a, b, rfl, ha, hb⟩ := ih v.length (by omega) hw rfl
          exact ⟨hword, u ++ d :: a, b, by simp, ha.append hd, hb⟩
  · rintro ⟨hword, a, b, rfl, ha, hb⟩
    rw [tokens_endsIn ha, tokens_startsWith hb, tokens_word hword]
    simp

/-! ## The loop -/

variable {name line : List UInt8}

/-- The name stands at offset `q`, as a word. -/
def NameAt (name line : List UInt8) (q : Nat) : Prop :=
  ∃ a b, line = a ++ (name ++ b) ∧ a.length = q ∧ EndsIn spaces a ∧ StartsWith spaces b

theorem mem_tokens_iff_nameAt (hname : Word spaces name) :
    name ∈ tokens spaces line ↔ ∃ q, NameAt name line q := by
  rw [mem_tokens_iff]
  constructor
  · rintro ⟨_, a, b, hline, ha, hb⟩
    exact ⟨a.length, a, b, hline, rfl, ha, hb⟩
  · rintro ⟨q, a, b, hline, _, ha, hb⟩
    exact ⟨hname, a, b, hline, ha, hb⟩

theorem split_of_prefix {q : Nat} (hq : name <+: line.drop q) (hne : name ≠ []) :
    ∃ a b, line = a ++ (name ++ b) ∧ a.length = q := by
  obtain ⟨b, hb⟩ := hq
  have hlt : q < line.length := by
    by_contra hge
    rw [List.drop_of_length_le (Nat.not_lt.mp hge)] at hb
    exact hne (List.append_eq_nil_iff.mp hb).1
  refine ⟨line.take q, b, ?_, List.length_take_of_le (Nat.le_of_lt hlt)⟩
  rw [hb, List.take_append_drop]

theorem NameAt.prefix {q : Nat} (h : NameAt name line q) : name <+: line.drop q := by
  obtain ⟨a, b, rfl, rfl, _, _⟩ := h
  rw [List.drop_left]
  exact List.prefix_append name b

/-- What the two tests of the loop say. -/
theorem nameAt_iff {a b : List UInt8} : NameAt name (a ++ (name ++ b)) a.length ↔
    ¬ (a.length > 0 ∧ !isSpace ((a ++ (name ++ b)).getD (a.length - 1) 0)) ∧
    ¬ (a.length + name.length < (a ++ (name ++ b)).length ∧
      !isSpace ((a ++ (name ++ b)).getD (a.length + name.length) 0)) := by
  have hleft : EndsIn spaces a ↔
      ¬ (a.length > 0 ∧ !isSpace ((a ++ (name ++ b)).getD (a.length - 1) 0)) := by
    rcases List.eq_nil_or_concat a with rfl | ⟨a', d, rfl⟩
    · simp [EndsIn]
    · have hget : (a' ++ [d] ++ (name ++ b)).getD ((a' ++ [d]).length - 1) 0 = d := by
        simp [List.getD]
      rw [List.concat_eq_append, hget, isSpace_eq]
      simp [EndsIn]
  have hright : StartsWith spaces b ↔
      ¬ (a.length + name.length < (a ++ (name ++ b)).length ∧
        !isSpace ((a ++ (name ++ b)).getD (a.length + name.length) 0)) := by
    cases b with
    | nil => simp [StartsWith]
    | cons d b =>
      have hget : (a ++ (name ++ d :: b)).getD (a.length + name.length) 0 = d := by
        simp [List.getD]
      rw [hget, isSpace_eq]
      simp [StartsWith]
  rw [← hleft, ← hright]
  constructor
  · rintro ⟨a₂, b₂, heq, hlen, ha, hb⟩
    obtain ⟨rfl, hrest⟩ := List.append_inj heq.symm hlen
    obtain rfl := List.append_cancel_left hrest
    exact ⟨ha, hb⟩
  · exact fun ⟨ha, hb⟩ => ⟨a, b, rfl, rfl, ha, hb⟩

/-- The loop from offset `p` on finds the name when it stands there or behind. -/
theorem findName_spec (hne : name ≠ []) (n : Nat) : ∀ {p : Nat}, line.length + 1 ≤ n + p →
    ((findName name line n p).isSome ↔ ∃ q ≥ p, NameAt name line q) := by
  induction n with
  | zero =>
    intro p hp
    refine ⟨fun h => (nomatch h), fun ⟨q, hq, hat⟩ => ?_⟩
    have hpre := hat.prefix
    rw [List.drop_of_length_le (by omega)] at hpre
    exact absurd (List.prefix_nil.mp hpre) hne
  | succ n ih =>
    intro p hp
    unfold findName
    cases hstr : strstr name (line.drop p) with
    | none =>
      refine ⟨fun h => (nomatch h), fun ⟨q, hq, hat⟩ => absurd ?_ (strstr_eq_none hstr)⟩
      obtain ⟨k, rfl⟩ := Nat.exists_eq_add_of_le hq
      have hpre := hat.prefix
      rw [← List.drop_drop] at hpre
      exact hpre.isInfix.trans (List.drop_suffix k _).isInfix
    | some k =>
      have hfirst := strstr_eq_some hstr
      have hhere := hfirst.here
      rw [List.drop_drop] at hhere
      -- the name stands nowhere between `p` and `p + k`
      have hnext : (∃ q ≥ p, NameAt name line q) ↔
          NameAt name line (p + k) ∨ ∃ q ≥ p + k + 1, NameAt name line q := by
        constructor
        · rintro ⟨q, hq, hat⟩
          obtain ⟨m, rfl⟩ := Nat.exists_eq_add_of_le hq
          rcases Nat.lt_trichotomy m k with hm | rfl | hm
          · have hpre := hat.prefix
            rw [← List.drop_drop] at hpre
            exact absurd hpre (hfirst.first m hm)
          · exact .inl hat
          · exact .inr ⟨p + m, by omega, hat⟩
        · rintro (hat | ⟨q, hq, hat⟩)
          · exact ⟨p + k, Nat.le_add_right p k, hat⟩
          · exact ⟨q, by omega, hat⟩
      obtain ⟨a, b, hline, hlen⟩ := split_of_prefix hhere hne
      have hiff := @nameAt_iff name a b
      rw [← hline, hlen] at hiff
      rw [hnext, hiff]
      dsimp only
      split
      · next h₁ =>
        rw [ih (by omega)]
        exact ⟨.inr, fun h => h.resolve_left fun hn => hn.1 h₁⟩
      · next h₁ =>
        split
        · next h₂ =>
          rw [ih (by omega)]
          exact ⟨.inr, fun h => h.resolve_left fun hn => hn.2 h₂⟩
        · next h₂ => exact ⟨fun _ => .inl ⟨h₁, h₂⟩, fun _ => rfl⟩

theorem findName_iff (hname : Word spaces name) :
    (findName name line (line.length + 1) 0).isSome ↔ name ∈ tokens spaces line := by
  rw [findName_spec hname.1 (line.length + 1) (p := 0) (Nat.le_refl _),
    mem_tokens_iff_nameAt hname]
  exact ⟨fun ⟨q, _, h⟩ => ⟨q, h⟩, fun ⟨q, h⟩ => ⟨q, Nat.zero_le q, h⟩⟩

end Librecompat.LookupServ
