/-
  The set that `group_nodes_into_DFAstates` makes of a node.

  `accepts dfa node c` says that the node accepts the character under its next-context constraint:
  the character is in the node's own set (`has`) and the context that it makes is the one asked for
  (`inContext`). In a single-byte locale the set of a node has these characters
  (`accepts_spec`). It is divided although it is empty for one kind of node only: a bracket whose
  set is empty and which has no such constraint (`emptyBracket`).
-/
import Librecompat.Grouping.Model

namespace Librecompat.Grouping

open Librecompat.Regex

variable (dfa : Dfa)

/-! ## What a node accepts -/

/-- The bits of `syntax` let a period stand for the character. -/
def dotHas (c : Fin SBC_MAX) : Bool :=
  (dfa.dotNewline || (c : Nat) ≠ NEWLINE_CHAR) && (!dfa.dotNotNull || (c : Nat) ≠ 0)

/-- The character is in the set of the node. -/
def Token.has (node : Token) (c : Fin SBC_MAX) : Bool :=
  match node.type with
  | .character => c = node.c
  | .simpleBracket => bitsetContain node.sbcset c
  | .opPeriod => dotHas dfa c
  | .opUtf8Period => (c : Nat) < ASCII_CHARS && dotHas dfa c
  | _ => false

/-- Behind the position is the context that the constraint asks for: a newline, not the end of the
    buffer, a word character, none. -/
def Token.inContext (node : Token) (c : Fin SBC_MAX) : Bool :=
  (node.constraint &&& NEXT_NEWLINE_CONSTRAINT = 0 || (c : Nat) = NEWLINE_CHAR) &&
  node.constraint &&& NEXT_ENDBUF_CONSTRAINT = 0 &&
  (node.constraint &&& NEXT_WORD_CONSTRAINT = 0 || bitsetContain dfa.wordChar c) &&
  (node.constraint &&& NEXT_NOTWORD_CONSTRAINT = 0 || !bitsetContain dfa.wordChar c)

/-- The node accepts the character under its next-context constraint. -/
def Token.accepts (node : Token) (c : Fin SBC_MAX) : Bool := node.has dfa c && node.inContext dfa c

/-- None of the constraints on the next context. -/
def Token.unconstrained (node : Token) : Bool :=
  node.constraint &&& NEXT_NEWLINE_CONSTRAINT = 0 &&
  node.constraint &&& NEXT_ENDBUF_CONSTRAINT = 0 &&
  node.constraint &&& NEXT_WORD_CONSTRAINT = 0 &&
  node.constraint &&& NEXT_NOTWORD_CONSTRAINT = 0

/-- A bracket expression without characters and without such a constraint. -/
def Token.emptyBracket (node : Token) : Bool :=
  node.type = .simpleBracket && node.sbcset = 0#256 && node.unconstrained

/-- Where a character node has a word constraint, its `word_char` bit tells whether its byte is a
    word character. -/
def Token.WordCharRight (node : Token) : Prop :=
  node.type = .character → (node.constraint &&& NEXT_WORD_CONSTRAINT ≠ 0 ∨
    node.constraint &&& NEXT_NOTWORD_CONSTRAINT ≠ 0) →
  node.wordChar = bitsetContain dfa.wordChar node.c

variable {dfa} {node : Token}

/-! ## The set -/

theorem contain_clearDot (s : Bitset) (c : Fin SBC_MAX) :
    bitsetContain (clearDot dfa s) c = (bitsetContain s c && dotHas dfa c) := by
  unfold clearDot dotHas
  cases dfa.dotNewline <;> cases dfa.dotNotNull <;> simp [Bool.and_assoc]

theorem contain_ascii (c : Fin SBC_MAX) :
    bitsetContain (BitVec.ofNat SBC_MAX (2 ^ ASCII_CHARS - 1)) c =
      decide ((c : Nat) < ASCII_CHARS) := by
  rw [bitsetContain, BitVec.getLsbD_ofNat, Nat.testBit_two_pow_sub_one]
  simp

theorem enumerate_spec (hmb : dfa.mbCurMax ≤ 1) (node : Token) :
    (∃ s, enumerate dfa node 0#256 = some s ∧
      ∀ c : Fin SBC_MAX, bitsetContain s c = node.has dfa c) ∨
    enumerate dfa node 0#256 = none ∧ ∀ c, node.has dfa c = false := by
  have hmb' : ¬ 1 < dfa.mbCurMax := by omega
  unfold enumerate Token.has
  cases node.type
  case character =>
    refine .inl ⟨_, rfl, fun c => ?_⟩
    simp [Fin.ext_iff]
  case simpleBracket =>
    refine .inl ⟨_, rfl, fun c => ?_⟩
    simp
  case opPeriod =>
    refine .inl ⟨_, rfl, fun c => ?_⟩
    simp [contain_clearDot, hmb']
  case opUtf8Period =>
    refine .inl ⟨_, rfl, fun c => ?_⟩
    rw [contain_clearDot, bitsetContain_merge, contain_ascii]
    simp
  all_goals exact .inr ⟨rfl, fun c => rfl⟩

theorem dotHas_one (dfa : Dfa) : dotHas dfa 1 = true := by
  simp [dotHas, NEWLINE_CHAR]

/-- Only a bracket can have no characters. -/
theorem enumerate_zero {s : Bitset} (h : enumerate dfa node 0#256 = some s)
    (hs : ∀ c : Fin SBC_MAX, bitsetContain s c = node.has dfa c) :
    decide (s = 0#256) = (node.type = .simpleBracket && node.sbcset = 0#256) := by
  have hne : ∀ c : Fin SBC_MAX, node.has dfa c = true → decide (s = 0#256) = false :=
    fun c hc => decide_eq_false fun hzero => by
      rw [← hs, bitset_eq_zero.mp hzero c] at hc
      exact Bool.noConfusion hc
  unfold enumerate at h
  cases htype : node.type
  case character => exact hne node.c (by simp [Token.has, htype])
  case simpleBracket =>
    rw [htype] at h
    have hset : bitsetMerge 0#256 node.sbcset = node.sbcset := BitVec.zero_or
    rw [← Option.some.inj h, hset]
    simp
  case opPeriod => exact hne 1 (by simp [Token.has, htype, dotHas_one])
  case opUtf8Period => exact hne 1 (by simp [Token.has, htype, dotHas_one, ASCII_CHARS])
  all_goals simp [htype] at h

/-! ## The context -/

/-- A check has left of the set the characters with `p`; it goes on with an empty set only if the
    set was empty and the check was not asked for. -/
structure Sifted (s : Bitset) (p : Fin SBC_MAX → Bool) (free : Bool) (r : Bitset × Bool) :
    Prop where
  contain : ∀ c : Fin SBC_MAX, bitsetContain r.1 c = (bitsetContain s c && p c)
  stop : r.2 = false → r.1 = 0#256
  go : r.1 = 0#256 → r.2 = (decide (s = 0#256) && free)

theorem Sifted.andSift {s : Bitset} {p q : Fin SBC_MAX → Bool} {free free' : Bool}
    {r : Bitset × Bool} {f : Bitset → Bitset × Bool} (h : Sifted s p free r)
    (h' : Sifted r.1 q free' (f r.1)) :
    Sifted s (fun c => p c && q c) (free && free') (andSift r f) := by
  have hzero : s = 0#256 → r.1 = 0#256 := fun hs => bitset_eq_zero.mpr fun c => by
    rw [h.contain, hs, bitsetContain_zero, Bool.false_and]
  unfold Grouping.andSift
  cases hr : r.2 with
  | true =>
    simp only [if_true]
    refine ⟨fun c => by rw [h'.contain, h.contain, Bool.and_assoc], h'.stop, fun hr' => ?_⟩
    rw [h'.go hr', ← Bool.and_assoc]
    by_cases hne : r.1 = 0#256
    · rw [← h.go hne, hr, decide_eq_true hne]
    · rw [decide_eq_false hne, decide_eq_false fun hs => hne (hzero hs), Bool.false_and,
        Bool.false_and, Bool.false_and]
  | false =>
    have hr₁ := h.stop hr
    simp only [Bool.false_eq_true, if_false]
    refine ⟨fun c => ?_, fun _ => hr₁, fun _ => ?_⟩
    · rw [← Bool.and_assoc, ← h.contain, hr₁, bitsetContain_zero, Bool.false_and]
    · rw [← Bool.and_assoc, ← h.go hr₁, hr, Bool.false_and]

theorem Sifted.sub {s : Bitset} {p : Fin SBC_MAX → Bool} {free : Bool} {r : Bitset × Bool}
    (h : Sifted s p free r) {c : Fin SBC_MAX} (hc : bitsetContain r.1 c = true) :
    bitsetContain s c = true := by
  rw [h.contain, Bool.and_eq_true] at hc
  exact hc.1

/-- A check that is not asked for. -/
theorem sifted_pass (s : Bitset) {p : Fin SBC_MAX → Bool} (hp : ∀ c, p c = true) :
    Sifted s p true (s, true) where
  contain c := by rw [hp c, Bool.and_true]
  stop h := Bool.noConfusion h
  go h := by rw [decide_eq_true h, Bool.true_and]

/-- A check that no character of the set passes. -/
theorem sifted_none {s : Bitset} {p : Fin SBC_MAX → Bool}
    (hp : ∀ c : Fin SBC_MAX, bitsetContain s c = true → p c = false) :
    Sifted s p false (0#256, false) where
  contain c := by
    cases hc : bitsetContain s c with
    | false => simp
    | true => simp [hp c hc]
  stop _ := rfl
  go _ := (Bool.and_false _).symm

/-- A check by a mask. -/
theorem sifted_mask (s m : Bitset) :
    Sifted s (fun c => bitsetContain m c) false (s &&& m, s &&& m ≠ 0#256) where
  contain c := bitsetContain_and s m c
  stop h := by simpa using h
  go h := by simpa using h

theorem siftNewline_spec (node : Token) (s : Bitset) :
    Sifted s (fun c => node.constraint &&& NEXT_NEWLINE_CONSTRAINT = 0 || (c : Nat) = NEWLINE_CHAR)
      (node.constraint &&& NEXT_NEWLINE_CONSTRAINT = 0) (siftNewline node s) := by
  unfold siftNewline
  by_cases hbit : node.constraint &&& NEXT_NEWLINE_CONSTRAINT = 0
  · simp only [hbit, ne_eq, not_true_eq_false, if_false, decide_true, Bool.true_or]
    exact sifted_pass s fun _ => rfl
  · simp only [hbit, ne_eq, not_false_eq_true, if_true, decide_false, Bool.false_or,
      bitsetEmpty_eq]
    split
    · next hnl =>
      refine ⟨fun c => ?_, fun h => Bool.noConfusion h, fun hs => ?_⟩
      · simp only [bitsetContain_set, bitsetContain_zero, Bool.false_or]
        by_cases hc : (c : Nat) = NEWLINE_CHAR
        · rw [hc, hnl]
          rfl
        · simp [hc]
      · have hne : bitsetSet 0#256 NEWLINE_CHAR ≠ 0#256 := by decide
        exact absurd hs hne
    · next hnl =>
      refine sifted_none fun c hc => decide_eq_false fun heq => hnl ?_
      rw [← heq, hc]

theorem siftEndbuf_spec (node : Token) (s : Bitset) :
    Sifted s (fun _ => node.constraint &&& NEXT_ENDBUF_CONSTRAINT = 0)
      (node.constraint &&& NEXT_ENDBUF_CONSTRAINT = 0) (siftEndbuf node s) := by
  unfold siftEndbuf
  by_cases hbit : node.constraint &&& NEXT_ENDBUF_CONSTRAINT = 0
  · simp only [hbit, ne_eq, not_true_eq_false, if_false, decide_true]
    exact sifted_pass s fun _ => rfl
  · simp only [hbit, ne_eq, not_false_eq_true, if_true, decide_false]
    exact sifted_none fun _ _ => rfl

theorem siftWord_spec (hmb : dfa.mbCurMax ≤ 1) (hword : node.WordCharRight dfa) {s : Bitset}
    (hs : node.type = .character → ∀ c : Fin SBC_MAX, bitsetContain s c = true → c = node.c) :
    Sifted s
      (fun c => node.constraint &&& NEXT_WORD_CONSTRAINT = 0 || bitsetContain dfa.wordChar c)
      (node.constraint &&& NEXT_WORD_CONSTRAINT = 0) (siftWord dfa node s) := by
  have hmb' : ¬ dfa.mbCurMax > 1 := by omega
  unfold siftWord
  by_cases hbit : node.constraint &&& NEXT_WORD_CONSTRAINT = 0
  · simp only [hbit, ne_eq, not_true_eq_false, if_false, decide_true, Bool.true_or]
    exact sifted_pass s fun _ => rfl
  · simp only [hbit, ne_eq, not_false_eq_true, if_true, decide_false, Bool.false_or, if_neg hmb']
    split
    · next hchar =>
      refine sifted_none fun c hc => ?_
      rw [hs hchar.1 c hc, ← hword hchar.1 (.inl hbit)]
      simpa using hchar.2
    · exact sifted_mask s dfa.wordChar

theorem siftNotword_spec (hmb : dfa.mbCurMax ≤ 1) (hword : node.WordCharRight dfa) {s : Bitset}
    (hs : node.type = .character → ∀ c : Fin SBC_MAX, bitsetContain s c = true → c = node.c) :
    Sifted s
      (fun c => node.constraint &&& NEXT_NOTWORD_CONSTRAINT = 0 || !bitsetContain dfa.wordChar c)
      (node.constraint &&& NEXT_NOTWORD_CONSTRAINT = 0) (siftNotword dfa node s) := by
  have hmb' : ¬ dfa.mbCurMax > 1 := by omega
  unfold siftNotword
  by_cases hbit : node.constraint &&& NEXT_NOTWORD_CONSTRAINT = 0
  · simp only [hbit, ne_eq, not_true_eq_false, if_false, decide_true, Bool.true_or]
    exact sifted_pass s fun _ => rfl
  · simp only [hbit, ne_eq, not_false_eq_true, if_true, decide_false, Bool.false_or, if_neg hmb']
    split
    · next hchar =>
      refine sifted_none fun c hc => ?_
      rw [hs hchar.1 c hc, ← hword hchar.1 (.inr hbit)]
      simpa using hchar.2
    · have hmask := sifted_mask s (~~~dfa.wordChar)
      simpa only [bitsetContain_complement] using hmask

/-- The four checks leave the characters that make the right context. -/
theorem sift_spec (hmb : dfa.mbCurMax ≤ 1) (hword : node.WordCharRight dfa) {s : Bitset}
    (hs : node.type = .character → ∀ c : Fin SBC_MAX, bitsetContain s c = true → c = node.c) :
    Sifted s (node.inContext dfa) node.unconstrained (sift dfa node s) := by
  unfold sift
  by_cases hnone : node.constraint = 0
  · rw [if_neg (by simp [hnone])]
    have hfree : node.unconstrained = true := by simp [Token.unconstrained, hnone]
    rw [hfree]
    exact sifted_pass s fun c => by simp [Token.inContext, hnone]
  · rw [if_pos hnone]
    have h₁ := siftNewline_spec node s
    have h₂ := h₁.andSift (siftEndbuf_spec node _)
    have h₃ := h₂.andSift (siftWord_spec hmb hword fun hchar c hc =>
      hs hchar c (h₂.sub hc))
    exact h₃.andSift (siftNotword_spec hmb hword fun hchar c hc =>
      hs hchar c (h₃.sub hc))

/-- The set of a node, from an empty one: what it accepts. The node goes on to be divided with an
    empty set if it is an empty bracket. -/
theorem accepts_spec (hmb : dfa.mbCurMax ≤ 1) (hword : node.WordCharRight dfa) :
    enumerate dfa node 0#256 = none ∧ (∀ c, node.accepts dfa c = false) ∧
      node.emptyBracket = false ∨
    ∃ s, enumerate dfa node 0#256 = some s ∧
      (∀ c : Fin SBC_MAX, bitsetContain (sift dfa node s).1 c = node.accepts dfa c) ∧
      ((sift dfa node s).2 = false → (sift dfa node s).1 = 0#256) ∧
      ((sift dfa node s).1 = 0#256 → (sift dfa node s).2 = node.emptyBracket) := by
  obtain ⟨s, hs, hhas⟩ | ⟨hnone, hhas⟩ := enumerate_spec hmb node
  · have hchar : node.type = .character →
        ∀ c : Fin SBC_MAX, bitsetContain s c = true → c = node.c := fun htype c hc => by
      rw [hhas, Token.has, htype] at hc
      exact of_decide_eq_true hc
    have hsift := sift_spec hmb hword hchar
    refine .inr ⟨s, hs, fun c => ?_, hsift.stop, fun hzero => ?_⟩
    · rw [hsift.contain, hhas, Token.accepts]
    · rw [hsift.go hzero, enumerate_zero hs hhas, Token.emptyBracket]
  · refine .inl ⟨hnone, fun c => by rw [Token.accepts, hhas, Bool.false_and], ?_⟩
    have htype : node.type ≠ .simpleBracket := fun htype => by
      rw [enumerate, htype] at hnone
      exact Option.some_ne_none _ hnone
    simp [Token.emptyBracket, htype]

theorem accepts_of_emptyBracket (h : node.emptyBracket = true) (c : Fin SBC_MAX) :
    node.accepts dfa c = false := by
  simp only [Token.emptyBracket, Bool.and_eq_true, decide_eq_true_eq] at h
  rw [Token.accepts, Token.has, h.1.1]
  simp only [h.1.2, bitsetContain_zero, Bool.false_and]

end Librecompat.Grouping
