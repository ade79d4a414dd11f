/-
  `strverscmp` is a total order.

  The order is that of lists of numbers: `codes` writes a string as such a list, in which an integer
  (digits that begin with '1' to '9') has its length in front of its digits, and behind leading
  zeroes the end of the digits is above all digits. `scan_spec` says that the automaton compares
  these lists; it is proved over the common prefix, with the list of what is left (`rank`) as what
  the state knows.
-/
import Librecompat.Strverscmp.Model
import Mathlib.Data.List.Lex

namespace Librecompat.Strverscmp

/-! ## The automaton -/

/-- Where in a number the common prefix ends. -/
inductive Part
  | normal
  | integral
  | fractional
  | zeroes
  deriving DecidableEq

def Part.state : Part → Nat
  | normal => S_N
  | integral => S_I
  | fractional => S_F
  | zeroes => S_Z

def Part.next (p : Part) (c : UInt8) : Part :=
  if isdigit c then
    match p with
    | normal => if c = 48 then zeroes else integral
    | integral => integral
    | fractional => fractional
    | zeroes => if c = 48 then zeroes else fractional
  else normal

/-- A byte is no digit, a digit but '0', or '0'. -/
theorem symbol_cases (c : UInt8) :
    (symbol c = 0 ∧ isdigit c = false ∧ c ≠ 48) ∨ (symbol c = 1 ∧ isdigit c = true ∧ c ≠ 48) ∨
      (symbol c = 2 ∧ c = 48) := by
  by_cases h0 : c = 48
  · subst h0
    exact .inr (.inr ⟨rfl, rfl⟩)
  · unfold symbol
    cases hdigit : isdigit c with
    | true => exact .inr (.inl ⟨by simp [h0], rfl, h0⟩)
    | false => exact .inl ⟨by simp [h0], rfl, h0⟩

theorem symbol_mem (c : UInt8) : symbol c ∈ [0, 1, 2] := by
  rcases symbol_cases c with ⟨hs, -⟩ | ⟨hs, -⟩ | ⟨hs, -⟩ <;> simp [hs]

theorem symbol_of_digit {c : UInt8} (h : isdigit c = true) : symbol c ∈ [1, 2] := by
  rcases symbol_cases c with ⟨-, hd, -⟩ | ⟨hs, -⟩ | ⟨hs, -⟩
  · rw [hd] at h
    exact absurd h nofun
  · simp [hs]
  · simp [hs]

theorem symbol_of_not_digit {c : UInt8} (h : isdigit c = false) : symbol c = 0 := by
  rcases symbol_cases c with ⟨hs, -⟩ | ⟨-, hd, -⟩ | ⟨-, rfl⟩
  · exact hs
  · rw [hd] at h
    exact absurd h nofun
  · exact absurd h nofun

theorem nextState_eq (p : Part) (c : UInt8) :
    nextState[p.state + symbol c]? = some (p.next c).state := by
  rcases symbol_cases c with ⟨hs, hd, -⟩ | ⟨hs, hd, h0⟩ | ⟨hs, rfl⟩
  · unfold Part.next
    rw [hs, hd]
    cases p <;> rfl
  · unfold Part.next
    rw [hs, hd, if_pos rfl]
    cases p <;> simp only [if_neg h0] <;> rfl
  · rw [hs]
    cases p <;> rfl

/-! ## The order -/

/-- How many digits there are at the front. -/
def runLength (t : List UInt8) : Nat := (t.takeWhile isdigit).length

/-- Behind leading zeroes the end of the digits is above all digits. -/
def code (p : Part) (c : UInt8) : Nat :=
  if p = .zeroes ∧ isdigit c = false then 256 + c.toNat else c.toNat

/-- An integer begins: a digit but '0' outside of a number. -/
def Begins (p : Part) (c : UInt8) : Prop := p = .normal ∧ isdigit c = true ∧ c ≠ 48

instance (p : Part) (c : UInt8) : Decidable (Begins p c) :=
  inferInstanceAs (Decidable (_ ∧ _))

/-- The numbers for a string, up to and with its terminator. -/
def codes : Part → List UInt8 → List Nat
  | _, [] => []
  | p, c :: t =>
    if c = 0 then [code p c]
    else if Begins p c then 49 :: runLength t :: c.toNat :: codes (p.next c) t
    else code p c :: codes (p.next c) t

/-- The numbers for what follows a common prefix: inside of an integer first how much of it there
    is. -/
def rank (p : Part) (t : List UInt8) : List Nat :=
  if p = .integral then runLength t :: codes p t else codes p t

/-- The sign of `r` says how the lists compare. -/
structure Agrees (r : Int) (k₁ k₂ : List Nat) : Prop where
  neg : r < 0 ↔ k₁ < k₂
  pos : 0 < r ↔ k₂ < k₁

theorem agrees_cons_same {r : Int} {a : Nat} {k₁ k₂ : List Nat} (h : Agrees r k₁ k₂) :
    Agrees r (a :: k₁) (a :: k₂) :=
  ⟨h.neg.trans List.cons_lt_cons_self.symm, h.pos.trans List.cons_lt_cons_self.symm⟩

/-- The first numbers decide if they differ. -/
theorem agrees_cons_ne {r : Int} {a b : Nat} {k₁ k₂ : List Nat} (hne : a ≠ b)
    (hneg : r < 0 ↔ a < b) (hpos : 0 < r ↔ b < a) : Agrees r (a :: k₁) (b :: k₂) := by
  refine ⟨hneg.trans ?_, hpos.trans ?_⟩
  · rw [List.cons_lt_cons_iff]
    exact ⟨.inl, fun h => h.resolve_right fun h' => hne h'.1⟩
  · rw [List.cons_lt_cons_iff]
    exact ⟨.inl, fun h => h.resolve_right fun h' => hne h'.1.symm⟩

theorem runLength_cons (c : UInt8) (t : List UInt8) :
    runLength (c :: t) = if isdigit c then runLength t + 1 else 0 := by
  unfold runLength
  rw [List.takeWhile_cons]
  split <;> rfl

theorem rank_of_ne {p : Part} (hp : p ≠ .integral) (t : List UInt8) : rank p t = codes p t :=
  if_neg hp

theorem codes_of_begins {p : Part} {c : UInt8} (h : Begins p c) (hc : c ≠ 0) (t : List UInt8) :
    codes p (c :: t) = 49 :: runLength t :: c.toNat :: codes (p.next c) t := by
  rw [codes, if_neg hc, if_pos h]

theorem codes_of_not_begins {p : Part} {c : UInt8} (h : ¬Begins p c) (t : List UInt8) :
    ∃ k, codes p (c :: t) = code p c :: k ∧ (c ≠ 0 → k = codes (p.next c) t) := by
  by_cases hc : c = 0
  · exact ⟨[], by rw [codes, if_pos hc], fun h' => absurd hc h'⟩
  · exact ⟨_, by rw [codes, if_neg hc, if_neg h], fun _ => rfl⟩

/-- What is behind the first numbers may have a common number put in front. -/
theorem agrees_inner {r : Int} {a b : Nat} (n x : Nat) {k₁ k₂ : List Nat}
    (h : Agrees r (a :: k₁) (b :: k₂)) : Agrees r ((a + n) :: x :: k₁) ((b + n) :: x :: k₂) := by
  have hswap : ∀ {a b : Nat} {k₁ k₂ : List Nat}, ((a + n) :: x :: k₁) < ((b + n) :: x :: k₂) ↔
      (a :: k₁) < (b :: k₂) := by
    intro a b k₁ k₂
    simp only [List.cons_lt_cons_iff, Nat.add_lt_add_iff_right, Nat.add_right_cancel_iff,
      Nat.lt_irrefl, false_or, true_and]
  exact ⟨h.neg.trans hswap.symm, h.pos.trans hswap.symm⟩

theorem next_integral {p : Part} {c : UInt8} :
    p.next c = .integral ↔ Begins p c ∨ p = .integral ∧ isdigit c = true := by
  unfold Part.next Begins
  cases hd : isdigit c with
  | true =>
    by_cases h0 : c = 48
    · cases p <;> simp [h0]
    · cases p <;> simp [h0]
  | false => simp

/-- A common byte is skipped. -/
theorem agrees_skip {r : Int} {p : Part} {c : UInt8} (hc : c ≠ 0) {t₁ t₂ : List UInt8}
    (h : Agrees r (rank (p.next c) t₁) (rank (p.next c) t₂)) :
    Agrees r (rank p (c :: t₁)) (rank p (c :: t₂)) := by
  by_cases hb : Begins p c
  · have hp : p ≠ .integral := by
      rw [hb.1]
      nofun
    have hnext : p.next c = .integral := next_integral.mpr (.inl hb)
    rw [hnext, rank, rank, if_pos rfl, if_pos rfl] at h
    rw [rank_of_ne hp, rank_of_ne hp, codes_of_begins hb hc, codes_of_begins hb hc, hnext]
    exact agrees_cons_same (agrees_inner 0 c.toNat h)
  · obtain ⟨k₁, h₁, hk₁⟩ := codes_of_not_begins hb t₁
    obtain ⟨k₂, h₂, hk₂⟩ := codes_of_not_begins hb t₂
    rw [hk₁ hc] at h₁
    rw [hk₂ hc] at h₂
    by_cases hp : p = .integral
    · rw [rank, rank, if_pos hp, if_pos hp, h₁, h₂, runLength_cons, runLength_cons]
      by_cases hd : isdigit c = true
      · have hnext : p.next c = .integral := next_integral.mpr (.inr ⟨hp, hd⟩)
        rw [hnext, rank, rank, if_pos rfl, if_pos rfl] at h
        rw [if_pos hd, if_pos hd, hnext]
        exact agrees_inner 1 _ h
      · have hnext : p.next c ≠ .integral := fun hn =>
          (next_integral.mp hn).elim hb fun h' => hd h'.2
        rw [rank_of_ne hnext, rank_of_ne hnext] at h
        rw [if_neg hd, if_neg hd]
        exact agrees_cons_same (agrees_cons_same h)
    · have hnext : p.next c ≠ .integral := fun hn =>
        (next_integral.mp hn).elim hb fun h' => hp h'.1
      rw [rank_of_ne hnext, rank_of_ne hnext] at h
      rw [rank_of_ne hp, rank_of_ne hp, h₁, h₂]
      exact agrees_cons_same h

/-! ## The verdict -/

/-- The digit run that goes on for longer is greater; `diff` decides between equal ones. -/
theorem longer_eq (diff : Int) : ∀ {t₁ t₂ : List UInt8}, 0 ∈ t₁ → 0 ∈ t₂ →
    longer diff t₁ t₂ = some (if runLength t₂ < runLength t₁ then 1
      else if runLength t₁ < runLength t₂ then -1 else diff)
  | c₁ :: t₁, c₂ :: t₂, h₁, h₂ => by
    have hrest : ∀ {c : UInt8} {t : List UInt8}, isdigit c = true → 0 ∈ c :: t → 0 ∈ t := by
      intro c t hd h
      refine (List.mem_cons.mp h).resolve_left fun h0 => ?_
      rw [← h0] at hd
      exact absurd hd nofun
    rw [longer, runLength_cons, runLength_cons]
    cases hd₁ : isdigit c₁ with
    | true =>
      cases hd₂ : isdigit c₂ with
      | true => simpa using longer_eq diff (hrest hd₁ h₁) (hrest hd₂ h₂)
      | false => simp
    | false =>
      cases hd₂ : isdigit c₂ with
      | true => simp
      | false => simp

theorem isdigit_iff {c : UInt8} : isdigit c = true ↔ 48 ≤ c.toNat ∧ c.toNat ≤ 57 := by
  simp [isdigit, UInt8.le_iff_toNat_le]

theorem toNat_ne {c d : UInt8} (h : c ≠ d) : c.toNat ≠ d.toNat :=
  fun heq => h (UInt8.toNat_inj.mp heq)

/-- The first of the numbers for a string. -/
def lead (p : Part) (c : UInt8) : Nat := if Begins p c then 49 else code p c

theorem codes_lead {p : Part} {c : UInt8} (hc : Begins p c → c ≠ 0) (t : List UInt8) :
    ∃ k, codes p (c :: t) = lead p c :: k := by
  unfold lead
  split
  · next hb => exact ⟨_, codes_of_begins hb (hc hb) t⟩
  · next hb =>
    obtain ⟨k, hk, -⟩ := codes_of_not_begins hb t
    exact ⟨k, hk⟩

theorem begins_ne_zero {p : Part} {c : UInt8} (h : Begins p c) : c ≠ 0 := by
  rintro rfl
  exact absurd h.2.1 nofun

theorem begins_normal {c : UInt8} : Begins .normal c ↔ 49 ≤ c.toNat ∧ c.toNat ≤ 57 := by
  have h48 : c ≠ 48 ↔ c.toNat ≠ 48 := not_congr UInt8.toNat_inj.symm
  unfold Begins
  rw [isdigit_iff, h48]
  simp only [true_and]
  omega

/-- The verdict on two different bytes is the one of the order. -/
def Judges (p : Part) (c₁ c₂ : UInt8) (t₁ t₂ : List UInt8) : Prop :=
  ∃ r, verdict (p.state + symbol c₁) c₂ (c₁.toNat - c₂.toNat) t₁ t₂ = some r ∧ r ≠ 0 ∧
    Agrees r (rank p (c₁ :: t₁)) (rank p (c₂ :: t₂))

section Judges

variable {p : Part} {c₁ c₂ : UInt8} {t₁ t₂ : List UInt8}

/-- `CMP` is right where the bytes compare like the first numbers. -/
theorem judges_cmp (hne : c₁ ≠ c₂) (hp : p ≠ .integral)
    (htable : resultType[(p.state + symbol c₁) * 3 + symbol c₂]? = some CMP)
    (hlt : c₁.toNat < c₂.toNat → lead p c₁ < lead p c₂)
    (hgt : c₂.toNat < c₁.toNat → lead p c₂ < lead p c₁) : Judges p c₁ c₂ t₁ t₂ := by
  have hnat := toNat_ne hne
  obtain ⟨k₁, h₁⟩ := codes_lead (p := p) begins_ne_zero t₁
  obtain ⟨k₂, h₂⟩ := codes_lead (p := p) begins_ne_zero t₂
  refine ⟨c₁.toNat - c₂.toNat, ?_, by omega, ?_⟩
  · rw [verdict, htable]
    rfl
  · rw [rank_of_ne hp, rank_of_ne hp, h₁, h₂]
    apply agrees_cons_ne <;> omega

/-- The other results are right where the first numbers compare so. -/
theorem judges_const {r : Int} {a b : Nat} {k₁ k₂ : List Nat}
    (htable : resultType[(p.state + symbol c₁) * 3 + symbol c₂]? = some r)
    (hr : r = -1 ∧ a < b ∨ r = 1 ∧ b < a) (h₁ : rank p (c₁ :: t₁) = a :: k₁)
    (h₂ : rank p (c₂ :: t₂) = b :: k₂) : Judges p c₁ c₂ t₁ t₂ := by
  refine ⟨r, ?_, by omega, ?_⟩
  · rw [verdict, htable]
    rcases hr with ⟨rfl, -⟩ | ⟨rfl, -⟩ <;> rfl
  · rw [h₁, h₂]
    apply agrees_cons_ne <;> omega

/-- `LEN` is right where the lengths of the runs are compared first and then the bytes. -/
theorem judges_len (n : Nat) (k₁ k₂ : List Nat) (hne : c₁ ≠ c₂)
    (htable : resultType[(p.state + symbol c₁) * 3 + symbol c₂]? = some LEN)
    (h₁ : 0 ∈ t₁) (h₂ : 0 ∈ t₂)
    (hrank : ∀ r, Agrees r ((runLength t₁ + n) :: c₁.toNat :: k₁)
        ((runLength t₂ + n) :: c₂.toNat :: k₂) →
      Agrees r (rank p (c₁ :: t₁)) (rank p (c₂ :: t₂))) : Judges p c₁ c₂ t₁ t₂ := by
  have hnat := toNat_ne hne
  have hverdict : verdict (p.state + symbol c₁) c₂ (c₁.toNat - c₂.toNat) t₁ t₂ =
      longer (c₁.toNat - c₂.toNat) t₁ t₂ := by
    rw [verdict, htable]
    rfl
  refine ⟨_, hverdict.trans (longer_eq _ h₁ h₂), ?_, hrank _ ?_⟩
  · split
    · omega
    · split <;> omega
  · split
    · apply agrees_cons_ne <;> omega
    · split
      · apply agrees_cons_ne <;> omega
      · have heq : runLength t₁ = runLength t₂ := by omega
        rw [heq]
        apply agrees_cons_same
        apply agrees_cons_ne <;> omega

theorem mem_of_terminated {c : UInt8} {t : List UInt8} (hc : c ≠ 0) (h : 0 ∈ c :: t) : 0 ∈ t :=
  (List.mem_cons.mp h).resolve_left hc.symm

theorem digit_ne_zero {c : UInt8} (h : isdigit c = true) : c ≠ 0 := by
  rintro rfl
  exact absurd h nofun

theorem judges_normal (hne : c₁ ≠ c₂) (h₁ : 0 ∈ c₁ :: t₁) (h₂ : 0 ∈ c₂ :: t₂) :
    Judges .normal c₁ c₂ t₁ t₂ := by
  have hp : Part.normal ≠ .integral := nofun
  have hsymbol : ∀ c, Begins .normal c ↔ symbol c = 1 := by
    intro c
    rcases symbol_cases c with ⟨hs, hd, h0⟩ | ⟨hs, hd, h0⟩ | ⟨hs, rfl⟩ <;> simp [Begins, *]
  by_cases hboth : Begins .normal c₁ ∧ Begins .normal c₂
  · obtain ⟨hb₁, hb₂⟩ := hboth
    have hc₁ := begins_ne_zero hb₁
    have hc₂ := begins_ne_zero hb₂
    refine judges_len 0 (codes (Part.next .normal c₁) t₁) (codes (Part.next .normal c₂) t₂) hne ?_
      (mem_of_terminated hc₁ h₁) (mem_of_terminated hc₂ h₂) fun r hr => ?_
    · rw [(hsymbol c₁).mp hb₁, (hsymbol c₂).mp hb₂]
      rfl
    · rw [rank_of_ne hp, rank_of_ne hp, codes_of_begins hb₁ hc₁, codes_of_begins hb₂ hc₂]
      exact agrees_cons_same hr
  · have htable : ∀ a ∈ [0, 1, 2], ∀ b ∈ [0, 1, 2], ¬(a = 1 ∧ b = 1) →
        resultType[(Part.normal.state + a) * 3 + b]? = some CMP := by decide
    have hlead : ∀ c : UInt8,
        lead .normal c = if 49 ≤ c.toNat ∧ c.toNat ≤ 57 then 49 else c.toNat := by
      intro c
      simp only [lead, begins_normal, code]
      rfl
    have hnot : ¬((49 ≤ c₁.toNat ∧ c₁.toNat ≤ 57) ∧ 49 ≤ c₂.toNat ∧ c₂.toNat ≤ 57) := by
      rw [← begins_normal, ← begins_normal]
      exact hboth
    rw [hsymbol, hsymbol] at hboth
    refine judges_cmp hne hp (htable _ (symbol_mem c₁) _ (symbol_mem c₂) hboth) ?_ ?_
    · rw [hlead, hlead]
      intro hlt
      split <;> split <;> omega
    · rw [hlead, hlead]
      intro hlt
      split <;> split <;> omega

theorem judges_fractional (hne : c₁ ≠ c₂) : Judges .fractional c₁ c₂ t₁ t₂ := by
  have htable : ∀ a ∈ [0, 1, 2], ∀ b ∈ [0, 1, 2],
      resultType[(Part.fractional.state + a) * 3 + b]? = some CMP := by decide
  have hlead : ∀ c : UInt8, lead .fractional c = c.toNat := fun c => by simp [lead, Begins, code]
  refine judges_cmp hne nofun (htable _ (symbol_mem c₁) _ (symbol_mem c₂)) ?_ ?_
  · rw [hlead, hlead]
    exact id
  · rw [hlead, hlead]
    exact id

theorem judges_zeroes (hne : c₁ ≠ c₂) : Judges .zeroes c₁ c₂ t₁ t₂ := by
  have hp : Part.zeroes ≠ .integral := nofun
  have hlead : ∀ c : UInt8, lead .zeroes c = if isdigit c = false then 256 + c.toNat else c.toNat :=
    fun c => by simp [lead, Begins, code]
  have hrank : ∀ (c : UInt8) (t : List UInt8),
      ∃ k, rank .zeroes (c :: t) = lead .zeroes c :: k := by
    intro c t
    rw [rank_of_ne hp]
    exact codes_lead begins_ne_zero t
  have hlt : ∀ c : UInt8, c.toNat < 256 := fun c => c.toNat_lt
  obtain ⟨k₁, hk₁⟩ := hrank c₁ t₁
  obtain ⟨k₂, hk₂⟩ := hrank c₂ t₂
  rw [hlead] at hk₁ hk₂
  cases hd₁ : isdigit c₁ with
  | true =>
    cases hd₂ : isdigit c₂ with
    | true =>
      have htable : ∀ a ∈ [1, 2], ∀ b ∈ [1, 2],
          resultType[(Part.zeroes.state + a) * 3 + b]? = some CMP := by decide
      refine judges_cmp hne hp (htable _ (symbol_of_digit hd₁) _ (symbol_of_digit hd₂)) ?_ ?_
      · rw [hlead, hlead, hd₁, hd₂]
        exact id
      · rw [hlead, hlead, hd₁, hd₂]
        exact id
    | false =>
      have htable : ∀ a ∈ [1, 2], resultType[(Part.zeroes.state + a) * 3 + 0]? = some (-1) := by
        decide
      rw [hd₁, if_neg nofun] at hk₁
      rw [hd₂, if_pos rfl] at hk₂
      refine judges_const (by rw [symbol_of_not_digit hd₂]; exact htable _ (symbol_of_digit hd₁))
        (.inl ⟨rfl, ?_⟩) hk₁ hk₂
      have := hlt c₁
      omega
  | false =>
    cases hd₂ : isdigit c₂ with
    | true =>
      have htable : ∀ b ∈ [1, 2], resultType[(Part.zeroes.state + 0) * 3 + b]? = some 1 := by decide
      rw [hd₁, if_pos rfl] at hk₁
      rw [hd₂, if_neg nofun] at hk₂
      refine judges_const (by rw [symbol_of_not_digit hd₁]; exact htable _ (symbol_of_digit hd₂))
        (.inr ⟨rfl, ?_⟩) hk₁ hk₂
      have := hlt c₂
      omega
    | false =>
      refine judges_cmp hne hp ?_ ?_ ?_
      · rw [symbol_of_not_digit hd₁, symbol_of_not_digit hd₂]
        rfl
      · rw [hlead, hlead, hd₁, hd₂, if_pos rfl, if_pos rfl]
        omega
      · rw [hlead, hlead, hd₁, hd₂, if_pos rfl, if_pos rfl]
        omega

theorem judges_integral (hne : c₁ ≠ c₂) (h₁ : 0 ∈ c₁ :: t₁) (h₂ : 0 ∈ c₂ :: t₂) :
    Judges .integral c₁ c₂ t₁ t₂ := by
  have hrank : ∀ (c : UInt8) (t : List UInt8), ∃ k,
      rank .integral (c :: t) = (if isdigit c then runLength t + 1 else 0) :: c.toNat :: k := by
    intro c t
    have hb : ¬Begins .integral c := fun h => absurd h.1 nofun
    obtain ⟨k, hk, -⟩ := codes_of_not_begins hb t
    have hcode : code .integral c = c.toNat := by simp [code]
    exact ⟨k, by rw [rank, if_pos rfl, runLength_cons, hk, hcode]⟩
  have hnat := toNat_ne hne
  obtain ⟨k₁, hk₁⟩ := hrank c₁ t₁
  obtain ⟨k₂, hk₂⟩ := hrank c₂ t₂
  cases hd₁ : isdigit c₁ with
  | true =>
    rw [hd₁, if_pos rfl] at hk₁
    cases hd₂ : isdigit c₂ with
    | true =>
      rw [hd₂, if_pos rfl] at hk₂
      have htable : ∀ a ∈ [1, 2], ∀ b ∈ [1, 2],
          resultType[(Part.integral.state + a) * 3 + b]? = some LEN := by decide
      refine judges_len 1 k₁ k₂ hne
        (htable _ (symbol_of_digit hd₁) _ (symbol_of_digit hd₂))
        (mem_of_terminated (digit_ne_zero hd₁) h₁) (mem_of_terminated (digit_ne_zero hd₂) h₂)
        fun r hr => ?_
      rw [hk₁, hk₂]
      exact hr
    | false =>
      rw [hd₂, if_neg nofun] at hk₂
      have htable : ∀ a ∈ [1, 2], resultType[(Part.integral.state + a) * 3 + 0]? = some 1 := by
        decide
      exact judges_const (by rw [symbol_of_not_digit hd₂]; exact htable _ (symbol_of_digit hd₁))
        (.inr ⟨rfl, Nat.succ_pos _⟩) hk₁ hk₂
  | false =>
    rw [hd₁, if_neg nofun] at hk₁
    cases hd₂ : isdigit c₂ with
    | true =>
      rw [hd₂, if_pos rfl] at hk₂
      have htable : ∀ b ∈ [1, 2], resultType[(Part.integral.state + 0) * 3 + b]? = some (-1) := by
        decide
      exact judges_const (by rw [symbol_of_not_digit hd₁]; exact htable _ (symbol_of_digit hd₂))
        (.inl ⟨rfl, Nat.succ_pos _⟩) hk₁ hk₂
    | false =>
      rw [hd₂, if_neg nofun] at hk₂
      refine ⟨c₁.toNat - c₂.toNat, ?_, by omega, ?_⟩
      · rw [verdict, symbol_of_not_digit hd₁, symbol_of_not_digit hd₂]
        rfl
      · rw [hk₁, hk₂]
        apply agrees_cons_same
        apply agrees_cons_ne <;> omega

theorem judges (p : Part) (hne : c₁ ≠ c₂) (h₁ : 0 ∈ c₁ :: t₁) (h₂ : 0 ∈ c₂ :: t₂) :
    Judges p c₁ c₂ t₁ t₂ := by
  cases p with
  | normal => exact judges_normal hne h₁ h₂
  | integral => exact judges_integral hne h₁ h₂
  | fractional => exact judges_fractional hne
  | zeroes => exact judges_zeroes hne

end Judges

/-! ## The comparison -/

theorem cstr_cons (c : UInt8) (t : List UInt8) :
    cstr (c :: t) = if c = 0 then [] else c :: cstr t := by
  unfold cstr
  rw [List.takeWhile_cons]
  by_cases h0 : c = 0 <;> simp [h0]

theorem cstr_ne {c₁ c₂ : UInt8} (hne : c₁ ≠ c₂) (t₁ t₂ : List UInt8) :
    cstr (c₁ :: t₁) ≠ cstr (c₂ :: t₂) := by
  rw [cstr_cons, cstr_cons]
  split
  · next h₁ =>
    rw [if_neg fun h₂ => hne (h₁.trans h₂.symm)]
    nofun
  · split
    · nofun
    · exact fun h => hne (List.cons.inj h).1

theorem rank_zero (p : Part) (t₁ t₂ : List UInt8) : rank p (0 :: t₁) = rank p (0 :: t₂) := by
  unfold rank
  rw [runLength_cons, runLength_cons]
  rfl

theorem agrees_zero (k : List Nat) : Agrees 0 k k :=
  ⟨iff_of_false (Int.lt_irrefl 0) (List.lt_irrefl k),
    iff_of_false (Int.lt_irrefl 0) (List.lt_irrefl k)⟩

/-- What the main loop has to come to. -/
def Scans (p : Part) (c₁ c₂ : UInt8) (t₁ t₂ : List UInt8) : Prop :=
  ∃ r, scan (p.state + symbol c₁) c₁ c₂ t₁ t₂ = some r ∧
    Agrees r (rank p (c₁ :: t₁)) (rank p (c₂ :: t₂)) ∧
    (r = 0 ↔ cstr (c₁ :: t₁) = cstr (c₂ :: t₂))

theorem scans_ne (p : Part) {c₁ c₂ : UInt8} (hne : c₁ ≠ c₂) {t₁ t₂ : List UInt8}
    (h₁ : 0 ∈ c₁ :: t₁) (h₂ : 0 ∈ c₂ :: t₂) : Scans p c₁ c₂ t₁ t₂ := by
  obtain ⟨r, hverdict, hr, hagrees⟩ := judges p hne h₁ h₂
  have hnat := toNat_ne hne
  refine ⟨r, ?_, hagrees, iff_of_false hr (cstr_ne hne t₁ t₂)⟩
  unfold scan
  exact (if_pos (by omega)).trans hverdict

theorem scans_end (p : Part) (t₁ t₂ : List UInt8) : Scans p 0 0 t₁ t₂ := by
  refine ⟨0, ?_, ?_, iff_of_true rfl ?_⟩
  · unfold scan
    rfl
  · rw [rank_zero p t₁ t₂]
    exact agrees_zero _
  · rw [cstr_cons, cstr_cons]
    rfl

/-- In the state of a common prefix, the automaton compares what is left of two strings. -/
theorem scan_spec : ∀ {t₁ t₂ : List UInt8} (p : Part) (c₁ c₂ : UInt8), 0 ∈ c₁ :: t₁ → 0 ∈ c₂ :: t₂ →
    Scans p c₁ c₂ t₁ t₂ := by
  intro t₁
  induction t₁ with
  | nil =>
    intro t₂ p c₁ c₂ h₁ h₂
    obtain rfl : c₁ = 0 := (List.mem_singleton.mp h₁).symm
    by_cases hne : 0 = c₂
    · subst hne
      exact scans_end p [] t₂
    · exact scans_ne p hne h₁ h₂
  | cons d₁ t₁ ih =>
    intro t₂ p c₁ c₂ h₁ h₂
    by_cases hne : c₁ = c₂
    · subst hne
      by_cases h0 : c₁ = 0
      · subst h0
        exact scans_end p _ t₂
      · cases t₂ with
        | nil => exact absurd (List.mem_singleton.mp h₂).symm h0
        | cons d₂ t₂ =>
          obtain ⟨r, hscan, hagrees, hzero⟩ :=
            ih (p.next c₁) d₁ d₂ (mem_of_terminated h0 h₁) (mem_of_terminated h0 h₂)
          refine ⟨r, ?_, agrees_skip h0 hagrees, ?_⟩
          · rw [scan]
            simp only [Int.sub_self, ne_eq, not_true_eq_false, if_false, if_neg h0, nextState_eq,
              Option.bind_some]
            exact hscan
          · rw [hzero, cstr_cons c₁, cstr_cons c₁, if_neg h0, if_neg h0, List.cons.injEq]
            simp only [true_and]
    · exact scans_ne p hne h₁ h₂

/-- The string `s` is at the address. -/
def IsString (m : Mem) (p : Nat) (s : CString) : Prop := ∃ rest, m p = s.1 ++ 0 :: rest

/-- The result has the sign of the order of the lists of numbers. -/
theorem strverscmp_spec {m : Mem} {p q : Nat} {a b : CString} (ha : IsString m p a)
    (hb : IsString m q b) :
    ∃ r, strverscmp m p q = some r ∧ Agrees r (codes .normal (m p)) (codes .normal (m q)) ∧
      (r = 0 ↔ a = b) := by
  obtain ⟨u, hu⟩ := ha
  obtain ⟨v, hv⟩ := hb
  have hcstr : cstr (m p) = a.1 ∧ cstr (m q) = b.1 :=
    ⟨by rw [hu, cstr_of_append a.2], by rw [hv, cstr_of_append b.2]⟩
  unfold strverscmp
  split
  · next heq =>
    subst heq
    exact ⟨0, rfl, agrees_zero _, iff_of_true rfl (Subtype.ext (hcstr.1.symm.trans hcstr.2))⟩
  · have hzero : 0 ∈ m p ∧ 0 ∈ m q := ⟨by rw [hu]; simp, by rw [hv]; simp⟩
    cases hp : m p with
    | nil =>
      rw [hp] at hzero
      exact absurd hzero.1 List.not_mem_nil
    | cons c₁ t₁ =>
      cases hq : m q with
      | nil =>
        rw [hq] at hzero
        exact absurd hzero.2 List.not_mem_nil
      | cons c₂ t₂ =>
        rw [hp, hq] at hzero hcstr
        obtain ⟨r, hscan, hagrees, h0⟩ := scan_spec .normal c₁ c₂ hzero.1 hzero.2
        refine ⟨r, hscan, hagrees, h0.trans ?_⟩
        rw [hcstr.1, hcstr.2]
        exact Subtype.ext_iff.symm

theorem Agrees.le {r : Int} {k₁ k₂ : List Nat} (h : Agrees r k₁ k₂) : r ≤ 0 ↔ k₁ ≤ k₂ := by
  rw [← Int.not_lt, h.pos, not_lt]

/-- `strverscmp`, and with it `versionsort`, is a total order on strings. -/
theorem strverscmp_total_order (m : Mem) {p q r : Nat} {a b c : CString} (ha : IsString m p a)
    (hb : IsString m q b) (hc : IsString m r c) :
    ∃ x y z w, strverscmp m p q = some x ∧ strverscmp m q p = some y ∧
      strverscmp m q r = some z ∧ strverscmp m p r = some w ∧
      versionsort m { dName := p } { dName := q } = some x ∧
      (x = 0 ↔ a = b) ∧ x.sign = -y.sign ∧ (x ≤ 0 → z ≤ 0 → w ≤ 0) := by
  obtain ⟨x, hx, hxa, hx0⟩ := strverscmp_spec ha hb
  obtain ⟨y, hy, hya, -⟩ := strverscmp_spec hb ha
  obtain ⟨z, hz, hza, -⟩ := strverscmp_spec hb hc
  obtain ⟨w, hw, hwa, -⟩ := strverscmp_spec ha hc
  refine ⟨x, y, z, w, hx, hy, hz, hw, hx, hx0, ?_, fun h1 h2 => ?_⟩
  · -- the signs are those of one comparison, seen from both sides
    have hneg : x < 0 ↔ 0 < y := hxa.neg.trans hya.pos.symm
    have hpos : 0 < x ↔ y < 0 := hxa.pos.trans hya.neg.symm
    rcases Int.lt_trichotomy x 0 with h | h | h
    · rw [Int.sign_eq_neg_one_of_neg h, Int.sign_eq_one_of_pos (hneg.mp h)]
    · have hy0 : y = 0 := by omega
      rw [h, hy0]
      rfl
    · rw [Int.sign_eq_one_of_pos h, Int.sign_eq_neg_one_of_neg (hpos.mp h)]
      rfl
  · exact hwa.le.mpr (le_trans (hxa.le.mp h1) (hza.le.mp h2))

/-- Three version numbers, one behind the other. -/
def versions : Mem
  | 1 => chars "1.9" ++ [0]
  | 2 => chars "1.010" ++ [0]
  | _ => chars "1.10" ++ [0]

theorem strverscmp_total_order_versions :
    ∃ x y z w, strverscmp versions 2 1 = some x ∧ strverscmp versions 1 2 = some y ∧
      strverscmp versions 1 3 = some z ∧ strverscmp versions 2 3 = some w ∧
      versionsort versions { dName := 2 } { dName := 1 } = some x ∧
      (x = 0 ↔ (⟨chars "1.010", by decide⟩ : CString) = ⟨chars "1.9", by decide⟩) ∧
      x.sign = -y.sign ∧ (x ≤ 0 → z ≤ 0 → w ≤ 0) :=
  strverscmp_total_order versions (a := ⟨chars "1.010", by decide⟩)
    (b := ⟨chars "1.9", by decide⟩) (c := ⟨chars "1.10", by decide⟩) ⟨[], rfl⟩ ⟨[], rfl⟩ ⟨[], rfl⟩

end Librecompat.Strverscmp
