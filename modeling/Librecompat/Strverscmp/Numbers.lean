/-
  `strverscmp` orders the numbers in strings by their values.

  Of two numbers without leading zeroes the one with more digits is greater, and with equally many
  the first difference decides. That is how their lists of numbers (`codes`) compare, and by
  `strverscmp_spec` the sign of the result is that comparison. The code counts nothing, so long runs
  of digits cannot overflow anything: its result is a difference of two bytes, 1 or -1.
-/
import Librecompat.Strtol
import Librecompat.Strverscmp.Order
import Mathlib.Tactic.Ring

namespace Librecompat.Strverscmp

/-! ## Values -/

/-- Digits without a leading zero. -/
structure Number (n : List UInt8) : Prop where
  ne : n ≠ []
  digits : ∀ c ∈ n, isdigit c = true
  noLeadingZero : n.head? = some 48 → n = [48]

/-- The string begins with no digit. -/
def NoDigit (r : List UInt8) : Prop := ∀ c, r.head? = some c → isdigit c = false

variable {ds es : List UInt8}

theorem foldl_digits (acc : Nat) (ds : List UInt8) :
    ds.foldl (fun acc c => acc * 10 + (c.toNat - 48)) acc =
      acc * 10 ^ ds.length + digitsValue ds := by
  unfold digitsValue
  induction ds generalizing acc with
  | nil => simp
  | cons d ds ih =>
    rw [List.foldl_cons, List.foldl_cons, ih, ih (0 * 10 + (d.toNat - 48)), List.length_cons,
      Nat.pow_succ]
    ring

theorem digitsValue_cons (d : UInt8) (ds : List UInt8) :
    digitsValue (d :: ds) = (d.toNat - 48) * 10 ^ ds.length + digitsValue ds := by
  refine (foldl_digits (0 * 10 + (d.toNat - 48)) ds).trans ?_
  rw [Nat.zero_mul, Nat.zero_add]

theorem digitsValue_lt (h : ∀ c ∈ ds, isdigit c = true) : digitsValue ds < 10 ^ ds.length := by
  induction ds with
  | nil => exact Nat.one_pos
  | cons d ds ih =>
    rw [List.forall_mem_cons] at h
    have hrest := ih h.2
    have hdigit := isdigit_iff.mp h.1
    have hmul : (d.toNat - 48) * 10 ^ ds.length ≤ 9 * 10 ^ ds.length :=
      Nat.mul_le_mul_right _ (by omega)
    rw [digitsValue_cons, List.length_cons, Nat.pow_succ]
    omega

/-- Of equally many digits the first difference decides. -/
theorem lex_of_value_lt (hds : ∀ c ∈ ds, isdigit c = true) (hes : ∀ c ∈ es, isdigit c = true)
    (hlen : ds.length = es.length) (h : digitsValue ds < digitsValue es) (k₁ k₂ : List Nat) :
    ds.map UInt8.toNat ++ k₁ < es.map UInt8.toNat ++ k₂ := by
  induction ds generalizing es with
  | nil =>
    obtain rfl := List.length_eq_zero_iff.mp hlen.symm
    exact absurd h (Nat.lt_irrefl _)
  | cons d ds ih =>
    cases es with
    | nil => exact absurd hlen nofun
    | cons e es =>
      rw [List.forall_mem_cons] at hds hes
      have hlen' : ds.length = es.length := Nat.succ.inj hlen
      have hd := isdigit_iff.mp hds.1
      have he := isdigit_iff.mp hes.1
      have hes' := digitsValue_lt hes.2
      rw [digitsValue_cons, digitsValue_cons, hlen'] at h
      rw [List.map_cons, List.map_cons, List.cons_append, List.cons_append, List.cons_lt_cons_iff]
      rcases Nat.lt_trichotomy d.toNat e.toNat with hlt | heq | hgt
      · exact .inl hlt
      · rw [heq] at h
        exact .inr ⟨heq, ih hds.2 hes.2 hlen' (by omega)⟩
      · -- a greater first digit makes the greater value
        have hmul : (e.toNat - 48 + 1) * 10 ^ es.length ≤ (d.toNat - 48) * 10 ^ es.length :=
          Nat.mul_le_mul_right _ (by omega)
        rw [Nat.add_mul, Nat.one_mul] at hmul
        omega

/-- More digits make the greater value. -/
theorem length_le_of_value_lt {d e : UInt8} (hd : isdigit d = true) (h48 : d ≠ 48)
    (hes : ∀ c ∈ e :: es, isdigit c = true)
    (h : digitsValue (d :: ds) < digitsValue (e :: es)) : ds.length ≤ es.length := by
  by_contra hno
  have hlt := digitsValue_lt hes
  have hdigit := isdigit_iff.mp hd
  have hne := toNat_ne h48
  have hpow : 10 ^ (e :: es).length ≤ 10 ^ ds.length :=
    Nat.pow_le_pow_right (by decide) (by rw [List.length_cons]; omega)
  have hmul : 1 * 10 ^ ds.length ≤ (d.toNat - 48) * 10 ^ ds.length :=
    Nat.mul_le_mul_right _ (by
      have : (48 : UInt8).toNat = 48 := rfl
      omega)
  rw [digitsValue_cons] at h
  omega

/-! ## Codes -/

/-- Where in a number a string ends. -/
def Part.after (p : Part) (s : List UInt8) : Part := s.foldl Part.next p

theorem agrees_front {r : Int} {s t₁ t₂ : List UInt8} {p : Part} (hs : 0 ∉ s)
    (h : Agrees r (rank (p.after s) t₁) (rank (p.after s) t₂)) :
    Agrees r (rank p (s ++ t₁)) (rank p (s ++ t₂)) := by
  induction s generalizing p with
  | nil => exact h
  | cons c s ih =>
    rw [List.mem_cons, not_or] at hs
    exact agrees_skip (Ne.symm hs.1) (ih hs.2 h)

theorem after_normal {s : List UInt8} (hs : ∀ c, s.getLast? = some c → isdigit c = false) :
    Part.normal.after s = .normal := by
  rcases List.eq_nil_or_concat s with rfl | ⟨s, c, rfl⟩
  · rfl
  · have hc := hs c (by rw [List.concat_eq_append, List.getLast?_concat])
    rw [Part.after, List.concat_eq_append, List.foldl_append, List.foldl_cons, List.foldl_nil]
    unfold Part.next
    rw [hc]
    rfl

theorem runLength_append (hds : ∀ c ∈ ds, isdigit c = true) {t : List UInt8} (ht : NoDigit t) :
    runLength (ds ++ t) = ds.length := by
  induction ds with
  | nil =>
    cases t with
    | nil => rfl
    | cons c t =>
      rw [List.nil_append, runLength_cons, ht c rfl]
      rfl
  | cons d ds ih =>
    rw [List.forall_mem_cons] at hds
    rw [List.cons_append, runLength_cons, hds.1, if_pos rfl, ih hds.2, List.length_cons]

/-- Inside of an integer the digits stand for themselves. -/
theorem codes_integral (hds : ∀ c ∈ ds, isdigit c = true) (t : List UInt8) :
    codes .integral (ds ++ t) = ds.map UInt8.toNat ++ codes .integral t := by
  induction ds with
  | nil => rfl
  | cons d ds ih =>
    rw [List.forall_mem_cons] at hds
    have hb : ¬ Begins .integral d := fun h => absurd h.1 nofun
    have hcode : code .integral d = d.toNat := by simp [code]
    have hnext : Part.next .integral d = .integral := by
      rw [Part.next, hds.1]
      rfl
    rw [List.cons_append, codes, if_neg (digit_ne_zero hds.1), if_neg hb, hcode, hnext, ih hds.2,
      List.map_cons, List.cons_append]

theorem codes_integer {d : UInt8} (hd : isdigit d = true) (h48 : d ≠ 48)
    (hds : ∀ c ∈ ds, isdigit c = true) {t : List UInt8} (ht : NoDigit t) :
    codes .normal (d :: ds ++ t) =
      49 :: ds.length :: ((d :: ds).map UInt8.toNat ++ codes .integral t) := by
  have hb : Begins .normal d := ⟨rfl, hd, h48⟩
  have hnext : Part.next .normal d = .integral := next_integral.mpr (.inl hb)
  rw [List.cons_append, codes_of_begins hb (digit_ne_zero hd), runLength_append hds ht, hnext,
    codes_integral hds, List.map_cons, List.cons_append]

/-- The lists of numbers compare like the values. -/
theorem codes_lt {n₁ n₂ t₁ t₂ : List UInt8} (hn₁ : Number n₁) (hn₂ : Number n₂) (ht₁ : NoDigit t₁)
    (ht₂ : NoDigit t₂) (h : digitsValue n₁ < digitsValue n₂) :
    codes .normal (n₁ ++ t₁) < codes .normal (n₂ ++ t₂) := by
  obtain ⟨d, ds, rfl⟩ := List.exists_cons_of_ne_nil hn₁.ne
  obtain ⟨e, es, rfl⟩ := List.exists_cons_of_ne_nil hn₂.ne
  have hds := List.forall_mem_cons.mp hn₁.digits
  have hes := List.forall_mem_cons.mp hn₂.digits
  have he48 : e ≠ 48 := by
    rintro rfl
    rw [hn₂.noLeadingZero rfl] at h
    exact absurd h (Nat.not_lt_zero _)
  rw [codes_integer hes.1 he48 hes.2 ht₂]
  by_cases hd48 : d = 48
  · subst hd48
    obtain rfl : ds = [] := (List.cons.inj (hn₁.noLeadingZero rfl)).2
    exact List.cons_lt_cons_iff.mpr (.inl (by decide))
  · rw [codes_integer hds.1 hd48 hds.2 ht₁, List.cons_lt_cons_iff, List.cons_lt_cons_iff]
    have hle := length_le_of_value_lt hds.1 hd48 hn₂.digits h
    rcases Nat.lt_or_eq_of_le hle with hlt | heq
    · exact .inr ⟨rfl, .inl hlt⟩
    · exact .inr ⟨rfl, .inr ⟨heq, lex_of_value_lt hn₁.digits hn₂.digits
        (by rw [List.length_cons, List.length_cons, heq]) h _ _⟩⟩

/-! ## The result -/

/-- The range of a difference of two bytes. -/
def InRange (r : Int) : Prop := -255 ≤ r ∧ r ≤ 255

theorem longer_inRange {diff r : Int} (hdiff : InRange diff) : ∀ {t₁ t₂ : List UInt8},
    longer diff t₁ t₂ = some r → InRange r
  | [], _, h => by cases h
  | _ :: _, [], h => by cases h
  | c₁ :: t₁, c₂ :: t₂, h => by
    rw [longer] at h
    split at h
    · split at h
      · exact longer_inRange hdiff h
      · obtain rfl := Option.some.inj h
        exact ⟨by decide, by decide⟩
    · obtain rfl := Option.some.inj h
      split
      · exact ⟨by decide, by decide⟩
      · exact hdiff

theorem verdict_inRange {state : Nat} {c : UInt8} {diff r : Int} {t₁ t₂ : List UInt8}
    (hdiff : InRange diff) (h : verdict state c diff t₁ t₂ = some r) : InRange r := by
  obtain ⟨result, hresult, h⟩ := Option.bind_eq_some_iff.mp h
  have htable : ∀ x ∈ resultType, -1 ≤ x ∧ x ≤ 3 := by decide
  have hbounds := htable result (List.mem_of_getElem? hresult)
  split at h
  · exact Option.some.inj h ▸ hdiff
  · split at h
    · exact longer_inRange hdiff h
    · obtain rfl := Option.some.inj h
      exact ⟨by omega, by omega⟩

theorem scan_inRange {r : Int} : ∀ {t₁ t₂ : List UInt8} {state : Nat} {c₁ c₂ : UInt8},
    scan state c₁ c₂ t₁ t₂ = some r → InRange r := by
  intro t₁
  induction t₁ with
  | nil =>
    intro t₂ state c₁ c₂ h
    have hlt₁ := c₁.toNat_lt
    have hlt₂ := c₂.toNat_lt
    have hdiff : InRange ((c₁.toNat : Int) - c₂.toNat) := ⟨by omega, by omega⟩
    unfold scan at h
    dsimp only at h
    split at h
    · exact verdict_inRange hdiff h
    · split at h
      · exact Option.some.inj h ▸ hdiff
      · cases h
  | cons d₁ t₁ ih =>
    intro t₂ state c₁ c₂ h
    have hlt₁ := c₁.toNat_lt
    have hlt₂ := c₂.toNat_lt
    have hdiff : InRange ((c₁.toNat : Int) - c₂.toNat) := ⟨by omega, by omega⟩
    unfold scan at h
    dsimp only at h
    split at h
    · exact verdict_inRange hdiff h
    · split at h
      · exact Option.some.inj h ▸ hdiff
      · cases t₂ with
        | nil => cases h
        | cons d₂ t₂ =>
          obtain ⟨_, _, h⟩ := Option.bind_eq_some_iff.mp h
          exact ih h

theorem strverscmp_inRange {m : Mem} {a b : Nat} {r : Int} (h : strverscmp m a b = some r) :
    InRange r := by
  unfold strverscmp at h
  split at h
  · obtain rfl := Option.some.inj h
    exact ⟨by decide, by decide⟩
  · split at h
    · exact scan_inRange h
    · cases h

theorem noDigit_append {r : List UInt8} (h : NoDigit r) (rest : List UInt8) :
    NoDigit (r ++ 0 :: rest) := by
  intro c hc
  cases r with
  | nil =>
    obtain rfl := Option.some.inj hc
    rfl
  | cons d r => exact h c hc

/-- Behind a common prefix that does not end inside of a number, the string with the smaller number
    comes first. -/
theorem strverscmp_by_value {m : Mem} {a b : Nat} {s₁ s₂ : CString} {p n₁ n₂ r₁ r₂ : List UInt8}
    (ha : IsString m a s₁) (hb : IsString m b s₂) (hs₁ : s₁.1 = p ++ n₁ ++ r₁)
    (hs₂ : s₂.1 = p ++ n₂ ++ r₂) (hp : ∀ c, p.getLast? = some c → isdigit c = false)
    (hn₁ : Number n₁) (hn₂ : Number n₂) (hr₁ : NoDigit r₁) (hr₂ : NoDigit r₂)
    (h : digitsValue n₁ < digitsValue n₂) :
    ∃ r, strverscmp m a b = some r ∧ r < 0 ∧ InRange r := by
  obtain ⟨r, hr, hagrees, -⟩ := strverscmp_spec ha hb
  obtain ⟨u, hu⟩ := ha
  obtain ⟨v, hv⟩ := hb
  have hp0 : 0 ∉ p := fun h0 => s₁.2 (by
    rw [hs₁]
    exact List.mem_append_left _ (List.mem_append_left _ h0))
  refine ⟨r, hr, hagrees.neg.mpr ?_, strverscmp_inRange hr⟩
  have hlt := codes_lt hn₁ hn₂ (noDigit_append hr₁ u) (noDigit_append hr₂ v) h
  -- the common prefix is skipped: -1 agrees with the comparison behind it, and so before it
  have hagree : Agrees (-1) (codes .normal (n₁ ++ (r₁ ++ 0 :: u)))
      (codes .normal (n₂ ++ (r₂ ++ 0 :: v))) :=
    ⟨iff_of_true (by decide) hlt, iff_of_false (by decide) (not_lt_of_gt hlt)⟩
  have hnormal : Part.normal ≠ .integral := nofun
  have hskip := @agrees_front (-1) p (n₁ ++ (r₁ ++ 0 :: u)) (n₂ ++ (r₂ ++ 0 :: v)) .normal hp0
    (by rwa [after_normal hp, rank_of_ne hnormal, rank_of_ne hnormal])
  rw [rank_of_ne hnormal, rank_of_ne hnormal] at hskip
  have hshape : ∀ n r w : List UInt8, p ++ n ++ r ++ 0 :: w = p ++ (n ++ (r ++ 0 :: w)) := by
    intro n r w
    simp only [List.append_assoc]
  rw [hu, hv, hs₁, hs₂, hshape, hshape]
  exact hskip.neg.mp (by decide)

/-- Two long version numbers. -/
def longVersions : Mem
  | 1 => chars "v1.99999999999999999999a" ++ [0]
  | _ => chars "v1.100000000000000000000" ++ [0]

theorem strverscmp_by_value_long :
    ∃ r, strverscmp longVersions 1 2 = some r ∧ r < 0 ∧ InRange r :=
  @strverscmp_by_value longVersions 1 2 ⟨chars "v1.99999999999999999999a", by decide⟩
    ⟨chars "v1.100000000000000000000", by decide⟩ (chars "v1.") (chars "99999999999999999999")
    (chars "100000000000000000000") (chars "a") [] ⟨[], rfl⟩ ⟨[], rfl⟩ (by decide) (by decide)
    (fun _ hc => Option.some.inj hc ▸ rfl) ⟨by decide, by decide, by decide⟩
    ⟨by decide, by decide, by decide⟩ (fun _ hc => Option.some.inj hc ▸ rfl) nofun (by decide)

end Librecompat.Strverscmp
