/-
  `hcreate_r` makes tables of prime size.

  `isprime_eq` says that the trial division by odd numbers decides primality of an odd number of
  at least 3. `nextPrime_spec` is the search: it ends with a prime in range or without a result.
-/
import Librecompat.Hsearch.Model
import Mathlib.Data.Nat.Prime.Basic

namespace Librecompat.Hsearch

open Librecompat.Lib

/-- The odd numbers below `div` do not divide the number. -/
structure Tried (number div : Nat) : Prop where
  odd : div % 2 = 1
  three : 3 ≤ div
  none : ∀ d, d % 2 = 1 → 3 ≤ d → d < div → ¬ d ∣ number

theorem Tried.next {number div : Nat} (h : Tried number div) (hdiv : ¬ div ∣ number) :
    Tried number (div + 2) := by
  obtain ⟨hodd, h3, hnone⟩ := h
  refine ⟨by omega, by omega, fun d hd hd3 hlt => ?_⟩
  rcases Nat.lt_or_ge d div with hlt' | hge
  · exact hnone d hd hd3 hlt'
  · obtain rfl : d = div := by omega
    exact hdiv

/-- Enough divisors have been tried. -/
theorem Tried.prime {number div : Nat} (h : Tried number div) (hodd : number % 2 = 1)
    (h3 : 3 ≤ number) (hdiv : number < div * div) : number.Prime := by
  by_contra hnp
  have hmin : number.minFac ^ 2 ≤ number := Nat.minFac_sq_le_self (by omega) hnp
  have hdvd : number.minFac ∣ number := Nat.minFac_dvd number
  have hne1 : number.minFac ≠ 1 := fun h1 => by
    have := Nat.minFac_eq_one_iff.mp h1
    omega
  have hpos : 0 < number.minFac := Nat.minFac_pos number
  have hmod : number.minFac % 2 = 1 := by
    obtain ⟨c, hc⟩ := hdvd
    rcases Nat.mod_two_eq_zero_or_one number.minFac with h0 | h1
    · rw [hc, Nat.mul_mod, h0, Nat.zero_mul] at hodd
      exact absurd hodd (by decide)
    · exact h1
  have hlt : number.minFac < div := by
    by_contra hge
    have := Nat.mul_le_mul (Nat.le_of_not_lt hge) (Nat.le_of_not_lt hge)
    rw [pow_two] at hmin
    omega
  exact h.none number.minFac hmod (by omega) hlt hdvd

theorem le_div_iff {number div : UInt32} (h : 0 < div.toNat) :
    div ≤ number / div ↔ div.toNat * div.toNat ≤ number.toNat := by
  rw [UInt32.le_iff_toNat_le, UInt32.toNat_div, Nat.le_div_iff_mul_le h]

theorem mod_eq_zero_iff {number div : UInt32} :
    number % div = 0 ↔ div.toNat ∣ number.toNat := by
  rw [← UInt32.toNat_inj, UInt32.toNat_mod, Nat.dvd_iff_mod_eq_zero]
  rfl

/-- `div += 2` does not wrap while the loop goes on. -/
theorem toNat_add_two {number div : UInt32} (h : div.toNat * div.toNat ≤ number.toNat) :
    div.toNat < 65536 ∧ (div + 2).toNat = div.toNat + 2 := by
  have hlt := number.toNat_lt
  have hdiv : div.toNat < 65536 := by
    by_contra hge
    have := Nat.mul_le_mul (Nat.le_of_not_lt hge) (Nat.le_of_not_lt hge)
    omega
  refine ⟨hdiv, ?_⟩
  rw [UInt32.toNat_add]
  show (div.toNat + 2) % 2 ^ 32 = div.toNat + 2
  omega

theorem isprime_eq {number : UInt32} (hodd : number.toNat % 2 = 1) (h3 : 3 ≤ number.toNat) :
    ∃ b, isprime number = some b ∧ (b = true ↔ number.toNat.Prime) := by
  refine loop_total (fun div : UInt32 => 65538 - div.toNat) (I := fun div => Tried number.toNat
    div.toNat) (fun div div' h hbody => ?_) (fun div b h hbody => ?_)
    ⟨rfl, Nat.le_refl 3, fun d _ h3 hlt => absurd hlt (Nat.not_lt.mpr h3)⟩ (by decide)
  · split at hbody
    · next hle =>
      split at hbody
      · cases hbody
      · next hmod =>
        obtain rfl := Sum.inl.inj hbody
        rw [mod_eq_zero_iff] at hmod
        have hpos : 0 < div.toNat := Nat.lt_of_lt_of_le (by decide) h.three
        obtain ⟨hlt, hadd⟩ := toNat_add_two ((le_div_iff hpos).mp hle)
        rw [hadd]
        exact ⟨h.next hmod, by omega⟩
    · cases hbody
  · have hpos : 0 < div.toNat := Nat.lt_of_lt_of_le (by decide) h.three
    split at hbody
    · next hle =>
      split at hbody
      · next hmod =>
        obtain rfl := Sum.inr.inj hbody
        rw [mod_eq_zero_iff] at hmod
        rw [le_div_iff hpos] at hle
        refine ⟨nofun, fun hp => ?_⟩
        have h3 := h.three
        -- a divisor whose square is not above the number is neither 1 nor the number
        rcases (Nat.dvd_prime hp).mp hmod with h1 | heq
        · omega
        · rw [heq] at hle h3
          have := Nat.mul_le_mul_right number.toNat h3
          omega
      · cases hbody
    · next hle =>
      obtain rfl := Sum.inr.inj hbody
      rw [le_div_iff hpos, Nat.not_le] at hle
      exact ⟨fun _ => h.prime hodd h3 hle, fun _ => rfl⟩

/-! ## The search for a prime -/

/-- The numbers of the table that `nel` asks for: `m` is the least one allowed. -/
structure Searched (m nel : Nat) : Prop where
  odd : nel % 2 = 1
  three : 3 ≤ nel
  le : m ≤ nel
  none : ∀ q, q.Prime → m ≤ q → ¬ q < nel

theorem Searched.start {m nel : Nat} (hm : 3 ≤ m) (h : nel = m + (1 - m % 2)) :
    Searched m nel := by
  refine ⟨by omega, by omega, by omega, fun q hq hle hlt => ?_⟩
  obtain rfl : q = m := by omega
  have := hq.eq_two_or_odd
  omega

theorem Searched.next {m nel : Nat} (h : Searched m nel) (hnp : ¬ nel.Prime) :
    Searched m (nel + 2) := by
  obtain ⟨hodd, h3, hle, hnone⟩ := h
  refine ⟨by omega, by omega, by omega, fun q hq hm hlt => ?_⟩
  have hge := hnone q hq hm
  have hq2 := hq.eq_two_or_odd
  obtain rfl : q = nel := by omega
  exact hnp hq

/-- The result of the search: the least prime that is not below `m`, if there is one in range. -/
def LeastPrime (m : Nat) : Option UInt64 → Prop
  | none => ∀ q, q.Prime → m ≤ q → 4294967293 < q
  | some n => n.toNat ≤ 4294967293 ∧ n.toNat.Prime ∧ 3 ≤ n.toNat ∧ m ≤ n.toNat ∧
      ∀ q, q.Prime → m ≤ q → n.toNat ≤ q

theorem nextPrime_spec {m : Nat} {nel : UInt64} (h : Searched m nel.toNat) :
    ∃ r, (loop nextPrimeBody (2 ^ 32) nel).join = some r ∧ LeastPrime m r := by
  have hmax : (uintMax - 2).toNat = 4294967293 := rfl
  have hprime : ∀ nel : UInt64, Searched m nel.toNat → ¬ uintMax - 2 < nel →
      ∃ b, isprime nel.toUInt32 = some b ∧ (b = true ↔ nel.toNat.Prime) := by
    intro nel h hle
    rw [UInt64.lt_iff_toNat_lt, hmax] at hle
    have hsize : nel.toUInt32.toNat = nel.toNat := by
      rw [UInt64.toNat_toUInt32]
      omega
    have hp : ∃ b, isprime nel.toUInt32 = some b ∧ (b = true ↔ nel.toUInt32.toNat.Prime) :=
      isprime_eq (by rw [hsize]; exact h.odd) (by rw [hsize]; exact h.three)
    rwa [hsize] at hp
  have hloop : ∃ r, loop nextPrimeBody (2 ^ 32) nel = some r ∧
      ∃ r', r = some r' ∧ LeastPrime m r' := by
    refine loop_total (I := fun nel => Searched m nel.toNat)
      (fun nel : UInt64 => 2 ^ 32 - 1 - nel.toNat) (fun nel nel' h hbody => ?_)
      (fun nel r h hbody => ?_) h ?_
    · unfold nextPrimeBody at hbody
      split at hbody
      · cases hbody
      · next hle =>
        obtain ⟨b, hb, hiff⟩ := hprime nel h hle
        rw [hb] at hbody
        rw [UInt64.lt_iff_toNat_lt, hmax] at hle
        cases b with
        | true => cases hbody
        | false =>
          obtain rfl := Sum.inl.inj hbody
          have hadd : (nel + 2).toNat = nel.toNat + 2 := by
            rw [UInt64.toNat_add]
            show (nel.toNat + 2) % 2 ^ 64 = nel.toNat + 2
            omega
          rw [hadd]
          exact ⟨h.next fun hp => Bool.noConfusion (hiff.mpr hp), by omega⟩
    · unfold nextPrimeBody at hbody
      split at hbody
      · next hlt =>
        obtain rfl := Sum.inr.inj hbody
        rw [UInt64.lt_iff_toNat_lt, hmax] at hlt
        refine ⟨none, rfl, fun q hq hm => ?_⟩
        exact Nat.lt_of_lt_of_le hlt (Nat.le_of_not_lt (h.none q hq hm))
      · next hle =>
        obtain ⟨b, hb, hiff⟩ := hprime nel h hle
        rw [hb] at hbody
        rw [UInt64.lt_iff_toNat_lt, hmax] at hle
        cases b with
        | false => cases hbody
        | true =>
          obtain rfl := Sum.inr.inj hbody
          exact ⟨some nel, rfl, Nat.le_of_not_lt hle, hiff.mp rfl, h.three, h.le,
            fun q hq hm => Nat.le_of_not_lt (h.none q hq hm)⟩
    · have := h.three
      omega
  obtain ⟨_, hr, r, rfl, hspec⟩ := hloop
  exact ⟨r, by rw [hr, Option.join_some], hspec⟩

/-! ## hcreate_r -/

theorem or_one (n : Nat) : n ||| 1 = n + (1 - n % 2) := by
  have hdiv : (n ||| 1) / 2 = n / 2 := by
    rw [Nat.or_div_two]
    exact Nat.or_zero _
  have hmod : (n ||| 1) % 2 = 1 := by
    rw [Nat.or_mod_two_eq_one]
    exact .inr rfl
  omega

/-- What `hcreate_r` makes: unused slots, one more than a prime. -/
structure Created (htab : HsearchData) : Prop where
  table : htab.table = some (List.replicate (htab.size.toNat + 1) ⟨0, ⟨0, 0⟩⟩)
  prime : htab.size.toNat.Prime
  three : 3 ≤ htab.size.toNat
  le : htab.size.toNat ≤ 4294967293
  filled : htab.filled = 0

/-- What a call without an active table does: `r` is the prime that the search finds, if there is
    one. -/
theorem hcreateR_cases (nel : UInt64) (callocOk : Bool) {htab : HsearchData}
    (htable : htab.table = none) :
    ∃ r, LeastPrime (max nel.toNat 3) r ∧
      hcreateR nel callocOk (some htab) =
        match r with
        | none => some (some htab, 0, some ENOMEM)
        | some n =>
          if callocOk then
            some (some { table := some (List.replicate (n.toNat + 1) ⟨0, ⟨0, 0⟩⟩)
                         size := n.toUInt32
                         filled := 0 }, 1, none)
          else some (some { table := none, size := n.toUInt32, filled := 0 }, 0, none) := by
  have h3 : ∃ nel' : UInt64, (if nel < 3 then 3 else nel) = nel' ∧ nel'.toNat = max nel.toNat 3 := by
    refine ⟨_, rfl, ?_⟩
    split
    · next hlt =>
      have : nel.toNat < 3 := UInt64.lt_iff_toNat_lt.mp hlt
      show 3 = max nel.toNat 3
      omega
    · next hge =>
      have : 3 ≤ nel.toNat := UInt64.le_iff_toNat_le.mp (UInt64.not_lt.mp hge)
      omega
  obtain ⟨nel', hnel', hmax⟩ := h3
  have hstart : Searched (max nel.toNat 3) (nel' ||| 1).toNat := by
    rw [← hmax]
    exact Searched.start (by omega) ((UInt64.toNat_or nel' 1).trans (or_one _))
  obtain ⟨r, hr, hspec⟩ := nextPrime_spec hstart
  refine ⟨r, hspec, ?_⟩
  unfold hcreateR
  dsimp only
  rw [htable, hnel', if_neg (by decide), hr, Option.bind_eq_bind, Option.bind_some]
  cases r with
  | none => rfl
  | some n =>
    have hle := hspec.1
    have hadd : (n.toUInt32 + 1).toNat = n.toNat + 1 := by
      rw [UInt32.toNat_add, UInt64.toNat_toUInt32]
      show (n.toNat % 2 ^ 32 + 1) % 2 ^ 32 = n.toNat + 1
      omega
    dsimp only
    rw [hadd]
    cases callocOk <;> rfl

theorem toNat_of_leastPrime {m : Nat} {n : UInt64} (h : LeastPrime m (some n)) :
    n.toUInt32.toNat = n.toNat := by
  have hle := h.1
  rw [UInt64.toNat_toUInt32]
  omega

theorem hcreateR_created {nel : UInt64} {callocOk : Bool} {htab₀ : Option HsearchData}
    {htab : HsearchData} {errno : Option Errno}
    (h : hcreateR nel callocOk htab₀ = some (some htab, 1, errno)) : Created htab := by
  cases htab₀ with
  | none => simp [hcreateR] at h
  | some htab₀ =>
    cases htable : htab₀.table with
    | some table => simp [hcreateR, htable] at h
    | none =>
      obtain ⟨r, hspec, hcall⟩ := hcreateR_cases nel callocOk htable
      rw [hcall] at h
      cases r with
      | none => simp at h
      | some n =>
        have hsize := toNat_of_leastPrime hspec
        obtain ⟨hle, hprime, h3, -, -⟩ := hspec
        cases callocOk with
        | false => simp at h
        | true =>
          have heq := Option.some.inj (Prod.mk.inj (Option.some.inj h)).1
          rw [← heq]
          exact ⟨by rw [hsize], by rwa [hsize], by rwa [hsize], by rwa [hsize], rfl⟩

end Librecompat.Hsearch
