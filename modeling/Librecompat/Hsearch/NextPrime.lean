/-
  `hcreate_r` picks the least prime that is large enough.

  `hcreateR_next_prime` puts the search of `Create.lean` together with what becomes of the table
  descriptor. `NoWrap` says of the numbers that the two loops get to that adding 2 to them does not
  wrap and that converting them to 32 bits loses nothing.
-/
import Librecompat.Hsearch.Create
import Mathlib.Order.Bounds.Basic

namespace Librecompat.Hsearch

open Librecompat.Lib

/-- One pass of the loop of `isprime`. -/
def isprimeBody (number div : UInt32) : UInt32 ⊕ Bool :=
  if div ≤ number / div then
    if number % div = 0 then .inr false else .inl (div + 2)
  else .inr true

/-- The number where the search begins. -/
def firstOdd (nel : UInt64) : UInt64 := (if nel < 3 then 3 else nel) ||| 1

/-- No computation of the search from `first` on wraps. -/
structure NoWrap (first : UInt64) : Prop where
  search : ∀ nel, Passes nextPrimeBody first nel → ¬ uintMax - 2 < nel →
    nel.toUInt32.toNat = nel.toNat ∧ (nel + 2).toNat = nel.toNat + 2
  division : ∀ nel, Passes nextPrimeBody first nel → ¬ uintMax - 2 < nel →
    ∀ div, Passes (isprimeBody nel.toUInt32) 3 div →
      3 ≤ div.toNat ∧ (div ≤ nel.toUInt32 / div → (div + 2).toNat = div.toNat + 2)

/-- Every divisor that is tried is at least 3. -/
theorem three_le_of_passes {number div : UInt32} (h : Passes (isprimeBody number) 3 div) :
    3 ≤ div.toNat := by
  refine h.inv (I := fun div => 3 ≤ div.toNat) (fun div div' h3 hbody => ?_) (Nat.le_refl 3)
  unfold isprimeBody at hbody
  split at hbody
  · next hle =>
    split at hbody
    · cases hbody
    · obtain rfl := Sum.inl.inj hbody
      rw [(toNat_add_two ((le_div_iff (by omega)).mp hle)).2]
      omega
  · cases hbody

theorem noWrap (first : UInt64) : NoWrap first := by
  have hmax : (uintMax - 2).toNat = 4294967293 := rfl
  refine ⟨fun nel _ hle => ?_, fun nel _ hle div hdiv => ?_⟩
  · rw [UInt64.lt_iff_toNat_lt, hmax] at hle
    rw [UInt64.toNat_toUInt32, UInt64.toNat_add]
    refine ⟨by omega, ?_⟩
    show (nel.toNat + 2) % 2 ^ 64 = nel.toNat + 2
    omega
  · have h3 := three_le_of_passes hdiv
    exact ⟨h3, fun hdiv => (toNat_add_two ((le_div_iff (by omega)).mp hdiv)).2⟩

/-- What the search finds is the least prime that is large enough, and it finds one if there is one
    up to `UINT_MAX - 2`. -/
theorem leastPrime_iff {m : Nat} {r : Option UInt64} (h : LeastPrime m r) :
    r.isSome ↔ ∃ p, p.Prime ∧ m ≤ p ∧ p ≤ uintMax.toNat - 2 := by
  have hmax : uintMax.toNat - 2 = 4294967293 := rfl
  rw [hmax]
  cases r with
  | none =>
    refine iff_of_false nofun ?_
    rintro ⟨p, hp, hm, hle⟩
    have hlt := h p hp hm
    omega
  | some n =>
    obtain ⟨hle, hprime, -, hm, -⟩ := h
    exact iff_of_true rfl ⟨n.toNat, hprime, hm, hle⟩

/-- A call without an active table succeeds exactly when there is a prime in range and the
    allocation succeeds. It makes an empty table of the least such prime, and otherwise none at
    all. -/
theorem hcreateR_next_prime (nel : UInt64) (callocOk : Bool) {htab : HsearchData}
    (htable : htab.table = none) :
    ∃ htab' ret errno, hcreateR nel callocOk (some htab) = some (some htab', ret, errno) ∧
      (ret = 1 ↔ (∃ p, p.Prime ∧ max nel.toNat 3 ≤ p ∧ p ≤ uintMax.toNat - 2) ∧
        callocOk = true) ∧
      (ret = 1 → IsLeast {p | p.Prime ∧ max nel.toNat 3 ≤ p} htab'.size.toNat ∧
        htab'.filled = 0 ∧
        htab'.table = some (List.replicate (htab'.size.toNat + 1) ⟨0, ⟨0, 0⟩⟩) ∧
        (htab'.size + 1).toNat = htab'.size.toNat + 1) ∧
      (ret ≠ 1 → ret = 0 ∧ htab'.table = none) ∧
      NoWrap (firstOdd nel) := by
  obtain ⟨r, hspec, hcall⟩ := hcreateR_cases nel callocOk htable
  rw [hcall, ← leastPrime_iff hspec]
  have hfailed : ∀ (ret : Int) (t : HsearchData), ret = 0 → t.table = none →
      (ret = 1 → IsLeast {p | p.Prime ∧ max nel.toNat 3 ≤ p} t.size.toNat ∧ t.filled = 0 ∧
        t.table = some (List.replicate (t.size.toNat + 1) ⟨0, ⟨0, 0⟩⟩) ∧
        (t.size + 1).toNat = t.size.toNat + 1) ∧ (ret ≠ 1 → ret = 0 ∧ t.table = none) ∧
        NoWrap (firstOdd nel) :=
    fun ret t hret ht => ⟨fun h1 => by omega, fun _ => ⟨hret, ht⟩, noWrap _⟩
  cases r with
  | none => exact ⟨htab, 0, _, rfl, iff_of_false (by decide) (fun h => nomatch h.1),
      hfailed 0 htab rfl htable⟩
  | some n =>
    have hsize := toNat_of_leastPrime hspec
    obtain ⟨hle, hprime, -, hm, hleast⟩ := hspec
    cases callocOk with
    | false => exact ⟨_, 0, _, rfl, iff_of_false (by decide) (fun h => nomatch h.2),
        hfailed 0 _ rfl rfl⟩
    | true =>
      refine ⟨_, 1, none, rfl, iff_of_true rfl ⟨rfl, rfl⟩, fun _ => ⟨?_, rfl, ?_, ?_⟩,
        fun h => absurd rfl h, noWrap _⟩
      · dsimp only
        rw [hsize]
        exact ⟨⟨hprime, hm⟩, fun q hq => hleast q hq.1 hq.2⟩
      · dsimp only
        rw [hsize]
      · rw [UInt32.toNat_add]
        show (n.toUInt32.toNat + 1) % 2 ^ 32 = n.toUInt32.toNat + 1
        omega

/-- A table for eight entries has eleven slots. -/
theorem hcreateR_next_prime_eight :
    ∃ htab' ret errno, hcreateR 8 true (some { table := none, size := 0, filled := 0 }) =
        some (some htab', ret, errno) ∧
      (ret = 1 ↔ (∃ p, p.Prime ∧ max (8 : UInt64).toNat 3 ≤ p ∧ p ≤ uintMax.toNat - 2) ∧
        true = true) ∧
      (ret = 1 → IsLeast {p | p.Prime ∧ max (8 : UInt64).toNat 3 ≤ p} htab'.size.toNat ∧
        htab'.filled = 0 ∧
        htab'.table = some (List.replicate (htab'.size.toNat + 1) ⟨0, ⟨0, 0⟩⟩) ∧
        (htab'.size + 1).toNat = htab'.size.toNat + 1) ∧
      (ret ≠ 1 → ret = 0 ∧ htab'.table = none) ∧
      NoWrap (firstOdd 8) :=
  hcreateR_next_prime 8 true rfl

end Librecompat.Hsearch
