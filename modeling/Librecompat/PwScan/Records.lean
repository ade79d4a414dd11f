/-
  Records that are printed and scanned again, and the ids that `__pw_scan` stores.

  A record with colon-free fields, a login without a sign in front and ids up to the limits is
  scanned back as it is. An id field is read with `strtol`, tested against the upper limit only
  and narrowed to 32 bits: an integer below `-2 ^ 31` passes and is stored as something else,
  which the branch for other systems, with `strtoul`, rejects.
-/
import Librecompat.PwScan.Grammar
import Mathlib.Data.Int.ModEq

namespace Librecompat.PwScan

/-! ## Records -/

/-- What a line of the password file says. -/
structure Record where
  name : List UInt8
  passwd : List UInt8
  uid : Nat
  gid : Nat
  cls : List UInt8
  change : Int
  expire : Int
  gecos : List UInt8
  dir : List UInt8
  shell : List UInt8

variable {flags : Nat} {r : Record} {pw : Passwd}

def Record.fields (flags : Nat) (r : Record) : List (List UInt8) :=
  if hasFlag flags PWSCAN_MASTER then
    [r.name, r.passwd, decimal r.uid, decimal r.gid, r.cls, signedDecimal r.change,
      signedDecimal r.expire, r.gecos, r.dir, r.shell]
  else [r.name, r.passwd, decimal r.uid, decimal r.gid, r.gecos, r.dir, r.shell]

/-- The record as a line. -/
def Record.line (flags : Nat) (r : Record) : List UInt8 := [colon].intercalate (r.fields flags)

/-- The record as an entry; the parts that the line does not have are those of `pw`. -/
def Record.entry (flags : Nat) (r : Record) (pw : Passwd) : Passwd :=
  let pw := { pw with pwName := some r.name, pwPasswd := some r.passwd, pwUid := r.uid,
                      pwGid := r.gid, pwGecos := some r.gecos, pwDir := some r.dir,
                      pwShell := some r.shell }
  if hasFlag flags PWSCAN_MASTER then
    { pw with pwClass := some r.cls, pwChange := r.change, pwExpire := r.expire }
  else pw

structure Record.Printable (r : Record) : Prop where
  colons : ∀ f ∈ [r.name, r.passwd, r.cls, r.gecos, r.dir, r.shell], colon ∉ f
  login : r.name.head? ≠ some 43 ∧ r.name.head? ≠ some 45
  uid : r.uid ≤ UID_MAX
  gid : r.gid ≤ GID_MAX
  root : r.name = chars "root" → r.uid = 0
  change : LONG_MIN ≤ r.change ∧ r.change ≤ LONG_MAX
  expire : LONG_MIN ≤ r.expire ∧ r.expire ≤ LONG_MAX

theorem colon_not_mem_decimal (n : Nat) : colon ∉ decimal n := fun h =>
  absurd (isDigit_of_mem_decimal h) (by decide)

theorem colon_not_mem_signedDecimal (i : Int) : colon ∉ signedDecimal i := by
  unfold signedDecimal
  split
  · rw [List.mem_cons, not_or]
    exact ⟨by decide, colon_not_mem_decimal _⟩
  · exact colon_not_mem_decimal _

theorem Record.splitOn_line (h : r.Printable) : (r.line flags).splitOn colon = r.fields flags := by
  have hcolons := h.colons
  simp only [List.forall_mem_cons] at hcolons
  obtain ⟨h1, h2, h3, h4, h5, h6, -⟩ := hcolons
  have hu := colon_not_mem_decimal r.uid
  have hg := colon_not_mem_decimal r.gid
  have hc := colon_not_mem_signedDecimal r.change
  have he := colon_not_mem_signedDecimal r.expire
  unfold Record.line
  rw [List.splitOn_intercalate]
  · unfold Record.fields
    split <;> simp [*]
  · unfold Record.fields
    split <;> exact List.cons_ne_nil _ _

theorem stored_decimal {n : Nat} (hn : n ≤ UID_MAX) : stored (decimal n) = n := by
  have hmax : (n : Int) ≤ LONG_MAX := Int.le_trans (Int.ofNat_le.mpr hn) (by decide)
  unfold stored
  rw [strtol_decimal hmax]
  dsimp only
  rw [Int.emod_eq_of_lt (Int.natCast_nonneg n) (by unfold UID_MAX at hn; omega), Int.toNat_natCast]

theorem idOk_decimal {max n : Nat} (login : List UInt8) (hn : n ≤ max)
    (hmax : (max : Int) < LONG_MAX) : IdOk max login (decimal n) := by
  have hle : (n : Int) ≤ max := Int.ofNat_le.mpr hn
  refine .inr ⟨decimal_ne_nil n, ?_⟩
  rw [strtol_decimal (by omega)]
  exact ⟨rfl, hle⟩

/-- A printed record is a line of the grammar, and the record is what it says. -/
theorem Record.accepts (h : r.Printable) (flags : Nat) (pw : Passwd) :
    Accepts flags (r.line flags) ∧ r.entry flags pw = PwScan.entry flags (r.line flags) pw := by
  have hsplit := @Record.splitOn_line flags r h
  have huid := idOk_decimal r.name h.uid uidMax_lt
  have hgid := idOk_decimal r.name h.gid gidMax_lt
  have hroot : r.name = chars "root" → stored (decimal r.uid) = 0 := fun hname => by
    rw [stored_decimal h.uid]
    exact h.root hname
  have hu := stored_decimal h.uid
  have hg := stored_decimal (h.gid : r.gid ≤ UID_MAX)
  have hc := atol_signedDecimal h.change.1 h.change.2
  have he := atol_signedDecimal h.expire.1 h.expire.2
  refine accepts_iff.mpr ⟨r.name, r.passwd, decimal r.uid, decimal r.gid,
    (r.fields flags).drop 4, ?_, huid, hgid, hroot, ?_⟩
  · rw [hsplit]
    unfold Record.fields
    split <;> rfl
  · unfold Tail Record.fields Record.entry
    rw [hu, hg]
    split
    · exact ⟨r.cls, _, _, r.gecos, r.dir, r.shell, rfl, by rw [hc, he]⟩
    · exact ⟨r.gecos, r.dir, r.shell, rfl, rfl⟩

/-- `__pw_scan` accepts exactly its grammar, returns the fields of the line as they are, and
    gives back every record that can be printed. -/
theorem pwScan_grammar (shells : List (List UInt8)) (flags : Nat) (pw : Passwd) :
    (∀ line, (∃ pw' warnings, pwScan shells line pw flags = (pw', warnings, true)) ↔
      Accepts flags line) ∧
    (∀ line pw' warnings, pwScan shells line pw flags = (pw', warnings, true) →
      pw' = entry flags line pw) ∧
    ∀ r : Record, r.Printable →
      ∃ warnings, pwScan shells (r.line flags) pw flags = (r.entry flags pw, warnings, true) := by
  refine ⟨fun line => ⟨?_, fun h => ⟨_, pwScan_iff.mpr ⟨h, rfl⟩⟩⟩,
    fun line pw' warnings h => (pwScan_iff.mp ⟨warnings, h⟩).2,
    fun r h => pwScan_iff.mpr (Record.accepts h flags pw)⟩
  rintro ⟨pw', h⟩
  exact (pwScan_iff.mp h).1

def noPasswd : Passwd where
  pwName := none
  pwPasswd := none
  pwUid := 0
  pwGid := 0
  pwChange := 0
  pwClass := none
  pwGecos := none
  pwDir := none
  pwShell := none
  pwExpire := 0

/-- The record of root, with an expiry time before 1970. -/
def rootRecord : Record where
  name := chars "root"
  passwd := chars "*"
  uid := 0
  gid := 0
  cls := []
  change := 0
  expire := -1
  gecos := chars "System Administrator"
  dir := chars "/var/root"
  shell := chars "/bin/sh"

theorem pwScan_grammar_root :
    ∃ warnings, pwScan [] (rootRecord.line PWSCAN_MASTER) noPasswd PWSCAN_MASTER =
      (rootRecord.entry PWSCAN_MASTER noPasswd, warnings, true) :=
  (pwScan_grammar [] PWSCAN_MASTER noPasswd).2.2 rootRecord
    { colons := by decide +kernel
      login := by decide +kernel
      uid := by decide
      gid := by decide
      root := fun _ => rfl
      change := by decide
      expire := by decide }

/-! ## The ids -/

/-- The integer that a field denotes. -/
def denoted (p : List UInt8) : Int := ((numeral p).map Numeral.val).getD 0

/-- A non-empty field denotes an integer between `-2 ^ 31` and the limit, the id is that integer
    modulo `2 ^ 32`, and it is 0 only for 0. -/
def Kept (max : Nat) (p : List UInt8) (id : Nat) : Prop :=
  p ≠ [] → -0x80000000 ≤ denoted p ∧ denoted p ≤ max ∧ (id : Int) ≡ denoted p [ZMOD 0x100000000] ∧
    (denoted p ≠ 0 → id ≠ 0)

/-- The field does not denote an integer below `-2 ^ 31`. -/
def NotBelow (p : List UInt8) : Prop := p ≠ [] → -0x80000000 ≤ denoted p

theorem strtol_val (p : List UInt8) : (strtol p).1 = max LONG_MIN (min LONG_MAX (denoted p)) := by
  unfold strtol denoted
  cases numeral p with
  | none => rfl
  | some n => rfl

theorem kept_iff {limit : Nat} {login p : List UInt8} (hok : IdOk limit login p)
    (hmax : limit ≤ UID_MAX) : Kept limit p (stored p) ↔ NotBelow p := by
  refine forall_congr' fun hne => ⟨And.left, fun hlow => ?_⟩
  have hle : (strtol p).1 ≤ limit := by
    rcases hok with ⟨h, _⟩ | ⟨_, _, h⟩
    · exact absurd h hne
    · exact h
  rw [strtol_val] at hle
  unfold UID_MAX at hmax
  -- neither end of `long` is in the way
  have hval : max LONG_MIN (min LONG_MAX (denoted p)) = denoted p := by
    unfold LONG_MIN LONG_MAX at hle ⊢
    omega
  rw [hval] at hle
  have hstored : (stored p : Int) = denoted p % 0x100000000 := by
    unfold stored
    rw [strtol_val, hval]
    omega
  refine ⟨hlow, hle, ?_, fun hne h0 => ?_⟩
  · rw [hstored]
    exact Int.mod_modEq _ _
  · omega

/-- What `__pw_scan` stores for the ids of a line that it accepts is what they denote exactly when
    neither denotes an integer below `-2 ^ 31`. -/
theorem pwScan_ids_iff {shells : List (List UInt8)} {line : List UInt8} {pw' : Passwd}
    {warnings : List (List UInt8)} (h : pwScan shells line pw flags = (pw', warnings, true)) :
    Kept UID_MAX (fieldAt line 2) pw'.pwUid ∧ Kept GID_MAX (fieldAt line 3) pw'.pwGid ↔
      NotBelow (fieldAt line 2) ∧ NotBelow (fieldAt line 3) := by
  obtain ⟨hline, rfl⟩ := pwScan_iff.mp ⟨warnings, h⟩
  have huid : (entry flags line pw).pwUid = stored (fieldAt line 2) := by
    unfold entry
    split <;> rfl
  have hgid : (entry flags line pw).pwGid = stored (fieldAt line 3) := by
    unfold entry
    split <;> rfl
  rw [huid, hgid, kept_iff hline.uid (Nat.le_refl _), kept_iff hline.gid (Nat.le_refl _)]

def nobody : Passwd :=
  { noPasswd with pwName := some (chars "nobody"), pwPasswd := some (chars "*"),
                  pwUid := 4294967294, pwGid := 4294967294, pwGecos := some [], pwDir := some [],
                  pwShell := some [] }

/-- The ids -2 are stored modulo `2 ^ 32`. -/
theorem pwScan_ids_iff_nobody :
    Kept UID_MAX (fieldAt (chars "nobody:*:-2:-2:::") 2) nobody.pwUid ∧
        Kept GID_MAX (fieldAt (chars "nobody:*:-2:-2:::") 3) nobody.pwGid ↔
      NotBelow (fieldAt (chars "nobody:*:-2:-2:::") 2) ∧
        NotBelow (fieldAt (chars "nobody:*:-2:-2:::") 3) := by
  have h : pwScan [] (chars "nobody:*:-2:-2:::") noPasswd 0 = (nobody, [], true) := by
    decide +kernel
  exact pwScan_ids_iff h

/-- The uid `-4294967296` is accepted and stored as that of root. -/
theorem pwScan_negative_root :
    (pwScan [] (chars "x:*:-4294967296:1:::") noPasswd 0).2.2 = true ∧
      (pwScan [] (chars "x:*:-4294967296:1:::") noPasswd 0).1.pwUid = 0 ∧
      ¬ Kept UID_MAX (fieldAt (chars "x:*:-4294967296:1:::") 2) 0 := by
  refine ⟨by decide +kernel, by decide +kernel, fun h => ?_⟩
  have hne : fieldAt (chars "x:*:-4294967296:1:::") 2 ≠ [] := by decide +kernel
  exact absurd (h hne).1 (by decide +kernel)

end Librecompat.PwScan
