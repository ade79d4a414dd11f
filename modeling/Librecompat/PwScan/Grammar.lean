/-
  The lines that `__pw_scan` accepts, and what it makes of them.

  `Accepts` is the grammar over the colon-separated fields of a line, `entry` the record they
  give. Each stage of the function takes the next field; `scanFields_ok` puts the stages
  together. A printed record is such a line and gives the record back.
-/
import Librecompat.Lib.Yields
import Librecompat.PwScan.Model

namespace Librecompat.PwScan

open Librecompat.Lib

/-! ## The grammar -/

/-- The fields in front of a position of `strsep`. -/
def fields : Option (List UInt8) → List (List UInt8)
  | none => []
  | some s => s.splitOn colon

/-- The id that is stored for a field. -/
def stored (p : List UInt8) : Nat := ((strtol p).1 % 0x100000000).toNat

/-- An empty field with a login that starts with `+` or `-`, or a number up to the limit. -/
def IdOk (max : Nat) (login p : List UInt8) : Prop :=
  (p = [] ∧ (login.head? = some 43 ∨ login.head? = some 45)) ∨
  (p ≠ [] ∧ (strtol p).2 = p.length ∧ (strtol p).1 ≤ max)

/-- Field `i` of a line. -/
def fieldAt (line : List UInt8) (i : Nat) : List UInt8 := (line.splitOn colon).getD i []

/-- How many fields a line has. -/
def fieldCount (flags : Nat) : Nat := if hasFlag flags PWSCAN_MASTER then 10 else 7

structure Accepts (flags : Nat) (line : List UInt8) : Prop where
  count : (line.splitOn colon).length = fieldCount flags
  uid : IdOk UID_MAX (fieldAt line 0) (fieldAt line 2)
  gid : IdOk GID_MAX (fieldAt line 0) (fieldAt line 3)
  root : fieldAt line 0 = chars "root" → stored (fieldAt line 2) = 0

/-- The entry with the fields of an accepted line. -/
def entry (flags : Nat) (line : List UInt8) (pw : Passwd) : Passwd :=
  let pw := { pw with pwName := some (fieldAt line 0), pwPasswd := some (fieldAt line 1),
                      pwUid := stored (fieldAt line 2), pwGid := stored (fieldAt line 3),
                      pwGecos := some (fieldAt line (fieldCount flags - 3)),
                      pwDir := some (fieldAt line (fieldCount flags - 2)),
                      pwShell := some (fieldAt line (fieldCount flags - 1)) }
  if hasFlag flags PWSCAN_MASTER then
    { pw with pwClass := some (fieldAt line 4), pwChange := atol (fieldAt line 5),
              pwExpire := atol (fieldAt line 6) }
  else pw

/-! ## The stages -/

variable {flags max : Nat} {login p : List UInt8} {s s' : Scan} {shells : List (List UInt8)}

/-- The text in front of the first colon, and the one behind it. -/
theorem cut_colon {t : List UInt8} (h : colon ∈ t) :
    t = t.takeWhile (· ≠ colon) ++ colon :: (t.dropWhile (· ≠ colon)).tail ∧
      colon ∉ t.takeWhile (· ≠ colon) := by
  have hnot : colon ∉ t.takeWhile (· ≠ colon) := fun hm => by
    simpa using List.mem_takeWhile_imp hm
  refine ⟨?_, hnot⟩
  have hcut := List.takeWhile_append_dropWhile (p := fun c => decide (c ≠ colon)) (l := t)
  cases hdrop : t.dropWhile (· ≠ colon) with
  | nil =>
    rw [hdrop, List.append_nil] at hcut
    exact absurd (hcut.symm ▸ h) hnot
  | cons c rest =>
    have hc := List.head?_dropWhile_not (fun c => decide (c ≠ colon)) t
    rw [hdrop] at hc hcut
    have hcolon : c = colon := by simpa using hc
    rw [hcolon] at hcut
    exact hcut.symm

theorem strsep_fields (bp : Option (List UInt8)) :
    (strsep bp).1 = (fields bp).head? ∧ fields (strsep bp).2 = (fields bp).tail := by
  cases bp with
  | none => exact ⟨rfl, rfl⟩
  | some t =>
    simp only [strsep, fields]
    by_cases hc : colon ∈ t
    · obtain ⟨hcut, hnot⟩ := cut_colon hc
      have hsplit : t.splitOn colon =
          t.takeWhile (· ≠ colon) :: ((t.dropWhile (· ≠ colon)).tail).splitOn colon := by
        conv_lhs => rw [hcut]
        exact List.splitOn_append_cons_self_of_not_mem hnot _
      rw [if_pos hc, hsplit]
      exact ⟨rfl, rfl⟩
    · rw [if_neg hc, List.splitOn_eq_singleton hc]
      exact ⟨rfl, rfl⟩

/-- The next field, when there is one. -/
theorem field_cons {set : Option (List UInt8) → Passwd → Passwd} {fs : List (List UInt8)}
    (h : fields s.bp = p :: fs) :
    ∃ s', field flags set s = .ok (p, s') ∧ fields s'.bp = fs ∧ s'.pw = set (some p) s.pw := by
  obtain ⟨hhead, htail⟩ := strsep_fields s.bp
  rw [h] at hhead htail
  have hpair : strsep s.bp = (some p, (strsep s.bp).2) := Prod.ext hhead rfl
  unfold field
  rw [hpair]
  exact ⟨_, rfl, htail, rfl⟩

theorem field_nil {set : Option (List UInt8) → Passwd → Passwd} (h : fields s.bp = []) :
    ∃ s', field flags set s = .error s' := by
  have hhead := (strsep_fields s.bp).1
  have hpair : strsep s.bp = (none, (strsep s.bp).2) :=
    Prod.ext (hhead.trans (by rw [h]; rfl)) rfl
  unfold field
  rw [hpair]
  exact ⟨_, rfl⟩

theorem field_ok {set : Option (List UInt8) → Passwd → Passwd}
    (h : field flags set s = .ok (p, s')) :
    fields s.bp = p :: fields s'.bp ∧ s'.pw = set (some p) s.pw := by
  cases hf : fields s.bp with
  | nil =>
    obtain ⟨t, ht⟩ := @field_nil flags s set hf
    rw [ht] at h
    cases h
  | cons q fs =>
    obtain ⟨t, heq, hfs, hpw⟩ := @field_cons flags q s set fs hf
    rw [heq] at h
    cases h
    exact ⟨by rw [hfs], hpw⟩

theorem scanId_ok_iff {what : String} {root : Bool} {id : Nat} (hmax : (max : Int) < LONG_MAX) :
    scanId flags max what root login p s = .ok id ↔
      IdOk max login p ∧ id = stored p ∧ (root = true → id = 0) := by
  have hok : IdOk max login p ↔ ¬ (p = [] ∧ login.head? ≠ some 43 ∧ login.head? ≠ some 45) ∧
      (strtol p).1 ≤ max ∧ (strtol p).2 = p.length := by
    unfold IdOk
    by_cases hp : p = []
    · subst hp
      have hnum : (strtol []).1 ≤ (max : Int) := Int.natCast_nonneg max
      have hstop : (strtol []).2 = 0 := rfl
      simp only [hnum, hstop, List.length_nil, true_and, not_true_eq_false, ne_eq, or_false,
        and_true]
      rw [not_and_or, not_not, not_not]
    · simp only [hp, ne_eq, false_and, false_or, not_false_eq_true, true_and]
      exact and_comm
  have hstop := strtol_stop_le p
  rw [hok]
  unfold scanId
  split
  · next hempty => exact iff_of_false nofun fun h => h.1.1 hempty
  · next hempty =>
    dsimp only
    split
    · next hrange =>
      refine iff_of_false nofun fun h => ?_
      have hle := h.1.2.1
      omega
    · next hrange =>
      split
      · next hlt => exact iff_of_false nofun fun h => absurd h.1.2.2 (Nat.ne_of_lt hlt)
      · next hlt =>
        have hnum : (strtol p).1 ≤ max := by omega
        have hend : (strtol p).2 = p.length := by omega
        split
        · next hroot =>
          refine iff_of_false nofun fun ⟨_, hid, h0⟩ => ?_
          simp only [Bool.and_eq_true, decide_eq_true_eq] at hroot
          exact hroot.2 (hid.symm.trans (h0 hroot.1))
        · next hroot =>
          simp only [Bool.and_eq_true, decide_eq_true_eq, not_and, not_not] at hroot
          constructor
          · intro h
            obtain rfl := Except.ok.inj h
            exact ⟨⟨hempty, hnum, hend⟩, rfl, hroot⟩
          · rintro ⟨_, rfl, _⟩
            rfl

theorem scanMaster_ok (h : scanMaster flags s = .ok s') :
    ∃ cls change expire, fields s.bp = cls :: change :: expire :: fields s'.bp ∧
      s'.pw = { s.pw with pwClass := some cls, pwChange := atol change,
                          pwExpire := atol expire } := by
  obtain ⟨⟨cls, s₁⟩, h₁, h⟩ := bind_eq_ok h
  obtain ⟨⟨change, s₂⟩, h₂, h⟩ := bind_eq_ok h
  obtain ⟨⟨expire, s₃⟩, h₃, h⟩ := bind_eq_ok h
  obtain rfl := Except.ok.inj h
  obtain ⟨f₁, p₁⟩ := field_ok h₁
  obtain ⟨f₂, p₂⟩ := field_ok h₂
  obtain ⟨f₃, p₃⟩ := field_ok h₃
  refine ⟨cls, change, expire, by rw [f₁, f₂, f₃], ?_⟩
  simp only at p₂ p₃
  rw [p₃, p₂, p₁]

theorem ok_bind {α β : Type} (a : α) (f : α → Except Scan β) : (Except.ok a >>= f) = f a := rfl

theorem scanMaster_cons {cls change expire : List UInt8} {fs : List (List UInt8)}
    (h : fields s.bp = cls :: change :: expire :: fs) :
    ∃ s', scanMaster flags s = .ok s' ∧ fields s'.bp = fs := by
  obtain ⟨s₁, h₁, f₁, _⟩ := field_cons h
  rw [scanMaster, h₁, ok_bind]
  dsimp only
  obtain ⟨s₂, h₂, f₂, _⟩ := field_cons f₁
  rw [h₂, ok_bind]
  dsimp only
  obtain ⟨s₃, h₃, f₃, _⟩ := @field_cons flags expire
    { s₂ with pw := { s₂.pw with pwChange := atol change } } (fun _ pw => pw) fs f₂
  rw [h₃, ok_bind]
  exact ⟨_, rfl, f₃⟩

/-- Whatever the shell is, the function goes on. -/
theorem checkShell_eq (shells : List (List UInt8)) (flags : Nat) (login p : List UInt8)
    (s : Scan) :
    (checkShell shells flags login p s).bp = s.bp ∧ (checkShell shells flags login p s).pw = s.pw := by
  unfold checkShell Scan.warnx
  split
  · split <;> exact ⟨rfl, rfl⟩
  · exact ⟨rfl, rfl⟩

/-! ## The line -/

theorem uidMax_lt : (UID_MAX : Int) < LONG_MAX := by decide

theorem gidMax_lt : (GID_MAX : Int) < LONG_MAX := by decide

/-- The fields behind the gid. -/
def Tail (flags : Nat) (fs : List (List UInt8)) (pw pw' : Passwd) : Prop :=
  if hasFlag flags PWSCAN_MASTER then
    ∃ cls change expire gecos dir shell, fs = [cls, change, expire, gecos, dir, shell] ∧
      pw' = { pw with pwClass := some cls, pwChange := atol change, pwExpire := atol expire,
                      pwGecos := some gecos, pwDir := some dir, pwShell := some shell }
  else
    ∃ gecos dir shell, fs = [gecos, dir, shell] ∧
      pw' = { pw with pwGecos := some gecos, pwDir := some dir, pwShell := some shell }

theorem scanEnd_ok (h : scanEnd shells flags login s = .ok s') :
    ∃ gecos dir shell, fields s.bp = [gecos, dir, shell] ∧
      s'.pw = { s.pw with pwGecos := some gecos, pwDir := some dir, pwShell := some shell } := by
  obtain ⟨⟨gecos, s₁⟩, h₁, e₁⟩ := bind_eq_ok h
  obtain ⟨⟨dir, s₂⟩, h₂, e₂⟩ := bind_eq_ok e₁
  obtain ⟨⟨shell, s₃⟩, h₃, hlast⟩ := bind_eq_ok e₂
  obtain ⟨f₁, p₁⟩ := field_ok h₁
  obtain ⟨f₂, p₂⟩ := field_ok h₂
  obtain ⟨f₃, p₃⟩ := field_ok h₃
  -- nothing follows the shell
  obtain ⟨hbp, hpw⟩ := checkShell_eq shells flags login shell s₃
  have hhead := (strsep_fields s₃.bp).1
  dsimp only at hlast
  rw [hbp] at hlast
  split at hlast
  · next hnone =>
    obtain rfl := Except.ok.inj hlast
    rw [hnone] at hhead
    have hnil : fields s₃.bp = [] := List.head?_eq_none_iff.mp hhead.symm
    exact ⟨gecos, dir, shell, by rw [f₁, f₂, f₃, hnil], by rw [hpw, p₃, p₂, p₁]⟩
  · cases hlast

theorem scanFields_ok (h : scanFields shells flags s = .ok s') :
    ∃ login passwd uid gid fs, fields s.bp = login :: passwd :: uid :: gid :: fs ∧
      IdOk UID_MAX login uid ∧ IdOk GID_MAX login gid ∧
      (login = chars "root" → stored uid = 0) ∧
      Tail flags fs { s.pw with pwName := some login, pwPasswd := some passwd,
                                pwUid := stored uid, pwGid := stored gid } s'.pw := by
  obtain ⟨⟨login, s₁⟩, h₁, e₁⟩ := bind_eq_ok h
  obtain ⟨⟨passwd, s₂⟩, h₂, e₂⟩ := bind_eq_ok e₁
  obtain ⟨⟨uid, s₃⟩, h₃, e₃⟩ := bind_eq_ok e₂
  obtain ⟨id, huid, e₄⟩ := bind_eq_ok e₃
  obtain ⟨⟨gid, s₄⟩, h₄, e₅⟩ := bind_eq_ok e₄
  obtain ⟨id', hgid, e₆⟩ := bind_eq_ok e₅
  obtain ⟨s₅, h₅, h₆⟩ := bind_eq_ok e₆
  obtain ⟨f₁, p₁⟩ := field_ok h₁
  obtain ⟨f₂, p₂⟩ := field_ok h₂
  obtain ⟨f₃, p₃⟩ := field_ok h₃
  obtain ⟨f₄, p₄⟩ := field_ok h₄
  obtain ⟨gecos, dir, shell, f₆, p₆⟩ := scanEnd_ok h₆
  obtain ⟨uidOk, rfl, hroot⟩ := (scanId_ok_iff uidMax_lt).mp huid
  obtain ⟨gidOk, rfl, -⟩ := (scanId_ok_iff gidMax_lt).mp hgid
  refine ⟨login, passwd, uid, gid, fields s₄.bp, by rw [f₁, f₂, f₃, f₄], uidOk, gidOk,
    fun hlogin => hroot (by simpa using hlogin), ?_⟩
  rw [p₆]
  unfold Tail
  split at h₅
  · next hflag =>
    obtain ⟨cls, change, expire, f₅, p₅⟩ := scanMaster_ok h₅
    rw [if_pos hflag]
    refine ⟨cls, change, expire, gecos, dir, shell, ?_, ?_⟩
    · exact f₅.trans (by rw [f₆])
    · simp only at p₂ p₃ p₄ p₅
      simp only [p₅, p₄, p₃, p₂, p₁]
  · next hflag =>
    obtain rfl := Except.ok.inj h₅
    rw [if_neg hflag]
    refine ⟨gecos, dir, shell, ?_, ?_⟩
    · exact f₆
    · simp only at p₂ p₃ p₄
      simp only [p₄, p₃, p₂, p₁]

/-- The three fields at the end. -/
theorem scanEnd_cons {gecos dir shell : List UInt8} (login : List UInt8)
    (h : fields s.bp = [gecos, dir, shell]) :
    ∃ s', scanEnd shells flags login s = .ok s' := by
  obtain ⟨s₁, h₁, f₁, _⟩ := field_cons h
  rw [scanEnd, h₁, ok_bind]
  dsimp only
  obtain ⟨s₂, h₂, f₂, _⟩ := field_cons f₁
  rw [h₂, ok_bind]
  dsimp only
  obtain ⟨s₃, h₃, f₃, _⟩ := field_cons f₂
  rw [h₃, ok_bind]
  dsimp only
  have hnone : (strsep s₃.bp).1 = none := by rw [(strsep_fields s₃.bp).1, f₃, List.head?_nil]
  rw [(checkShell_eq shells flags login shell s₃).1,
    show strsep s₃.bp = (none, (strsep s₃.bp).2) from Prod.ext hnone rfl]
  exact ⟨_, rfl⟩

theorem scanFields_cons {login passwd uid gid : List UInt8} {fs : List (List UInt8)}
    {pw pw' : Passwd} (h : fields s.bp = login :: passwd :: uid :: gid :: fs)
    (huid : IdOk UID_MAX login uid) (hgid : IdOk GID_MAX login gid) (hroot : login = chars "root" → stored uid = 0)
    (htail : Tail flags fs pw pw') : ∃ s', scanFields shells flags s = .ok s' := by
  obtain ⟨s₁, h₁, f₁, _⟩ := field_cons h
  rw [scanFields, h₁, ok_bind]
  dsimp only
  obtain ⟨s₂, h₂, f₂, _⟩ := field_cons f₁
  rw [h₂, ok_bind]
  dsimp only
  obtain ⟨s₃, h₃, f₃, _⟩ := field_cons f₂
  have hu : scanUid flags login uid s₃ = .ok (stored uid) :=
    (scanId_ok_iff uidMax_lt).mpr ⟨huid, rfl, fun hl => hroot (by simpa using hl)⟩
  rw [h₃, ok_bind]
  dsimp only
  rw [hu, ok_bind]
  obtain ⟨s₄, h₄, f₄, _⟩ := @field_cons flags gid
    { s₃ with pw := { s₃.pw with pwUid := stored uid } } (fun _ pw => pw) fs f₃
  have hg : scanGid flags login gid s₄ = .ok (stored gid) :=
    (scanId_ok_iff gidMax_lt).mpr ⟨hgid, rfl, nofun⟩
  rw [h₄, ok_bind]
  dsimp only
  rw [hg, ok_bind]
  unfold Tail at htail
  split at htail
  · next hflag =>
    obtain ⟨cls, change, expire, gecos, dir, shell, rfl, _⟩ := htail
    obtain ⟨s₅, h₅, f₅⟩ := @scanMaster_cons flags
      { s₄ with pw := { s₄.pw with pwGid := stored gid } } _ _ _ _ f₄
    rw [if_pos hflag, h₅, ok_bind]
    exact scanEnd_cons login f₅
  · next hflag =>
    obtain ⟨gecos, dir, shell, rfl, _⟩ := htail
    rw [if_neg hflag, ok_bind]
    exact scanEnd_cons login f₄

theorem exists_seven {α : Type} {l : List α} (h : l.length = 7) :
    ∃ a b c d e f g, l = [a, b, c, d, e, f, g] := by
  match l, h with
  | [a, b, c, d, e, f, g], _ => exact ⟨a, b, c, d, e, f, g, rfl⟩

theorem exists_ten {α : Type} {l : List α} (h : l.length = 10) :
    ∃ a b c d e f g i j k, l = [a, b, c, d, e, f, g, i, j, k] := by
  match l, h with
  | [a, b, c, d, e, f, g, i, j, k], _ => exact ⟨a, b, c, d, e, f, g, i, j, k, rfl⟩

/-- An accepted line, field by field. -/
theorem accepts_iff {line : List UInt8} {pw pw' : Passwd} :
    Accepts flags line ∧ pw' = entry flags line pw ↔
      ∃ login passwd uid gid fs, line.splitOn colon = login :: passwd :: uid :: gid :: fs ∧
        IdOk UID_MAX login uid ∧ IdOk GID_MAX login gid ∧
        (login = chars "root" → stored uid = 0) ∧
        Tail flags fs { pw with pwName := some login, pwPasswd := some passwd,
                                pwUid := stored uid, pwGid := stored gid } pw' := by
  unfold Tail
  constructor
  · rintro ⟨⟨hcount, huid, hgid, hroot⟩, rfl⟩
    unfold fieldCount at hcount
    by_cases hflag : hasFlag flags PWSCAN_MASTER = true
    · rw [if_pos hflag] at hcount
      obtain ⟨login, passwd, uid, gid, cls, change, expire, gecos, dir, shell, hl⟩ :=
        exists_ten hcount
      simp only [fieldAt, hl] at huid hgid hroot
      refine ⟨login, passwd, uid, gid, _, hl, huid, hgid, hroot, ?_⟩
      rw [if_pos hflag]
      refine ⟨cls, change, expire, gecos, dir, shell, rfl, ?_⟩
      simp only [entry, fieldAt, fieldCount, hl, hflag, if_true]
      rfl
    · rw [if_neg hflag] at hcount
      obtain ⟨login, passwd, uid, gid, gecos, dir, shell, hl⟩ := exists_seven hcount
      simp only [fieldAt, hl] at huid hgid hroot
      refine ⟨login, passwd, uid, gid, _, hl, huid, hgid, hroot, ?_⟩
      rw [if_neg hflag]
      refine ⟨gecos, dir, shell, rfl, ?_⟩
      simp only [entry, fieldAt, fieldCount, hl, hflag]
      rfl
  · rintro ⟨login, passwd, uid, gid, fs, hl, huid, hgid, hroot, htail⟩
    split at htail
    · next hflag =>
      obtain ⟨cls, change, expire, gecos, dir, shell, rfl, rfl⟩ := htail
      refine ⟨⟨?_, ?_, ?_, ?_⟩, ?_⟩
      · rw [hl, fieldCount, if_pos hflag]
        rfl
      all_goals simp only [entry, fieldAt, fieldCount, hl, hflag, if_true]
      · exact huid
      · exact hgid
      · exact hroot
      · rfl
    · next hflag =>
      obtain ⟨gecos, dir, shell, rfl, rfl⟩ := htail
      refine ⟨⟨?_, ?_, ?_, ?_⟩, ?_⟩
      · rw [hl, fieldCount, if_neg hflag]
        rfl
      all_goals simp only [entry, fieldAt, fieldCount, hl, hflag]
      · exact huid
      · exact hgid
      · exact hroot
      · rfl

/-- `__pw_scan` returns 1 on the lines of the grammar, with their entry. -/
theorem pwScan_iff {line : List UInt8} {pw pw' : Passwd} :
    (∃ warnings, pwScan shells line pw flags = (pw', warnings, true)) ↔
      Accepts flags line ∧ pw' = entry flags line pw := by
  have hsound : ∀ s', scanFields shells flags { bp := some line, pw := pw, warnings := [] } =
      .ok s' → Accepts flags line ∧ s'.pw = entry flags line pw :=
    fun s' h => accepts_iff.mpr (scanFields_ok h)
  unfold pwScan
  constructor
  · rintro ⟨warnings, h⟩
    split at h
    · next s hs =>
      obtain ⟨rfl, -⟩ := Prod.mk.inj h
      exact hsound s hs
    · cases h
  · intro h
    obtain ⟨login, passwd, uid, gid, fs, hl, huid, hgid, hroot, htail⟩ := accepts_iff.mp h
    obtain ⟨s, hs⟩ := @scanFields_cons flags
      { bp := some line, pw := pw, warnings := [] } shells _ _ _ _ _ _ _ hl huid hgid hroot htail
    refine ⟨s.warnings, ?_⟩
    rw [hs, h.2, ← (hsound s hs).2]

end Librecompat.PwScan
