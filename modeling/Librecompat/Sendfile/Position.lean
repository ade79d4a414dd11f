/-
  Where `compat_sendfile` leaves the position of the file descriptor.

  The position is moved to the offset and then by every `read`. The exits through `cleanup:` bring
  it back, the return behind the trailers does not: the call that goes through leaves it behind
  the last byte that was read (`run_position`). So the position is kept exactly when the call does
  not get to the seek, or ends with an error, or the last byte read happens to lie just before the
  old position (`position_kept_iff`).
-/
import Librecompat.Sendfile.Stream

namespace Librecompat.Sendfile

open Librecompat.Lib

/-- The arguments and the descriptors pass the checks, and the offset is inside the file: the call
    gets to the seek. -/
structure Seeks (a : Args) (d : Descriptors) : Prop where
  flags : a.flags = 0
  offset : 0 ≤ a.offset
  statFd : d.statFd = .ok true
  statSock : d.statSock = .ok true
  sockType : d.sockType = .ok SOCK_STREAM
  sockError : d.sockError = .ok 0
  inside : a.offset < d.file.length

/-- A reply that makes the call end at `cleanup:`. -/
def Aborts (s : State) (r : Reply) : Prop :=
  match s.point, r with
  | .headers, .error _ => True
  | .read _, .error e => e ≠ EINTR
  | .write _ _, .error e => e ≠ EINTR
  | .trailers, .error _ => True
  | _, _ => False

instance (s : State) (r : Reply) : Decidable (Aborts s r) := by
  unfold Aborts
  split <;> infer_instance

/-- The `lseek` at the end succeeds. -/
def SeekSucceeds (s : State) (r : Reply) : Prop :=
  match s.point, r with
  | .restore _, .error _ => False
  | _, _ => True

instance (s : State) (r : Reply) : Decidable (SeekSucceeds s r) := by
  unfold SeekSucceeds
  split <;> infer_instance

/-- The bytes that a reply takes from the file. -/
def readBytes (s : State) (r : Reply) : Nat :=
  match s.point, r with
  | .read _, .count n => n
  | _, _ => 0

/-- The bytes that the replies of a run take from the file. -/
def readTotal (a : Args) (file : List UInt8) : State → List Reply → Nat
  | _, [] => 0
  | s, r :: rs => readBytes s r + ((step a file s r).map fun s' => readTotal a file s' rs).getD 0

/-! ## One step -/

/-- The position has been moved from `pos`, and is not being restored. -/
def Moved (pos : Int) (s : State) : Prop := s.origOffset = pos ∧ ∀ ret, s.point ≠ .restore ret

theorem sendTrailers_moved {a : Args} {pos : Int} {s : State} (h : s.origOffset = pos) :
    Moved pos (sendTrailers a s) ∧ (sendTrailers a s).fdPos = s.fdPos := by
  unfold sendTrailers
  split
  · exact ⟨⟨h, fun _ hr => by cases hr⟩, rfl⟩
  · exact ⟨⟨h, fun _ hr => by cases hr⟩, rfl⟩

theorem loopHead_moved {a : Args} {fileSize pos : Int} {s : State} (h : s.origOffset = pos) :
    Moved pos (loopHead a fileSize s) ∧ (loopHead a fileSize s).fdPos = s.fdPos := by
  unfold loopHead
  split
  · split
    · exact sendTrailers_moved h
    · exact ⟨⟨h, fun _ hr => by cases hr⟩, rfl⟩
  · exact sendTrailers_moved h

theorem cleanup_restores {pos : Int} {s : State} (ret : Int) (hpos : 0 ≤ pos)
    (h : s.origOffset = pos) :
    (s.cleanup ret).point = .restore ret ∧ (s.cleanup ret).origOffset = pos := by
  refine ⟨?_, h⟩
  show (if s.origOffset ≠ -1 then Point.restore ret else .done ret) = .restore ret
  rw [if_pos]
  omega

theorem GoesOn.moved {a : Args} {fileSize pos : Int} {s s' : State} (h : GoesOn a fileSize s s')
    (horig : s.origOffset = pos) : Moved pos s' ∧ s'.fdPos = s.fdPos := by
  rcases h with rfl | rfl
  · exact sendTrailers_moved horig
  · exact loopHead_moved horig

/-- Step lemma: a reply that aborts leads to the restore, any other one moves the position by what
    it reads. -/
theorem step_position {a : Args} {file : List UInt8} {pos : Int} {s s' : State} {r : Reply}
    (hpos : 0 ≤ pos) (h : Moved pos s) (hs : step a file s r = some s') :
    (Aborts s r ∧ ∃ ret, s'.point = .restore ret ∧ s'.origOffset = pos) ∨
    (¬ Aborts s r ∧ Moved pos s' ∧ s'.fdPos = s.fdPos + readBytes s r) := by
  obtain ⟨horig, hrestore⟩ := h
  have hstill : readBytes s r = 0 → s.fdPos + readBytes s r = s.fdPos := fun hzero => by
    rw [hzero, Int.natCast_zero, Int.add_zero]
  cases step_moves hs with
  | headersFailed e hp => exact .inl ⟨by simp [Aborts, hp], _, cleanup_restores _ hpos horig⟩
  | headersSent n hp hgo =>
    refine .inr ⟨by simp [Aborts, hp], ?_⟩
    rw [hstill (by simp [readBytes, hp])]
    exact hgo.moved horig
  | readAgain hp hgo =>
    refine .inr ⟨by simp [Aborts, hp], ?_⟩
    rw [hstill (by simp [readBytes, hp])]
    exact hgo.moved horig
  | readFailed hp he => exact .inl ⟨by simp [Aborts, hp, he], _, cleanup_restores _ hpos horig⟩
  | readNothing hp hgo =>
    refine .inr ⟨by simp [Aborts, hp], ?_⟩
    rw [hstill (by simp [readBytes, hp])]
    exact hgo.moved horig
  | readChunk hp hn =>
    refine .inr ⟨by simp [Aborts, hp], ⟨horig, fun _ hr => by cases hr⟩, ?_⟩
    simp [readBytes, hp]
  | writeAgain hp =>
    refine .inr ⟨by simp [Aborts, hp], ⟨horig, fun _ hr => by cases hr⟩, ?_⟩
    exact (hstill (by simp [readBytes, hp])).symm
  | writeBlocked hp he hblocked =>
    exact .inl ⟨by simp [Aborts, hp, he], _, cleanup_restores _ hpos horig⟩
  | writeFailed hp he hblocked =>
    exact .inl ⟨by simp [Aborts, hp, he], _, cleanup_restores _ hpos horig⟩
  | writePart hp hpart =>
    refine .inr ⟨by simp [Aborts, hp], ⟨horig, fun _ hr => by cases hr⟩, ?_⟩
    exact (hstill (by simp [readBytes, hp])).symm
  | writeWhole hp hwhole hgo =>
    refine .inr ⟨by simp [Aborts, hp], ?_⟩
    rw [hstill (by simp [readBytes, hp])]
    exact hgo.moved horig
  | trailersFailed e hp => exact .inl ⟨by simp [Aborts, hp], _, cleanup_restores _ hpos horig⟩
  | trailersSent n hp =>
    refine .inr ⟨by simp [Aborts, hp], ⟨horig, fun _ hr => by cases hr⟩, ?_⟩
    exact (hstill (by simp [readBytes, hp])).symm
  | restored r hp => exact absurd hp (hrestore _)

/-! ## The run -/

/-- The restore ends the call at the old position. -/
theorem restore_position {a : Args} {file : List UInt8} {pos : Int} {replies : List Reply}
    {s t : State} {ret ret' : Int} (hp : s.point = .restore ret') (horig : s.origOffset = pos)
    (hl : Legal (step a file) SeekSucceeds s replies)
    (hrun : run (step a file) s replies = some t) (hdone : t.point = .done ret) :
    t.fdPos = pos := by
  cases replies with
  | nil =>
    obtain rfl := Option.some.inj hrun
    rw [hp] at hdone
    cases hdone
  | cons r replies =>
    obtain ⟨hok, _⟩ := legal_cons.mp hl
    obtain ⟨s', hs, hrun⟩ := Option.bind_eq_some_iff.mp hrun
    rw [step, hp] at hs
    obtain rfl := Option.some.inj hs
    cases r with
    | error e =>
      simp only [SeekSucceeds, hp] at hok
    | count n =>
      cases replies with
      | nil =>
        obtain rfl := Option.some.inj hrun
        exact horig
      | cons r replies =>
        -- there is no call behind the return
        obtain ⟨_, hs, _⟩ := Option.bind_eq_some_iff.mp hrun
        cases hs

/-- Run lemma: at the return the position is behind what was read, or restored after a reply that
    aborts. -/
theorem run_position {a : Args} {file : List UInt8} {pos : Int} {replies : List Reply}
    {s t : State} {ret : Int} (hpos : 0 ≤ pos) (h : Moved pos s)
    (hl : Legal (step a file) SeekSucceeds s replies)
    (hrun : run (step a file) s replies = some t) (hdone : t.point = .done ret) :
    (Legal (step a file) (fun s r => ¬ Aborts s r) s replies ∧
      t.fdPos = s.fdPos + readTotal a file s replies) ∨
    (¬ Legal (step a file) (fun s r => ¬ Aborts s r) s replies ∧ t.fdPos = pos) := by
  induction replies generalizing s with
  | nil =>
    obtain rfl := Option.some.inj hrun
    exact .inl ⟨trivial, (Int.add_zero _).symm⟩
  | cons r replies ih =>
    obtain ⟨_, hl⟩ := legal_cons.mp hl
    obtain ⟨s', hs, hrun⟩ := Option.bind_eq_some_iff.mp hrun
    rcases step_position hpos h hs with ⟨hab, ret', hp, horig⟩ | ⟨hab, h', hfd⟩
    · refine .inr ⟨fun hl' => (legal_cons.mp hl').1 hab, ?_⟩
      exact restore_position hp horig (hl s' hs) hrun hdone
    · rcases ih h' (hl s' hs) hrun with ⟨hnone, ht⟩ | ⟨hsome, ht⟩
      · refine .inl ⟨legal_cons.mpr ⟨hab, fun u hu => ?_⟩, ?_⟩
        · obtain rfl := Option.some.inj (hs.symm.trans hu)
          exact hnone
        · rw [ht, hfd, readTotal, hs]
          simp only [Option.map_some, Option.getD_some]
          omega
      · exact .inr ⟨fun hl' => hsome ((legal_cons.mp hl').2 s' hs), ht⟩

/-! ## The whole call -/

/-- A call that does not get to the seek returns before it has made a transfer. -/
theorem begin_returns (a : Args) (d : Descriptors) :
    Seeks a d ∨ ∃ ret, (begin a d).point = .done ret ∧ (begin a d).fdPos = d.pos := by
  unfold begin
  dsimp only
  by_cases hflags : a.flags ≠ 0
  · rw [if_pos hflags]
    exact .inr ⟨-1, rfl, rfl⟩
  · by_cases hoffset : a.offset < 0
    · rw [if_neg hflags, if_pos hoffset]
      exact .inr ⟨-1, rfl, rfl⟩
    · rw [if_neg hflags, if_neg hoffset]
      split
      · exact .inr ⟨-1, rfl, rfl⟩
      · next isReg hfd =>
        split
        · exact .inr ⟨-1, rfl, rfl⟩
        · next hreg =>
          unfold checkSocket
          split
          · exact .inr ⟨-1, rfl, rfl⟩
          · next isSock hstat =>
            split
            · exact .inr ⟨-1, rfl, rfl⟩
            · next hsock =>
              split
              · exact .inr ⟨-1, rfl, rfl⟩
              · next sockType htype =>
                split
                · exact .inr ⟨-1, rfl, rfl⟩
                · next hstream =>
                  split
                  · exact .inr ⟨-1, rfl, rfl⟩
                  · next sockError herror =>
                    split
                    · exact .inr ⟨-1, rfl, rfl⟩
                    · next hnone =>
                      unfold openFile
                      by_cases hend : a.offset ≥ d.file.length
                      · rw [if_pos hend]
                        exact .inr ⟨0, rfl, rfl⟩
                      · refine .inl ⟨not_not.mp hflags, by omega, ?_, ?_, ?_, ?_, by omega⟩
                        · simpa [hfd] using hreg
                        · simpa [hstat] using hsock
                        · rw [htype, not_not.mp hstream]
                        · rw [herror, not_not.mp hnone]

theorem Seeks.begin_eq {a : Args} {d : Descriptors} (hs : Seeks a d) :
    begin a d = openFile a d (State.entry a d) := by
  have hoffset : ¬ a.offset < 0 := Int.not_lt.mpr hs.offset
  simp [begin, checkSocket, hs.flags, hoffset, hs.statFd, hs.statSock, hs.sockType, hs.sockError]

/-- A call that gets to the seek. -/
theorem Seeks.begin_position {a : Args} {d : Descriptors} (hs : Seeks a d) (hpos : 0 ≤ d.pos)
    (htell : d.tell = .ok ()) (hseek : d.seek = .ok ()) :
    (d.malloc = true ∧ Moved d.pos (begin a d) ∧ (begin a d).fdPos = a.offset) ∨
    (d.malloc = false ∧ ∃ ret, (begin a d).point = .restore ret ∧
      (begin a d).origOffset = d.pos) := by
  have hin : ¬ a.offset ≥ d.file.length := Int.not_le.mpr hs.inside
  rw [hs.begin_eq, openFile, if_neg hin, htell, hseek]
  dsimp only
  cases hm : d.malloc with
  | true =>
    refine .inl ⟨rfl, ?_⟩
    rw [if_pos rfl]
    unfold sendHeaders
    split
    · exact ⟨⟨rfl, fun _ hr => by cases hr⟩, rfl⟩
    · exact loopHead_moved rfl
  | false => exact .inr ⟨rfl, _, cleanup_restores _ hpos rfl⟩

/-- When every `lseek` succeeds, the position at the return is the one at entry exactly when the
    call does not get to the seek, or has no buffer, or a transfer fails for good, or the bytes
    read end where the position was. -/
theorem position_kept_iff {a : Args} {d : Descriptors} (replies : List Reply) {s : State}
    {ret : Int} (hpos : 0 ≤ d.pos) (hseek : Seeks a d → d.tell = .ok () ∧ d.seek = .ok ())
    (hl : Legal (step a d.file) SeekSucceeds (begin a d) replies)
    (hrun : run (step a d.file) (begin a d) replies = some s) (hdone : s.point = .done ret) :
    s.fdPos = d.pos ↔ ¬ Seeks a d ∨ d.malloc = false ∨
      ¬ Legal (step a d.file) (fun s r => ¬ Aborts s r) (begin a d) replies ∨
      d.pos = a.offset + readTotal a d.file (begin a d) replies := by
  by_cases hs : Seeks a d
  · obtain ⟨htell, hseek⟩ := hseek hs
    rcases hs.begin_position hpos htell hseek with ⟨hm, hmoved, hfd⟩ | ⟨hm, ret', hp, horig⟩
    · rcases run_position hpos hmoved hl hrun hdone with ⟨hnone, ht⟩ | ⟨hsome, ht⟩
      · rw [ht, hfd]
        refine ⟨fun h => .inr (.inr (.inr h.symm)), ?_⟩
        rintro (h | h | h | h)
        · exact absurd hs h
        · rw [hm] at h
          cases h
        · exact absurd hnone h
        · exact h.symm
      · exact iff_of_true ht (.inr (.inr (.inl hsome)))
    · exact iff_of_true (restore_position hp horig hl hrun hdone) (.inr (.inl hm))
  · refine iff_of_true ?_ (.inl hs)
    obtain ⟨ret', hp, hfd⟩ := (begin_returns a d).resolve_left hs
    cases replies with
    | nil =>
      obtain rfl := Option.some.inj hrun
      exact hfd
    | cons r replies =>
      obtain ⟨_, hstep, _⟩ := Option.bind_eq_some_iff.mp hrun
      rw [step, hp] at hstep
      cases hstep

/-- The connection breaks behind the first byte: the position is restored. -/
theorem position_kept_iff_broken :
    ∃ s, run (step smallArgs smallDescriptors.file) (begin smallArgs smallDescriptors)
        [.count 2, .count 1, .error 32, .count 0] = some s ∧
      (s.fdPos = smallDescriptors.pos ↔ ¬ Seeks smallArgs smallDescriptors ∨
        smallDescriptors.malloc = false ∨
        ¬ Legal (step smallArgs smallDescriptors.file) (fun s r => ¬ Aborts s r)
          (begin smallArgs smallDescriptors) [.count 2, .count 1, .error 32, .count 0] ∨
        smallDescriptors.pos = smallArgs.offset + readTotal smallArgs smallDescriptors.file
          (begin smallArgs smallDescriptors) [.count 2, .count 1, .error 32, .count 0]) :=
  ⟨_, rfl, position_kept_iff [.count 2, .count 1, .error 32, .count 0] (by decide)
    (fun _ => ⟨rfl, rfl⟩) (by decide) rfl rfl⟩

/-- The call goes through: the position stays behind the byte that was read. -/
theorem success_moves_position :
    ¬ ∀ (a : Args) (d : Descriptors) (replies : List Reply) (s : State) (ret : Int),
      0 ≤ d.pos → d.tell = .ok () → d.seek = .ok () →
      Legal (step a d.file) (Fits a d.file) (begin a d) replies →
      Legal (step a d.file) SeekSucceeds (begin a d) replies →
      run (step a d.file) (begin a d) replies = some s → s.point = .done ret →
      s.fdPos = d.pos := by
  intro h
  have hbad := h smallArgs smallDescriptors [.count 2, .count 1, .count 1, .count 1] _ 0
    (by decide) rfl rfl (by decide) (by decide) rfl rfl
  exact absurd hbad (by decide)

end Librecompat.Sendfile
