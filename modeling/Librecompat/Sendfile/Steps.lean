/-
  What one step of `compat_sendfile` does.

  `Moves` has a case for each way from a reply to the next call. Behind the headers, an interrupted
  `read` and a written chunk the function goes on with the body or the trailers (`GoesOn`).
  `step_moves` is used wherever a property of every step is proved.
-/
import Librecompat.Sendfile.Model

namespace Librecompat.Sendfile

open Librecompat.Lib

variable {a : Args} {file : List UInt8} {fileSize : Int} {s s' : State} {r : Reply}

/-! ## The ways through the function -/

/-- The function goes on with the trailers, or with the body. -/
def GoesOn (a : Args) (fileSize : Int) (s s' : State) : Prop :=
  s' = sendTrailers a s ∨ s' = loopHead a fileSize s

inductive Moves (a : Args) (file : List UInt8) (s : State) : Reply → State → Prop
  | headersFailed (e : Errno) (hp : s.point = .headers) :
      Moves a file s (.error e) (State.cleanup (-1) { s with errno := e })
  | headersSent (n : Nat) (hp : s.point = .headers) {s' : State}
      (hgo : GoesOn a file.length ((s.accept (a.headers.flatten.take n)).count n) s') :
      Moves a file s (.count n) s'
  | readAgain {m : Int} (hp : s.point = .read m) {s' : State}
      (hgo : GoesOn a file.length { s with errno := EINTR } s') : Moves a file s (.error EINTR) s'
  | readFailed {m : Int} {e : Errno} (hp : s.point = .read m) (he : e ≠ EINTR) :
      Moves a file s (.error e) (State.cleanup (-1) { s with errno := e })
  | readNothing {m : Int} (hp : s.point = .read m) {s' : State}
      (hgo : GoesOn a file.length s s') : Moves a file s (.count 0) s'
  | readChunk {m : Int} {n : Nat} (hp : s.point = .read m) (hn : n ≠ 0) :
      Moves a file s (.count n) { s with
        fdPos := s.fdPos + n, point := .write ((file.drop s.fdPos.toNat).take n) 0 }
  | writeAgain {chunk : List UInt8} {t : Nat} (hp : s.point = .write chunk t) :
      Moves a file s (.error EINTR) { s with errno := EINTR, point := .write chunk t }
  | writeBlocked {chunk : List UInt8} {t : Nat} {e : Errno} (hp : s.point = .write chunk t)
      (he : e ≠ EINTR) (hblocked : e = EAGAIN ∨ e = EWOULDBLOCK) :
      Moves a file s (.error e) (State.cleanup 0 ({ s with errno := e }.count t))
  | writeFailed {chunk : List UInt8} {t : Nat} {e : Errno} (hp : s.point = .write chunk t)
      (he : e ≠ EINTR) (hblocked : ¬ (e = EAGAIN ∨ e = EWOULDBLOCK)) :
      Moves a file s (.error e) (State.cleanup (-1) { s with errno := e })
  | writePart {chunk : List UInt8} {t n : Nat} (hp : s.point = .write chunk t)
      (hpart : t + n < chunk.length) :
      Moves a file s (.count n)
        { s.accept ((chunk.drop t).take n) with point := .write chunk (t + n) }
  | writeWhole {chunk : List UInt8} {t n : Nat} (hp : s.point = .write chunk t)
      (hwhole : ¬ t + n < chunk.length) {s' : State}
      (hgo : GoesOn a file.length { (s.accept ((chunk.drop t).take n)).count (t + n) with
        filePos := s.filePos + (t + n : Nat) } s') : Moves a file s (.count n) s'
  | trailersFailed (e : Errno) (hp : s.point = .trailers) :
      Moves a file s (.error e) (State.cleanup (-1) { s with errno := e })
  | trailersSent (n : Nat) (hp : s.point = .trailers) :
      Moves a file s (.count n)
        { s.accept (a.trailers.flatten.take n) with sbytes := s.sbytes + n }.finish
  | restored {ret : Int} (r : Reply) (hp : s.point = .restore ret) :
      Moves a file s r (onRestore ret s r)

theorem step_moves (h : step a file s r = some s') : Moves a file s r s' := by
  unfold step at h
  split at h
  · next hp =>
    obtain rfl := Option.some.inj h
    cases r with
    | error e => exact .headersFailed e hp
    | count n =>
      refine .headersSent n hp ?_
      simp only [onHeaders]
      split
      · exact .inl rfl
      · exact .inr rfl
  · next hp =>
    obtain rfl := Option.some.inj h
    cases r with
    | error e =>
      by_cases he : e = EINTR
      · subst he
        exact .readAgain hp (.inr (by rw [onRead, if_pos rfl]))
      · rw [onRead, if_neg he]
        exact .readFailed hp he
    | count n =>
      rw [onRead]
      split
      · next hzero =>
        subst hzero
        exact .readNothing hp (.inl rfl)
      · next hn => exact .readChunk hp hn
  · next hp =>
    obtain rfl := Option.some.inj h
    cases r with
    | error e =>
      by_cases he : e = EINTR
      · subst he
        rw [onWrite, if_pos rfl]
        exact .writeAgain hp
      · rw [onWrite, if_neg he]
        split
        · next hblocked => exact .writeBlocked hp he hblocked
        · next hblocked => exact .writeFailed hp he hblocked
    | count n =>
      simp only [onWrite]
      split
      · next hpart => exact .writePart hp hpart
      · next hwhole => exact .writeWhole hp hwhole (.inr rfl)
  · next hp =>
    obtain rfl := Option.some.inj h
    cases r with
    | error e => exact .trailersFailed e hp
    | count n => exact .trailersSent n hp
  · next hp =>
    obtain rfl := Option.some.inj h
    exact .restored r hp
  · cases h

/-! ## The bytes on the socket -/

@[simp] theorem finish_out (s : State) : s.finish.out = s.out := rfl
@[simp] theorem cleanup_out (ret : Int) (s : State) : (s.cleanup ret).out = s.out := rfl
@[simp] theorem count_out (s : State) (n : Nat) : (s.count n).out = s.out := rfl
@[simp] theorem accept_out (s : State) (bs : List UInt8) : (s.accept bs).out = s.out ++ bs := rfl

@[simp] theorem sendTrailers_out (a : Args) (s : State) : (sendTrailers a s).out = s.out := by
  unfold sendTrailers
  split <;> rfl

@[simp] theorem loopHead_out (a : Args) (fileSize : Int) (s : State) :
    (loopHead a fileSize s).out = s.out := by
  unfold loopHead
  split
  · split
    · exact sendTrailers_out a s
    · rfl
  · exact sendTrailers_out a s

theorem GoesOn.out (h : GoesOn a fileSize s s') : s'.out = s.out := by
  rcases h with rfl | rfl
  · exact sendTrailers_out a s
  · exact loopHead_out a fileSize s

/-- The bytes that the socket accepts with a reply. -/
def accepted (a : Args) (s : State) (r : Reply) : List UInt8 :=
  match s.point, r with
  | .headers, .count n => a.headers.flatten.take n
  | .write chunk totalSent, .count n => (chunk.drop totalSent).take n
  | .trailers, .count n => a.trailers.flatten.take n
  | _, _ => []

/-- A step appends the accepted bytes. -/
theorem step_out (h : step a file s r = some s') : s'.out = s.out ++ accepted a s r := by
  cases step_moves h with
  | headersFailed e hp => simp [accepted, hp]
  | headersSent n hp hgo => simp [accepted, hp, hgo.out]
  | readAgain hp hgo => simp [accepted, hp, hgo.out]
  | readFailed hp he => simp [accepted, hp]
  | readNothing hp hgo => simp [accepted, hp, hgo.out]
  | readChunk hp hn => simp [accepted, hp]
  | writeAgain hp => simp [accepted, hp]
  | writeBlocked hp he hblocked => simp [accepted, hp]
  | writeFailed hp he hblocked => simp [accepted, hp]
  | writePart hp hpart => simp [accepted, hp]
  | writeWhole hp hwhole hgo => simp [accepted, hp, hgo.out]
  | trailersFailed e hp => simp [accepted, hp]
  | trailersSent n hp => simp [accepted, hp]
  | restored r hp => cases r <;> simp [accepted, onRestore, hp]

/-! ## The next call -/

/-- The call waits for nothing but `lseek`, or has returned. -/
def Ending (s : State) : Prop := (∃ ret, s.point = .restore ret) ∨ ∃ ret, s.point = .done ret

theorem cleanup_ending (ret : Int) (s : State) : Ending (s.cleanup ret) := by
  unfold State.cleanup
  by_cases h : s.origOffset ≠ -1
  · exact .inl ⟨ret, if_pos h⟩
  · exact .inr ⟨ret, if_neg h⟩

theorem fail_ending (s : State) (e : Errno) : Ending (s.fail e) := .inr ⟨-1, rfl⟩

theorem restore_ending (ret : Int) (s : State) (r : Reply) : Ending (onRestore ret s r) := by
  cases r <;> exact .inr ⟨ret, rfl⟩

theorem Ending.point (h : Ending s) : s.point ≠ .headers := by
  rcases h with ⟨ret, h⟩ | ⟨ret, h⟩ <;> rw [h] <;> exact fun h => by cases h

theorem sendTrailers_point (a : Args) (s : State) : (sendTrailers a s).point ≠ .headers := by
  unfold sendTrailers
  split <;> exact fun h => by cases h

theorem loopHead_point (a : Args) (fileSize : Int) (s : State) :
    (loopHead a fileSize s).point ≠ .headers := by
  unfold loopHead
  split
  · split
    · exact sendTrailers_point a s
    · exact fun h => by cases h
  · exact sendTrailers_point a s

theorem GoesOn.point (h : GoesOn a fileSize s s') : s'.point ≠ .headers := by
  rcases h with rfl | rfl
  · exact sendTrailers_point a s
  · exact loopHead_point a fileSize s

/-- The function never comes back to the headers. -/
theorem step_point (h : step a file s r = some s') : s'.point ≠ .headers := by
  cases step_moves h with
  | headersSent n hp hgo => exact hgo.point
  | readAgain hp hgo => exact hgo.point
  | readNothing hp hgo => exact hgo.point
  | writeWhole hp hwhole hgo => exact hgo.point
  | headersFailed | readFailed | writeBlocked | writeFailed | trailersFailed =>
    exact (cleanup_ending _ _).point
  | readChunk | writeAgain | writePart | trailersSent => exact fun h => by cases h
  | restored r hp => exact (restore_ending _ _ _).point

/-- At the end nothing more is sent or reported. -/
theorem Ending.step (h : Ending s) (hs : step a file s r = some s') :
    Ending s' ∧ s'.out = s.out ∧ s'.len = s.len := by
  rcases h with ⟨ret, hp⟩ | ⟨ret, hp⟩
  · rw [Sendfile.step, hp] at hs
    obtain rfl := Option.some.inj hs
    exact ⟨restore_ending _ _ _, by cases r <;> rfl, by cases r <;> rfl⟩
  · rw [Sendfile.step, hp] at hs
    cases hs

end Librecompat.Sendfile
