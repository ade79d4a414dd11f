/-
  `compat_sendfile` when nothing fails.

  `Smooth` allows the replies of a call in which `writev` takes everything, and `read` and
  `write` transfer at least a byte or are interrupted. `measure` goes down with every such reply
  but the interruptions, so under every schedule with finitely many of them the call returns
  (`sendfile_exact`), with the whole stream on the socket.
-/
import Librecompat.Sendfile.Stream

namespace Librecompat.Sendfile

open Librecompat.Lib

/-- The replies of a call in which nothing fails for good. -/
def Smooth (a : Args) (file : List UInt8) (s : State) (r : Reply) : Prop :=
  Fits a file s r ∧
  match s.point with
  | .headers => r = .count a.headers.flatten.length
  | .read _ => r = .error EINTR ∨ ∃ n, 0 < n ∧ r = .count n
  | .write _ _ => r = .error EINTR ∨ ∃ n, 0 < n ∧ r = .count n
  | .trailers => r = .count a.trailers.flatten.length
  | .restore _ => True
  | .done _ => True

/-- The bytes of the body that are not counted as sent yet. -/
def left (a : Args) (file : List UInt8) (s : State) : Nat :=
  (body a file).length - (s.filePos - a.offset).toNat

/-- Bounds the number of transfers that are still to be made. -/
def measure (a : Args) (file : List UInt8) (s : State) : Nat :=
  match s.point with
  | .headers => 2 * (body a file).length + 3
  | .read _ => 2 * left a file s + 2
  | .write _ totalSent => 2 * (left a file s - totalSent) + 1
  | .trailers => 1
  | .restore _ => 0
  | .done _ => 0

theorem measure_sendTrailers (a : Args) (file : List UInt8) (s : State) :
    measure a file (sendTrailers a s) ≤ 1 := by
  unfold sendTrailers
  split
  · exact Nat.le_refl 1
  · exact Nat.zero_le 1

theorem measure_loopHead (a : Args) (file : List UInt8) (s : State) :
    measure a file (loopHead a file.length s) ≤ 2 * left a file s + 2 := by
  have htrailers := measure_sendTrailers a file s
  unfold loopHead
  split
  · split
    · omega
    · exact Nat.le_refl _
  · omega

theorem measure_onHeaders (a : Args) (file : List UInt8) {s : State} (hp : s.point = .headers)
    (n : Nat) : measure a file (onHeaders a file.length s (.count n)) < measure a file s := by
  rw [show measure a file s = 2 * (body a file).length + 3 by rw [measure, hp]]
  simp only [onHeaders]
  split
  · have := measure_sendTrailers a file ((s.accept (a.headers.flatten.take n)).count n)
    omega
  · have := measure_loopHead a file ((s.accept (a.headers.flatten.take n)).count n)
    unfold left at this
    omega

theorem measure_onRead (a : Args) (file : List UInt8) {s : State} {m : Int}
    (hp : s.point = .read m) {n : Nat} (hn : 0 < n) :
    measure a file (onRead a file s (.count n)) < measure a file s := by
  rw [show measure a file s = 2 * left a file s + 2 by rw [measure, hp], onRead,
    if_neg (Nat.pos_iff_ne_zero.mp hn)]
  show 2 * (left a file s - 0) + 1 < _
  omega

theorem measure_onWrite {a : Args} {file : List UInt8} {s : State} {chunk : List UInt8} {t n : Nat}
    (h : OnTrack a file s) (hp : s.point = .write chunk t) (hfit : t + n ≤ chunk.length)
    (hn : 0 < n) :
    measure a file (onWrite a file.length chunk t s (.count n)) < measure a file s := by
  simp only [OnTrack, hp] at h
  obtain ⟨ht, k, hbody, _, hroom, _⟩ := h
  have hpos := hbody.filePos
  have hleft : left a file s = (body a file).length - k := by
    unfold left
    omega
  rw [show measure a file s = 2 * (left a file s - t) + 1 by rw [measure, hp]]
  simp only [onWrite]
  split
  · show 2 * (left a file s - (t + n)) + 1 < _
    omega
  · refine Nat.lt_of_le_of_lt (measure_loopHead a file _) ?_
    show 2 * ((body a file).length - (s.filePos + (t + n : Nat) - a.offset).toNat) + 2 < _
    omega

/-- An interruption makes no more work. -/
theorem measure_eintr {a : Args} {file : List UInt8} {s s' : State}
    (hp : (∃ n, s.point = .read n) ∨ ∃ chunk t, s.point = .write chunk t)
    (hs : step a file s (.error EINTR) = some s') : measure a file s' ≤ measure a file s := by
  rcases hp with ⟨m, hp⟩ | ⟨chunk, t, hp⟩
  · rw [step, hp] at hs
    obtain rfl := Option.some.inj hs
    rw [onRead, if_pos rfl, show measure a file s = 2 * left a file s + 2 by rw [measure, hp]]
    exact measure_loopHead a file _
  · rw [step, hp] at hs
    obtain rfl := Option.some.inj hs
    rw [onWrite, if_pos rfl, show measure a file s = 2 * (left a file s - t) + 1 by
      rw [measure, hp]]
    exact Nat.le_refl _

/-- Step lemma: a smooth reply keeps the call on track; unless it is an interruption there is
    less to do than before. -/
theorem step_smooth {a : Args} {file : List UInt8} {s : State} {r : Reply}
    (h : OnTrack a file s) (hnd : ¬ ∃ ret, s.point = .done ret) (hr : Smooth a file s r) :
    ∃ s', step a file s r = some s' ∧ OnTrack a file s' ∧
      measure a file s' ≤ measure a file s ∧
      (r ≠ .error EINTR → measure a file s' < measure a file s) := by
  obtain ⟨hfit, hr⟩ := hr
  cases hp : s.point with
  | headers =>
    simp only [hp] at hr
    subst hr
    have hlt := measure_onHeaders a file hp a.headers.flatten.length
    exact ⟨_, by rw [step, hp], onHeaders_onTrack h hp, Nat.le_of_lt hlt, fun _ => hlt⟩
  | read m =>
    simp only [hp] at hr
    rcases hr with rfl | ⟨n, hn, rfl⟩
    · obtain ⟨s', hs', ht⟩ := step_eintr h (.inl ⟨m, hp⟩)
      exact ⟨s', hs', ht, measure_eintr (.inl ⟨m, hp⟩) hs', fun hne => absurd rfl hne⟩
    · have hlt := measure_onRead a file hp hn
      exact ⟨_, by rw [step, hp], onRead_onTrack h hp hfit, Nat.le_of_lt hlt, fun _ => hlt⟩
  | write chunk t =>
    simp only [hp] at hr
    rcases hr with rfl | ⟨n, hn, rfl⟩
    · obtain ⟨s', hs', ht⟩ := step_eintr h (.inr ⟨chunk, t, hp⟩)
      exact ⟨s', hs', ht, measure_eintr (.inr ⟨chunk, t, hp⟩) hs', fun hne => absurd rfl hne⟩
    · have hroom : t + n ≤ chunk.length := by simpa only [Fits, hp] using hfit
      have hlt := measure_onWrite h hp hroom hn
      exact ⟨_, by rw [step, hp], onWrite_onTrack h hp hfit, Nat.le_of_lt hlt, fun _ => hlt⟩
  | trailers =>
    simp only [hp] at hr
    subst hr
    have hlt : measure a file (onTrailers a s (.count a.trailers.flatten.length)) <
        measure a file s := by
      rw [show measure a file s = 1 by rw [measure, hp]]
      exact Nat.zero_lt_one
    exact ⟨_, by rw [step, hp], onTrailers_onTrack h hp, Nat.le_of_lt hlt, fun _ => hlt⟩
  | restore ret => simp only [OnTrack, hp] at h
  | done ret => exact absurd ⟨ret, hp⟩ hnd

/-- How many bytes of the file are to be sent. -/
def fileBytes (a : Args) (file : List UInt8) : Nat :=
  if a.len = 0 then file.length - a.offset.toNat
  else min (file.length - a.offset.toNat) (a.len - a.headers.flatten.length).toNat

theorem body_eq (a : Args) (file : List UInt8) :
    body a file = (file.drop a.offset.toNat).take (fileBytes a file) := by
  have hlen : (file.drop a.offset.toNat).length = file.length - a.offset.toNat :=
    List.length_drop
  unfold body limit fileBytes
  split
  · rw [List.take_of_length_le (by omega), List.take_of_length_le (by omega)]
  · rw [← hlen, Nat.min_comm, ← List.take_take, List.take_length]

/-- Every check of the descriptors succeeds. -/
structure Descriptors.Ok (d : Descriptors) : Prop where
  statFd : d.statFd = .ok true
  statSock : d.statSock = .ok true
  sockType : d.sockType = .ok SOCK_STREAM
  sockError : d.sockError = .ok 0
  tell : d.tell = .ok ()
  seek : d.seek = .ok ()
  malloc : d.malloc = true

theorem begin_onTrack {a : Args} {d : Descriptors} (hd : d.Ok) (hflags : a.flags = 0)
    (h0 : 0 ≤ a.offset) (hlt : a.offset < d.file.length) : OnTrack a d.file (begin a d) := by
  have hbegin : begin a d = sendHeaders a d.file.length
      { State.entry a d with origOffset := d.pos, fdPos := a.offset, buffer := true } := by
    have h0' : ¬ a.offset < 0 := by omega
    have hlt' : ¬ a.offset ≥ d.file.length := by omega
    simp [begin, checkSocket, openFile, hflags, h0', hlt', hd.statFd, hd.statSock, hd.sockType,
      hd.sockError, hd.tell, hd.seek, hd.malloc]
  rw [hbegin]
  exact sendHeaders_onTrack ⟨rfl, rfl, rfl, rfl⟩ h0 hlt rfl

/-- Under every schedule of smooth replies with finitely many interruptions the call returns `0`
    with headers, file bytes and trailers on the socket and their number in `*len`. -/
theorem sendfile_exact {a : Args} {d : Descriptors} (hd : d.Ok) (hflags : a.flags = 0)
    (h0 : 0 ≤ a.offset) (hlt : a.offset < d.file.length) (ρ : Nat → Reply) (N : Nat)
    (hfin : ∀ n, N ≤ n → ρ n ≠ .error EINTR)
    (hsmooth : ∀ n s, run (step a d.file) (begin a d) (first ρ n) = some s →
      (¬ ∃ ret, s.point = .done ret) → Smooth a d.file s (ρ n)) :
    ∃ n s, run (step a d.file) (begin a d) (first ρ n) = some s ∧ s.point = .done 0 ∧
      s.out = a.headers.flatten ++ (d.file.drop a.offset.toNat).take (fileBytes a d.file) ++
        a.trailers.flatten ∧
      s.len = a.headers.flatten.length + fileBytes a d.file + a.trailers.flatten.length := by
  have hstep : ∀ s r, OnTrack a d.file s → (¬ ∃ ret, s.point = .done ret) →
      Smooth a d.file s r → ∃ s', step a d.file s r = some s' ∧ OnTrack a d.file s' ∧
        measure a d.file s' ≤ measure a d.file s ∧
        (¬ r = .error EINTR → measure a d.file s' < measure a d.file s) :=
    fun _ _ h hnd hr => step_smooth h hnd hr
  obtain ⟨n, s, hrun, htrack, ret, hp⟩ := exists_final (measure a d.file) hstep hfin
    (begin_onTrack hd hflags h0 hlt) hsmooth
  simp only [OnTrack, hp] at htrack
  obtain ⟨rfl, hout, hlen⟩ := htrack
  refine ⟨n, s, hrun, hp, ?_, ?_⟩
  · rw [hout, stream, body_eq]
  · have hbody : (body a d.file).length = fileBytes a d.file := by
      rw [body_eq, List.length_take, List.length_drop]
      unfold fileBytes
      split <;> omega
    rw [hlen, stream]
    simp only [List.length_append, hbody]
    omega

/-- A schedule for the small call: the first `read` is interrupted. -/
def smallSchedule (n : Nat) : Reply :=
  if n = 0 then .count 2 else if n = 1 then .error EINTR else .count 1

theorem sendfile_exact_small :
    ∃ n s, run (step smallArgs smallDescriptors.file) (begin smallArgs smallDescriptors)
        (first smallSchedule n) = some s ∧ s.point = .done 0 ∧
      s.out = smallArgs.headers.flatten ++ (smallDescriptors.file.drop smallArgs.offset.toNat).take
        (fileBytes smallArgs smallDescriptors.file) ++ smallArgs.trailers.flatten ∧
      s.len = smallArgs.headers.flatten.length + fileBytes smallArgs smallDescriptors.file +
        smallArgs.trailers.flatten.length := by
  refine sendfile_exact ⟨rfl, rfl, rfl, rfl, rfl, rfl, rfl⟩ (by decide) (by decide) (by decide)
    smallSchedule 2 (fun n hn => ?_) ?_
  · rw [smallSchedule, if_neg (by omega), if_neg (by omega)]
    exact fun h => by cases h
  · intro n s hrun hnd
    match n with
    | 0 =>
      obtain rfl := Option.some.inj hrun
      exact ⟨by decide, rfl⟩
    | 1 =>
      obtain rfl := Option.some.inj hrun
      exact ⟨by decide, .inl rfl⟩
    | 2 =>
      obtain rfl := Option.some.inj hrun
      exact ⟨by decide, .inr ⟨1, by decide, rfl⟩⟩
    | 3 =>
      obtain rfl := Option.some.inj hrun
      exact ⟨by decide, .inr ⟨1, by decide, rfl⟩⟩
    | 4 =>
      obtain rfl := Option.some.inj hrun
      exact ⟨by decide, rfl⟩
    | 5 =>
      obtain rfl := Option.some.inj hrun
      exact absurd ⟨0, rfl⟩ hnd
    | n + 6 =>
      -- the call has returned after five replies
      have hnone : run (step smallArgs smallDescriptors.file) (begin smallArgs smallDescriptors)
          (first smallSchedule 6) = none := rfl
      rw [run_first_none hnone (Nat.le_add_left 6 n)] at hrun
      cases hrun

end Librecompat.Sendfile
