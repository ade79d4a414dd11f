/-
  What `compat_sendfile` reports in `*len`.

  `Accounted` is the invariant of the counters: `sbytes`, with `total_sent` inside the write
  loop, is the number of bytes that the socket has accepted. Every step keeps it but one: a
  `write` that fails for good after a part of the chunk went out (`FatalMidChunk`) ends the call
  without adding `total_sent`, as the branch for `EAGAIN` does (`step_lost`). So `*len` is right
  at the return exactly when no such step was made (`len_eq_accepted_iff`). The count needs less
  than `Fits`: under `Takes` a `read` may come back short or empty in front of the end of the
  file, which ends the body early.
-/
import Librecompat.Sendfile.Stream

namespace Librecompat.Sendfile

open Librecompat.Lib

/-- What a reply keeps in any case: a transfer takes at most what it is asked to. -/
def Takes (a : Args) (s : State) : Reply → Prop
  | .error _ => True
  | .count n =>
    match s.point with
    | .headers => n ≤ a.headers.flatten.length
    | .read toRead => n ≤ toRead
    | .write chunk totalSent => totalSent + n ≤ chunk.length
    | .trailers => n ≤ a.trailers.flatten.length
    | .restore _ => True
    | .done _ => True

instance (a : Args) (s : State) : (r : Reply) → Decidable (Takes a s r)
  | .error _ => inferInstanceAs (Decidable True)
  | .count n =>
    match h : s.point with
    | .headers => decidable_of_iff (n ≤ a.headers.flatten.length) (by simp [Takes, h])
    | .read toRead => decidable_of_iff (n ≤ toRead) (by simp [Takes, h])
    | .write chunk totalSent =>
      decidable_of_iff (totalSent + n ≤ chunk.length) (by simp [Takes, h])
    | .trailers => decidable_of_iff (n ≤ a.trailers.flatten.length) (by simp [Takes, h])
    | .restore _ => decidable_of_iff True (by simp [Takes, h])
    | .done _ => decidable_of_iff True (by simp [Takes, h])

/-- The counters agree with what the socket has accepted; after the end `*len` does as well. -/
def Accounted (s : State) : Prop :=
  match s.point with
  | .write _ totalSent => s.out.length = s.sbytes + totalSent
  | .restore _ => s.out.length = s.len
  | .done _ => s.out.length = s.len
  | _ => s.out.length = s.sbytes

/-- A part of the chunk has been accepted, and `write` fails with an error that ends the call. -/
def FatalMidChunk (s : State) (r : Reply) : Prop :=
  match s.point, r with
  | .write _ totalSent, .error e => 0 < totalSent ∧ e ≠ EINTR ∧ e ≠ EAGAIN
  | _, _ => False

instance (s : State) (r : Reply) : Decidable (FatalMidChunk s r) :=
  match hs : s.point, r with
  | .write _ t, .error e =>
    decidable_of_iff (0 < t ∧ e ≠ EINTR ∧ e ≠ EAGAIN) (by simp only [FatalMidChunk, hs])
  | .write _ _, .count _ | .headers, _ | .read _, _ | .trailers, _ | .restore _, _ | .done _, _ =>
    .isFalse (by simp [FatalMidChunk, hs])

/-- The call ends with fewer bytes reported than accepted. -/
def Lost (s : State) : Prop := Ending s ∧ s.len < s.out.length

/-! ## Keeping the count -/

theorem cleanup_accounted {s : State} (ret : Int) (h : s.out.length = s.sbytes) :
    Accounted (s.cleanup ret) := by
  have hlen : (s.cleanup ret).out.length = (s.cleanup ret).len := h
  rcases cleanup_ending ret s with ⟨ret', hp⟩ | ⟨ret', hp⟩
  · simp only [Accounted, hp]
    exact hlen
  · simp only [Accounted, hp]
    exact hlen

theorem sendTrailers_accounted {a : Args} {s : State} (h : s.out.length = s.sbytes) :
    Accounted (sendTrailers a s) := by
  unfold sendTrailers
  split
  · exact h
  · exact h

theorem loopHead_accounted {a : Args} {fileSize : Int} {s : State}
    (h : s.out.length = s.sbytes) : Accounted (loopHead a fileSize s) := by
  unfold loopHead
  split
  · split
    · exact sendTrailers_accounted h
    · exact h
  · exact sendTrailers_accounted h

theorem GoesOn.accounted {a : Args} {fileSize : Int} {s s' : State} (h : GoesOn a fileSize s s')
    (hs : s.out.length = s.sbytes) : Accounted s' := by
  rcases h with rfl | rfl
  · exact sendTrailers_accounted hs
  · exact loopHead_accounted hs

/-- Step lemma: every other reply keeps the count. -/
theorem step_accounted {a : Args} {file : List UInt8} {s s' : State} {r : Reply}
    (h : Accounted s) (htakes : Takes a s r) (hfatal : ¬ FatalMidChunk s r)
    (hs : step a file s r = some s') : Accounted s' := by
  cases step_moves hs with
  | headersFailed e hp =>
    simp only [Accounted, hp] at h
    exact cleanup_accounted _ h
  | headersSent n hp hgo =>
    simp only [Accounted, hp] at h
    simp only [Takes, hp] at htakes
    refine hgo.accounted ?_
    show ((s.out ++ a.headers.flatten.take n).length : Int) = s.sbytes + n
    rw [List.length_append, List.length_take]
    omega
  | readAgain hp hgo =>
    simp only [Accounted, hp] at h
    exact hgo.accounted h
  | readFailed hp he =>
    simp only [Accounted, hp] at h
    exact cleanup_accounted _ h
  | readNothing hp hgo =>
    simp only [Accounted, hp] at h
    exact hgo.accounted h
  | readChunk hp hn =>
    simp only [Accounted, hp] at h
    show (s.out.length : Int) = s.sbytes + (0 : Nat)
    omega
  | writeAgain hp =>
    simp only [Accounted, hp] at h
    exact h
  | writeBlocked hp he hblocked =>
    simp only [Accounted, hp] at h
    exact cleanup_accounted _ h
  | @writeFailed chunk t e hp he hblocked =>
    simp only [Accounted, hp] at h
    simp only [FatalMidChunk, hp] at hfatal
    -- nothing of the chunk has been accepted
    have ht : t = 0 := by
      by_contra ht
      exact hfatal ⟨Nat.pos_of_ne_zero ht, he, fun he' => hblocked (.inl he')⟩
    subst ht
    exact cleanup_accounted _ (by simpa using h)
  | @writePart chunk t n hp hpart =>
    simp only [Accounted, hp] at h
    show ((s.out ++ (chunk.drop t).take n).length : Int) = s.sbytes + (t + n : Nat)
    rw [List.length_append, List.length_take, List.length_drop]
    omega
  | @writeWhole chunk t n hp hwhole _ hgo =>
    simp only [Accounted, hp] at h
    simp only [Takes, hp] at htakes
    refine hgo.accounted ?_
    show ((s.out ++ (chunk.drop t).take n).length : Int) = s.sbytes + (t + n : Nat)
    rw [List.length_append, List.length_take, List.length_drop]
    omega
  | trailersFailed e hp =>
    simp only [Accounted, hp] at h
    exact cleanup_accounted _ h
  | trailersSent n hp =>
    simp only [Accounted, hp] at h
    simp only [Takes, hp] at htakes
    show ((s.out ++ a.trailers.flatten.take n).length : Int) = s.sbytes + n
    rw [List.length_append, List.length_take]
    omega
  | restored r hp =>
    simp only [Accounted, hp] at h
    cases r <;> exact h

/-! ## Losing it -/

/-- The fatal error in the middle of a chunk leaves `total_sent` out. -/
theorem step_lost {a : Args} {file : List UInt8} {s s' : State} {r : Reply} (h : Accounted s)
    (hfatal : FatalMidChunk s r) (hs : step a file s r = some s') : Lost s' := by
  unfold FatalMidChunk at hfatal
  split at hfatal
  · next chunk t e hp =>
    obtain ⟨ht, hne, hne'⟩ := hfatal
    simp only [Accounted, hp] at h
    rw [step, hp] at hs
    obtain rfl := Option.some.inj hs
    have hagain : ¬ (e = EAGAIN ∨ e = EWOULDBLOCK) := fun he => hne' (he.elim id id)
    rw [onWrite, if_neg hne, if_neg hagain]
    refine ⟨cleanup_ending _ _, ?_⟩
    show s.sbytes < s.out.length
    omega
  · exact hfatal.elim

/-- Nothing makes up for it. -/
theorem Lost.step {a : Args} {file : List UInt8} {s s' : State} {r : Reply} (h : Lost s)
    (hs : step a file s r = some s') : Lost s' := by
  obtain ⟨hend, hout, hlen⟩ := h.1.step hs
  exact ⟨hend, by rw [hout, hlen]; exact h.2⟩

/-- Run lemma: at the end of a run the count has been kept, or lost in the middle of a chunk. -/
theorem run_accounted {a : Args} {file : List UInt8} {replies : List Reply} {s t : State}
    (h : Accounted s) (hok : Legal (step a file) (Takes a) s replies)
    (hrun : run (step a file) s replies = some t) :
    (Legal (step a file) (fun s r => ¬ FatalMidChunk s r) s replies ∧ Accounted t) ∨
    (¬ Legal (step a file) (fun s r => ¬ FatalMidChunk s r) s replies ∧ Lost t) := by
  induction replies generalizing s with
  | nil =>
    obtain rfl := Option.some.inj hrun
    exact .inl ⟨trivial, h⟩
  | cons r replies ih =>
    obtain ⟨htakes, hok⟩ := legal_cons.mp hok
    obtain ⟨s', hs, hrun⟩ := Option.bind_eq_some_iff.mp hrun
    by_cases hfatal : FatalMidChunk s r
    · have hlost := run_inv_of_some (fun s r s' h _ hs => Lost.step h hs)
        (step_lost h hfatal hs) (hok s' hs) hrun
      exact .inr ⟨fun hl => (legal_cons.mp hl).1 hfatal, hlost⟩
    · rcases ih (step_accounted h htakes hfatal hs) (hok s' hs) hrun with ⟨hl, ht⟩ | ⟨hl, ht⟩
      · refine .inl ⟨legal_cons.mpr ⟨hfatal, fun u hu => ?_⟩, ht⟩
        obtain rfl := Option.some.inj (hs.symm.trans hu)
        exact hl
      · exact .inr ⟨fun hl' => hl ((legal_cons.mp hl').2 s' hs), ht⟩

/-- A call on track has the right count. -/
theorem OnTrack.accounted {a : Args} {file : List UInt8} {s : State} (h : OnTrack a file s) :
    Accounted s := by
  unfold OnTrack at h
  unfold Accounted
  split at h
  · next hp =>
    obtain ⟨_, _, _, _, _, hbytes, hout⟩ := h
    simp [hp, hbytes, hout]
  · next n hp =>
    obtain ⟨_, k, hbody, _, _, hout⟩ := h
    have hk := hbody.bound
    simp only [hp, hout, hbody.sbytes, List.length_append, List.length_take]
    omega
  · next chunk t hp =>
    obtain ⟨_, k, hbody, _, hroom, _, hout⟩ := h
    simp only [hp, hout, hbody.sbytes, List.length_append, List.length_take]
    omega
  · next hp =>
    simp only [hp]
    exact h.2.symm
  · exact h.elim
  · next ret hp =>
    obtain ⟨_, hout, hlen⟩ := h
    simp only [hp, hout]
    exact hlen.symm

theorem begin_accounted (a : Args) (d : Descriptors) : Accounted (begin a d) := by
  rcases begin_begun a d with h | ⟨⟨ret, hp⟩ | ⟨ret, hp⟩, hout, hlen⟩
  · exact h.accounted
  · simp [Accounted, hp, hout, hlen]
  · simp [Accounted, hp, hout, hlen]

/-- `*len` at the return is the number of bytes the socket has accepted exactly when no `write`
    failed for good in the middle of a chunk. -/
theorem len_eq_accepted_iff {a : Args} {d : Descriptors} (replies : List Reply) {s : State}
    {ret : Int} (hok : Legal (step a d.file) (Takes a) (begin a d) replies)
    (hrun : run (step a d.file) (begin a d) replies = some s) (hdone : s.point = .done ret) :
    s.len = s.out.length ↔
      Legal (step a d.file) (fun s r => ¬ FatalMidChunk s r) (begin a d) replies := by
  rcases run_accounted (begin_accounted a d) hok hrun with ⟨hl, ht⟩ | ⟨hl, _, hlt⟩
  · simp only [Accounted, hdone] at ht
    exact iff_of_true ht.symm hl
  · exact iff_of_false (by omega) hl

/-- A file of two bytes. -/
def pairDescriptors : Descriptors := { smallDescriptors with file := [3, 5] }

/-- The first `read` brings one byte, the second one ends the body in front of the other byte;
    the trailers follow. -/
theorem len_eq_accepted_iff_early :
    ∃ s, run (step smallArgs pairDescriptors.file) (begin smallArgs pairDescriptors)
        [.count 2, .count 1, .error EINTR, .count 1, .count 0, .count 1] = some s ∧
      (s.len = s.out.length ↔
        Legal (step smallArgs pairDescriptors.file) (fun s r => ¬ FatalMidChunk s r)
          (begin smallArgs pairDescriptors)
          [.count 2, .count 1, .error EINTR, .count 1, .count 0, .count 1]) :=
  ⟨_, rfl, len_eq_accepted_iff [.count 2, .count 1, .error EINTR, .count 1, .count 0, .count 1]
    (by decide) rfl rfl⟩

/-- The headers and one byte of the file are accepted, then the connection breaks: two bytes are
    reported. -/
theorem fatal_write_underreports :
    ¬ ∀ (a : Args) (d : Descriptors) (replies : List Reply) (s : State) (ret : Int),
      Legal (step a d.file) (Takes a) (begin a d) replies →
      run (step a d.file) (begin a d) replies = some s → s.point = .done ret →
      s.len = s.out.length := by
  intro h
  have hbad := h smallArgs pairDescriptors
    [.count 2, .count 2, .count 1, .error 32, .count 0] _ (-1) (by decide) rfl rfl
  exact absurd hbad (by decide)

end Librecompat.Sendfile
