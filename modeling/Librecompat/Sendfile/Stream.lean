/-
  What `compat_sendfile` puts on the socket.

  `stream a file` is what the call is asked to send: headers, the part of the file from `offset`
  on up to the limit, trailers. `OnTrack` is the invariant of a call whose headers went out
  whole: at each `Point` it says how much of the stream is out and that the counters agree.
  Every reply that fits keeps it, ends the call, or is a short `writev`. So as long as nothing is
  accepted behind short headers the socket holds a prefix of the stream (`out_prefix_stream`),
  and when nothing fails the call ends with the whole of it (`sendfile_exact`).
-/
import Librecompat.Sendfile.Steps

namespace Librecompat.Sendfile

open Librecompat.Lib

/-! ## The stream -/

/-- How many bytes of the file the call may send at most. -/
def limit (a : Args) (file : List UInt8) : Nat :=
  if a.len = 0 then file.length else (a.len - a.headers.flatten.length).toNat

/-- The bytes of the file that are to be sent. -/
def body (a : Args) (file : List UInt8) : List UInt8 :=
  (file.drop a.offset.toNat).take (limit a file)

/-- What the call is asked to send. -/
def stream (a : Args) (file : List UInt8) : List UInt8 :=
  a.headers.flatten ++ body a file ++ a.trailers.flatten

theorem length_body (a : Args) (file : List UInt8) :
    (body a file).length = min (limit a file) (file.length - a.offset.toNat) := by
  rw [body, List.length_take, List.length_drop]

/-- What `read` finds behind `k` sent bytes is what is to be sent next. -/
theorem drop_take_body (a : Args) (file : List UInt8) {k n : Nat}
    (h : k + n ≤ (body a file).length) :
    (file.drop (a.offset.toNat + k)).take n = ((body a file).drop k).take n := by
  have hlim : n ≤ limit a file - k := by
    rw [length_body] at h
    omega
  rw [body, List.drop_take, List.drop_drop, List.take_take, Nat.min_eq_left hlim]

/-! ## On track -/

/-- The headers went out whole and `k` bytes of the body are counted as sent. -/
structure InBody (a : Args) (file : List UInt8) (k : Nat) (s : State) : Prop where
  offset : 0 ≤ a.offset
  filePos : s.filePos = a.offset + k
  sent : s.sentHeadersAndFile = a.headers.flatten.length + k
  sbytes : s.sbytes = a.headers.flatten.length + k
  bound : k ≤ (body a file).length

/-- What holds at each call, and at a return that has sent everything. -/
def OnTrack (a : Args) (file : List UInt8) (s : State) : Prop :=
  match s.point with
  | .headers => 0 ≤ a.offset ∧ a.offset < file.length ∧ s.filePos = a.offset ∧
      s.fdPos = a.offset ∧ s.sentHeadersAndFile = 0 ∧ s.sbytes = 0 ∧ s.out = []
  | .read n => 0 < n ∧ ∃ k, InBody a file k s ∧ s.fdPos = s.filePos ∧
      k + n ≤ (body a file).length ∧ s.out = a.headers.flatten ++ (body a file).take k
  | .write chunk t => t < chunk.length ∧ ∃ k, InBody a file k s ∧
      s.fdPos = s.filePos + chunk.length ∧ k + chunk.length ≤ (body a file).length ∧
      chunk = ((body a file).drop k).take chunk.length ∧
      s.out = a.headers.flatten ++ (body a file).take (k + t)
  | .trailers => s.out = a.headers.flatten ++ body a file ∧ s.sbytes = s.out.length
  | .restore _ => False
  | .done ret => ret = 0 ∧ s.out = stream a file ∧ s.len = (stream a file).length

/-- Whatever is on track has sent a part of the stream. -/
theorem OnTrack.isPrefix {a : Args} {file : List UInt8} {s : State} (h : OnTrack a file s) :
    s.out <+: stream a file := by
  unfold OnTrack at h
  split at h
  · rw [h.2.2.2.2.2.2]
    exact List.nil_prefix
  · obtain ⟨_, k, _, _, _, hout⟩ := h
    rw [hout, stream, List.append_assoc, List.prefix_append_right_inj]
    exact (List.take_prefix _ _).trans (List.prefix_append _ _)
  · obtain ⟨_, k, _, _, _, _, hout⟩ := h
    rw [hout, stream, List.append_assoc, List.prefix_append_right_inj]
    exact (List.take_prefix _ _).trans (List.prefix_append _ _)
  · rw [h.1, stream]
    exact List.prefix_append _ _
  · exact h.elim
  · exact h.2.1 ▸ List.prefix_refl _

/-- With headers and body out, the trailers follow or the call is complete. -/
theorem sendTrailers_onTrack {a : Args} {file : List UInt8} {s : State}
    (hout : s.out = a.headers.flatten ++ body a file) (hbytes : s.sbytes = s.out.length) :
    OnTrack a file (sendTrailers a s) := by
  unfold sendTrailers
  split
  · exact ⟨hout, hbytes⟩
  · next hnone =>
    have hT : a.trailers = [] := by simpa using hnone
    have hstream : stream a file = s.out := by simp [stream, hT, hout]
    exact ⟨rfl, hstream.symm, by rw [hstream]; exact hbytes⟩

/-- The size asked for is positive and stays inside the body. -/
theorem toRead_bounds {a : Args} {file : List UInt8} {k : Nat} {s : State}
    (h : InBody a file k s) (hlt : k < (body a file).length) :
    0 < toRead a file.length s ∧ k + toRead a file.length s ≤ (body a file).length := by
  obtain ⟨h0, hpos, hsent, _, _⟩ := h
  rw [length_body] at hlt ⊢
  unfold limit at hlt ⊢
  unfold toRead SENDFILE_BUFFER_SIZE
  by_cases hlen : a.len = 0
  · simp only [if_pos hlen] at hlt ⊢
    split <;> omega
  · simp only [if_neg hlen] at hlt ⊢
    split <;> split <;> omega

/-- At the head of the body loop the next call is a `read`, or the body is out. -/
theorem loopHead_onTrack {a : Args} {file : List UInt8} {k : Nat} {s : State}
    (h : InBody a file k s) (hfd : s.fdPos = s.filePos)
    (hout : s.out = a.headers.flatten ++ (body a file).take k) :
    OnTrack a file (loopHead a file.length s) := by
  obtain ⟨h0, hpos, hsent, hbytes, hk⟩ := id h
  by_cases hlt : k < (body a file).length
  · obtain ⟨hr0, hr⟩ := toRead_bounds h hlt
    have hcond : (a.len = 0 ∨ s.sentHeadersAndFile < a.len) ∧ s.filePos < file.length := by
      rw [length_body] at hlt
      unfold limit at hlt
      split at hlt <;> omega
    rw [loopHead, if_pos hcond, if_neg (by omega)]
    exact ⟨hr0, k, ⟨h0, hpos, hsent, hbytes, hk⟩, hfd, hr, hout⟩
  · have hall : k = (body a file).length := by omega
    have hcond : ¬ ((a.len = 0 ∨ s.sentHeadersAndFile < a.len) ∧ s.filePos < file.length) := by
      rw [length_body] at hall
      unfold limit at hall
      split at hall <;> omega
    rw [hall, List.take_length] at hout
    rw [loopHead, if_neg hcond]
    apply sendTrailers_onTrack hout
    rw [hout, hbytes, List.length_append, hall]
    omega

/-! ## Replies that keep it -/

theorem onHeaders_onTrack {a : Args} {file : List UInt8} {s : State} (h : OnTrack a file s)
    (hp : s.point = .headers) :
    OnTrack a file (onHeaders a file.length s (.count a.headers.flatten.length)) := by
  simp only [OnTrack, hp] at h
  obtain ⟨h0, hlt, hpos, hfd, hsent, hbytes, hout⟩ := h
  have hbody : InBody a file 0
      ((s.accept (a.headers.flatten.take a.headers.flatten.length)).count
        a.headers.flatten.length) := by
    refine ⟨h0, ?_, ?_, ?_, Nat.zero_le _⟩
    · show s.filePos = _
      omega
    · show s.sentHeadersAndFile + _ = _
      omega
    · show s.sbytes + _ = _
      omega
  have hout' : ((s.accept (a.headers.flatten.take a.headers.flatten.length)).count
      a.headers.flatten.length).out = a.headers.flatten ++ (body a file).take 0 := by
    rw [count_out, accept_out, hout, List.take_length, List.take_zero, List.append_nil,
      List.nil_append]
  simp only [onHeaders]
  split
  · next hfull =>
    -- the limit is used up by the headers: the body is empty
    have hempty : body a file = [] := by
      apply List.eq_nil_of_length_eq_zero
      rw [length_body]
      have hs := hbody.sent
      unfold limit
      rw [if_neg (by omega)]
      omega
    rw [hempty, List.take_nil] at hout'
    apply sendTrailers_onTrack (hout'.trans (by rw [hempty]))
    rw [hout', hbody.sbytes, List.append_nil]
    omega
  · refine loopHead_onTrack hbody ?_ hout'
    show s.fdPos = s.filePos
    omega

theorem onRead_onTrack {a : Args} {file : List UInt8} {s : State} {n : Nat} {m : Int}
    (h : OnTrack a file s) (hp : s.point = .read m) (hfit : Fits a file s (.count n)) :
    OnTrack a file (onRead a file s (.count n)) := by
  simp only [OnTrack, hp] at h
  simp only [Fits, hp] at hfit
  obtain ⟨hm, k, hbody, hfd, hroom, hout⟩ := h
  obtain ⟨hn, hend, hz⟩ := hfit
  obtain ⟨h0, hpos, hsent, hbytes, hk⟩ := id hbody
  have hsize : k + m ≤ (file.length - a.offset.toNat : Nat) := by
    rw [length_body] at hroom
    omega
  have hn0 : n ≠ 0 := fun hn0 => by
    have := hz hn0
    omega
  have hchunk : (file.drop s.fdPos.toNat).take n = ((body a file).drop k).take n := by
    have hat : s.fdPos.toNat = a.offset.toNat + k := by omega
    rw [hat]
    exact drop_take_body a file (by omega)
  have hlen : (((body a file).drop k).take n).length = n := by
    rw [List.length_take, List.length_drop]
    omega
  rw [onRead, if_neg hn0, hchunk]
  refine ⟨by omega, k, ⟨h0, hpos, hsent, hbytes, hk⟩, ?_, by omega, by rw [hlen], ?_⟩
  · show s.fdPos + n = s.filePos + _
    omega
  · rw [Nat.add_zero]
    exact hout

theorem onWrite_onTrack {a : Args} {file : List UInt8} {s : State} {n t : Nat}
    {chunk : List UInt8} (h : OnTrack a file s) (hp : s.point = .write chunk t)
    (hfit : Fits a file s (.count n)) :
    OnTrack a file (onWrite a file.length chunk t s (.count n)) := by
  simp only [OnTrack, hp] at h
  simp only [Fits, hp] at hfit
  obtain ⟨ht, k, hbody, hfd, hroom, hchunk, hout⟩ := h
  obtain ⟨h0, hpos, hsent, hbytes, hk⟩ := id hbody
  -- the accepted bytes are the next ones of the body
  have hnext : (s.accept ((chunk.drop t).take n)).out =
      a.headers.flatten ++ (body a file).take (k + (t + n)) := by
    have hpart : (chunk.drop t).take n = ((body a file).drop (k + t)).take n := by
      rw [hchunk, List.drop_take, List.take_take, List.drop_drop, Nat.min_eq_left (by omega)]
    rw [accept_out, hout, hpart, List.append_assoc, ← List.take_add, Nat.add_assoc]
  simp only [onWrite]
  split
  · next hmore =>
    exact ⟨hmore, k, ⟨h0, hpos, hsent, hbytes, hk⟩, hfd, hroom, hchunk, hnext⟩
  · have hall : t + n = chunk.length := by omega
    refine loopHead_onTrack (k := k + (t + n)) ⟨h0, ?_, ?_, ?_, by omega⟩ ?_ hnext
    · show s.filePos + _ = _
      omega
    · show s.sentHeadersAndFile + _ = _
      omega
    · show s.sbytes + _ = _
      omega
    · show s.fdPos = s.filePos + _
      omega

theorem onTrailers_onTrack {a : Args} {file : List UInt8} {s : State} (h : OnTrack a file s)
    (hp : s.point = .trailers) :
    OnTrack a file (onTrailers a s (.count a.trailers.flatten.length)) := by
  simp only [OnTrack, hp] at h
  obtain ⟨hout, hbytes⟩ := h
  refine ⟨rfl, ?_, ?_⟩
  · show s.out ++ _ = _
    rw [hout, List.take_length, stream]
  · show s.sbytes + _ = _
    rw [hbytes, hout, stream]
    simp only [List.length_append]
    omega

/-- An interrupted transfer is made again. -/
theorem step_eintr {a : Args} {file : List UInt8} {s : State} (h : OnTrack a file s)
    (hp : (∃ n, s.point = .read n) ∨ ∃ chunk t, s.point = .write chunk t) :
    ∃ s', step a file s (.error EINTR) = some s' ∧ OnTrack a file s' := by
  rcases hp with ⟨n, hp⟩ | ⟨chunk, t, hp⟩
  · refine ⟨_, by rw [step, hp], ?_⟩
    simp only [OnTrack, hp] at h
    obtain ⟨_, k, hbody, hfd, _, hout⟩ := h
    rw [onRead, if_pos rfl]
    exact loopHead_onTrack ⟨hbody.offset, hbody.filePos, hbody.sent, hbody.sbytes, hbody.bound⟩
      hfd hout
  · refine ⟨_, by rw [step, hp], ?_⟩
    simp only [OnTrack, hp] at h
    obtain ⟨ht, k, hbody, hrest⟩ := h
    rw [onWrite, if_pos rfl]
    exact ⟨ht, k, ⟨hbody.offset, hbody.filePos, hbody.sent, hbody.sbytes, hbody.bound⟩, hrest⟩

/-! ## The start of the call -/

/-- Nothing has been sent or counted. -/
structure Fresh (a : Args) (s : State) : Prop where
  filePos : s.filePos = a.offset
  sent : s.sentHeadersAndFile = 0
  sbytes : s.sbytes = 0
  out : s.out = []

/-- The first transfer is on track. -/
theorem sendHeaders_onTrack {a : Args} {file : List UInt8} {s : State} (h : Fresh a s)
    (h0 : 0 ≤ a.offset) (hlt : a.offset < file.length) (hfd : s.fdPos = a.offset) :
    OnTrack a file (sendHeaders a file.length s) := by
  obtain ⟨hpos, hsent, hbytes, hout⟩ := h
  unfold sendHeaders
  split
  · exact ⟨h0, hlt, hpos, hfd, hsent, hbytes, hout⟩
  · next hnone =>
    have hH : a.headers = [] := by simpa using hnone
    refine loopHead_onTrack ⟨h0, ?_, ?_, ?_, Nat.zero_le _⟩ (hfd.trans hpos.symm) ?_
    · rw [hpos]
      simp
    · rw [hsent, hH]
      rfl
    · rw [hbytes, hH]
      rfl
    · rw [hout, hH]
      rfl

/-- The call begins on track, or ends without having sent or reported anything. -/
def Begun (a : Args) (file : List UInt8) (s : State) : Prop :=
  OnTrack a file s ∨ (Ending s ∧ s.out = [] ∧ s.len = 0)

theorem Fresh.fail {a : Args} {s : State} (h : Fresh a s) (file : List UInt8) (e : Errno) :
    Begun a file (s.fail e) :=
  .inr ⟨fail_ending s e, h.out, h.sbytes⟩

theorem openFile_begun {a : Args} {d : Descriptors} {s : State} (h : Fresh a s)
    (h0 : 0 ≤ a.offset) : Begun a d.file (openFile a d s) := by
  unfold openFile
  split
  · exact .inr ⟨.inr ⟨0, rfl⟩, h.out, rfl⟩
  · next hlt =>
    split
    · exact h.fail _ _
    · split
      · exact h.fail _ _
      · dsimp only
        split
        · exact .inl (sendHeaders_onTrack ⟨h.filePos, h.sent, h.sbytes, h.out⟩ h0 (by omega) rfl)
        · exact .inr ⟨cleanup_ending _ _, h.out, h.sbytes⟩

theorem checkSocket_begun {a : Args} {d : Descriptors} {s : State} (h : Fresh a s)
    (h0 : 0 ≤ a.offset) : Begun a d.file (checkSocket a d s) := by
  unfold checkSocket
  split
  · exact h.fail _ _
  · split
    · exact h.fail _ _
    · split
      · exact h.fail _ _
      · split
        · exact h.fail _ _
        · split
          · exact h.fail _ _
          · split
            · exact h.fail _ _
            · exact openFile_begun h h0

theorem begin_begun (a : Args) (d : Descriptors) : Begun a d.file (begin a d) := by
  have hfresh : Fresh a (State.entry a d) := ⟨rfl, rfl, rfl, rfl⟩
  unfold begin
  dsimp only
  split
  · exact hfresh.fail _ _
  · split
    · exact hfresh.fail _ _
    · next h0 =>
      split
      · exact hfresh.fail _ _
      · split
        · exact hfresh.fail _ _
        · exact checkSocket_begun hfresh (by omega)

/-! ## Every run -/

/-- What is known in every state of a run that accepts nothing behind short headers. -/
def Sound (a : Args) (file : List UInt8) (s : State) : Prop :=
  OnTrack a file s ∨ (Ending s ∧ s.out <+: stream a file) ∨
  (s.point ≠ .headers ∧ s.out.length < a.headers.flatten.length ∧ s.out <+: a.headers.flatten)

theorem Sound.isPrefix {a : Args} {file : List UInt8} {s : State} (h : Sound a file s) :
    s.out <+: stream a file := by
  rcases h with h | ⟨_, h⟩ | ⟨_, _, h⟩
  · exact h.isPrefix
  · exact h
  · rw [stream, List.append_assoc]
    exact h.trans (List.prefix_append _ _)

/-- Behind headers of which only a part went out, the reply makes the socket accept nothing. -/
def NotBehindShort (a : Args) (s : State) (r : Reply) : Prop :=
  s.point = .headers ∨ a.headers.flatten.length ≤ s.out.length ∨ accepted a s r = []

instance (a : Args) (s : State) (r : Reply) : Decidable (NotBehindShort a s r) :=
  inferInstanceAs (Decidable (_ ∨ _ ∨ _))

/-- A failed transfer is made again or ends the call. -/
theorem step_error {a : Args} {file : List UInt8} {s s' : State} {e : Errno}
    (h : OnTrack a file s) (hs : step a file s (.error e) = some s') :
    OnTrack a file s' ∨ Ending s' := by
  by_cases he : e = EINTR ∧
      ((∃ n, s.point = .read n) ∨ ∃ chunk t, s.point = .write chunk t)
  · obtain ⟨rfl, hp⟩ := he
    obtain ⟨t, ht, htrack⟩ := step_eintr h hp
    rw [hs] at ht
    exact .inl (Option.some.inj ht ▸ htrack)
  · right
    cases step_moves hs with
    | readAgain hp hgo => exact absurd ⟨rfl, .inl ⟨_, hp⟩⟩ he
    | writeAgain hp => exact absurd ⟨rfl, .inr ⟨_, _, hp⟩⟩ he
    | headersFailed | readFailed | writeBlocked | writeFailed | trailersFailed =>
      exact cleanup_ending _ _
    | restored r hp => exact restore_ending _ _ _

/-- A transfer that takes no more than it is asked to is on track, short, or the last one. -/
theorem step_count {a : Args} {file : List UInt8} {s s' : State} {n : Nat}
    (h : OnTrack a file s) (hfit : Fits a file s (.count n))
    (hs : step a file s (.count n) = some s') : Sound a file s' := by
  have hout := step_out hs
  have hpoint := step_point hs
  cases hp : s.point with
  | headers =>
    rw [step, hp] at hs
    simp only [Fits, hp] at hfit
    by_cases hn : n = a.headers.flatten.length
    · obtain rfl := Option.some.inj hs
      rw [hn]
      exact .inl (onHeaders_onTrack h hp)
    · -- a short `writev`
      have hempty : s.out = [] := by
        simp only [OnTrack, hp] at h
        exact h.2.2.2.2.2.2
      simp only [accepted, hp, hempty, List.nil_append] at hout
      refine .inr (.inr ⟨hpoint, ?_, ?_⟩)
      · rw [hout, List.length_take]
        omega
      · rw [hout]
        exact List.take_prefix _ _
  | read m =>
    rw [step, hp] at hs
    obtain rfl := Option.some.inj hs
    exact .inl (onRead_onTrack h hp hfit)
  | write chunk t =>
    rw [step, hp] at hs
    obtain rfl := Option.some.inj hs
    exact .inl (onWrite_onTrack h hp hfit)
  | trailers =>
    simp only [OnTrack, hp] at h
    simp only [accepted, hp] at hout
    rw [step, hp] at hs
    refine .inr (.inl ⟨?_, ?_⟩)
    · obtain rfl := Option.some.inj hs
      exact .inr ⟨0, rfl⟩
    · rw [hout, h.1, stream, List.prefix_append_right_inj]
      exact List.take_prefix _ _
  | restore ret =>
    simp only [OnTrack, hp] at h
  | done ret =>
    rw [step, hp] at hs
    cases hs

/-- Step lemma: a reply that fits keeps `Sound`. -/
theorem step_sound {a : Args} {file : List UInt8} {s s' : State} {r : Reply}
    (h : Sound a file s) (hfit : Fits a file s r) (hshort : NotBehindShort a s r)
    (hs : step a file s r = some s') : Sound a file s' := by
  have hout := step_out hs
  rcases h with h | ⟨hend, hpre⟩ | ⟨hpoint, hlen, hpre⟩
  · cases r with
    | error e =>
      have hnone : accepted a s (.error e) = [] := by
        unfold accepted
        split <;> first | rfl | cases ‹Reply.error e = _›
      rw [hnone, List.append_nil] at hout
      rcases step_error h hs with htrack | hend
      · exact .inl htrack
      · refine .inr (.inl ⟨hend, ?_⟩)
        rw [hout]
        exact h.isPrefix
    | count n => exact step_count h hfit hs
  · obtain ⟨hend', hkept, -⟩ := hend.step hs
    exact .inr (.inl ⟨hend', by rw [hkept]; exact hpre⟩)
  · have hnone : accepted a s r = [] := by
      rcases hshort with hp | hle | hnone
      · exact absurd hp hpoint
      · omega
      · exact hnone
    rw [hnone, List.append_nil] at hout
    exact .inr (.inr ⟨step_point hs, by rw [hout]; exact hlen, by rw [hout]; exact hpre⟩)

/-- Run theorem: in every run that accepts nothing behind short headers, what the socket has
    accepted is a prefix of the stream in every state. -/
theorem out_prefix_stream {a : Args} {d : Descriptors} (replies : List Reply) {s : State}
    (hok : Legal (step a d.file) (fun s r => Fits a d.file s r ∧ NotBehindShort a s r)
      (begin a d) replies)
    (hrun : run (step a d.file) (begin a d) replies = some s) : s.out <+: stream a d.file := by
  have hbegin : Sound a d.file (begin a d) := by
    rcases begin_begun a d with h | ⟨hend, hout, _⟩
    · exact .inl h
    · refine .inr (.inl ⟨hend, ?_⟩)
      rw [hout]
      exact List.nil_prefix
  have hstep : ∀ s r s', Sound a d.file s → Fits a d.file s r ∧ NotBehindShort a s r →
      step a d.file s r = some s' → Sound a d.file s' :=
    fun _ _ _ h hok hs => step_sound h hok.1 hok.2 hs
  exact (run_inv_of_some hstep hbegin hok hrun).isPrefix

/-- Headers `1 2` and a file that holds `3`. -/
def smallArgs : Args :=
  { offset := 0, len := 0, hdtr := some { headers := [[1, 2]], trailers := [[4]] }, flags := 0 }

/-- Descriptors that pass every check. -/
def smallDescriptors : Descriptors :=
  { file := [3], pos := 0, statFd := .ok true, statSock := .ok true, sockType := .ok SOCK_STREAM,
    sockError := .ok 0, tell := .ok (), seek := .ok (), malloc := true }

/-- The call with whole headers, an interrupted `read` and a connection that breaks before the
    trailers. -/
theorem out_prefix_stream_small :
    ∃ s, run (step smallArgs smallDescriptors.file) (begin smallArgs smallDescriptors)
        [.count 2, .error EINTR, .count 1, .count 1, .error 32] = some s ∧
      s.out <+: stream smallArgs smallDescriptors.file :=
  ⟨_, rfl, out_prefix_stream [.count 2, .error EINTR, .count 1, .count 1, .error 32]
    (by decide) rfl⟩

/-- When `writev` takes only the first byte of the headers, the file follows right behind it. -/
theorem short_headers_break_stream :
    ¬ ∀ (a : Args) (d : Descriptors) (replies : List Reply) (s : State), 0 ≤ a.offset →
      a.offset < d.file.length → 0 ≤ a.len →
      Legal (step a d.file) (fun s r => Fits a d.file s r) (begin a d) replies →
      run (step a d.file) (begin a d) replies = some s → s.out <+: stream a d.file := by
  intro h
  have hbad := h smallArgs smallDescriptors [.count 1, .count 1, .count 1] _ (by decide)
    (by decide) (by decide) (by decide) rfl
  exact absurd hbad (by decide)

end Librecompat.Sendfile
