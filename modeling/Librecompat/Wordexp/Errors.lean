/-
  What the result of `we_askshell` depends on.

  `Behaves` fixes what a child writes and how it ends, with every call made for it succeeding; it
  leaves open in which pieces the bytes come and what the stack held where `err_buf` is. Two such
  children are read alike up to `err_buf` (`weCollect_errBuf`), and a buffer that `read` has put
  bytes into is searched alike. A `read` of no bytes leaves the buffer as the stack left it, and
  the search goes over that: `weAskshell_child_iff` says that this is the only case in which the
  result is not a matter of the child alone.
-/
import Librecompat.Wordexp.Vector

namespace Librecompat.Wordexp

open Librecompat.Lib

/-! ## The bytes on a pipe -/

/-- No `read` on the pipe fails, and the child's end is open up to its last byte. -/
def Plain (rs : List Reply) : Prop := ∀ r ∈ rs, r = .eintr ∨ ∃ bs, bs ≠ [] ∧ r = .data bs

theorem Plain.tail {r : Reply} {rs : List Reply} (h : Plain (r :: rs)) : Plain rs :=
  fun r' hr => h r' (List.mem_cons_of_mem r hr)

theorem Plain.data_ne {bs : List UInt8} {rs : List Reply} (h : Plain (.data bs :: rs)) :
    bs ≠ [] := by
  obtain he | ⟨bs', hne, he⟩ := h _ List.mem_cons_self
  · cases he
  · cases he
    exact hne

/-- A read takes what is wanted of the bytes that come, whatever the pieces. -/
theorem weReadFully_plain {len : Nat} (hlen : len ≤ INT_MAX) {buffer : List UInt8}
    {rs : List Reply} (hp : Plain rs) (hb : buffer.length ≤ len) :
    (weReadFully len buffer rs).1 = buffer ++ (delivered rs).take (len - buffer.length) ∧
      Plain (weReadFully len buffer rs).2 := by
  fun_induction weReadFully len buffer rs with
  | case1 => exact ⟨by simp [delivered], hp⟩
  | case2 buffer r rs room hroom => omega
  | case3 buffer rs room _ heq =>
    refine ⟨?_, hp.tail⟩
    rw [heq, Nat.sub_self, List.take_zero, List.append_nil]
  | case4 buffer rs room _ _ ih => exact ih hp.tail hb
  | case5 =>
    obtain he | ⟨bs, _, he⟩ := hp _ List.mem_cons_self <;> cases he
  | case6 buffer rs room _ bs hend =>
    have hroom : len - buffer.length = 0 := hend.resolve_left hp.data_ne
    refine ⟨?_, hp⟩
    rw [hroom, List.take_zero, List.append_nil]
  | case7 buffer rs room _ bs hmore hlt ih =>
    have hsum : (buffer ++ bs).length ≤ len := by
      rw [List.length_append]
      omega
    obtain ⟨hread, hrest⟩ := ih hp.tail hsum
    refine ⟨?_, hrest⟩
    rw [hread, delivered, List.append_assoc, List.take_append,
      List.take_of_length_le (Nat.le_of_lt hlt), List.length_append, Nat.sub_sub]
  | case8 buffer rs room _ bs hmore hge heq =>
    have hroom : len - buffer.length = bs.length := heq.symm
    refine ⟨?_, hp.tail⟩
    rw [delivered, hroom, List.take_left]
  | case9 buffer rs room _ bs hmore hge hne =>
    constructor
    · rw [delivered, List.take_append_of_le_length (by omega)]
    · intro r hr
      obtain rfl | hr := List.mem_cons.mp hr
      · refine .inr ⟨_, ?_, rfl⟩
        rw [ne_eq, List.drop_eq_nil_iff]
        omega
      · exact hp.tail r hr

theorem Plain.read {rs : List Reply} (hp : Plain rs) {len : Nat} (hlen : len ≤ INT_MAX) :
    (weReadFully len [] rs).1 = (delivered rs).take len ∧ Plain (weReadFully len [] rs).2 :=
  @weReadFully_plain len hlen [] rs hp (Nat.zero_le len)

/-- The same bytes, in whatever pieces. -/
structure Alike (rs rs' : List Reply) : Prop where
  left : Plain rs
  right : Plain rs'
  bytes : delivered rs = delivered rs'

theorem Alike.read {rs rs' : List Reply} (h : Alike rs rs') (len : Nat) :
    (weReadFully len [] rs).1 = (weReadFully len [] rs').1 ∧
      Alike (weReadFully len [] rs).2 (weReadFully len [] rs').2 := by
  by_cases hlen : len ≤ INT_MAX
  · obtain ⟨hread, hrest⟩ := h.left.read hlen
    obtain ⟨hread', hrest'⟩ := h.right.read hlen
    have hsame : (weReadFully len [] rs).1 = (weReadFully len [] rs').1 := by
      rw [hread, hread', h.bytes]
    refine ⟨hsame, hrest, hrest', ?_⟩
    have hall := weReadFully_delivered len [] rs
    rw [hsame, h.bytes, ← weReadFully_delivered len [] rs'] at hall
    exact List.append_cancel_left hall
  · have hgt : INT_MAX < len := Nat.lt_of_not_le hlen
    rw [weReadFully_of_gt hgt, weReadFully_of_gt hgt]
    exact ⟨rfl, h⟩

theorem Alike.readCounts {rs rs' : List Reply} (h : Alike rs rs') :
    (readCounts rs = none ∧ readCounts rs' = none) ∨
    ∃ nwords nbytes rest rest', readCounts rs = some (nwords, nbytes, rest) ∧
      readCounts rs' = some (nwords, nbytes, rest') ∧ Alike rest rest' := by
  obtain ⟨hw, hrest⟩ := h.read 8
  obtain ⟨hb, hrest'⟩ := hrest.read 8
  unfold Wordexp.readCounts
  dsimp only
  rw [← hw, ← hb]
  by_cases hwlen : (weReadFully 8 [] rs).1.length = 8
  · rw [if_neg (not_not.mpr hwlen), if_neg (not_not.mpr hwlen)]
    by_cases hblen : (weReadFully 8 [] (weReadFully 8 [] rs).2).1.length = 8
    · rw [if_neg (not_not.mpr hblen), if_neg (not_not.mpr hblen)]
      exact .inr ⟨_, _, _, _, rfl, rfl, hrest'⟩
    · rw [if_pos hblen, if_pos hblen]
      exact .inl ⟨rfl, rfl⟩
  · rw [if_pos hwlen, if_pos hwlen]
    exact .inl ⟨rfl, rfl⟩

theorem Alike.readWords {rs rs' : List Reply} (h : Alike rs rs') (m : Mem Obj)
    (nwv sofs : Nat) (nbytes : Int) :
    readWords m nwv sofs nbytes rs = readWords m nwv sofs nbytes rs' := by
  unfold Wordexp.readWords
  dsimp only
  rw [(h.read _).1]

/-! ## Up to the search -/

variable (A : Allocator Obj)

/-- Two children that write the same are read alike, up to `err_buf`. -/
theorem weCollect_errBuf {c c' : Child} {errBuf errBuf' : List UInt8}
    (h : Alike c.stdout c'.stdout) (he : readErrors c = some errBuf)
    (he' : readErrors c' = some errBuf') (flags : Nat) (m : Mem Obj) (we : WordexpT) :
    weCollect A c' flags m we =
      (weCollect A c flags m we).map fun (m, we, r) =>
        (m, we, r.map fun v => { v with errBuf := errBuf' }) := by
  unfold weCollect
  obtain ⟨hn, hn'⟩ | ⟨nwords, nbytes, rest, rest', hs, hs', hrest⟩ := h.readCounts
  · rw [hn, hn']
    rfl
  · rw [hs, hs', he, he']
    simp only [hrest.readWords, Option.bind_eq_bind, Option.map_bind, Function.comp_def,
      apply_ite (Option.map _), Option.map_some, Except.map]

/-- The child `c` writes `out` and ends with `status`, the `read` on its error output finds `err`,
    and every call succeeds. -/
structure Behaves (calls : Nat) (c : Child) (out err : List UInt8) (status : Option Nat) :
    Prop where
  started : startFails A c calls = false
  memory : A.fails (calls + 1) = false ∧ A.fails (calls + 2) = false
  plain : Plain c.stdout
  stdout : delivered c.stdout = out
  stderr : c.stderr = .data err
  stack : c.stack.length = 1024
  status : c.status = status

variable {A} {c c' : Child} {calls flags : Nat} {out err words : List UInt8} {status : Option Nat}
  {s : Proc} {we : WordexpT}

/-- `err_buf` when it is searched. -/
def searched (err stack : List UInt8) : List UInt8 :=
  if err.take 1023 = [] then stack
  else err.take 1023 ++ 0 :: stack.drop ((err.take 1023).length + 1)

theorem Behaves.readErrors_eq (h : Behaves A calls c out err status) :
    readErrors c = some (searched err c.stack) := by
  unfold readErrors searched
  rw [h.stderr]
  dsimp only
  rw [apply_ite some]

theorem Behaves.alike (h : Behaves A calls c out err status)
    (h' : Behaves A calls c' out err status) : Alike c.stdout c'.stdout :=
  ⟨h.plain, h'.plain, h.stdout.trans h'.stdout.symm⟩

theorem Behaves.spawned (h : Behaves A calls c out err status) :
    firstError [c.attrInit, c.attrSetflags, c.attrSetsigdefault, c.attrSetsigmask,
      c.actionsInit, c.actionsStdout, c.actionsStderr] = 0 ∧ c.spawn = 0 := by
  have hstart := h.started
  unfold startFails spawnFails at hstart
  simp only [Bool.or_eq_false_iff, decide_eq_false_iff_not, not_not] at hstart
  exact ⟨hstart.2.1.1, hstart.2.2⟩

/-- The children are started alike. -/
theorem Behaves.spawnShell_eq (h : Behaves A calls c out err status)
    (h' : Behaves A calls c' out err status) (words : List UInt8) (m : Mem Obj) :
    spawnShell A c words m = spawnShell A c' words m := by
  unfold spawnShell
  rw [h.spawned.1, h'.spawned.1, h.spawned.2, h'.spawned.2]

theorem Behaves.spawn_ok {m m' : Mem Obj} {spawnerr : Errno}
    (h : Behaves A m.calls c out err status)
    (hspawn : spawnShell A c words m = some (m', spawnerr)) :
    spawnerr = 0 ∧ m'.calls = m.calls + 1 := by
  obtain ⟨_, hfails, hcalls⟩ := spawnShell_spec A hspawn
  have hzero : spawnerr = 0 := by
    by_contra hne
    have hstart := h.started
    rw [startFails, hfails.mp hne, Bool.or_true] at hstart
    cases hstart
  exact ⟨hzero, hcalls hzero⟩

/-- From `cleanup` on. -/
def answer (flags : Nat) (status : Option Nat) :
    Mem Obj × WordexpT × Except Nat Vars → Option (Mem Obj × WordexpT × Nat)
  | (m, we, .error error) => some (m, we, error)
  | (m, we, .ok v) =>
    if status ≠ some 0 then some (m, we, shellError flags)
    else (errorText v.errBuf).bind fun
      | some error => some (m, we, error)
      | none => (breakWords flags m we v).map fun (m, error) => (m, we, error)

theorem Behaves.weAskshell_eq (h : Behaves A s.mem.calls c out err status) :
    (weAskshell A c flags words s we).map (fun (s, we, error) => (s.mem, we, error)) =
      (spawnShell A c words s.mem).bind fun (m, _) =>
        (weCollect A c flags m we).bind (answer flags status) := by
  have hstart := h.started
  unfold startFails at hstart
  simp only [Bool.or_eq_false_iff, Option.isNone_eq_false_iff] at hstart
  obtain ⟨pdes, hpdes⟩ := Option.isSome_iff_exists.mp hstart.1.1
  obtain ⟨perr, hperr⟩ := Option.isSome_iff_exists.mp hstart.1.2
  unfold weAskshell
  rw [hpdes, hperr]
  dsimp only
  cases hspawn : spawnShell A c words s.mem with
  | none => rfl
  | some r =>
    obtain ⟨m, spawnerr⟩ := r
    obtain rfl := (h.spawn_ok hspawn).1
    simp only [Option.bind_eq_bind, Option.bind_some, ne_eq, not_true_eq_false, if_false]
    cases hcollect : weCollect A c flags m we with
    | none => rfl
    | some r =>
      obtain ⟨m, we, r⟩ := r
      cases r with
      | error e => rfl
      | ok v =>
        simp only [Option.bind_some, answer, h.status]
        by_cases hs : status = some 0
        · rw [if_neg (not_not.mpr hs), if_neg (not_not.mpr hs)]
          cases errorText v.errBuf with
          | none => rfl
          | some text =>
            cases text with
            | some e => rfl
            | none => cases breakWords flags m we v <;> rfl
        · rw [if_pos hs, if_pos hs]
          rfl

/-! ## Whole outputs -/

/-- `out` holds the two counts and as many bytes of words as they announce. -/
def Whole (out : List UInt8) : Prop :=
  16 ≤ out.length ∧
  0 ≤ strtol16 ((out.drop 8).take 8) + strtol16 (out.take 8) ∧
  strtol16 ((out.drop 8).take 8) + strtol16 (out.take 8) ≤ INT_MAX ∧
  strtol16 ((out.drop 8).take 8) + strtol16 (out.take 8) ≤ (out.drop 16).length

instance (out : List UInt8) : Decidable (Whole out) := inferInstanceAs (Decidable (_ ∧ _ ∧ _ ∧ _))

/-- Eight bytes off a pipe, or what is left when there are fewer. -/
theorem Plain.eight {rs : List Reply} (hp : Plain rs) :
    (weReadFully 8 [] rs).1 = (delivered rs).take 8 ∧ Plain (weReadFully 8 [] rs).2 ∧
      (8 ≤ (delivered rs).length → delivered (weReadFully 8 [] rs).2 = (delivered rs).drop 8) := by
  have height : 8 ≤ INT_MAX := by decide
  obtain ⟨hread, hrest⟩ := hp.read height
  refine ⟨hread, hrest, fun hlen => ?_⟩
  have hall := weReadFully_delivered 8 [] rs
  rw [hread] at hall
  have hsplit : (delivered rs).take 8 ++ (delivered rs).drop 8 = [] ++ delivered rs :=
    List.take_append_drop 8 _
  exact List.append_cancel_left (hall.trans hsplit.symm)

theorem readCounts_plain {rs : List Reply} (hp : Plain rs) (hlen : 16 ≤ (delivered rs).length) :
    ∃ rest, readCounts rs = some (strtol16 ((delivered rs).take 8),
        strtol16 (((delivered rs).drop 8).take 8) + strtol16 ((delivered rs).take 8), rest) ∧
      Plain rest ∧ delivered rest = (delivered rs).drop 16 := by
  obtain ⟨hw, hp₁, hd₁⟩ := hp.eight
  obtain ⟨hb, hp₂, hd₂⟩ := hp₁.eight
  have hd₁ := hd₁ (by omega)
  rw [hd₁] at hb hd₂
  have hd₂ := hd₂ (by rw [List.length_drop]; omega)
  refine ⟨_, ?_, hp₂, hd₂.trans (List.drop_drop)⟩
  unfold readCounts
  dsimp only
  rw [hw, hb, if_neg (by simp; omega), if_neg (by simp; omega)]

/-- All the words come when there are as many bytes as announced, and `read` takes as many. -/
theorem weReadFully_whole {rs : List Reply} (hp : Plain rs) {nbytes : Int}
    (hlt : -(2 ^ 33) < nbytes ∧ nbytes < 2 ^ 33) :
    (weReadFully (nbytes % 2 ^ 64).toNat [] rs).1.length = (nbytes % 2 ^ 64).toNat ↔
      0 ≤ nbytes ∧ nbytes ≤ INT_MAX ∧ nbytes ≤ (delivered rs).length := by
  have hmax : INT_MAX = 2147483647 := rfl
  by_cases hlen : (nbytes % 2 ^ 64).toNat ≤ INT_MAX
  · rw [(hp.read hlen).1, List.length_take]
    omega
  · constructor
    · intro h
      exact absurd (weReadFully_le_max h) hlen
    · intro ⟨h0, hle, _⟩
      omega

/-- The call gets to the search exactly when the output is whole. -/
theorem Behaves.collected (h : Behaves A calls c out err status) {m m' : Mem Obj}
    {we' : WordexpT} {r : Except Nat Vars} (hcalls : m.calls = calls + 1)
    (hs : weCollect A c flags m we = some (m', we', r)) : (∃ v, r = .ok v) ↔ Whole out := by
  unfold weCollect at hs
  split at hs
  · next hcounts =>
    obtain ⟨_, _, rfl⟩ := by simpa using hs
    refine iff_of_false (fun ⟨v, hv⟩ => by cases hv) fun hwhole => ?_
    rw [← h.stdout] at hwhole
    obtain ⟨rest, hsome, _⟩ := readCounts_plain h.plain hwhole.1
    rw [hcounts] at hsome
    cases hsome
  · next nwords nbytes rest hcounts =>
    obtain ⟨hlong, _, hlt⟩ := readCounts_bounds hcounts
    obtain ⟨rest', hsome, hplain, hrest⟩ := readCounts_plain h.plain hlong
    rw [hcounts] at hsome
    simp only [Option.some.injEq, Prod.mk.injEq] at hsome
    obtain ⟨_, hnbytes, rfl⟩ := hsome
    -- every allocation succeeds, so only the bytes of the words can be missing
    obtain ⟨⟨m₁, nwv⟩, hgrow, hs⟩ := Option.bind_eq_some_iff.mp hs
    have hfail₁ : A.fails m.calls = false := by
      rw [hcalls]
      exact h.memory.1
    obtain ⟨hzero, hcalls₁⟩ := growVector_calls hgrow
    have hne : nwv ≠ 0 := mt hzero.mp (by simp [hfail₁])
    dsimp only at hs
    rw [if_neg hne] at hs
    obtain ⟨wi, _, hs⟩ := Option.bind_eq_some_iff.mp hs
    obtain ⟨m₂, hst, hs⟩ := Option.bind_eq_some_iff.mp hs
    obtain ⟨⟨m₃, grown⟩, hstrings, hs⟩ := Option.bind_eq_some_iff.mp hs
    have hfail₂ : A.fails m₂.calls = false := by
      rw [calls_of_store hst, hcalls₁, hcalls]
      exact h.memory.2
    obtain rfl := (growStrings_grown hstrings).mpr hfail₂
    dsimp only at hs
    rw [if_neg (by decide)] at hs
    obtain ⟨⟨m₄, whole⟩, hread, hs⟩ := Option.bind_eq_some_iff.mp hs
    have hwhole : whole = true ↔ Whole out := by
      rw [readWords_whole hread, weReadFully_whole hplain hlt, hrest, hnbytes, h.stdout]
      rw [h.stdout] at hlong
      exact (and_iff_right hlong).symm
    dsimp only at hs
    cases whole with
    | false =>
      rw [if_pos (by decide)] at hs
      obtain ⟨_, _, rfl⟩ := by simpa using hs
      exact iff_of_false (fun ⟨v, hv⟩ => by cases hv) fun hw => absurd (hwhole.mpr hw) (by decide)
    | true =>
      rw [if_neg (by decide), h.readErrors_eq] at hs
      simp only [Option.some.injEq, Prod.mk.injEq] at hs
      obtain ⟨_, _, rfl⟩ := hs
      exact iff_of_true ⟨_, rfl⟩ (hwhole.mp rfl)

/-! ## The search -/

theorem errorText_congr {errBuf errBuf' : List UInt8} (h : 0 ∈ errBuf) (h' : 0 ∈ errBuf')
    (hcstr : cstr errBuf = cstr errBuf') : errorText errBuf = errorText errBuf' := by
  unfold errorText
  rw [if_neg (not_not.mpr h), if_neg (not_not.mpr h'), hcstr]

/-- What is searched of a buffer that has been written to is what has been written. -/
theorem errorText_searched (stack stack' : List UInt8) (herr : err ≠ []) :
    errorText (searched err stack) = errorText (searched err stack') := by
  have hne : err.take 1023 ≠ [] := by simpa using herr
  unfold searched
  rw [if_neg hne, if_neg hne]
  refine errorText_congr (by simp) (by simp) ?_
  rw [cstr_append_nul, cstr_append_nul]

/-- Two runs from the same state, as one that collects the same. -/
theorem Behaves.run_eq (h : Behaves A s.mem.calls c out err status)
    (h' : Behaves A s.mem.calls c' out err status) (flags : Nat) (words : List UInt8)
    (we : WordexpT) :
    (weAskshell A c' flags words s we).map (fun (s, we, error) => (s.mem, we, error)) =
      (spawnShell A c words s.mem).bind fun (m, _) =>
        (weCollect A c flags m we).bind fun (m, we, r) =>
          answer flags status (m, we, r.map fun v =>
            { v with errBuf := searched err c'.stack }) := by
  rw [h'.weAskshell_eq, h'.spawnShell_eq h]
  congr 1
  funext ⟨m, spawnerr⟩
  dsimp only
  rw [weCollect_errBuf A (h.alike h') h.readErrors_eq h'.readErrors_eq, Option.bind_map]
  rfl

/-- The search is all that `err_buf` is used for. -/
theorem answer_congr {m : Mem Obj} {r : Except Nat Vars} {errBuf errBuf' : List UInt8}
    (h : errorText errBuf = errorText errBuf' ∨ status ≠ some 0 ∨ ¬ ∃ v, r = .ok v) :
    answer flags status (m, we, r.map fun v => { v with errBuf := errBuf }) =
      answer flags status (m, we, r.map fun v => { v with errBuf := errBuf' }) := by
  cases r with
  | error e => rfl
  | ok v =>
    by_cases hs : status = some 0
    · have htext : errorText errBuf = errorText errBuf' :=
        h.resolve_right fun hor => hor.elim (absurd hs) fun hno => hno ⟨v, rfl⟩
      simp only [Except.map, answer, htext]
      rfl
    · simp only [Except.map, answer, ne_eq, hs, not_false_eq_true, if_true]

/-- A run collects, and answers what it has collected. -/
theorem Behaves.collects (h : Behaves A s.mem.calls c out err status) {s' : Proc}
    {we' : WordexpT} {error : Nat}
    (hrun : weAskshell A c flags words s we = some (s', we', error)) :
    ∃ m spawnerr m₁ we₁ r, spawnShell A c words s.mem = some (m, spawnerr) ∧
      weCollect A c flags m we = some (m₁, we₁, r) ∧ ((∃ v, r = .ok v) ↔ Whole out) ∧
      answer flags status (m₁, we₁, r.map fun v =>
        { v with errBuf := searched err c.stack }) = some (s'.mem, we', error) := by
  have hobs := h.run_eq h flags words we
  rw [hrun, Option.map_some] at hobs
  obtain ⟨⟨m, spawnerr⟩, hspawn, hobs⟩ := Option.bind_eq_some_iff.mp hobs.symm
  obtain ⟨⟨m₁, we₁, r⟩, hcollect, hanswer⟩ := Option.bind_eq_some_iff.mp hobs
  have hcalls := (h.spawn_ok hspawn).2
  exact ⟨m, spawnerr, m₁, we₁, r, hspawn, hcollect, h.collected hcalls hcollect, hanswer⟩

/-- The result, the structure and the memory after `we_askshell` are those of every run from the
    same state with the same bytes and the same status. -/
def ChildDecides (A : Allocator Obj) (flags : Nat) (words : List UInt8) (s : Proc)
    (we : WordexpT) (out err : List UInt8) (status : Option Nat) : Prop :=
  ∀ (c c' : Child) (s₁ s₂ : Proc) (we₁ we₂ : WordexpT) (error error' : Nat),
    Behaves A s.mem.calls c out err status → Behaves A s.mem.calls c' out err status →
    weAskshell A c flags words s we = some (s₁, we₁, error) →
    weAskshell A c' flags words s we = some (s₂, we₂, error') →
    error = error' ∧ we₁ = we₂ ∧ s₁.mem = s₂.mem

/-- Nothing of the stack is searched, or the search is not reached. -/
theorem childDecides_of (hno : ¬ (err = [] ∧ status = some 0 ∧ Whole out)) :
    ChildDecides A flags words s we out err status := by
  intro c c' s₁ s₂ we₁ we₂ error error' h h' hrun hrun'
  obtain ⟨m, spawnerr, m₁, we₃, r, hspawn, hcollect, hok, hanswer⟩ := h.collects hrun
  have hobs := h.run_eq h' flags words we
  rw [hrun', Option.map_some, hspawn, Option.bind_some] at hobs
  dsimp only at hobs
  rw [hcollect, Option.bind_some] at hobs
  have hsame : errorText (searched err c'.stack) = errorText (searched err c.stack) ∨
      status ≠ some 0 ∨ ¬ ∃ v, r = .ok v := by
    by_cases herr : err = []
    · rw [hok]
      exact .inr (not_and_or.mp fun hand => hno ⟨herr, hand⟩)
    · exact .inl (errorText_searched _ _ herr)
  rw [answer_congr hsame, hanswer] at hobs
  simp only [Option.some.injEq, Prod.mk.injEq] at hobs
  exact ⟨hobs.2.2.symm, hobs.2.1.symm, hobs.1.symm⟩

theorem Behaves.withStack (h : Behaves A calls c out err status) {stack : List UInt8}
    (hstack : stack.length = 1024) : Behaves A calls { c with stack := stack } out err status :=
  { h with stack := hstack, started := h.started, status := h.status }

/-- The text that the stack holds is the answer to a child that has written no errors. -/
theorem Behaves.stack_answers (h : Behaves A s.mem.calls c out [] (some 0)) (hwhole : Whole out)
    {r : Proc × WordexpT × Nat} (hrun : weAskshell A c flags words s we = some r)
    {stack : List UInt8} (hstack : stack.length = 1024) {error : Nat}
    (htext : errorText stack = some (some error)) :
    ∃ s' we', weAskshell A { c with stack := stack } flags words s we = some (s', we', error) := by
  obtain ⟨s₁, we₁, error₁⟩ := r
  obtain ⟨m, spawnerr, m₁, we₂, r, hspawn, hcollect, hok, _⟩ := h.collects hrun
  obtain ⟨v, rfl⟩ := hok.mpr hwhole
  have hobs := h.run_eq (h.withStack hstack) flags words we
  rw [hspawn, Option.bind_some] at hobs
  dsimp only at hobs
  rw [hcollect, Option.bind_some] at hobs
  have hanswer : answer flags (some 0) (m₁, we₂, .ok { v with errBuf := stack }) =
      some (m₁, we₂, error) := by
    simp [answer, htext]
  obtain ⟨⟨s', we', e⟩, hr, he⟩ := Option.map_eq_some_iff.mp (hobs.trans hanswer)
  simp only [Prod.mk.injEq] at he
  rw [he.2.2] at hr
  exact ⟨s', we', hr⟩

/-- A stack with the text of a syntax error on it. -/
def syntaxStack : List UInt8 :=
  chars "command substitution: syntax error" ++ List.replicate 990 0

/-- A stack with the text of an unbound variable in it. -/
def unboundStack : List UInt8 :=
  chars "command substitution: syntax error: unbound variable" ++ List.replicate 972 0

/-- A child that sends the word `a`, and `err` on its error output. -/
def aChild (err stack : List UInt8) : Child :=
  { goodChild (chars "0000000100000001" ++ [97, 0]) with stderr := .data err, stack := stack }

def emptyProc : Proc where
  mem := { heap := Heap.empty, calls := 0 }
  sigmask := ∅
  closed := []

def emptyWords : WordexpT := { weWordc := 0, weWordv := 0, weOffs := 0 }

theorem aChild_behaves (err : List UInt8) {stack : List UInt8} (hstack : stack.length = 1024) :
    Behaves (Allocator.bump Obj fun _ => false) 0 (aChild err stack)
      (chars "0000000100000001" ++ [97, 0]) err (some 0) where
  started := rfl
  memory := ⟨rfl, rfl⟩
  plain r hr := .inr ⟨_, by decide, List.mem_singleton.mp hr⟩
  stdout := rfl
  stderr := rfl
  stack := hstack
  status := rfl

/-- Nothing is searched when the stack holds an empty string. -/
theorem aChild_runs :
    ∃ r, weAskshell (Allocator.bump Obj fun _ => false) (aChild [] (List.replicate 1024 0)) 0 [97]
      emptyProc emptyWords = some r ∧ r.2.2 = 0 := by
  have hcode : (weAskshell (Allocator.bump Obj fun _ => false)
      (aChild [] (List.replicate 1024 0)) 0 [97] emptyProc emptyWords).map (fun r => r.2.2) =
        some 0 := by decide +kernel
  exact Option.map_eq_some_iff.mp hcode

end Librecompat.Wordexp
