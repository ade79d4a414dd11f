/-
  No run of calls writes where it does not own.

  `Inv` is what holds after every call: of the memory the process started with only bytes of the
  claimed space have changed, and the strings reached through `argv` and the environment lie
  outside of that space and of `buf` (`Holds`). A call keeps it (`callResult_spec`), and `Outcome`
  says what it does to the space. `setproctitle_contained` is the result for runs.
-/
import Librecompat.Setproctitle.Prepare
import Librecompat.Setproctitle.Title

namespace Librecompat.Setproctitle

open Librecompat.Lib
open Librecompat.Lib.Memory (StrAt Keeps Nowhere CopyAt Chain)

variable {O : Outside} {s₀ s s' : State} {args env : List (List UInt8)} {call : Call}

/-! ## The invariant -/

/-- A byte of the claimed space. -/
def State.Region (s : State) (q : Nat) : Prop :=
  s.sptSpaceInit = true ∧ Within s.sptStart s.sptSpaceLen q

/-- A byte of `buf`. -/
def State.InBuf (s : State) (q : Nat) : Prop := s.buf ≠ 0 ∧ Within s.buf sptBufsize q

/-- The string `t` is at `p`, and no call writes there. -/
structure State.Holds (s : State) (p : Nat) (t : List UInt8) : Prop where
  str : s.mem.StrAt p t
  apart : ∀ q, p ≤ q → q < p + (t.length + 1) → ¬ s.Region q ∧ ¬ s.InBuf q

structure Inv (s₀ : State) (args env : List (List UInt8)) (s : State) : Prop where
  count : env.length ≤ INT_MAX
  mem : Keeps s.Region s₀.mem s.mem
  arrays : ∀ a l, s₀.arrays.heap.get a = some l → s₀.argv ≠ some a →
    s.arrays.heap.get a = some l
  argv : s.argv = s₀.argv
  argc : s.argc = s₀.argc
  args : ∃ ps, s.argPtrs = some ps ∧ List.Forall₂ s.Holds ps args
  env : ∃ ps, s.envPtrs = some ps ∧ List.Forall₂ s.Holds ps env
  progname : s.sptProgname = 0 ∨ ∃ t, s.Holds s.sptProgname t
  obuf : s.obuf = 0 ∨ ∃ t, s.Holds s.obuf t
  buf : s.buf ≠ 0 → s.mem.Live s.buf sptBufsize ∧ s₀.mem.Unborn s.buf sptBufsize
  space : s.sptSpaceInit = true →
    s.sptStart ≠ 0 ∧ 1 < s.sptSpaceLen ∧ s.mem.Live s.sptStart s.sptSpaceLen
  idle : s.sptSpaceInit = false → s.sptProgname = 0 ∧ s.obuf = 0 ∧ s.buf = 0

/-- A process before its first call: the static variables are zero. An `int` counts the strings of
    each array. -/
structure Start (s : State) (args env : List (List UInt8)) : Prop where
  reached : Reached s args env
  argc : ∀ argc, s.argc = some argc → argc ≤ INT_MAX
  envc : env.length ≤ INT_MAX
  init : s.sptSpaceInit = false
  progname : s.sptProgname = 0
  obuf : s.obuf = 0
  buf : s.buf = 0

theorem not_region (hinit : s.sptSpaceInit = false) (q : Nat) : ¬ s.Region q :=
  fun hr => Bool.false_ne_true (hinit.symm.trans hr.1)

theorem holds_of_idle (hinit : s.sptSpaceInit = false) (hbuf : s.buf = 0) {p : Nat}
    {t : List UInt8} (h : s.mem.StrAt p t) : s.Holds p t :=
  ⟨h, fun q _ _ => ⟨not_region hinit q, fun hb => hb.1 hbuf⟩⟩

theorem Start.inv (h : Start s args env) : Inv s args env s := by
  obtain ⟨aps, hargs, hargs'⟩ := h.reached.args
  obtain ⟨eps, henv, henv'⟩ := h.reached.env
  have hholds : ∀ p t, s.mem.StrAt p t → s.Holds p t := fun _ _ => holds_of_idle h.init h.buf
  exact
    { mem := Keeps.refl _ _
      arrays := fun _ _ hl _ => hl
      argv := rfl
      argc := rfl
      args := ⟨aps, hargs, hargs'.imp hholds⟩
      env := ⟨eps, henv, henv'.imp hholds⟩
      progname := .inl h.progname
      obuf := .inl h.obuf
      buf := fun hb => absurd h.buf hb
      space := fun hi => absurd (h.init.symm.trans hi) Bool.false_ne_true
      idle := fun _ => ⟨h.progname, h.obuf, h.buf⟩
      count := h.envc }

theorem Inv.reached (h : Inv s₀ args env s) : Reached s args env := by
  obtain ⟨aps, hargs, hargs'⟩ := h.args
  obtain ⟨eps, henv, henv'⟩ := h.env
  exact ⟨⟨aps, hargs, hargs'.imp fun _ _ h => h.str⟩, ⟨eps, henv, henv'.imp fun _ _ h => h.str⟩⟩

theorem Inv.progname_str (h : Inv s₀ args env s) :
    s.sptProgname = 0 ∨ ∃ t, s.mem.StrAt s.sptProgname t :=
  h.progname.imp_right fun ⟨t, ht⟩ => ⟨t, ht.str⟩

theorem Inv.obuf_str (h : Inv s₀ args env s) : s.obuf = 0 ∨ ∃ t, s.mem.StrAt s.obuf t :=
  h.obuf.imp_right fun ⟨t, ht⟩ => ⟨t, ht.str⟩

/-! ## Each part of a call keeps it -/

/-- Writes to the claimed space and to `buf`. -/
theorem Inv.write {m : Memory Unit} {D : Nat → Prop} (h : Inv s₀ args env s)
    (hk : Keeps D s.mem m) (hD : ∀ q, D q → s.Region q ∨ s.InBuf q) :
    Inv s₀ args env { s with mem := m } := by
  have hholds : ∀ p t, s.Holds p t → State.Holds { s with mem := m } p t := fun p t ht =>
    ⟨ht.str.keep hk fun q hp hq hd => (hD q hd).elim (ht.apart q hp hq).1 (ht.apart q hp hq).2,
      ht.apart⟩
  obtain ⟨aps, hargs, hargs'⟩ := h.args
  obtain ⟨eps, henv, henv'⟩ := h.env
  exact
    { mem := h.mem.trans hk fun q hq hd => (hD q hd).elim id fun hb =>
        absurd hq ((h.buf hb.1).2 q hb.2.1 hb.2.2)
      arrays := h.arrays
      argv := h.argv
      argc := h.argc
      args := ⟨aps, hargs, hargs'.imp hholds⟩
      env := ⟨eps, henv, henv'.imp hholds⟩
      progname := h.progname.imp_right fun ⟨t, ht⟩ => ⟨t, hholds _ t ht⟩
      obuf := h.obuf.imp_right fun ⟨t, ht⟩ => ⟨t, hholds _ t ht⟩
      buf := fun hb => ⟨hk.live (h.buf hb).1, (h.buf hb).2⟩
      space := fun hinit => ⟨(h.space hinit).1, (h.space hinit).2.1, hk.live (h.space hinit).2.2⟩
      idle := h.idle
      count := h.count }

/-- A new `buf`, in memory that was not there before. -/
theorem Inv.newBuf {m : Memory Unit} {q : Nat} (h : Inv s₀ args env s)
    (hinit : s.sptSpaceInit = true) (hg : s.mem.Gives m q sptBufsize) :
    Inv s₀ args env { s with mem := m, buf := q } := by
  have hholds : ∀ p t, s.Holds p t → State.Holds { s with mem := m, buf := q } p t :=
    fun p t ht => ⟨ht.str.keep_nowhere hg.keeps, fun x hp hx => ⟨(ht.apart x hp hx).1,
      fun hb => hg.unborn x hb.2.1 hb.2.2 (ht.str.live x hp hx)⟩⟩
  obtain ⟨aps, hargs, hargs'⟩ := h.args
  obtain ⟨eps, henv, henv'⟩ := h.env
  exact
    { mem := h.mem.trans hg.keeps fun _ _ hd => hd.elim
      arrays := h.arrays
      argv := h.argv
      argc := h.argc
      args := ⟨aps, hargs, hargs'.imp hholds⟩
      env := ⟨eps, henv, henv'.imp hholds⟩
      progname := h.progname.imp_right fun ⟨t, ht⟩ => ⟨t, hholds _ t ht⟩
      obuf := h.obuf.imp_right fun ⟨t, ht⟩ => ⟨t, hholds _ t ht⟩
      buf := fun _ => ⟨hg.live, h.mem.unborn hg.unborn⟩
      space := fun hi => ⟨(h.space hi).1, (h.space hi).2.1, hg.keeps.live (h.space hi).2.2⟩
      idle := fun hi => absurd (hi.symm.trans hinit) Bool.false_ne_true
      count := h.count }

theorem Inv.failed (h : Inv s₀ args env s) (hinit : s.sptSpaceInit = false)
    (hf : Failed s s') (hr : Reached s' args env) : Inv s₀ args env s' := by
  obtain ⟨hprog, hobuf, hbuf⟩ := h.idle hinit
  have hinit' : s'.sptSpaceInit = false := (congrArg State.sptSpaceInit hf.others).trans hinit
  have hprog' : s'.sptProgname = 0 := (congrArg State.sptProgname hf.others).trans hprog
  have hobuf' : s'.obuf = 0 := (congrArg State.obuf hf.others).trans hobuf
  have hbuf' : s'.buf = 0 := (congrArg State.buf hf.others).trans hbuf
  obtain ⟨aps, hargs, hargs'⟩ := hr.args
  obtain ⟨eps, henv, henv'⟩ := hr.env
  exact
    { mem := (h.mem.trans hf.mem fun _ _ hd => hd.elim).mono fun q _ hq =>
        absurd hq (not_region hinit q)
      arrays := fun a l hl hne => hf.arrays a l (h.arrays a l hl hne)
      argv := (congrArg State.argv hf.others).trans h.argv
      argc := (congrArg State.argc hf.others).trans h.argc
      args := ⟨aps, hargs, hargs'.imp fun _ _ => holds_of_idle hinit' hbuf'⟩
      env := ⟨eps, henv, henv'.imp fun _ _ => holds_of_idle hinit' hbuf'⟩
      progname := .inl hprog'
      obuf := .inl hobuf'
      buf := fun hb => absurd hbuf' hb
      space := fun hi => absurd (hinit'.symm.trans hi) Bool.false_ne_true
      idle := fun _ => ⟨hprog', hobuf', hbuf'⟩
      count := h.count }

/-- The claimed chain lies in memory that was there. -/
theorem Claims.live {p n : Nat} (h : Claims s p n) : s.mem.Live p n := by
  obtain ⟨_, _, _, _, _, _, _, _, hchain⟩ := h
  have hl := hchain.live
  rwa [Nat.add_sub_cancel_left] at hl

theorem Inv.ready (h : Inv s₀ args env s) (hinit : s.sptSpaceInit = false)
    (hr : Ready s s' args env) : Inv s₀ args env s' := by
  obtain ⟨_, _, hbuf⟩ := h.idle hinit
  have hbuf' : s'.buf = 0 := hr.buf.trans hbuf
  have hholds : ∀ p t, CopyAt s.mem s'.mem p t → s'.Holds p t := fun p t ht =>
    ⟨ht.str, fun q hp hq => ⟨fun hreg => ht.unborn q hp hq
      (hr.claims.live q hreg.2.1 hreg.2.2), fun hb => hb.1 hbuf'⟩⟩
  obtain ⟨aps, hargs, hargs'⟩ := hr.args
  obtain ⟨eps, henv, henv'⟩ := hr.env
  exact
    { mem := (h.mem.trans hr.mem fun _ _ hd => hd.elim).mono fun q _ hq =>
        absurd hq (not_region hinit q)
      arrays := fun a l hl hne => hr.arrays a l (h.arrays a l hl hne) (h.argv ▸ hne)
      argv := hr.argv.trans h.argv
      argc := hr.argc.trans h.argc
      args := ⟨aps, hargs, hargs'.imp hholds⟩
      env := ⟨eps, henv, henv'.imp hholds⟩
      progname := hr.progname.imp_right fun ⟨t, ht⟩ => ⟨t, hholds _ t ht⟩
      obuf := hr.obuf.imp_right fun ⟨t, ht⟩ => ⟨t, hholds _ t ht⟩
      buf := fun hb => absurd hbuf' hb
      space := fun _ => ⟨hr.start, hr.len, hr.mem.live hr.claims.live⟩
      idle := fun hi => absurd (hi.symm.trans hr.init) Bool.false_ne_true
      count := h.count }

end Librecompat.Setproctitle
