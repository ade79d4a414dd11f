/-
  What the preparation does, whether it succeeds or not.

  `Reached s args env` says which strings are reached through `argv[i]` and `environ[i]`. The two
  walks find a chain of adjacent strings of both arrays that starts at `argv[0]` (`walk_chain`).
  `sptPrepareSpaceLocked_spec`: a preparation that fails has allocated memory, and at most put
  copies in place of the environment (`Failed`); one that succeeds claims such a chain and has put
  copies in place of all the strings, in memory that was not there before (`Ready`).
-/
import Librecompat.Setproctitle.Detach

namespace Librecompat.Setproctitle

open Librecompat.Lib
open Librecompat.Lib.Memory (StrAt Keeps Nowhere CopyAt NewStr Chain)

variable {O : Outside} {s s' : State} {ps : List Nat} {ss args env : List (List UInt8)}

/-! ## The strings of a process -/

/-- The pointers `argv[0]`, `argv[1]`, ... -/
def State.argPtrs (s : State) : Option (List Nat) :=
  match s.argv, s.argc with
  | some argv, some argc =>
    if argv = 0 then some [] else do upTo argc.toNat (← s.arrays.heap.get argv)
  | _, _ => some []

/-- The pointers `environ[0]`, `environ[1]`, ... -/
def State.envPtrs (s : State) : Option (List Nat) :=
  match s.environ with
  | some envp => if envp = 0 then some [] else do upToNull (← s.arrays.heap.get envp)
  | none => some []

/-- Through `argv[i]` the strings `args` are reached, and through `environ[i]` the strings `env`. -/
structure Reached (s : State) (args env : List (List UInt8)) : Prop where
  args : ∃ ps, s.argPtrs = some ps ∧ List.Forall₂ s.mem.StrAt ps args
  env : ∃ ps, s.envPtrs = some ps ∧ List.Forall₂ s.mem.StrAt ps env

/-- The `len` bytes from `start` on are adjacent strings of `argv` and the environment, the first
    one being `argv[0]`. -/
def Claims (s : State) (start len : Nat) : Prop :=
  ∃ argPtrs envPtrs picks, s.argPtrs = some argPtrs ∧ s.envPtrs = some envPtrs ∧
    argPtrs.head? = some start ∧ picks.head? = some start ∧
    picks.Sublist (argPtrs ++ envPtrs) ∧ Chain s.mem start picks (start + len)

/-! ## The walks -/

theorem walk_spec {m m' : Memory Unit} {next : Nat → Nat → Bool} (hk : Keeps Nowhere m m')
    (hnext : ∀ last p, last ≠ 0 → next last p = true → last + 1 = p) :
    ∀ {ps : List Nat} {ss : List (List UInt8)} {last : Nat}, last ≠ 0 →
    List.Forall₂ m.StrAt ps ss →
    ∃ last' picks, walk m' next last ps = some last' ∧ last' ≠ 0 ∧ picks.Sublist ps ∧
      Chain m (last + 1) picks (last' + 1)
  | _, _, last, hlast, .nil => ⟨last, [], rfl, hlast, .slnil, .nil _⟩
  | p :: ps, s :: ss, last, hlast, .cons hp hps => by
    unfold walk
    split
    · next hn =>
      obtain rfl := hnext last p hlast hn
      obtain ⟨last', picks, hwalk, hne, hsub, hchain⟩ :=
        @walk_spec m m' next hk hnext ps ss (last + 1 + s.length) (by omega) hps
      rw [(hp.keep_nowhere hk).strlen, Option.bind_eq_bind, Option.bind_some, hwalk]
      exact ⟨last', (last + 1) :: picks, rfl, hne, hsub.cons_cons _, .cons hp hchain⟩
    · obtain ⟨last', picks, hwalk, hne, hsub, hchain⟩ := walk_spec hk hnext hlast hps
      exact ⟨last', picks, hwalk, hne, hsub.cons _, hchain⟩

/-- From `argv[0]` on the walks follow a chain of adjacent strings. -/
theorem walk_chain {m m' : Memory Unit} {p : Nat} {ps es : List Nat}
    (hk : Keeps Nowhere m m') (hp : p ≠ 0) (hargs : List.Forall₂ m.StrAt (p :: ps) args)
    (henv : List.Forall₂ m.StrAt es env) :
    ∃ mid last picks, walkArgv m' 0 (p :: ps) = some mid ∧ walkEnviron m' mid es = some last ∧
      last ≠ 0 ∧ p ≤ last ∧ picks.head? = some p ∧ picks.Sublist (p :: ps ++ es) ∧
      Chain m p picks (last + 1) := by
  cases hargs with
  | @cons _ s _ ss hstr hps =>
    obtain ⟨mid, picks₁, hwalk₁, hmid, hsub₁, hchain₁⟩ :=
      @walk_spec m m' (fun last p => last = 0 ∨ last + 1 = p) hk
        (fun last q hne h => (of_decide_eq_true h).resolve_left hne) ps ss (p + s.length)
        (by omega) hps
    obtain ⟨last, picks₂, hwalk₂, hlast, hsub₂, hchain₂⟩ :=
      @walk_spec m m' (fun last p => last ≠ 0 ∧ last + 1 = p) hk
        (fun last q _ h => (of_decide_eq_true h).2) es env mid hmid henv
    have hchain : Chain m p (p :: (picks₁ ++ picks₂)) (last + 1) :=
      .cons hstr (hchain₁.append hchain₂)
    have hle := hchain₁.le
    have hle' := hchain₂.le
    refine ⟨mid, last, p :: (picks₁ ++ picks₂), ?_, hwalk₂, hlast, by omega, rfl,
      (hsub₁.append hsub₂).cons_cons p, hchain⟩
    rw [walkArgv, walk, if_pos (decide_eq_true (.inl rfl)), (hstr.keep_nowhere hk).strlen,
      Option.bind_eq_bind, Option.bind_some, hwalk₁]

/-! ## The names that are saved -/

/-- `spt_progname`: nothing else has changed. -/
theorem saveProgname_spec (O : Outside) {argv p : Nat} {slots : List Nat} {t : List UInt8}
    (hslots : s.arrays.heap.get argv = some (p :: slots)) (hp : s.mem.StrAt p t)
    (h0 : s.sptProgname = 0) :
    ∃ s', saveProgname O s argv = some s' ∧
      s' = { s with mem := s'.mem, sptProgname := s'.sptProgname } ∧
      Keeps Nowhere s.mem s'.mem ∧
      (s'.sptProgname = 0 ∨ ∃ t, CopyAt s.mem s'.mem s'.sptProgname t) := by
  have hhead : argvHead s argv = some p := by
    rw [argvHead, hslots]
    rfl
  unfold saveProgname
  cases hname : O.getprogname with
  | none =>
    obtain ⟨r, hdup, hr⟩ := Memory.strdup_spec O.place O.fails hp
    dsimp only
    rw [Option.bind_eq_bind, Option.bind_some, if_pos h0, hhead, Option.bind_eq_bind,
      Option.bind_some, hdup]
    exact ⟨_, rfl, rfl, hr.keeps, hr.copyAt.imp_right fun h => ⟨t, h⟩⟩
  | some name =>
    obtain ⟨r, hnew, hr⟩ := Memory.newStr_spec O.place O.fails s.mem name.2
    dsimp only
    rw [hnew, Option.map_some, Option.bind_eq_bind, Option.bind_some]
    dsimp only
    by_cases hq : r.2 = 0
    · obtain ⟨r', hdup, hr'⟩ := Memory.strdup_spec O.place O.fails (hp.keep_nowhere hr.keeps)
      have hhead' : argvHead { s with mem := r.1, sptProgname := r.2 } argv = some p := hhead
      rw [if_pos hq, hhead', Option.bind_eq_bind, Option.bind_some, hdup]
      exact ⟨_, rfl, rfl, hr.keeps.then hr'.keeps,
        hr'.copyAt.imp_right fun h => ⟨t, h.earlier hr.keeps⟩⟩
    · rw [if_neg hq]
      exact ⟨_, rfl, rfl, hr.keeps, hr.copyAt.imp_right fun h => ⟨_, h⟩⟩

/-- `*saved_argv`: nothing else has changed. -/
theorem saveArgv_spec (O : Outside) {argv : Nat} {argc : Int} {slots : List Nat}
    (hargv : argv ≠ 0) (hargc : ¬ argc ≤ 0) (hslots : s.arrays.heap.get argv = some slots)
    (hps : upTo argc.toNat slots = some ps) (h : List.Forall₂ s.mem.StrAt ps ss)
    (hname : s.sptProgname = 0 ∨ ∃ t, s.mem.StrAt s.sptProgname t) :
    ∃ s', saveArgv O s argv argc = some s' ∧ s' = { s with mem := s'.mem, obuf := s'.obuf } ∧
      Keeps Nowhere s.mem s'.mem ∧ (s'.obuf = 0 ∨ ∃ t, CopyAt s.mem s'.mem s'.obuf t) := by
  obtain ⟨r, hjoin, hr⟩ := sptJoinArgv_spec O hargv hargc hslots hps h
  unfold saveArgv
  rw [hjoin, Option.bind_eq_bind, Option.bind_some]
  dsimp only
  by_cases hout : r.2 = 0 ∧ s.sptProgname ≠ 0
  · obtain ⟨t, ht⟩ := hname.resolve_left hout.2
    obtain ⟨r', hdup, hr'⟩ := Memory.strdup_spec O.place O.fails (ht.keep_nowhere hr.keeps)
    rw [if_pos hout, hdup]
    exact ⟨_, rfl, rfl, hr.keeps.then hr'.keeps,
      hr'.copyAt.imp_right fun h => ⟨t, h.earlier hr.keeps⟩⟩
  · rw [if_neg hout]
    exact ⟨_, rfl, rfl, hr.keeps, hr.copyAt.imp_right fun h => ⟨_, h⟩⟩

/-! ## The preparation -/

/-- Memory has been allocated, and the environment may be a copy. -/
structure Failed (s s' : State) : Prop where
  mem : Keeps Nowhere s.mem s'.mem
  arrays : Extends s.arrays.heap s'.arrays.heap
  others : s' = { s with mem := s'.mem, arrays := s'.arrays, environ := s'.environ,
                         sptStart := s'.sptStart, sptSpaceLen := s'.sptSpaceLen }

theorem Failed.refl (s : State) : Failed s s := ⟨Keeps.refl _ _, Extends.refl _, rfl⟩

theorem Failed.quiet {s'' : State} (h : Failed s s') (hq : Quiet s' s'') : Failed s s'' := by
  obtain ⟨m, a, e, p, n, rfl⟩ : ∃ m a e p n, s' = { s with mem := m, arrays := a, environ := e,
                                                           sptStart := p, sptSpaceLen := n } :=
    ⟨_, _, _, _, _, h.others⟩
  exact ⟨h.mem.then hq.mem, h.arrays.trans hq.arrays, by rw [hq.others]⟩

/-- A chain of adjacent strings is claimed, and all strings are copies outside of the memory that
    was there. -/
structure Ready (s s' : State) (args env : List (List UInt8)) : Prop where
  mem : Keeps Nowhere s.mem s'.mem
  arrays : ∀ a l, s.arrays.heap.get a = some l → s.argv ≠ some a → s'.arrays.heap.get a = some l
  argv : s'.argv = s.argv
  argc : s'.argc = s.argc
  buf : s'.buf = s.buf
  init : s'.sptSpaceInit = true
  start : s'.sptStart ≠ 0
  len : 1 < s'.sptSpaceLen
  claims : Claims s s'.sptStart s'.sptSpaceLen
  args : ∃ ps, s'.argPtrs = some ps ∧ List.Forall₂ (CopyAt s.mem s'.mem) ps args
  env : ∃ ps, s'.envPtrs = some ps ∧ List.Forall₂ (CopyAt s.mem s'.mem) ps env
  progname : s'.sptProgname = 0 ∨ ∃ t, CopyAt s.mem s'.mem s'.sptProgname t
  obuf : s'.obuf = 0 ∨ ∃ t, CopyAt s.mem s'.mem s'.obuf t

theorem upTo_cases {n : Nat} {slots : List Nat} (hn : n ≠ 0) (h : upTo n slots = some ps) :
    (∃ tail, slots = 0 :: tail ∧ ps = []) ∨
    ∃ p tail ps', p ≠ 0 ∧ slots = p :: tail ∧ ps = p :: ps' := by
  obtain ⟨n, rfl⟩ := Nat.exists_eq_succ_of_ne_zero hn
  cases slots with
  | nil => cases h
  | cons p tail =>
    unfold upTo at h
    split at h
    · next hp => exact .inl ⟨tail, by rw [hp], (Option.some.inj h).symm⟩
    · next hp =>
      obtain ⟨ps', _, rfl⟩ := Option.map_eq_some_iff.mp h
      exact .inr ⟨p, tail, ps', hp, rfl, rfl⟩

theorem exists_slots {n p : Nat} {slots : List Nat} (h : upTo n slots = some (p :: ps)) :
    ∃ tail, slots = p :: tail := by
  have hn : n ≠ 0 := by
    rintro rfl
    cases h
  obtain ⟨_, _, hnil⟩ | ⟨q, tail, ps', _, rfl, hps⟩ := upTo_cases hn h
  · cases hnil
  · exact ⟨tail, by rw [(List.cons.inj hps).1]⟩

theorem argPtrs_some {argv : Nat} {argc : Int} {slots : List Nat} (hargv : s.argv = some argv)
    (hargc : s.argc = some argc) (hne : argv ≠ 0) (hslots : s.arrays.heap.get argv = some slots) :
    s.argPtrs = upTo argc.toNat slots := by
  simp only [State.argPtrs, hargv, hargc, if_neg hne, hslots, Option.bind_eq_bind, Option.bind_some]

theorem envPtrs_some {envp : Nat} {slots : List Nat} (henvp : s.environ = some envp)
    (hne : envp ≠ 0) (hslots : s.arrays.heap.get envp = some slots) :
    s.envPtrs = upToNull slots := by
  simp only [State.envPtrs, henvp, if_neg hne, hslots, Option.bind_eq_bind, Option.bind_some]

variable {argv : Nat} {argc : Int} {envp p : Nat} {es : List Nat}

/-- `argv` holds the pointers `p` and `ps` up to `argc` or a `NULL`, and the environment `es`. -/
structure Arrays (s : State) (argv : Nat) (argc : Int) (envp p : Nat) (ps es : List Nat) :
    Prop where
  argv_eq : s.argv = some argv
  argc_eq : s.argc = some argc
  environ_eq : s.environ = some envp
  argv_ne : argv ≠ 0
  argc_pos : ¬ argc ≤ 0
  envp_ne : envp ≠ 0
  args : ∃ slots, s.arrays.heap.get argv = some slots ∧ upTo argc.toNat slots = some (p :: ps)
  envs : ∃ slots, s.arrays.heap.get envp = some slots ∧ upToNull slots = some es

theorem Arrays.argPtrs (h : Arrays s argv argc envp p ps es) : s.argPtrs = some (p :: ps) := by
  obtain ⟨slots, hslots, hps⟩ := h.args
  rw [argPtrs_some h.argv_eq h.argc_eq h.argv_ne hslots, hps]

theorem Arrays.envPtrs (h : Arrays s argv argc envp p ps es) : s.envPtrs = some es := by
  obtain ⟨slots, hslots, hes⟩ := h.envs
  rw [envPtrs_some h.environ_eq h.envp_ne hslots, hes]

theorem Arrays.reached (h : Arrays s argv argc envp p ps es)
    (hargs : List.Forall₂ s.mem.StrAt (p :: ps) args) (henv : List.Forall₂ s.mem.StrAt es env) :
    Reached s args env :=
  ⟨⟨_, h.argPtrs, hargs⟩, ⟨_, h.envPtrs, henv⟩⟩

/-- Allocations do not touch the arrays. -/
theorem Arrays.later (h : Arrays s argv argc envp p ps es)
    (hext : Extends s.arrays.heap s'.arrays.heap) (hargv : s'.argv = s.argv)
    (hargc : s'.argc = s.argc) (henv : s'.environ = s.environ) :
    Arrays s' argv argc envp p ps es := by
  obtain ⟨slots, hslots, hps⟩ := h.args
  obtain ⟨eslots, heslots, hes⟩ := h.envs
  exact ⟨hargv.trans h.argv_eq, hargc.trans h.argc_eq, henv.trans h.environ_eq, h.argv_ne,
    h.argc_pos, h.envp_ne, ⟨slots, hext _ _ hslots, hps⟩, ⟨eslots, hext _ _ heslots, hes⟩⟩

/-- Neither do writes to `argv` touch the array of the environment. -/
theorem Arrays.envPtrs_kept (h : Arrays s argv argc envp p ps es)
    (hext : Extends (s.arrays.heap.del argv) s'.arrays.heap) (hne : envp ≠ argv)
    (henv : s'.environ = s.environ) : s'.envPtrs = some es := by
  obtain ⟨slots, hslots, hes⟩ := h.envs
  rw [envPtrs_some (henv.trans h.environ_eq) h.envp_ne
    (hext _ _ ((Heap.get_del_ne _ hne).trans hslots)), hes]

/-- A copy of the environment in place of it. -/
theorem Arrays.replaced {qs : List Nat} {newenv : Nat} (h : Arrays s argv argc envp p ps es)
    (hd : Dup s s' (es.length + 1) newenv qs env) (hlen : qs.length = es.length) :
    Arrays { s' with environ := some newenv } argv argc newenv p ps qs := by
  obtain ⟨slots, hslots, hps⟩ := h.args
  have harray := hd.array
  rw [hlen, Nat.add_sub_cancel_left] at harray
  obtain ⟨m, a, rfl⟩ : ∃ m a, s' = { s with mem := m, arrays := a } := ⟨_, _, hd.quiet.others⟩
  exact ⟨h.argv_eq, h.argc_eq, rfl, h.argv_ne, h.argc_pos, hd.ne_null,
    ⟨slots, hd.quiet.arrays _ _ hslots, hps⟩, ⟨_, harray, upToNull_copies hd.qs_ne_null []⟩⟩

/-- The walks find a chain that can be claimed. -/
theorem Arrays.walk {m : Memory Unit} (h : Arrays s argv argc envp p ps es)
    (hk : Keeps Nowhere s.mem m) (hp : p ≠ 0)
    (hargs : List.Forall₂ s.mem.StrAt (p :: ps) args) (henv : List.Forall₂ s.mem.StrAt es env) :
    ∃ mid last, walkArgv m 0 (p :: ps) = some mid ∧ walkEnviron m mid es = some last ∧
      ¬ (last = 0 ∨ last < p) ∧ Claims s p (last - p + 1) := by
  obtain ⟨mid, last, picks, hwalk, hwalk', hlast, hle, hfirst, hsub, hchain⟩ :=
    walk_chain hk hp hargs henv
  have hspan : p + (last - p + 1) = last + 1 := by omega
  exact ⟨mid, last, hwalk, hwalk', by omega, _, _, picks, h.argPtrs, h.envPtrs, rfl, hfirst, hsub,
    hspan.symm ▸ hchain⟩

/-- `argv` has got copies of its strings, and the names are saved. -/
structure Saved (s s' : State) (argv : Nat) (args : List (List UInt8)) : Prop where
  mem : Keeps Nowhere s.mem s'.mem
  arrays : Extends (s.arrays.heap.del argv) s'.arrays.heap
  others : s' = { s with mem := s'.mem, arrays := s'.arrays, sptProgname := s'.sptProgname,
                         obuf := s'.obuf }
  args : ∃ qs, s'.argPtrs = some qs ∧ List.Forall₂ (CopyAt s.mem s'.mem) qs args
  progname : s'.sptProgname = 0 ∨ ∃ t, CopyAt s.mem s'.mem s'.sptProgname t
  obuf : s'.obuf = 0 ∨ ∃ t, CopyAt s.mem s'.mem s'.obuf t

/-- What is done once the environment has been copied. -/
theorem detachAndSave_spec (O : Outside) (h : Arrays s argv argc envp p ps es)
    (hargs : List.Forall₂ s.mem.StrAt (p :: ps) args) (hname : s.sptProgname = 0) :
    (∃ s', sptDetachArgvLocked O s argv argc = some (s', false) ∧ Quiet s s') ∨
    ∃ s₁ s₂ s₃, sptDetachArgvLocked O s argv argc = some (s₁, true) ∧
      saveProgname O s₁ argv = some s₂ ∧ saveArgv O s₂ argv argc = some s₃ ∧
      Saved s s₃ argv args := by
  obtain ⟨slots, hslots, hps⟩ := h.args
  obtain ⟨s', hdet, hq⟩ | ⟨s₁, hdet, hd⟩ :=
    sptDetachArgvLocked_spec O h.argv_ne h.argc_pos hslots hps hargs
  · exact .inl ⟨s', hdet, hq⟩
  · obtain ⟨slots₁, qs, hslots₁, hqs, hcopies⟩ := hd.args
    obtain ⟨m₁, a₁, rfl⟩ : ∃ m a, s₁ = { s with mem := m, arrays := a } := ⟨_, _, hd.others⟩
    obtain ⟨t, ss, _, _, rfl⟩ := List.forall₂_cons_left_iff.mp hargs
    cases hcopies with
    | @cons q t qs ss hq hrest =>
      have hcopies : List.Forall₂ (CopyAt s.mem m₁) (q :: qs) (t :: ss) := .cons hq hrest
      obtain ⟨tail, rfl⟩ := exists_slots hqs
      obtain ⟨s₂, hsave, hothers₂, hk₂, hname₂⟩ := saveProgname_spec O hslots₁ hq.str hname
      obtain ⟨m₂, n₂, rfl⟩ : ∃ m n, s₂ = { s with mem := m, arrays := a₁, sptProgname := n } :=
        ⟨_, _, hothers₂⟩
      have hstrs₂ : List.Forall₂ m₂.StrAt (q :: qs) (t :: ss) :=
        hcopies.imp fun _ _ h => h.str.keep_nowhere hk₂
      obtain ⟨s₃, hjoin, hothers₃, hk₃, hobuf₃⟩ := saveArgv_spec O h.argv_ne h.argc_pos
        (s := { s with mem := m₂, arrays := a₁, sptProgname := n₂ }) hslots₁ hqs hstrs₂
        (hname₂.imp_right fun ⟨t, h⟩ => ⟨t, h.str⟩)
      obtain ⟨m₃, o₃, rfl⟩ : ∃ m o,
          s₃ = { s with mem := m, arrays := a₁, sptProgname := n₂, obuf := o } := ⟨_, _, hothers₃⟩
      have hptrs : State.argPtrs { s with mem := m₁, arrays := a₁ } = some (q :: qs) :=
        (argPtrs_some (s := { s with mem := m₁, arrays := a₁ }) h.argv_eq h.argc_eq h.argv_ne
          hslots₁).trans hqs
      exact .inr ⟨_, _, _, hdet, hsave, hjoin,
        { mem := (hd.mem.then hk₂).then hk₃
          arrays := hd.arrays
          others := rfl
          args := ⟨q :: qs, hptrs, hcopies.imp fun _ _ h => h.later (hk₂.then hk₃)⟩
          progname := hname₂.imp_right fun ⟨t, h⟩ => ⟨t, (h.earlier hd.mem).later hk₃⟩
          obuf := hobuf₃.imp_right fun ⟨t, h⟩ => ⟨t, h.earlier (hd.mem.then hk₂)⟩ }⟩

/-- The state with a copy of the environment and `n` bytes from `p` on to be claimed. -/
def State.claiming (s : State) (newenv p n : Nat) : State :=
  { s with environ := some newenv, sptStart := p, sptSpaceLen := n }

theorem ready_of_saved {s₁ : State} {newenv n : Nat} {qs : List Nat}
    (h : Arrays s argv argc envp p ps es) (hd : Dup s s₁ (es.length + 1) newenv qs env)
    (h₁ : Arrays (s₁.claiming newenv p n) argv argc newenv p ps qs)
    (hs : Saved (s₁.claiming newenv p n) s' argv args) (hp : p ≠ 0) (hn : 1 < n)
    (hclaims : Claims s p n) : Ready s { s' with sptSpaceInit := true } args env := by
  have hk : Keeps Nowhere s.mem s₁.mem := hd.quiet.mem
  have hkept : ∀ a l, s.arrays.heap.get a = some l → s.argv ≠ some a →
      s'.arrays.heap.get a = some l := by
    intro a l hl hne
    have hna : a ≠ argv := fun heq => hne (heq ▸ h.argv_eq)
    refine hs.arrays a l ?_
    rw [Heap.get_del_ne _ hna]
    exact hd.quiet.arrays a l hl
  have hnew : newenv ≠ argv := by
    rintro rfl
    obtain ⟨slots, hslots, _⟩ := h.args
    rw [hd.fresh] at hslots
    cases hslots
  have henviron : s'.environ = (s₁.claiming newenv p n).environ := by rw [hs.others]
  obtain ⟨ptrs, hptrs, hcopies⟩ := hs.args
  obtain ⟨m₁, a₁, rfl⟩ : ∃ m a, s₁ = { s with mem := m, arrays := a } := ⟨_, _, hd.quiet.others⟩
  exact
    { mem := hk.then hs.mem
      arrays := hkept
      argv := by rw [hs.others]; rfl
      argc := by rw [hs.others]; rfl
      buf := by rw [hs.others]; rfl
      init := rfl
      start := by rw [hs.others]; exact hp
      len := by rw [hs.others]; exact hn
      claims := by rw [hs.others]; exact hclaims
      args := ⟨ptrs, hptrs, hcopies.imp fun _ _ h => h.earlier hk⟩
      env := ⟨qs, h₁.envPtrs_kept hs.arrays hnew henviron,
        hd.copied.imp fun _ _ h => h.later hs.mem⟩
      progname := hs.progname.imp_right fun ⟨t, h⟩ => ⟨t, h.earlier hk⟩
      obuf := hs.obuf.imp_right fun ⟨t, h⟩ => ⟨t, h.earlier hk⟩ }

theorem claimSpace_spec (O : Outside) (h : Arrays s argv argc envp p ps es) (hp : p ≠ 0)
    (hargs : List.Forall₂ s.mem.StrAt (p :: ps) args) (henv : List.Forall₂ s.mem.StrAt es env)
    (hname : s.sptProgname = 0) (hcount : env.length ≤ INT_MAX) :
    (∃ s', claimSpace O s argv argc envp = some (s', false) ∧ Failed s s' ∧ Reached s' args env) ∨
    ∃ s', claimSpace O s argv argc envp = some (s', true) ∧ Ready s s' args env := by
  obtain ⟨slots, hslots, hps⟩ := h.args
  obtain ⟨eslots, heslots, hes⟩ := h.envs
  have hhead : argvHead s argv = some p := by
    obtain ⟨tail, rfl⟩ := exists_slots hps
    rw [argvHead, hslots]
    rfl
  have henvs : countEnviron eslots = some es := by
    rw [countEnviron, hes, Option.bind_eq_bind, Option.bind_some,
      if_pos (henv.length_eq.trans_le hcount)]
  unfold claimSpace
  rw [hhead, Option.bind_eq_bind, Option.bind_some, heslots, Option.bind_eq_bind, Option.bind_some,
    henvs, Option.bind_eq_bind, Option.bind_some]
  obtain ⟨s₁, hcopy, hq⟩ | ⟨s₁, newenv, qs, hcopy, hd⟩ := copyStrings_spec O (es.length + 1) henv
  · obtain ⟨m₁, a₁, rfl⟩ : ∃ m a, s₁ = { s with mem := m, arrays := a } := ⟨_, _, hq.others⟩
    rw [hcopy]
    exact .inl ⟨_, rfl, ⟨hq.mem, hq.arrays, rfl⟩, (h.later hq.arrays rfl rfl rfl).reached
      (Memory.forall₂_keep hq.mem hargs) (Memory.forall₂_keep hq.mem henv)⟩
  · have hk := hd.quiet.mem
    have hext := hd.quiet.arrays
    have hargs₁ := Memory.forall₂_keep hk hargs
    have hcopies : List.Forall₂ s₁.mem.StrAt qs env := hd.copied.imp fun _ _ h => h.str
    obtain ⟨mid, last, hwalk, hwalk', hbound, hclaims⟩ := h.walk hk hp hargs henv
    have h₁ : Arrays (s₁.claiming newenv p (last - p + 1)) argv argc newenv p ps qs :=
      (h.replaced hd (hd.copied.length_eq.trans henv.length_eq.symm)).later (Extends.refl _)
        rfl rfl rfl
    rw [hcopy, Option.bind_eq_bind, Option.bind_some]
    dsimp only
    rw [if_neg hd.ne_null, hext _ _ hslots, Option.bind_some, hps, Option.bind_some, hwalk,
      Option.bind_some, hwalk', Option.bind_some, if_neg hbound]
    have hfailed : Failed s (s₁.claiming newenv p (last - p + 1)) :=
      ⟨hk, hext, by rw [State.claiming, hd.quiet.others]⟩
    by_cases hlen : last - p + 1 ≤ 1
    · rw [if_pos hlen]
      exact .inl ⟨_, rfl, hfailed, h₁.reached hargs₁ hcopies⟩
    · rw [if_neg hlen]
      have hname₁ : (s₁.claiming newenv p (last - p + 1)).sptProgname = 0 :=
        (congrArg State.sptProgname hfailed.others).trans hname
      obtain ⟨s₂, hdet, hq⟩ | ⟨s₂, s₃, s₄, hdet, hsave, hjoin, hs⟩ :=
        detachAndSave_spec O h₁ hargs₁ hname₁
      · have hreached := (h₁.later hq.arrays (by rw [hq.others]) (by rw [hq.others])
          (by rw [hq.others])).reached (Memory.forall₂_keep hq.mem hargs₁)
          (Memory.forall₂_keep hq.mem hcopies)
        rw [State.claiming] at hdet
        rw [hdet, Option.bind_some]
        exact .inl ⟨s₂, rfl, hfailed.quiet hq, hreached⟩
      · have hready := ready_of_saved h hd h₁ hs hp (Nat.lt_of_not_le hlen) hclaims
        rw [State.claiming] at hdet
        rw [hdet, Option.bind_some]
        dsimp only
        rw [if_pos rfl, hsave, Option.bind_eq_bind, Option.bind_some, hjoin, Option.bind_some]
        exact .inr ⟨_, rfl, hready⟩

/-- The preparation never goes wrong, and fails or claims a chain. -/
theorem sptPrepareSpaceLocked_spec (O : Outside) (h : Reached s args env)
    (hinit : s.sptSpaceInit = false) (hname : s.sptProgname = 0)
    (hcount : env.length ≤ INT_MAX) :
    (∃ s', sptPrepareSpaceLocked O s = some (s', false) ∧ Failed s s' ∧ Reached s' args env) ∨
    ∃ s', sptPrepareSpaceLocked O s = some (s', true) ∧ Ready s s' args env := by
  have hstay : Failed s s ∧ Reached s args env := ⟨Failed.refl s, h⟩
  unfold sptPrepareSpaceLocked
  rw [hinit, if_neg Bool.false_ne_true]
  cases hargv : s.argv with
  | none => exact .inl ⟨s, rfl, hstay⟩
  | some argv =>
    cases hargc : s.argc with
    | none => exact .inl ⟨s, rfl, hstay⟩
    | some argc =>
      cases henvp : s.environ with
      | none => exact .inl ⟨s, rfl, hstay⟩
      | some envp =>
        dsimp only
        by_cases hnull : argv = 0 ∨ envp = 0 ∨ argc ≤ 0
        · rw [if_pos hnull]
          exact .inl ⟨s, rfl, hstay⟩
        · rw [not_or, not_or] at hnull
          obtain ⟨⟨ps, hptrs, hargs⟩, ⟨es, heptrs, henv⟩⟩ := h
          have hptrs' := hptrs
          have heptrs' := heptrs
          simp only [State.argPtrs, hargv, hargc, if_neg hnull.1] at hptrs'
          simp only [State.envPtrs, henvp, if_neg hnull.2.1] at heptrs'
          obtain ⟨slots, hslots, hps⟩ := Option.bind_eq_some_iff.mp hptrs'
          obtain ⟨eslots, heslots, hes⟩ := Option.bind_eq_some_iff.mp heptrs'
          have hn : argc.toNat ≠ 0 := by omega
          rw [if_neg (by rw [not_or, not_or]; exact hnull), argvHead, hslots]
          obtain ⟨tail, rfl, _⟩ | ⟨p, tail, ps', hp, rfl, rfl⟩ := upTo_cases hn hps
          · exact .inl ⟨s, rfl, hstay⟩
          · have harrays : Arrays s argv argc envp p ps' es :=
              ⟨hargv, hargc, henvp, hnull.1, hnull.2.2, hnull.2.1, ⟨_, hslots, hps⟩,
                ⟨_, heslots, hes⟩⟩
            have hhead : (some (p :: tail) >>= fun slots => slots.head?) = some p := rfl
            rw [hhead, Option.bind_eq_bind, Option.bind_some, if_neg hp]
            exact claimSpace_spec O harrays hp hargs henv hname hcount

end Librecompat.Setproctitle
