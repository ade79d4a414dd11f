/-
  The finished objects of an obstack over whole runs.

  A run is a sequence of operations on an obstack together with the objects that are alive: those
  that were finished and not freed, each with what it held then. `step_spec` says that every
  operation keeps the invariant of `Grow.lean`; `objects_kept` reads the promise to the user off it,
  for every run. An obstack begun with a chunk in which its first object does not fit is left out:
  `obstackBegin_overruns` shows one.
-/
import Librecompat.Lib.Run
import Librecompat.Obstack.Grow

namespace Librecompat.Obstack

open Librecompat.Lib

variable {abi : Abi} {A : Allocator abi} {mask k : Nat} {s : State} {objs : List Obj} {c : Chunk}
  {cs : List Chunk} {e : Bool}

/-! ## Finishing and freeing -/

/-- The object that `obstack_finish` finishes. -/
def State.object (s : State) : Obj := { addr := s.h.objectBase, contents := s.growing }

theorem finish_spec (hmask : mask + 1 = 2 ^ k) (h : Inv mask s objs c cs e) :
    Inv mask (finish s).1 (s.object :: objs) c cs (e || s.growing.isEmpty) ∧
      (finish s).2 = s.object.addr := by
  have hbase := h.base
  have hnext := h.next
  have hlimit := h.limit
  have hlen : s.growing.length = s.h.nextFree - s.h.objectBase := Memory.length_bytes
  have hle : s.h.nextFree ≤ ptrAlign s.h.nextFree s.h.alignmentMask := by
    rw [h.alignmentMask]
    exact le_ptrAlign hmask
  have hend : s.h.nextFree ≤ (finish s).1.h.nextFree ∧
      (finish s).1.h.nextFree ≤ s.h.chunkLimit := by
    unfold finish
    dsimp only
    split <;> omega
  have hempty : (finish s).1.h.maybeEmptyObject =
      if s.h.nextFree = s.h.objectBase then true else s.h.maybeEmptyObject := rfl
  refine ⟨⟨h.alignmentMask, h.blocks, h.chain, h.roomy, h.apart, ?_, fun he => ?_, Nat.le_refl _,
    hend.2, hlimit, ?_, ?_⟩, rfl⟩
  · refine .object h.packed ?_ (by rw [← hlimit]; exact hend.2) (by rw [← hlimit]; exact h.aligned)
    show s.h.objectBase + s.growing.length ≤ (finish s).1.h.nextFree
    omega
  · rw [hempty]
    split
    · rfl
    · next hne =>
      rw [Bool.or_eq_true] at he
      refine h.flag (he.resolve_right fun hnil => hne ?_)
      have := List.length_eq_zero_iff.mpr (List.isEmpty_iff.mp hnil)
      omega
  · have hup : mask + 1 ∣ ptrAlign s.h.nextFree s.h.alignmentMask := by
      rw [h.alignmentMask]
      exact dvd_ptrAlign hmask
    show mask + 1 ∣ (if _ then _ else _) ∨ (if _ then _ else _) = s.h.chunkLimit
    split
    · exact .inr rfl
    · exact .inl hup
  · refine List.forall_mem_cons.mpr ⟨?_, h.kept⟩
    show s.mem.bytes s.h.objectBase s.growing.length = s.growing
    rw [hlen]
    rfl

/-- The loop frees the chunks above the one that `obj` is in. -/
theorem free_loop {obj : Nat} (hpos : 0 < c.addr) (hlow : c.addr < obj)
    (hhigh : obj ≤ c.head.limit) : ∀ (popped : List Chunk) {m : Mem} {p n : Nat} {b : Bool},
    m.blocks = popped ++ c :: cs → Chain p (popped ++ c :: cs) →
    (∀ c' ∈ popped, obj ≤ c'.addr ∨ c'.head.limit < obj) → popped.length < n →
    loop (freeBody obj) n (m, p, b) =
      some (some ({ m with blocks := c :: cs }, c.addr, b || !popped.isEmpty))
  | [], m, p, n + 1, b, hm, hchain, _, _ => by
    obtain ⟨rfl, -⟩ := hchain
    have hhead : m.head c.addr = some c.head := by simp [Memory.head, hm]
    have hbody : freeBody obj (m, c.addr, b) = .inr (some (m, c.addr, b)) := by
      unfold freeBody
      dsimp only
      rw [if_neg (by omega), hhead]
      exact if_neg (by omega)
    rw [loop_succ_inr hbody]
    have hblocks : m = { m with blocks := c :: cs } := by
      rw [List.nil_append] at hm
      rw [← hm]
    rw [← hblocks, List.isEmpty_nil, Bool.not_true, Bool.or_false]
  | c' :: popped, m, p, n + 1, b, hm, hchain, hout, hn => by
    obtain ⟨rfl, hpos', -, hrest⟩ := hchain
    have hhead : m.head c'.addr = some c'.head := by simp [Memory.head, hm]
    have hfree : m.free c'.addr = some { m with blocks := popped ++ c :: cs } := by
      simp [Memory.free, hm]
    have hbody : freeBody obj (m, c'.addr, b) =
        .inl ({ m with blocks := popped ++ c :: cs }, c'.head.prev, true) := by
      unfold freeBody
      dsimp only
      rw [if_neg (by omega), hhead]
      dsimp only
      rw [if_pos (hout c' List.mem_cons_self), hfree]
    rw [loop_succ_inl hbody, free_loop hpos hlow hhigh popped rfl hrest
      (fun c₂ hc₂ => hout c₂ (List.mem_cons_of_mem c' hc₂)) (Nat.lt_of_succ_lt_succ hn)]
    simp

theorem obstackFree_eq {obj : Nat} (hpos : 0 < c.addr) (hlow : c.addr < obj)
    (hhigh : obj ≤ c.head.limit) {popped : List Chunk} (hblocks : s.mem.blocks = popped ++ c :: cs)
    (hchain : Chain s.h.chunk (popped ++ c :: cs))
    (hout : ∀ c' ∈ popped, obj ≤ c'.addr ∨ c'.head.limit < obj) :
    obstackFree obj s = some
      { h := { s.h with objectBase := obj, nextFree := obj, chunkLimit := c.head.limit,
                        chunk := c.addr,
                        maybeEmptyObject := s.h.maybeEmptyObject || !popped.isEmpty }
        mem := { s.mem with blocks := c :: cs } } := by
  have hfuel : popped.length < s.mem.blocks.length + 1 := by
    rw [hblocks, List.length_append]
    omega
  have hhead : ({ s.mem with blocks := c :: cs } : Mem).head c.addr = some c.head := by
    simp [Memory.head]
  have hloop : (loop (freeBody obj) (s.mem.blocks.length + 1)
      (s.mem, s.h.chunk, s.h.maybeEmptyObject)).join =
      some ({ s.mem with blocks := c :: cs }, c.addr, s.h.maybeEmptyObject || !popped.isEmpty) := by
    rw [free_loop hpos hlow hhigh popped hblocks hchain hout hfuel, Option.join_some]
  unfold obstackFree
  dsimp only
  rw [hloop, Option.bind_eq_bind, Option.bind_some]
  dsimp only
  rw [if_pos (by omega), hhead]
  rfl

/-- The short way of the macro does what the function does. -/
theorem obstackFreeMacro_eq (h : Inv mask s objs c cs e) (obj : Nat) :
    obstackFreeMacro obj s = obstackFree obj s := by
  obtain ⟨hchunk, hpos, hclimit, -⟩ := h.chain
  have hlimit := h.limit
  unfold obstackFreeMacro
  split
  · next hfast =>
    have hfree := @obstackFree_eq s c cs obj hpos (by omega) (by omega) [] h.blocks h.chain
      fun _ hmem => nomatch hmem
    rw [hfree, ← h.blocks, ← hchunk, hclimit, ← hlimit, List.isEmpty_nil, Bool.not_true,
      Bool.or_false]
  · rfl

theorem free_spec (hmask : mask + 1 = 2 ^ k) (h : Inv mask s objs c cs e) {i : Nat} {o : Obj}
    (ho : objs[i]? = some o) :
    ∃ s' c' cs' e', obstackFreeMacro o.addr s = some s' ∧
      Inv mask s' (objs.drop (i + 1)) c' cs' e' := by
  obtain ⟨popped, c', cs', e', hsplit, hp, hflag, hle, haligned⟩ := h.packed.rollback h.roomy ho
  have hchain := h.chain
  have hblocks := h.blocks
  have hroomy := h.roomy
  have hapart := h.apart
  rw [hsplit] at hchain hblocks hroomy hapart
  have hmem : c' ∈ popped ++ c' :: cs' := List.mem_append_right _ List.mem_cons_self
  obtain ⟨hpos, hclimit⟩ := hchain.mem hmem
  have hstart : c'.addr + 16 ≤ contentsAligned c'.addr mask := contents_le hmask
  have hlow := hp.le_top
  -- the chunks above are apart from the one of the object
  have hout : ∀ c₂ ∈ popped, o.addr ≤ c₂.addr ∨ c₂.head.limit < o.addr := by
    intro c₂ hc₂
    have hlimit₂ := (hchain.mem (List.mem_append_left _ hc₂)).2
    rcases (List.pairwise_append.mp hapart).2.2 c₂ hc₂ c' List.mem_cons_self with h1 | h1
    · exact .inr (by omega)
    · exact .inl (by omega)
  rw [obstackFreeMacro_eq h, obstackFree_eq hpos (by omega) (by omega) hblocks hchain hout]
  refine ⟨_, c', cs', e', rfl, ⟨h.alignmentMask, rfl, hchain.suffix,
    fun c₂ hc₂ => hroomy c₂ (List.mem_append_right _ hc₂), (List.pairwise_append.mp hapart).2.1, hp,
    fun he => ?_, Nat.le_refl _, by rw [hclimit]; exact hle, hclimit, ?_, ?_⟩⟩
  · cases popped with
    | nil => exact Bool.or_eq_true_iff.mpr (.inl (h.flag (hflag rfl he)))
    | cons c₂ popped => exact Bool.or_true _
  · rw [hclimit]
    exact haligned
  · exact fun o' ho' => h.kept o' (List.mem_of_mem_drop ho')

/-! ## Runs -/

inductive Op
  | grow (bs : List UInt8)
  | grow0 (bs : List UInt8)
  | onegrow (b : UInt8)
  | blank (length : Nat)
  | alloc (length : Nat)
  | copy (bs : List UInt8)
  | finish
  | free (i : Nat)

/-- An obstack and its live objects, the newest one first. -/
structure Track where
  state : State
  live : List Obj

def Track.finish (t : Track) : Track :=
  { state := (Obstack.finish t.state).1
    live := { addr := (Obstack.finish t.state).2, contents := t.state.growing } :: t.live }

/-- One operation. `free i` passes the address of the live object number `i`, and ends the life of
    this one and of all later ones. -/
def step (A : Allocator abi) (t : Track) : Op → Option Track
  | .grow bs => (grow A bs t.state).map fun s => { t with state := s }
  | .grow0 bs => (grow0 A bs t.state).map fun s => { t with state := s }
  | .onegrow b => (onegrow A b t.state).map fun s => { t with state := s }
  | .blank length => (blank A length t.state).map fun s => { t with state := s }
  | .alloc length => (blank A length t.state).map fun s => { t with state := s }.finish
  | .copy bs => (grow A bs t.state).map fun s => { t with state := s }.finish
  | .finish => some t.finish
  | .free i => do
    let o ← t.live[i]?
    let s ← obstackFreeMacro o.addr t.state
    some { state := s, live := t.live.drop (i + 1) }

/-- Only live objects are freed. -/
def allowed (t : Track) : Op → Prop
  | .free i => i < t.live.length
  | _ => True

instance (t : Track) (op : Op) : Decidable (allowed t op) :=
  match op with
  | .free i => inferInstanceAs (Decidable (i < t.live.length))
  | .grow _ | .grow0 _ | .onegrow _ | .blank _ | .alloc _ | .copy _ | .finish =>
    inferInstanceAs (Decidable True)

/-- The invariant of a run. -/
def TrackInv (mask : Nat) (t : Track) : Prop := ∃ c cs e, Inv mask t.state t.live c cs e

theorem TrackInv.finish {t : Track} (hmask : mask + 1 = 2 ^ k) (h : TrackInv mask t) :
    TrackInv mask t.finish := by
  obtain ⟨c, cs, e, hinv⟩ := h
  exact ⟨c, cs, _, (finish_spec hmask hinv).1⟩

theorem step_spec (A : Allocator abi) (hmask : mask + 1 = 2 ^ k) (t : Track) (op : Op)
    (h : TrackInv mask t) (hop : allowed t op) :
    ∃ t', step A t op = some t' ∧ TrackInv mask t' := by
  obtain ⟨c, cs, e, hinv⟩ := h
  cases op with
  | grow bs =>
    obtain ⟨s', c', cs', e', hcall, hinv', -⟩ := grow_spec (A := A) hmask hinv bs
    exact ⟨_, congrArg (Option.map _) hcall, c', cs', e', hinv'⟩
  | grow0 bs =>
    obtain ⟨s', c', cs', e', hcall, hinv', -⟩ := grow0_spec (A := A) hmask hinv bs
    exact ⟨_, congrArg (Option.map _) hcall, c', cs', e', hinv'⟩
  | onegrow b =>
    obtain ⟨s', c', cs', e', hcall, hinv', -⟩ := onegrow_spec (A := A) hmask hinv b
    exact ⟨_, congrArg (Option.map _) hcall, c', cs', e', hinv'⟩
  | blank length =>
    obtain ⟨s', c', cs', e', bs, hcall, hinv', -⟩ := blank_spec (A := A) hmask hinv length
    exact ⟨_, congrArg (Option.map _) hcall, c', cs', e', hinv'⟩
  | alloc length =>
    obtain ⟨s', c', cs', e', bs, hcall, hinv', -⟩ := blank_spec (A := A) hmask hinv length
    have hfin : TrackInv mask { t with state := s' } := ⟨c', cs', e', hinv'⟩
    exact ⟨_, congrArg (Option.map _) hcall, hfin.finish hmask⟩
  | copy bs =>
    obtain ⟨s', c', cs', e', hcall, hinv', -⟩ := grow_spec (A := A) hmask hinv bs
    have hfin : TrackInv mask { t with state := s' } := ⟨c', cs', e', hinv'⟩
    exact ⟨_, congrArg (Option.map _) hcall, hfin.finish hmask⟩
  | finish => exact ⟨_, rfl, TrackInv.finish hmask ⟨c, cs, e, hinv⟩⟩
  | free i =>
    have ho : t.live[i]? = some t.live[i] := List.getElem?_eq_getElem hop
    obtain ⟨s', c', cs', e', hcall, hinv'⟩ := free_spec hmask hinv ho
    refine ⟨{ state := s', live := t.live.drop (i + 1) }, ?_, c', cs', e', hinv'⟩
    simp [step, ho, hcall]

/-! ## The promise -/

/-- The chunk `c` is linked from the one at `p`. -/
inductive Linked (m : Mem) : Nat → Chunk → Prop
  | here {p : Nat} {c : Chunk} (h : m.blocks.find? (·.addr = p) = some c) : Linked m p c
  | prev {p : Nat} {c c' : Chunk} (h : m.blocks.find? (·.addr = p) = some c)
      (hprev : Linked m c.head.prev c') : Linked m p c'

/-- What the user of an obstack relies on. -/
structure Safe (alignment : Nat) (t : Track) : Prop where
  apart : t.live.Pairwise Obj.Apart
  aligned : ∀ o ∈ t.live, o.contents ≠ [] → alignment ∣ o.addr
  inChunk : ∀ o ∈ t.live, ∃ c, Linked t.state.mem t.state.h.chunk c ∧
    c.addr + contentsOffset ≤ o.addr ∧ o.addr + o.contents.length ≤ c.addr + c.size
  kept : ∀ o ∈ t.live, t.state.mem.bytes o.addr o.contents.length = o.contents
  base_le : t.state.h.objectBase ≤ t.state.h.nextFree
  next_le : t.state.h.nextFree ≤ t.state.h.chunkLimit
  limit : ∃ head, t.state.mem.head t.state.h.chunk = some head ∧
    t.state.h.chunkLimit = head.limit
  fastPath : ∀ obj, obstackFreeMacro obj t.state = obstackFree obj t.state

/-- All chunks of the chain are linked from its first one. -/
theorem Chain.linked {m : Mem} : ∀ {cs : List Chunk} {p : Nat}, Chain p cs →
    (∀ c ∈ cs, m.blocks.find? (·.addr = c.addr) = some c) → ∀ c ∈ cs, Linked m p c
  | c :: cs, p, ⟨hp, _, _, hrest⟩, hfind, c', hc' => by
    have hhere := hfind c List.mem_cons_self
    rw [← hp] at hhere
    rcases List.mem_cons.mp hc' with rfl | hmem
    · exact .here hhere
    · exact .prev hhere (hrest.linked (fun c₂ hc₂ => hfind c₂ (List.mem_cons_of_mem c hc₂)) c' hmem)

theorem find_chunk (hmask : mask + 1 = 2 ^ k) : ∀ {cs : List Chunk}, (∀ c ∈ cs, Roomy mask c) →
    cs.Pairwise Block.Apart → ∀ c ∈ cs, cs.find? (·.addr = c.addr) = some c
  | c' :: cs, hroomy, hapart, c, hc => by
    rcases List.mem_cons.mp hc with rfl | hmem
    · exact List.find?_cons_of_pos (decide_eq_true rfl)
    · obtain ⟨hfirst, hrest⟩ := List.pairwise_cons.mp hapart
      have hne := addr_ne hmask (hroomy c' List.mem_cons_self) (hroomy c hc) (hfirst c hmem)
      rw [List.find?_cons_of_neg (by simpa using hne)]
      exact find_chunk hmask (fun c₂ hc₂ => hroomy c₂ (List.mem_cons_of_mem c' hc₂)) hrest c hmem

theorem TrackInv.safe {t : Track} (hmask : mask + 1 = 2 ^ k) (h : TrackInv mask t) :
    Safe (mask + 1) t := by
  obtain ⟨c, cs, e, hinv⟩ := h
  have hlinked : ∀ c' ∈ c :: cs, Linked t.state.mem t.state.h.chunk c' := by
    apply hinv.chain.linked
    rw [hinv.blocks]
    exact find_chunk hmask hinv.roomy hinv.apart
  refine ⟨hinv.packed.apart hmask hinv.roomy hinv.apart, fun o ho => hinv.packed.aligned ho,
    fun o ho => ?_, hinv.kept, hinv.base, hinv.next, ⟨c.head, ?_, ?_⟩,
    fun obj => obstackFreeMacro_eq hinv obj⟩
  · obtain ⟨c', hc', hlo, hhi⟩ := hinv.packed.mem_in hinv.roomy ho
    exact ⟨c', hlinked c' hc', Nat.le_trans (contents_le hmask) hlo, hhi⟩
  · rw [hinv.chain.1]
    simp [Memory.head, hinv.blocks]
  · rw [hinv.limit, hinv.chain.2.2.1]

/-- The alignment that `_obstack_begin` uses. -/
def Abi.alignment (abi : Abi) (alignment : Nat) : Nat :=
  if alignment = 0 then abi.defaultAlignment else alignment

theorem Abi.alignment_pow (abi : Abi) {alignment : Nat}
    (h : alignment = 0 ∨ ∃ k, alignment = 2 ^ k) : ∃ k, abi.alignment alignment = 2 ^ k := by
  unfold Abi.alignment
  split
  · cases abi with
    | x86_64 => exact ⟨4, rfl⟩
    | arm64 => exact ⟨3, rfl⟩
  · next h0 => exact h.resolve_left h0

/-- Memory without chunks. -/
def noChunks (byte : Nat → UInt8) : Mem := { blocks := [], byte := byte, calls := 0 }

/-- The obstack at the start of a run. -/
def begun (A : Allocator abi) (size alignment : Nat) (byte : Nat → UInt8) : Track :=
  { state := obstackBegin A size alignment (noChunks byte), live := [] }

theorem begun_inv {size alignment : Nat} {byte : Nat → UInt8}
    (hpow : abi.alignment alignment = 2 ^ k)
    (hfits : (obstackBegin A size alignment (noChunks byte)).h.objectBase ≤
      (obstackBegin A size alignment (noChunks byte)).h.chunkLimit) :
    TrackInv (abi.alignment alignment - 1) (begun A size alignment byte) := by
  have hmask : abi.alignment alignment - 1 + 1 = 2 ^ k := by
    rw [hpow, Nat.sub_add_cancel (Nat.two_pow_pos k)]
  refine ⟨_, [], false, rfl, rfl, ⟨rfl, A.pos _ _, rfl, rfl⟩, ?_, List.pairwise_singleton _ _,
    .chunk _ .nil, nofun, Nat.le_refl _, hfits, rfl, .inl (dvd_ptrAlign hmask),
    fun o ho => absurd ho List.not_mem_nil⟩
  exact fun c hc => by
    rw [List.mem_singleton.mp hc]
    exact hfits

theorem Abi.defaultAlignment_dvd : ∀ abi : Abi, abi.defaultAlignment ∣ contentsOffset
  | x86_64 => by decide
  | arm64 => by decide

/-- With room for the head and the alignment the first object fits. -/
theorem begun_fits {size alignment : Nat} {byte : Nat → UInt8}
    (hpow : abi.alignment alignment = 2 ^ k) (hsize : contentsOffset + alignment ≤ size)
    (hne : size ≠ 0) :
    (obstackBegin A size alignment (noChunks byte)).h.objectBase ≤
      (obstackBegin A size alignment (noChunks byte)).h.chunkLimit := by
  have hsize' : (if size = 0 then abi.defaultSize else size) = size := if_neg hne
  show contentsAligned (A.place _ _) (abi.alignment alignment - 1) ≤ A.place _ _ + _
  rw [hsize']
  by_cases h0 : alignment = 0
  · -- the chunk has the default alignment already
    have hdefault : abi.alignment alignment = abi.defaultAlignment := if_pos h0
    have hmask : abi.defaultAlignment - 1 + 1 = 2 ^ k := by
      rw [← hdefault, hpow, Nat.sub_add_cancel (Nat.two_pow_pos k)]
    have hdvd : abi.defaultAlignment - 1 + 1 ∣ A.place (noChunks byte) size + contentsOffset := by
      rw [hmask, ← hpow, hdefault]
      exact Nat.dvd_add (A.aligned _ _) abi.defaultAlignment_dvd
    have hle := ptrAlign_le_of_dvd hmask (Nat.le_refl _) hdvd
    rw [hdefault]
    exact Nat.le_trans hle (by omega)
  · have hgiven : abi.alignment alignment = alignment := if_neg h0
    have hle := ptrAlign_le (A.place (noChunks byte) size + contentsOffset) (alignment - 1)
    rw [hgiven]
    exact Nat.le_trans hle (by omega)

/-- The chunk that a default obstack begins with has room for its first object. -/
def DefaultFits (A : Allocator abi) (alignment : Nat) (byte : Nat → UInt8) : Prop :=
  contentsAligned (A.place (noChunks byte) abi.defaultSize) (abi.alignment alignment - 1) ≤
    A.place (noChunks byte) abi.defaultSize + abi.defaultSize

/-- It does for every alignment up to 2048, wherever the chunk is. -/
theorem defaultFits_of_le {alignment : Nat} {byte : Nat → UInt8} (h : alignment ≤ 2048) :
    DefaultFits A alignment byte := by
  have hle := ptrAlign_le (A.place (noChunks byte) abi.defaultSize + contentsOffset)
    (abi.alignment alignment - 1)
  have hsmall : contentsOffset + abi.alignment alignment ≤ abi.defaultSize := by
    unfold Abi.alignment
    cases abi with
    | x86_64 =>
      have hdefault : Abi.x86_64.defaultSize = 4064 := by decide
      rw [hdefault, contentsOffset, Abi.defaultAlignment]
      split <;> omega
    | arm64 =>
      have hdefault : Abi.arm64.defaultSize = 4072 := by decide
      rw [hdefault, contentsOffset, Abi.defaultAlignment]
      split <;> omega
  exact Nat.le_trans hle (by omega)

/-- In every run of an obstack that fits into its first chunk the live objects are kept. -/
theorem objects_kept (A : Allocator abi) (size alignment : Nat) (byte : Nat → UInt8)
    (halignment : alignment = 0 ∨ ∃ k, alignment = 2 ^ k)
    (hsize : size = 0 ∨ contentsOffset + alignment ≤ size)
    (hfits : size = 0 → DefaultFits A alignment byte)
    (ops : List Op) (hops : Legal (step A) allowed (begun A size alignment byte) ops) :
    ∃ t, run (step A) (begun A size alignment byte) ops = some t ∧
      Safe (abi.alignment alignment) t := by
  obtain ⟨k, hpow⟩ := abi.alignment_pow halignment
  have hmask : abi.alignment alignment - 1 + 1 = abi.alignment alignment := by
    rw [hpow, Nat.sub_add_cancel (Nat.two_pow_pos k)]
  have hbegun : TrackInv (abi.alignment alignment - 1) (begun A size alignment byte) := by
    apply begun_inv hpow
    by_cases h0 : size = 0
    · subst h0
      exact hfits rfl
    · exact begun_fits hpow (hsize.resolve_left h0) h0
  obtain ⟨t, hrun, hinv⟩ := run_inv (fun t op => step_spec A (hmask.trans hpow) t op) hbegun hops
  refine ⟨t, hrun, ?_⟩
  rw [← hmask]
  exact hinv.safe (hmask.trans hpow)

/-- The allocator of the runs below. -/
def pages : Allocator .x86_64 := .bump ChunkHead 4096 (by decide) (by decide)

/-- Two objects, the second one in a chunk of its own, and the way back to the first. -/
theorem objects_kept_back :
    ∃ t, run (step pages) (begun pages 0 0 fun _ => 0)
        [.grow [1, 2], .finish, .alloc 4000, .grow [3], .blank 100, .finish, .free 1] = some t ∧
      Safe 16 t :=
  objects_kept pages 0 0 (fun _ => 0) (.inl rfl) (.inl rfl)
    (fun _ => defaultFits_of_le (by decide))
    [.grow [1, 2], .finish, .alloc 4000, .grow [3], .blank 100, .finish, .free 1]
    (by decide +kernel)

/-- With an alignment of a page the first object of a default obstack is behind its chunk: freeing
    an object that was finished there aborts. -/
theorem obstackBegin_overruns :
    (begun pages 0 4096 fun _ => 0).state.h.nextFree >
        (begun pages 0 4096 fun _ => 0).state.h.chunkLimit ∧
      Legal (step pages) allowed (begun pages 0 4096 fun _ => 0) [.finish, .free 0] ∧
      ¬ ∃ t, run (step pages) (begun pages 0 4096 fun _ => 0) [.finish, .free 0] = some t ∧
        Safe 4096 t := by
  refine ⟨by decide +kernel, by decide +kernel, fun ⟨t, hrun, _⟩ => ?_⟩
  have hnone : run (step pages) (begun pages 0 4096 fun _ => 0) [.finish, .free 0] = none := by
    rfl
  rw [hnone] at hrun
  exact absurd hrun nofun

end Librecompat.Obstack
