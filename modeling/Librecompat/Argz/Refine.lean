/-
  What an argz vector stands for: a list of NUL-free strings.

  `WellFormed` is the representation invariant of the C code, `value` the list of the
  NUL-terminated entries. `Holds s l` packs both: the block starts with the stored form
  `terminate 0 l` (`holds_iff`). Each mutator has one lemma that takes `Holds s l` to `Holds` of
  the list operation's result (`argzCreate_holds`, `argzAppend_holds`, `argzInsert_holds`,
  `argzDelete_holds`); each observer has one that reads its result off `Holds s l`
  (`argzCount_holds`, `argzExtract_holds`, `argzNext_holds`).
-/
import Librecompat.Argz.Model
import Librecompat.Lib.Entries

namespace Librecompat.Argz

open Librecompat.Lib

/-! ## The representation invariant -/

/-- `argz` is null and `len` is `0`, or byte `len - 1` of the block is the NUL. -/
def WellFormed (s : Vec) : Prop :=
  (s.argz = 0 ∧ s.argzLen = 0) ∨
  (s.argz ≠ 0 ∧ 0 < s.argzLen ∧ ∃ blk, s.mem.heap.get s.argz = some blk ∧
    blk[s.argzLen - 1]? = some 0)

/-- The list of NUL-terminated entries. -/
def value (s : Vec) : List (List UInt8) := entries 0 ((bytesFrom s s.argz).take s.argzLen)

/-- The vector stores exactly the words `l`; the block may be longer than `len`. -/
structure Holds (s : Vec) (l : List (List UInt8)) : Prop where
  nulFree : ∀ e ∈ l, 0 ∉ e
  len : s.argzLen = (terminate 0 l).length
  null : l = [] → s.argz = 0
  block : l ≠ [] → s.argz ≠ 0 ∧
    ∃ slack, s.mem.heap.get s.argz = some (terminate 0 l ++ slack)

/-- Storing the words of `l` in a live block gives a vector that holds `l`. -/
theorem store_holds {m : Mem (List UInt8)} {p : Nat} {b : List UInt8} {l : List (List UInt8)}
    (slack : List UInt8) (hb : m.heap.get p = some b) (hp : p ≠ 0) (hne : l ≠ [])
    (hl : ∀ e ∈ l, 0 ∉ e) :
    ∃ m', store m p (terminate 0 l ++ slack) = some m' ∧
      Holds { mem := m', argz := p, argzLen := (terminate 0 l).length } l :=
  ⟨_, store_live hb, hl, rfl, fun h => absurd h hne,
    fun _ => ⟨hp, slack, Heap.get_set_self _ _ _⟩⟩

theorem bytesFrom_of_lookup {s : Vec} {blk : List UInt8}
    (h : s.mem.heap.get s.argz = some blk) (off : Nat) :
    bytesFrom s (s.argz + off) = blk.drop off := by
  simp [bytesFrom, h]

/-- What a vector holds does not change when other blocks come and go. -/
theorem Holds.mono {s : Vec} {l : List (List UInt8)} (h : Holds s l) {m : Mem (List UInt8)}
    (he : Extends s.mem.heap m.heap) : Holds { s with mem := m } l := by
  refine ⟨h.nulFree, h.len, h.null, fun hl => ?_⟩
  obtain ⟨hp, slack, hb⟩ := h.block hl
  exact ⟨hp, slack, he _ _ hb⟩

/-- The first `*argz_len` bytes are the stored words. -/
theorem Holds.bytes_eq {s : Vec} {l : List (List UInt8)} (h : Holds s l) :
    (bytesFrom s s.argz).take s.argzLen = terminate 0 l := by
  rw [h.len]
  by_cases hl : l = []
  · rw [hl]
    rfl
  · obtain ⟨_, slack, hb⟩ := h.block hl
    have hbytes := bytesFrom_of_lookup hb 0
    rw [Nat.add_zero, List.drop_zero] at hbytes
    rw [hbytes, List.take_left]

theorem Holds.value_eq {s : Vec} {l : List (List UInt8)} (h : Holds s l) : value s = l := by
  rw [value, h.bytes_eq, entries_terminate 0 h.nulFree]

theorem Holds.wellFormed {s : Vec} {l : List (List UInt8)} (h : Holds s l) : WellFormed s := by
  by_cases hl : l = []
  · exact .inl ⟨h.null hl, by rw [h.len, hl]; rfl⟩
  · obtain ⟨hp, slack, hb⟩ := h.block hl
    have hne : terminate 0 l ≠ [] := fun h0 => hl ((terminate_eq_nil 0).mp h0)
    have hlast := getLast?_terminate (0 : UInt8) hl
    refine .inr ⟨hp, ?_, _, hb, ?_⟩
    · rw [h.len]
      exact List.length_pos_iff.mpr hne
    · rw [h.len, List.getElem?_append_left (Nat.sub_lt (List.length_pos_iff.mpr hne) Nat.one_pos),
        ← List.getLast?_eq_getElem?]
      exact hlast

/-- `Holds` is the representation invariant together with the abstract value. -/
theorem holds_iff {s : Vec} {l : List (List UInt8)} :
    Holds s l ↔ WellFormed s ∧ value s = l := by
  refine ⟨fun h => ⟨h.wellFormed, h.value_eq⟩, ?_⟩
  rintro ⟨⟨h0, hlen⟩ | ⟨hp, hpos, blk, hb, hlast⟩, rfl⟩
  · have hv : value s = [] := by simp [value, hlen, entries]
    rw [hv]
    exact ⟨by simp, by simpa using hlen, fun _ => h0, fun h => absurd rfl h⟩
  · have hlt : s.argzLen - 1 < blk.length := (List.getElem?_eq_some_iff.mp hlast).1
    have htake : (blk.take s.argzLen).length = s.argzLen := by simp; omega
    have hlast' : (blk.take s.argzLen).getLast? = some 0 := by
      rw [List.getLast?_eq_getElem?, htake, List.getElem?_take_of_lt (by omega)]
      exact hlast
    obtain ⟨l, hne, hl, heq⟩ := exists_terminate 0 hlast'
    have hbytes := bytesFrom_of_lookup hb 0
    rw [Nat.add_zero, List.drop_zero] at hbytes
    have hv : value s = l := by
      rw [value, hbytes, heq, entries_terminate 0 hl]
    rw [hv]
    refine ⟨hl, by rw [← heq, htake], fun h => absurd h hne, fun _ => ⟨hp, ?_⟩⟩
    exact ⟨blk.drop s.argzLen, by rw [← heq, List.take_append_drop]; exact hb⟩

/-! ## The arguments -/

/-- The strings of an argument vector. -/
def strings : List CString → List (List UInt8)
  | [] => []
  | a :: argv => a.1 :: strings argv

@[simp] theorem strings_nil : strings [] = [] := rfl

@[simp] theorem strings_cons (a : CString) (argv : List CString) :
    strings (a :: argv) = a.1 :: strings argv := rfl

theorem strings_nulFree (argv : List CString) : ∀ e ∈ strings argv, 0 ∉ e := by
  induction argv with
  | nil => simp
  | cons a argv ih => simpa using ⟨a.2, ih⟩

theorem argvLen_eq (argv : List CString) :
    argvLen argv = (terminate 0 (strings argv)).length := by
  induction argv with
  | nil => rfl
  | cons a argv ih =>
    simp only [argvLen, strings_cons, terminate_cons, List.length_append, List.length_cons, ih]
    omega

/-- The copy loop of `argz_create` fills the rest `x` of the block with the stored strings. -/
theorem copyArgs_eq (argv : List CString) (pre x : List UInt8)
    (hx : x.length = (terminate 0 (strings argv)).length) :
    copyArgs (pre ++ x) pre.length argv = some (pre ++ terminate 0 (strings argv)) := by
  induction argv generalizing pre x with
  | nil =>
    obtain rfl : x = [] := List.eq_nil_of_length_eq_zero (by simpa using hx)
    simp [copyArgs]
  | cons a argv ih =>
    simp only [strings_cons, terminate_cons, List.length_append, List.length_cons] at hx
    -- the bytes of `x` that the first string replaces
    have hk : (x.take (a.1 ++ [0]).length).length = (a.1 ++ [0]).length := by
      rw [List.length_take]
      simp
      omega
    have hw := writeAt_append (a := pre) (c := x.drop (a.1 ++ [0]).length) hk
    rw [List.append_assoc, List.take_append_drop] at hw
    have := ih (pre ++ (a.1 ++ [0])) (x.drop (a.1 ++ [0]).length) (by simp; omega)
    simp only [copyArgs, hw, Option.bind_some]
    simpa [Nat.add_assoc] using this

/-- The search backwards from an entry's first byte stops at once. -/
theorem entryOffset_start (pre : List (List UInt8)) (rest : List UInt8) :
    entryOffset (terminate 0 pre ++ rest) (terminate 0 pre).length =
      some (terminate 0 pre).length := by
  by_cases hpre : pre = []
  · subst hpre
    rfl
  · have hne : terminate 0 pre ≠ [] := fun h0 => hpre ((terminate_eq_nil 0).mp h0)
    have hlast := getLast?_terminate (0 : UInt8) hpre
    obtain ⟨k, hk⟩ := Nat.exists_eq_succ_of_ne_zero (List.length_pos_iff.mpr hne).ne'
    rw [List.getLast?_eq_getElem?, hk, Nat.succ_eq_add_one, Nat.add_sub_cancel] at hlast
    rw [hk, entryOffset, if_pos (Nat.succ_pos k), rewind, List.getElem?_append_left (by omega),
      hlast]
    rfl

/-! ## The mutators -/

section Mutators

variable {A : Allocator (List UInt8)} (hA : ∀ n, A.fails n = false)
include hA

/-- Growing the block keeps the stored words in front. -/
theorem reallocBytes_holds {s : Vec} {l : List (List UInt8)} (h : Holds s l) (k : Nat) :
    ∃ m p x, reallocBytes A s.mem s.argz (s.argzLen + k) = some (m, p) ∧ p ≠ 0 ∧
      x.length = k ∧ m.heap.get p = some (terminate 0 l ++ x) := by
  unfold reallocBytes
  by_cases hl : l = []
  · have hlen : s.argzLen = 0 := by rw [h.len, hl]; rfl
    obtain ⟨m, p, hm, hp, hb⟩ := malloc_ok (hA s.mem.calls)
      (resize (A.junk s.mem.calls) (0 + k) [])
    rw [h.null hl, realloc_null, hlen, hm, hl]
    exact ⟨m, p, _, rfl, hp, by simp, hb⟩
  · obtain ⟨hp, slack, hb⟩ := h.block hl
    obtain ⟨m, q, hm, hq, hb'⟩ := realloc_ok (hA s.mem.calls)
      (resize (A.junk s.mem.calls) (s.argzLen + k) [])
      (resize (A.junk s.mem.calls) (s.argzLen + k)) hp hb
    -- the first `len` bytes of the resized block are the old ones
    have htake : (resize (A.junk s.mem.calls) (s.argzLen + k)
        (terminate 0 l ++ slack)).take s.argzLen = terminate 0 l := by
      rw [take_resize _ (Nat.le_add_right _ _) (by rw [h.len]; simp), h.len, List.take_left]
    rw [← List.take_append_drop s.argzLen (resize _ _ _), htake] at hb'
    exact ⟨m, q, _, hm, hq, by simp, hb'⟩

theorem argzAppend_holds {s : Vec} {l l' : List (List UInt8)} (h : Holds s l) (hne : l' ≠ [])
    (hl' : ∀ e ∈ l', 0 ∉ e) :
    ∃ s', argzAppend A (terminate 0 l') s = some (s', 0) ∧ Holds s' (l ++ l') := by
  obtain ⟨m, p, x, hm, hp, hx, hb⟩ := reallocBytes_holds hA h (terminate 0 l').length
  have hw : writeAt (terminate 0 l ++ x) s.argzLen (terminate 0 l') =
      some (terminate 0 (l ++ l')) := by
    have := writeAt_append (a := terminate 0 l) (c := []) hx
    rw [List.append_nil, List.append_nil, ← h.len] at this
    rw [this, terminate_append]
  have hfree : ∀ e ∈ l ++ l', 0 ∉ e := by
    intro e he
    rcases List.mem_append.mp he with he | he
    · exact h.nulFree e he
    · exact hl' e he
  obtain ⟨m', hm', hh⟩ := store_holds [] hb hp (by simp [hne] : l ++ l' ≠ []) hfree
  rw [List.append_nil, terminate_append] at hm'
  rw [h.len] at hm hw
  rw [terminate_append] at hw
  refine ⟨_, ?_, hh⟩
  simp [argzAppend, hm, hp, hb, hw, hm', h.len]

theorem argzAdd_holds {s : Vec} {l : List (List UInt8)} (h : Holds s l) (str : CString) :
    ∃ s', argzAdd A str s = some (s', 0) ∧ Holds s' (l ++ [str.1]) := by
  have happ := argzAppend_holds hA h (List.cons_ne_nil str.1 []) (by simpa using str.2)
  simpa [argzAdd] using happ

theorem argzCreate_holds (s : Vec) (argv : List CString) :
    ∃ s', argzCreate A argv s = some (s', 0) ∧ Holds s' (strings argv) := by
  by_cases hv : argv = []
  · subst hv
    exact ⟨_, rfl, by simp, rfl, fun _ => rfl, fun h => absurd rfl h⟩
  · have hne : strings argv ≠ [] := by
      cases argv with
      | nil => exact absurd rfl hv
      | cons a argv => simp
    have hpos : argvLen argv ≠ 0 := by
      rw [argvLen_eq]
      simpa [List.length_eq_zero_iff, terminate_eq_nil] using hne
    obtain ⟨m, p, hm, hp, hb⟩ := malloc_ok (hA s.mem.calls)
      (resize (A.junk s.mem.calls) (argvLen argv) [])
    have hc := copyArgs_eq argv [] (resize (A.junk s.mem.calls) (argvLen argv) [])
      (by rw [length_resize, argvLen_eq])
    rw [List.nil_append, List.nil_append, List.length_nil] at hc
    obtain ⟨m', hm', hh⟩ := store_holds [] hb hp hne (strings_nulFree argv)
    rw [List.append_nil] at hm'
    refine ⟨_, ?_, hh⟩
    simp [argzCreate, if_neg hpos, mallocBytes, hm, hp, hb, hc, hm', ← argvLen_eq]

theorem argzInsert_holds {s : Vec} {pre post : List (List UInt8)} {e : List UInt8}
    (h : Holds s (pre ++ e :: post)) (entry : CString) :
    ∃ s', argzInsert A (s.argz + (terminate 0 pre).length) entry s = some (s', 0) ∧
      Holds s' (pre ++ entry.1 :: e :: post) := by
  obtain ⟨hp, slack, hb⟩ := h.block (by simp)
  obtain ⟨m, q, x, hm, hq, hx, hb'⟩ := reallocBytes_holds hA h (entry.1.length + 1)
  have hlen : s.argzLen = (terminate 0 pre).length + (terminate 0 (e :: post)).length := by
    rw [h.len, terminate_append, List.length_append]
  have hpos : 0 < (terminate 0 (e :: post)).length := by
    rw [terminate_cons, List.length_append, List.length_cons]
    omega
  have hoff := entryOffset_start pre (terminate 0 (e :: post) ++ slack)
  have hmove := memmove_up (terminate 0 pre) (terminate 0 (e :: post)) x
  rw [hx] at hmove
  have hroom : ((terminate 0 (e :: post) ++ x).take (entry.1.length + 1)).length =
      (entry.1 ++ [0]).length := by
    simp
    omega
  have hw := writeAt_append (a := terminate 0 pre) (c := terminate 0 (e :: post)) hroom
  have hfree : ∀ w ∈ pre ++ entry.1 :: e :: post, 0 ∉ w := by
    intro w hw
    have := h.nulFree w
    have := entry.2
    grind
  obtain ⟨m', hm', hh⟩ := store_holds [] hb' hq (by simp) hfree
  have hout : terminate 0 (pre ++ entry.1 :: e :: post) ++ [] =
      terminate 0 pre ++ (entry.1 ++ [0]) ++ terminate 0 (e :: post) := by simp
  rw [hout] at hm'
  refine ⟨_, ?_, hh⟩
  have hcond : ¬ (s.argz + (terminate 0 pre).length < s.argz ∨
      s.argz + (terminate 0 pre).length ≥ s.argz + s.argzLen) := by omega
  have hne : s.argz + (terminate 0 pre).length ≠ 0 := by omega
  have hafter : s.argzLen - (terminate 0 pre).length = (terminate 0 (e :: post)).length := by
    omega
  rw [terminate_append] at hb'
  have hfin : s.argzLen + (entry.1.length + 1) =
      (terminate 0 (pre ++ entry.1 :: e :: post)).length := by
    rw [hlen]
    simp
    omega
  rw [terminate_append, List.append_assoc] at hb
  rw [hfin] at hm
  rw [argzInsert, if_neg hne, if_neg hcond, Nat.add_sub_cancel_left]
  simp only [hb, Option.bind_eq_bind, Option.bind_some, hoff, hm, if_neg hq, hb', hafter, hmove,
    hw, hm', hfin]

end Mutators

theorem argzDelete_holds {s : Vec} {pre post : List (List UInt8)} {e : List UInt8}
    (h : Holds s (pre ++ e :: post)) :
    ∃ s', argzDelete (s.argz + (terminate 0 pre).length) s = some s' ∧
      Holds s' (pre ++ post) := by
  obtain ⟨hp, slack, hb⟩ := h.block (by simp)
  have he : 0 ∉ e := h.nulFree e (by simp)
  have hlen : s.argzLen = (terminate 0 pre).length + (e.length + 1) +
      (terminate 0 post).length := by
    rw [h.len]
    simp
    omega
  have hblk : terminate 0 (pre ++ e :: post) ++ slack =
      terminate 0 pre ++ (e ++ [0]) ++ terminate 0 post ++ slack := by simp
  rw [hblk] at hb
  have hstr : strlen ((terminate 0 pre ++ (e ++ [0]) ++ terminate 0 post ++ slack).drop
      (terminate 0 pre).length) = some e.length := by
    have := strlen_append_zero he (terminate 0 post ++ slack)
    simpa using this
  have hmove := memmove_down (terminate 0 pre) (e ++ [0]) (terminate 0 post) slack
  rw [List.length_append, List.length_singleton] at hmove
  have hnew : subSize s.argzLen (e.length + 1) = (terminate 0 (pre ++ post)).length := by
    rw [subSize_of_le (by omega), hlen, terminate_append, List.length_append]
    omega
  have hmoved : subSize (terminate 0 (pre ++ post)).length (terminate 0 pre).length =
      (terminate 0 post).length := by
    rw [terminate_append, List.length_append, subSize_of_le (by omega)]
    omega
  have hne : s.argz + (terminate 0 pre).length ≠ 0 := by omega
  rw [argzDelete, if_neg hne, if_neg (by omega), Nat.add_sub_cancel_left]
  simp only [hb, Option.bind_eq_bind, Option.bind_some, hstr, hnew, hmoved, hmove, store_live hb]
  by_cases hl : pre ++ post = []
  · -- the last entry goes: the block is freed
    rw [hl, if_pos (by simp), free_live hp (Heap.get_set_self _ _ _)]
    exact ⟨_, rfl, by simp, rfl, fun _ => rfl, fun h => absurd rfl h⟩
  · have hpos : (terminate 0 (pre ++ post)).length ≠ 0 := by
      rw [Ne, List.length_eq_zero_iff, terminate_eq_nil]
      exact hl
    rw [if_neg hpos]
    refine ⟨_, rfl, ?_, rfl, fun h0 => absurd h0 hl, fun _ => ⟨hp,
      (e ++ [0] ++ terminate 0 post ++ slack).drop (terminate 0 post).length, ?_⟩⟩
    · intro w hw
      apply h.nulFree w
      rcases List.mem_append.mp hw with hw | hw <;> simp [hw]
    · rw [terminate_append]
      exact Heap.get_set_self _ _ _

/-! ## The observers -/

/-- At an entry's first byte `strlen` gives the entry's length. -/
theorem strlen_start {s : Vec} {pre post : List (List UInt8)} {e : List UInt8}
    (h : Holds s (pre ++ e :: post)) :
    strlen (bytesFrom s (s.argz + (terminate 0 pre).length)) = some e.length := by
  obtain ⟨_, slack, hb⟩ := h.block (by simp)
  have he : 0 ∉ e := h.nulFree e (by simp)
  rw [bytesFrom_of_lookup hb]
  have := strlen_append_zero he (terminate 0 post ++ slack)
  simpa using this

/-- Where the loop of an observer stands: the entries `pre` are behind `argz`, and `len` bytes
    are ahead. -/
def Behind (s : Vec) (l pre : List (List UInt8)) (argz len : Nat) : Prop :=
  ∃ post, l = pre ++ post ∧ argz = s.argz + (terminate 0 pre).length ∧
    len = (terminate 0 post).length

theorem Holds.behind {s : Vec} {l : List (List UInt8)} (h : Holds s l) :
    Behind s l [] s.argz s.argzLen :=
  ⟨l, rfl, rfl, h.len⟩

theorem Behind.done {s : Vec} {l pre : List (List UInt8)} {argz : Nat}
    (hb : Behind s l pre argz 0) : pre = l := by
  obtain ⟨post, hl, _, hlen⟩ := hb
  have hpost : post = [] := (terminate_eq_nil 0).mp (List.eq_nil_of_length_eq_zero hlen.symm)
  rw [hl, hpost, List.append_nil]

/-- With bytes ahead there is a next entry, and `strlen` steps over it. -/
theorem Behind.step {s : Vec} {l pre : List (List UInt8)} {argz len : Nat} (h : Holds s l)
    (hb : Behind s l pre argz len) (hpos : len > 0) :
    ∃ e, strlen (bytesFrom s argz) = some e.length ∧
      Behind s l (pre ++ [e]) (argz + (e.length + 1)) (subSize len (e.length + 1)) ∧
      subSize len (e.length + 1) < len := by
  obtain ⟨post, rfl, rfl, rfl⟩ := hb
  cases post with
  | nil => simp at hpos
  | cons e post =>
    have hsub : subSize (terminate 0 (e :: post)).length (e.length + 1) =
        (terminate 0 post).length := by
      rw [terminate_cons, List.length_append, List.length_cons, subSize_of_le (by omega)]
      omega
    refine ⟨e, strlen_start h, ⟨post, by simp, ?_, hsub⟩, ?_⟩
    · simp
      omega
    · rw [hsub]
      simp
      omega

/-- `argz_count` is the number of entries. -/
theorem argzCount_holds {s : Vec} {l : List (List UInt8)} (h : Holds s l) :
    argzCount s = some l.length := by
  have hpass : ∀ c c', (∃ pre, Behind s l pre c.argz c.len ∧ c.count = pre.length) →
      argzCountBody s c = .inl c' →
      (∃ pre, Behind s l pre c'.argz c'.len ∧ c'.count = pre.length) ∧ c'.len < c.len := by
    intro c c' ⟨pre, hb, hcount⟩ hc
    unfold argzCountBody at hc
    split at hc
    · next hpos =>
      obtain ⟨e, hstr, hb', hlt⟩ := hb.step h hpos
      rw [hstr] at hc
      obtain rfl := Sum.inl.inj hc
      exact ⟨⟨pre ++ [e], hb', by simp [hcount]⟩, hlt⟩
    · cases hc
  have hexit : ∀ c r, (∃ pre, Behind s l pre c.argz c.len ∧ c.count = pre.length) →
      argzCountBody s c = .inr r → r = some l.length := by
    intro c r ⟨pre, hb, hcount⟩ hc
    unfold argzCountBody at hc
    split at hc
    · next hpos =>
      obtain ⟨e, hstr, _⟩ := hb.step h hpos
      rw [hstr] at hc
      cases hc
    · next hpos =>
      obtain rfl := Sum.inr.inj hc
      have hz : c.len = 0 := by omega
      rw [hz] at hb
      rw [hcount, hb.done]
  obtain ⟨r, hr, rfl⟩ := loop_total (fun c : CountState => c.len) hpass hexit
    (s := ⟨s.argz, s.argzLen, 0⟩) ⟨[], h.behind, rfl⟩ (Nat.lt_succ_self _)
  rw [argzCount, hr]
  rfl

/-- `argz_extract` writes the entries' addresses and a null pointer. -/
theorem argzExtract_holds {s : Vec} {l : List (List UInt8)} (h : Holds s l) :
    argzExtract s = some (starts s.argz l ++ [0]) := by
  have hpass : ∀ c c', (∃ pre, Behind s l pre c.argz c.len ∧ c.argv = starts s.argz pre) →
      argzExtractBody s c = .inl c' →
      (∃ pre, Behind s l pre c'.argz c'.len ∧ c'.argv = starts s.argz pre) ∧
        c'.len < c.len := by
    intro c c' ⟨pre, hb, hargv⟩ hc
    unfold argzExtractBody at hc
    split at hc
    · next hpos =>
      obtain ⟨e, hstr, hb', hlt⟩ := hb.step h hpos
      rw [hstr] at hc
      obtain rfl := Sum.inl.inj hc
      refine ⟨⟨pre ++ [e], hb', ?_⟩, hlt⟩
      obtain ⟨_, _, hp, _⟩ := hb
      rw [starts_append 0, starts_cons, starts_nil, hargv, ← hp]
    · cases hc
  have hexit : ∀ c r, (∃ pre, Behind s l pre c.argz c.len ∧ c.argv = starts s.argz pre) →
      argzExtractBody s c = .inr r → r = some (starts s.argz l ++ [0]) := by
    intro c r ⟨pre, hb, hargv⟩ hc
    unfold argzExtractBody at hc
    split at hc
    · next hpos =>
      obtain ⟨e, hstr, _⟩ := hb.step h hpos
      rw [hstr] at hc
      cases hc
    · next hpos =>
      obtain rfl := Sum.inr.inj hc
      have hz : c.len = 0 := by omega
      rw [hz] at hb
      rw [hargv, hb.done]
  obtain ⟨r, hr, rfl⟩ := loop_total (fun c : ExtractState => c.len) hpass hexit
    (s := ⟨s.argz, s.argzLen, []⟩) ⟨[], h.behind, rfl⟩ (Nat.lt_succ_self _)
  rw [argzExtract, hr]
  rfl

/-- From an entry's first byte `argz_next` goes to the next entry, from the last one to null. -/
theorem argzNext_start {s : Vec} {pre post : List (List UInt8)} {e : List UInt8}
    (h : Holds s (pre ++ e :: post)) :
    argzNext s (s.argz + (terminate 0 pre).length) =
      (starts (s.argz + (terminate 0 pre).length + e.length + 1) post ++ [0]).head? := by
  obtain ⟨hp, _⟩ := h.block (by simp)
  have hlen : s.argzLen = (terminate 0 pre).length + (e.length + 1) +
      (terminate 0 post).length := by
    rw [h.len]
    simp
    omega
  rw [argzNext, if_pos (by omega), if_pos (by omega), strlen_start h]
  simp only [Option.map_some, Option.bind_eq_bind, Option.bind_some]
  cases post with
  | nil =>
    rw [terminate_nil, List.length_nil] at hlen
    rw [if_pos (by omega)]
    rfl
  | cons e' post =>
    rw [terminate_cons, List.length_append, List.length_cons] at hlen
    rw [if_neg (by omega)]
    rfl

theorem isChain_starts {s : Vec} {pre post : List (List UInt8)} (h : Holds s (pre ++ post)) :
    List.IsChain (fun p q => argzNext s p = some q)
      (starts (s.argz + (terminate 0 pre).length) post ++ [0]) := by
  induction post generalizing pre with
  | nil => simp
  | cons e post ih =>
    have hpre : Holds s ((pre ++ [e]) ++ post) := by simpa using h
    have hrest := ih hpre
    have haddr : s.argz + (terminate 0 (pre ++ [e])).length =
        s.argz + (terminate 0 pre).length + e.length + 1 := by
      simp
      omega
    rw [haddr] at hrest
    rw [starts_cons, List.cons_append, List.isChain_cons]
    refine ⟨fun q hq => ?_, hrest⟩
    rw [argzNext_start h]
    exact hq

/-- `argz_next` walks from null over the entries' addresses to null. -/
theorem argzNext_holds {s : Vec} {l : List (List UInt8)} (h : Holds s l) :
    List.IsChain (fun p q => argzNext s p = some q) (0 :: starts s.argz l ++ [0]) := by
  rw [List.cons_append, List.isChain_cons]
  refine ⟨fun q hq => ?_, @isChain_starts s [] l h⟩
  rw [argzNext, if_neg (by simp), h.len]
  cases l with
  | nil => simpa using hq
  | cons e l =>
    have hpos : (terminate 0 (e :: l)).length > 0 := by
      rw [terminate_cons, List.length_append, List.length_cons]
      omega
    rw [if_pos hpos]
    simpa using hq

end Librecompat.Argz
