/-
  Word vectors as data: what the cells and the bytes of a `we_int_t` say.

  A pointer into the string storage is its offset, so a vector that has moved with its storage
  has the same offsets: `pointers offs base os` are the cells of the offsets `os` behind `offs`
  null pointers, and `rebase_pointers` says that rebasing changes the base only. `WordsAt bytes
  os ws` says that the words `ws` stand at the offsets `os`. `storeWords_words` is the loop that
  breaks the words out, `storeWords_stuck` what it leaves behind when a word has no end, and
  `weReadFully_delivered` that reading hands over the child's output in order.
-/
import Librecompat.Lib.Entries
import Librecompat.Wordexp.Model

namespace Librecompat.Wordexp

open Librecompat.Lib

/-! ## Words in a storage -/

/-- Each word stands at its offset, with its NUL. -/
def WordsAt (bytes : List UInt8) (os : List Nat) (ws : List (List UInt8)) : Prop :=
  List.Forall₂ (fun o w => 0 ∉ w ∧ w ++ [0] <+: bytes.drop o) os ws

/-- Words stay where they are when the storage grows. -/
theorem WordsAt.mono {bytes bytes' : List UInt8} {os : List Nat} {ws : List (List UInt8)}
    (h : WordsAt bytes os ws) (hle : bytes <+: bytes') : WordsAt bytes' os ws := by
  refine h.imp fun o w ⟨hw, hp⟩ => ⟨hw, hp.trans ?_⟩
  obtain ⟨t, rfl⟩ := hle
  rw [List.drop_append]
  exact List.prefix_append _ _

theorem wordsAt_terminate {ws : List (List UInt8)} (hws : ∀ w ∈ ws, 0 ∉ w) (a b : List UInt8) :
    WordsAt (a ++ terminate 0 ws ++ b) (starts a.length ws) ws := by
  induction ws generalizing a with
  | nil => exact .nil
  | cons w ws ih =>
    rw [List.forall_mem_cons] at hws
    rw [terminate_cons]
    refine .cons ⟨hws.1, ?_⟩ ?_
    · rw [List.append_assoc, List.drop_left]
      exact ⟨terminate 0 ws ++ b, by simp⟩
    · have hih := ih hws.2 (a ++ (w ++ [0]))
      have hlen : (a ++ (w ++ [0])).length = a.length + w.length + 1 := by simp; omega
      have hcat : a ++ (w ++ [0]) ++ terminate 0 ws ++ b = a ++ (w ++ 0 :: terminate 0 ws) ++ b := by
        simp
      rw [hlen, hcat] at hih
      exact hih

/-! ## The cells of a vector -/

/-- `offs` null pointers and then the pointers to the offsets `os` from `base`. -/
def pointers (offs base : Nat) (os : List Nat) : List (Option Nat) :=
  List.replicate offs (some 0) ++ os.map fun o => some (base + o)

@[simp] theorem length_pointers (offs base : Nat) (os : List Nat) :
    (pointers offs base os).length = offs + os.length := by
  simp [pointers]

theorem pointers_append (offs base : Nat) (os os' : List Nat) :
    pointers offs base (os ++ os') = pointers offs base os ++ os'.map fun o => some (base + o) := by
  simp [pointers]

theorem pointers_nil (offs base : Nat) :
    pointers offs base [] = List.replicate offs (some 0) := List.append_nil _

theorem rebase_zeros (old new n k : Nat) (cells : List (Option Nat)) :
    rebase old new (n + k) (List.replicate n (some 0) ++ cells) =
      (rebase old new k cells).map fun cells => List.replicate n (some 0) ++ cells := by
  induction n with
  | zero => simp
  | succ n ih =>
    rw [Nat.add_right_comm, List.replicate_succ, List.cons_append, rebase, ih, Option.map_map]
    rfl

/-- Rebasing changes the base of the pointers and nothing else. -/
theorem rebase_pointers {base : Nat} (new offs : Nat) (os : List Nat) (tail : List (Option Nat))
    (hb : os ≠ [] → base ≠ 0) :
    rebase base new (offs + os.length) (pointers offs base os ++ tail) =
      some (pointers offs new os ++ tail) := by
  have hos : rebase base new os.length ((os.map fun o => some (base + o)) ++ tail) =
      some ((os.map fun o => some (new + o)) ++ tail) := by
    induction os with
    | nil => rfl
    | cons o os ih =>
      have hne := hb (List.cons_ne_nil o os)
      rw [List.length_cons, List.map_cons, List.cons_append, rebase, ih fun _ => hne,
        if_neg (by omega)]
      simp only [Option.map_some, List.map_cons, List.cons_append, Option.some.injEq,
        List.cons.injEq, and_true]
      omega
  unfold pointers
  rw [List.append_assoc, rebase_zeros, hos, Option.map_some, List.append_assoc]

theorem length_le_of_rebase {old new n : Nat} {cells cells' : List (Option Nat)}
    (h : rebase old new n cells = some cells') : n ≤ cells.length := by
  induction n generalizing cells cells' with
  | zero => exact Nat.zero_le _
  | succ n ih =>
    cases cells with
    | nil => simp [rebase] at h
    | cons c cells =>
      cases c with
      | none => simp [rebase] at h
      | some p =>
        obtain ⟨cells₁, h₁, _⟩ := Option.map_eq_some_iff.mp h
        rw [List.length_cons]
        exact Nat.succ_le_succ (ih h₁)

/-- What `realloc` does behind the first cells when they all fit. -/
theorem resizeCells_append {n : Nat} (cells tail : List (Option Nat)) (h : cells.length ≤ n) :
    resizeCells n (cells ++ tail) = cells ++ resizeCells (n - cells.length) tail := by
  unfold resizeCells
  rw [List.append_assoc, List.take_append, List.take_of_length_le h, List.take_append,
    List.take_append, List.take_replicate, List.take_replicate]
  congr 3
  omega

theorem length_resizeCells {α : Type} (n : Nat) (cells : List (Option α)) :
    (resizeCells n cells).length = n := by
  simp [resizeCells]

/-! ## Breaking the words out -/

theorem starts_add (b o : Nat) (ws : List (List UInt8)) :
    starts (b + o) ws = (starts o ws).map fun o => b + o := by
  induction ws generalizing o with
  | nil => rfl
  | cons w ws ih =>
    have hadd : b + o + w.length + 1 = b + (o + w.length + 1) := by omega
    rw [starts_cons, starts_cons, List.map_cons, hadd, ih]

/-- The loop on the words `ws`: it goes through them all, and their pointers follow the cells
    before. -/
theorem storeWords_words {ws : List (List UInt8)} (hws : ∀ w ∈ ws, 0 ∉ w) (tail : List UInt8)
    {p : Nat} {a t cells : List (Option Nat)} {stop : Option Nat}
    (h : storeWords ws.length (terminate 0 ws ++ tail) p a.length (a ++ t) = some (stop, cells)) :
    stop = some (a.length + ws.length) ∧ ws.length ≤ t.length ∧
      cells = a ++ (starts p ws).map some ++ t.drop ws.length := by
  induction ws generalizing p a t with
  | nil =>
    obtain ⟨rfl, rfl⟩ := Prod.mk.inj (Option.some.inj h)
    simp
  | cons w ws ih =>
    rw [List.forall_mem_cons] at hws
    rw [List.length_cons, storeWords] at h
    split at h
    · next hlt =>
      cases t with
      | nil => simp at hlt
      | cons c t =>
        have hlen : strlen (terminate 0 (w :: ws) ++ tail) = some w.length := by
          rw [terminate_cons, List.append_assoc, List.cons_append]
          exact strlen_append_zero hws.1 _
        have hdrop : (terminate 0 (w :: ws) ++ tail).drop (w.length + 1) =
            terminate 0 ws ++ tail := by
          rw [terminate_cons, List.append_assoc, List.cons_append, ← List.drop_drop,
            List.drop_left]
          rfl
        have hset : (a ++ c :: t).set a.length (some p) = (a ++ [some p]) ++ t := by simp
        have hlen' : a.length + 1 = (a ++ [some p]).length := by simp
        rw [hlen] at h
        dsimp only at h
        rw [hdrop, hset, hlen'] at h
        obtain ⟨hstop, hle, hcells⟩ := ih hws.2 h
        refine ⟨?_, Nat.succ_le_succ hle, ?_⟩
        · rw [hstop, List.length_append, List.length_singleton, List.length_cons]
          congr 1
          omega
        · rw [hcells, starts_cons]
          simp
    · cases h

/-- The loop on bytes in which some word has no end: the cells before are unchanged, the ones
    written hold no null pointer, and the last one points to bytes without a NUL. -/
theorem storeWords_stuck {n : Nat} {rest : List UInt8} {p vofs : Nat}
    {cells cells' : List (Option Nat)} (hp : p ≠ 0)
    (h : storeWords n rest p vofs cells = some (none, cells')) :
    ∃ k d, (∀ i < vofs, cells'[i]? = cells[i]?) ∧
      (∀ j ≤ k, ∃ q, q ≠ 0 ∧ cells'[vofs + j]? = some (some q)) ∧
      cells'[vofs + k]? = some (some (p + d)) ∧ 0 ∉ rest.drop d := by
  induction n generalizing rest p vofs cells with
  | zero => simp [storeWords] at h
  | succ n ih =>
    rw [storeWords] at h
    split at h
    · next hlt =>
      have hself : (cells.set vofs (some p))[vofs]? = some (some p) := by
        rw [List.getElem?_set_self hlt]
      have hbelow : ∀ i < vofs, (cells.set vofs (some p))[i]? = cells[i]? := fun i hi =>
        List.getElem?_set_ne (by omega)
      cases hlen : strlen rest with
      | none =>
        rw [hlen] at h
        obtain ⟨_, rfl⟩ := Prod.mk.inj (Option.some.inj h)
        refine ⟨0, 0, hbelow, fun j hj => ?_, hself, strlen_eq_none hlen⟩
        obtain rfl := Nat.le_zero.mp hj
        exact ⟨p, hp, hself⟩
      | some k =>
        rw [hlen] at h
        dsimp only at h
        obtain ⟨k', d, hb, hw, hlast, hnul⟩ := ih (by omega) h
        refine ⟨k' + 1, k + 1 + d, fun i hi => ?_, fun j hj => ?_, ?_, ?_⟩
        · rw [hb i (by omega)]
          exact hbelow i hi
        · cases j with
          | zero => exact ⟨p, hp, by rw [Nat.add_zero, hb vofs (by omega), hself]⟩
          | succ j =>
            obtain ⟨q, hq, hget⟩ := hw j (by omega)
            exact ⟨q, hq, by rw [← hget]; congr 1; omega⟩
        · have hidx : vofs + (k' + 1) = vofs + 1 + k' := by omega
          have hadd : p + (k + 1 + d) = p + k + 1 + d := by omega
          rw [hidx, hadd]
          exact hlast
        · rw [List.drop_drop] at hnul
          exact hnul
    · cases h

/-! ## Reading from the child -/

/-- What the child writes, in order. -/
def delivered : List Reply → List UInt8
  | [] => []
  | .data bs :: rs => bs ++ delivered rs
  | _ :: rs => delivered rs

/-- Nothing is lost or changed on the way. -/
theorem weReadFully_delivered (len : Nat) (buffer : List UInt8) (rs : List Reply) :
    (weReadFully len buffer rs).1 ++ delivered (weReadFully len buffer rs).2 =
      buffer ++ delivered rs := by
  fun_induction weReadFully len buffer rs with
  | case1 => rfl
  | case2 => rfl
  | case3 => rfl
  | case4 _ _ _ _ _ ih => exact ih
  | case5 => rfl
  | case6 => rfl
  | case7 _ _ _ _ _ _ _ ih => rw [ih, delivered, List.append_assoc]
  | case8 =>
    rw [delivered, List.append_assoc]
  | case9 buffer rs room _ bs _ _ _ =>
    show buffer ++ bs.take room ++ (bs.drop room ++ delivered rs) = buffer ++ (bs ++ delivered rs)
    rw [List.append_assoc, ← List.append_assoc (bs.take room), List.take_append_drop]

/-- `read` refuses a length above `INT_MAX`. -/
theorem weReadFully_of_gt {len : Nat} (hlen : INT_MAX < len) (rs : List Reply) :
    weReadFully len [] rs = ([], rs) := by
  cases rs with
  | nil => rfl
  | cons r rs =>
    unfold weReadFully
    exact if_pos hlen

/-- A whole read of `len` bytes is no longer than `read` allows. -/
theorem weReadFully_le_max {len : Nat} {rs : List Reply}
    (h : (weReadFully len [] rs).1.length = len) : len ≤ INT_MAX := by
  by_contra hgt
  rw [weReadFully_of_gt (Nat.lt_of_not_le hgt)] at h
  exact hgt (h ▸ Nat.zero_le _)

theorem length_weReadFully_le {len : Nat} {buffer : List UInt8} {rs : List Reply}
    (hb : buffer.length ≤ len) : (weReadFully len buffer rs).1.length ≤ len := by
  fun_induction weReadFully len buffer rs with
  | case1 => exact hb
  | case2 => exact hb
  | case3 => exact hb
  | case4 _ _ _ _ _ ih => exact ih hb
  | case5 => exact hb
  | case6 => exact hb
  | case7 buffer rs room _ bs _ hlt ih =>
    refine ih ?_
    rw [List.length_append]
    omega
  | case8 buffer rs room _ bs _ _ heq =>
    rw [List.length_append]
    omega
  | case9 buffer rs room _ bs _ _ _ =>
    rw [List.length_append, List.length_take]
    omega

theorem hexDigit_lt {c : UInt8} {d : Nat} (h : hexDigit c = some d) : d < 16 := by
  unfold hexDigit at h
  split at h
  · next hc => have := UInt8.le_iff_toNat_le.mp hc.2; simp at this h; omega
  · split at h
    · next hc => have := UInt8.le_iff_toNat_le.mp hc.2; simp at this h; omega
    · split at h
      · next hc => have := UInt8.le_iff_toNat_le.mp hc.2; simp at this h; omega
      · cases h

theorem hexValue_lt (acc : Nat) (s : List UInt8) :
    hexValue acc s < (acc + 1) * 16 ^ s.length := by
  induction s generalizing acc with
  | nil => simp [hexValue]
  | cons c s ih =>
    unfold hexValue
    split
    · next d hd =>
      have hlt := hexDigit_lt hd
      calc hexValue (acc * 16 + d) s
          < (acc * 16 + d + 1) * 16 ^ s.length := ih _
        _ ≤ (acc + 1) * 16 * 16 ^ s.length := Nat.mul_le_mul_right _ (by omega)
        _ = (acc + 1) * 16 ^ (c :: s).length := by
          rw [List.length_cons, Nat.pow_succ, Nat.mul_assoc, Nat.mul_comm 16]
    · have hpow : 0 < 16 ^ (c :: s).length := Nat.pow_pos (by decide)
      exact lt_of_lt_of_le (Nat.lt_succ_self acc) (Nat.le_mul_of_pos_right _ hpow)

theorem hexPrefixed_lt {s : List UInt8} {n : Nat} (hs : s.length ≤ n) :
    hexPrefixed s < 16 ^ n := by
  have hle : ∀ t : List UInt8, t.length ≤ n → hexValue 0 t < 16 ^ n := fun t ht =>
    lt_of_lt_of_le (hexValue_lt 0 t)
      (by rw [Nat.zero_add, Nat.one_mul]; exact Nat.pow_le_pow_right (by decide) ht)
  match s, hs with
  | [], hs => exact hle [] hs
  | [c], hs => exact hle [c] hs
  | c :: d :: cs, hs =>
    simp only [hexPrefixed]
    split
    · exact hle cs (by simp at hs; omega)
    · exact hle _ hs

/-- The counts have eight digits at most. -/
theorem strtol16_lt {s : List UInt8} (hs : s.length = 8) :
    -(2 ^ 32) < strtol16 s ∧ strtol16 s < 2 ^ 32 := by
  have hle := List.length_dropWhile_le isSpace s
  unfold strtol16
  split
  · decide
  · next c cs heq =>
    rw [heq, hs, List.length_cons] at hle
    have hcs := hexPrefixed_lt (s := cs) (n := 8) (by omega)
    have hccs := hexPrefixed_lt (s := c :: cs) (n := 8) (by simpa using hle)
    split
    · omega
    · split <;> omega

/-- The counts are the first sixteen characters. -/
theorem readCounts_delivered {rs rs' : List Reply} {nwords nbytes : Int}
    (h : readCounts rs = some (nwords, nbytes, rs')) :
    ∃ w b, w.length = 8 ∧ b.length = 8 ∧ delivered rs = w ++ b ++ delivered rs' ∧
      nwords = strtol16 w ∧ nbytes = strtol16 b + strtol16 w := by
  have hfirst := weReadFully_delivered 8 [] rs
  have hsecond := weReadFully_delivered 8 [] (weReadFully 8 [] rs).2
  unfold readCounts at h
  dsimp only at h
  split at h
  · cases h
  · next hw =>
    split at h
    · cases h
    · next hb =>
      simp only [Option.some.injEq, Prod.mk.injEq] at h
      obtain ⟨rfl, rfl, rfl⟩ := h
      refine ⟨_, _, not_not.mp hw, not_not.mp hb, ?_, rfl, rfl⟩
      rw [List.append_assoc, hsecond, List.nil_append, hfirst, List.nil_append]

theorem readCounts_bounds {rs rest : List Reply} {nwords nbytes : Int}
    (h : readCounts rs = some (nwords, nbytes, rest)) :
    16 ≤ (delivered rs).length ∧ (-(2 ^ 32) < nwords ∧ nwords < 2 ^ 32) ∧
      -(2 ^ 33) < nbytes ∧ nbytes < 2 ^ 33 := by
  obtain ⟨w, b, hw, hb, hall, rfl, rfl⟩ := readCounts_delivered h
  have hwlt := strtol16_lt hw
  have hblt := strtol16_lt hb
  refine ⟨?_, hwlt, by omega, by omega⟩
  rw [hall, List.length_append, List.length_append, hw, hb]
  omega

theorem length_terminate (ws : List (List UInt8)) :
    (terminate 0 ws).length = (ws.map List.length).sum + ws.length := by
  induction ws with
  | nil => rfl
  | cons w ws ih =>
    rw [terminate_cons, List.length_append, List.length_cons, ih, List.map_cons, List.sum_cons,
      List.length_cons]
    omega

end Librecompat.Wordexp
