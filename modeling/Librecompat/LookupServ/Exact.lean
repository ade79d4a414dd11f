/-
  When `__lookup_serv` finds exactly the named service.

  A file is a list of `pieces`: what `fgets` stores of a line, from its start on or from the
  middle of it. One pass of the loop is made for each of them (`fragments_eq`), but only the
  pieces that start a line can give a service. The first two services are found, each where it
  stands, exactly when no piece before the second is `Misread` (`lookupServ_iff`).
-/
import Librecompat.LookupServ.Readings
import Librecompat.Lib.Firsts

namespace Librecompat.LookupServ

open Librecompat.Lib

/-! ## Pieces -/

/-- What one call of `fgets` stores, and the whole line when it starts one. -/
structure Piece where
  off : Nat
  bytes : List UInt8
  line : Option (List UInt8)

/-- At most `n` pieces of `bytes`, in the middle of a line. -/
def tails : Nat → Nat → List UInt8 → List Piece
  | 0, _, _ => []
  | n + 1, off, bytes =>
    if bytes = [] then []
    else { off := off, bytes := bytes.take 127, line := none } ::
      tails n (off + 127) (bytes.drop 127)

/-- The pieces of `bytes`, in the middle of a line. -/
def tailsOf (off : Nat) (bytes : List UInt8) : List Piece := tails bytes.length off bytes

def piecesOf (off : Nat) (line : List UInt8) : List Piece :=
  { off := off, bytes := line.take 127, line := some line } ::
    tailsOf (off + 127) (line.drop 127)

def pieces : Nat → List (List UInt8) → List Piece
  | _, [] => []
  | off, line :: lines => piecesOf off line ++ pieces (off + line.length) lines

/-- The lines with their offsets. -/
def linesAt : Nat → List (List UInt8) → List (Nat × List UInt8)
  | _, [] => []
  | off, line :: lines => (off, line) :: linesAt (off + line.length) lines

/-- What `l` is of a file with `rest` behind it: a line, or the end of one. -/
def LineEnd (l rest : List UInt8) : Prop :=
  l ≠ [] ∧ ∃ w, 10 ∉ w ∧ (l = w ++ [10] ∨ l = w ∧ rest = [])

theorem fgetlnLines_cons {file : List UInt8} (hne : file ≠ []) :
    ∃ l rest, file = l ++ rest ∧ LineEnd l rest ∧
      Services.fgetlnLines file = l :: Services.fgetlnLines rest := by
  induction file with
  | nil => exact absurd rfl hne
  | cons c file ih =>
    rw [Services.fgetlnLines]
    by_cases hc : c = 10
    · rw [if_pos hc]
      exact ⟨[c], file, rfl, ⟨List.cons_ne_nil c [], [], List.not_mem_nil, .inl (by rw [hc]; rfl)⟩,
        rfl⟩
    · rw [if_neg hc]
      by_cases hfile : file = []
      · rw [hfile]
        exact ⟨[c], [], rfl, ⟨List.cons_ne_nil c [], [c], by simpa using Ne.symm hc, .inr ⟨rfl, rfl⟩⟩,
          rfl⟩
      · obtain ⟨l, rest, rfl, ⟨_, w, hw, hl⟩, hlines⟩ := ih hfile
        rw [hlines]
        refine ⟨c :: l, rest, rfl, ⟨List.cons_ne_nil c l, c :: w, ?_, ?_⟩, rfl⟩
        · exact fun hm => (List.mem_cons.mp hm).elim (fun heq => hc heq.symm) hw
        · exact hl.imp (fun h => by rw [h]; rfl) fun h => ⟨by rw [h.1], h.2⟩

theorem fgets_lineEnd {l rest : List UInt8} (h : LineEnd l rest) :
    Netconfig.fgets 128 (l ++ rest) = (l.take 127, l.drop 127 ++ rest) := by
  obtain ⟨_, w, hw, rfl | ⟨rfl, rfl⟩⟩ := h
  · have hidx : (w ++ [10] ++ rest).idxOf 10 + 1 = (w ++ [10]).length := by
      rw [List.append_assoc, List.idxOf_append_of_notMem hw]
      simp
    unfold Netconfig.fgets
    rw [hidx]
    dsimp only
    generalize w ++ [10] = l
    rcases Nat.le_total l.length 127 with hle | hge
    · rw [Nat.min_eq_right hle, List.take_left, List.drop_left, List.take_of_length_le hle,
        List.drop_of_length_le hle, List.nil_append]
    · rw [Nat.min_eq_left hge, List.take_append_of_le_length hge,
        List.drop_append_of_le_length hge]
  · unfold Netconfig.fgets
    rw [List.append_nil, List.append_nil, List.idxOf_of_notMem hw]
    dsimp only
    rcases Nat.lt_or_ge l.length 127 with hlt | hge
    · rw [Nat.min_eq_right (by omega), List.take_of_length_le (Nat.le_succ _),
        List.drop_of_length_le (Nat.le_succ _), List.take_of_length_le (by omega),
        List.drop_of_length_le (by omega)]
    · rw [Nat.min_eq_left (by omega)]

theorem LineEnd.drop {l rest : List UInt8} (h : LineEnd l rest) {n : Nat} (hn : n < l.length) :
    LineEnd (l.drop n) rest := by
  obtain ⟨_, w, hw, hl⟩ := h
  refine ⟨fun h0 => by have := List.drop_eq_nil_iff.mp h0; omega, w.drop n,
    fun hm => hw (List.mem_of_mem_drop hm), hl.imp (fun h => ?_) fun h => ⟨by rw [h.1], h.2⟩⟩
  rw [h, List.drop_append_of_le_length]
  rw [h, List.length_append, List.length_singleton] at hn
  omega

/-- The pieces do not depend on how many are allowed, when there are enough. -/
theorem tails_fuel {n k : Nat} {off : Nat} {bytes : List UInt8} (hn : bytes.length ≤ n)
    (hk : bytes.length ≤ k) : tails n off bytes = tails k off bytes := by
  induction n generalizing k off bytes with
  | zero =>
    obtain rfl := List.length_eq_zero_iff.mp (Nat.le_zero.mp hn)
    cases k <;> rfl
  | succ n ih =>
    cases k with
    | zero =>
      obtain rfl := List.length_eq_zero_iff.mp (Nat.le_zero.mp hk)
      rfl
    | succ k =>
      have hdrop : (bytes.drop 127).length = bytes.length - 127 := List.length_drop
      unfold tails
      by_cases h0 : bytes = []
      · rw [if_pos h0, if_pos h0]
      · have hpos := List.length_pos_iff.mpr h0
        rw [if_neg h0, if_neg h0, ih (k := k) (by omega) (by omega)]

theorem tailsOf_cons {off : Nat} {bytes : List UInt8} (hne : bytes ≠ []) : tailsOf off bytes =
    { off := off, bytes := bytes.take 127, line := none } ::
      tailsOf (off + 127) (bytes.drop 127) := by
  have hpos := List.length_pos_iff.mpr hne
  have hdrop : (bytes.drop 127).length = bytes.length - 127 := List.length_drop
  obtain ⟨n, hn⟩ : ∃ n, bytes.length = n + 1 := ⟨bytes.length - 1, by omega⟩
  unfold tailsOf
  rw [hn, tails, if_neg hne, tails_fuel (k := (bytes.drop 127).length) (by omega) (Nat.le_refl _)]

def Piece.fragment (p : Piece) : Nat × List UInt8 := (p.off, p.bytes)

/-- The induction is on the calls of `fgets`; `l` is what is left of a line. -/
theorem fragmentsFrom_eq (fuel : Nat) :
    (∀ {off : Nat} {file : List UInt8}, file.length ≤ fuel →
      fragmentsFrom fuel off file =
        (pieces off (Services.fgetlnLines file)).map Piece.fragment) ∧
    ∀ {off : Nat} {l rest : List UInt8}, LineEnd l rest → (l ++ rest).length ≤ fuel →
      fragmentsFrom fuel off (l ++ rest) = (off, l.take 127) ::
        (tailsOf (off + 127) (l.drop 127) ++
          pieces (off + l.length) (Services.fgetlnLines rest)).map Piece.fragment := by
  induction fuel with
  | zero =>
    refine ⟨fun {off file} h => ?_, fun {off l rest} hl h => ?_⟩
    · obtain rfl := List.length_eq_zero_iff.mp (Nat.le_zero.mp h)
      rfl
    · have := List.length_pos_iff.mpr hl.1
      rw [List.length_append] at h
      omega
  | succ fuel ih =>
    have hstep : ∀ {off : Nat} {l rest : List UInt8}, LineEnd l rest →
        (l ++ rest).length ≤ fuel + 1 →
        fragmentsFrom (fuel + 1) off (l ++ rest) = (off, l.take 127) ::
          (tailsOf (off + 127) (l.drop 127) ++
            pieces (off + l.length) (Services.fgetlnLines rest)).map Piece.fragment := by
      intro off l rest hl hlen
      have hpos := List.length_pos_iff.mpr hl.1
      have hdrop : (l.drop 127).length = l.length - 127 := List.length_drop
      rw [List.length_append] at hlen
      obtain ⟨c, cs, hcons⟩ := List.exists_cons_of_ne_nil
        (show l ++ rest ≠ [] from fun h => hl.1 (List.append_eq_nil_iff.mp h).1)
      have hfirst : fragmentsFrom (fuel + 1) off (l ++ rest) = (off, l.take 127) ::
          fragmentsFrom fuel (off + (l.take 127).length) (l.drop 127 ++ rest) := by
        have hread := fgets_lineEnd hl
        rw [hcons] at hread ⊢
        rw [fragmentsFrom, hread]
        exact List.cons_ne_nil c cs
      rw [hfirst, List.length_take]
      rcases Nat.lt_or_ge 127 l.length with hlong | hshort
      · rw [Nat.min_eq_left (Nat.le_of_lt hlong),
          ih.2 (hl.drop hlong) (by rw [List.length_append]; omega),
          tailsOf_cons (hl.drop hlong).1, hdrop]
        have hoff : off + 127 + (l.length - 127) = off + l.length := by omega
        rw [hoff]
        rfl
      · rw [Nat.min_eq_right hshort, List.drop_of_length_le hshort, List.nil_append,
          ih.1 (by omega)]
        rfl
    refine ⟨fun {off file} h => ?_, hstep⟩
    by_cases hfile : file = []
    · rw [hfile]
      rfl
    · obtain ⟨l, rest, rfl, hl, hlines⟩ := fgetlnLines_cons hfile
      rw [hstep hl h, hlines]
      rfl

/-- The loop makes one pass for each piece. -/
theorem fragments_eq (file : List UInt8) :
    fragments file = (pieces 0 (Services.fgetlnLines file)).map Piece.fragment :=
  (fragmentsFrom_eq file.length).1 (Nat.le_refl _)

/-! ## Offsets -/

theorem tails_offsets (n : Nat) : ∀ {off : Nat} {bytes : List UInt8},
    (∀ p ∈ tails n off bytes, off ≤ p.off ∧ p.off < off + bytes.length) ∧
    (tails n off bytes).Pairwise fun p q => p.off < q.off := by
  induction n with
  | zero => exact fun {off bytes} => ⟨fun p hp => absurd hp List.not_mem_nil, .nil⟩
  | succ n ih =>
    intro off bytes
    unfold tails
    by_cases h0 : bytes = []
    · rw [if_pos h0]
      exact ⟨fun p hp => absurd hp List.not_mem_nil, .nil⟩
    · rw [if_neg h0]
      have hpos := List.length_pos_iff.mpr h0
      obtain ⟨hbound, hpair⟩ := @ih (off + 127) (bytes.drop 127)
      rw [List.length_drop] at hbound
      refine ⟨List.forall_mem_cons.mpr ⟨?_, fun p hp => ?_⟩, .cons (fun p hp => ?_) hpair⟩
      · dsimp only
        omega
      · have := hbound p hp
        omega
      · have := (hbound p hp).1
        dsimp only
        omega

theorem piecesOf_offsets {off : Nat} {line : List UInt8} (hne : line ≠ []) :
    (∀ p ∈ piecesOf off line, off ≤ p.off ∧ p.off < off + line.length) ∧
    (piecesOf off line).Pairwise fun p q => p.off < q.off := by
  have hpos := List.length_pos_iff.mpr hne
  obtain ⟨hbound, hpair⟩ := @tails_offsets (line.drop 127).length (off + 127) (line.drop 127)
  have hdrop : (line.drop 127).length = line.length - 127 := List.length_drop
  unfold piecesOf tailsOf
  rw [List.forall_mem_cons, List.pairwise_cons]
  refine ⟨⟨?_, fun p hp => ?_⟩, fun p hp => ?_, hpair⟩
  · dsimp only
    omega
  · have := hbound p hp
    omega
  · have := (hbound p hp).1
    dsimp only
    omega

theorem pieces_offsets {lines : List (List UInt8)} (hne : ∀ line ∈ lines, line ≠ []) :
    ∀ {off : Nat}, (∀ p ∈ pieces off lines, off ≤ p.off) ∧
      (pieces off lines).Pairwise fun p q => p.off < q.off := by
  induction lines with
  | nil => exact fun {off} => ⟨fun p hp => absurd hp List.not_mem_nil, .nil⟩
  | cons line lines ih =>
    intro off
    rw [List.forall_mem_cons] at hne
    obtain ⟨hbound, hpair⟩ := @piecesOf_offsets off line hne.1
    obtain ⟨hbound', hpair'⟩ := @ih hne.2 (off + line.length)
    refine ⟨fun p hp => ?_, List.pairwise_append.mpr ⟨hpair, hpair', fun p hp q hq => ?_⟩⟩
    · rcases List.mem_append.mp hp with hp | hp
      · exact (hbound p hp).1
      · exact Nat.le_of_add_right_le (hbound' p hp)
    · exact Nat.lt_of_lt_of_le (hbound p hp).2 (hbound' q hq)

theorem nodup_offsets (file : List UInt8) :
    ((pieces 0 (Services.fgetlnLines file)).map Piece.off).Nodup := by
  have hne : ∀ line ∈ Services.fgetlnLines file, line ≠ [] := fun line hline => by
    obtain ⟨_, w, _, ⟨rfl, hw⟩ | rfl⟩ := Services.mem_fgetlnLines hline
    · exact hw
    · exact List.append_ne_nil_of_right_ne_nil w (List.cons_ne_nil 10 [])
  exact (List.pairwise_map.mpr ((pieces_offsets hne).2.imp Nat.ne_of_lt))

/-! ## The services of a file -/

/-- The services that a file has for a name and a request, each with the offset of its line. -/
def services (name : List UInt8) (proto : Nat) (file : List UInt8) : List (Nat × Service) :=
  found Prod.fst (fun l => service name proto l.2) (linesAt 0 (Services.fgetlnLines file))

/-- The service that a piece has to give: that of its line, when it starts the line. -/
def pieceService (name : List UInt8) (proto : Nat) (p : Piece) : Option Service :=
  p.line.bind (service name proto)

theorem found_tails (name : List UInt8) (proto n : Nat) : ∀ (off : Nat) (bytes : List UInt8),
    found Piece.off (pieceService name proto) (tails n off bytes) = [] := by
  induction n with
  | zero => exact fun _ _ => rfl
  | succ n ih =>
    intro off bytes
    unfold tails
    split
    · rfl
    · rw [found_cons_none _ rfl]
      exact ih _ _

theorem services_eq (name : List UInt8) (proto : Nat) (file : List UInt8) :
    services name proto file =
      found Piece.off (pieceService name proto) (pieces 0 (Services.fgetlnLines file)) := by
  unfold services
  generalize Services.fgetlnLines file = lines
  generalize 0 = off
  induction lines generalizing off with
  | nil => rfl
  | cons line lines ih =>
    have hsplit : found Piece.off (pieceService name proto) (pieces off (line :: lines)) =
        found Piece.off (pieceService name proto) (piecesOf off line) ++
          found Piece.off (pieceService name proto) (pieces (off + line.length) lines) :=
      List.filterMap_append
    have htails := found_tails name proto (line.drop 127).length (off + 127) (line.drop 127)
    rw [hsplit, ← ih, linesAt]
    have hpiece : pieceService name proto ⟨off, line.take 127, some line⟩ =
        service name proto line := rfl
    unfold piecesOf tailsOf
    cases hs : service name proto line with
    | none =>
      rw [found_cons_none (f := fun l : Nat × List UInt8 => service name proto l.2) _ hs,
        found_cons_none _ (hpiece.trans hs), htails, List.nil_append]
    | some s =>
      rw [found_cons_some (f := fun l : Nat × List UInt8 => service name proto l.2) _ hs,
        found_cons_some _ (hpiece.trans hs), htails]
      rfl

/-- The loop stores the first services that its passes give. -/
theorem search_eq (name : List UInt8) (proto : Nat) (l : List (Nat × List UInt8)) :
    ∀ {buf : List (Nat × Service)}, buf.length ≤ MAXSERVS → search name proto l buf =
      buf ++ (found Prod.fst (fun p => matchLine name proto p.2) l).take
        (MAXSERVS - buf.length) := by
  induction l with
  | nil => exact fun {buf} _ => by simp [search, found]
  | cons p l ih =>
    intro buf hbuf
    obtain ⟨off, line⟩ := p
    unfold search
    by_cases hfull : buf.length < MAXSERVS
    · rw [if_pos hfull]
      cases hm : matchLine name proto line with
      | none =>
        rw [found_cons_none (f := fun p => matchLine name proto p.2) l hm]
        exact ih hbuf
      | some s =>
        obtain ⟨k, hk⟩ : ∃ k, MAXSERVS - buf.length = k + 1 := ⟨MAXSERVS - buf.length - 1, by omega⟩
        have hlen : (buf ++ [(off, s)]).length = buf.length + 1 := by simp
        rw [found_cons_some (f := fun p => matchLine name proto p.2) l hm, hk, List.take_succ_cons]
        dsimp only
        rw [ih (by rw [hlen]; omega), hlen, show MAXSERVS - (buf.length + 1) = k by omega,
          List.append_assoc]
        rfl
    · rw [if_neg hfull, show MAXSERVS - buf.length = 0 by omega, List.take_zero, List.append_nil]

/-! ## Misread pieces -/

/-- A piece is misread when it is
    - not the start of its line, and looks like a record of the name by itself (`tail`);
    - a line with a strange reading (`strange`);
    - the start of a line with more than 127 bytes of text, and what is seen of it looks like a
      record that the line is not (`taken`), or does not look like the record that it is
      (`missed`). -/
inductive Misread (name : List UInt8) (proto : Nat) (p : Piece) : Prop
  | tail (s : Service) : p.line = none → LooksLike name (Services.text p.bytes) s →
      Wanted proto s → Misread name proto p
  | strange (line : List UInt8) (s : Service) (r : Reading (Services.text line) s) :
      p.line = some line → (Services.text line).length ≤ 127 →
      name ∈ tokens spaces (Services.text line) → r.Strange name → Wanted proto s →
      Misread name proto p
  | taken (line : List UInt8) (s : Service) : p.line = some line →
      127 < (Services.text line).length → LooksLike name ((Services.text line).take 127) s →
      Wanted proto s → service name proto line ≠ some s → Misread name proto p
  | missed (line : List UInt8) (s : Service) : p.line = some line →
      127 < (Services.text line).length → service name proto line = some s →
      ¬ LooksLike name ((Services.text line).take 127) s → Misread name proto p

/-- Nothing follows a newline. -/
def OneLine (l : List UInt8) : Prop := ∃ w, 10 ∉ w ∧ (l = w ∨ l = w ++ [10])

theorem OneLine.take {l : List UInt8} (h : OneLine l) (n : Nat) : OneLine (l.take n) := by
  obtain ⟨w, hw, rfl | rfl⟩ := h
  · exact ⟨l.take n, fun hm => hw (List.mem_of_mem_take hm), .inl rfl⟩
  · rcases Nat.lt_or_ge w.length n with hlt | hge
    · refine ⟨w, hw, .inr (List.take_of_length_le ?_)⟩
      rw [List.length_append, List.length_singleton]
      exact hlt
    · exact ⟨w.take n, fun hm => hw (List.mem_of_mem_take hm),
        .inl (List.take_append_of_le_length hge)⟩

theorem OneLine.drop {l : List UInt8} (h : OneLine l) (n : Nat) : OneLine (l.drop n) := by
  obtain ⟨w, hw, rfl | rfl⟩ := h
  · exact ⟨l.drop n, fun hm => hw (List.mem_of_mem_drop hm), .inl rfl⟩
  · rcases Nat.lt_or_ge w.length n with hlt | hge
    · refine ⟨[], List.not_mem_nil, .inl (List.drop_of_length_le ?_)⟩
      rw [List.length_append, List.length_singleton]
      exact hlt
    · exact ⟨w.drop n, fun hm => hw (List.mem_of_mem_drop hm),
        .inr (List.drop_append_of_le_length hge)⟩

theorem oneLine_of_mem_tails {n off : Nat} {bytes : List UInt8} (hbytes : OneLine bytes) {p : Piece}
    (h : p ∈ tails n off bytes) : p.line = none ∧ OneLine p.bytes := by
  induction n generalizing off bytes with
  | zero => exact absurd h List.not_mem_nil
  | succ n ih =>
    unfold tails at h
    split at h
    · exact absurd h List.not_mem_nil
    · rcases List.mem_cons.mp h with rfl | h
      · exact ⟨rfl, hbytes.take 127⟩
      · exact ih (hbytes.drop 127) h

/-- A piece is the tail of a line or starts one; nothing in it follows a newline. -/
theorem oneLine_of_mem_pieces {off : Nat} {lines : List (List UInt8)}
    (hlines : ∀ line ∈ lines, OneLine line) {p : Piece} (h : p ∈ pieces off lines) :
    OneLine p.bytes ∧ (p.line = none ∨ ∃ line, p.line = some line ∧ p.bytes = line.take 127) := by
  induction lines generalizing off with
  | nil => exact absurd h List.not_mem_nil
  | cons line lines ih =>
    rw [List.forall_mem_cons] at hlines
    rcases List.mem_append.mp h with h | h
    · rcases List.mem_cons.mp h with rfl | h
      · exact ⟨hlines.1.take 127, .inr ⟨line, rfl, rfl⟩⟩
      · obtain ⟨hnone, hone⟩ := oneLine_of_mem_tails (hlines.1.drop 127) h
        exact ⟨hone, .inl hnone⟩
    · exact ih hlines.2 h

theorem oneLine_of_fgetln {file line : List UInt8} (h : line ∈ Services.fgetlnLines file) :
    OneLine line := by
  obtain ⟨_, w, hw, hends⟩ := Services.mem_fgetlnLines h
  exact ⟨w, hw, hends.imp_left And.left⟩

/-- What is seen of a line is the start of its text. -/
theorem text_take (line : List UInt8) (n : Nat) :
    Services.text (line.take n) = (Services.text line).take n := by
  unfold Services.text
  rw [← List.take_takeWhile, ← List.take_takeWhile]

section Misread

variable {name : List UInt8} {proto : Nat} {p : Piece} {line : List UInt8}

theorem misread_tail_iff (hnone : p.line = none) : Misread name proto p ↔
    ∃ s, matchText name proto (Services.text p.bytes) = some s := by
  simp only [matchText_iff]
  constructor
  · rintro (⟨s, _, hlook, hwanted⟩ | ⟨_, _, _, h, _⟩ | ⟨_, _, h, _⟩ | ⟨_, _, h, _⟩)
    · exact ⟨s, hlook, hwanted⟩
    all_goals
      rw [hnone] at h
      cases h
  · rintro ⟨s, hlook, hwanted⟩
    exact .tail s hnone hlook hwanted

theorem misread_short_iff (hsome : p.line = some line)
    (hshort : (Services.text line).length ≤ 127) : Misread name proto p ↔
      matchText name proto (Services.text line) ≠ service name proto line := by
  refine Iff.trans ?_ matchText_ne_iff.symm
  constructor
  · rintro (⟨_, h, _⟩ | ⟨l, s, r, h, _, hname, hstrange, hwanted⟩ | ⟨l, _, h, hlong, _⟩ |
      ⟨l, _, h, hlong, _⟩)
    · rw [hsome] at h
      cases h
    · obtain rfl := Option.some.inj (h.symm.trans hsome)
      exact ⟨s, hwanted, hname, r, hstrange⟩
    all_goals
      obtain rfl := Option.some.inj (h.symm.trans hsome)
      exact absurd hlong (Nat.not_lt.mpr hshort)
  · rintro ⟨s, hwanted, hname, r, hstrange⟩
    exact .strange line s r hsome hshort hname hstrange hwanted

theorem misread_long_iff (hsome : p.line = some line)
    (hlong : 127 < (Services.text line).length) : Misread name proto p ↔
      matchText name proto ((Services.text line).take 127) ≠ service name proto line := by
  constructor
  · rintro (⟨_, h, _⟩ | ⟨l, _, _, h, hshort, _⟩ | ⟨l, s, h, _, hlook, hwanted, hne⟩ |
      ⟨l, s, h, _, hs, hlook⟩) heq
    · rw [hsome] at h
      cases h
    all_goals obtain rfl := Option.some.inj (h.symm.trans hsome)
    · exact Nat.not_lt.mpr hshort hlong
    · exact hne (heq.symm.trans (matchText_iff.mpr ⟨hlook, hwanted⟩))
    · exact hlook (matchText_iff.mp (heq.trans hs)).1
  · intro hne
    cases hmatch : matchText name proto ((Services.text line).take 127) with
    | none =>
      obtain ⟨s, hs⟩ := Option.ne_none_iff_exists'.mp fun h0 => hne (hmatch.trans h0.symm)
      have hwanted : Wanted proto s := (serviceOf_eq_some_iff.mp hs).elim fun _ ⟨_, _, h⟩ => h.2.2.2
      refine .missed line s hsome hlong hs fun hlook => ?_
      rw [matchText_iff.mpr ⟨hlook, hwanted⟩] at hmatch
      cases hmatch
    | some s =>
      obtain ⟨hlook, hwanted⟩ := matchText_iff.mp hmatch
      exact .taken line s hsome hlong hlook hwanted fun hs => hne (hmatch.trans hs.symm)

end Misread

/-- One pass gives what the piece has to give, unless it is misread. -/
theorem misread_iff {name : List UInt8} (hname : Word spaces name) (proto : Nat)
    {file : List UInt8} {p : Piece} (hp : p ∈ pieces 0 (Services.fgetlnLines file)) :
    matchLine name proto p.bytes = pieceService name proto p ↔ ¬ Misread name proto p := by
  obtain ⟨⟨w, hw, hends⟩, hline⟩ := oneLine_of_mem_pieces (fun _ => oneLine_of_fgetln) hp
  rw [matchLine_eq hname proto hw hends, ← not_iff_not, not_not]
  unfold pieceService
  obtain hnone | ⟨line, hsome, hbytes⟩ := hline
  · rw [misread_tail_iff hnone, hnone, Option.bind_none]
    exact Option.ne_none_iff_exists'
  · rw [hsome, Option.bind_some, hbytes, text_take]
    rcases Nat.lt_or_ge 127 (Services.text line).length with hlong | hshort
    · exact (misread_long_iff hsome hlong).symm
    · rw [List.take_of_length_le hshort]
      exact (misread_short_iff hsome hshort).symm

/-! ## The call -/

/-- The call finds the first two services of the file, each in its own line, and nothing else. -/
def FindsExactly (file name : List UInt8) (proto flags : Nat) : Prop :=
  search name proto (fragments file) [] = (services name proto file).take MAXSERVS ∧
  lookupServ (some file) (some name) proto flags =
    answer (((services name proto file).take MAXSERVS).map (·.2))

/-- The call finds exactly the first two services for a name that is no number exactly when no
    piece is misread before the second of them. -/
theorem lookupServ_iff (file : CString) {name : List UInt8} (hname : ∀ c ∈ name, c ∉ spaces)
    (hnumber : (strtoul name).2 < name.length) (proto : Nat) {flags : Nat}
    (hflags : flags &&& AI_NUMERICSERV = 0) :
    FindsExactly file.1 name proto flags ↔
      ∀ l₁ p l₂, pieces 0 (Services.fgetlnLines file.1) = l₁ ++ p :: l₂ →
        (found Piece.off (pieceService name proto) l₁).length < MAXSERVS →
        ¬ Misread name proto p := by
  have hne : name ≠ [] := fun h0 => by
    rw [h0] at hnumber
    exact absurd hnumber (Nat.not_lt_zero _)
  have hword : Word spaces name := ⟨hne, hname⟩
  have hsearch : search name proto (fragments file.1) [] =
      (found Piece.off (fun p => matchLine name proto p.bytes)
        (pieces 0 (Services.fgetlnLines file.1))).take MAXSERVS := by
    rw [search_eq name proto _ (Nat.zero_le _), fragments_eq]
    unfold found
    rw [List.filterMap_map]
    rfl
  have hcall : lookupServ (some file.1) (some name) proto flags =
      answer ((search name proto (fragments file.1) []).map (·.2)) := by
    have hfilter : (some name).filter (fun s => (strtoul name).2 < s.length) = some name :=
      Option.filter_some_pos (decide_eq_true hnumber)
    unfold lookupServ
    rw [if_neg (by simpa using hne), Option.map_some, Option.getD_some]
    dsimp only
    rw [hfilter]
    exact if_neg (not_not.mpr hflags)
  have hiff : FindsExactly file.1 name proto flags ↔
      search name proto (fragments file.1) [] = (services name proto file.1).take MAXSERVS := by
    unfold FindsExactly
    rw [hcall]
    exact ⟨And.left, fun h => ⟨h, by rw [h]⟩⟩
  rw [hiff, hsearch, services_eq, take_found_eq_iff (nodup_offsets file.1)]
  refine forall_congr' fun l₁ => forall_congr' fun p => forall_congr' fun l₂ =>
    imp_congr_right fun hsplit => imp_congr_right fun _ => ?_
  exact misread_iff hword proto (by rw [hsplit]; simp)

/-- An alias is found, and the line of the record is not misread. -/
theorem lookupServ_iff_www :
    FindsExactly (chars "http 80/tcp www\n") (chars "www") 0 0 ∧
    ¬ Misread (chars "www") 0
      ⟨0, chars "http 80/tcp www\n", some (chars "http 80/tcp www\n")⟩ := by
  have h : FindsExactly (chars "http 80/tcp www\n") (chars "www") 0 0 := ⟨by decide, rfl⟩
  exact ⟨h, (lookupServ_iff ⟨chars "http 80/tcp www\n", by decide⟩ (by decide) (by decide) 0
    (by decide)).mp h [] _ [] rfl (by decide)⟩

/-- A name that stands in a port field is found there. -/
theorem lookupServ_port_field :
    lookupServ (some (chars "http 80/tcp\n")) (some (chars "80/tcp")) 0 0 =
      .ok [⟨80, IPPROTO_TCP⟩] ∧
    ¬ FindsExactly (chars "http 80/tcp\n") (chars "80/tcp") 0 0 := by
  refine ⟨rfl, fun h => ?_⟩
  have hsearch := h.1
  revert hsearch
  decide

end Librecompat.LookupServ
