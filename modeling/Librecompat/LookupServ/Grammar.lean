/-
  The records of the services file as `__lookup_serv` has to read them, and what it takes for one.

  A record is a name, blanks, a decimal port with `/tcp` or `/udp`, and aliases between blanks.
  `service` is what a line gives for a name and a request. What the loop takes for a record is a
  `Reading` of the text, which need not be that of a record (`Reading.Strange`): there may be
  nothing in front of the blanks, the number may have a sign and wrap around, anything may stand
  behind the protocol, and the name may be the port field. One pass sees no more of a fragment than
  its text (`matchLine_eq`).
-/
import Librecompat.LookupServ.Words
import Librecompat.Services.Grammar

namespace Librecompat.LookupServ

open Librecompat.Lib

/-! ## Records -/

/-- The name, the port field and the aliases of a text that starts with a name. -/
def columns (text : List UInt8) : Option (List UInt8 × List UInt8 × List (List UInt8)) :=
  match tokens spaces text with
  | canonical :: field :: aliases =>
    if text.head?.all (· ∉ spaces) then some (canonical, field, aliases) else none
  | _ => none

/-- The service that a port field denotes: a decimal number, a slash and a protocol. -/
def portField (field : List UInt8) : Option Service :=
  let digits := field.takeWhile isDigit
  let rest := field.dropWhile isDigit
  if digits = [] ∨ digitsValue digits > 65535 then none
  else if rest = chars "/udp" then
    some { port := UInt16.ofNat (digitsValue digits), proto := IPPROTO_UDP }
  else if rest = chars "/tcp" then
    some { port := UInt16.ofNat (digitsValue digits), proto := IPPROTO_TCP }
  else none

/-- The service is for the protocol that is asked for. -/
def Wanted (proto : Nat) (s : Service) : Prop :=
  ¬ (proto = IPPROTO_TCP ∧ s.proto = IPPROTO_UDP) ∧ ¬ (proto = IPPROTO_UDP ∧ s.proto = IPPROTO_TCP)

instance (proto : Nat) (s : Service) : Decidable (Wanted proto s) := inferInstanceAs (Decidable (_ ∧ _))

/-- What a text gives for a name: the service of the record, when the name is the name of the
    record or one of its aliases. -/
def serviceOf (name : List UInt8) (proto : Nat) (text : List UInt8) : Option Service := do
  let (canonical, field, aliases) ← columns text
  let s ← portField field
  if name ∈ canonical :: aliases ∧ Wanted proto s then some s else none

def service (name : List UInt8) (proto : Nat) (line : List UInt8) : Option Service :=
  serviceOf name proto (Services.text line)

example : service (chars "www") IPPROTO_TCP (chars "http  80/tcp www # web\n") =
    some ⟨80, IPPROTO_TCP⟩ := by
  decide

example : service (chars "80/tcp") 0 (chars " 80/tcp www\n") = none ∧
    service (chars "x") 0 (chars "x -18446744073709551615/tcp\n") = none := by
  decide

/-! ## What the loop takes for a record -/

/-- The digits are read as the port, behind a sign or not: numbers are modulo `2 ^ 64`. -/
def PortIs (sign digits : List UInt8) (port : Nat) : Prop :=
  digits ≠ [] ∧ (∀ c ∈ digits, isDigit c = true) ∧
    ((sign = [] ∨ sign = chars "+") ∧ digitsValue digits = port ∨
      sign = chars "-" ∧ digitsValue digits < 2 ^ 64 ∧ (digitsValue digits + port) % 2 ^ 64 = 0)

def protoText (proto : Nat) : List UInt8 :=
  if proto = IPPROTO_UDP then chars "/udp" else chars "/tcp"

/-- A text that is taken for a record of the service: something without blanks, blanks, a number, a
    protocol, and anything behind it. -/
structure Reading (text : List UInt8) (s : Service) where
  lead : List UInt8
  blanks : List UInt8
  sign : List UInt8
  digits : List UInt8
  more : List UInt8
  text_eq : text = lead ++ (blanks ++ (sign ++ (digits ++ (protoText s.proto ++ more))))
  lead_spaces : ∀ c ∈ lead, c ∉ spaces
  blanks_ne : blanks ≠ []
  blanks_spaces : ∀ c ∈ blanks, c ∈ spaces
  port : PortIs sign digits s.port.toNat
  proto : s.proto = IPPROTO_UDP ∨ s.proto = IPPROTO_TCP

/-- The text is taken for a record with the name. -/
def LooksLike (name text : List UInt8) (s : Service) : Prop :=
  name ∈ tokens spaces text ∧ Nonempty (Reading text s)

variable {text name : List UInt8} {s : Service} {proto : Nat}

/-- It is no record with the name: there is no name in front of the port, the port has a sign,
    something is behind the protocol, or the name is the port field only. -/
def Reading.Strange (name : List UInt8) (r : Reading text s) : Prop :=
  r.lead = [] ∨ r.sign ≠ [] ∨ ¬ StartsWith spaces r.more ∨
    name ∉ r.lead :: tokens spaces r.more

/-! ## What one pass makes of a text -/

/-- What the code reads of a port field, and what it leaves behind the protocol. -/
def scanField (field : List UInt8) : Option (Service × List UInt8) :=
  let (port, stop) := strtoul field
  let z := field.drop stop
  if port > 65535 ∨ stop = 0 then none
  else if (chars "/udp").isPrefixOf z then
    some ({ port := UInt16.ofNat port, proto := IPPROTO_UDP }, z.drop 4)
  else if (chars "/tcp").isPrefixOf z then
    some ({ port := UInt16.ofNat port, proto := IPPROTO_TCP }, z.drop 4)
  else none

/-- What one pass of the loop gives for a text. -/
def matchText (name : List UInt8) (proto : Nat) (text : List UInt8) : Option Service := do
  let field ← (tokens spaces (text.dropWhile (· ∉ spaces))).head?
  let (s, _) ← scanField field
  if name ∈ tokens spaces text ∧ Wanted proto s then some s else none

theorem wanted_udp (proto : Nat) (port : UInt16) :
    Wanted proto { port := port, proto := IPPROTO_UDP } ↔ proto ≠ IPPROTO_TCP := by
  unfold Wanted
  have hne : IPPROTO_UDP ≠ IPPROTO_TCP := by decide
  simp [hne]

theorem wanted_tcp (proto : Nat) (port : UInt16) :
    Wanted proto { port := port, proto := IPPROTO_TCP } ↔ proto ≠ IPPROTO_UDP := by
  unfold Wanted
  have hne : IPPROTO_TCP ≠ IPPROTO_UDP := by decide
  simp [hne]

variable {delims : List UInt8}

theorem tokens_eq_nil {s : List UInt8} (h : tokens delims s = []) : ∀ c ∈ s, c ∈ delims := by
  induction s with
  | nil => exact fun c hc => absurd hc List.not_mem_nil
  | cons c s ih =>
    obtain h0 | ⟨d, t, heq, hd⟩ | hword | ⟨u, d, v, heq, hu, hd⟩ := text_cases delims (c :: s)
    · cases h0
    · obtain ⟨rfl, rfl⟩ := List.cons.inj heq
      rw [tokens_skip hd] at h
      exact List.forall_mem_cons.mpr ⟨hd, ih h⟩
    · rw [tokens_word hword] at h
      cases h
    · rw [heq, tokens_word_cons hu hd] at h
      cases h

/-- The first word of a text, the gap before it, and what follows. -/
theorem tokens_eq_cons {s w : List UInt8} {ws : List (List UInt8)}
    (h : tokens delims s = w :: ws) : ∃ g r, s = g ++ (w ++ r) ∧ (∀ c ∈ g, c ∈ delims) ∧
      Word delims w ∧ StartsWith delims r ∧ tokens delims r = ws := by
  induction s with
  | nil => cases h
  | cons c s ih =>
    obtain h0 | ⟨d, t, heq, hd⟩ | hword | ⟨u, d, v, heq, hu, hd⟩ := text_cases delims (c :: s)
    · cases h0
    · obtain ⟨rfl, rfl⟩ := List.cons.inj heq
      rw [tokens_skip hd] at h
      obtain ⟨g, r, rfl, hg, hrest⟩ := ih h
      exact ⟨c :: g, r, rfl, List.forall_mem_cons.mpr ⟨hd, hg⟩, hrest⟩
    · rw [tokens_word hword] at h
      obtain ⟨rfl, rfl⟩ := List.cons.inj h
      exact ⟨[], [], by simp, fun c hc => absurd hc List.not_mem_nil, hword, .inl rfl, rfl⟩
    · rw [heq, tokens_word_cons hu hd] at h
      obtain ⟨rfl, rfl⟩ := List.cons.inj h
      exact ⟨[], d :: v, heq, fun c hc => absurd hc List.not_mem_nil, hu, .inr ⟨d, v, rfl, hd⟩,
        tokens_skip hd v⟩

/-- A prefix without delimiters does not reach over the end of a word. -/
theorem prefix_append_iff {p a r : List UInt8} (hp : ∀ c ∈ p, c ∉ delims)
    (hr : StartsWith delims r) : p.isPrefixOf (a ++ r) = p.isPrefixOf a := by
  induction p generalizing a with
  | nil => simp
  | cons c p ih =>
    rw [List.forall_mem_cons] at hp
    cases a with
    | nil =>
      rcases hr with rfl | ⟨d, r, rfl, hd⟩
      · rfl
      · have hne : c ≠ d := fun heq => hp.1 (heq ▸ hd)
        simp [List.isPrefixOf, hne]
    | cons d a =>
      rw [List.cons_append, List.isPrefixOf, List.isPrefixOf, ih hp.2]

theorem notDigit_of_space {c : UInt8} (h : c ∈ spaces) : isDigit c = false := by
  cases hd : isDigit c with
  | false => rfl
  | true =>
    have hs := isSpace_of_isDigit hd
    rw [isSpace_eq, decide_eq_true h] at hs
    cases hs

/-- What follows the name in the buffer is read like its first word. -/
theorem strtoul_field {g field r : List UInt8} (hg : ∀ c ∈ g, c ∈ spaces)
    (hfield : Word spaces field) (hr : StartsWith spaces r) :
    (strtoul (g ++ (field ++ r))).1 = (strtoul field).1 ∧
    ((strtoul (g ++ (field ++ r))).2 = 0 ↔ (strtoul field).2 = 0) ∧
    ((strtoul field).2 ≠ 0 → (g ++ (field ++ r)).drop (strtoul (g ++ (field ++ r))).2 =
      field.drop (strtoul field).2 ++ r) := by
  have hhead : ∀ c ∈ field.head?, isSpace c = false := fun c hc => by
    rw [isSpace_eq]
    exact decide_eq_false (hfield.2 c (List.mem_of_mem_head? hc))
  have hrest : ∀ c ∈ r.head?, isDigit c = false := by
    rcases hr with rfl | ⟨d, r, rfl, hd⟩
    · exact fun c hc => nomatch hc
    · exact fun c hc => Option.some.inj hc ▸ notDigit_of_space hd
  rw [strtoul_append (fun c hc => by rw [isSpace_eq]; exact decide_eq_true (hg c hc)) hfield.1
    hhead hrest]
  refine ⟨rfl, ?_, fun hne => ?_⟩
  · dsimp only
    split <;> omega
  · dsimp only
    rw [if_neg hne, List.drop_append, List.drop_of_length_le (Nat.le_add_right _ _), List.nil_append,
      Nat.add_sub_cancel_left, List.drop_append_of_le_length (strtoul_stop_le field)]

/-! ## What one pass sees of a fragment -/

/-- What the comment is cut from is the text, with a newline at most. -/
theorem cutComment_eq {f w : List UInt8} (hw : 10 ∉ w) (hf : f = w ∨ f = w ++ [10]) :
    ∃ e, cutComment f = Services.text f ++ e ∧ (e = [] ∨ e = [10]) := by
  have htext : Services.text f = w.takeWhile (· ≠ 35) := by
    unfold Services.text
    rcases hf with rfl | rfl
    · rw [Services.takeWhile_ne_self hw]
    · rw [List.takeWhile_append_of_pos, List.takeWhile_cons_of_neg (by simp), List.append_nil]
      exact fun d hd => decide_eq_true fun heq => hw (heq ▸ hd)
  have hmem : 35 ∈ f ↔ 35 ∈ w := by
    rcases hf with rfl | rfl
    · exact Iff.rfl
    · simp
  rw [htext]
  unfold cutComment
  by_cases h35 : 35 ∈ w
  · refine ⟨[10], ?_, .inr rfl⟩
    have htake : f.takeWhile (· ≠ 35) = w.takeWhile (· ≠ 35) := by
      rcases hf with rfl | rfl
      · rfl
      · rw [List.takeWhile_append, if_neg]
        intro hlen
        have heq := (List.takeWhile_sublist (fun c : UInt8 => decide (c ≠ 35))).eq_of_length hlen
        have hne := List.mem_takeWhile_imp (heq.symm ▸ h35)
        simp at hne
    rw [if_pos (hmem.mpr h35), htake]
  · rw [if_neg (mt hmem.mp h35), Services.takeWhile_ne_self h35]
    rcases hf with rfl | rfl
    · exact ⟨[], (List.append_nil f).symm, .inl rfl⟩
    · exact ⟨[10], rfl, .inr rfl⟩

theorem dropWhile_startsWith {t e : List UInt8} (he : StartsWith spaces e) :
    ((t ++ e).dropWhile fun c => !isSpace c) = t.dropWhile (· ∉ spaces) ++ e := by
  have hfun : (fun c => !isSpace c) = fun c => decide (c ∉ spaces) := by
    funext c
    rw [isSpace_eq, decide_not]
  rw [hfun, List.dropWhile_append]
  split
  · next hnil =>
    rw [List.isEmpty_iff.mp hnil, List.nil_append]
    rcases he with rfl | ⟨d, e, rfl, hd⟩
    · rfl
    · exact List.dropWhile_cons_of_neg (by simpa using hd)
  · rfl

/-- The checks behind the name, on what is left of the buffer. -/
theorem scanField_bind (proto : Nat) {g field r : List UInt8} (hg : ∀ c ∈ g, c ∈ spaces)
    (hfield : Word spaces field) (hr : StartsWith spaces r) :
    (let (port, stop) := strtoul (g ++ (field ++ r))
     let z := (g ++ (field ++ r)).drop stop
     if port > 65535 ∨ stop = 0 then none
     else if (chars "/udp").isPrefixOf z then
       if proto = IPPROTO_TCP then none else some { port := UInt16.ofNat port, proto := IPPROTO_UDP }
     else if (chars "/tcp").isPrefixOf z then
       if proto = IPPROTO_UDP then none else some { port := UInt16.ofNat port, proto := IPPROTO_TCP }
     else none) =
    (scanField field).bind fun (s, _) => if Wanted proto s then some s else none := by
  obtain ⟨hport, hstop, hdrop⟩ := strtoul_field hg hfield hr
  unfold scanField
  dsimp only
  rw [hport]
  by_cases hbad : (strtoul field).1 > 65535 ∨ (strtoul field).2 = 0
  · rw [if_pos hbad, if_pos (hbad.imp_right hstop.mpr)]
    rfl
  · rw [if_neg hbad, if_neg (mt (Or.imp_right hstop.mp) hbad), hdrop fun h0 => hbad (.inr h0),
      prefix_append_iff (p := chars "/udp") (by decide) hr,
      prefix_append_iff (p := chars "/tcp") (by decide) hr]
    split
    · rw [Option.bind_some]
      dsimp only
      rw [ite_congr (propext (wanted_udp proto _)) (fun _ => rfl) (fun _ => rfl), ite_not]
    · split
      · rw [Option.bind_some]
        dsimp only
        rw [ite_congr (propext (wanted_tcp proto _)) (fun _ => rfl) (fun _ => rfl), ite_not]
      · rfl

/-- One pass of the loop sees the text of its fragment only. -/
theorem matchLine_eq {name : List UInt8} (hname : Word spaces name) (proto : Nat)
    {f w : List UInt8} (hw : 10 ∉ w) (hf : f = w ∨ f = w ++ [10]) :
    matchLine name proto f = matchText name proto (Services.text f) := by
  obtain ⟨e, hcut, he⟩ := cutComment_eq hw hf
  have hspace : ∀ c ∈ e, c ∈ spaces := by
    rcases he with rfl | rfl
    · exact fun c hc => absurd hc List.not_mem_nil
    · exact fun c hc => List.mem_singleton.mp hc ▸ by decide
  have hstart : StartsWith spaces e := by
    rcases he with rfl | rfl
    · exact .inl rfl
    · exact .inr ⟨10, [], rfl, by decide⟩
  generalize Services.text f = t at hcut
  have hfind : (findName name (t ++ e) ((t ++ e).length + 1) 0).isSome ↔ name ∈ tokens spaces t := by
    rw [findName_iff hname, tokens_startsWith hstart, tokens_none hspace, List.append_nil]
  unfold matchLine matchText
  dsimp only
  rw [hcut, dropWhile_startsWith hstart]
  cases htok : tokens spaces (t.dropWhile (· ∉ spaces)) with
  | nil =>
    have hall : ∀ c ∈ t.dropWhile (· ∉ spaces) ++ e, isSpace c = true := fun c hc => by
      rw [isSpace_eq]
      exact decide_eq_true ((List.mem_append.mp hc).elim (tokens_eq_nil htok c) (hspace c))
    rw [strtoul_spaces hall]
    split
    · rfl
    · exact if_pos (.inr rfl)
  | cons field aliases =>
    obtain ⟨g, r, hrest, hg, hfield, hr, _⟩ := tokens_eq_cons htok
    have hr' : StartsWith spaces (r ++ e) := by
      rcases hr with rfl | ⟨d, r, rfl, hd⟩
      · exact hstart
      · exact .inr ⟨d, r ++ e, rfl, hd⟩
    have hbind := scanField_bind proto hg hfield hr'
    rw [hrest, List.append_assoc, List.append_assoc]
    cases hname' : findName name (t ++ e) ((t ++ e).length + 1) 0 with
    | none =>
      rw [hname'] at hfind
      have hnot : name ∉ tokens spaces t := fun hm => Bool.noConfusion (hfind.mpr hm)
      simp [hnot]
    | some q =>
      rw [hname'] at hfind
      have hin : name ∈ tokens spaces t := hfind.mp rfl
      refine hbind.trans ?_
      simp [hin]

end Librecompat.LookupServ
