/-
  What one pass of the loop takes for a record.

  A pass gives a service exactly when the text has a `Reading` and the name is one of its words
  (`matchText_iff`). A reading is that of a record exactly when nothing about it is `Strange`
  (`Reading.serviceOf_iff`), so a pass goes wrong exactly on the strange readings
  (`matchText_ne_iff`).
-/
import Librecompat.LookupServ.Grammar

namespace Librecompat.LookupServ

open Librecompat.Lib

variable {text name delims : List UInt8} {s : Service} {proto : Nat}

/-! ## Readings -/

/-- A text starts with a word, which may be empty. -/
theorem exists_word_end (delims s : List UInt8) : ∃ m r, s = m ++ r ∧ (∀ c ∈ m, c ∉ delims) ∧
    StartsWith delims r := by
  obtain ⟨_, hall⟩ | ⟨u, d, v, hs, hu, hd, _⟩ := strpbrk_cases delims s
  · exact ⟨s, [], (List.append_nil s).symm, hall, .inl rfl⟩
  · exact ⟨u, d :: v, hs, hu, .inr ⟨d, v, rfl, hd⟩⟩

/-- The first word behind blanks. -/
theorem tokens_first {g w r : List UInt8} (hg : ∀ c ∈ g, c ∈ delims) (hw : Word delims w)
    (hr : StartsWith delims r) : tokens delims (g ++ (w ++ r)) = w :: tokens delims r := by
  induction g with
  | nil =>
    rw [List.nil_append, tokens_startsWith hr, tokens_word hw]
    rfl
  | cons c g ih =>
    rw [List.forall_mem_cons] at hg
    rw [List.cons_append, tokens_skip hg.1, ih hg.2]

theorem protoText_head_digit (proto : Nat) (m : List UInt8) :
    ∀ c ∈ (protoText proto ++ m).head?, isDigit c = false := by
  intro c hc
  unfold protoText at hc
  split at hc
  · obtain rfl := Option.some.inj hc
    decide
  · obtain rfl := Option.some.inj hc
    decide

theorem digit_not_space {c : UInt8} (h : isDigit c = true) : c ∉ spaces := fun hc => by
  rw [notDigit_of_space hc] at h
  cases h

theorem protoText_spaces (proto : Nat) : ∀ c ∈ protoText proto, c ∉ spaces := by
  unfold protoText
  split
  · decide
  · decide

theorem PortIs.spaces {sign digits : List UInt8} {port : Nat} (h : PortIs sign digits port) :
    (∀ c ∈ sign, c ∉ spaces) ∧ ∀ c ∈ digits, c ∉ spaces := by
  obtain ⟨_, hdigits, hsign⟩ := h
  refine ⟨?_, fun c hc => digit_not_space (hdigits c hc)⟩
  obtain ⟨rfl | rfl, _⟩ | ⟨rfl, _⟩ := hsign
  · exact fun c hc => absurd hc List.not_mem_nil
  · decide
  · decide

/-- The port field of a reading. -/
theorem field_word {sign digits m : List UInt8} {port : Nat} (hport : PortIs sign digits port)
    (proto : Nat) (hm : ∀ c ∈ m, c ∉ spaces) :
    Word spaces (sign ++ (digits ++ (protoText proto ++ m))) := by
  obtain ⟨hsign, hdigits⟩ := hport.spaces
  refine ⟨?_, fun c hc => ?_⟩
  · simp [hport.1]
  · simp only [List.mem_append] at hc
    obtain hc | hc | hc | hc := hc
    · exact hsign c hc
    · exact hdigits c hc
    · exact protoText_spaces proto c hc
    · exact hm c hc

theorem prefix_split {pre z : List UInt8} (h : pre.isPrefixOf z = true) :
    z = pre ++ z.drop pre.length := by
  obtain ⟨t, rfl⟩ := List.isPrefixOf_iff_prefix.mp h
  rw [List.drop_left]

/-- The number in front of `t`. -/
theorem numeral_port {sign digits t : List UInt8} {port : Nat} (hport : PortIs sign digits port)
    (ht : ∀ c ∈ t.head?, isDigit c = false) :
    numeral (sign ++ (digits ++ t)) =
      some ⟨decide (sign = chars "-"), digits, sign.length + digits.length⟩ := by
  obtain ⟨hne, hdigits, hsign⟩ := hport
  have hstop : (sign ++ (digits ++ t)).length - t.length = sign.length + digits.length := by
    rw [List.length_append, List.length_append]
    omega
  rw [← hstop]
  obtain ⟨rfl | rfl, _⟩ | ⟨rfl, _⟩ := hsign
  · exact numeral_of_sign (dropWhile_isSpace_digits hdigits hne t) (sign_digits hdigits hne t)
      hdigits hne ht
  · exact numeral_of_sign rfl rfl hdigits hne ht
  · exact numeral_of_sign rfl rfl hdigits hne ht

/-- `strtoul` reads the port. -/
theorem strtoul_port {sign digits t : List UInt8} {port : Nat} (hport : PortIs sign digits port)
    (hle : port ≤ 65535) (ht : ∀ c ∈ t.head?, isDigit c = false) :
    strtoul (sign ++ (digits ++ t)) = (port, sign.length + digits.length) := by
  rw [strtoul, numeral_port hport ht]
  obtain ⟨_, _, ⟨hsign, hval⟩ | ⟨hsign, hlt, hmod⟩⟩ := hport
  · have hneg : sign ≠ chars "-" := by
      obtain rfl | rfl := hsign
      · decide
      · decide
    simp only [hneg, decide_false, Numeral.size, hval, Bool.false_eq_true, if_false]
    rw [if_neg (by rw [ULONG_MAX]; omega)]
  · simp only [hsign, decide_true, Numeral.size, if_true]
    rw [if_neg (by rw [ULONG_MAX]; omega)]
    congr 1
    omega

/-- What `strtoul` has read, when it is a port. -/
theorem portIs_of_numeral {sign : List UInt8} {n : Numeral} {port : Nat} (hne : n.digits ≠ [])
    (hdigits : ∀ c ∈ n.digits, isDigit c = true)
    (hsign : n.negative = false ∧ (sign = [] ∨ sign = [43]) ∨ n.negative = true ∧ sign = [45])
    (hval : (if n.size > ULONG_MAX then ULONG_MAX
      else if n.negative then (2 ^ 64 - n.size) % 2 ^ 64 else n.size) = port)
    (hle : port ≤ 65535) : PortIs sign n.digits port := by
  have hsize : ¬ n.size > ULONG_MAX := fun hbig => by
    rw [if_pos hbig, ULONG_MAX] at hval
    omega
  rw [if_neg hsize] at hval
  rw [ULONG_MAX] at hsize
  refine ⟨hne, hdigits, ?_⟩
  obtain ⟨hneg, hsign⟩ | ⟨hneg, hsign⟩ := hsign
  · rw [hneg, if_neg Bool.false_ne_true] at hval
    exact .inl ⟨hsign, hval⟩
  · rw [hneg, if_pos rfl] at hval
    have hvalue : digitsValue n.digits = n.size := rfl
    refine .inr ⟨hsign, ?_, ?_⟩
    · omega
    · omega

/-- What a port field is read as. -/
theorem scanField_iff {field m : List UInt8} (hfield : Word spaces field) :
    scanField field = some (s, m) ↔ (s.proto = IPPROTO_UDP ∨ s.proto = IPPROTO_TCP) ∧
      ∃ sign digits, PortIs sign digits s.port.toNat ∧
        field = sign ++ (digits ++ (protoText s.proto ++ m)) := by
  have hudp : protoText IPPROTO_UDP = chars "/udp" := by decide
  have htcp : protoText IPPROTO_TCP = chars "/tcp" := by decide
  constructor
  · intro h
    have hhead : ∀ c ∈ field.head?, isSpace c = false := fun c hc => by
      rw [isSpace_eq]
      exact decide_eq_false (hfield.2 c (List.mem_of_mem_head? hc))
    unfold scanField strtoul at h
    cases hnum : numeral field with
    | none =>
      rw [hnum] at h
      cases h
    | some n =>
      obtain ⟨sign, hsplit, hne, hdigits, hsign⟩ := numeral_split hhead hnum
      rw [hnum] at h
      dsimp only at h
      generalize hval : (if n.size > ULONG_MAX then ULONG_MAX
        else if n.negative then (2 ^ 64 - n.size) % 2 ^ 64 else n.size) = port at h
      split at h
      · cases h
      · next hbad =>
        have hle : port ≤ 65535 := Nat.not_lt.mp (not_or.mp hbad).1
        have hport := portIs_of_numeral hne hdigits hsign hval hle
        have hnat : (UInt16.ofNat port).toNat = port :=
          UInt16.toNat_ofNat_of_lt' (Nat.lt_succ_of_le hle)
        split at h
        · next hpre =>
          obtain ⟨rfl, rfl⟩ := Prod.mk.inj (Option.some.inj h)
          refine ⟨.inl rfl, sign, n.digits, by rw [hnat]; exact hport, ?_⟩
          rw [hudp]
          exact hsplit.trans (by rw [prefix_split hpre]; rfl)
        · split at h
          · next hpre =>
            obtain ⟨rfl, rfl⟩ := Prod.mk.inj (Option.some.inj h)
            refine ⟨.inr rfl, sign, n.digits, by rw [hnat]; exact hport, ?_⟩
            rw [htcp]
            exact hsplit.trans (by rw [prefix_split hpre]; rfl)
          · cases h
  · rintro ⟨hproto, sign, digits, hport, rfl⟩
    have hle : s.port.toNat ≤ 65535 := Nat.le_of_lt_succ s.port.toNat_lt
    have hread := strtoul_port hport hle (protoText_head_digit s.proto m)
    have hpos : sign.length + digits.length ≠ 0 := by
      have := List.length_pos_iff.mpr hport.1
      omega
    have hdrop : (sign ++ (digits ++ (protoText s.proto ++ m))).drop
        (sign.length + digits.length) = protoText s.proto ++ m := by
      rw [← List.append_assoc, ← List.length_append, List.drop_left]
    unfold scanField
    rw [hread]
    dsimp only
    rw [hdrop, if_neg (not_or.mpr ⟨Nat.not_lt.mpr hle, hpos⟩), UInt16.ofNat_toNat]
    obtain ⟨port, proto⟩ := s
    obtain rfl | rfl := hproto
    · rw [hudp]
      rfl
    · rw [htcp]
      rfl

theorem dropWhile_word {m r : List UInt8} (hm : ∀ c ∈ m, c ∉ delims) (hr : StartsWith delims r) :
    (m ++ r).dropWhile (· ∉ delims) = r := by
  rw [List.dropWhile_append_of_pos fun c hc => decide_eq_true (hm c hc)]
  rcases hr with rfl | ⟨d, t, rfl, hd⟩
  · rfl
  · exact List.dropWhile_cons_of_neg (by simpa using hd)

/-- What stands in front of a word that starts behind blanks. -/
theorem startsWith_ne {g w r : List UInt8} (h : StartsWith delims (g ++ (w ++ r)))
    (hw : Word delims w) : g ≠ [] := fun hg => by
  obtain ⟨c, w, rfl⟩ := List.exists_cons_of_ne_nil hw.1
  rw [hg] at h
  rcases h with h0 | ⟨d, t, heq, hd⟩
  · cases h0
  · obtain ⟨rfl, _⟩ := List.cons.inj heq
    exact hw.2 _ List.mem_cons_self hd

variable (r : Reading text s)

theorem Reading.startsWith : StartsWith spaces
    (r.blanks ++ (r.sign ++ (r.digits ++ (protoText s.proto ++ r.more)))) := by
  obtain ⟨d, t, ht⟩ := List.exists_cons_of_ne_nil r.blanks_ne
  refine .inr ⟨d, _, by rw [ht]; rfl, r.blanks_spaces d ?_⟩
  rw [ht]
  exact List.mem_cons_self

theorem Reading.dropWhile_lead : text.dropWhile (· ∉ spaces) =
    r.blanks ++ (r.sign ++ (r.digits ++ (protoText s.proto ++ r.more))) := by
  conv_lhs => rw [r.text_eq]
  exact dropWhile_word r.lead_spaces r.startsWith

/-- The port field of a reading, which reaches to the next blank, and what is behind it. -/
theorem Reading.exists_field : ∃ m t, r.more = m ++ t ∧ (∀ c ∈ m, c ∉ spaces) ∧
    StartsWith spaces t ∧ tokens spaces (text.dropWhile (· ∉ spaces)) =
      (r.sign ++ (r.digits ++ (protoText s.proto ++ m))) :: tokens spaces t := by
  obtain ⟨m, t, hmore, hm, ht⟩ := exists_word_end spaces r.more
  refine ⟨m, t, hmore, hm, ht, ?_⟩
  have hword := field_word r.port s.proto hm
  rw [r.dropWhile_lead, hmore]
  simpa only [List.append_assoc] using tokens_first r.blanks_spaces hword ht

theorem exists_reading_iff : Nonempty (Reading text s) ↔
    ∃ field m, (tokens spaces (text.dropWhile (· ∉ spaces))).head? = some field ∧
      scanField field = some (s, m) := by
  constructor
  · rintro ⟨r⟩
    obtain ⟨m, t, _, hm, _, htok⟩ := r.exists_field
    refine ⟨_, m, congrArg List.head? htok, ?_⟩
    exact (scanField_iff (field_word r.port s.proto hm)).mpr
      ⟨r.proto, r.sign, r.digits, r.port, rfl⟩
  · rintro ⟨field, m, hhead, hscan⟩
    obtain ⟨lead, rest, htext, hlead, hrest⟩ := exists_word_end spaces text
    rw [htext, dropWhile_word hlead hrest] at hhead
    obtain ⟨ws, htok⟩ := List.head?_eq_some_iff.mp hhead
    obtain ⟨g, t, rfl, hg, hfield, _, _⟩ := tokens_eq_cons htok
    obtain ⟨hproto, sign, digits, hport, rfl⟩ := (scanField_iff hfield).mp hscan
    exact ⟨{ lead := lead, blanks := g, sign := sign, digits := digits, more := m ++ t,
             text_eq := by simpa only [List.append_assoc] using htext, lead_spaces := hlead,
             blanks_ne := startsWith_ne hrest hfield, blanks_spaces := hg, port := hport,
             proto := hproto }⟩

/-- One pass gives a service exactly when the text looks like a record of it with the name. -/
theorem matchText_iff : matchText name proto text = some s ↔
    LooksLike name text s ∧ Wanted proto s := by
  unfold LooksLike
  rw [exists_reading_iff]
  unfold matchText
  constructor
  · intro h
    obtain ⟨field, hfield, h⟩ := Option.bind_eq_some_iff.mp h
    obtain ⟨⟨s', m⟩, hscan, h⟩ := Option.bind_eq_some_iff.mp h
    obtain ⟨⟨hname, hwanted⟩, hs⟩ := Option.ite_none_right_eq_some.mp h
    obtain rfl := Option.some.inj hs
    exact ⟨⟨hname, field, m, hfield, hscan⟩, hwanted⟩
  · rintro ⟨⟨hname, field, m, hfield, hscan⟩, hwanted⟩
    refine Option.bind_eq_some_iff.mpr ⟨field, hfield, ?_⟩
    refine Option.bind_eq_some_iff.mpr ⟨(s, m), hscan, ?_⟩
    exact if_pos ⟨hname, hwanted⟩

/-! ## Records among the readings -/

/-- The words of a text with something in front of the blanks. -/
theorem Reading.tokens_lead (hlead : r.lead ≠ []) : tokens spaces text =
    r.lead :: tokens spaces (text.dropWhile (· ∉ spaces)) := by
  rw [r.dropWhile_lead]
  conv_lhs => rw [r.text_eq]
  exact tokens_first (g := []) (fun c hc => absurd hc List.not_mem_nil) ⟨hlead, r.lead_spaces⟩
    r.startsWith

theorem Reading.columns_eq_none (hlead : r.lead = []) : columns text = none := by
  obtain ⟨d, t, ht⟩ := List.exists_cons_of_ne_nil r.blanks_ne
  have hd : d ∈ spaces := r.blanks_spaces d (ht ▸ List.mem_cons_self)
  have hhead : ¬ text.head?.all (· ∉ spaces) := by
    rw [r.text_eq, hlead, ht]
    simpa using hd
  unfold columns
  split
  · exact if_neg hhead
  · rfl

theorem takeWhile_digits {digits t : List UInt8} (hdigits : ∀ c ∈ digits, isDigit c = true)
    (ht : ∀ c ∈ t.head?, isDigit c = false) :
    (digits ++ t).takeWhile isDigit = digits ∧ (digits ++ t).dropWhile isDigit = t := by
  rw [List.takeWhile_append_of_pos hdigits, List.dropWhile_append_of_pos hdigits]
  cases t with
  | nil => exact ⟨List.append_nil digits, rfl⟩
  | cons c t =>
    have hc := ht c rfl
    rw [List.takeWhile_cons_of_neg (by simp [hc]), List.dropWhile_cons_of_neg (by simp [hc]),
      List.append_nil]
    exact ⟨rfl, rfl⟩

theorem portIs_nil {digits : List UInt8} {port : Nat} : PortIs [] digits port ↔
    digits ≠ [] ∧ (∀ c ∈ digits, isDigit c = true) ∧ digitsValue digits = port := by
  have hminus : [] ≠ chars "-" := by decide
  simp [PortIs, hminus]

/-- What the port field of a record denotes. -/
theorem portField_iff {field : List UInt8} : portField field = some s ↔
    (s.proto = IPPROTO_UDP ∨ s.proto = IPPROTO_TCP) ∧ ∃ digits, PortIs [] digits s.port.toNat ∧
      field = digits ++ protoText s.proto := by
  simp only [portIs_nil]
  constructor
  · intro h
    have hsplit : field = field.takeWhile isDigit ++ field.dropWhile isDigit :=
      List.takeWhile_append_dropWhile.symm
    have hall : ∀ c ∈ field.takeWhile isDigit, isDigit c = true :=
      fun c hc => List.mem_takeWhile_imp hc
    unfold portField at h
    dsimp only at h
    generalize field.takeWhile isDigit = digits at h hsplit hall
    split at h
    · cases h
    · next hbad =>
      obtain ⟨hne, hle⟩ := not_or.mp hbad
      have hnat : (UInt16.ofNat (digitsValue digits)).toNat = digitsValue digits :=
        UInt16.toNat_ofNat_of_lt' (Nat.lt_succ_of_le (Nat.not_lt.mp hle))
      split at h
      · next hudp =>
        obtain rfl := Option.some.inj h
        exact ⟨.inl rfl, digits, ⟨hne, hall, hnat.symm⟩, by rw [hudp] at hsplit; exact hsplit⟩
      · split at h
        · next htcp =>
          obtain rfl := Option.some.inj h
          exact ⟨.inr rfl, digits, ⟨hne, hall, hnat.symm⟩, by rw [htcp] at hsplit; exact hsplit⟩
        · cases h
  · rintro ⟨hproto, digits, ⟨hne, hall, hport⟩, rfl⟩
    have hle : s.port.toNat ≤ 65535 := Nat.le_of_lt_succ s.port.toNat_lt
    have hhead := protoText_head_digit s.proto []
    rw [List.append_nil] at hhead
    obtain ⟨htake, hdrop⟩ := takeWhile_digits hall hhead
    unfold portField
    dsimp only
    rw [htake, hdrop, hport, if_neg (not_or.mpr ⟨hne, Nat.not_lt.mpr hle⟩), UInt16.ofNat_toNat]
    obtain ⟨port, proto⟩ := s
    obtain rfl | rfl := hproto
    · rfl
    · rfl

theorem protoText_length (proto : Nat) : (protoText proto).length = 4 := by
  unfold protoText
  split
  · rfl
  · rfl

theorem protoText_inj {proto proto' : Nat} (h : proto = IPPROTO_UDP ∨ proto = IPPROTO_TCP)
    (h' : proto' = IPPROTO_UDP ∨ proto' = IPPROTO_TCP)
    (heq : protoText proto = protoText proto') : proto = proto' := by
  obtain rfl | rfl := h <;> obtain rfl | rfl := h' <;> first | rfl | exact absurd heq (by decide)

/-- The port field of a reading is that of a record when there is no sign and it ends behind the
    protocol. -/
theorem Reading.portField_iff {m : List UInt8} {s' : Service} :
    portField (r.sign ++ (r.digits ++ (protoText s.proto ++ m))) = some s' ↔
      s' = s ∧ r.sign = [] ∧ m = [] := by
  rw [LookupServ.portField_iff]
  constructor
  · rintro ⟨hproto', digits', hport', heq⟩
    obtain ⟨hne', hall', hval'⟩ := portIs_nil.mp hport'
    have hport := r.port
    obtain ⟨hne, hall, hsign⟩ := r.port
    have hnil : r.sign = [] := by
      obtain ⟨d, t, rfl⟩ := List.exists_cons_of_ne_nil hne'
      have hd := hall' d List.mem_cons_self
      obtain ⟨h0 | hplus, _⟩ | ⟨hminus, _⟩ := hsign
      · exact h0
      · rw [hplus] at heq
        rw [← (List.cons.inj heq).1] at hd
        exact absurd hd (by decide)
      · rw [hminus] at heq
        rw [← (List.cons.inj heq).1] at hd
        exact absurd hd (by decide)
    rw [hnil] at hport
    obtain ⟨_, _, hval⟩ := portIs_nil.mp hport
    have htake := takeWhile_digits hall (protoText_head_digit s.proto m)
    have htake' := takeWhile_digits hall' (protoText_head_digit s'.proto [])
    rw [hnil, List.nil_append] at heq
    rw [heq] at htake
    rw [List.append_nil] at htake'
    have hdigits : digits' = r.digits := htake'.1.symm.trans htake.1
    have hrest : protoText s'.proto = protoText s.proto ++ m := htake'.2.symm.trans htake.2
    have hm : m = [] := by
      have hlen := congrArg List.length hrest
      rw [List.length_append, protoText_length, protoText_length] at hlen
      exact List.length_eq_zero_iff.mp (by omega)
    rw [hm, List.append_nil] at hrest
    have hp := protoText_inj hproto' r.proto hrest
    have hq : s'.port = s.port := UInt16.toNat_inj.mp (by rw [← hval', hdigits, hval])
    obtain ⟨port, proto⟩ := s'
    exact ⟨by cases hp; cases hq; rfl, hnil, hm⟩
  · rintro ⟨rfl, hsign, rfl⟩
    have hport := r.port
    rw [hsign] at hport ⊢
    exact ⟨r.proto, r.digits, hport, by rw [List.append_nil]; rfl⟩

theorem columns_eq_some_iff {canonical field : List UInt8} {aliases : List (List UInt8)} :
    columns text = some (canonical, field, aliases) ↔
      tokens spaces text = canonical :: field :: aliases ∧ ∀ c ∈ text.head?, c ∉ spaces := by
  have hhead : text.head?.all (· ∉ spaces) = true ↔ ∀ c ∈ text.head?, c ∉ spaces := by
    simp [Option.all_eq_true]
  unfold columns
  split
  · next c f as htok =>
    rw [Option.ite_none_right_eq_some, hhead, htok]
    constructor
    · rintro ⟨h, heq⟩
      cases heq
      exact ⟨rfl, h⟩
    · rintro ⟨heq, h⟩
      cases heq
      exact ⟨h, rfl⟩
  · next hno =>
    constructor
    · intro h
      cases h
    · exact fun h => absurd h.1 (hno _ _ _)

theorem serviceOf_eq_some_iff : serviceOf name proto text = some s ↔
    ∃ canonical field aliases, columns text = some (canonical, field, aliases) ∧
      portField field = some s ∧ name ∈ canonical :: aliases ∧ Wanted proto s := by
  unfold serviceOf
  constructor
  · intro h
    obtain ⟨⟨canonical, field, aliases⟩, hcol, h⟩ := Option.bind_eq_some_iff.mp h
    obtain ⟨s', hport, h⟩ := Option.bind_eq_some_iff.mp h
    obtain ⟨⟨hname, hwanted⟩, hs⟩ := Option.ite_none_right_eq_some.mp h
    obtain rfl := Option.some.inj hs
    exact ⟨canonical, field, aliases, hcol, hport, hname, hwanted⟩
  · rintro ⟨canonical, field, aliases, hcol, hport, hname, hwanted⟩
    refine Option.bind_eq_some_iff.mpr ⟨_, hcol, ?_⟩
    exact Option.bind_eq_some_iff.mpr ⟨s, hport, if_pos ⟨hname, hwanted⟩⟩

/-- A word ends where it meets what starts with a blank. -/
theorem startsWith_word {m t : List UInt8} (hm : ∀ c ∈ m, c ∉ delims) (ht : StartsWith delims t) :
    StartsWith delims (m ++ t) ↔ m = [] := by
  constructor
  · intro h
    cases m with
    | nil => rfl
    | cons c m =>
      rcases h with h0 | ⟨d, u, heq, hd⟩
      · cases h0
      · obtain ⟨rfl, _⟩ := List.cons.inj heq
        exact absurd hd (hm _ List.mem_cons_self)
  · rintro rfl
    exact ht

/-- A reading gives the service of the record exactly when it is that of a record. -/
theorem Reading.serviceOf_iff {s' : Service} : serviceOf name proto text = some s' ↔
    s' = s ∧ Wanted proto s ∧ ¬ r.Strange name := by
  obtain ⟨m, t, hmore, hm, ht, htok⟩ := r.exists_field
  rw [serviceOf_eq_some_iff]
  unfold Reading.Strange
  by_cases hlead : r.lead = []
  · simp [hlead, r.columns_eq_none hlead]
  · have hcol : columns text = some (r.lead,
        r.sign ++ (r.digits ++ (protoText s.proto ++ m)), tokens spaces t) := by
      refine columns_eq_some_iff.mpr ⟨(r.tokens_lead hlead).trans (by rw [htok]), fun c hc => ?_⟩
      obtain ⟨d, u, hd⟩ := List.exists_cons_of_ne_nil hlead
      rw [r.text_eq, hd] at hc
      obtain rfl := Option.some.inj hc
      exact r.lead_spaces _ (hd ▸ List.mem_cons_self)
    rw [hcol, hmore, startsWith_word hm ht]
    constructor
    · rintro ⟨_, _, _, heq, hport, hname, hwanted⟩
      cases heq
      obtain ⟨rfl, hsign, hnil⟩ := r.portField_iff.mp hport
      rw [hnil, List.nil_append]
      simp only [hsign, ne_eq, not_true_eq_false, false_or, not_or, not_not]
      exact ⟨trivial, hwanted, hlead, hname⟩
    · rintro ⟨rfl, hwanted, hstrange⟩
      obtain ⟨_, hsign, hnil, hname⟩ : _ ∧ _ ∧ _ ∧ _ := by
        simpa only [not_or, not_not, ne_eq] using hstrange
      rw [hnil, List.nil_append] at hname
      exact ⟨_, _, _, rfl, r.portField_iff.mpr ⟨rfl, hsign, hnil⟩, hname, hwanted⟩

/-- A record has a reading. -/
theorem exists_reading_of_serviceOf (h : serviceOf name proto text = some s) :
    Nonempty (Reading text s) := by
  obtain ⟨canonical, field, aliases, hcol, hport, _⟩ := serviceOf_eq_some_iff.mp h
  obtain ⟨htok, hhead⟩ := columns_eq_some_iff.mp hcol
  obtain ⟨g, rest, htext, hg, hcanonical, hrest, htok'⟩ := tokens_eq_cons htok
  obtain ⟨blanks, more, rfl, hblanks, hfield, _⟩ := tokens_eq_cons htok'
  obtain ⟨hproto, digits, hdigits, rfl⟩ := portField_iff.mp hport
  have hnil : g = [] := by
    cases g with
    | nil => rfl
    | cons c g =>
      rw [htext] at hhead
      exact absurd (hg c List.mem_cons_self) (hhead c rfl)
  rw [hnil, List.nil_append] at htext
  exact ⟨{ lead := canonical, blanks := blanks, sign := [], digits := digits, more := more,
           text_eq := by rw [htext, List.append_assoc]; rfl, lead_spaces := hcanonical.2,
           blanks_ne := startsWith_ne hrest hfield, blanks_spaces := hblanks, port := hdigits,
           proto := hproto }⟩

/-- The name of a record is one of the words of its text. -/
theorem mem_tokens_of_serviceOf (h : serviceOf name proto text = some s) :
    name ∈ tokens spaces text := by
  obtain ⟨canonical, field, aliases, hcol, _, hname, _⟩ := serviceOf_eq_some_iff.mp h
  rw [(columns_eq_some_iff.mp hcol).1]
  exact (List.mem_cons.mp hname).elim (fun h => h ▸ List.mem_cons_self)
    fun h => List.mem_cons_of_mem _ (List.mem_cons_of_mem _ h)

/-- What a text gives for the name is also what one pass gives. -/
theorem matchText_of_serviceOf (h : serviceOf name proto text = some s) :
    matchText name proto text = some s := by
  obtain ⟨r⟩ := exists_reading_of_serviceOf h
  exact matchText_iff.mpr ⟨⟨mem_tokens_of_serviceOf h, ⟨r⟩⟩, (r.serviceOf_iff.mp h).2.1⟩

/-- One pass goes wrong on a text exactly when the name is one of its words, and its reading is
    not that of a record. -/
theorem matchText_ne_iff : matchText name proto text ≠ serviceOf name proto text ↔
    ∃ s, Wanted proto s ∧ name ∈ tokens spaces text ∧ ∃ r : Reading text s, r.Strange name := by
  constructor
  · intro hne
    cases hmatch : matchText name proto text with
    | none =>
      cases hserv : serviceOf name proto text with
      | none => exact absurd (hmatch.trans hserv.symm) hne
      | some s =>
        rw [matchText_of_serviceOf hserv] at hmatch
        cases hmatch
    | some s =>
      obtain ⟨⟨hname, ⟨r⟩⟩, hwanted⟩ := matchText_iff.mp hmatch
      refine ⟨s, hwanted, hname, r, ?_⟩
      by_contra hstrange
      exact hne (hmatch.trans (r.serviceOf_iff.mpr ⟨rfl, hwanted, hstrange⟩).symm)
  · rintro ⟨s, hwanted, hname, r, hstrange⟩ heq
    rw [matchText_iff.mpr ⟨⟨hname, ⟨r⟩⟩, hwanted⟩] at heq
    exact (r.serviceOf_iff.mp heq.symm).2.2 hstrange

end Librecompat.LookupServ
