import FirmwareStamp.Descriptor

/-!
# Magics as text

A magic is written as eight hexadecimal digits, two to a byte, in either letter case:

    m.IsWritten cs ↔ cs.map Char.toLower = Hexadecimal.encode .lower m.bytes        (isWritten_iff)

Each pair of characters is read as a number, and a number may open with a plus sign.  So a text is
read as a magic if that is what is written once each sign that opens a pair is taken for a zero:

    parse text = .ok m ↔ m.IsWritten (unsigned text.toList)                     (parse_hexadecimal)

The texts without signs that are read are the written ones, but others are read as well
(`parse_signed`).
-/

namespace FirmwareStamp

/-! ## Digits in either letter case -/

namespace Hexadecimal

variable {c : Char} {cs : List Char} {b : Bytes} {v : Nat}

theorem isDigit_iff :
    isDigit c = true ↔ '0' ≤ c ∧ c ≤ '9' ∨ 'a' ≤ c ∧ c ≤ 'f' ∨ 'A' ≤ c ∧ c ≤ 'F' := by
  unfold isDigit value?
  split
  · next h => simp [h]
  split
  · next h => simp [h]
  split
  · next h => simp [h]
  · next hnum hlower hupper => simp [hnum, hlower, hupper]

theorem toNat_lt_of_isDigit (h : isDigit c = true) : c.toNat < 128 := by
  have hle : ∀ last : Char, last.toNat < 128 → c ≤ last → c.toNat < 128 := by
    intro last hlast hc
    exact Nat.lt_of_le_of_lt hc hlast
  rcases isDigit_iff.1 h with ⟨-, hc⟩ | ⟨-, hc⟩ | ⟨-, hc⟩
  · exact hle '9' (by decide) hc
  · exact hle 'f' (by decide) hc
  · exact hle 'F' (by decide) hc

/-- A fact of the ASCII characters can be checked one by one. -/
theorem forall_ascii {P : Char → Prop} (h : ∀ n < 128, P (Char.ofNat n)) (c : Char)
    (hc : c.toNat < 128) : P c := by
  have hp := h c.toNat hc
  rwa [Char.ofNat_toNat] at hp

theorem toNat_le_toNat_toLower (c : Char) : c.toNat ≤ c.toLower.toNat := by
  unfold Char.toLower
  split
  · next h =>
    have hupper : c.val.toNat ≤ 90 := h.2
    have hshift : (32 : UInt32).toNat = 32 := rfl
    show c.val.toNat ≤ (c.val + 32).toNat
    rw [UInt32.toNat_add, hshift]
    omega
  · exact Nat.le_refl _

/-- The digits of a value are the same up to letter case. -/
theorem value?_eq_some_iff : value? c = some v ↔ v < 16 ∧ c.toLower = digit .lower v := by
  -- digits are ASCII and no other character is one in lower case, so that a table of ASCII will do
  have htable : c.toNat < 128 → (∀ w ∈ value? c, w < 16) ∧
      ∀ w < 16, value? c = some w ↔ c.toLower = digit .lower w :=
    forall_ascii (P := fun c => (∀ w ∈ value? c, w < 16) ∧
      ∀ w < 16, value? c = some w ↔ c.toLower = digit .lower w) (by decide +kernel) c
  constructor
  · intro h
    have hdigit : isDigit c = true := by rw [isDigit, h, Option.isSome_some]
    obtain ⟨hsmall, hsame⟩ := htable (toNat_lt_of_isDigit hdigit)
    have hv : v < 16 := hsmall v h
    exact ⟨hv, (hsame v hv).1 h⟩
  · rintro ⟨hv, hlower⟩
    have hdigit : ∀ w < 16, (digit .lower w).toNat < 128 := by decide
    have hle := toNat_le_toNat_toLower c
    rw [hlower] at hle
    obtain ⟨-, hsame⟩ := htable (Nat.lt_of_le_of_lt hle (hdigit v hv))
    exact (hsame v hv).2 hlower

theorem decode?_cons_eq_some_iff {high low : Char} :
    decode? (high :: low :: cs) = some b ↔ ∃ h l tail, value? high = some h ∧
      value? low = some l ∧ decode? cs = some tail ∧ b = UInt8.ofNat (16 * h + l) :: tail := by
  simp only [decode?, Option.bind_eq_bind, Option.bind_eq_some_iff, Option.pure_def,
    Option.some.injEq]
  constructor
  · rintro ⟨h, hh, l, hl, tail, ht, rfl⟩
    exact ⟨h, l, tail, hh, hl, ht, rfl⟩
  · rintro ⟨h, l, tail, hh, hl, ht, rfl⟩
    exact ⟨h, hh, l, hl, tail, ht, rfl⟩

theorem digits_ofNat (letters : Letters) {h l : Nat} (hh : h < 16) (hl : l < 16) :
    digits letters (UInt8.ofNat (16 * h + l)) = [digit letters h, digit letters l] := by
  have hbyte : (UInt8.ofNat (16 * h + l)).toNat = 16 * h + l := by
    rw [UInt8.toNat_ofNat']
    omega
  have hhigh : (16 * h + l) / 16 = h := by omega
  have hlow : (16 * h + l) % 16 = l := by omega
  rw [digits, hbyte, hhigh, hlow]

theorem encode_cons (letters : Letters) (byte : UInt8) (b : Bytes) :
    encode letters (byte :: b) = digits letters byte ++ encode letters b := rfl

/-- Characters denote bytes exactly if they are how the bytes are written, up to letter case. -/
theorem decode?_eq_some_iff : decode? cs = some b ↔ cs.map Char.toLower = encode .lower b := by
  induction cs using decode?.induct generalizing b with
  | case1 =>
    cases b with
    | nil => exact ⟨fun _ => rfl, fun _ => rfl⟩
    | cons byte tail => simp [decode?, encode, digits]
  | case2 c =>
    have hodd : ([c].map Char.toLower).length ≠ (encode .lower b).length := by
      rw [length_encode, List.length_map, List.length_singleton]
      omega
    constructor
    · intro h
      cases h
    · intro hmap
      exact absurd (congrArg List.length hmap) hodd
  | case3 high low rest ih =>
    rw [decode?_cons_eq_some_iff]
    constructor
    · rintro ⟨h, l, tail, hh, hl, ht, rfl⟩
      obtain ⟨hhigh, hh⟩ := value?_eq_some_iff.1 hh
      obtain ⟨hlow, hl⟩ := value?_eq_some_iff.1 hl
      rw [encode_cons, digits_ofNat .lower hhigh hlow, ← ih.1 ht, ← hh, ← hl]
      rfl
    · intro hmap
      cases b with
      | nil => cases hmap
      | cons byte tail =>
        have hbyte := byte.toNat_lt
        have hsplit : 16 * (byte.toNat / 16) + byte.toNat % 16 = byte.toNat := Nat.div_add_mod _ _
        simp only [encode_cons, digits, List.map_cons, List.cons_append, List.nil_append,
          List.cons.injEq] at hmap
        obtain ⟨hhigh, hlow, hrest⟩ := hmap
        refine ⟨byte.toNat / 16, byte.toNat % 16, tail, value?_eq_some_iff.2 ⟨by omega, hhigh⟩,
          value?_eq_some_iff.2 ⟨by omega, hlow⟩, ih.2 hrest, ?_⟩
        rw [hsplit, UInt8.ofNat_toNat]

/-- All characters that denote bytes are digits. -/
theorem isDigit_of_decode? (h : decode? cs = some b) : ∀ c ∈ cs, isDigit c = true := by
  induction cs using decode?.induct generalizing b with
  | case1 => simp
  | case2 c => cases h
  | case3 high low rest ih =>
    obtain ⟨_, _, tail, hhigh, hlow, htail, -⟩ := decode?_cons_eq_some_iff.1 h
    intro c hc
    rcases List.mem_cons.1 hc with rfl | hc
    · rw [isDigit, hhigh, Option.isSome_some]
    rcases List.mem_cons.1 hc with rfl | hc
    · rw [isDigit, hlow, Option.isSome_some]
    · exact ih htail c hc

theorem length_of_decode? (h : decode? cs = some b) : cs.length = 2 * b.length := by
  rw [← length_encode .lower b, ← decode?_eq_some_iff.1 h, List.length_map]

end Hexadecimal

/-! ## Texts of the length of a magic -/

namespace Magic

theorem utf8ByteSize_ofList {cs : List Char} (h : ∀ c ∈ cs, c.toNat < 128) :
    (String.ofList cs).utf8ByteSize = cs.length := by
  induction cs with
  | nil => rfl
  | cons c rest ih =>
    have hc : c.utf8Size = 1 := by
      rw [Char.utf8Size_eq_one_iff]
      exact Nat.le_of_lt_succ (h c List.mem_cons_self)
    have hrest := ih fun x hx => h x (List.mem_cons_of_mem c hx)
    rw [String.ofList_cons, String.utf8ByteSize_append, String.utf8ByteSize_singleton, hc, hrest,
      List.length_cons, Nat.add_comm]

/-- Whether a text has eight bytes, each an ASCII character. -/
structure HasShape (text : String) : Prop where
  size_eq : text.utf8ByteSize = 8
  ascii : ∀ c ∈ text.toList, c.toNat < 128

instance decidableHasShape (text : String) : Decidable (HasShape text) :=
  decidable_of_iff (text.utf8ByteSize = 8 ∧ text.toList.all (·.toNat < 128) = true) <| by
    rw [List.all_eq_true]
    simp only [decide_eq_true_eq]
    exact ⟨fun ⟨hsize, hascii⟩ => ⟨hsize, hascii⟩, fun ⟨hsize, hascii⟩ => ⟨hsize, hascii⟩⟩

/-- Bytes and characters of ASCII are as many. -/
theorem hasShape_iff {text : String} :
    HasShape text ↔ text.toList.length = 8 ∧ ∀ c ∈ text.toList, c.toNat < 128 := by
  have hsize : (∀ c ∈ text.toList, c.toNat < 128) →
      text.utf8ByteSize = text.toList.length := by
    intro h
    have hsize := utf8ByteSize_ofList h
    rwa [String.ofList_toList] at hsize
  constructor
  · rintro ⟨height, hascii⟩
    exact ⟨(hsize hascii).symm.trans height, hascii⟩
  · rintro ⟨height, hascii⟩
    exact ⟨(hsize hascii).trans height, hascii⟩

/-! ## Written magics -/

/-- Whether characters are the eight digits of a magic, two to a byte in order. -/
structure IsWritten (m : Magic) (cs : List Char) : Prop where
  length_eq : cs.length = 8
  digits : ∀ c ∈ cs, Hexadecimal.isDigit c = true
  denotes : Hexadecimal.decode? cs = some m.bytes

variable {m : Magic} {cs : List Char} {text : String}

theorem isWritten_iff_decode? : m.IsWritten cs ↔ Hexadecimal.decode? cs = some m.bytes := by
  constructor
  · intro h
    exact h.denotes
  · intro h
    have hlength := Hexadecimal.length_of_decode? h
    rw [m.length_eq] at hlength
    exact ⟨hlength, Hexadecimal.isDigit_of_decode? h, h⟩

/-- A magic is written in one way, up to letter case. -/
theorem isWritten_iff :
    m.IsWritten cs ↔ cs.map Char.toLower = Hexadecimal.encode .lower m.bytes := by
  rw [isWritten_iff_decode?, Hexadecimal.decode?_eq_some_iff]

theorem IsWritten.unique {other : Magic} (h : m.IsWritten cs) (ho : other.IsWritten cs) :
    m = other := by
  have hbytes : m.bytes = other.bytes := Option.some.inj (h.denotes.symm.trans ho.denotes)
  cases m
  cases other
  cases hbytes
  rfl

/-! ## Signs -/

/-- Characters with a zero for each plus sign that opens a pair. -/
def unsigned : List Char → List Char
  | first :: second :: rest => (if first = '+' then '0' else first) :: second :: unsigned rest
  | rest => rest

theorem unsigned_of_rest {rest : List Char}
    (h : ∀ first second tail, rest ≠ first :: second :: tail) : unsigned rest = rest := by
  rw [unsigned]
  exact h

theorem length_unsigned (cs : List Char) : (unsigned cs).length = cs.length := by
  induction cs using unsigned.induct with
  | case1 first second rest ih => rw [unsigned, List.length_cons, List.length_cons, ih]; rfl
  | case2 rest hrest => rw [unsigned_of_rest hrest]

theorem unsigned_eq_self (h : '+' ∉ cs) : unsigned cs = cs := by
  induction cs using unsigned.induct with
  | case1 first second rest ih =>
    simp only [List.mem_cons, not_or] at h
    obtain ⟨hfirst, -, hrest⟩ := h
    rw [unsigned, if_neg (Ne.symm hfirst), ih hrest]
  | case2 rest hrest => exact unsigned_of_rest hrest

/-- Only signs are replaced. -/
theorem eq_or_mem_unsigned {c : Char} (h : c ∈ cs) : c = '+' ∨ c ∈ unsigned cs := by
  induction cs using unsigned.induct with
  | case1 first second rest ih =>
    rw [unsigned]
    rcases List.mem_cons.1 h with rfl | h
    · by_cases hc : c = '+'
      · exact .inl hc
      · rw [if_neg hc]
        exact .inr List.mem_cons_self
    rcases List.mem_cons.1 h with rfl | h
    · exact .inr (List.mem_cons_of_mem _ List.mem_cons_self)
    · exact (ih h).imp_right fun hc => List.mem_cons_of_mem _ (List.mem_cons_of_mem _ hc)
  | case2 rest hrest =>
    rw [unsigned_of_rest hrest]
    exact .inr h

/-- A pair denotes the byte that it denotes without a sign. -/
theorem decode?_unsigned_cons {first second : Char} {rest : List Char} {b : Bytes} :
    Hexadecimal.decode? (unsigned (first :: second :: rest)) = some b ↔
      ∃ byte tail, pair? first second = some byte ∧
        Hexadecimal.decode? (unsigned rest) = some tail ∧ b = byte :: tail := by
  have hzero : Hexadecimal.value? '0' = some 0 := by decide
  rw [unsigned, Hexadecimal.decode?_cons_eq_some_iff, pair?]
  split
  · rw [hzero]
    constructor
    · rintro ⟨_, l, tail, ⟨⟩, hl, htail, rfl⟩
      refine ⟨UInt8.ofNat l, tail, ?_, htail, ?_⟩
      · rw [hl, Option.map_some]
      · rw [Nat.mul_zero, Nat.zero_add]
    · rintro ⟨byte, tail, hbyte, htail, rfl⟩
      obtain ⟨l, hl, rfl⟩ := Option.map_eq_some_iff.1 hbyte
      refine ⟨0, l, tail, rfl, hl, htail, ?_⟩
      rw [Nat.mul_zero, Nat.zero_add]
  · simp only [Option.bind_eq_bind, Option.bind_eq_some_iff, Option.pure_def, Option.some.injEq]
    constructor
    · rintro ⟨h, l, tail, hh, hl, htail, rfl⟩
      exact ⟨_, tail, ⟨h, hh, l, hl, rfl⟩, htail, rfl⟩
    · rintro ⟨_, tail, ⟨h, hh, l, hl, rfl⟩, htail, rfl⟩
      exact ⟨h, l, tail, hh, hl, htail, rfl⟩

theorem decode?_unsigned_eight {a b c d e f g h : Char} {bytes : Bytes} :
    Hexadecimal.decode? (unsigned [a, b, c, d, e, f, g, h]) = some bytes ↔
      ∃ w x y z, pair? a b = some w ∧ pair? c d = some x ∧ pair? e f = some y ∧
        pair? g h = some z ∧ bytes = [w, x, y, z] := by
  have hnil : Hexadecimal.decode? (unsigned []) = some [] := rfl
  simp only [decode?_unsigned_cons, hnil]
  constructor
  · rintro ⟨w, _, hw, ⟨x, _, hx, ⟨y, _, hy, ⟨z, _, hz, ⟨⟩, rfl⟩, rfl⟩, rfl⟩, rfl⟩
    exact ⟨w, x, y, z, hw, hx, hy, hz, rfl⟩
  · rintro ⟨w, x, y, z, hw, hx, hy, hz, rfl⟩
    exact ⟨w, _, hw, ⟨x, _, hx, ⟨y, _, hy, ⟨z, _, hz, rfl, rfl⟩, rfl⟩, rfl⟩, rfl⟩

/-! ## Reading -/

theorem hasShape_of_isWritten (h : m.IsWritten (unsigned text.toList)) : HasShape text := by
  have hlength := h.length_eq
  rw [length_unsigned] at hlength
  refine hasShape_iff.2 ⟨hlength, fun c hc => ?_⟩
  rcases eq_or_mem_unsigned hc with rfl | hc
  · decide
  · exact Hexadecimal.toNat_lt_of_isDigit (h.digits c hc)

/-- What reading a text comes to. -/
inductive Reads (text : String) : Except Fault Magic → Prop
  | written {m : Magic} (written : m.IsWritten (unsigned text.toList)) : Reads text (.ok m)
  | digit (shape : HasShape text) (unwritten : ∀ m : Magic, ¬ m.IsWritten (unsigned text.toList)) :
      Reads text (.error (.digit text))
  | length (misshapen : ¬ HasShape text) : Reads text (.error (.length text))

theorem reads_parse (text : String) : Reads text (parse text) := by
  unfold parse
  split
  · next a b c d e f g h heq =>
    have hlength : text.toList.length = 8 := by rw [heq]; rfl
    split
    · next hascii =>
      have hshape : HasShape text := by
        refine hasShape_iff.2 ⟨hlength, fun c hc => ?_⟩
        simpa using List.all_eq_true.1 hascii c hc
      have hwritten : ∀ m : Magic, m.IsWritten (unsigned text.toList) ↔ ∃ w x y z,
          pair? a b = some w ∧ pair? c d = some x ∧ pair? e f = some y ∧ pair? g h = some z ∧
            m.bytes = [w, x, y, z] := by
        intro m
        rw [isWritten_iff_decode?, heq, decode?_unsigned_eight]
      split
      · next w x y z hw hx hy hz =>
        exact .written ((hwritten _).2 ⟨w, x, y, z, hw, hx, hy, hz, rfl⟩)
      · next hnone =>
        refine .digit hshape fun m hm => ?_
        obtain ⟨w, x, y, z, hw, hx, hy, hz, -⟩ := (hwritten m).1 hm
        exact hnone w x y z hw hx hy hz
    · next hascii =>
      refine .length fun hshape => hascii ?_
      rw [List.all_eq_true]
      intro c hc
      simpa using hshape.ascii c hc
  · next hother =>
    refine .length fun hshape => ?_
    obtain ⟨hlength, -⟩ := hasShape_iff.1 hshape
    match hcs : text.toList, hlength with
    | [a, b, c, d, e, f, g, h], _ => exact hother a b c d e f g h hcs

/-- Reading comes to one thing. -/
theorem Reads.unique {r r' : Except Fault Magic} (h : Reads text r) (h' : Reads text r') :
    r = r' := by
  cases h with
  | written written =>
    cases h' with
    | written written' => rw [written.unique written']
    | digit _ unwritten => exact absurd written (unwritten _)
    | length misshapen => exact absurd (hasShape_of_isWritten written) misshapen
  | digit shape unwritten =>
    cases h' with
    | written written => exact absurd written (unwritten _)
    | digit => rfl
    | length misshapen => exact absurd shape misshapen
  | length misshapen =>
    cases h' with
    | written written => exact absurd (hasShape_of_isWritten written) misshapen
    | digit shape => exact absurd shape misshapen
    | length => rfl

theorem parse_eq_iff_reads {r : Except Fault Magic} : parse text = r ↔ Reads text r := by
  constructor
  · rintro rfl
    exact reads_parse text
  · exact (reads_parse text).unique

theorem parse_eq_ok_iff : parse text = .ok m ↔ m.IsWritten (unsigned text.toList) := by
  rw [parse_eq_iff_reads]
  constructor
  · intro h
    cases h with
    | written written => exact written
  · exact .written

theorem parse_eq_error_iff {fault : Fault} :
    parse text = .error fault ↔ fault = .length text ∧ ¬ HasShape text ∨
      fault = .digit text ∧ HasShape text ∧ ∀ m : Magic, ¬ m.IsWritten (unsigned text.toList) := by
  rw [parse_eq_iff_reads]
  constructor
  · intro h
    cases h with
    | digit shape unwritten => exact .inr ⟨rfl, shape, unwritten⟩
    | length misshapen => exact .inl ⟨rfl, misshapen⟩
  · rintro (⟨rfl, misshapen⟩ | ⟨rfl, shape, unwritten⟩)
    · exact .length misshapen
    · exact .digit shape unwritten

/-- Written without signs is written and without signs. -/
theorem isWritten_iff_unsigned :
    m.IsWritten cs ↔ m.IsWritten (unsigned cs) ∧ '+' ∉ cs := by
  constructor
  · intro h
    have hsigns : '+' ∉ cs := by
      intro hsign
      exact absurd (h.digits '+' hsign) (by decide)
    rw [unsigned_eq_self hsigns]
    exact ⟨h, hsigns⟩
  · rintro ⟨h, hsigns⟩
    rwa [unsigned_eq_self hsigns] at h

theorem isWritten_ofBytes (m : Magic) : m.IsWritten (Hexadecimal.ofBytes m.bytes).toList := by
  rw [isWritten_iff_decode?, Hexadecimal.ofBytes, String.toList_ofList]
  exact Hexadecimal.decode?_encode .lower m.bytes

/-- **Magics as text.**  A text is read as a magic exactly if the magic is what is written in it
without the signs that open its pairs.  The texts that are written are those of them that have no
signs, the text of `ofBytes` among them; written texts of one magic are the same up to letter case,
and so are all texts that are read as one magic, without their signs.  What is not read is not eight
ASCII characters, or not written. -/
theorem parse_hexadecimal (text : String) :
    (∀ m, parse text = .ok m ↔ m.IsWritten (unsigned text.toList)) ∧
    (∀ m : Magic, m.IsWritten text.toList ↔ parse text = .ok m ∧ '+' ∉ text.toList) ∧
    (∀ m : Magic, text = Hexadecimal.ofBytes m.bytes → parse text = .ok m) ∧
    (∀ (m : Magic) (other : String), m.IsWritten text.toList →
      (m.IsWritten other.toList ↔ other.toLower = text.toLower)) ∧
    (∀ m other, parse text = .ok m → (parse other = .ok m ↔
      (unsigned other.toList).map Char.toLower = (unsigned text.toList).map Char.toLower)) ∧
    ∀ fault, parse text = .error fault ↔ fault = .length text ∧ ¬ HasShape text ∨
      fault = .digit text ∧ HasShape text ∧ ∀ m : Magic, ¬ m.IsWritten (unsigned text.toList) := by
  refine ⟨fun m => parse_eq_ok_iff, fun m => ?_, fun m htext => ?_, fun m other h => ?_,
    fun m other h => ?_, fun fault => parse_eq_error_iff⟩
  · rw [parse_eq_ok_iff]
    exact isWritten_iff_unsigned
  · have hwritten := isWritten_ofBytes m
    rw [← htext] at hwritten
    exact parse_eq_ok_iff.2 (isWritten_iff_unsigned.1 hwritten).1
  · rw [isWritten_iff] at h ⊢
    show _ ↔ other.map Char.toLower = text.map Char.toLower
    rw [← h, ← String.toList_inj, String.toList_map, String.toList_map]
  · rw [parse_eq_ok_iff, isWritten_iff] at h ⊢
    rw [h]

/-- Both letter cases, a sign, and a text for each fault. -/
theorem parse_standardText :
    parse "F0251400" = .ok .standard ∧ Magic.standard.IsWritten "f0251400".toList ∧
      parse "f0251400" = .ok .standard ∧ parse "f02514+0" = .ok .standard ∧
      parse "f025140g" = .error (.digit "f025140g") ∧ parse "éééé" = .error (.length "éééé") := by
  obtain ⟨hok, -, -, hcase, hsame, -⟩ := parse_hexadecimal "F0251400"
  obtain ⟨-, -, hof, -⟩ := parse_hexadecimal "f0251400"
  obtain ⟨-, -, -, -, -, hdigit⟩ := parse_hexadecimal "f025140g"
  obtain ⟨-, -, -, -, -, hlength⟩ := parse_hexadecimal "éééé"
  have hupper := (hok .standard).2 (isWritten_iff.2 (by decide +kernel))
  have hlower := (hcase .standard "f0251400" (isWritten_iff.2 (by decide +kernel))).2
    (by decide +kernel)
  have hsigned := (hsame .standard "f02514+0" hupper).2 (by decide +kernel)
  have hunwritten : ∀ m : Magic, ¬ m.IsWritten (unsigned "f025140g".toList) := by
    intro m hm
    have hg : Hexadecimal.isDigit 'g' = true := hm.digits 'g' (by decide +kernel)
    exact absurd hg (by decide)
  exact ⟨hupper, hlower, hof .standard (by decide +kernel), hsigned,
    (hdigit _).2 (.inr ⟨rfl, by decide +kernel, hunwritten⟩),
    (hlength _).2 (.inl ⟨rfl, by decide +kernel⟩)⟩

/-- Signs are read though they are no digits, and so two texts that differ in more than letter case
are read as one magic. -/
theorem parse_signed :
    parse "+f+f+f+f" = .ok ⟨[0x0f, 0x0f, 0x0f, 0x0f], rfl⟩ ∧
      Hexadecimal.isDigit '+' = false ∧
      (∀ m : Magic, ¬ m.IsWritten "+f+f+f+f".toList) ∧
      parse "0f0f0f0f" = .ok ⟨[0x0f, 0x0f, 0x0f, 0x0f], rfl⟩ ∧
      "+f+f+f+f".toLower ≠ "0f0f0f0f".toLower := by
  refine ⟨parse_eq_ok_iff.2 (isWritten_iff.2 (by decide +kernel)), by decide, fun m hm => ?_,
    parse_eq_ok_iff.2 (isWritten_iff.2 (by decide +kernel)), by decide +kernel⟩
  have hsign : Hexadecimal.isDigit '+' = true := hm.digits '+' (by decide +kernel)
  exact absurd hsign (by decide)

end Magic

end FirmwareStamp
