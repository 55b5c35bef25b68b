import FirmwareStamp.Proofs.Narrow
import FirmwareStamp.Proofs.Windows
import Mathlib.Data.List.TakeWhile

/-!
# Symbols as they are stored

A reader takes the fields of a record one after the other; what it gives is a function of the bytes
from the start of the record on (`Reader.Takes`).  So an entry of a symbol section is read off where
it stands: the index of its name in the first four bytes, its value one word and its size two words
after the start, whatever the width of a word:

    (Symbol.reader e names).runAt b o = .ok s ↔
      o + 3 * e.width.wordLength ≤ b.length ∧ s.StoredAt b e names o       (runAt_reader_eq_ok_iff)

The symbols that a file is searched for are the entries of its first static section, or without one
of its first dynamic one, and `Searched` says so by the section headers and the bytes alone.  A file
has one such list, and reading the tables gives it (`searched_iff`).
-/

namespace FirmwareStamp

/-! ## Bytes -/

namespace Bytes

theorem slice_drop (b : Bytes) (offset i length : Nat) :
    slice (b.drop offset) i length = slice b (offset + i) length := by
  unfold slice
  rw [List.drop_drop]

/-- A window inside a window. -/
theorem slice_slice (b : Bytes) {offset length i n : Nat} (h : i + n ≤ length) :
    slice (slice b offset length) i n = slice b (offset + i) n := by
  unfold slice
  rw [List.drop_take, List.take_take, List.drop_drop, Nat.min_eq_left (by omega)]

/-- Bytes are the encoding of a text exactly if they decode to it. -/
theorem text?_eq_some_iff {b : Bytes} {s : String} : b.text? = some s ↔ b = ofText s := by
  constructor
  · intro h
    unfold text? String.fromUTF8? at h
    split at h
    · injection h with h
      rw [← h]
      simp [ofText, String.fromUTF8]
    · contradiction
  · rintro rfl
    exact text?_ofText s

end Bytes

namespace Elf

/-! ## Records by position -/

namespace Reader

variable {α β : Type} {r : Reader α} {g : α → Reader β} {m n : Nat} {f : Bytes → α}
  {h : α → Bytes → β}

/-- Whether a reader takes so many bytes, which must be there, and gives a value of what it has
before it. -/
def Takes (r : Reader α) (length : Nat) (value : Bytes → α) : Prop :=
  ∀ c a c', r c = .ok (a, c') ↔
    length ≤ c.rest.length ∧ a = value c.rest ∧ c' = ⟨c.position + length, c.rest.drop length⟩

theorem takes_take (hn : 0 < n) : (take n).Takes n fun rest => rest.take n := by
  intro c a c'
  unfold take
  have htake : (c.rest.take n).length = min n c.rest.length := List.length_take
  cases hrest : c.rest.isEmpty with
  | true =>
    rw [List.isEmpty_iff] at hrest
    simp only [hrest, if_true, reduceCtorEq, List.length_nil, false_iff, not_and]
    omega
  | false =>
    dsimp only
    rw [if_neg (by simp)]
    by_cases hlong : n ≤ c.rest.length
    · rw [if_neg (by omega), Except.ok.injEq, Prod.mk.injEq]
      constructor
      · rintro ⟨rfl, rfl⟩
        exact ⟨hlong, rfl, rfl⟩
      · rintro ⟨-, rfl, rfl⟩
        exact ⟨rfl, rfl⟩
    · rw [if_pos (by omega)]
      simp only [reduceCtorEq, false_iff, not_and]
      omega

theorem takes_pure (a : α) : (pure a : Reader α).Takes 0 fun _ => a := by
  intro c a' c'
  show Except.ok (a, c) = .ok (a', c') ↔ _
  rw [Except.ok.injEq, Prod.mk.injEq]
  constructor
  · rintro ⟨rfl, rfl⟩
    exact ⟨Nat.zero_le _, rfl, rfl⟩
  · rintro ⟨-, rfl, rfl⟩
    exact ⟨rfl, rfl⟩

theorem Takes.bind (hr : r.Takes m f) (hg : ∀ a, (g a).Takes n (h a)) :
    (r >>= g).Takes (m + n) fun rest => h (f rest) (rest.drop m) := by
  intro c b c'
  have hlength : (c.rest.drop m).length = c.rest.length - m := List.length_drop
  constructor
  · intro hread
    obtain ⟨⟨a, mid⟩, ha, hb⟩ := bind_eq_ok.1 hread
    obtain ⟨hm, rfl, rfl⟩ := (hr c a mid).1 ha
    obtain ⟨hn, rfl, rfl⟩ := (hg _ _ b c').1 hb
    dsimp only at hn ⊢
    refine ⟨by omega, rfl, ?_⟩
    rw [List.drop_drop, Nat.add_assoc]
  · rintro ⟨hmn, rfl, rfl⟩
    refine bind_eq_ok.2 ⟨(f c.rest, ⟨c.position + m, c.rest.drop m⟩), ?_, ?_⟩
    · exact (hr c _ _).2 ⟨by omega, rfl, rfl⟩
    · refine (hg _ _ _ _).2 ⟨?_, rfl, ?_⟩
      · dsimp only
        omega
      · dsimp only
        rw [List.drop_drop, Nat.add_assoc]

theorem Takes.congr {f' : Bytes → α} (hr : r.Takes n f) (hf : ∀ rest, f rest = f' rest) :
    r.Takes n f' := by
  rwa [← funext hf]

/-- A record is read where it is in the file. -/
theorem Takes.runAt_eq_ok_iff (hr : r.Takes n f) (hn : 0 < n) {b : Bytes} {offset : Nat} {a : α} :
    r.runAt b offset = .ok a ↔ offset + n ≤ b.length ∧ a = f (b.drop offset) := by
  have hlength : (b.drop offset).length = b.length - offset := List.length_drop
  unfold runAt
  split
  · next hnil =>
    rw [hnil, List.length_nil] at hlength
    simp only [reduceCtorEq, false_iff, not_and]
    omega
  · rw [map_eq_ok]
    constructor
    · rintro ⟨⟨a', c'⟩, hread, rfl⟩
      obtain ⟨hle, rfl, -⟩ := (hr _ a' c').1 hread
      dsimp only at hle ⊢
      exact ⟨by omega, rfl⟩
    · rintro ⟨hle, rfl⟩
      exact ⟨(_, _), (hr _ _ _).2 ⟨by dsimp only; omega, rfl, rfl⟩, rfl⟩

end Reader

theorem takes_long (e : Encoding) :
    (Reader.long e).Takes 4 fun rest => UInt32.ofNat (e.order.decode (rest.take 4)) :=
  (Reader.takes_take (by decide)).bind fun _ => Reader.takes_pure _

theorem wordLength_pos (width : Width) : 0 < width.wordLength := by
  cases width <;> decide

theorem takes_word (e : Encoding) :
    (Reader.word e).Takes e.width.wordLength fun rest =>
      UInt64.ofNat (e.order.decode (rest.take e.width.wordLength)) :=
  (Reader.takes_take (wordLength_pos e.width)).bind fun _ => Reader.takes_pure _

/-! ## Names -/

namespace StringTable

/-- Whether a string stands at an index: text up to the next zero byte or the end of the table. -/
structure HasAt (t : StringTable) (index : Nat) (s : String) : Prop where
  index_lt : index < t.bytes.length
  stands : ∃ rest, t.bytes.drop index = Bytes.ofText s ++ rest ∧ ∀ byte ∈ rest.head?, byte = 0
  no_zero : 0 ∉ Bytes.ofText s

/-- Whether a name is the string at an index, or empty if none stands there. -/
def Names (t : StringTable) (index : Nat) (s : String) : Prop :=
  t.HasAt index s ∨ s = "" ∧ ∀ other, ¬ t.HasAt index other

variable {t : StringTable} {index : Nat} {s : String}

/-- A string is closed by the first zero byte after its start. -/
theorem takeWhile_eq_iff {b c : Bytes} :
    b.takeWhile (· ≠ 0) = c ↔
      (∃ rest, b = c ++ rest ∧ ∀ byte ∈ rest.head?, byte = 0) ∧ 0 ∉ c := by
  constructor
  · rintro rfl
    refine ⟨⟨b.dropWhile (· ≠ 0), List.takeWhile_append_dropWhile.symm, ?_⟩, ?_⟩
    · intro byte hbyte
      have hstop := List.head?_dropWhile_not (· ≠ 0) b
      rw [Option.mem_def] at hbyte
      rw [hbyte] at hstop
      simpa using hstop
    · intro hzero
      have := List.mem_takeWhile_imp hzero
      simp at this
  · rintro ⟨⟨rest, rfl, hrest⟩, hzero⟩
    rw [List.takeWhile_append_of_pos]
    · cases rest with
      | nil => simp
      | cons byte rest =>
        rw [hrest byte rfl]
        simp
    · intro byte hbyte
      simp only [decide_eq_true_eq]
      rintro rfl
      exact hzero hbyte

theorem hasAt_iff :
    t.HasAt index s ↔ index < t.bytes.length ∧
      Bytes.text? ((t.bytes.drop index).takeWhile (· ≠ 0)) = some s := by
  rw [Bytes.text?_eq_some_iff, takeWhile_eq_iff]
  exact ⟨fun ⟨hlt, hstands, hzero⟩ => ⟨hlt, hstands, hzero⟩,
    fun ⟨hlt, hstands, hzero⟩ => ⟨hlt, hstands, hzero⟩⟩

/-- Looking an index up gives the name there. -/
theorem name_eq_iff : t.name index = s ↔ t.Names index s := by
  unfold name Names
  simp only [hasAt_iff]
  by_cases hlt : index < t.bytes.length
  · cases Bytes.text? ((t.bytes.drop index).takeWhile (· ≠ 0)) with
    | none => simp [eq_comm]
    | some found => simp [hlt]
  · have hnil : t.bytes.drop index = [] := List.drop_eq_nil_of_le (by omega)
    have hempty : Bytes.text? [] = some "" := Bytes.text?_eq_some_iff.2 rfl
    simp [hlt, hnil, hempty, eq_comm]

end StringTable

/-! ## Entries -/

namespace Symbol

/-- Whether a symbol is what the entry at an offset says. -/
structure StoredAt (s : Symbol) (b : Bytes) (e : Encoding) (names : StringTable) (offset : Nat) :
    Prop where
  names : names.Names (e.order.decode (b.slice offset 4)) s.name
  value_eq : s.value.toNat =
    e.order.decode (b.slice (offset + e.width.wordLength) e.width.wordLength)
  size_eq : s.size.toNat =
    e.order.decode (b.slice (offset + 2 * e.width.wordLength) e.width.wordLength)

variable {b : Bytes} {e : Encoding} {names : StringTable} {offset : Nat} {s : Symbol}

/-- An entry is read field by field, up to its size. -/
theorem takes_reader (e : Encoding) (names : StringTable) :
    (reader e names).Takes (3 * e.width.wordLength) fun rest => {
      name := names.name (UInt32.ofNat (e.order.decode (rest.slice 0 4))).toNat
      value := UInt64.ofNat (e.order.decode (rest.slice e.width.wordLength e.width.wordLength))
      size := UInt64.ofNat
        (e.order.decode (rest.slice (2 * e.width.wordLength) e.width.wordLength)) } := by
  have hlong := takes_long e
  have hword := takes_word e
  unfold reader
  cases hwidth : e.width with
  | bits32 =>
    rw [hwidth] at hword
    have hfields := hlong.bind fun name => hword.bind fun value => hword.bind fun size =>
      Reader.takes_pure (Symbol.mk (names.name name.toNat) value size)
    refine hfields.congr fun rest => ?_
    simp only [Bytes.slice, List.drop_drop]
    rfl
  | bits64 =>
    rw [hwidth] at hword
    have hskip : (Reader.take 4).Takes 4 fun rest => rest.take 4 := Reader.takes_take (by decide)
    have hfields := hlong.bind fun name => hskip.bind fun _ => hword.bind fun value =>
      hword.bind fun size => Reader.takes_pure (Symbol.mk (names.name name.toNat) value size)
    refine hfields.congr fun rest => ?_
    simp only [Bytes.slice, List.drop_drop]
    rfl

theorem word_lt {x : Bytes} (e : Encoding) (hx : x.length = e.width.wordLength) :
    e.order.decode x < UInt64.size := by
  have hlt := decode_lt_capacity e.order x
  rw [hx] at hlt
  refine Nat.lt_of_lt_of_le hlt ?_
  cases e.width <;> decide

theorem word_eq_iff {x : UInt64} {n : Nat} (hn : n < UInt64.size) :
    x = UInt64.ofNat n ↔ x.toNat = n := by
  rw [← UInt64.toNat_inj, UInt64.toNat_ofNat_of_lt' hn]

/-- What is read of an entry in the file is what it says. -/
theorem runAt_reader_eq_ok_iff :
    (reader e names).runAt b offset = .ok s ↔
      offset + 3 * e.width.wordLength ≤ b.length ∧ s.StoredAt b e names offset := by
  have hpos := wordLength_pos e.width
  rw [(takes_reader e names).runAt_eq_ok_iff (by omega)]
  refine and_congr_right fun hfits => ?_
  have hfour : 4 ≤ e.width.wordLength := by cases e.width <;> decide
  have hname := decode_lt e.order (b := b.slice offset 4) (by rw [Bytes.length_slice]; omega)
  have hvalue := word_lt e (x := b.slice (offset + e.width.wordLength) e.width.wordLength)
    (by rw [Bytes.length_slice]; omega)
  have hsize := word_lt e (x := b.slice (offset + 2 * e.width.wordLength) e.width.wordLength)
    (by rw [Bytes.length_slice]; omega)
  simp only [Bytes.slice_drop, Nat.add_zero, UInt32.toNat_ofNat_of_lt' hname]
  constructor
  · rintro rfl
    exact ⟨StringTable.name_eq_iff.1 rfl, UInt64.toNat_ofNat_of_lt' hvalue,
      UInt64.toNat_ofNat_of_lt' hsize⟩
  · rintro ⟨hnames, hv, hs⟩
    rw [StringTable.name_eq_iff.2 hnames, ← (word_eq_iff hvalue).2 hv, ← (word_eq_iff hsize).2 hs]

end Symbol

/-! ## Sections of symbols -/

/-- The string table of the symbols of a section: the contents of the section it links to, if there
is one. -/
def Symbol.linkedNames (b : Bytes) (sections : List SectionHeader) (h : SectionHeader) :
    StringTable :=
  match sections[h.link.toNat]? with
  | some linked => ⟨b.slice linked.offset.toNat linked.size.toNat⟩
  | none => .empty

/-- Whether symbols are the entries of a section, in order; the entries and their names are in the
file. -/
structure Symbol.AreEntriesOf (symbols : List Symbol) (b : Bytes) (e : Encoding)
    (sections : List SectionHeader) (h : SectionHeader) : Prop where
  length_eq : symbols.length = count h
  storedAt : ∀ i (s : Symbol), symbols[i]? = some s →
    s.StoredAt b e (linkedNames b sections h) (h.offset.toNat + i * length e.width)
  entries_fit : h.offset.toNat + count h * length e.width ≤ b.length
  names_fit : ∀ linked ∈ sections[h.link.toNat]?,
    linked.offset.toNat + linked.size.toNat ≤ b.length

/-- Whether a section is the first of a type. -/
def SectionHeader.IsFirst (h : SectionHeader) (type : UInt32) (sections : List SectionHeader) :
    Prop :=
  ∃ before after, sections = before ++ h :: after ∧ h.type = type ∧ ∀ x ∈ before, x.type ≠ type

/-- The table of a type in a file with these sections: the entries of the first section of the type,
if there is one. -/
inductive TableOf (b : Bytes) (e : Encoding) (sections : List SectionHeader) (type : UInt32) :
    Option (List Symbol) → Prop
  | first {h : SectionHeader} {symbols : List Symbol} (first : h.IsFirst type sections)
      (entries : Symbol.AreEntriesOf symbols b e sections h) :
      TableOf b e sections type (some symbols)
  | missing (missing : ∀ h ∈ sections, h.type ≠ type) : TableOf b e sections type none

/-- The symbols that a file with these sections is searched for: those of the static table, or if
that is missing those of the dynamic one. -/
inductive Searched (b : Bytes) (e : Encoding) (sections : List SectionHeader) :
    Option (List Symbol) → Prop
  | static {symbols : List Symbol}
      (table : TableOf b e sections SectionHeader.symbolsType (some symbols)) :
      Searched b e sections (some symbols)
  | dynamic {found : Option (List Symbol)}
      (stripped : TableOf b e sections SectionHeader.symbolsType none)
      (table : TableOf b e sections SectionHeader.dynamicSymbolsType found) :
      Searched b e sections found

namespace Symbol

variable {b : Bytes} {e : Encoding} {sections : List SectionHeader} {h : SectionHeader}
  {symbols others : List Symbol}

theorem StoredAt.unique {names : StringTable} {offset : Nat} {s s' : Symbol}
    (hs : s.StoredAt b e names offset) (hs' : s'.StoredAt b e names offset) : s = s' := by
  have hname : s.name = s'.name :=
    (StringTable.name_eq_iff.2 hs.names).symm.trans (StringTable.name_eq_iff.2 hs'.names)
  have hvalue : s.value = s'.value := UInt64.toNat_inj.1 (hs.value_eq.trans hs'.value_eq.symm)
  have hsize : s.size = s'.size := UInt64.toNat_inj.1 (hs.size_eq.trans hs'.size_eq.symm)
  cases s
  cases s'
  simp_all

/-- A section has one list of entries. -/
theorem AreEntriesOf.unique (hs : AreEntriesOf symbols b e sections h)
    (ho : AreEntriesOf others b e sections h) : symbols = others := by
  have hlength : symbols.length = others.length := hs.length_eq.trans ho.length_eq.symm
  apply List.ext_getElem?
  intro i
  by_cases hi : i < symbols.length
  · rw [List.getElem?_eq_getElem hi, List.getElem?_eq_getElem (hlength ▸ hi)]
    exact congrArg some ((hs.storedAt i _ (List.getElem?_eq_getElem hi)).unique
      (ho.storedAt i _ (List.getElem?_eq_getElem (hlength ▸ hi))))
  · rw [List.getElem?_eq_none (by omega), List.getElem?_eq_none (by omega)]

theorem ofSection_eq_ok {names : StringTable} {linked : SectionHeader}
    (hread : StringTable.ofSection b linked = .ok names) :
    names = ⟨b.slice linked.offset.toNat linked.size.toNat⟩ ∧
      linked.offset.toNat + linked.size.toNat ≤ b.length := by
  unfold StringTable.ofSection StringTable.ofRange at hread
  split at hread
  · contradiction
  · next hfits =>
    obtain ⟨_, -, hread⟩ := bind_eq_ok.1 hread
    injection hread with hread
    exact ⟨hread.symm, by omega⟩

/-- The entries of a section are read one by one, with the names that the section links to. -/
theorem exists_of_ofSection (hread : ofSection b e sections h = .ok symbols) :
    ∃ table, entries b e h = .ok table ∧
      ((List.range (count h)).mapM fun i =>
        (reader e (linkedNames b sections h)).runAt table (i * length e.width)) = .ok symbols ∧
      ∀ linked ∈ sections[h.link.toNat]?,
        linked.offset.toNat + linked.size.toNat ≤ b.length := by
  obtain ⟨table, htable, hread⟩ := bind_eq_ok.1 hread
  refine ⟨table, htable, ?_⟩
  unfold linkedNames
  cases hlinked : sections[h.link.toNat]? with
  | none =>
    rw [hlinked] at hread
    exact ⟨hread, by simp⟩
  | some linked =>
    rw [hlinked] at hread
    obtain ⟨names, hnames, hread⟩ := bind_eq_ok.1 hread
    obtain ⟨rfl, hfits⟩ := ofSection_eq_ok hnames
    exact ⟨hread, by simpa using hfits⟩

/-- An entry stands in a file where it stands in a window of the file. -/
theorem storedAt_slice_iff {names : StringTable} {offset length i : Nat} {s : Symbol}
    (hi : i + 3 * e.width.wordLength ≤ length) :
    s.StoredAt (b.slice offset length) e names i ↔ s.StoredAt b e names (offset + i) := by
  have hfour : 4 ≤ e.width.wordLength := by cases e.width <;> decide
  have hname : (b.slice offset length).slice i 4 = b.slice (offset + i) 4 :=
    Bytes.slice_slice b (by omega)
  have hvalue : (b.slice offset length).slice (i + e.width.wordLength) e.width.wordLength =
      b.slice (offset + i + e.width.wordLength) e.width.wordLength := by
    rw [Bytes.slice_slice b (by omega), Nat.add_assoc]
  have hsize : (b.slice offset length).slice (i + 2 * e.width.wordLength) e.width.wordLength =
      b.slice (offset + i + 2 * e.width.wordLength) e.width.wordLength := by
    rw [Bytes.slice_slice b (by omega), Nat.add_assoc]
  constructor
  · rintro ⟨hn, hv, hs⟩
    exact ⟨hname ▸ hn, hvalue ▸ hv, hsize ▸ hs⟩
  · rintro ⟨hn, hv, hs⟩
    exact ⟨hname.symm ▸ hn, hvalue.symm ▸ hv, hsize.symm ▸ hs⟩

/-- The fields of each entry lie in the table. -/
theorem entry_fits (width : Width) {i n : Nat} (hi : i < n) :
    i * length width + 3 * width.wordLength ≤ n * length width := by
  have hnext : (i + 1) * length width ≤ n * length width := Nat.mul_le_mul_right _ hi
  have hfields : 3 * width.wordLength ≤ length width := by cases width <;> decide
  rw [Nat.add_mul, Nat.one_mul] at hnext
  omega

/-- The symbols that are read of a section are its entries. -/
theorem areEntriesOf_of_ofSection (hread : ofSection b e sections h = .ok symbols) :
    AreEntriesOf symbols b e sections h := by
  obtain ⟨table, htable, hread, hnames⟩ := exists_of_ofSection hread
  unfold entries at htable
  dsimp only at htable
  split at htable
  · contradiction
  obtain ⟨-, hfits, rfl⟩ := window_eq_ok_iff.1 htable
  rw [mapM_eq_ok_iff, List.forall₂_iff_get] at hread
  obtain ⟨hlength, hread⟩ := hread
  have hcount : symbols.length = count h := hlength.symm.trans List.length_range
  refine ⟨hcount, ?_, hfits, hnames⟩
  intro i s hs
  obtain ⟨hi, rfl⟩ := List.getElem?_eq_some_iff.1 hs
  have hentry := hread i (hlength ▸ hi) hi
  rw [List.get_eq_getElem, List.get_eq_getElem, List.getElem_range] at hentry
  exact (storedAt_slice_iff (entry_fits e.width (hcount ▸ hi))).1
    (runAt_reader_eq_ok_iff.1 hentry).2

end Symbol

/-! ## The symbols that are searched -/

variable {b : Bytes} {e : Encoding} {sections : List SectionHeader} {type : UInt32}
  {h : SectionHeader} {found other : Option (List Symbol)}

theorem SectionHeader.isFirst_iff :
    h.IsFirst type sections ↔ sections.find? (·.type = type) = some h := by
  rw [List.find?_eq_some_iff_append]
  simp only [decide_eq_true_eq, Bool.not_eq_true', decide_eq_false_iff_not]
  constructor
  · rintro ⟨before, after, hsplit, htype, hbefore⟩
    exact ⟨htype, before, after, hsplit, hbefore⟩
  · rintro ⟨htype, before, after, hsplit, hbefore⟩
    exact ⟨before, after, hsplit, htype, hbefore⟩

theorem SectionHeader.find?_type_eq_none_iff :
    sections.find? (·.type = type) = none ↔ ∀ h ∈ sections, h.type ≠ type := by
  simp [List.find?_eq_none]

/-- What is read of a table is the table. -/
theorem tableOf_of_table? (hread : Symbol.table? b e sections type = .ok found) :
    TableOf b e sections type found := by
  unfold Symbol.table? at hread
  cases hfirst : sections.find? (·.type = type) with
  | none =>
    rw [hfirst] at hread
    injection hread with hread
    rw [← hread]
    exact .missing (SectionHeader.find?_type_eq_none_iff.1 hfirst)
  | some h =>
    rw [hfirst] at hread
    obtain ⟨symbols, hsymbols, rfl⟩ := map_eq_ok.1 hread
    exact .first (SectionHeader.isFirst_iff.2 hfirst) (Symbol.areEntriesOf_of_ofSection hsymbols)

/-- A file has at most one table of a type. -/
theorem TableOf.unique (hf : TableOf b e sections type found)
    (ho : TableOf b e sections type other) : found = other := by
  cases hf with
  | first first entries =>
    rw [SectionHeader.isFirst_iff] at first
    cases ho with
    | first first' entries' =>
      rw [SectionHeader.isFirst_iff, first] at first'
      cases first'
      rw [entries.unique entries']
    | missing missing =>
      rw [SectionHeader.find?_type_eq_none_iff.2 missing] at first
      contradiction
  | missing missing =>
    cases ho with
    | first first' =>
      rw [SectionHeader.isFirst_iff, SectionHeader.find?_type_eq_none_iff.2 missing] at first'
      contradiction
    | missing => rfl

/-- A file is searched for one list of symbols. -/
theorem Searched.unique (hf : Searched b e sections found) (ho : Searched b e sections other) :
    found = other := by
  cases hf with
  | static table =>
    cases ho with
    | static table' => exact table.unique table'
    | dynamic stripped => cases table.unique stripped
  | dynamic stripped table =>
    cases ho with
    | static table' => cases stripped.unique table'
    | dynamic _ table' => exact table.unique table'

/-- A file whose tables are read is searched for the symbols that are read: the static ones if there
are any, and else the dynamic ones. -/
theorem searched_iff {tables : Tables} (hparse : Tables.parse b = .ok tables) :
    ∃ header, Header.parse b = .ok header ∧
      SectionHeader.table b header = .ok tables.sections ∧
      ∀ found, Searched b header.encoding tables.sections found ↔
        found = tables.staticSymbols.or tables.dynamicSymbols := by
  obtain ⟨header, hheader, h⟩ := bind_eq_ok.1 hparse
  obtain ⟨segments, -, h⟩ := bind_eq_ok.1 h
  obtain ⟨sections, hsections, h⟩ := bind_eq_ok.1 h
  obtain ⟨names, -, h⟩ := bind_eq_ok.1 h
  obtain ⟨_, -, h⟩ := bind_eq_ok.1 h
  obtain ⟨_, -, h⟩ := bind_eq_ok.1 h
  obtain ⟨_, -, h⟩ := bind_eq_ok.1 h
  obtain ⟨_, -, h⟩ := bind_eq_ok.1 h
  obtain ⟨static, hstatic, h⟩ := bind_eq_ok.1 h
  obtain ⟨dynamic, hdynamic, h⟩ := bind_eq_ok.1 h
  cases h
  have htable := tableOf_of_table? hdynamic
  have hsearched : Searched b header.encoding sections (static.or dynamic) := by
    cases static with
    | none => exact .dynamic (tableOf_of_table? hstatic) htable
    | some symbols => exact .static (tableOf_of_table? hstatic)
  refine ⟨header, hheader, hsections, fun found => ⟨fun hfound => hfound.unique hsearched, ?_⟩⟩
  rintro rfl
  exact hsearched

end Elf

end FirmwareStamp
