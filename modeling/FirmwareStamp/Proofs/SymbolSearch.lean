import FirmwareStamp.Proofs.Edit
import FirmwareStamp.Proofs.StoredSymbols

/-!
# The symbol of the placeholder

The placeholder is at the only symbol of the descriptor's name, in the static table of the file or,
if there is none, in the dynamic one.  `Finds` lists what a search can come to: the address, or that
the only symbol has another size, or that there is none or more than one of the name, whatever their
sizes.

    image.placeholder d = r ↔ Finds image.path d.symbol image.symbols? r (placeholder_eq_iff_finds)

Only the symbols of the name count, in any order (`Finds.of_perm`), so that neither the order of the
table nor what the other symbols stand for is of any matter, nor a dynamic table beside a static one
(`placeholder_only_symbol`).
-/

namespace FirmwareStamp

namespace Elf.Symbol

/-- How many symbols have a name. -/
def timesNamed (symbols : List Symbol) (name : String) : Nat :=
  symbols.countP (·.name = name)

/-- Whether a symbol is in a table and no other entry of the table has its name. -/
structure IsOnly (s : Symbol) (symbols : List Symbol) (name : String) : Prop where
  mem : s ∈ symbols
  name_eq : s.name = name
  once : timesNamed symbols name = 1

/-- Whether two symbols have one name, and are the same if it is the name that is searched. -/
def Alike (name : String) (s s' : Symbol) : Prop :=
  s.name = s'.name ∧ (s.name = name → s = s')

variable {symbols : List Symbol} {name : String} {s : Symbol}

theorem timesNamed_eq_length : timesNamed symbols name = (symbols.filter (·.name = name)).length :=
  List.countP_eq_length_filter

theorem isOnly_iff : s.IsOnly symbols name ↔ symbols.filter (·.name = name) = [s] := by
  constructor
  · rintro ⟨hmem, hname, honce⟩
    rw [timesNamed_eq_length] at honce
    obtain ⟨x, hx⟩ := List.length_eq_one_iff.1 honce
    have hs : s ∈ symbols.filter (·.name = name) := List.mem_filter.2 ⟨hmem, by simpa using hname⟩
    rw [hx, List.mem_singleton] at hs
    rw [hx, hs]
  · intro h
    have hs : s ∈ symbols.filter (·.name = name) := by
      rw [h]
      exact List.mem_singleton_self s
    obtain ⟨hmem, hname⟩ := List.mem_filter.1 hs
    refine ⟨hmem, by simpa using hname, ?_⟩
    rw [timesNamed_eq_length, h]
    rfl

theorem filter_eq_nil_iff :
    symbols.filter (·.name = name) = [] ↔ ∀ s ∈ symbols, s.name ≠ name := by
  simp [List.filter_eq_nil_iff]

/-- Symbols alike have the same symbols of the name among them. -/
theorem filter_eq_of_alike {symbols' : List Symbol}
    (h : List.Forall₂ (Alike name) symbols symbols') :
    symbols.filter (·.name = name) = symbols'.filter (·.name = name) := by
  induction h with
  | nil => rfl
  | @cons s s' rest rest' hhead _ ih =>
    obtain ⟨hname, hsame⟩ := hhead
    by_cases hs : s.name = name
    · rw [List.filter_cons_of_pos (by simpa using hs),
        List.filter_cons_of_pos (by simpa [← hname] using hs), ih, hsame hs]
    · rw [List.filter_cons_of_neg (by simpa using hs),
        List.filter_cons_of_neg (by simpa [← hname] using hs), ih]

end Elf.Symbol

namespace Image

open Elf (Symbol)
open Elf.Symbol (timesNamed)

/-- What a search for a name comes to, in a table or without one. -/
inductive Finds (path name : String) : Option (List Symbol) → Except Error Nat → Prop
  | found {symbols : List Symbol} {s : Symbol} (only : s.IsOnly symbols name)
      (fits : s.size.toNat = placeholderLength) : Finds path name (some symbols) (.ok s.value.toNat)
  | misfit {symbols : List Symbol} {s : Symbol} (only : s.IsOnly symbols name)
      (misfits : s.size.toNat ≠ placeholderLength) :
      Finds path name (some symbols) (.error (.symbolSize path name s.size.toNat))
  | ambiguous {symbols : List Symbol} (many : 2 ≤ timesNamed symbols name) :
      Finds path name (some symbols) (.error (.symbolAmbiguous path name (timesNamed symbols name)))
  | absent {symbols : List Symbol} (unnamed : ∀ s ∈ symbols, s.name ≠ name) :
      Finds path name (some symbols) (.error (.symbolNotFound path name))
  | missing : Finds path name none (.error (.symbolNotFound path name))

variable {image : Image} {d : Descriptor} {r : Except Error Nat}

theorem placeholder_eq_iff_finds :
    image.placeholder d = r ↔ Finds image.path d.symbol image.symbols? r := by
  unfold placeholder
  cases image.symbols? with
  | none =>
    constructor
    · rintro rfl
      exact .missing
    · rintro ⟨⟩
      rfl
  | some symbols =>
    dsimp only [Option.getD_some]
    constructor
    · rintro rfl
      cases hfound : symbols.filter (·.name = d.symbol) with
      | nil => exact .absent (Symbol.filter_eq_nil_iff.1 hfound)
      | cons s rest =>
        cases rest with
        | nil =>
          have honly := Symbol.isOnly_iff.2 hfound
          dsimp only
          split
          · next hfits => exact .found honly hfits
          · next hmisfits => exact .misfit honly hmisfits
        | cons s' rest =>
          have hmany : timesNamed symbols d.symbol = (s :: s' :: rest).length := by
            rw [Symbol.timesNamed_eq_length, hfound]
          dsimp only
          rw [← hmany]
          refine .ambiguous ?_
          rw [hmany, List.length_cons, List.length_cons]
          omega
    · intro h
      cases h with
      | found honly hfits =>
        rw [Symbol.isOnly_iff.1 honly]
        exact if_pos hfits
      | misfit honly hmisfits =>
        rw [Symbol.isOnly_iff.1 honly]
        exact if_neg hmisfits
      | ambiguous hmany =>
        rw [Symbol.timesNamed_eq_length] at hmany ⊢
        generalize symbols.filter (·.name = d.symbol) = found at hmany
        match found with
        | s :: s' :: rest => rfl
      | absent hnone => rw [Symbol.filter_eq_nil_iff.2 hnone]

/-- The order of the symbols of the name is no matter, and the others are none. -/
theorem Finds.of_perm {path name : String} {symbols symbols' : List Symbol}
    (h : Finds path name (some symbols) r)
    (hperm : (symbols.filter (·.name = name)).Perm (symbols'.filter (·.name = name))) :
    Finds path name (some symbols') r := by
  have honly : ∀ s : Symbol, s.IsOnly symbols name → s.IsOnly symbols' name := by
    intro s hs
    rw [Symbol.isOnly_iff] at hs ⊢
    rw [hs] at hperm
    exact List.perm_singleton.1 hperm.symm
  have htimes : timesNamed symbols name = timesNamed symbols' name := by
    rw [Symbol.timesNamed_eq_length, Symbol.timesNamed_eq_length, hperm.length_eq]
  cases h with
  | found only fits => exact .found (honly _ only) fits
  | misfit only misfits => exact .misfit (honly _ only) misfits
  | ambiguous many =>
    rw [htimes] at many ⊢
    exact .ambiguous many
  | absent unnamed =>
    rw [← Symbol.filter_eq_nil_iff] at unnamed
    rw [unnamed] at hperm
    exact .absent (Symbol.filter_eq_nil_iff.1 (List.nil_perm.1 hperm))

/-- Images of one path whose tables have the same symbols of the name have one placeholder. -/
theorem placeholder_eq_of_perm {other : Image} {symbols symbols' : List Symbol}
    (hpath : other.path = image.path) (hsymbols : image.symbols? = some symbols)
    (hother : other.symbols? = some symbols')
    (hperm : (symbols.filter (·.name = d.symbol)).Perm (symbols'.filter (·.name = d.symbol))) :
    other.placeholder d = image.placeholder d := by
  have hfinds : Finds image.path d.symbol image.symbols? (image.placeholder d) :=
    placeholder_eq_iff_finds.1 rfl
  rw [hsymbols] at hfinds
  rw [placeholder_eq_iff_finds, hpath, hother]
  exact hfinds.of_perm hperm

theorem searched_of_parse {path : String} {b : Bytes} (h : parse path b = .ok image) :
    ∃ header sections, Elf.Header.parse b = .ok header ∧
      Elf.SectionHeader.table b header = .ok sections ∧
      ∀ found, Elf.Searched b header.encoding sections found ↔ found = image.symbols? := by
  unfold parse at h
  split at h
  · contradiction
  · next tables htables =>
    obtain ⟨header, hheader, hsections, hsearched⟩ := Elf.searched_iff htables
    refine ⟨header, tables.sections, hheader, hsections, fun found => ?_⟩
    rw [hsearched]
    injection h with h
    rw [← h]
    unfold symbols?
    cases tables.staticSymbols <;> rfl

/-- **The only symbol.**  An image that was read is searched for the symbols of its file as the
section headers lay them out.  The address of its placeholder is the value of the only symbol of the
name, which has the size of a placeholder; it is an error that no symbol has the name, in a table or
for want of one, that several have it, or that the only one has another size.  Only the symbols of
the name count, in any order, and of two tables the static one. -/
theorem placeholder_only_symbol {path : String} {b : Bytes} (h : parse path b = .ok image)
    (d : Descriptor) :
    (∃ header sections, Elf.Header.parse b = .ok header ∧
      Elf.SectionHeader.table b header = .ok sections ∧
      ∀ found, Elf.Searched b header.encoding sections found ↔ found = image.symbols?) ∧
    (∀ address, image.placeholder d = .ok address ↔
      ∃ symbols, ∃ s : Symbol, image.symbols? = some symbols ∧ s.IsOnly symbols d.symbol ∧
        s.size.toNat = placeholderLength ∧ s.value.toNat = address) ∧
    (image.placeholder d = .error (.symbolNotFound path d.symbol) ↔
      ∀ symbols, image.symbols? = some symbols → ∀ s ∈ symbols, s.name ≠ d.symbol) ∧
    (∀ count, image.placeholder d = .error (.symbolAmbiguous path d.symbol count) ↔
      ∃ symbols, image.symbols? = some symbols ∧ timesNamed symbols d.symbol = count ∧ 2 ≤ count) ∧
    (∀ size, image.placeholder d = .error (.symbolSize path d.symbol size) ↔
      ∃ symbols, ∃ s : Symbol, image.symbols? = some symbols ∧ s.IsOnly symbols d.symbol ∧
        s.size.toNat = size ∧ size ≠ placeholderLength) ∧
    ∀ other : Image, other.path = path →
      (∀ symbols symbols', image.symbols? = some symbols → other.symbols? = some symbols' →
        symbols.Perm symbols' ∨ List.Forall₂ (Symbol.Alike d.symbol) symbols symbols' →
        other.placeholder d = image.placeholder d) ∧
      (image.staticSymbols ≠ none → other.staticSymbols = image.staticSymbols →
        other.placeholder d = image.placeholder d) := by
  obtain rfl := path_of_parse h
  refine ⟨searched_of_parse h, fun address => ?_, ?_, fun count => ?_, fun size => ?_,
    fun other hpath => ⟨fun symbols symbols' hsymbols hother hsame => ?_, fun hstatic hsame => ?_⟩⟩
  · rw [placeholder_eq_iff_finds]
    constructor
    · intro hfinds
      generalize hsymbols : image.symbols? = found at hfinds
      cases hfinds with
      | found only fits => exact ⟨_, _, rfl, only, fits, rfl⟩
    · rintro ⟨symbols, s, hsymbols, only, fits, rfl⟩
      rw [hsymbols]
      exact .found only fits
  · rw [placeholder_eq_iff_finds]
    constructor
    · intro hfinds
      generalize image.symbols? = found at hfinds
      cases hfinds with
      | absent unnamed =>
        rintro _ ⟨⟩
        exact unnamed
      | missing =>
        rintro _ ⟨⟩
    · intro hnone
      cases hsymbols : image.symbols? with
      | none => exact .missing
      | some symbols => exact .absent (hnone symbols hsymbols)
  · rw [placeholder_eq_iff_finds]
    constructor
    · intro hfinds
      generalize image.symbols? = found at hfinds
      cases hfinds with
      | ambiguous many => exact ⟨_, rfl, rfl, many⟩
    · rintro ⟨symbols, hsymbols, rfl, many⟩
      rw [hsymbols]
      exact .ambiguous many
  · rw [placeholder_eq_iff_finds]
    constructor
    · intro hfinds
      generalize image.symbols? = found at hfinds
      cases hfinds with
      | misfit only misfits => exact ⟨_, _, rfl, only, rfl, misfits⟩
    · rintro ⟨symbols, s, hsymbols, only, rfl, misfits⟩
      rw [hsymbols]
      exact .misfit only misfits
  · refine placeholder_eq_of_perm hpath hsymbols hother ?_
    rcases hsame with hperm | halike
    · exact hperm.filter _
    · rw [Symbol.filter_eq_of_alike halike]
  · obtain ⟨symbols, hsymbols⟩ := Option.ne_none_iff_exists'.1 hstatic
    have himage : image.symbols? = some symbols := by rw [symbols?, hsymbols]
    have hother : other.symbols? = some symbols := by rw [symbols?, hsame, hsymbols]
    exact placeholder_eq_of_perm hpath himage hother (.refl _)

/-- An image of 64 bits, big-endian, with two static tables of symbols and a dynamic one. -/
def tablesElf : Bytes :=
  let entries : List (Nat × Nat × Nat) → Bytes := List.flatMap fun (name, value, size) =>
    [name, 0].flatMap (Bytes.big 4) ++ [value, size].flatMap (Bytes.big 8)
  let header (type offset size link : Nat) : Bytes :=
    [0, type].flatMap (Bytes.big 4) ++ [0, 0, offset, size].flatMap (Bytes.big 8) ++
      [link, 0].flatMap (Bytes.big 4) ++ [0, 24].flatMap (Bytes.big 8)
  [0x7f, 0x45, 0x4c, 0x46, 2, 2, 1] ++ List.replicate 9 0 ++
    [2, 40].flatMap (Bytes.big 2) ++ Bytes.big 4 1 ++ [0, 0, 245].flatMap (Bytes.big 8) ++
    Bytes.big 4 0 ++ [64, 56, 0, 64, 4, 3].flatMap (Bytes.big 2) ++
    -- the static tables, of which the second has an entry of its own, the dynamic one and the names
    entries [(1, 0x1000, 24), (99, 5, 6), (4, 0x2000, 24), (4, 0x3000, 8), (7, 0x4000, 20)] ++
    entries [(1, 0x5000, 24)] ++ entries [(10, 0x6000, 24)] ++
    [0, 0x69, 0x64, 0, 0x74, 0x77, 0, 0x73, 0x7a, 0, 0x64, 0x79, 0] ++
    header 2 64 120 3 ++ header 2 184 24 3 ++ header 11 208 24 3 ++ header 3 232 13 0

/-- What is read from it. -/
def tablesImage : Image where
  path := "a.elf"
  bytes := tablesElf
  sections := [⟨"", 0, 120, 64, false, false⟩, ⟨"", 0, 24, 184, false, false⟩,
    ⟨"", 0, 24, 208, false, false⟩, ⟨"", 0, 13, 232, false, false⟩]
  segments := []
  staticSymbols := some [⟨"id", 0x1000, 24⟩, ⟨"", 5, 6⟩, ⟨"tw", 0x2000, 24⟩, ⟨"tw", 0x3000, 8⟩,
    ⟨"sz", 0x4000, 20⟩]
  dynamicSymbols := some [⟨"dy", 0x6000, 24⟩]

/-- Each end of a search, by its name: found, twice, of another size, and only in the dynamic
table.  With the static table backwards the same is found. -/
theorem placeholder_tablesImage :
    parse "a.elf" tablesElf = .ok tablesImage ∧
      tablesImage.placeholder ⟨"id", .standard⟩ = .ok 0x1000 ∧
      tablesImage.placeholder ⟨"tw", .standard⟩ = .error (.symbolAmbiguous "a.elf" "tw" 2) ∧
      tablesImage.placeholder ⟨"sz", .standard⟩ = .error (.symbolSize "a.elf" "sz" 20) ∧
      tablesImage.placeholder ⟨"dy", .standard⟩ = .error (.symbolNotFound "a.elf" "dy") ∧
      { tablesImage with
          staticSymbols := tablesImage.staticSymbols.map List.reverse }.placeholder
        ⟨"id", .standard⟩ = .ok 0x1000 := by
  have hparse : parse "a.elf" tablesElf = .ok tablesImage := by decide +kernel
  obtain ⟨-, hfound, -, -, -, hsame⟩ := placeholder_only_symbol hparse ⟨"id", .standard⟩
  obtain ⟨-, -, -, hmany, -⟩ := placeholder_only_symbol hparse ⟨"tw", .standard⟩
  obtain ⟨-, -, -, -, hmisfit, -⟩ := placeholder_only_symbol hparse ⟨"sz", .standard⟩
  obtain ⟨-, -, hnone, -⟩ := placeholder_only_symbol hparse ⟨"dy", .standard⟩
  have hid : tablesImage.placeholder ⟨"id", .standard⟩ = .ok 0x1000 :=
    (hfound _).2 ⟨_, ⟨"id", 0x1000, 24⟩, rfl, ⟨by decide, rfl, by decide⟩, rfl, rfl⟩
  have htwice := (hmany 2).2 ⟨_, rfl, by decide, Nat.le_refl 2⟩
  have hsize := (hmisfit 20).2
    ⟨_, ⟨"sz", 0x4000, 20⟩, rfl, ⟨by decide, rfl, by decide⟩, rfl, by decide⟩
  have hdynamic := hnone.2 (by rintro _ ⟨⟩; decide)
  have hreverse := (hsame
    { tablesImage with staticSymbols := tablesImage.staticSymbols.map List.reverse } rfl).1
    _ _ rfl rfl (.inl (List.reverse_perm _).symm)
  exact ⟨hparse, hid, htwice, hsize, hdynamic, hreverse.trans hid⟩

end Image

end FirmwareStamp
