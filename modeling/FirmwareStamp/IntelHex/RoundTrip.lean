import FirmwareStamp.IntelHex.Listing

/-!
# Intel HEX files read back

A listing is well formed if its payloads fit the length byte of a line and no end of file stands
before its last record.  Reading gives only such listings, and what is written of one reads back:

    parse text = .ok l → l.WellFormed                                   (wellFormed_of_parse)
    l.WellFormed → l.render = .ok text → parse text = .ok l             (parse_render)

Changing bytes keeps the outline of a listing, its records with all data zero, and with the outline
it keeps well-formedness (`outline_write?`, `WellFormed.of_outline`).

The text splits into the lines of the records because no line holds a line feed, and no line ends
in a carriage return.
-/

namespace FirmwareStamp

namespace IntelHex

/-- A record with all its data zero. -/
def Record.outline : Record → Record
  | .data offset payload => .data offset (List.replicate payload.length 0)
  | r => r

namespace Listing

/-- The records with all data zero: their number, order, kinds, places and lengths. -/
def outline (l : Listing) : List Record :=
  l.records.map Record.outline

/-- Whether a listing can be written and read back. -/
structure WellFormed (l : Listing) : Prop where
  payload_lt : ∀ r ∈ l.records, r.payload.length < 256
  endOfFile_last : Record.endOfFile ∉ l.records.dropLast

/-! ## Lines -/

theorem not_mem_line {c : Char} (hcolon : c ≠ ':') (hdigit : Hexadecimal.isDigit c = false)
    (r : Record) : c ∉ r.line := by
  intro h
  rcases List.mem_cons.1 h with h | h
  · exact hcolon h
  · have hall := Hexadecimal.all_isDigit_encode .upper (r.body ++ [Record.checksum r.body])
    rw [List.all_eq_true] at hall
    rw [hall c h] at hdigit
    contradiction

theorem splitOn_lines (records : List Record) :
    (records.flatMap fun r => r.line ++ ['\n']).splitOn '\n' = records.map Record.line ++ [[]] := by
  induction records with
  | nil => rfl
  | cons r rest ih =>
    have hline : '\n' ∉ r.line := not_mem_line (by decide) (by decide) r
    rw [List.flatMap_cons, List.append_assoc, List.singleton_append,
      List.splitOn_append_cons_self_of_not_mem hline, ih]
    rfl

theorem dropReturns_eq_self {ls : List (List Char)} (h : ∀ line ∈ ls, '\r' ∉ line) :
    dropReturns ls = ls := by
  induction ls with
  | nil => rfl
  | cons line rest ih =>
    cases rest with
    | nil => rfl
    | cons next rest =>
      have hlast : line.getLast? ≠ some '\r' := by
        intro hr
        exact h line List.mem_cons_self (List.mem_of_getLast? hr)
      rw [dropReturns, if_neg hlast, ih fun l hl => h l (List.mem_cons_of_mem _ hl)]

/-- The lines of what is written are the lines of the records. -/
theorem lines_flatMap_line (records : List Record) :
    lines (records.flatMap fun r => r.line ++ ['\n']) = records.map Record.line ++ [[]] := by
  rw [lines, splitOn_lines, dropReturns_eq_self]
  intro line hline
  rcases List.mem_append.1 hline with hline | hline
  · obtain ⟨r, -, rfl⟩ := List.mem_map.1 hline
    exact not_mem_line (by decide) (by decide) r
  · simp only [List.mem_singleton] at hline
    simp [hline]

/-! ## Writing, then reading -/

theorem ofLines_map_line (init : List Record) (rest : List (List Char))
    (hpayload : ∀ r ∈ init, r.payload.length < 256) (hend : Record.endOfFile ∉ init) :
    ofLines (init.map Record.line ++ Record.endOfFile.line :: rest) =
      .ok (init ++ [Record.endOfFile]) := by
  induction init with
  | nil =>
    rw [List.map_nil, List.nil_append, ofLines, if_neg (by simp [Record.line]),
      Record.ofLine_line _ (by decide)]
    rfl
  | cons r init ih =>
    have hr : r ≠ Record.endOfFile := fun h => hend (h ▸ List.mem_cons_self)
    rw [List.map_cons, List.cons_append, ofLines, if_neg (by simp [Record.line]),
      Record.ofLine_line r (hpayload r List.mem_cons_self)]
    simp only [bind, Except.bind, if_neg hr]
    rw [ih (fun r hr => hpayload r (List.mem_cons_of_mem _ hr))
      fun h => hend (List.mem_cons_of_mem _ h)]
    rfl

/-- What is written of a well-formed listing reads back as the listing. -/
theorem parse_render {l : Listing} {text : String} (hl : l.WellFormed)
    (h : l.render = .ok text) : parse text = .ok l := by
  simp only [render] at h
  split at h
  · next hlast =>
    obtain ⟨init, hinit⟩ := List.getLast?_eq_some_iff.1 hlast
    injection h with h
    have hend : Record.endOfFile ∉ init := by
      have := hl.endOfFile_last
      rwa [hinit, List.dropLast_concat] at this
    have hpayload : ∀ r ∈ init, r.payload.length < 256 := fun r hr =>
      hl.payload_lt r (by rw [hinit]; exact List.mem_append_left _ hr)
    have hread : ofLines (lines text.toList) = .ok (init ++ [Record.endOfFile]) := by
      rw [← h, String.toList_ofList, lines_flatMap_line, hinit, List.map_append, List.append_assoc]
      exact ofLines_map_line init _ hpayload hend
    simp only [parse, hread, ← hinit]
    rfl
  · contradiction

/-! ## Reading gives well-formed listings -/

theorem length_payload_ofFields {type : UInt8} {address : UInt16} {payload : Bytes} {r : Record}
    (h : Record.ofFields type address payload = .ok r) : r.payload.length = payload.length := by
  unfold Record.ofFields at h
  repeat' split at h
  all_goals first
    | contradiction
    | injection h with h; subst h; simp [Record.payload]

theorem length_payload_ofBytes {b : Bytes} {r : Record} (h : Record.ofBytes b = .ok r) :
    r.payload.length < 256 := by
  simp only [Record.ofBytes] at h
  split at h
  · contradiction
  · split at h
    · next length _ _ _ payload _ =>
      split at h
      · contradiction
      · next hlen =>
        rw [length_payload_ofFields h, Decidable.not_not.1 hlen]
        exact length.toNat_lt
    · contradiction

theorem length_payload_ofLine {line : List Char} {r : Record} (h : Record.ofLine line = .ok r) :
    r.payload.length < 256 := by
  unfold Record.ofLine at h
  repeat' split at h
  all_goals first | contradiction | exact length_payload_ofBytes h

theorem wellFormed_ofLines {ls : List (List Char)} {records : List Record}
    (h : ofLines ls = .ok records) : WellFormed ⟨records⟩ := by
  induction ls generalizing records with
  | nil =>
    injection h with h
    subst h
    exact ⟨by simp, by simp⟩
  | cons line rest ih =>
    simp only [ofLines] at h
    split at h
    · exact ih h
    · cases hline : Record.ofLine line with
      | error fault => rw [hline] at h; contradiction
      | ok r =>
        have hr := length_payload_ofLine hline
        rw [hline] at h
        simp only [bind, Except.bind] at h
        split at h
        · injection h with h
          subst h
          exact ⟨by simpa using hr, by simp⟩
        · next hend =>
          cases hrest : ofLines rest with
          | error fault => rw [hrest] at h; contradiction
          | ok tail =>
            rw [hrest] at h
            injection h with h
            subst h
            obtain ⟨hpayload, hlast⟩ := ih hrest
            refine ⟨fun s hs => ?_, ?_⟩
            · rcases List.mem_cons.1 hs with rfl | hs
              · exact hr
              · exact hpayload s hs
            · cases tail with
              | nil => simp
              | cons s tail =>
                rw [List.dropLast_cons_cons, List.mem_cons, not_or]
                exact ⟨fun h => hend h.symm, hlast⟩

/-- Reading gives well-formed listings only. -/
theorem wellFormed_of_parse {text : String} {l : Listing} (h : parse text = .ok l) :
    l.WellFormed := by
  unfold parse at h
  cases hlines : ofLines (lines text.toList) with
  | error fault => rw [hlines] at h; contradiction
  | ok records =>
    rw [hlines] at h
    injection h with h
    subst h
    exact wellFormed_ofLines hlines

/-! ## Changing bytes -/

theorem outline_setByte (base address : Nat) (byte : UInt8) (r : Record) :
    (r.setByte base address byte).outline = r.outline := by
  cases r <;> simp [Record.setByte, Record.outline]

theorem outline_setFrom? {address base : Nat} {byte : UInt8} {records changed : List Record}
    (h : setFrom? address byte base records = some changed) :
    changed.map Record.outline = records.map Record.outline := by
  induction records generalizing base changed with
  | nil => simp [setFrom?] at h
  | cons r rest ih =>
    simp only [setFrom?] at h
    split at h
    · injection h with h
      subst h
      simp [outline_setByte]
    · obtain ⟨rest', hrest, rfl⟩ := Option.map_eq_some_iff.1 h
      simp [ih hrest]

/-- Setting a byte keeps the outline. -/
theorem outline_set? {l m : Listing} {address : Nat} {byte : UInt8}
    (h : l.set? address byte = some m) : m.outline = l.outline := by
  simp only [set?] at h
  split at h
  · obtain ⟨changed, hchanged, rfl⟩ := Option.map_eq_some_iff.1 h
    exact outline_setFrom? hchanged
  · contradiction

/-- Writing bytes keeps the outline. -/
theorem outline_write? {l m : Listing} {address : Nat} {b : Bytes}
    (h : l.write? address b = some m) : m.outline = l.outline := by
  induction b generalizing l address with
  | nil =>
    injection h with h
    rw [h]
  | cons byte rest ih =>
    obtain ⟨k, hk, hm⟩ := Option.bind_eq_some_iff.1 h
    rw [ih hm, outline_set? hk]

theorem length_payload_outline (r : Record) : r.outline.payload.length = r.payload.length := by
  cases r <;> simp [Record.outline, Record.payload]

theorem outline_eq_endOfFile_iff (r : Record) :
    r.outline = Record.endOfFile ↔ r = Record.endOfFile := by
  cases r <;> simp [Record.outline]

theorem mem_map_outline_iff (records : List Record) :
    Record.endOfFile ∈ records.map Record.outline ↔ Record.endOfFile ∈ records := by
  simp [List.mem_map, outline_eq_endOfFile_iff]

/-- Listings of one outline are well formed alike. -/
theorem WellFormed.of_outline {l m : Listing} (hl : l.WellFormed) (h : m.outline = l.outline) :
    m.WellFormed := by
  refine ⟨fun r hr => ?_, ?_⟩
  · have hmem : r.outline ∈ l.outline := h ▸ List.mem_map_of_mem hr
    obtain ⟨s, hs, hsr⟩ := List.mem_map.1 hmem
    rw [← length_payload_outline, ← hsr, length_payload_outline]
    exact hl.payload_lt s hs
  · intro hend
    apply hl.endOfFile_last
    rw [← mem_map_outline_iff, List.map_dropLast] at hend ⊢
    rwa [show m.records.map Record.outline = l.records.map Record.outline from h] at hend

end Listing

end IntelHex

end FirmwareStamp
