import FirmwareStamp.Proofs.Invariant
import FirmwareStamp.Proofs.Rerun

/-!
# Stores after any history

Whatever is called and however the calls end, a store keeps its files and directories, executables
and raw binaries keep their length, and Intel HEX files keep the outline of their records
(`Store.Keeps`), as long as each file is taken for one format.  Calls that only read can be left out
of the history (`history_invariant`).

A rewritten Intel HEX file is read again by the next call; that its outline is still the first one
rests on what is written being read back.
-/

namespace FirmwareStamp

/-! ## What a file keeps -/

/-- Whether contents `new` are what contents `old` of a file of a format can become: of the same
length, or rendered from a listing with the outline of the one that was read. -/
def FileFormat.Keeps (format : FileFormat) (old new : Bytes) : Prop :=
  match format with
  | .intelHex => new = old ∨ ∃ (before after : IntelHex.Listing) (text newText : String),
      old.text? = some text ∧ IntelHex.Listing.parse text = .ok before ∧
      after.outline = before.outline ∧ after.render = .ok newText ∧ new = Bytes.ofText newText
  | .executable | .rawBinary => new.length = old.length

/-- Whether a store has the files and directories of another, and each file keeps what a file of
its format keeps. -/
structure Store.Keeps (kind : Location → FileFormat) (s s' : Store) : Prop where
  tree : s.SameTree s'
  file : ∀ loc old, s.node? loc = some (.file old) →
    ∃ new, s'.node? loc = some (.file new) ∧ (kind loc).Keeps old new

theorem listingOf_eq_ok_iff {path : String} {b : Bytes} {l : IntelHex.Listing} :
    listingOf path b = .ok l ↔
      ∃ text, b.text? = some text ∧ IntelHex.Listing.parse text = .ok l := by
  unfold listingOf
  cases b.text? with
  | none => simp
  | some text =>
    cases hparse : IntelHex.Listing.parse text with
    | error fault => simp [Except.mapError, hparse]
    | ok m => simp [hparse]

namespace FileFormat

variable {format : FileFormat} {path : String} {m : Magic} {id : BuildId} {a b c : Bytes}

theorem Keeps.refl (format : FileFormat) (b : Bytes) : format.Keeps b b := by
  cases format with
  | intelHex => exact .inl rfl
  | _ => exact rfl

theorem Keeps.trans (h : format.Keeps a b) (k : format.Keeps b c) : format.Keeps a c := by
  cases format with
  | intelHex =>
    rcases h with rfl | ⟨before, mid, text, midText, hread, hbefore, houtline, hmid, rfl⟩
    · exact k
    rcases k with rfl | ⟨again, after, text', newText, hread', hagain, houtline', hafter, rfl⟩
    · exact .inr ⟨before, mid, text, midText, hread, hbefore, houtline, hmid, rfl⟩
    -- what was rendered in between reads back as the listing it was rendered from
    rw [Bytes.text?_ofText] at hread'
    injection hread' with htext
    subst htext
    have hwell := (IntelHex.Listing.wellFormed_of_parse hbefore).of_outline houtline
    rw [IntelHex.Listing.parse_render hwell hmid] at hagain
    injection hagain with hagain
    subst hagain
    exact .inr ⟨before, after, text, newText, hread, hbefore, houtline'.trans houtline, hafter, rfl⟩
  | executable => exact Eq.trans k h
  | rawBinary => exact Eq.trans k h

/-- An ID written over value bytes changes no length and no outline. -/
theorem keeps_of_rewrites (h : format.Rewrites path m id a b) : format.Keeps a b := by
  have hbytes : ∀ offset, ∀ found : BuildId,
      a.slice offset placeholderLength = m.bytes ++ found.bytes →
      (a.overwrite (offset + Magic.length) id.bytes).length = a.length := by
    intro offset found hslice
    apply Bytes.length_overwrite
    rw [id.length_eq]
    exact Magic.le_length_of_slice hslice
  cases format with
  | intelHex =>
    obtain ⟨before, after, _, newText, hbefore, hwrite, hrender, rfl⟩ := h
    obtain ⟨text, hread, hparse⟩ := listingOf_eq_ok_iff.1 hbefore
    exact .inr ⟨before, after, text, newText, hread, hparse, IntelHex.Listing.outline_write? hwrite,
      hrender, rfl⟩
  | executable =>
    obtain ⟨offset, found, hslice, rfl⟩ := h
    exact hbytes offset found hslice
  | rawBinary =>
    obtain ⟨offset, found, hslice, rfl⟩ := h
    exact hbytes offset found hslice

end FileFormat

namespace Store

variable {kind : Location → FileFormat} {s s' s'' : Store}

theorem Keeps.refl (kind : Location → FileFormat) (s : Store) : s.Keeps kind s where
  tree := .refl s
  file _ old h := ⟨old, h, .refl _ old⟩

theorem Keeps.trans (h : s.Keeps kind s') (k : s'.Keeps kind s'') : s.Keeps kind s'' where
  tree := h.tree.trans k.tree
  file loc old hold := by
    obtain ⟨mid, hmid, hkept⟩ := h.file loc old hold
    obtain ⟨new, hnew, hkept'⟩ := k.file loc mid hmid
    exact ⟨new, hnew, hkept.trans hkept'⟩

theorem keeps_replace {path : String} {loc : Location} {old new : Bytes}
    (h : s.file path = .ok (loc, old)) (hkept : (kind loc).Keeps old new) :
    s.Keeps kind (s.replace loc new) := by
  obtain ⟨-, hnode⟩ := file_eq_ok_iff.1 h
  refine ⟨sameTree_replace hnode new, ?_⟩
  intro l b hb
  rw [node?_replace hnode]
  by_cases hl : l = loc
  · subst hl
    rw [hnode] at hb
    cases hb
    exact ⟨new, if_pos rfl, hkept⟩
  · exact ⟨b, by rwa [if_neg hl], .refl _ b⟩

/-- A file that is taken for its own format keeps what it must, whatever is written into it. -/
theorem keptAt_keeps {m : Magic} {path : String} {format : FileFormat}
    (hkind : ∀ loc b, s.file path = .ok (loc, b) → kind loc = format) :
    KeptAt (s.Keeps kind) m path format := by
  intro s' loc id old new hkept hfile hrewrites
  obtain ⟨first, hfirst⟩ := hkept.tree.symm.exists_file hfile
  rw [← hkind loc first hfirst] at hrewrites
  exact hkept.trans (keeps_replace hfile (FileFormat.keeps_of_rewrites hrewrites))

end Store

/-! ## Calls -/

/-- What can be done with a store. -/
inductive Call where
  | stamp (path : String) (siblings : List String) (d : Descriptor)
  /-- Stamps one file that is taken for a file of a format. -/
  | stampFile (t : Target) (format : FileFormat) (path : String) (id : BuildId)
  | verify (path : String) (siblings : List String) (d : Descriptor)
  | readId (t : Target) (path : String)
  | checkId (t : Target) (path : String) (id : BuildId)

namespace Call

/-- The call as a session, without its result. -/
def session : Call → Session Unit
  | stamp path siblings d => do let _ ← FirmwareStamp.stamp path siblings d
  | stampFile t format path id => do let _ ← t.stamp format path id
  | verify path siblings d => do let _ ← FirmwareStamp.verify path siblings d
  | readId t path => do let _ ← Session.lift (t.readId (← Session.store) path)
  | checkId t path id => do Session.lift (t.checkId (← Session.store) path id)

/-- Whether the call stamps anything. -/
def writes : Call → Bool
  | stamp .. | stampFile .. => true
  | verify .. | readId .. | checkId .. => false

/-- A path with the format its extension says, if it says one. -/
def use? (path : String) : Option (String × FileFormat) :=
  match FileFormat.ofPath path with
  | .ok format => some (path, format)
  | .error _ => none

/-- The files of the call, each with the format it is taken for. -/
def uses : Call → List (String × FileFormat)
  | stamp path siblings _ | verify path siblings _ =>
    (path, .executable) :: siblings.filterMap use?
  | stampFile _ format path _ => [(path, format)]
  | readId _ path | checkId _ path _ => (use? path).toList

/-- Whether the call takes every file there is in a store for one of its kind. -/
def FitsKinds (call : Call) (s : Store) (kind : Location → FileFormat) : Prop :=
  ∀ use ∈ call.uses, ∀ loc b, s.file use.1 = .ok (loc, b) → kind loc = use.2

instance (call : Call) (s : Store) (kind : Location → FileFormat) :
    Decidable (call.FitsKinds s kind) :=
  decidable_of_iff (∀ use ∈ call.uses, ∀ found ∈ (s.file use.1).toOption, kind found.1 = use.2) (by
    unfold FitsKinds
    refine forall₂_congr fun use _ => ?_
    cases s.file use.1 with
    | ok found => simp [Except.toOption, Prod.ext_iff]
    | error fault => simp [Except.toOption])

end Call

/-- The store after a session, however it ends. -/
def Session.storeAfter {α : Type} (x : Session α) (s : Store) : Store :=
  match x.run ⟨s, []⟩ with
  | .ok _ w => w.store
  | .error _ w => w.store

/-- The store after calls. -/
def history (s : Store) (calls : List Call) : Store :=
  calls.foldl (fun s call => call.session.storeAfter s) s

/-! ## One call -/

theorem Session.Maintains.storeAfter {α : Type} {x : Session α} {P : Store → Prop}
    (hx : x.Maintains P) {s : Store} (h : P s) : P (x.storeAfter s) := by
  unfold Session.storeAfter
  cases hrun : x.run ⟨s, []⟩ with
  | ok a w => exact hx.of_ok (w := ⟨s, []⟩) h hrun
  | error e w => exact hx.of_error (w := ⟨s, []⟩) h hrun

namespace Call

variable {call : Call} {s : Store} {kind : Location → FileFormat}

theorem maintains_of_not_writes (h : call.writes = false) (P : Store → Prop) :
    call.session.Maintains P := by
  have hpure : ∀ {α : Type} (a : α), (pure () : Session Unit).Maintains P :=
    fun _ => Session.maintains_pure ()
  cases call with
  | stamp => contradiction
  | stampFile => contradiction
  | verify path siblings d =>
    refine Session.Maintains.bind ?_ hpure
    exact Session.maintains_of_endsAs fun w => ⟨_, endsAs_verify path siblings d w⟩
  | readId t path => exact .store_bind fun s => .lift_bind fun id _ => hpure id
  | checkId t path id =>
    exact .store_bind fun s => Session.maintains_of_endsAs fun w => ⟨_, Session.endsAs_lift _⟩

/-- **One call** keeps what every history keeps. -/
theorem maintains_keeps (h : call.writes = true → call.FitsKinds s kind) :
    call.session.Maintains (s.Keeps kind) := by
  cases call with
  | stamp path siblings d =>
    have hfits := h rfl
    refine Session.Maintains.bind (maintains_stamp ?_ ?_) fun _ => Session.maintains_pure ()
    · exact Store.keptAt_keeps (hfits (path, .executable) List.mem_cons_self)
    · intro p hp format hformat
      have huse : use? p = some (p, format) := by
        unfold use?
        rw [hformat]
      exact Store.keptAt_keeps (hfits (p, format)
        (List.mem_cons_of_mem _ (List.mem_filterMap.2 ⟨p, hp, huse⟩)))
  | stampFile t format path id =>
    have hfits := h rfl
    refine Session.Maintains.bind (Target.maintains_stampFormat id ?_)
      fun _ => Session.maintains_pure ()
    exact Store.keptAt_keeps (hfits (path, format) List.mem_cons_self)
  | verify => exact maintains_of_not_writes rfl _
  | readId => exact maintains_of_not_writes rfl _
  | checkId => exact maintains_of_not_writes rfl _

end Call

/-! ## Histories -/

theorem keeps_history {s s' : Store} {kind : Location → FileFormat} {calls : List Call}
    (hkind : ∀ call ∈ calls, call.writes = true → call.FitsKinds s kind) (h : s.Keeps kind s') :
    s.Keeps kind (history s' calls) := by
  induction calls generalizing s' with
  | nil => exact h
  | cons call rest ih =>
    refine ih (fun c hc => hkind c (List.mem_cons_of_mem _ hc)) ?_
    exact (Call.maintains_keeps (hkind call List.mem_cons_self)).storeAfter h

/-- Calls that only read can be left out. -/
theorem history_filter_writes (s : Store) (calls : List Call) :
    history s (calls.filter (·.writes)) = history s calls := by
  induction calls generalizing s with
  | nil => rfl
  | cons call rest ih =>
    cases hwrites : call.writes with
    | true =>
      rw [List.filter_cons_of_pos hwrites]
      exact ih _
    | false =>
      rw [List.filter_cons_of_neg (by simp [hwrites]), ih]
      have hsame : call.session.storeAfter s = s :=
        (Call.maintains_of_not_writes hwrites (· = s)).storeAfter rfl
      unfold history
      rw [List.foldl_cons, hsame]

/-- **Any history.**  As long as each file is taken for one format, every store on the way has the
files of the first one, each of its length or its outline; and the files are what the calls that
stamp alone would leave. -/
theorem history_invariant {s : Store} {kind : Location → FileFormat} {calls : List Call}
    (hkind : ∀ call ∈ calls, call.writes = true → call.FitsKinds s kind) :
    (∀ done, done <+: calls → s.Keeps kind (history s done)) ∧
      history s calls = history s (calls.filter (·.writes)) := by
  refine ⟨?_, (history_filter_writes s calls).symm⟩
  intro done hdone
  exact keeps_history (fun call hcall => hkind call (hdone.subset hcall)) (.refl kind s)

/-- Calls on the sample build that stamp, read, pass over a file and fail. -/
def sampleCalls : List Call :=
  [.verify "a.elf" ["a.bin"] ⟨"id", .standard⟩,
    .stamp "a.elf" ["a.bin", "a.hex", "b.exe"] ⟨"id", .standard⟩,
    .readId sampleTarget "a.hex",
    .stampFile sampleTarget .intelHex "a.hex" Target.blankId,
    .checkId sampleTarget "a.bin" sampleId,
    .stampFile sampleTarget .rawBinary "b.bin" sampleId]

/-- What the files of the sample build are taken for. -/
def sampleKind (loc : Location) : FileFormat :=
  if loc = ["a.hex"] then .intelHex else if loc = ["a.bin"] then .rawBinary else .executable

theorem history_sampleCalls :
    (∀ call ∈ sampleCalls, call.writes = true → call.FitsKinds sampleBuild.store sampleKind) ∧
      (∀ done, done <+: sampleCalls →
        sampleBuild.store.Keeps sampleKind (history sampleBuild.store done)) ∧
      history sampleBuild.store sampleCalls =
        history sampleBuild.store (sampleCalls.filter (·.writes)) := by
  have hkind : ∀ call ∈ sampleCalls, call.writes = true →
      call.FitsKinds sampleBuild.store sampleKind := by
    decide +kernel
  exact ⟨hkind, history_invariant hkind⟩

end FirmwareStamp
