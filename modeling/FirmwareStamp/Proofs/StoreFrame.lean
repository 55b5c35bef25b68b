import FirmwareStamp.Store

/-!
# What new contents of a file leave alone

Where paths lead depends on which places hold files and which hold directories (`SameTree`), never
on what the files hold, so replacing the contents of a file changes what is read there and moves
nothing:

    s.file p = .ok (loc, b) → (s.replace loc new).file p = .ok (loc, new)       (file_replace_self)
    s.node? loc = some (.file b) → s.SameTree (s.replace loc new)               (sameTree_replace)
-/

namespace FirmwareStamp

def Node.isDirectory : Node → Bool
  | .file _ => false
  | .directory => true

namespace Store

/-- Whether two stores have files in the same places, and directories in the same places. -/
def SameTree (s t : Store) : Prop :=
  ∀ loc, (s.node? loc).map Node.isDirectory = (t.node? loc).map Node.isDirectory

/-- Whether two paths do not lead to one file. -/
def Apart (s : Store) (p q : String) : Prop :=
  ∀ loc b c, s.file p = .ok (loc, b) → s.file q ≠ .ok (loc, c)

/-! ## Where paths lead -/

theorem head?_foldl_step {l rest : List String} {name : String}
    (h : (l.dropWhile fun n => n = "" ∨ n = ".") = name :: rest) (hup : name ≠ "..")
    (here : Location) : (l.reverse.foldl Location.step here).head? = some name := by
  induction l with
  | nil => contradiction
  | cons n l ih =>
    rw [List.reverse_cons, List.foldl_append, List.foldl_cons, List.foldl_nil, Location.step]
    by_cases hn : n = "" ∨ n = "."
    · rw [List.dropWhile_cons_of_pos (by simpa using hn)] at h
      rw [if_pos hn]
      exact ih h
    · rw [List.dropWhile_cons_of_neg (by simpa using hn)] at h
      injection h with h
      subst h
      rw [if_neg hn, if_neg hup]
      rfl

/-- A path leads to a place of its file name. -/
theorem head?_ofPath {path name : String} (h : Path.fileName? path = some name) :
    (Location.ofPath path).head? = some name := by
  unfold Path.fileName? at h
  split at h
  · contradiction
  · next last before hdrop =>
    split at h
    · contradiction
    · next hup =>
      injection h with h
      subst h
      have hhead := head?_foldl_step hdrop hup (Location.origin path)
      rwa [List.reverse_reverse] at hhead

namespace SameTree

variable {s t u : Store}

theorem refl (s : Store) : s.SameTree s := fun _ => rfl

theorem symm (h : s.SameTree t) : t.SameTree s := fun loc => (h loc).symm

theorem trans (h : s.SameTree t) (k : t.SameTree u) : s.SameTree u := fun loc =>
  (h loc).trans (k loc)

theorem of_node?_eq (h : s.node? = t.node?) : s.SameTree t := fun loc => by rw [h]

theorem walk_eq (h : s.SameTree t) (here : Location) (names : List String) :
    s.walk here names = t.walk here names := by
  induction names generalizing here with
  | nil => rfl
  | cons name rest ih =>
    have hhere := h here
    simp only [walk]
    cases hs : s.node? here with
    | none =>
      cases ht : t.node? here with
      | none => rfl
      | some node => simp [hs, ht] at hhere
    | some node =>
      cases ht : t.node? here with
      | none => simp [hs, ht] at hhere
      | some other =>
        cases node <;> cases other <;> simp [hs, ht, Node.isDirectory] at hhere ⊢
        exact ih _

theorem locate_eq (h : s.SameTree t) (path : String) : s.locate path = t.locate path := by
  unfold locate
  rw [h.walk_eq]

theorem leadsTo_eq (h : s.SameTree t) (path : String) : s.leadsTo path = t.leadsTo path := by
  unfold leadsTo
  rw [h.locate_eq]
  cases t.locate path with
  | error fault => rfl
  | ok loc =>
    have := congrArg Option.isSome (h loc)
    simpa using this

/-- Stores of one tree differ only in what files hold. -/
theorem node?_eq (h : s.SameTree t) {loc : Location}
    (hfile : ∀ b, s.node? loc = some (.file b) → t.node? loc = some (.file b)) :
    t.node? loc = s.node? loc := by
  have hloc := h loc
  cases hs : s.node? loc with
  | none =>
    rw [hs] at hloc
    exact Option.map_eq_none_iff.1 hloc.symm
  | some node =>
    cases node with
    | file b => exact hfile b hs
    | directory =>
      rw [hs] at hloc
      obtain ⟨other, hother, hdirectory⟩ := Option.map_eq_some_iff.1 hloc.symm
      cases other with
      | file b => contradiction
      | directory => exact hother

end SameTree

/-! ## What files hold -/

theorem file_eq_ok_iff {s : Store} {path : String} {loc : Location} {b : Bytes} :
    s.file path = .ok (loc, b) ↔ s.locate path = .ok loc ∧ s.node? loc = some (.file b) := by
  unfold file
  cases s.locate path with
  | error fault => simp [bind, Except.bind]
  | ok l =>
    simp only [bind, Except.bind]
    split
    · next hnone =>
      constructor
      · intro h
        contradiction
      · rintro ⟨⟨⟩, h⟩
        rw [hnone] at h
        cases h
    · next hdirectory =>
      constructor
      · intro h
        contradiction
      · rintro ⟨⟨⟩, h⟩
        rw [hdirectory] at h
        cases h
    · next contents hfile =>
      constructor
      · rintro ⟨⟩
        exact ⟨rfl, hfile⟩
      · rintro ⟨⟨⟩, h⟩
        rw [hfile] at h
        cases h
        rfl

theorem leadsTo_of_file {s : Store} {path : String} {loc : Location} {b : Bytes}
    (h : s.file path = .ok (loc, b)) : s.leadsTo path = true := by
  obtain ⟨hlocate, hnode⟩ := file_eq_ok_iff.1 h
  unfold leadsTo
  rw [hlocate]
  dsimp only
  rw [hnode]
  rfl

theorem file_congr {s t : Store} (h : s.node? = t.node?) (path : String) :
    s.file path = t.file path := by
  unfold file
  rw [(SameTree.of_node?_eq h).locate_eq, h]

/-- What holds a file in one of two stores holds one in the other. -/
theorem SameTree.exists_file {s t : Store} (h : s.SameTree t) {path : String} {loc : Location}
    {b : Bytes} (hfile : s.file path = .ok (loc, b)) : ∃ c, t.file path = .ok (loc, c) := by
  obtain ⟨hlocate, hnode⟩ := file_eq_ok_iff.1 hfile
  have hloc := h loc
  rw [hnode] at hloc
  cases ht : t.node? loc with
  | none => simp [ht] at hloc
  | some node =>
    cases node with
    | directory => simp [ht, Node.isDirectory] at hloc
    | file c => exact ⟨c, file_eq_ok_iff.2 ⟨by rw [← h.locate_eq, hlocate], ht⟩⟩

namespace Apart

variable {s t : Store} {p q : String}

theorem symm (h : s.Apart p q) : s.Apart q p := fun loc b c hq hp => h loc c b hp hq

theorem of_sameTree (h : s.Apart p q) (htree : s.SameTree t) : t.Apart p q := by
  intro loc b c hp hq
  obtain ⟨b', hp'⟩ := htree.symm.exists_file hp
  obtain ⟨c', hq'⟩ := htree.symm.exists_file hq
  exact h loc b' c' hp' hq'

/-- Paths that do not lead to one place do not lead to one file. -/
theorem of_locate_ne (h : s.locate p ≠ s.locate q) : s.Apart p q := by
  intro loc b c hp hq
  apply h
  rw [(file_eq_ok_iff.1 hp).1, (file_eq_ok_iff.1 hq).1]

end Apart

theorem sameTree_replace {s : Store} {loc : Location} {old : Bytes}
    (h : s.node? loc = some (.file old)) (new : Bytes) : s.SameTree (s.replace loc new) := by
  intro l
  rw [node?_replace h]
  by_cases hl : l = loc
  · rw [if_pos hl, hl, h]
    rfl
  · rw [if_neg hl]

/-- What was put into a file is read from it. -/
theorem file_replace_self {s : Store} {path : String} {loc : Location} {b : Bytes}
    (h : s.file path = .ok (loc, b)) (new : Bytes) :
    (s.replace loc new).file path = .ok (loc, new) := by
  obtain ⟨hlocate, hnode⟩ := file_eq_ok_iff.1 h
  rw [file_eq_ok_iff, ← (sameTree_replace hnode new).locate_eq, node?_replace hnode, if_pos rfl]
  exact ⟨hlocate, rfl⟩

/-- Putting into a file what it holds changes nothing. -/
theorem node?_replace_self {s : Store} {loc : Location} {b : Bytes}
    (h : s.node? loc = some (.file b)) : (s.replace loc b).node? = s.node? := by
  funext l
  rw [node?_replace h]
  by_cases hl : l = loc
  · rw [if_pos hl, hl, h]
  · rw [if_neg hl]

end Store

end FirmwareStamp
