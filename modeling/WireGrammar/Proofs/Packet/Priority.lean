import Mathlib.Data.List.Perm.Basic
import WireGrammar.Packet.Catalog
import WireGrammar.Proofs.Attribute.Rendering
import WireGrammar.Proofs.Packet.Selection
import WireGrammar.Proofs.Packet.VersionOrder

/-!
# The order in which the grammars of a directory are tried

A set that was loaded from a directory has the grammar of every grammar file once, newer versions in
front of older ones.  Since the natural order tells identifiers apart by their tokens, this leaves
nothing open but the places of identifiers with the same tokens, which stand as the directory lists
them.  All this is true whatever reads the documents in the files.

* `grammarId?_eq_some_iff`: the names of grammar files;
* `loadDirectoryWith_eq_ok_iff`: which set a listing gives;
* `Descends`: no identifier is older than one behind it, and `forall₂_of_perm`: rows of the same
  grammars that descend differ in identifiers of one place in the order only;
* `loadDirectory_prioritizes`: the set that a listing gives, and what it comes to for packets.
-/

namespace WireGrammar

/-! ### Names of files -/

/-- A row of characters is cut at its first full stop. -/
theorem cut_iff (row ext : List Char) {stem : List Char} (named : stem ≠ []) :
    row.takeWhile (· != '.') = ext ∧ row.drop ((row.takeWhile (· != '.')).length + 1) = stem ↔
      '.' ∉ ext ∧ row = ext ++ '.' :: stem := by
  have whole := List.takeWhile_append_dropWhile (p := (· != '.')) (l := row)
  have behind : row.drop ((row.takeWhile (· != '.')).length + 1) =
      (row.dropWhile (· != '.')).tail := by
    calc row.drop ((row.takeWhile (· != '.')).length + 1)
        = (row.takeWhile (· != '.') ++ row.dropWhile (· != '.')).drop
            ((row.takeWhile (· != '.')).length + 1) := by rw [whole]
      _ = (row.dropWhile (· != '.')).tail := by rw [List.drop_length_add_append, List.drop_one]
  rw [behind]
  constructor
  · rintro ⟨rfl, rfl⟩
    have all := List.all_takeWhile (p := (· != '.')) (l := row)
    have first := List.head?_dropWhile_not (· != '.') row
    refine ⟨fun mem => ?_, whole.symm.trans ?_⟩
    · have passed := List.all_eq_true.mp all _ mem
      simp at passed
    · cases rest : row.dropWhile (· != '.') with
      | nil =>
        rw [rest] at named
        exact absurd rfl named
      | cons c cs =>
        rw [rest] at first
        obtain rfl : c = '.' := by simpa using first
        rfl
  · rintro ⟨before, rfl⟩
    have passed : ∀ c ∈ ext, (c != '.') = true := by
      intro c mem
      exact bne_iff_ne.mpr fun eq => before (eq ▸ mem)
    rw [List.takeWhile_append_of_pos passed, List.dropWhile_append_of_pos passed]
    simp

/-- A name has an extension just if it goes on behind its last full stop, which does not stand at
its front. -/
theorem splitExtension_eq_iff {name stem ext : String} :
    splitExtension name = (stem, some ext) ↔
      stem ≠ "" ∧ '.' ∉ ext.toList ∧ name = stem ++ "." ++ ext := by
  have joined : name = stem ++ "." ++ ext ↔
      name.toList.reverse = ext.toList.reverse ++ '.' :: stem.toList.reverse := by
    rw [← String.toList_inj, String.toList_append, String.toList_append, List.reverse_eq_iff]
    simp
  have cut : stem ≠ "" → _ := fun named => cut_iff name.toList.reverse ext.toList.reverse
    fun none => named (String.toList_eq_nil_iff.mp (List.reverse_eq_nil_iff.mp none))
  rw [List.mem_reverse, ← joined] at cut
  rw [and_congr_right fun named => (cut named).symm]
  unfold splitExtension
  dsimp only
  -- What stands behind the last full stop and in front of it, from the end to the beginning.
  generalize name.toList.reverse.takeWhile (· != '.') = last
  generalize name.toList.reverse.drop (last.length + 1) = front
  rw [List.isEmpty_reverse]
  cases front with
  | nil =>
    rw [List.isEmpty_nil, if_pos rfl, Prod.mk.injEq]
    constructor
    · rintro ⟨-, none⟩
      cases none
    · rintro ⟨named, -, nothing⟩
      exact absurd (String.toList_eq_nil_iff.mp (List.reverse_eq_nil_iff.mp nothing.symm)) named
  | cons c cs =>
    rw [List.isEmpty_cons, if_neg Bool.false_ne_true, Prod.mk.injEq, Option.some.injEq,
      ← String.toList_inj, ← String.toList_inj, String.toList_ofList, String.toList_ofList,
      List.reverse_eq_iff, List.reverse_eq_iff]
    constructor
    · rintro ⟨stems, rfl⟩
      refine ⟨?_, rfl, stems⟩
      rintro rfl
      cases stems
    · rintro ⟨-, rfl, stems⟩
      exact ⟨stems, rfl⟩

/-- The file names of grammars. -/
theorem grammarId?_eq_some_iff {name id : String} :
    grammarId? name = some id ↔ id ≠ "" ∧ (name = id ++ ".yaml" ∨ name = id ++ ".yml") := by
  have yaml : splitExtension name = (id, some "yaml") ↔ id ≠ "" ∧ name = id ++ ".yaml" := by
    rw [splitExtension_eq_iff, String.append_assoc]
    simp
  have yml : splitExtension name = (id, some "yml") ↔ id ≠ "" ∧ name = id ++ ".yml" := by
    rw [splitExtension_eq_iff, String.append_assoc]
    simp
  rw [and_or_left, ← yaml, ← yml]
  unfold grammarId?
  split <;> simp_all

/-! ### Loading -/

namespace DirectoryEntry

/-- The name of the item is the identifier with one of the extensions of grammar files. -/
def Names (entry : DirectoryEntry) (id : String) : Prop :=
  id ≠ "" ∧ (entry.name? = some (id ++ ".yaml") ∨ entry.name? = some (id ++ ".yml"))

/-- The item is a regular file with the name of a grammar. -/
def IsGrammarFile (entry : DirectoryEntry) : Prop :=
  entry.text?.isSome ∧ ∃ id, entry.Names id

/-- The item is the file of the grammar, under its identifier. -/
def Holds (read : Yaml.Reader) (entry : DirectoryEntry) (loaded : String × Grammar) : Prop :=
  entry.Names loaded.1 ∧ ∃ text, entry.text? = some (.ok text) ∧
    Grammar.parseWith read text = .ok loaded.2

theorem names_iff {entry : DirectoryEntry} {id : String} :
    entry.Names id ↔ entry.name?.bind grammarId? = some id := by
  rw [Names]
  cases entry.name? with
  | none => simp
  | some name => simp [grammarId?_eq_some_iff]

instance : DecidablePred IsGrammarFile := fun entry =>
  decidable_of_iff (entry.text?.isSome ∧ (entry.name?.bind grammarId?).isSome) <| by
    simp only [IsGrammarFile, names_iff, Option.isSome_iff_exists]

end DirectoryEntry

namespace GrammarSet

variable {read : Yaml.Reader} {directory : String} {entry : DirectoryEntry}
  {entries : List DirectoryEntry} {loaded : List (String × Grammar)} {gs : GrammarSet}

theorem loadWith_eq_ok_iff {text : Except FileError String} {g : Grammar} :
    Grammar.loadWith read text = .ok g ↔
      ∃ t, text = .ok t ∧ Grammar.parseWith read t = .ok g := by
  cases text <;> simp [Grammar.loadWith]

/-- What is no grammar file is passed by. -/
theorem loadEntry_of_other (other : ¬entry.IsGrammarFile) :
    loadEntry read directory entry = .ok none := by
  simp only [DirectoryEntry.IsGrammarFile, DirectoryEntry.names_iff] at other
  rw [loadEntry]
  cases regular : entry.text? with
  | none => rfl
  | some text =>
    cases there : entry.name? with
    | none => rfl
    | some name =>
      cases identifier : grammarId? name with
      | none => simp only [identifier]
      | some id =>
        refine absurd ⟨?_, id, ?_⟩ other
        · rw [regular, Option.isSome_some]
        · rw [there, Option.bind_some, identifier]

/-- A grammar file gives the grammar that it holds. -/
theorem loadEntry_of_file (file : entry.IsGrammarFile) {result : Option (String × Grammar)} :
    loadEntry read directory entry = .ok result ↔ ∃ p, result = some p ∧ entry.Holds read p := by
  simp only [DirectoryEntry.IsGrammarFile, DirectoryEntry.Holds, DirectoryEntry.names_iff]
    at file ⊢
  obtain ⟨regular, id, named⟩ := file
  obtain ⟨text, regular⟩ := Option.isSome_iff_exists.mp regular
  obtain ⟨name, there, identifier⟩ := Option.bind_eq_some_iff.mp named
  rw [loadEntry, regular, there]
  simp only [identifier, Option.bind_some, Option.some.injEq]
  cases load : Grammar.loadWith read text with
  | error e =>
    simp only [reduceCtorEq, false_iff]
    rintro ⟨p, -, -, t, rfl, parsed⟩
    rw [loadWith_eq_ok_iff.mpr ⟨t, rfl, parsed⟩] at load
    cases load
  | ok g =>
    obtain ⟨t, rfl, parsed⟩ := loadWith_eq_ok_iff.mp load
    constructor
    · intro eq
      cases eq
      exact ⟨(id, g), rfl, rfl, t, rfl, parsed⟩
    · rintro ⟨⟨id', g'⟩, rfl, rfl, t', same, parsed'⟩
      cases same
      cases parsed.symm.trans parsed'
      rfl

/-- Item by item, a listing gives the grammars that its grammar files hold. -/
theorem forall₂_loadEntry (directory : String) :
    (∃ results, List.Forall₂ (fun entry result => loadEntry read directory entry = .ok result)
      entries results ∧ results.filterMap id = loaded) ↔
      List.Forall₂ (DirectoryEntry.Holds read) (entries.filter (·.IsGrammarFile)) loaded := by
  induction entries generalizing loaded with
  | nil =>
    simp only [List.forall₂_nil_left_iff, List.filter_nil]
    constructor
    · rintro ⟨results, rfl, rfl⟩
      rfl
    · rintro rfl
      exact ⟨[], rfl, rfl⟩
  | cons entry entries ih =>
    simp only [List.forall₂_cons_left_iff]
    by_cases file : entry.IsGrammarFile
    · rw [List.filter_cons_of_pos (by simpa using file), List.forall₂_cons_left_iff]
      constructor
      · rintro ⟨results, ⟨result, others, first, rest, rfl⟩, rfl⟩
        obtain ⟨p, rfl, holds⟩ := (loadEntry_of_file file).mp first
        exact ⟨p, _, holds, ih.mp ⟨others, rest, rfl⟩, rfl⟩
      · rintro ⟨p, loaded, holds, rest, rfl⟩
        obtain ⟨others, answers, rfl⟩ := ih.mpr rest
        have first : loadEntry read directory entry = .ok (some p) :=
          (loadEntry_of_file file).mpr ⟨p, rfl, holds⟩
        exact ⟨some p :: others, ⟨some p, others, first, answers, rfl⟩, rfl⟩
    · rw [List.filter_cons_of_neg (by simpa using file), ← ih]
      constructor
      · rintro ⟨results, ⟨result, others, first, rest, rfl⟩, rfl⟩
        cases (loadEntry_of_other file).symm.trans first
        exact ⟨others, rest, rfl⟩
      · rintro ⟨others, rest, rfl⟩
        exact ⟨none :: others, ⟨none, others, loadEntry_of_other file, rest, rfl⟩, rfl⟩

/-- A listing gives a set just if every grammar file of it holds a grammar, and then the set has the
grammars of these files, sorted. -/
theorem loadDirectoryWith_eq_ok_iff :
    loadDirectoryWith read directory (.ok entries) = .ok gs ↔
      ∃ loaded, List.Forall₂ (DirectoryEntry.Holds read) (entries.filter (·.IsGrammarFile)) loaded ∧
        gs.entries = loaded.mergeSort newestFirst := by
  obtain ⟨sorted⟩ := gs
  simp only [← forall₂_loadEntry directory, ← checked_mapM]
  unfold loadDirectoryWith
  dsimp only
  cases all : entries.mapM (loadEntry read directory) with
  | error e => simp
  | ok results => simp [eq_comm]

/-! ### Sorting -/

/-- No identifier is older than one behind it. -/
def Descends (entries : List (String × Grammar)) : Prop :=
  entries.Pairwise fun p q => (Version.order p.1 q.1).isGE

section Sorting

variable {ps qs : List (String × Grammar)}

theorem newestFirst_eq (p q : String × Grammar) :
    newestFirst p q = (Version.order p.1 q.1).isGE := by
  have turned : Version.order q.1 p.1 = (Version.order p.1 q.1).swap := Std.OrientedCmp.eq_swap
  rw [newestFirst, turned]
  cases Version.order p.1 q.1 <;> rfl

theorem newestFirst_trans (p q r : String × Grammar) (first : newestFirst p q)
    (second : newestFirst q r) : newestFirst p r := by
  rw [newestFirst_eq] at *
  exact Std.TransCmp.isGE_trans first second

theorem newestFirst_total (p q : String × Grammar) : newestFirst p q || newestFirst q p := by
  have turned : Version.order q.1 p.1 = (Version.order p.1 q.1).swap := Std.OrientedCmp.eq_swap
  rw [newestFirst_eq, newestFirst_eq, turned]
  cases Version.order p.1 q.1 <;> rfl

theorem descends_mergeSort (ps : List (String × Grammar)) :
    Descends (ps.mergeSort newestFirst) := by
  have sorted : (ps.mergeSort newestFirst).Pairwise fun p q => newestFirst p q :=
    List.pairwise_mergeSort newestFirst_trans newestFirst_total ps
  refine sorted.imp ?_
  intro p q
  rw [newestFirst_eq]
  exact id

theorem Descends.tokens (h : Descends ps) : (ps.map (Version.tokensOf ·.1)).Pairwise
    fun s t => (List.compareLex Version.Token.compare s t).isGE := by
  refine List.pairwise_map.mpr (h.imp ?_)
  intro p q
  rw [Version.order_eq]
  exact id

/-- Rows of the same grammars that descend differ in identifiers of one place in the order only. -/
theorem forall₂_of_perm (perm : ps.Perm qs) (h : Descends ps) (h' : Descends qs) :
    List.Forall₂ (fun p q => Version.order p.1 q.1 = .eq) ps qs := by
  have tokens : ps.map (Version.tokensOf ·.1) = qs.map (Version.tokensOf ·.1) := by
    refine List.Perm.eq_of_pairwise ?_ h.tokens h'.tokens (perm.map _)
    intro s t _ _ le ge
    exact Std.LawfulEqCmp.eq_of_compare (Std.OrientedCmp.isGE_antisymm le ge)
  simp only [Version.order_eq_eq_iff]
  rw [← List.forall₂_eq_eq_eq, List.forall₂_map_left_iff, List.forall₂_map_right_iff] at tokens
  exact tokens

/-- In a row that descends, an older identifier stands behind. -/
theorem Descends.lt_of_older (h : Descends ps) {i j : Nat} {p q : String × Grammar}
    (there : ps[i]? = some p) (there' : ps[j]? = some q)
    (older : Version.order q.1 p.1 = .lt) : i < j := by
  obtain ⟨inside, rfl⟩ := List.getElem?_eq_some_iff.mp there
  obtain ⟨inside', rfl⟩ := List.getElem?_eq_some_iff.mp there'
  by_contra behind
  rcases Nat.lt_or_eq_of_le (Nat.le_of_not_lt behind) with before | rfl
  · have ge := List.pairwise_iff_getElem.mp h j i inside' inside before
    rw [older] at ge
    cases ge
  · exact absurd (Std.ReflCmp.compare_self.symm.trans older) (by decide)

/-- In a row that descends, what is newer than one of its grammars stands in front of it. -/
theorem Descends.mem_front {front behind : List (String × Grammar)} {p q : String × Grammar}
    (h : Descends (front ++ q :: behind)) (mem : p ∈ front ++ q :: behind)
    (older : Version.order q.1 p.1 = .lt) : p ∈ front := by
  obtain ⟨i, inside, rfl⟩ := List.mem_iff_getElem.mp mem
  have before : i < front.length :=
    h.lt_of_older (List.getElem?_eq_getElem inside) (by simp) older
  rw [List.getElem_append_left before]
  exact List.getElem_mem before

/-- Sorting leaves grammars of one place in the order as they stand. -/
theorem pair_sublist_mergeSort {p q : String × Grammar} (alike : Version.order p.1 q.1 = .eq)
    (stand : [p, q].Sublist ps) : [p, q].Sublist (ps.mergeSort newestFirst) := by
  refine List.pair_sublist_mergeSort newestFirst_trans newestFirst_total ?_ stand
  rw [newestFirst_eq, alike]
  rfl

end Sorting

/-- The first grammar with an identifier. -/
theorem get?_eq_some_iff {id : String} {g : Grammar} :
    gs.get? id = some g ↔ ∃ front behind, gs.entries = front ++ (id, g) :: behind ∧
      ∀ p ∈ front, p.1 ≠ id := by
  rw [get?, Option.map_eq_some_iff]
  constructor
  · rintro ⟨⟨id', g'⟩, found, rfl⟩
    obtain ⟨own, front, behind, split, others⟩ := List.find?_eq_some_iff_append.mp found
    obtain rfl := beq_iff_eq.mp own
    refine ⟨front, behind, split, fun p mem => ?_⟩
    simpa using others p mem
  · rintro ⟨front, behind, split, others⟩
    have found : gs.entries.find? (·.1 == id) = some (id, g) := by
      refine List.find?_eq_some_iff_append.mpr ⟨beq_self_eq_true id, front, behind, split, ?_⟩
      intro p mem
      simpa using others p mem
    exact ⟨(id, g), found, rfl⟩

/-- A grammar that takes packets of one byte. -/
def byteGrammar : Except FileError String := .ok "top: [A]\nA:\n  - x: \x7blength: 8\x7d\n"

/-- A directory with three grammars, another file, a directory and a file with no name in text. -/
def drafts : List DirectoryEntry :=
  [⟨some "draft-9.yaml", some byteGrammar⟩, ⟨some "notes.txt", some (.ok "")⟩,
    ⟨some "draft-10.yml", some byteGrammar⟩, ⟨none, some byteGrammar⟩, ⟨some "old.yaml", none⟩,
    ⟨some "draft-08.yaml", some byteGrammar⟩]

/-- Documents may be read by whatever reader.  A set that is loaded from a directory has one entry
for each grammar file that is listed, which is its identifier and the grammar in it, and no other
entries; identifiers of one place in the order stay as they were listed.  No identifier is older
than one behind it, and an identifier stands for the first grammar under it.  Listed in another
order, the same files give the same row of entries but for the order among identifiers of one place.
So what is strictly older stands behind, and the grammars that are newer than the one that decodes a
packet were tried before it and do not fit. -/
theorem loadDirectory_prioritizes
    (loads : loadDirectoryWith read directory (.ok entries) = .ok gs) :
    (∃ loaded, List.Forall₂ (DirectoryEntry.Holds read) (entries.filter (·.IsGrammarFile)) loaded ∧
      gs.entries.Perm loaded ∧ ∀ p q, Version.order p.1 q.1 = .eq → [p, q].Sublist loaded →
        [p, q].Sublist gs.entries) ∧
    Descends gs.entries ∧
    (∀ id g, gs.get? id = some g ↔ ∃ front behind, gs.entries = front ++ (id, g) :: behind ∧
      ∀ p ∈ front, p.1 ≠ id) ∧
    (∀ relisted, relisted.Perm entries → ∃ gs',
      loadDirectoryWith read directory (.ok relisted) = .ok gs' ∧ gs'.entries.Perm gs.entries ∧
      List.Forall₂ (fun p q => Version.order p.1 q.1 = .eq) gs'.entries gs.entries) ∧
    (∀ (i j : Nat) (p q : String × Grammar), gs.entries[i]? = some p → gs.entries[j]? = some q →
      Version.order q.1 p.1 = .lt → i < j) ∧
    ∀ o packet ctx d after, dissect gs o packet ctx = (.ok d, after) →
      ∃ front g behind, gs.entries = front ++ (d.grammar, g) :: behind ∧
        (∀ p ∈ front, ∃ cause, parseTopLevel p.2 o packet ctx = (.error cause, ctx)) ∧
        parseTopLevel g o packet ctx = (.ok d.tree, after) ∧
        ∀ p ∈ gs.entries, Version.order d.grammar p.1 = .lt → p ∈ front := by
  obtain ⟨loaded, holds, sorted⟩ := loadDirectoryWith_eq_ok_iff.mp loads
  have perm : gs.entries.Perm loaded := sorted ▸ List.mergeSort_perm loaded newestFirst
  have descends : Descends gs.entries := sorted ▸ descends_mergeSort loaded
  refine ⟨⟨loaded, holds, perm, ?_⟩, descends, fun id g => get?_eq_some_iff, ?_,
    fun i j p q => descends.lt_of_older, ?_⟩
  · intro p q alike stand
    rw [sorted]
    exact pair_sublist_mergeSort alike stand
  · intro relisted same
    obtain ⟨loaded', holds', perm'⟩ := List.perm_comp_forall₂ (same.filter _) holds
    have again : (loaded'.mergeSort newestFirst).Perm gs.entries :=
      (List.mergeSort_perm loaded' newestFirst).trans (perm'.trans perm.symm)
    exact ⟨⟨loaded'.mergeSort newestFirst⟩,
      loadDirectoryWith_eq_ok_iff.mpr ⟨loaded', holds', rfl⟩, again,
      forall₂_of_perm again (descends_mergeSort loaded') descends⟩
  · intro o packet ctx d after ok
    obtain ⟨front, g, behind, split, refused, takes⟩ := firstGrammar_eq_ok ok
    refine ⟨front, g, behind, split, refused, takes, fun p mem older => ?_⟩
    rw [split] at descends mem
    exact descends.mem_front mem older

theorem loadDirectory_prioritizes_drafts :
    ∃ gs, loadDirectory "versions" (.ok drafts) = .ok gs ∧
      gs.ids = ["draft-10", "draft-9", "draft-08"] ∧ Descends gs.entries := by
  have listed : ((drafts.mapM (loadEntry Yaml.Node.read "versions")).toOption.map fun results =>
      (results.filterMap id).map Prod.fst) = some ["draft-9", "draft-10", "draft-08"] := by
    decide +kernel
  cases all : drafts.mapM (loadEntry Yaml.Node.read "versions") with
  | error e =>
    rw [all] at listed
    cases listed
  | ok results =>
    rw [all] at listed
    have ids : (results.filterMap id).map Prod.fst = ["draft-9", "draft-10", "draft-08"] :=
      Option.some.inj listed
    have loads : loadDirectory "versions" (.ok drafts) =
        .ok ⟨(results.filterMap id).mergeSort newestFirst⟩ := by
      rw [loadDirectory, loadDirectoryWith]
      simp only [all]
    refine ⟨_, loads, ?_, (loadDirectory_prioritizes loads).2.1⟩
    have ten : Version.order "draft-10" "draft-9" = .gt := by decide +kernel
    have eight : Version.order "draft-08" "draft-9" = .lt := by decide +kernel
    have eight' : Version.order "draft-08" "draft-10" = .lt := by decide +kernel
    have sorted : ((results.filterMap id).mergeSort newestFirst).map Prod.fst =
        ((results.filterMap id).map Prod.fst).mergeSort fun a b => Version.order b a != .gt :=
      List.map_mergeSort fun _ _ _ _ => rfl
    rw [ids] at sorted
    refine sorted.trans ?_
    simp [List.mergeSort, List.MergeSort.Internal.splitInTwo, ten, eight, eight']

end GrammarSet

end WireGrammar
