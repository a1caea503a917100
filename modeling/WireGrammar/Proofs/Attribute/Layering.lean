import Mathlib.Data.List.Nodup
import Mathlib.Data.List.Perm.Basic
import WireGrammar.Proofs.Attribute.Origin

/-!
# Attributes in layers

A field is decoded with three records of attributes laid over each other: its declaration, what the
context has for its name, and what is pending for it.  The order of the layers matters, but not
where one of them ends and the next begins.  So it makes no difference to a field whether what is
pending has been saved into the context, and contexts may be laid together in any grouping.

* `Layered`: merging in which the later record wins, as a monoid;
* `FieldAttributes.layered`, `AttributeTable.layered`: records and tables are merged so;
* `AttributeTable.foldl_mergeRow`: a table may be merged row by row in any order;
* `effective_of_saved`: a field does not see whether what is pending for it has been saved.
-/

namespace WireGrammar

/-- Merging is a monoid in which the later one wins. -/
structure Layered {α : Type} (merge : α → α → α) (bare : α) : Prop where
  assoc : ∀ a b c, merge (merge a b) c = merge a (merge b c)
  bare_merge : ∀ a, merge bare a = a
  merge_bare : ∀ a, merge a bare = a
  merge_self : ∀ a, merge a a = a
  /-- Of two that give the same, what the earlier one gives is hidden. -/
  covered : ∀ a b, merge (merge a b) a = merge b a

/-! ### Records -/

namespace FieldAttributes

theorem merge_assoc (a b c : FieldAttributes) : (a.merge b).merge c = a.merge (b.merge c) := by
  refine ext_get? fun kind => ?_
  simp only [get?_merge]
  cases c.get? kind <;> rfl

theorem get?_empty (kind : AttributeKind) : empty.get? kind = none := by
  cases kind <;> rfl

theorem empty_merge (a : FieldAttributes) : empty.merge a = a := by
  refine ext_get? fun kind => ?_
  rw [get?_merge, get?_empty]
  cases a.get? kind <;> rfl

theorem merge_empty (a : FieldAttributes) : a.merge empty = a := by
  refine ext_get? fun kind => ?_
  rw [get?_merge, get?_empty]
  rfl

theorem merge_merge_self (a b : FieldAttributes) : (a.merge b).merge a = b.merge a := by
  refine ext_get? fun kind => ?_
  simp only [get?_merge]
  cases given : a.get? kind with
  | some v => rfl
  | none => cases b.get? kind <;> rfl

theorem merge_self (a : FieldAttributes) : a.merge a = a := by
  have covered := merge_merge_self a empty
  rwa [merge_empty, empty_merge] at covered

/-- Records of attributes are laid over each other, attribute by attribute. -/
theorem layered : Layered merge empty where
  assoc := merge_assoc
  bare_merge := empty_merge
  merge_bare := merge_empty
  merge_self := merge_self
  covered := merge_merge_self

end FieldAttributes

/-! ### Tables -/

namespace AttributeTable

theorem merge_assoc (t u v : AttributeTable) : (t.merge u).merge v = t.merge (u.merge v) := by
  refine Table.ext_get? fun name => ?_
  simp only [get?_merge]
  cases v.get? name with
  | none => cases u.get? name <;> rfl
  | some c =>
    cases u.get? name with
    | none => simp only [Option.getD_none, FieldAttributes.empty_merge]
    | some b => simp only [Option.getD_some, FieldAttributes.merge_assoc]

theorem empty_merge (t : AttributeTable) : merge .empty t = t := by
  refine Table.ext_get? fun name => ?_
  rw [get?_merge, Table.get?_empty]
  cases t.get? name with
  | none => rfl
  | some a => exact congrArg some a.empty_merge

theorem merge_empty (t : AttributeTable) : t.merge .empty = t := rfl

theorem merge_merge_self (t u : AttributeTable) : (t.merge u).merge t = u.merge t := by
  refine Table.ext_get? fun name => ?_
  simp only [get?_merge]
  cases t.get? name with
  | none => cases u.get? name <;> simp only [Option.getD_none, FieldAttributes.empty_merge]
  | some a =>
    cases u.get? name with
    | none => simp only [Option.getD_some, Option.getD_none, FieldAttributes.merge_self,
        FieldAttributes.empty_merge]
    | some b => simp only [Option.getD_some, FieldAttributes.merge_merge_self]

theorem merge_self (t : AttributeTable) : t.merge t = t := by
  have covered := merge_merge_self t .empty
  rwa [merge_empty, empty_merge] at covered

/-- Tables are laid over each other, name by name. -/
theorem layered : Layered merge .empty where
  assoc := merge_assoc
  bare_merge := empty_merge
  merge_bare := merge_empty
  merge_self := merge_self
  covered := merge_merge_self

/-- Rows of different names do not get in each other's way. -/
theorem mergeRow_comm (t : AttributeTable) {row row' : String × FieldAttributes}
    (other : row.1 ≠ row'.1) :
    (t.mergeRow row).mergeRow row' = (t.mergeRow row').mergeRow row := by
  refine Table.ext_get? fun name => ?_
  simp only [get?_mergeRow, if_neg other, if_neg other.symm]
  by_cases first : name = row.1
  · have second : name ≠ row'.1 := fun second => other (first.symm.trans second)
    rw [if_neg second, if_pos first, if_pos first]
  · rw [if_neg first, if_neg first]

/-- A table is merged row by row, in any order. -/
theorem foldl_mergeRow (t : AttributeTable) {u : AttributeTable}
    {rows : List (String × FieldAttributes)} (perm : rows.Perm u.entries) :
    rows.foldl mergeRow t = t.merge u := by
  have distinct : (u.entries.map Prod.fst).Nodup := by
    refine List.pairwise_map.mpr (u.ascending.imp ?_)
    intro row row' lt same
    rw [same] at lt
    exact String.lt_irrefl _ lt
  refine perm.foldl_eq' (fun row mem row' mem' t => ?_) t
  by_cases same : row.1 = row'.1
  · rw [List.inj_on_of_nodup_map distinct (perm.mem_iff.mp mem) (perm.mem_iff.mp mem') same]
  · exact mergeRow_comm t same

end AttributeTable

/-! ### What is pending, saved or not -/

namespace Memory

theorem given_empty (field : String) : given .empty field = .empty := rfl

/-- What is pending is laid over the context, whether it has been saved there or not. -/
theorem effective_saved (f : FieldDescriptor) (pending ctx : AttributeTable) :
    effective ⟨.empty, ctx.merge pending⟩ f = effective ⟨pending, ctx⟩ f := by
  unfold effective
  rw [given_merge, given_empty, FieldAttributes.merge_empty, FieldAttributes.merge_assoc]

/-- The length of a field comes from an earlier one, whether that has been saved or not. -/
theorem dynamicLength_saved (f : FieldDescriptor) (pending ctx : AttributeTable) :
    dynamicLength ⟨.empty, ctx.merge pending⟩ f = dynamicLength ⟨pending, ctx⟩ f := by
  unfold dynamicLength
  rw [given_merge, given_empty]
  show ((given pending f.name).length <|> (given ctx f.name).length).isSome = _
  cases (given pending f.name).length <;> rfl

end Memory

/-- **A field does not see whether what is pending for it has been saved.**  It is decoded with the
same attributes, and its length comes from the same place, whether a table is pending or laid over
the context before.  For merging is a monoid in which the later one wins, of records and of tables:
so tables saved one behind the other are saved as one, a table saved twice as if it were saved once,
and in whatever order its rows come. -/
theorem effective_of_saved (f : FieldDescriptor) (pending later ctx : AttributeTable) :
    (Memory.effective ⟨.empty, ctx.merge pending⟩ f = Memory.effective ⟨pending, ctx⟩ f ∧
      Memory.dynamicLength ⟨.empty, ctx.merge pending⟩ f =
        Memory.dynamicLength ⟨pending, ctx⟩ f) ∧
    (Layered FieldAttributes.merge .empty ∧
      ∀ (a upper : FieldAttributes) (kind : AttributeKind),
        (a.merge upper).get? kind = (upper.get? kind <|> a.get? kind)) ∧
    Layered AttributeTable.merge .empty ∧
    (ctx.merge pending).merge later = ctx.merge (pending.merge later) ∧
    (ctx.merge pending).merge pending = ctx.merge pending ∧
    ∀ rows : List (String × FieldAttributes), rows.Perm pending.entries →
      rows.foldl AttributeTable.mergeRow ctx = ctx.merge pending := by
  refine ⟨⟨Memory.effective_saved f pending ctx, Memory.dynamicLength_saved f pending ctx⟩,
    ⟨FieldAttributes.layered, FieldAttributes.get?_merge⟩, AttributeTable.layered,
    AttributeTable.merge_assoc ctx pending later, ?_, ?_⟩
  · rw [AttributeTable.merge_assoc, AttributeTable.merge_self]
  · intro rows perm
    exact ctx.foldl_mergeRow perm

/-- A tail with a declared length and format. -/
def tailField : FieldDescriptor where
  name := "tail"
  attributes := { length := some (.bits 16), format := some .hex }
  repeated := false

/-- What is pending for the tail and for another field. -/
def tailPending : AttributeTable :=
  (AttributeTable.override .empty "tail" (.length (.bits 24))).override "size" (.byteLength 3)

/-- What an earlier packet has left for the tail. -/
def tailContext : StreamContext :=
  (AttributeTable.override .empty "tail" (.length .varint)).override "tail" (.format .ascii)

theorem effective_of_saved_tail :
    Memory.effective ⟨.empty, tailContext.merge tailPending⟩ tailField =
        { length := some (.bits 24), format := some .ascii } ∧
    Memory.effective ⟨.empty, tailContext.merge tailPending⟩ tailField =
        Memory.effective ⟨tailPending, tailContext⟩ tailField ∧
    Memory.dynamicLength ⟨.empty, tailContext.merge tailPending⟩ tailField = true ∧
    tailPending.entries.map Prod.fst = ["size", "tail"] ∧
    tailPending.entries.reverse.foldl AttributeTable.mergeRow tailContext =
      tailContext.merge tailPending := by
  obtain ⟨⟨same, dynamic⟩, -, -, -, -, anyOrder⟩ :=
    effective_of_saved tailField tailPending .empty tailContext
  exact ⟨by rw [same]; rfl, same, by rw [dynamic]; rfl, by decide,
    anyOrder _ (List.reverse_perm _)⟩

end WireGrammar
