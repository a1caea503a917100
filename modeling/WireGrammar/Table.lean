/-!
# Tables keyed by names

The entries of a table stand in ascending order of their names, so a table is determined by what it
holds under each name, and the order in which it was filled leaves no mark.

* `get?_alter`: altering a table touches the value under one name only;
* `ext_get?`: tables that hold the same under each name are equal.
-/

namespace WireGrammar

/-- A finite map from names. -/
structure Table (β : Type) where
  entries : List (String × β)
  ascending : entries.Pairwise fun a b => a.1 < b.1

namespace Table

variable {β : Type}

/-! ### Rows in ascending order -/

/-- The value under `key` among the rows of a table. -/
def lookupIn (key : String) : List (String × β) → Option β
  | [] => none
  | row :: rows => if key = row.1 then some row.2 else lookupIn key rows

/-- The rows after the value under `key` became `f` of what it was. -/
def alterIn (key : String) (f : Option β → β) : List (String × β) → List (String × β)
  | [] => [(key, f none)]
  | row :: rows =>
    if key < row.1 then (key, f none) :: row :: rows
    else if key = row.1 then (key, f (some row.2)) :: rows
    else row :: alterIn key f rows

theorem mem_alterIn {key : String} {f : Option β → β} {rows : List (String × β)}
    {row : String × β} (h : row ∈ alterIn key f rows) : row.1 = key ∨ row ∈ rows := by
  induction rows with
  | nil => simp [alterIn] at h; simp [h]
  | cons first rows ih =>
    rw [alterIn] at h
    split at h
    · rcases List.mem_cons.mp h with rfl | h
      · exact .inl rfl
      · exact .inr h
    · split at h
      · rcases List.mem_cons.mp h with rfl | h
        · exact .inl rfl
        · exact .inr (.tail _ h)
      · rcases List.mem_cons.mp h with rfl | h
        · exact .inr (.head _)
        · exact (ih h).imp id (.tail _)

theorem ascending_alterIn (key : String) (f : Option β → β) {rows : List (String × β)}
    (h : rows.Pairwise fun a b => a.1 < b.1) :
    (alterIn key f rows).Pairwise fun a b => a.1 < b.1 := by
  induction rows with
  | nil => simp [alterIn]
  | cons first rows ih =>
    have rest := List.pairwise_cons.mp h
    rw [alterIn]
    split
    · next lt =>
      refine List.pairwise_cons.mpr ⟨fun row hrow => ?_, h⟩
      rcases List.mem_cons.mp hrow with rfl | hrow
      · exact lt
      · exact String.lt_trans lt (rest.1 row hrow)
    · next notLt =>
      split
      · next eq => subst eq; exact List.pairwise_cons.mpr ⟨rest.1, rest.2⟩
      · next ne =>
        refine List.pairwise_cons.mpr ⟨fun row hrow => ?_, ih rest.2⟩
        rcases mem_alterIn hrow with rfl | hrow
        · rcases Std.lt_trichotomy row.1 first.1 with lt | eq | gt
          · exact absurd lt notLt
          · exact absurd eq ne
          · exact gt
        · exact rest.1 row hrow

theorem lookupIn_eq_none {key : String} {rows : List (String × β)}
    (h : ∀ row ∈ rows, key < row.1) : lookupIn key rows = none := by
  induction rows with
  | nil => rfl
  | cons first rows ih =>
    have lt := h first (.head _)
    have ne : key ≠ first.1 := fun eq => String.lt_irrefl _ (eq ▸ lt)
    rw [lookupIn, if_neg ne, ih fun row hrow => h row (.tail _ hrow)]

theorem lookupIn_alterIn (key other : String) (f : Option β → β) {rows : List (String × β)}
    (h : rows.Pairwise fun a b => a.1 < b.1) :
    lookupIn other (alterIn key f rows) =
      if other = key then some (f (lookupIn key rows)) else lookupIn other rows := by
  induction rows with
  | nil => simp [alterIn, lookupIn]
  | cons first rows ih =>
    have rest := List.pairwise_cons.mp h
    rw [alterIn]
    split
    · next lt =>
      have absent : lookupIn key (first :: rows) = none := by
        refine lookupIn_eq_none fun row hrow => ?_
        rcases List.mem_cons.mp hrow with rfl | hrow
        · exact lt
        · exact String.lt_trans lt (rest.1 row hrow)
      rw [absent, lookupIn]
    · split
      · next eq => subst eq; by_cases ho : other = first.1 <;> simp [lookupIn, ho]
      · next ne =>
        rw [lookupIn, ih rest.2]
        by_cases ho : other = first.1
        · have : ¬ other = key := fun eq => ne (eq ▸ ho)
          simp [lookupIn, ho]
          intro eq
          exact absurd eq.symm ne
        · simp [lookupIn, ho, ne]

/-! ### Tables -/

/-- The table without entries. -/
def empty : Table β := ⟨[], .nil⟩

instance : Inhabited (Table β) := ⟨empty⟩

/-- The value under a name. -/
def get? (t : Table β) (key : String) : Option β := lookupIn key t.entries

/-- The table after the value under `key` became `f` of what it was. -/
def alter (t : Table β) (key : String) (f : Option β → β) : Table β :=
  ⟨alterIn key f t.entries, ascending_alterIn key f t.ascending⟩

/-- How many names the table holds. -/
def size (t : Table β) : Nat := t.entries.length

/-- The table holds nothing. -/
def isEmpty (t : Table β) : Bool := t.entries.isEmpty

/-- The names of the table, in ascending order. -/
def keys (t : Table β) : List String := t.entries.map Prod.fst

@[simp] theorem get?_empty (key : String) : (empty : Table β).get? key = none := rfl

@[simp] theorem get?_alter (t : Table β) (key other : String) (f : Option β → β) :
    (t.alter key f).get? other = if other = key then some (f (t.get? key)) else t.get? other :=
  lookupIn_alterIn key other f t.ascending

/-- A table is determined by what it holds under each name. -/
theorem ext_get? {t u : Table β} (h : ∀ key, t.get? key = u.get? key) : t = u := by
  obtain ⟨as, ha⟩ := t
  obtain ⟨bs, hb⟩ := u
  have same : as = bs := by
    replace h : ∀ key, lookupIn key as = lookupIn key bs := h
    induction as generalizing bs with
    | nil =>
      cases bs with
      | nil => rfl
      | cons b bs => have := h b.1; simp [lookupIn] at this
    | cons a as ih =>
      have pa := List.pairwise_cons.mp ha
      cases bs with
      | nil => have := h a.1; simp [lookupIn] at this
      | cons b bs =>
        have pb := List.pairwise_cons.mp hb
        have key : a.1 = b.1 := by
          rcases Std.lt_trichotomy a.1 b.1 with lt | eq | gt
          · have absent : lookupIn a.1 (b :: bs) = none := by
              refine lookupIn_eq_none fun row hrow => ?_
              rcases List.mem_cons.mp hrow with rfl | hrow
              · exact lt
              · exact String.lt_trans lt (pb.1 row hrow)
            rw [← h, lookupIn] at absent
            simp at absent
          · exact eq
          · have absent : lookupIn b.1 (a :: as) = none := by
              refine lookupIn_eq_none fun row hrow => ?_
              rcases List.mem_cons.mp hrow with rfl | hrow
              · exact gt
              · exact String.lt_trans gt (pa.1 row hrow)
            rw [h, lookupIn] at absent
            simp at absent
        have value : a.2 = b.2 := by
          have := h a.1
          simpa [lookupIn, key] using this
        have rest : as = bs := by
          refine ih pa.2 bs pb.2 fun k => ?_
          have := h k
          rw [lookupIn, lookupIn] at this
          by_cases hk : k = b.1
          · subst hk
            rw [lookupIn_eq_none fun row hrow => key ▸ pa.1 row hrow, lookupIn_eq_none pb.1]
          · simpa [key, hk] using this
        rw [rest, Prod.ext key value]
  subst same
  rfl

/-- A name is a key of the table just when the table holds a value under it. -/
theorem mem_keys_iff (t : Table β) (key : String) : key ∈ t.keys ↔ (t.get? key).isSome := by
  obtain ⟨rows, h⟩ := t
  simp only [keys, get?]
  clear h
  induction rows with
  | nil => simp [lookupIn]
  | cons row rows ih =>
    by_cases hk : key = row.1 <;> simp_all [lookupIn]

end Table

end WireGrammar
