import WireGrammar.Proofs.Attribute.Rendering

/-!
# What attributes are loaded as

Whatever the value of a document, an attribute that is loaded from it belongs to the attribute that
was asked for and can be described, and so can all values in the tables of its triggers.

* `Trigger.ofEntries_cons_eq_ok`, `TriggerRule.ofEntries_cons_eq_ok`,
  `TriggerRule.tableOfEntries_cons_eq_ok`: what one more entry of a mapping is loaded as;
* `AttributeValue.every_of_ofNode`: loaded attributes can be described.
-/

namespace WireGrammar

open Yaml (Node)

variable {apart : Bool}

/-! ### Scalars, tests and conditions -/

theorem natOfNode?_lt {n : Node} (proper : n.isProper apart = true) {k : Nat}
    (h : natOfNode? n = some k) : k < Word.size 64 := by
  obtain ⟨i, int, nat⟩ := Option.bind_eq_some_iff.mp h
  rw [← Node.isProper_untagged, Node.int?_eq_some_iff.mp int] at proper
  simp only [Node.isProper, Yaml.Number.isProper, decide_eq_true_eq] at proper
  split at nat
  · cases nat
    omega
  · cases nat

theorem Length.describable_of_ofNode {n : Node} (proper : n.isProper apart = true) {l : Length}
    (h : Length.ofNode n = .ok l) : l.describable = true := by
  unfold Length.ofNode at h
  split at h
  · next k _ nat =>
    cases h
    exact decide_eq_true (natOfNode?_lt proper nat)
  all_goals cases h
  all_goals rfl

/-- A loaded test can be described. -/
theorem ValueSpec.describable_of_ofNode {n : Node} (proper : n.isProper apart = true)
    {spec : ValueSpec} (h : ValueSpec.ofNode n = .ok spec) : spec.describable apart = true := by
  rcases ValueSpec.ofNode_eq_ok h with
    ⟨l, loaded, rfl⟩ | ⟨items, ls, rfl, loaded, rfl⟩ | ⟨entries, tests, rfl, loaded, rfl⟩
  · exact (Literal.ofNode_eq_ok.mp loaded).2
  · have fits := ((checked_mapM_of_inverse fun _ _ => Literal.ofNode_eq_ok).mp loaded).2
    exact List.all_eq_true.mpr fits
  · obtain ⟨written, fits⟩ := comparisons_eq_ok.mp loaded
    obtain ⟨-, keys, -⟩ := Node.isProper_mapping.mp proper
    refine ValueSpec.describable_ops.mpr ⟨fun set => ?_, fits⟩
    exact distinctKeys_comparisonEntries.mp (written ▸ keys set)

theorem Condition.describable_of_ofEntry {e : Node × Node} {cs : List Condition}
    (h : Condition.ofEntry e = .ok cs) : ∀ c ∈ cs, c.literal.describable = true := by
  unfold Condition.ofEntry at h
  split at h
  · cases h
  · split at h
    · cases h
    · obtain ⟨tests, loaded, done⟩ := checked_bind.mp h
      cases done
      exact List.forall_mem_map.mpr (comparisons_eq_ok.mp loaded).2

theorem Condition.describable_of_ofNode {n : Node} {cs : List Condition}
    (h : Condition.ofNode n = .ok cs) : ∀ c ∈ cs, c.literal.describable = true := by
  unfold Condition.ofNode at h
  split at h
  · cases h
  · obtain ⟨css, loaded, rfl⟩ := checked_map.mp h
    intro c mem
    obtain ⟨cs, own, mem⟩ := List.mem_flatten.mp mem
    obtain ⟨e, -, ofEntry⟩ := exists_of_checked_mapM loaded own
    exact Condition.describable_of_ofEntry ofEntry c mem

/-- A loaded attribute other than a list of triggers is of the kind that was asked for and can be
described. -/
theorem AttributeValue.describable_of_ofPlainNode {kind : AttributeKind} {n : Node}
    (proper : n.isProper apart = true) {v : AttributeValue}
    (h : AttributeValue.ofPlainNode kind n = .ok v) :
    v.kind = kind ∧ v.kind ≠ .triggers ∧ v.describable apart = true := by
  cases kind with
  | length =>
    obtain ⟨l, loaded, rfl⟩ := checked_map.mp h
    exact ⟨rfl, by simp [kind], Length.describable_of_ofNode proper loaded⟩
  | values =>
    obtain ⟨spec, loaded, rfl⟩ := checked_map.mp h
    exact ⟨rfl, by simp [kind], ValueSpec.describable_of_ofNode proper loaded⟩
  | parse =>
    cases named : n.text? with
    | none =>
      simp only [ofPlainNode, named] at h
      cases h
    | some target =>
      simp only [ofPlainNode, named] at h
      cases h
      exact ⟨rfl, by simp [kind], rfl⟩
  | conditions =>
    cases listed : n.sequence? with
    | none =>
      simp only [ofPlainNode, listed] at h
      cases h
    | some items =>
      simp only [ofPlainNode, listed] at h
      obtain ⟨css, loaded, rfl⟩ := checked_map.mp h
      refine ⟨rfl, by simp [kind], List.all_eq_true.mpr fun c mem => ?_⟩
      obtain ⟨cs, own, mem⟩ := List.mem_flatten.mp mem
      obtain ⟨item, -, ofNode⟩ := exists_of_checked_mapM loaded own
      exact Condition.describable_of_ofNode ofNode c mem
  | triggers => cases h
  | byteLength =>
    cases nat : natOfNode? n with
    | none =>
      simp only [ofPlainNode, nat] at h
      cases h
    | some bytes =>
      simp only [ofPlainNode, nat] at h
      cases h
      exact ⟨rfl, by simp [kind], decide_eq_true (natOfNode?_lt proper nat)⟩
  | format =>
    cases named : n.text? with
    | none =>
      simp only [ofPlainNode, named] at h
      cases h
    | some name =>
      cases known : Format.ofName? name with
      | none =>
        simp only [ofPlainNode, named, known] at h
        cases h
      | some f =>
        simp only [ofPlainNode, named, known] at h
        cases h
        exact ⟨rfl, by simp [kind], rfl⟩

theorem AttributeValue.every_of_ofPlainNode {kind : AttributeKind} {n : Node}
    (proper : n.isProper apart = true) {v : AttributeValue}
    (h : AttributeValue.ofPlainNode kind n = .ok v) :
    v.kind = kind ∧ v.every (·.describable apart) = true := by
  obtain ⟨same, plain, own⟩ := describable_of_ofPlainNode proper h
  rw [every_eq_self plain]
  exact ⟨same, own⟩

/-! ### Triggers -/

/-- Triggers are loaded from a list. -/
theorem AttributeValue.ofNode_triggers_eq_ok {v : AttributeValue} : (n : Node) →
    AttributeValue.ofNode .triggers n = .ok v → ∃ items ts, n.sequence? = some items ∧
      Trigger.ofItems items = .ok ts ∧ v = .triggers ts
  | .sequence items, h => by
    obtain ⟨ts, loaded, rfl⟩ := checked_map.mp h
    exact ⟨items, ts, rfl, loaded, rfl⟩
  | .tagged _ n, h => AttributeValue.ofNode_triggers_eq_ok n h
  | .null, h | .bool _, h | .number _, h | .text _, h | .mapping _, h => by cases h

/-- An item of a list of triggers is a mapping. -/
theorem Trigger.ofItem_eq_ok {shown : Node} {ts : List Trigger} : (n : Node) →
    Trigger.ofItem shown n = .ok ts → ∃ entries, n.mapping? = some entries ∧
      Trigger.ofEntries entries = .ok ts
  | .mapping entries, h => ⟨entries, rfl, h⟩
  | .tagged _ n, h => Trigger.ofItem_eq_ok n h
  | .null, h | .bool _, h | .number _, h | .text _, h | .sequence _, h => by cases h

/-- The actions of a trigger are a mapping. -/
theorem Trigger.ofActions_eq_ok {name : String} {t : Trigger} : (n : Node) →
    Trigger.ofActions name n = .ok t → ∃ entries rules, n.mapping? = some entries ∧
      TriggerRule.ofEntries entries = .ok rules ∧ t = .onField name rules
  | .mapping entries, h => by
    obtain ⟨rules, loaded, rfl⟩ := checked_map.mp h
    exact ⟨entries, rules, rfl, loaded, rfl⟩
  | .tagged _ n, h => Trigger.ofActions_eq_ok n h
  | .null, h | .bool _, h | .number _, h | .text _, h | .sequence _, h => by cases h

/-- One more item of a list of triggers is a mapping. -/
theorem Trigger.ofItems_cons_eq_ok {item : Node} {items : List Node} {ts : List Trigger}
    (h : Trigger.ofItems (item :: items) = .ok ts) :
    ∃ entries first more, item.mapping? = some entries ∧ Trigger.ofEntries entries = .ok first ∧
      Trigger.ofItems items = .ok more ∧ ts = first ++ more := by
  obtain ⟨first, loaded, rest⟩ := checked_bind.mp h
  obtain ⟨more, others, done⟩ := checked_bind.mp rest
  obtain ⟨entries, isMapping, loaded⟩ := Trigger.ofItem_eq_ok item loaded
  cases done
  exact ⟨entries, first, more, isMapping, loaded, others, rfl⟩

/-- One more entry of a mapping of triggers is the word for keeping changes, or names a target. -/
theorem Trigger.ofEntries_cons_eq_ok {target actions : Node} {entries : List (Node × Node)}
    {ts : List Trigger} (h : Trigger.ofEntries ((target, actions) :: entries) = .ok ts) :
    ∃ t more, ts = t :: more ∧ Trigger.ofEntries entries = .ok more ∧
      (t = .saveToContext ∨ ∃ name entries' rules, name ≠ saveToContextWord ∧
        actions.mapping? = some entries' ∧ TriggerRule.ofEntries entries' = .ok rules ∧
        t = .onField name rules) := by
  rw [Trigger.ofEntries] at h
  split at h
  · cases h
  · next name named =>
    split at h
    · obtain ⟨t, first, rest⟩ := checked_bind.mp h
      cases first
      obtain ⟨more, others, done⟩ := checked_bind.mp rest
      cases done
      exact ⟨_, more, rfl, others, .inl rfl⟩
    · next other =>
      obtain ⟨t, first, rest⟩ := checked_bind.mp h
      obtain ⟨entries', rules, isMapping, loaded, rfl⟩ := Trigger.ofActions_eq_ok actions first
      obtain ⟨more, others, done⟩ := checked_bind.mp rest
      cases done
      exact ⟨_, more, rfl, others, .inr ⟨name, entries', rules, other, isMapping, loaded, rfl⟩⟩

/-- One more entry of a mapping of rules names an attribute, and the word for setting it or a
table. -/
theorem TriggerRule.ofEntries_cons_eq_ok {key action : Node} {entries : List (Node × Node)}
    {rules : List TriggerRule} (h : TriggerRule.ofEntries ((key, action) :: entries) = .ok rules) :
    ∃ rule more, rules = rule :: more ∧ TriggerRule.ofEntries entries = .ok more ∧
      key.text? = some rule.kind.name ∧ (rule = .set rule.kind ∨ ∃ entries' table,
        action = .mapping entries' ∧ TriggerRule.tableOfEntries rule.kind entries' = .ok table ∧
        rule = .lookup rule.kind table) := by
  rw [TriggerRule.ofEntries] at h
  split at h
  · cases h
  · next kind named =>
    have key_eq : key.text? = some kind.name := by
      have word := AttributeKind.ofName?_eq_some.mp named
      have other : "" ≠ kind.name := by cases kind <;> decide
      cases text : key.text? with
      | some s => rw [← word, text, Option.getD_some]
      | none => exact absurd (by rwa [text] at word) other
    split at h
    · obtain ⟨rule, first, rest⟩ := checked_bind.mp h
      cases first
      obtain ⟨more, others, done⟩ := checked_bind.mp rest
      cases done
      exact ⟨_, more, rfl, others, key_eq, .inl rfl⟩
    · next entries' =>
      obtain ⟨rule, first, rest⟩ := checked_bind.mp h
      obtain ⟨table, loaded, rfl⟩ := checked_map.mp first
      obtain ⟨more, others, done⟩ := checked_bind.mp rest
      cases done
      exact ⟨_, more, rfl, others, key_eq, .inr ⟨entries', table, rfl, loaded, rfl⟩⟩
    · cases h

/-- One more entry of a table is a literal with a value. -/
theorem TriggerRule.tableOfEntries_cons_eq_ok {kind : AttributeKind} {key value : Node}
    {entries : List (Node × Node)} {table : List (Literal × AttributeValue)}
    (h : TriggerRule.tableOfEntries kind ((key, value) :: entries) = .ok table) :
    ∃ literal v more, table = (literal, v) :: more ∧
      TriggerRule.tableOfEntries kind entries = .ok more ∧
      Literal.ofNode key = .ok literal ∧ AttributeValue.ofNode kind value = .ok v := by
  rw [TriggerRule.tableOfEntries] at h
  obtain ⟨literal, first, rest⟩ := checked_bind.mp h
  obtain ⟨v, second, rest⟩ := checked_bind.mp rest
  obtain ⟨more, others, done⟩ := checked_bind.mp rest
  cases done
  exact ⟨literal, v, more, rfl, others, first, second⟩

mutual

/-- A loaded attribute is of the kind that was asked for and can be described, and so can all values
in the tables of its triggers. -/
theorem AttributeValue.every_of_ofNode (kind : AttributeKind) (n : Node)
    (proper : n.isProper apart = true) {v : AttributeValue}
    (h : AttributeValue.ofNode kind n = .ok v) :
    v.kind = kind ∧ v.every (·.describable apart) = true := by
  by_cases isTriggers : kind = .triggers
  · subst isTriggers
    obtain ⟨items, ts, isList, loaded, rfl⟩ := AttributeValue.ofNode_triggers_eq_ok n h
    have smaller := Node.sizeOf_lt_of_sequence? isList
    have items' := Node.properItems_of_sequence? proper isList
    exact ⟨rfl, Trigger.every_of_ofItems items items' loaded⟩
  · rw [AttributeValue.ofNode_of_ne_triggers isTriggers] at h
    exact AttributeValue.every_of_ofPlainNode proper h
termination_by sizeOf n

/-- Loaded triggers can be described. -/
theorem Trigger.every_of_ofItems : (items : List Node) →
    (∀ item ∈ items, item.isProper apart = true) →
    ∀ {ts}, Trigger.ofItems items = .ok ts →
    (AttributeValue.triggers ts).every (·.describable apart) = true
  | [], _, ts, h => by
    cases h
    rfl
  | item :: items, proper, ts, h => by
    obtain ⟨own, others⟩ := List.forall_mem_cons.mp proper
    obtain ⟨entries, first, more, isMapping, loaded, loaded', rfl⟩ :=
      Trigger.ofItems_cons_eq_ok h
    have smaller := Node.sizeOf_lt_of_mapping? isMapping
    obtain ⟨-, -, own⟩ := Node.isProper_of_mapping? own isMapping
    exact (AttributeValue.every_triggers_append fun _ => rfl).mpr
      ⟨Trigger.every_of_ofEntries entries own loaded,
        Trigger.every_of_ofItems items others loaded'⟩
termination_by items => sizeOf items

/-- The triggers of one mapping can be described. -/
theorem Trigger.every_of_ofEntries : (entries : List (Node × Node)) →
    Node.properEntries apart entries = true → ∀ {ts}, Trigger.ofEntries entries = .ok ts →
    (AttributeValue.triggers ts).every (·.describable apart) = true
  | [], _, ts, h => by
    cases h
    rfl
  | (target, actions) :: entries, proper, ts, h => by
    obtain ⟨own, others⟩ := Bool.and_eq_true_iff.mp proper
    obtain ⟨t, more, rfl, loaded', first⟩ := Trigger.ofEntries_cons_eq_ok h
    have rest := Trigger.every_of_ofEntries entries others loaded'
    rcases first with rfl | ⟨name, entries', rules, other, isMapping, loaded, rfl⟩
    · exact (AttributeValue.every_triggers_cons fun _ => rfl).mpr ⟨rfl, rfl, rest⟩
    · have smaller := Node.sizeOf_lt_of_mapping? isMapping
      obtain ⟨-, keys, proper'⟩ :=
        Node.isProper_of_mapping? (Bool.and_eq_true_iff.mp own).2 isMapping
      obtain ⟨written, good, tables⟩ := TriggerRule.every_of_ofEntries entries' proper' loaded
      refine (AttributeValue.every_triggers_cons fun _ => rfl).mpr ⟨?_, ?_, rest⟩
      · refine Trigger.describable_onField.mpr ⟨other, fun set => ?_, good⟩
        exact (distinctKeys_iff_nodup AttributeKind.same_name_iff written).mp (keys set)
      · exact Bool.and_eq_true_iff.mpr ⟨tables, rfl⟩
termination_by entries => sizeOf entries

/-- Loaded rules can be described, and the keys that they are loaded from name what they change. -/
theorem TriggerRule.every_of_ofEntries : (entries : List (Node × Node)) →
    Node.properEntries apart entries = true → ∀ {rules}, TriggerRule.ofEntries entries = .ok rules →
    (Yaml.untagKeys entries).map Prod.fst =
        (rules.map TriggerRule.kind).map (fun kind => .text kind.name) ∧
      (∀ rule ∈ rules, rule.describable = true) ∧
      everyRule (·.describable apart) rules = true
  | [], _, rules, h => by
    cases h
    exact ⟨rfl, nofun, rfl⟩
  | (key, action) :: entries, proper, rules, h => by
    obtain ⟨own, others⟩ := Bool.and_eq_true_iff.mp proper
    obtain ⟨rule, more, rfl, loaded', named, first⟩ := TriggerRule.ofEntries_cons_eq_ok h
    obtain ⟨written, good, tables⟩ := TriggerRule.every_of_ofEntries entries others loaded'
    refine ⟨List.cons_eq_cons.mpr ⟨Node.text?_eq_some_iff.mp named, written⟩, ?_⟩
    rcases first with eq | ⟨entries', table, eq', loaded, eq⟩
    · rw [eq]
      exact ⟨List.forall_mem_cons.mpr ⟨rfl, good⟩, tables⟩
    · have smaller : sizeOf entries' < sizeOf action := by
        rw [eq']
        simp
      rw [eq'] at own
      obtain ⟨keys, -, proper'⟩ := Node.isProper_mapping.mp (Bool.and_eq_true_iff.mp own).2
      obtain ⟨written', rows, values⟩ :=
        TriggerRule.every_of_tableOfEntries rule.kind entries' proper' loaded
      have distinct := (distinctKeys_iff_nodup Literal.same_toNode_iff written').mp keys
      rw [eq]
      refine ⟨List.forall_mem_cons.mpr ⟨?_, good⟩, Bool.and_eq_true_iff.mpr ⟨values, tables⟩⟩
      simp only [TriggerRule.describable, Bool.and_eq_true, beq_iff_eq, decide_eq_true_eq,
        List.all_eq_true]
      exact ⟨distinct, rows⟩
termination_by entries => sizeOf entries

/-- A loaded table is of the kind that was asked for and can be described, and the keys that it is
loaded from are its literals. -/
theorem TriggerRule.every_of_tableOfEntries (kind : AttributeKind) :
    (entries : List (Node × Node)) → Node.properEntries apart entries = true →
    ∀ {table}, TriggerRule.tableOfEntries kind entries = .ok table →
    entries.map Prod.fst = (table.map Prod.fst).map Literal.toNode ∧
      (∀ row ∈ table, row.1.describable = true ∧ row.2.kind = kind) ∧
      everyRow (·.describable apart) table = true
  | [], _, table, h => by
    cases h
    exact ⟨rfl, nofun, rfl⟩
  | (key, value) :: entries, proper, table, h => by
    obtain ⟨own, others⟩ := Bool.and_eq_true_iff.mp proper
    obtain ⟨literal, v, more, rfl, loaded', first, second⟩ :=
      TriggerRule.tableOfEntries_cons_eq_ok h
    obtain ⟨rfl, fits⟩ := Literal.ofNode_eq_ok.mp first
    obtain ⟨same, values⟩ :=
      AttributeValue.every_of_ofNode kind value (Bool.and_eq_true_iff.mp own).2 second
    obtain ⟨written, rows, tables⟩ :=
      TriggerRule.every_of_tableOfEntries kind entries others loaded'
    exact ⟨congrArg _ written, List.forall_mem_cons.mpr ⟨⟨fits, same⟩, rows⟩,
      Bool.and_eq_true_iff.mpr ⟨values, tables⟩⟩
termination_by entries => sizeOf entries

end

end WireGrammar
