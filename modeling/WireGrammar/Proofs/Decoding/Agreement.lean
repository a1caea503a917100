import WireGrammar.Proofs.Decoding.Loop
import WireGrammar.Proofs.Decoding.Turn

/-!
# Decoders of targets that agree

Two ways of decoding targets need not agree on everything for chains, lists and structures to come
out the same.  It is enough that they agree on the calls that come up, and that these lead to no
others.

* `Agree`: two decoders agree on a class of calls;
* `Agree.chain`, `Agree.chains`: the loops over them agree;
* `parseDescriptors_congr`: structures agree if the turns of their fields do.
-/

namespace WireGrammar

variable {o : Options} {parse parse' : TargetParser}

/-! ### Chains and lists -/

/-- The decoders agree on the calls of a class, and the chains that such calls start stay in it. -/
structure Agree (Call : String → Slice → StreamContext → Prop) (parse parse' : TargetParser) :
    Prop where
  same : ∀ {name input ctx}, Call name input ctx → parse' name input ctx = parse name input ctx
  onward : ∀ {name input ctx r next}, Call name input ctx → parse name input ctx = .ok r →
    r.continuation? (input.drop r.consumed) = some next →
    Call next (input.drop r.consumed) r.context

section Agree

variable {Call : String → Slice → StreamContext → Prop} {name : String} {input : Slice}
  {ctx : StreamContext}

theorem Agree.chain (h : Agree Call parse parse') (call : Call name input ctx) :
    chain parse' name input ctx = chain parse name input ctx := by
  fun_induction WireGrammar.chain parse name input ctx with
  | case1 name input ctx failure failed => exact chain_of_error ((h.same call).trans failed)
  | case2 name input ctx r ok stop => exact chain_of_stop ((h.same call).trans ok) stop
  | case3 name input ctx r ok next go ih =>
    rw [chain_of_go ((h.same call).trans ok) go, ih (h.onward call ok go)]

/-- If what a chain leaves may be called again, lists agree as well. -/
theorem Agree.chains (h : Agree Call parse parse')
    (again : ∀ {input ctx c}, Call name input ctx → WireGrammar.chain parse name input ctx = .ok c →
      Call name c.rest c.context)
    {repetition : Repetition} (call : Call name input ctx) :
    chains parse' repetition name input ctx = chains parse repetition name input ctx := by
  fun_induction WireGrammar.chains parse repetition name input ctx with
  | case1 repetition input ctx ended => exact chains_of_done ended
  | case2 repetition input ctx go failure failed =>
    exact chains_of_error go ((h.chain call).trans failed)
  | case3 repetition input ctx go c ok forward ih =>
    rw [chains_of_forward go ((h.chain call).trans ok) forward, ih (again call ok)]
  | case4 repetition input ctx go c ok still =>
    exact chains_of_stuck go ((h.chain call).trans ok) still

end Agree

/-! ### Structures -/

/-- The turn of a field is the same if the list in its place is. -/
theorem parseField_congr {f : FieldDescriptor} {p : Progress}
    (same : ∀ name view, (p.memory.effective f).parse = some name →
      (p.memory.effective f).view p.cursor = .ok view →
      chains parse' ((p.memory.effective f).repetition (p.memory.dynamicLength f)) name view
          p.context =
        chains parse ((p.memory.effective f).repetition (p.memory.dynamicLength f)) name view
          p.context) :
    parseField o parse' f p = parseField o parse f p := by
  cases present : (p.memory.effective f).isPresent p.fields with
  | false => exact parseField_of_own (.inl present) parse' parse
  | true =>
    cases delegated : (p.memory.effective f).parse with
    | none => exact parseField_of_own (.inr delegated) parse' parse
    | some name =>
      cases viewed : (p.memory.effective f).view p.cursor with
      | error cause =>
        rw [parseField_of_unviewed present delegated viewed,
          parseField_of_unviewed present delegated viewed]
      | ok view =>
        rw [parseField_of_viewed present delegated viewed,
          parseField_of_viewed present delegated viewed, same name view delegated viewed]

/-- The runs over the descriptors of `s` agree if the turns of fields do wherever the run comes. -/
theorem parseFields_congr {s : Structure} (Inv : Progress → Prop)
    (dequeue : ∀ p queue, Inv p → Inv { p with queue })
    (turn : ∀ p f q, Inv p → .field f ∈ s.descriptors → FieldTurn o parse f p q → Inv q)
    (same : ∀ p f, Inv p → .field f ∈ s.descriptors →
      parseField o parse' f p = parseField o parse f p)
    {p : Progress} (own : p.Own s) (hp : Inv p) :
    parseFields o parse' p = parseFields o parse p := by
  fun_induction parseFields o parse p with
  | case1 p ended => exact parseFields_of_exhausted ended
  | case2 p left ended => exact parseFields_of_empty (by simpa using left) ended
  | case3 p left item queue hq name hd ih =>
    rw [parseFields_of_type (eq_false_of_ne_true left) hq hd]
    exact ih (own.tail hq) (dequeue p queue hp)
  | case4 p left item queue hq name hd => exact parseFields_of_next (eq_false_of_ne_true left) hq hd
  | case5 p left item queue hq f hd q ok ih =>
    have isOwn : .field f ∈ s.descriptors := hd ▸ own.head hq
    have taken := parseField_eq_ok.mp ok
    rw [parseFields_of_turn (eq_false_of_ne_true left) hq hd
      ((same _ f (dequeue p queue hp) isOwn).trans ok)]
    exact ih ((own.tail hq).turn isOwn taken) (turn _ f q (dequeue p queue hp) isOwn taken)
  | case6 p left item queue hq f hd failure failed again ih =>
    rw [parseFields_of_dropped (eq_false_of_ne_true left) hq hd
      ((same _ f (dequeue p queue hp) (hd ▸ own.head hq)).trans failed) again]
    exact ih (own.tail hq) (dequeue p queue hp)
  | case7 p left item queue hq f hd failure failed last =>
    exact parseFields_of_failed (eq_false_of_ne_true left) hq hd
      ((same _ f (dequeue p queue hp) (hd ▸ own.head hq)).trans failed) last

theorem parseDescriptors_congr {s : Structure} (Inv : Progress → Prop)
    (dequeue : ∀ p queue, Inv p → Inv { p with queue })
    (turn : ∀ p f q, Inv p → .field f ∈ s.descriptors → FieldTurn o parse f p q → Inv q)
    (same : ∀ p f, Inv p → .field f ∈ s.descriptors →
      parseField o parse' f p = parseField o parse f p)
    {input : Slice} {ctx : StreamContext} (start : Inv (.start s input ctx)) :
    parseDescriptors o parse' s input ctx = parseDescriptors o parse s input ctx := by
  unfold parseDescriptors
  rw [parseFields_congr Inv dequeue turn same (.start s input ctx) start]

end WireGrammar
