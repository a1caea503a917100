import WireGrammar.Proofs.Machine.Field

/-!
# The machine comes to no fault

A packet whose offsets are far from the largest word is decoded on the machine as it is decoded
without it, by whatever grammar, with whatever options, and from whatever context.  Lengths come
from the grammar, from triggers and from the context, and nothing is asked of them: a length counts
only where that many bytes are left.

* `Enters`: structures are decoded alike, and take no more bytes than there are;
* `enterStructure_enters`: they are, however deep they are nested;
* `faultless`: there is no fault, wherever the decoding starts.
-/

namespace WireGrammar

namespace Machine

variable {o : Options} {run : TargetParser} {parse : WireGrammar.TargetParser}

/-! ### Structures -/

/-- The end of a run, with the parts of its cursor. -/
def Finish.of (fin : WireGrammar.Finish) : Finish := ⟨.of fin.progress, fin.next⟩

section Descriptors

variable {p : WireGrammar.Progress} {item : Pending} {queue : List Pending}

theorem parseFields_of_nil (go : p.cursor.isExhausted = false) (ended : p.queue = []) :
    parseFields o run (.of p) = .ok ⟨.of p, none⟩ := by
  rw [parseFields, if_neg (by simp [go])]
  split
  · rfl
  · next first =>
    rw [Progress.queue_of, ended] at first
    cases first

theorem parseFields_of_cons (go : p.cursor.isExhausted = false) (first : p.queue = item :: queue) :
    parseFields o run (.of p) =
      match item.descriptor with
      | .type _ => parseFields o run (.of { p with queue })
      | .next name => .ok ⟨.of { p with queue }, some name⟩
      | .field f =>
        (parseField o run f (.of { p with queue })).resume
          (fun q => if q.work < p.work then parseFields o run q else .error .stalled)
          fun failure =>
            if item.again then parseFields o run (.of { p with queue })
            else .error (.failed failure) := by
  rw [parseFields, if_neg (by simp [go])]
  split
  · next none =>
    rw [Progress.queue_of, first] at none
    cases none
  · next item' queue' first' =>
    rw [Progress.queue_of, first] at first'
    cases first'
    cases item.descriptor with
    | type name => rfl
    | next name => rfl
    | field f =>
      simp only [Progress.work_of, dite_eq_ite]
      rfl

end Descriptors

/-- The descriptors of a structure take the turns that they take without the machine. -/
theorem parseFields_of (real : Realizes run parse) {p : WireGrammar.Progress}
    (fits : p.cursor.Fits) :
    parseFields o run (.of p) = Checked.of ((WireGrammar.parseFields o parse p).map Finish.of) := by
  fun_induction WireGrammar.parseFields o parse p with
  | case1 p ended =>
    rw [parseFields, if_pos (by simpa using ended)]
    rfl
  | case2 p left ended =>
    rw [parseFields_of_nil (by simpa using left) ended]
    rfl
  | case3 p left item queue hq name hd ih =>
    rw [parseFields_of_cons (by simpa using left) hq, hd]
    exact ih fits
  | case4 p left item queue hq name hd =>
    rw [parseFields_of_cons (by simpa using left) hq, hd]
    rfl
  | case5 p left item queue hq f hd q ok ih =>
    have going : p.cursor.isExhausted = false := by simpa using left
    have fits' := (parseField_eq_ok.mp ok).fits fits
    have less : q.work < p.work := by
      have turn := parseField_work_le ok going
      simp only [WireGrammar.Progress.work, hq, List.length_cons] at turn ⊢
      omega
    rw [parseFields_of_cons going hq, hd]
    simp only [parseField_of_ok real ok fits, Checked.resume_ok, Progress.work_of, if_pos less]
    exact ih fits'
  | case6 p left item queue hq f hd failure failed again ih =>
    rw [parseFields_of_cons (by simpa using left) hq, hd]
    simp only [parseField_of_error real failed fits, Checked.resume_failed, if_pos again]
    exact ih fits
  | case7 p left item queue hq f hd failure failed once =>
    rw [parseFields_of_cons (by simpa using left) hq, hd]
    simp only [parseField_of_error real failed fits, Checked.resume_failed, if_neg once]
    rfl

theorem parseFields_fits {s : Structure} {p : WireGrammar.Progress} (own : p.Own s)
    (fits : p.cursor.Fits) {fin : WireGrammar.Finish}
    (h : WireGrammar.parseFields o parse p = .ok fin) : fin.progress.cursor.Fits :=
  parseFields_invariant (fun p => p.cursor.Fits) (fun _ _ fits => fits)
    (fun _ _ _ fits _ _ turn => turn.fits fits) h own fits

theorem Cursor.consumedBytes_of {ε : Type} {c : BitCursor} (h : c.Fits) :
    add (of c).pos (if (of c).isAligned then 0 else 1) = (.ok c.consumedBytes : Checked ε Nat) := by
  have index := byteIndex_le h.within
  have fits := h.slice
  have position := c.position_eq
  simp only [Slice.Fits] at fits
  have value : c.byteIndex + (if c.isAligned then 0 else 1) = c.consumedBytes := by
    simp only [BitCursor.isAligned, BitCursor.consumedBytes, BitCursor.byteIndex,
      BitCursor.bitOffset, beq_iff_eq] at *
    split <;> omega
  have small : c.consumedBytes ≤ c.byteIndex + 1 := by
    rw [← value]
    split <;> omega
  rw [isAligned_of, show (of c).pos = c.byteIndex from rfl, ← value]
  exact add_eq (by rw [value, size_word]; omega)

theorem Finish.outcome_of {fin : WireGrammar.Finish} (fits : fin.progress.cursor.Fits)
    (s : Structure) : (of fin).outcome s = Checked.of (fin.outcome s) := by
  have complete : (of fin).complete = .ok ⟨fin.progress.fields, fin.progress.cursor.consumedBytes,
      fin.next, fin.progress.context⟩ := by
    rw [Finish.complete]
    show (add (Cursor.of fin.progress.cursor).pos
      (if (Cursor.of fin.progress.cursor).isAligned then 0 else 1) >>= _) = _
    rw [Cursor.consumedBytes_of fits]
    rfl
  have missing : (of fin).progress.missing? = fin.progress.missing? := rfl
  have ended : ((of fin).next.isNone && (of fin).progress.cursor.isExhausted) =
      (fin.next.isNone && fin.progress.cursor.isExhausted) := rfl
  rw [outcome, WireGrammar.Finish.outcome, complete, missing, ended]
  by_cases there : (fin.next.isNone && fin.progress.cursor.isExhausted) = true
  · simp only [if_pos there]
    cases fin.progress.missing? <;> rfl
  · simp only [if_neg there]
    rfl

/-- A structure is decoded as it is without the machine. -/
theorem parseDescriptors_of (real : Realizes run parse) (s : Structure) {input : Slice}
    (fits : input.Fits) (ctx : StreamContext) :
    parseDescriptors o run s input ctx =
      Checked.of (WireGrammar.parseDescriptors o parse s input ctx) := by
  rw [parseDescriptors, Cursor.start_eq, Checked.ok_bind]
  show (parseFields o run (.of (.start s input ctx)) >>= _) = _
  rw [parseFields_of real (.start fits), WireGrammar.parseDescriptors]
  cases decoded : WireGrammar.parseFields o parse (.start s input ctx) with
  | error failure => rfl
  | ok fin =>
    have fits' := parseFields_fits (.start s input ctx) (.start fits) decoded
    exact Finish.outcome_of fits' s

/-! ### Structures by name -/

/-- The machine decodes structures as it is done without it, and none of those of the grammar takes
more bytes than there are. -/
structure Enters (g : Grammar) (run : StructureParser) (enter : WireGrammar.StructureParser) :
    Prop where
  same : ∀ s {input}, input.Fits → ∀ ctx, run s input ctx = Checked.of (enter s input ctx)
  consumed : ∀ {s input ctx out}, s ∈ g.structures → enter s input ctx = .ok out →
    out.consumed ≤ input.length

section Enters

variable {g : Grammar} {run : StructureParser} {enter : WireGrammar.StructureParser}
  {input : Slice}

theorem resolved_of {ε : Type} (fits : input.Fits) (s : Structure) {out : StructureOutcome}
    (enough : out.consumed ≤ input.length) :
    resolved s input out = (.ok (out.resolved s input) : Checked ε Resolved) := by
  have stop : add input.offset out.consumed =
      (.ok (input.offset + out.consumed) : Checked ε Nat) := by
    refine add_eq ?_
    rw [Slice.Fits] at fits
    rw [size_word]
    omega
  rw [resolved, stop]
  rfl

theorem Enters.firstFit (h : Enters g run enter) (fits : input.Fits) (ctx : StreamContext)
    {ss : List Structure} (known : ∀ s ∈ ss, s ∈ g.structures) :
    firstFit run input ctx ss = .ok (WireGrammar.firstFit enter input ctx ss) := by
  induction ss with
  | nil => rfl
  | cons s ss ih =>
    obtain ⟨mem, others⟩ := List.forall_mem_cons.mp known
    rw [Machine.firstFit, WireGrammar.firstFit, h.same s fits]
    cases entered : enter s input ctx with
    | error failure => exact ih others
    | ok out =>
      rw [Checked.of_ok, Checked.resume_ok, resolved_of fits s (h.consumed mem entered)]
      rfl

theorem Enters.resolveTypeBy (h : Enters g run enter) (fits : input.Fits) (typeName : String)
    (ctx : StreamContext) :
    resolveTypeBy g run typeName input ctx =
      Checked.of (WireGrammar.resolveTypeBy g enter typeName input ctx) := by
  have known : ∀ s ∈ g.structuresOfType typeName, s ∈ g.structures :=
    fun s mem => (List.mem_filter.mp mem).1
  rw [Machine.resolveTypeBy, WireGrammar.resolveTypeBy, h.firstFit fits ctx known,
    Checked.ok_bind]
  cases WireGrammar.firstFit enter input ctx (g.structuresOfType typeName) <;> rfl

/-- Names are decoded on the machine if structures are. -/
theorem Enters.realizes (h : Enters g run enter) :
    Realizes (parseTargetBy g run) (WireGrammar.parseTargetBy g enter) where
  same := by
    intro name input ctx fits
    rw [parseTargetBy, WireGrammar.parseTargetBy]
    cases found : g.getStructure? name with
    | none => exact h.resolveTypeBy fits name ctx
    | some s =>
      simp only [h.same s fits, Checked.of_map]
      exact Checked.of_bind_congr fun out entered =>
        resolved_of fits s (h.consumed (List.mem_of_find?_eq_some found) entered)
  consumed := by
    intro name input ctx r ok
    obtain ⟨s, mem, out, entered, rfl⟩ := parseTargetBy_eq_ok ok
    exact h.consumed mem entered
  ordered := by
    intro name input ctx r ok
    obtain ⟨s, mem, out, entered, rfl⟩ := parseTargetBy_eq_ok ok
    exact Nat.le_add_right ..

end Enters

/-- No structure of a grammar takes more bytes than there are. -/
theorem consumed_le_of_enterStructure {g : Grammar} {depth : Nat} {active : Active} {s : Structure}
    {input : Slice} {ctx : StreamContext} {out : StructureOutcome} (mem : s ∈ g.structures)
    (entered : WireGrammar.enterStructure g o depth active s input ctx = .ok out) :
    out.consumed ≤ input.length :=
  ((decodingInvariant_tiled g o ctx).of_enterStructure mem entered (.refl g ctx)).2.consumed

/-- Structures are decoded as they are without the machine, however deep others are nested in
them. -/
theorem enterStructure_enters (g : Grammar) (o : Options) (depth : Nat) (active : Active) :
    Enters g (enterStructure g o depth active) (WireGrammar.enterStructure g o depth active) where
  consumed := consumed_le_of_enterStructure
  same := by
    induction depth generalizing active with
    | zero => intro s input fits ctx; rfl
    | succ depth ih =>
      intro s input fits ctx
      rw [enterStructure, WireGrammar.enterStructure]
      split
      · rfl
      · exact parseDescriptors_of (Enters.realizes ⟨ih _, consumed_le_of_enterStructure⟩) s fits ctx

theorem enterOutermost_enters (g : Grammar) (o : Options) :
    Enters g (enterOutermost g o) (WireGrammar.enterOutermost g o) where
  consumed := consumed_le_of_enterStructure
  same s _ fits ctx := (enterStructure_enters g o _ []).same s fits ctx

theorem parseTarget_realizes (g : Grammar) (o : Options) :
    Realizes (parseTarget g o) (WireGrammar.parseTarget g o) :=
  (enterOutermost_enters g o).realizes

section EntryPoints

variable (g : Grammar) (o : Options) (name : String) {input : Slice} (fits : input.Fits)
  (ctx : StreamContext)

include fits

theorem parseStructure_of :
    parseStructure g o name input ctx =
      Checked.of (WireGrammar.parseStructure g o name input ctx) := by
  rw [parseStructure, WireGrammar.parseStructure]
  cases g.getStructure? name with
  | none => rfl
  | some s => exact (enterOutermost_enters g o).same s fits ctx

theorem resolveType_of :
    resolveType g o name input ctx = Checked.of (WireGrammar.resolveType g o name input ctx) :=
  (enterOutermost_enters g o).resolveTypeBy fits name ctx

theorem parseTarget_of :
    parseTarget g o name input ctx = Checked.of (WireGrammar.parseTarget g o name input ctx) :=
  (parseTarget_realizes g o).same fits

end EntryPoints

/-! ### Packets -/

section Packets

variable {packet : List UInt8} (small : packet.length < Word.size 60)

include small

/-- The structures of a packet are decoded as they are without the machine. -/
theorem rootChain_of (real : Realizes run parse) (name : String)
    (structures : List DecodedStructure) {offset : Nat} (inside : offset ≤ packet.length)
    (ctx : StreamContext) :
    rootChain run packet name structures offset ctx =
      Checked.of (WireGrammar.rootChain parse packet name structures offset ctx) := by
  have bytes {offset : Nat} (inside : offset ≤ packet.length) :
      part packet offset packet.length =
        (.ok (packet.drop offset) : Checked Failure (List UInt8)) := part_length inside
  have fits {offset : Nat} (inside : offset ≤ packet.length) :
      Slice.Fits ⟨offset, packet.drop offset⟩ := by
    simp only [Slice.Fits, Slice.length, List.length_drop]
    omega
  -- A structure ends in the packet, so its end is a word.
  have ends {name : String} {offset : Nat} {ctx : StreamContext} {r : Resolved}
      (inside : offset ≤ packet.length) (ok : parse name ⟨offset, packet.drop offset⟩ ctx = .ok r) :
      offset + r.consumed ≤ packet.length ∧
        add offset r.consumed = (.ok (offset + r.consumed) : Checked Failure Nat) := by
    have enough := real.consumed _ _ _ _ ok
    simp only [Slice.length, List.length_drop] at enough
    have within : offset + r.consumed ≤ packet.length := by omega
    exact ⟨within, add_eq (by rw [size_word]; omega)⟩
  fun_induction WireGrammar.rootChain parse packet name structures offset ctx with
  | case1 name structures offset ctx ended =>
    rw [rootChain, if_pos ended]
    rfl
  | case2 name structures offset ctx go failure failed =>
    rw [rootChain, if_neg go, bytes inside, Checked.ok_bind, real.same (fits inside), failed]
    rfl
  | case3 name structures offset ctx go r ok stuck =>
    rw [rootChain, if_neg go, bytes inside, Checked.ok_bind, real.same (fits inside), ok,
      Checked.of_ok, Checked.ok_bind, (ends inside ok).2, Checked.ok_bind, if_pos stuck]
    rfl
  | case4 name structures offset ctx go r ok some last =>
    rw [rootChain, if_neg go, bytes inside, Checked.ok_bind, real.same (fits inside), ok,
      Checked.of_ok, Checked.ok_bind, (ends inside ok).2, Checked.ok_bind, if_neg some, last]
    rfl
  | case5 name structures offset ctx go r ok some next goes ih =>
    obtain ⟨within, behind⟩ := ends inside ok
    have closer : packet.length - (offset + r.consumed) < packet.length - offset := by omega
    rw [rootChain, if_neg go, bytes inside, Checked.ok_bind, real.same (fits inside), ok,
      Checked.of_ok, Checked.ok_bind, behind, Checked.ok_bind, if_neg some, goes]
    simp only [dif_pos closer]
    exact ih within

variable (g : Grammar) (o : Options) (ctx : StreamContext)

theorem parseRoot_of (root : String) :
    parseRoot g o packet root ctx = Checked.of (WireGrammar.parseRoot g o packet root ctx) := by
  rw [parseRoot, WireGrammar.parseRoot, attemptRoot,
    rootChain_of small (parseTarget_realizes g o) root [] (Nat.zero_le _) ctx]
  exact (Checked.of_bind _ _).symm

theorem firstRoot_of (last : ParseError) (roots : List String) :
    firstRoot g o packet ctx last roots =
      .ok (WireGrammar.firstRoot g o packet ctx last roots) := by
  induction roots generalizing last with
  | nil => rfl
  | cons root roots ih =>
    rw [firstRoot, WireGrammar.firstRoot, parseRoot_of small]
    cases WireGrammar.parseRoot g o packet root ctx with
    | error failure => exact ih failure.error
    | ok found => rfl

theorem parseTopLevel_of :
    parseTopLevel g o packet ctx = .ok (WireGrammar.parseTopLevel g o packet ctx) :=
  firstRoot_of small g o ctx noRoot g.roots

theorem firstGrammar_of (tried : Nat) (last : DissectError) (entries : List (String × Grammar)) :
    firstGrammar o packet ctx tried last entries =
      .ok (WireGrammar.firstGrammar o packet ctx tried last entries) := by
  induction entries generalizing ctx tried last with
  | nil => rfl
  | cons entry entries ih =>
    obtain ⟨id, g⟩ := entry
    rw [firstGrammar, WireGrammar.firstGrammar, parseTopLevel_of small, Checked.ok_bind]
    cases WireGrammar.parseTopLevel g o packet ctx with
    | mk found after =>
      cases found with
      | error cause => exact ih after (tried + 1) (.exhausted (tried + 1) id cause)
      | ok tree => rfl

theorem dissect_of (gs : GrammarSet) :
    dissect gs o packet ctx = .ok (WireGrammar.dissect gs o packet ctx) :=
  firstGrammar_of small o ctx 0 .noGrammars gs.entries

end Packets

/-! ### Decoding without faults -/

/-- What the machine does with cursors, however targets are decoded: it cuts out windows and goes
over bytes from between two bytes only, and it goes on with sound cursors only. -/
structure Guarded (o : Options) : Prop where
  window : ∀ {c d : Cursor} {n : Nat}, c.window n = .ok d → c.isAligned ∧ d.Sound
  rest : ∀ {c d : Cursor}, c.rest = .ok d → c.isAligned ∧ d.Sound
  advance : ∀ {c d : Cursor} {n : Nat}, c.advance n = (.ok d : Checked Failure Cursor) →
    c.isAligned ∧ d.Sound
  scalar : ∀ {c : Cursor} {length : Length} {r : Reading}, c.Sound →
    c.readScalar length = .ok r → r.cursor.Sound
  list : ∀ {run : TargetParser} {repetition : Repetition} {name : String} {done : Nat}
    {w after : Walk}, w.cursor.Sound → walkList run repetition name done w = .ok after →
    after.cursor.Sound
  fields : ∀ {run : TargetParser} {p : Progress} {fin : Finish}, p.cursor.Sound →
    parseFields o run p = .ok fin → fin.progress.cursor.Sound

theorem guarded (o : Options) : Guarded o where
  window := Cursor.sound_of_window
  rest := Cursor.sound_of_rest
  advance := Cursor.sound_of_advance
  scalar h read := h.readScalar read
  list h walked := sound_of_walkList h walked
  fields h ended := sound_of_parseFields h ended

end Machine

/-- Decoding comes to no fault on the machine, whatever the grammars, the options and the context
are: every cursor is sound, none goes over bytes from inside of one, no operation is out of range,
and no loop stands still.  It comes to the same results and failures as without the machine, for
whole packets and for structures at any place of a packet. -/
theorem faultless (o : Options) (ctx : StreamContext) :
    Machine.Guarded o ∧
    (∀ (gs : GrammarSet) (packet : List UInt8), packet.length < Word.size 60 →
      Machine.dissect gs o packet ctx = .ok (dissect gs o packet ctx)) ∧
    ∀ g : Grammar,
      (∀ packet : List UInt8, packet.length < Word.size 60 →
        Machine.parseTopLevel g o packet ctx = .ok (parseTopLevel g o packet ctx)) ∧
      ∀ (name : String) (input : Slice), input.Fits →
        Machine.parseStructure g o name input ctx =
            Machine.Checked.of (parseStructure g o name input ctx) ∧
          Machine.resolveType g o name input ctx =
            Machine.Checked.of (resolveType g o name input ctx) ∧
          Machine.parseTarget g o name input ctx =
            Machine.Checked.of (parseTarget g o name input ctx) := by
  refine ⟨Machine.guarded o, fun gs packet small => Machine.dissect_of small o ctx gs, fun g => ?_⟩
  refine ⟨fun packet small => Machine.parseTopLevel_of small g o ctx, fun name input fits => ?_⟩
  exact ⟨Machine.parseStructure_of g o name fits ctx, Machine.resolveType_of g o name fits ctx,
    Machine.parseTarget_of g o name fits ctx⟩

/-- A scalar gives a length far beyond all packets, and another structure has a field that is tried
again inside of a byte. -/
def overlong : Grammar where
  roots := ["Claimed", "Ragged"]
  structures := [
    ⟨"Claimed", [
      .field ⟨"size",
        { length := some (.bits 64), triggers := some [.onField "body" [.set .length]] }, false⟩,
      .field ⟨"body", {}, false⟩]⟩,
    ⟨"Ragged", [
      .field ⟨"flags", { length := some (.bits 3) }, false⟩,
      .field ⟨"parts", { length := some (.bits 13) }, true⟩]⟩]

theorem faultless_overlong :
    (∃ tree ctx', Machine.dissect ⟨[("overlong", overlong)]⟩ {}
        [0x1f, 0xff, 0xff, 0xff, 0xff, 0xff, 0xff, 0xff, 0x2a] .empty =
          .ok (.ok ⟨"overlong", tree⟩, ctx') ∧
      (tree.leaves.map fun l => (l.start, l.stop)) =
        [(0, 1), (0, 2), (2, 4), (3, 6), (5, 7), (6, 9)]) ∧
    (∃ failure, Machine.parseTarget overlong {} "Claimed"
      ⟨7, [0x1f, 0xff, 0xff, 0xff, 0xff, 0xff, 0xff, 0xff, 0x2a]⟩ .empty =
        .error (.failed failure)) ∧
    ∃ w : Machine.Cursor, Machine.Cursor.window ⟨[0x1f, 0xff, 0x2a], 7, 1, 0⟩ 2 = .ok w ∧
      w.base = 8 ∧ w.Sound := by
  obtain ⟨guarded, whole, anywhere⟩ := faultless {} .empty
  refine ⟨?_, ?_, ?_⟩
  · have spans : (dissect ⟨[("overlong", overlong)]⟩ {}
        [0x1f, 0xff, 0xff, 0xff, 0xff, 0xff, 0xff, 0xff, 0x2a] .empty).1.toOption.map
          (fun d => (d.grammar, d.tree.leaves.map fun l => (l.start, l.stop))) =
            some ("overlong", [(0, 1), (0, 2), (2, 4), (3, 6), (5, 7), (6, 9)]) := by
      decide +kernel
    obtain ⟨⟨id, tree⟩, decoded, eq⟩ := Option.map_eq_some_iff.mp spans
    obtain ⟨rfl, spans⟩ := Prod.mk.inj eq
    have run := (whole ⟨[("overlong", overlong)]⟩
      [0x1f, 0xff, 0xff, 0xff, 0xff, 0xff, 0xff, 0xff, 0x2a] (by decide)).trans
        (congrArg Except.ok (eq_ok_of_toOption decoded))
    exact ⟨tree, _, run, spans⟩
  · have fits : Slice.Fits ⟨7, [0x1f, 0xff, 0xff, 0xff, 0xff, 0xff, 0xff, 0xff, 0x2a]⟩ := by
      unfold Slice.Fits
      decide
    have refused : (parseTarget overlong {} "Claimed"
        ⟨7, [0x1f, 0xff, 0xff, 0xff, 0xff, 0xff, 0xff, 0xff, 0x2a]⟩ .empty).toOption.isNone := by
      decide +kernel
    rw [((anywhere overlong).2 _ _ fits).2.2]
    cases decoded : parseTarget overlong {} "Claimed"
      ⟨7, [0x1f, 0xff, 0xff, 0xff, 0xff, 0xff, 0xff, 0xff, 0x2a]⟩ .empty with
    | error failure => exact ⟨failure, rfl⟩
    | ok r =>
      rw [decoded] at refused
      cases refused
  · have cut : Machine.Cursor.window ⟨[0x1f, 0xff, 0x2a], 7, 1, 0⟩ 2 =
        .ok ⟨[0xff, 0x2a], 8, 0, 0⟩ := rfl
    exact ⟨_, cut, rfl, (guarded.window cut).2⟩

end WireGrammar
