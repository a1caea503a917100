import Mathlib.Order.Monotone.Basic
import WireGrammar.Proofs.Packet.Selection
import WireGrammar.Trace.Dissect

/-!
# Directions do not disturb each other

A packet of a trace is decoded from what the decoded packets of its own direction have left before
it.  Packets of other directions, packets that cannot be decoded and packets that come later make
no difference, however they are mixed in.  This holds for any decoder of base 64.

* `follow`: the context of a direction behind a list of packets;
* `getElem?_dissectPackets`: the report on each packet, from that context;
* `dissect_direction`: a packet is reported alike in any part of the trace that keeps the packets it
  depends on.
-/

namespace WireGrammar

open Bytes.Base64 (Decoder)

variable {decode : Decoder} {gs : GrammarSet} {o : Options} {d : String}

/-! ### One packet -/

/-- The report on the packet at an index, decoded from the context `ctx`. -/
def TracePacket.reportFrom (decode : Decoder) (gs : GrammarSet) (o : Options) (index : Nat)
    (ctx : StreamContext) (p : TracePacket) : DissectedPacket :=
  match p.bytes decode with
  | .error cause => p.report 0 (.error (.base64 index cause))
  | .ok bytes => p.report bytes.length ((WireGrammar.dissect gs o bytes ctx).1.mapError .undecoded)

/-- The context that a packet leaves behind. -/
def TracePacket.contextAfter (decode : Decoder) (gs : GrammarSet) (o : Options)
    (ctx : StreamContext) (p : TracePacket) : StreamContext :=
  match p.bytes decode with
  | .error _ => ctx
  | .ok bytes => (WireGrammar.dissect gs o bytes ctx).2

/-- The packet was decoded. -/
def DissectedPacket.isDecoded (r : DissectedPacket) : Bool := r.outcome.isOk

/-- The failure as it is reported for the packet at another index. -/
def PacketFailure.at (index : Nat) : PacketFailure → PacketFailure
  | .base64 _ cause => .base64 index cause
  | .undecoded cause => .undecoded cause

/-- The report as it is made for the packet at another index. -/
def DissectedPacket.at (r : DissectedPacket) (index : Nat) : DissectedPacket :=
  { r with outcome := r.outcome.mapError (·.at index) }

/-- Decoding a packet reports on it from the context of its direction, and changes no other. -/
theorem TracePacket.dissect_eq (contexts : DirectionContexts) (index : Nat) (p : TracePacket) :
    (p.dissect decode gs o contexts index).1 =
        p.reportFrom decode gs o index (contexts.forDirection p.direction) ∧
      (p.dissect decode gs o contexts index).2.forDirection d =
        if d = p.direction then p.contextAfter decode gs o (contexts.forDirection d)
        else contexts.forDirection d := by
  unfold TracePacket.dissect reportFrom contextAfter
  cases p.bytes decode with
  | error cause => exact ⟨rfl, (ite_self _).symm⟩
  | ok bytes =>
    dsimp only
    cases result : WireGrammar.dissect gs o bytes (contexts.forDirection p.direction) with
    | mk outcome ctx =>
      -- The context is handed on whether the packet is decoded or not.
      have kept : (contexts.update p.direction ctx).forDirection d =
          if d = p.direction then (WireGrammar.dissect gs o bytes (contexts.forDirection d)).2
          else contexts.forDirection d := by
        rw [DirectionContexts.forDirection_update]
        by_cases own : d = p.direction
        · rw [if_pos own, if_pos own, own, result]
        · rw [if_neg own, if_neg own]
      cases outcome with
      | ok tree => exact ⟨rfl, kept⟩
      | error cause => exact ⟨rfl, kept⟩

/-- A packet that is not decoded leaves the context as it was. -/
theorem TracePacket.contextAfter_of_undecoded {index : Nat} {ctx : StreamContext} {p : TracePacket}
    (h : (p.reportFrom decode gs o index ctx).isDecoded = false) :
    p.contextAfter decode gs o ctx = ctx := by
  unfold reportFrom DissectedPacket.isDecoded at h
  unfold contextAfter
  cases bytes : p.bytes decode with
  | error cause => rfl
  | ok bytes' =>
    rw [bytes] at h
    dsimp only at h ⊢
    cases result : WireGrammar.dissect gs o bytes' ctx with
    | mk outcome after =>
      rw [result] at h
      cases outcome with
      | ok tree => cases h
      | error cause => exact context_of_dissect_eq_error result

theorem TracePacket.direction_reportFrom (decode : Decoder) (gs : GrammarSet) (o : Options)
    (index : Nat) (ctx : StreamContext) (p : TracePacket) :
    (p.reportFrom decode gs o index ctx).direction = p.direction ∧
      (p.reportFrom decode gs o index ctx).timestamp = p.timestamp := by
  unfold reportFrom
  cases p.bytes decode with
  | error cause => exact ⟨rfl, rfl⟩
  | ok bytes => exact ⟨rfl, rfl⟩

/-- The index of a packet shows in the text of a failure at most. -/
theorem TracePacket.reportFrom_at (index index' : Nat) (ctx : StreamContext) (p : TracePacket) :
    (p.reportFrom decode gs o index ctx).at index' = p.reportFrom decode gs o index' ctx := by
  unfold reportFrom
  cases p.bytes decode with
  | error cause => rfl
  | ok bytes =>
    dsimp only
    cases (WireGrammar.dissect gs o bytes ctx).1 with
    | error cause => rfl
    | ok tree => rfl

/-! ### The packets of a direction -/

/-- The context of the direction `d` behind one more packet. -/
def followOne (decode : Decoder) (gs : GrammarSet) (o : Options) (d : String)
    (ctx : StreamContext) (p : TracePacket) : StreamContext :=
  if d = p.direction then p.contextAfter decode gs o ctx else ctx

/-- The context of the direction `d` behind a list of packets. -/
def follow (decode : Decoder) (gs : GrammarSet) (o : Options) (d : String) (ctx : StreamContext)
    (packets : List TracePacket) : StreamContext :=
  packets.foldl (followOne decode gs o d) ctx

/-- Each packet is reported from the context that those before it have left for its direction. -/
theorem getElem?_dissectPackets (contexts : DirectionContexts) (index : Nat)
    (packets : List TracePacket) (k : Nat) :
    (dissectPackets decode gs o contexts index packets)[k]? = packets[k]?.map fun p =>
      p.reportFrom decode gs o (index + k)
        (follow decode gs o p.direction (contexts.forDirection p.direction) (packets.take k)) := by
  induction packets generalizing contexts index k with
  | nil => rfl
  | cons p packets ih =>
    rw [dissectPackets]
    cases k with
    | zero => exact congrArg some (TracePacket.dissect_eq (d := "") contexts index p).1
    | succ k =>
      rw [List.getElem?_cons_succ, List.getElem?_cons_succ, ih]
      refine Option.map_congr fun q _ => ?_
      rw [(TracePacket.dissect_eq contexts index p).2, List.take_succ_cons, follow, follow,
        List.foldl_cons, Nat.add_right_comm, Nat.add_assoc]
      rfl

theorem length_dissectPackets (contexts : DirectionContexts) (index : Nat)
    (packets : List TracePacket) :
    (dissectPackets decode gs o contexts index packets).length = packets.length := by
  induction packets generalizing contexts index with
  | nil => rfl
  | cons p packets ih => rw [dissectPackets, List.length_cons, ih, List.length_cons]

/-- What the first `k` packets leave for the direction `d`. -/
def contextBefore (decode : Decoder) (gs : GrammarSet) (o : Options) (d : String)
    (packets : List TracePacket) (k : Nat) : StreamContext :=
  follow decode gs o d .empty (packets.take k)

section ContextBefore

variable {packets others : List TracePacket} {k : Nat}

theorem contextBefore_succ :
    contextBefore decode gs o d packets (k + 1) =
      packets[k]?.elim (contextBefore decode gs o d packets k)
        (followOne decode gs o d (contextBefore decode gs o d packets k)) := by
  unfold contextBefore follow
  rw [List.take_add_one, List.foldl_append]
  cases packets[k]? <;> rfl

/-- The packet at `k` leaves nothing for the direction `d`. -/
def Silent (decode : Decoder) (gs : GrammarSet) (o : Options) (d : String)
    (packets : List TracePacket) (k : Nat) : Prop :=
  contextBefore decode gs o d packets (k + 1) = contextBefore decode gs o d packets k

/-- A packet is silent for its direction if it is not decoded, and for any other in any case. -/
theorem silent_of_undecoded (index : Nat) {p : TracePacket} (at_ : packets[k]? = some p)
    (h : p.direction = d →
      (p.reportFrom decode gs o index (contextBefore decode gs o d packets k)).isDecoded = false) :
    Silent decode gs o d packets k := by
  unfold Silent
  rw [contextBefore_succ, at_, Option.elim_some, followOne]
  by_cases own : d = p.direction
  · rw [if_pos own]
    exact TracePacket.contextAfter_of_undecoded (h own.symm)
  · rw [if_neg own]

theorem contextBefore_of_silent {a b : Nat} (le : a ≤ b)
    (silent : ∀ j, a ≤ j → j < b → Silent decode gs o d packets j) :
    contextBefore decode gs o d packets b = contextBefore decode gs o d packets a := by
  induction b, le using Nat.le_induction with
  | base => rfl
  | succ b le ih =>
    rw [silent b le (Nat.lt_succ_self b)]
    exact ih fun j low high => silent j low (Nat.lt_succ_of_lt high)

/-- A part of the packets, in their order, leaves the same as all of them, if the packets left out
are silent. -/
theorem contextBefore_part {f : Nat → Nat} (order : StrictMono f)
    (part : ∀ i, others[i]? = packets[f i]?) (m : Nat)
    (silent : ∀ j < f m, (∀ i, f i ≠ j) → Silent decode gs o d packets j) :
    contextBefore decode gs o d others m = contextBefore decode gs o d packets (f m) := by
  induction m with
  | zero =>
    symm
    refine contextBefore_of_silent (Nat.zero_le _) fun j _ before => silent j before fun i eq => ?_
    have := order.monotone (Nat.zero_le i)
    omega
  | succ m ih =>
    have forward : f m < f (m + 1) := order (Nat.lt_succ_self m)
    have before := ih fun j low => silent j (Nat.lt_trans low forward)
    -- Between two packets that follow each other in the part there are silent ones only.
    have gap : contextBefore decode gs o d packets (f (m + 1)) =
        contextBefore decode gs o d packets (f m + 1) := by
      refine contextBefore_of_silent forward fun j low high => silent j high fun i eq => ?_
      have above : f m < f i := by omega
      have below : f i < f (m + 1) := by omega
      have := order.lt_iff_lt.mp above
      have := order.lt_iff_lt.mp below
      omega
    rw [gap, contextBefore_succ, contextBefore_succ, part, before]

end ContextBefore

/-! ### Traces -/

/-- How many packets of a trace are decoded. -/
def Trace.limit (t : Trace) (options : TraceOptions) : Nat :=
  options.packetLimit.getD t.packets.length

theorem Trace.dissectWith_eq (decode : Decoder) (t : Trace) (gs : GrammarSet)
    (options : TraceOptions) :
    t.dissectWith decode gs options =
      dissectPackets decode gs options.dissector .empty 0 (t.packets.take (t.limit options)) := by
  unfold dissectWith limit
  cases options.packetLimit with
  | none => rw [Option.getD_none, List.take_length]
  | some limit => rfl

/-- The report on each packet up to the limit, from what those before it have left for its
direction. -/
theorem Trace.getElem?_dissectWith (decode : Decoder) (t : Trace) (gs : GrammarSet)
    (options : TraceOptions) (k : Nat) :
    (t.dissectWith decode gs options)[k]? = if k < t.limit options then
      t.packets[k]?.map fun p => p.reportFrom decode gs options.dissector k
        (contextBefore decode gs options.dissector p.direction t.packets k)
    else none := by
  rw [dissectWith_eq, getElem?_dissectPackets, List.getElem?_take]
  by_cases within : k < t.limit options
  · rw [if_pos within, if_pos within, List.take_take, Nat.min_eq_left (Nat.le_of_lt within),
      Nat.zero_add]
    rfl
  · rw [if_neg within, if_neg within]
    rfl

/-- A packet that is out of the part is silent, since it was not decoded in the direction. -/
theorem Trace.silent_of_out {t : Trace} {options : TraceOptions} {f : Nat → Nat} {m : Nat}
    (within : f m < t.limit options) (there : f m < t.packets.length)
    (kept : ∀ j < f m, ∀ r, (t.dissectWith decode gs options)[j]? = some r → r.direction = d →
      r.isDecoded = true → ∃ i, f i = j) :
    ∀ j < f m, (∀ i, f i ≠ j) → Silent decode gs options.dissector d t.packets j := by
  intro j before out
  obtain ⟨p, at_⟩ : ∃ p, t.packets[j]? = some p :=
    ⟨_, List.getElem?_eq_getElem (Nat.lt_trans before there)⟩
  refine silent_of_undecoded j at_ fun own => ?_
  subst own
  have report : (t.dissectWith decode gs options)[j]? =
      some (p.reportFrom decode gs options.dissector j
        (contextBefore decode gs options.dissector p.direction t.packets j)) := by
    rw [getElem?_dissectWith, if_pos (Nat.lt_trans before within), at_, Option.map_some]
  have direction := (TracePacket.direction_reportFrom decode gs options.dissector j
    (contextBefore decode gs options.dissector p.direction t.packets j) p).1
  refine Bool.eq_false_iff.mpr fun decoded => ?_
  obtain ⟨i, eq⟩ := kept j before _ report direction decoded
  exact out i eq

/-- By whatever decoder bytes are read off base 64, a trace has a report on each of its packets up
to the limit, in their order, with their directions and times.  And take any part of the trace: `f`
tells where its packets stand in the trace, so it keeps their order.  If the part has all packets
that were decoded before the packet at `f m` in its direction, then it has the same report on this
packet, at its own index `m`. -/
theorem dissect_direction (decode : Decoder) (t : Trace) (gs : GrammarSet)
    (options : TraceOptions) :
    (t.dissectWith decode gs options).length = min (t.limit options) t.packets.length ∧
    ((t.dissectWith decode gs options).map fun r => (r.direction, r.timestamp)) =
      ((t.packets.take (t.limit options)).map fun p => (p.direction, p.timestamp)) ∧
    ∀ (s : Trace) (f : Nat → Nat), StrictMono f → (∀ i, s.packets[i]? = t.packets[f i]?) →
      ∀ m r, (t.dissectWith decode gs options)[f m]? = some r →
        (∀ j < f m, ∀ r', (t.dissectWith decode gs options)[j]? = some r' →
          r'.direction = r.direction → r'.isDecoded = true → ∃ i, f i = j) →
        (s.dissectWith decode gs { options with packetLimit := none })[m]? = some (r.at m) := by
  refine ⟨?_, ?_, ?_⟩
  · rw [Trace.dissectWith_eq, length_dissectPackets, List.length_take]
  · refine List.ext_getElem? fun k => ?_
    rw [List.getElem?_map, List.getElem?_map, Trace.getElem?_dissectWith, List.getElem?_take]
    by_cases within : k < t.limit options
    · rw [if_pos within, if_pos within, Option.map_map]
      refine Option.map_congr fun p _ => ?_
      obtain ⟨direction, timestamp⟩ := TracePacket.direction_reportFrom decode gs
        options.dissector k (contextBefore decode gs options.dissector p.direction t.packets k) p
      exact Prod.ext direction timestamp
    · rw [if_neg within, if_neg within]
      rfl
  · intro s f order part m r at_ kept
    rw [Trace.getElem?_dissectWith] at at_
    by_cases within : f m < t.limit options
    · rw [if_pos within] at at_
      obtain ⟨p, there, rfl⟩ := Option.map_eq_some_iff.mp at_
      rw [(TracePacket.direction_reportFrom decode gs options.dissector (f m) _ p).1] at kept
      have short : f m < t.packets.length := (List.getElem?_eq_some_iff.mp there).1
      have same := contextBefore_part order part m (Trace.silent_of_out within short kept)
      have own : s.packets[m]? = some p := (part m).trans there
      have left : m < s.limit { options with packetLimit := none } :=
        (List.getElem?_eq_some_iff.mp own).1
      rw [Trace.getElem?_dissectWith, if_pos left, own, Option.map_some, TracePacket.reportFrom_at,
        same]
    · rw [if_neg within] at at_
      cases at_

/-- An opening packet gives the length of the data in those that follow in its direction. -/
def conversation : GrammarSet where
  entries := [("only", {
    roots := ["Open", "Data"]
    structures := [
      ⟨"Open", [
        .field ⟨"tag", {
          length := some (.bits 8), values := some (.single (.int 255)) }, false⟩,
        .field ⟨"size", {
          length := some (.bits 8)
          triggers := some [.onField "data" [.set .length], .saveToContext] }, false⟩]⟩,
      ⟨"Data", [.field ⟨"data", { length := some (.bits 8) }, false⟩]⟩] })]

/-- Two directions that take turns; the third packet is no base 64, and the fifth is too long for
what its direction has been told. -/
def recorded : Trace where
  host := ""
  scenario := ""
  stream := some [⟨"up", 0, "/wI="⟩, ⟨"down", 1, "Bw=="⟩, ⟨"up", 2, "!!!!"⟩, ⟨"up", 3, "AQI="⟩,
    ⟨"down", 4, "AQI="⟩, ⟨"down", 5, "Bw=="⟩]

/-- The packets of one direction that are decoded. -/
def excerpt : Trace where
  host := ""
  scenario := ""
  stream := some [⟨"up", 0, "/wI="⟩, ⟨"up", 3, "AQI="⟩]

/-- Where the packets of the excerpt stand. -/
def excerptPlace (i : Nat) : Nat := if i = 0 then 0 else if i = 1 then 3 else i + 4

theorem dissect_direction_recorded :
    StrictMono excerptPlace ∧ (∀ i, excerpt.packets[i]? = recorded.packets[excerptPlace i]?) ∧
    (∀ j < excerptPlace 1, ∀ r',
      (recorded.dissect conversation { packetLimit := some 5 })[j]? = some r' →
      r'.direction = "up" → r'.isDecoded = true → ∃ i, excerptPlace i = j) ∧
    ∃ r, (recorded.dissect conversation { packetLimit := some 5 })[excerptPlace 1]? = some r ∧
      r.direction = "up" ∧ r.isDecoded = true ∧
      (excerpt.dissect conversation { packetLimit := none })[1]? = some (r.at 1) := by
  have order : StrictMono excerptPlace := by
    intro a b lt
    unfold excerptPlace
    split_ifs <;> omega
  have part : ∀ i, excerpt.packets[i]? = recorded.packets[excerptPlace i]? := by
    intro i
    match i with
    | 0 => rfl
    | 1 => rfl
    | i + 2 => rfl
  have outcomes : (recorded.dissect conversation { packetLimit := some 5 }).map
      (fun r => (r.direction, r.isDecoded)) =
        [("up", true), ("down", true), ("up", false), ("up", true), ("down", false)] := by
    decide +kernel
  have outcome : ∀ (j : Nat) (r : DissectedPacket),
      (recorded.dissect conversation { packetLimit := some 5 })[j]? = some r →
      [("up", true), ("down", true), ("up", false), ("up", true), ("down", false)][j]? =
        some (r.direction, r.isDecoded) := by
    intro j r at_
    rw [← outcomes, List.getElem?_map, at_]
    rfl
  have kept : ∀ j < excerptPlace 1, ∀ r',
      (recorded.dissect conversation { packetLimit := some 5 })[j]? = some r' →
      r'.direction = "up" → r'.isDecoded = true → ∃ i, excerptPlace i = j := by
    intro j before r' at_ up decoded
    have told := outcome j r' at_
    rw [up, decoded] at told
    match j with
    | 0 => exact ⟨0, rfl⟩
    | 1 => simp at told
    | 2 => simp at told
    | j + 3 => exact absurd before (Nat.not_lt.mpr (Nat.le_add_left 3 j))
  obtain ⟨r, at_⟩ : ∃ r,
      (recorded.dissect conversation { packetLimit := some 5 })[excerptPlace 1]? = some r := by
    have told := congrArg (fun rs => rs[3]?) outcomes
    simp only [List.getElem?_map] at told
    obtain ⟨r, at_, -⟩ := Option.map_eq_some_iff.mp told
    exact ⟨r, at_⟩
  have told := outcome _ r at_
  obtain ⟨up, decoded⟩ := Prod.mk.inj (Option.some.inj told)
  refine ⟨order, part, kept, r, at_, up.symm, decoded.symm, ?_⟩
  obtain ⟨-, -, alike⟩ := dissect_direction Bytes.Base64.decode recorded conversation
    { packetLimit := some 5 }
  refine alike excerpt excerptPlace order part 1 r at_ ?_
  rw [← up]
  exact kept

end WireGrammar
