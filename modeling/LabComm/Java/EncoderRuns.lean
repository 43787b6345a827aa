import LabComm.Java.EncoderChannel

set_option autoImplicit false

/-! # Registrations that fail and are retried

A class is in `type_def_registry` before its type is encoded. When that throws, because a type
it refers to is not registered or because the writer fails, the class is taken for registered
from then on, and its TYPE_DEF is never sent. In a run of calls of `register` the stream and the
registry agree exactly as long as this does not happen (`register_inOrder_iff`).
-/

namespace LabComm.Java

open Library Compiler

/-! ## The writer -/

/-- The writer after some calls that do not throw. -/
def Writer.after (w : Writer) (chunks : List (List UInt8)) : Writer :=
  { w with calls := w.calls + chunks.length, written := w.written ++ chunks.flatten }

theorem Writer.after_append (w : Writer) (chunks more : List (List UInt8)) :
    w.after (chunks ++ more) = (w.after chunks).after more := by
  simp [Writer.after, Nat.add_assoc]

theorem Writer.accepts_add {w : Writer} (chunks : List (List UInt8)) (n : Nat) :
    w.Accepts (chunks.length + n) ↔ w.Accepts chunks.length ∧ (w.after chunks).Accepts n := by
  constructor
  · intro h
    refine ⟨fun i hi => h i (by omega), fun i hi => ?_⟩
    show w.fails (w.calls + chunks.length + i) = none
    rw [Nat.add_assoc]
    exact h _ (by omega)
  · rintro ⟨hfirst, hmore⟩ i hi
    by_cases hlt : i < chunks.length
    · exact hfirst i hlt
    · have h : w.fails (w.calls + chunks.length + (i - chunks.length)) = none :=
        hmore (i - chunks.length) (by omega)
      rwa [show w.calls + chunks.length + (i - chunks.length) = w.calls + i by omega] at h

/-- `write`, once the state is read. -/
theorem write_run (bytes : List UInt8) (e : EncoderChannel) :
    (write bytes).run e = (match e.writer.fails e.writer.calls with
      | none => modify fun e' => { e' with writer := { e.writer with
          calls := e.writer.calls + 1, written := e.writer.written ++ bytes } }
      | some n => do
          modify fun e' => { e' with writer := { e.writer with
            calls := e.writer.calls + 1, written := e.writer.written ++ bytes.take n } }
          throw .writer : EncoderM Unit).run e := rfl

theorem write_ok {e : EncoderChannel} (bytes : List UInt8)
    (h : e.writer.fails e.writer.calls = none) :
    (write bytes).run e = (.ok (), { e with writer := e.writer.after [bytes] }) := by
  rw [write_run, h]
  simp [Writer.after]
  rfl

theorem write_error {e : EncoderChannel} (bytes : List UInt8)
    (h : e.writer.fails e.writer.calls ≠ none) :
    ∃ w, (write bytes).run e = (.error .writer, { e with writer := w }) := by
  obtain ⟨n, hn⟩ := Option.ne_none_iff_exists'.mp h
  refine ⟨{ e.writer with
    calls := e.writer.calls + 1, written := e.writer.written ++ bytes.take n }, ?_⟩
  rw [write_run, hn]
  rfl

theorem writeAll_ok {e : EncoderChannel} {chunks : List (List UInt8)}
    (h : e.writer.Accepts chunks.length) :
    (chunks.forM write).run e = (.ok (), { e with writer := e.writer.after chunks }) := by
  induction chunks generalizing e with
  | nil => simp [Writer.after]; rfl
  | cons chunk chunks ih =>
      rw [List.length_cons, Nat.add_comm] at h
      obtain ⟨hfirst, hmore⟩ := (Writer.accepts_add [chunk] _).mp h
      change (write chunk >>= fun _ => chunks.forM write).run e = _
      rw [run_bind_ok (write_ok chunk (hfirst 0 (by simp))), ih hmore]
      rw [← Writer.after_append, List.singleton_append]

theorem writeAll_error {e : EncoderChannel} {chunks : List (List UInt8)}
    (h : ¬ e.writer.Accepts chunks.length) :
    ∃ w, (chunks.forM write).run e = (.error .writer, { e with writer := w }) := by
  induction chunks generalizing e with
  | nil => exact absurd (fun i hi => absurd hi (by simp)) h
  | cons chunk chunks ih =>
      rw [List.length_cons, Nat.add_comm] at h
      change ∃ w, (write chunk >>= fun _ => chunks.forM write).run e = _
      by_cases hfirst : e.writer.fails e.writer.calls = none
      · have hmore : ¬ (e.writer.after [chunk]).Accepts chunks.length := by
          intro hmore
          refine h ((Writer.accepts_add [chunk] _).mpr ⟨fun i hi => ?_, hmore⟩)
          obtain rfl : i = 0 := by simpa using hi
          exact hfirst
        rw [run_bind_ok (write_ok chunk hfirst)]
        exact ih (e := { e with writer := e.writer.after [chunk] }) hmore
      · obtain ⟨w, hw⟩ := write_error chunk hfirst
        exact ⟨w, run_bind_error hw⟩

/-! ## Packets -/

/-- What `end` gives to the writer, in order. -/
def packetChunks (tag : Nat) (bytes : List UInt8) : List (List UInt8) :=
  (packed32 tag).map ([·]) ++ ((packed32 bytes.length).map ([·]) ++ [bytes])

theorem packetChunks_flatten (p : Packet) : (packetChunks p.tag p.body).flatten = p.bytes := by
  simp [packetChunks, Packet.bytes, counted, ← List.flatMap_def]

theorem writePacked32_eq (value : Nat) :
    writePacked32 value = ((packed32 value).map ([·])).forM write := by
  unfold writePacked32
  induction packed32 value with
  | nil => rfl
  | cons b bs ih =>
      change (write [b] >>= fun _ => bs.forM fun b => write [b]) =
        (write [b] >>= fun _ => (bs.map ([·])).forM write)
      rw [ih]

theorem endPacket_eq (p : Packet) (e : EncoderChannel) :
    (endPacket p).run e = ((packetChunks e.currentTag e.bytes).forM write >>= fun _ =>
      modify fun e => { e with bytes := [], sent := e.sent ++ [p] } : EncoderM Unit).run e := by
  change (writePacked32 e.currentTag >>= fun _ => writePacked32 e.bytes.length >>= fun _ =>
    write e.bytes >>= fun _ => _ : EncoderM Unit).run e = _
  simp only [writePacked32_eq, packetChunks, List.forM_eq_forM, List.forM_append, bind_assoc,
    List.forM_cons, List.forM_nil, pure_bind]

/-- The packet goes out and is logged. -/
theorem endPacket_ok {e : EncoderChannel} (p : Packet)
    (h : e.writer.Accepts (packetChunks e.currentTag e.bytes).length) :
    (endPacket p).run e = (.ok (), { e with
      writer := e.writer.after (packetChunks e.currentTag e.bytes), bytes := [],
      sent := e.sent ++ [p] }) := by
  rw [endPacket_eq, run_bind_ok (writeAll_ok h)]
  rfl

theorem endPacket_error {e : EncoderChannel} (p : Packet)
    (h : ¬ e.writer.Accepts (packetChunks e.currentTag e.bytes).length) :
    ∃ w, (endPacket p).run e = (.error .writer, { e with writer := w }) := by
  obtain ⟨w, hw⟩ := writeAll_error h
  exact ⟨w, by rw [endPacket_eq, run_bind_error hw]⟩

/-! ## Definitions -/

theorem encodeString_ok {s : List UInt8} (h : s.length ≤ 65535) (e : EncoderChannel) :
    (encodeString s).run e = (.ok (), { e with bytes := e.bytes ++ counted s }) := by
  rw [encodeString, if_neg (by omega), counted, ← List.append_assoc]
  rfl

theorem encodeDefinition_ok {name : Name} (h : name.length ≤ 65535) (index : Nat)
    (signature : List UInt8) (e : EncoderChannel) :
    (encodeDefinition index name signature).run e = (.ok (), { e with
      bytes := e.bytes ++ definitionBytes index [nameIntention name] signature }) := by
  change (encodeString name >>= fun _ => _).run _ = _
  rw [run_bind_ok (encodeString_ok h _)]
  simp only [definitionBytes, intentionsBytes, nameIntention, Intention.bytes, counted,
    List.flatMap_cons, List.flatMap_nil, List.length_singleton, List.length_nil, List.append_nil,
    List.append_assoc]
  simp only [← List.append_assoc]
  rfl

theorem encodeDefinition_error {name : Name} (h : 65535 < name.length) (index : Nat)
    (signature : List UInt8) (e : EncoderChannel) :
    ∃ bytes, (encodeDefinition index name signature).run e =
      (.error .utfDataFormat, { e with bytes := bytes }) := by
  refine ⟨e.bytes ++ packed32 index ++ packed32 1 ++ packed32 0, ?_⟩
  change (encodeString name >>= fun _ => _).run _ = _
  rw [encodeString, if_pos h]
  rfl

/-- The number of calls of the writer that a packet takes. -/
def packetWrites (p : Packet) : Nat := (packetChunks p.tag p.body).length

/-- The channel after a packet. -/
def EncoderChannel.sends (e : EncoderChannel) (p : Packet) : EncoderChannel :=
  { e with
    writer := e.writer.after (packetChunks p.tag p.body), bytes := [], currentTag := p.tag,
    sent := e.sent ++ [p] }

/-- The channel in the middle of a packet. -/
def EncoderChannel.filled (e : EncoderChannel) (p : Packet) : EncoderChannel :=
  { e with currentTag := p.tag, bytes := p.body }

section Send

variable {α : Type} {m : EncoderM Unit} {p : Packet} {k : EncoderM α} {e : EncoderChannel}
  (hm : m.run { e with currentTag := p.tag, bytes := [] } = (.ok (), e.filled p))

include hm

theorem packet_ok (h : e.writer.Accepts (packetWrites p)) :
    (begin p.tag >>= fun _ => m >>= fun _ => endPacket p >>= fun _ => k).run e =
      k.run (e.sends p) := by
  change (m >>= fun _ => _).run _ = _
  rw [run_bind_ok hm, run_bind_ok (endPacket_ok (e := e.filled p) p h)]
  rfl

theorem packet_error (h : ¬ e.writer.Accepts (packetWrites p)) :
    ∃ w, (begin p.tag >>= fun _ => m >>= fun _ => endPacket p >>= fun _ => k).run e =
      (.error .writer, { e.filled p with writer := w }) := by
  obtain ⟨w, hw⟩ := endPacket_error (e := e.filled p) p h
  refine ⟨w, ?_⟩
  change (m >>= fun _ => _).run _ = _
  rw [run_bind_ok hm, run_bind_error hw]

end Send

/-! ## Type definitions -/

/-- The items of a line, by the ids of a registry. -/
def EmitLine.items (r : EncoderRegistry) : EmitLine → Option (List SigItem)
  | encodeBytes bytes => some (bytes.map .byte)
  | encodeTypeId sampleClass => (r.byClass sampleClass).map fun index => [.typeId index]

/-- What `encodeTypeDef` encodes, unless a class is not in the registry. -/
def typeDefItems (r : EncoderRegistry) (d : SampleDispatcher) : Option (List SigItem) :=
  (d.typeDef.mapM (EmitLine.items r)).map List.flatten

/-- `getTypeId`, once the state is read. -/
theorem getTypeId_run (sampleClass : Name) (e : EncoderChannel) :
    (getTypeId sampleClass).run e = (match e.typeDefRegistry.byClass sampleClass with
      | some index => pure index
      | none => throw (.notRegistered sampleClass) : EncoderM Nat).run e := rfl

theorem emit_run (e : EncoderChannel) (line : EmitLine) :
    (∃ items, line.items e.typeDefRegistry = some items ∧ line.emit.run e = (.ok items, e)) ∨
      (line.items e.typeDefRegistry = none ∧ ∃ x, line.emit.run e = (.error x, e)) := by
  cases line with
  | encodeBytes bytes => exact .inl ⟨_, rfl, rfl⟩
  | encodeTypeId sampleClass =>
      cases hindex : e.typeDefRegistry.byClass sampleClass with
      | some index =>
          have hget : (getTypeId sampleClass).run e = (.ok index, e) := by
            rw [getTypeId_run, hindex]
            rfl
          refine .inl ⟨_, by rw [EmitLine.items, hindex]; rfl, ?_⟩
          rw [EmitLine.emit, run_bind_ok hget]
          rfl
      | none =>
          have hget : (getTypeId sampleClass).run e = (.error (.notRegistered sampleClass), e) := by
            rw [getTypeId_run, hindex]
            rfl
          refine .inr ⟨by rw [EmitLine.items, hindex]; rfl, .notRegistered sampleClass, ?_⟩
          rw [EmitLine.emit, run_bind_error hget]

theorem emitAll_run (e : EncoderChannel) (lines : List EmitLine) :
    (∃ items, lines.mapM (EmitLine.items e.typeDefRegistry) = some items ∧
        (lines.mapM EmitLine.emit).run e = (.ok items, e)) ∨
      (lines.mapM (EmitLine.items e.typeDefRegistry) = none ∧
        ∃ x, (lines.mapM EmitLine.emit).run e = (.error x, e)) := by
  induction lines with
  | nil => exact .inl ⟨[], rfl, rfl⟩
  | cons line lines ih =>
      rw [List.mapM_cons, List.mapM_cons]
      rcases emit_run e line with ⟨first, hfirst, hrun⟩ | ⟨hfirst, x, hrun⟩
      · rw [hfirst, run_bind_ok hrun]
        rcases ih with ⟨rest, hrest, hrun'⟩ | ⟨hrest, x, hrun'⟩
        · exact .inl ⟨first :: rest, by rw [hrest]; rfl, by rw [run_bind_ok hrun']; rfl⟩
        · exact .inr ⟨by rw [hrest]; rfl, x, run_bind_error hrun'⟩
      · exact .inr ⟨by rw [hfirst]; rfl, x, run_bind_error hrun⟩

theorem encodeTypeDef_ok {e : EncoderChannel} {d : SampleDispatcher} {items : List SigItem}
    (h : typeDefItems e.typeDefRegistry d = some items) :
    (encodeTypeDef d).run e = (.ok items, e) := by
  rw [typeDefItems, Option.map_eq_some_iff] at h
  obtain ⟨lists, hlists, rfl⟩ := h
  rcases emitAll_run e d.typeDef with ⟨lists', hlists', hrun⟩ | ⟨hnone, _⟩
  · rw [hlists] at hlists'
    cases hlists'
    rw [encodeTypeDef, run_bind_ok hrun]
    rfl
  · rw [hlists] at hnone
    cases hnone

theorem encodeTypeDef_error {e : EncoderChannel} {d : SampleDispatcher}
    (h : typeDefItems e.typeDefRegistry d = none) :
    ∃ x, (encodeTypeDef d).run e = (.error x, e) := by
  rw [typeDefItems, Option.map_eq_none_iff] at h
  rcases emitAll_run e d.typeDef with ⟨lists, hlists, _⟩ | ⟨_, x, hrun⟩
  · rw [h] at hlists
    cases hlists
  · exact ⟨x, by rw [encodeTypeDef, run_bind_error hrun]⟩

/-- The channel with the class in the registry of the types. -/
def EncoderChannel.added (e : EncoderChannel) (d : SampleDispatcher) : EncoderChannel :=
  { e with typeDefRegistry := (e.typeDefRegistry.add d.sampleClass).2 }

/-- The TYPE_DEF of a class that is not in the registry. -/
def typeDefPacket (r : EncoderRegistry) (d : SampleDispatcher) (items : List SigItem) : Packet :=
  .typeDef r.userIndex [nameIntention d.name] items

theorem add_new {r : EncoderRegistry} {c : Name} (h : r.byClass c = none) :
    r.add c = (r.userIndex, ⟨r.userIndex + 1, Function.update r.byClass c (some r.userIndex)⟩) := by
  rw [EncoderRegistry.add, h]

theorem addTypeDef_new {e : EncoderChannel} {d : SampleDispatcher}
    (hnew : e.typeDefRegistry.byClass d.sampleClass = none) :
    (addTypeDef d).run e = (.ok e.typeDefRegistry.userIndex, e.added d) := by
  have hrun : (addTypeDef d).run e =
      (.ok (e.typeDefRegistry.add d.sampleClass).1, e.added d) := rfl
  rw [hrun, add_new hnew]

/-- The type is defined. -/
theorem defineType_ok {e : EncoderChannel} {d : SampleDispatcher} {items : List SigItem}
    (hnew : e.typeDefRegistry.byClass d.sampleClass = none)
    (hitems : typeDefItems (e.added d).typeDefRegistry d = some items)
    (hname : d.name.length ≤ 65535)
    (h : e.writer.Accepts (packetWrites (typeDefPacket e.typeDefRegistry d items))) :
    (defineType d).run e = (.ok e.typeDefRegistry.userIndex,
      (e.added d).sends (typeDefPacket e.typeDefRegistry d items)) := by
  rw [defineType, run_bind_ok (addTypeDef_new hnew), run_bind_ok (encodeTypeDef_ok hitems)]
  exact packet_ok (p := typeDefPacket e.typeDefRegistry d items)
    (encodeDefinition_ok hname _ _ _) h

/-- The class stays in the registry when its type is not defined. -/
theorem defineType_error {e : EncoderChannel} {d : SampleDispatcher}
    (hnew : e.typeDefRegistry.byClass d.sampleClass = none)
    (h : ¬ (d.name.length ≤ 65535 ∧ ∃ items,
      typeDefItems (e.added d).typeDefRegistry d = some items ∧
        e.writer.Accepts (packetWrites (typeDefPacket e.typeDefRegistry d items)))) :
    ∃ x e', (defineType d).run e = (.error x, e') ∧ e'.sent = e.sent ∧
      e'.typeDefRegistry = (e.added d).typeDefRegistry := by
  rw [defineType, run_bind_ok (addTypeDef_new hnew)]
  cases hitems : typeDefItems (e.added d).typeDefRegistry d with
  | none =>
      obtain ⟨x, hx⟩ := encodeTypeDef_error hitems
      exact ⟨x, _, run_bind_error hx, rfl, rfl⟩
  | some items =>
      rw [run_bind_ok (encodeTypeDef_ok hitems)]
      by_cases hname : d.name.length ≤ 65535
      · have hrefused : ¬ (e.added d).writer.Accepts
            (packetWrites (typeDefPacket e.typeDefRegistry d items)) :=
          fun haccepts => h ⟨hname, items, hitems, haccepts⟩
        obtain ⟨w, hw⟩ := packet_error (p := typeDefPacket e.typeDefRegistry d items)
          (k := pure e.typeDefRegistry.userIndex) (encodeDefinition_ok hname _ _ _) hrefused
        exact ⟨_, _, hw, rfl, rfl⟩
      · obtain ⟨bytes, hbytes⟩ := encodeDefinition_error (not_le.mp hname)
          e.typeDefRegistry.userIndex (items.flatMap SigItem.bytes)
          { e.added d with currentTag := LABCOMM_TYPE_DEF, bytes := [] }
        have hrun : (encodeDefinition e.typeDefRegistry.userIndex d.name
            (items.flatMap SigItem.bytes) >>= fun _ =>
              endPacket (typeDefPacket e.typeDefRegistry d items) >>= fun _ =>
                pure e.typeDefRegistry.userIndex).run
              { e.added d with currentTag := LABCOMM_TYPE_DEF, bytes := [] } = _ :=
          run_bind_error hbytes
        exact ⟨_, _, hrun, rfl, rfl⟩

/-! ## Order -/

/-- A TYPE_DEF with the id was sent. -/
def TypeSent (sent : List Packet) (index : Nat) : Prop :=
  ∃ intentions signature, Packet.typeDef index intentions signature ∈ sent

/-- The ids of a packet were defined before. -/
structure IdNeeds (pre : List Packet) (p : Packet) : Prop where
  typeIds : ∀ index intentions signature j, p = .typeDef index intentions signature →
    SigItem.typeId j ∈ signature → TypeSent pre j
  binding : ∀ sindex tindex, p = .typeBinding sindex tindex → tindex = 0 ∨ TypeSent pre tindex

/-- Every id in the stream was defined before, and the classes in the registry are those whose
TYPE_DEF was sent, with the same index. -/
structure InOrder (e : EncoderChannel) : Prop where
  ids : Justified IdNeeds e.sent
  registered : ∀ c index, e.typeDefRegistry.byClass c = some index ↔
    ∃ signature, Packet.typeDef index [nameIntention c] signature ∈ e.sent

theorem InOrder.typeSent {e : EncoderChannel} (h : InOrder e) {c : Name} {index : Nat}
    (hc : e.typeDefRegistry.byClass c = some index) : TypeSent e.sent index := by
  obtain ⟨signature, hmem⟩ := (h.registered c index).mp hc
  exact ⟨_, signature, hmem⟩

theorem InOrder.congr {e e' : EncoderChannel} (h : InOrder e) (hsent : e'.sent = e.sent)
    (hregistry : e'.typeDefRegistry = e.typeDefRegistry) : InOrder e' := by
  constructor
  · rw [hsent]
    exact h.ids
  · rw [hsent, hregistry]
    exact h.registered

/-- A packet that defines no type. -/
theorem InOrder.concat {e e' : EncoderChannel} (h : InOrder e) {p : Packet}
    (hsent : e'.sent = e.sent ++ [p]) (hregistry : e'.typeDefRegistry = e.typeDefRegistry)
    (htype : ∀ index intentions signature, p ≠ .typeDef index intentions signature)
    (hbinding : ∀ sindex tindex, p = .typeBinding sindex tindex →
      tindex = 0 ∨ TypeSent e.sent tindex) : InOrder e' := by
  constructor
  · rw [hsent]
    exact h.ids.concat ⟨fun i is s j hp _ => absurd hp (htype i is s), hbinding⟩
  · intro c index
    rw [hregistry, h.registered, hsent]
    constructor
    · rintro ⟨signature, hmem⟩
      exact ⟨signature, List.mem_append_left _ hmem⟩
    · rintro ⟨signature, hmem⟩
      rcases List.mem_append.mp hmem with hmem | hmem
      · exact ⟨signature, hmem⟩
      · exact absurd (List.mem_singleton.mp hmem).symm (htype _ _ _)

/-- What is known of the generated dispatchers. -/
structure Generates (d : SampleDispatcher) : Prop where
  named : d.sampleClass = d.name
  refers : ∀ c, EmitLine.encodeTypeId c ∈ d.typeDef → c ≠ d.sampleClass
  signature : d.isSample = true → ∃ signature, d.signature = some signature

theorem mem_items {r : EncoderRegistry} {line : EmitLine} {items : List SigItem}
    (h : line.items r = some items) {j : Nat} (hj : SigItem.typeId j ∈ items) :
    ∃ c, r.byClass c = some j := by
  cases line with
  | encodeBytes bytes =>
      cases h
      simp at hj
  | encodeTypeId c =>
      rw [EmitLine.items, Option.map_eq_some_iff] at h
      obtain ⟨index, hindex, rfl⟩ := h
      rw [List.mem_singleton] at hj
      cases hj
      exact ⟨c, hindex⟩

/-- The ids in a type are those of classes in the registry. -/
theorem mem_typeDefItems {r : EncoderRegistry} {d : SampleDispatcher} {items : List SigItem}
    (h : typeDefItems r d = some items) {j : Nat} (hj : SigItem.typeId j ∈ items) :
    ∃ c, r.byClass c = some j := by
  rw [typeDefItems, Option.map_eq_some_iff] at h
  obtain ⟨lists, hlists, rfl⟩ := h
  obtain ⟨list, hlist, hj⟩ := List.mem_flatten.mp hj
  obtain ⟨line, _, hline⟩ := mem_of_mapM_eq_some hlists hlist
  exact mem_items hline hj

/-- The registration of the class itself does not matter for its type. -/
theorem typeDefItems_added {e : EncoderChannel} {d : SampleDispatcher} (hd : Generates d) :
    typeDefItems (e.added d).typeDefRegistry d = typeDefItems e.typeDefRegistry d := by
  have hlines : ∀ line ∈ d.typeDef,
      line.items (e.added d).typeDefRegistry = line.items e.typeDefRegistry := by
    intro line hline
    cases line with
    | encodeBytes bytes => rfl
    | encodeTypeId c =>
        have hne := hd.refers c hline
        have hsame : (e.added d).typeDefRegistry.byClass c = e.typeDefRegistry.byClass c := by
          rw [EncoderChannel.added, EncoderRegistry.add]
          split
          · rfl
          · simp [Function.update_of_ne hne]
        rw [EmitLine.items, EmitLine.items, hsame]
  rw [typeDefItems, typeDefItems]
  congr 1
  revert hlines
  generalize d.typeDef = lines
  intro hlines
  induction lines with
  | nil => rfl
  | cons line lines ih =>
      rw [List.mapM_cons, List.mapM_cons, hlines line List.mem_cons_self,
        ih fun l hl => hlines l (List.mem_cons_of_mem _ hl)]

/-- The type of a class is there already, or its TYPE_DEF goes out: all classes it refers to are
in the registry, and the writer takes the packet. -/
def TypeGoesOut (d : SampleDispatcher) (w : Writer) (r : EncoderRegistry) : Prop :=
  r.byClass d.sampleClass ≠ none ∨ (d.name.length ≤ 65535 ∧
    ∃ items, typeDefItems r d = some items ∧ w.Accepts (packetWrites (typeDefPacket r d items)))

/-- `registerTypeDef`, once the state is read. -/
theorem registerTypeDef_run (d : SampleDispatcher) (e : EncoderChannel) :
    (registerTypeDef d).run e = (match e.typeDefRegistry.byClass d.sampleClass with
      | some index => pure index
      | none => defineType d : EncoderM Nat).run e := rfl

theorem registerTypeDef_known {e : EncoderChannel} {d : SampleDispatcher} {index : Nat}
    (h : e.typeDefRegistry.byClass d.sampleClass = some index) :
    (registerTypeDef d).run e = (.ok index, e) := by
  rw [registerTypeDef_run, h]
  rfl

theorem registerTypeDef_new {e : EncoderChannel} {d : SampleDispatcher}
    (h : e.typeDefRegistry.byClass d.sampleClass = none) :
    (registerTypeDef d).run e = (defineType d).run e := by
  rw [registerTypeDef_run, h]

section Types

variable {e : EncoderChannel} {d : SampleDispatcher} (hd : Generates d) (hI : InOrder e)

include hd hI

theorem InOrder.defined {items : List SigItem}
    (hnew : e.typeDefRegistry.byClass d.sampleClass = none)
    (hitems : typeDefItems e.typeDefRegistry d = some items) :
    InOrder ((e.added d).sends (typeDefPacket e.typeDefRegistry d items)) := by
  have hadded : (e.added d).typeDefRegistry.byClass =
      Function.update e.typeDefRegistry.byClass d.sampleClass
        (some e.typeDefRegistry.userIndex) := by
    rw [EncoderChannel.added, add_new hnew]
  constructor
  · -- the types it refers to were sent before
    refine hI.ids.concat ⟨?_, fun _ _ hp => by cases hp⟩
    intro index intentions signature j hp hj
    cases hp
    obtain ⟨c, hc⟩ := mem_typeDefItems hitems hj
    exact hI.typeSent hc
  · intro c index
    show (e.added d).typeDefRegistry.byClass c = some index ↔
      ∃ signature, _ ∈ e.sent ++ [typeDefPacket e.typeDefRegistry d items]
    rw [hadded]
    by_cases hc : c = d.sampleClass
    · -- no packet of the class was sent before
      subst hc
      have hbefore : ∀ index signature,
          Packet.typeDef index [nameIntention d.sampleClass] signature ∉ e.sent := by
        intro index signature hmem
        rw [(hI.registered _ index).mpr ⟨signature, hmem⟩] at hnew
        cases hnew
      rw [Function.update_self, Option.some.injEq]
      constructor
      · rintro rfl
        refine ⟨items, List.mem_append_right _ ?_⟩
        rw [typeDefPacket, hd.named]
        exact List.mem_singleton_self _
      · rintro ⟨signature, hmem⟩
        rcases List.mem_append.mp hmem with hmem | hmem
        · exact absurd hmem (hbefore _ _)
        · rw [List.mem_singleton, typeDefPacket] at hmem
          injection hmem with hindex
          exact hindex.symm
    · rw [Function.update_of_ne hc, hI.registered]
      constructor
      · rintro ⟨signature, hmem⟩
        exact ⟨signature, List.mem_append_left _ hmem⟩
      · rintro ⟨signature, hmem⟩
        rcases List.mem_append.mp hmem with hmem | hmem
        · exact ⟨signature, hmem⟩
        · rw [List.mem_singleton, typeDefPacket] at hmem
          injection hmem with _ hname _
          rw [hd.named] at hc
          exact absurd (by simpa [nameIntention] using hname) hc

theorem registerTypeDef_ok (h : TypeGoesOut d e.writer e.typeDefRegistry) :
    ∃ index e', (registerTypeDef d).run e = (.ok index, e') ∧ InOrder e' ∧
      e'.typeDefRegistry.byClass d.sampleClass = some index := by
  cases hknown : e.typeDefRegistry.byClass d.sampleClass with
  | some index => exact ⟨index, e, registerTypeDef_known hknown, hI, hknown⟩
  | none =>
      obtain ⟨hname, items, hitems, haccepts⟩ := h.resolve_left (not_not.mpr hknown)
      have hrun := defineType_ok hknown ((typeDefItems_added hd).trans hitems) hname haccepts
      refine ⟨_, _, (registerTypeDef_new hknown).trans hrun, hI.defined hd hknown hitems, ?_⟩
      show (e.added d).typeDefRegistry.byClass d.sampleClass = _
      rw [EncoderChannel.added, add_new hknown]
      simp

/-- When the type does not go out, the class is in the registry without it. -/
theorem registerTypeDef_error (h : ¬ TypeGoesOut d e.writer e.typeDefRegistry) :
    ∃ x e', (registerTypeDef d).run e = (.error x, e') ∧ ¬ InOrder e' := by
  rw [TypeGoesOut, not_or, not_not] at h
  obtain ⟨hnew, h⟩ := h
  rw [← typeDefItems_added hd] at h
  obtain ⟨x, e', hrun, hsent, hregistry⟩ := defineType_error hnew h
  refine ⟨x, e', (registerTypeDef_new hnew).trans hrun, fun hI' => ?_⟩
  have hclass : e'.typeDefRegistry.byClass d.sampleClass =
      some e.typeDefRegistry.userIndex := by
    rw [hregistry, EncoderChannel.added, add_new hnew]
    simp
  obtain ⟨signature, hmem⟩ := (hI'.registered _ _).mp hclass
  rw [hsent] at hmem
  rw [(hI.registered _ _).mpr ⟨signature, hmem⟩] at hnew
  cases hnew

end Types

/-! ## Samples -/

/-- The SAMPLE_DEF of a sample. -/
def sampleDefPacket (e : EncoderChannel) (d : SampleDispatcher) (signature : List UInt8) : Packet :=
  .sampleDef (e.sampleDefRegistry.add d.sampleClass).1 [nameIntention d.name] signature

/-- The SAMPLE_DEF of a sample goes out. -/
def SampleGoesOut (d : SampleDispatcher) (e : EncoderChannel) (signature : List UInt8) : Prop :=
  d.name.length ≤ 65535 ∧ e.writer.Accepts (packetWrites (sampleDefPacket e d signature))

/-- The channel with the class in the registry of the samples. -/
def EncoderChannel.addedSample (e : EncoderChannel) (d : SampleDispatcher) : EncoderChannel :=
  { e with sampleDefRegistry := (e.sampleDefRegistry.add d.sampleClass).2 }

theorem addSampleDef_run (e : EncoderChannel) (d : SampleDispatcher) :
    (addSampleDef d).run e =
      (.ok (e.sampleDefRegistry.add d.sampleClass).1, e.addedSample d) := rfl

section Samples

variable {d : SampleDispatcher} {signature : List UInt8} (hsample : d.isSample = true)
  (hsignature : d.signature = some signature)

include hsample hsignature

theorem defineSample_eq (e : EncoderChannel) :
    (defineSample d).run e = (begin LABCOMM_SAMPLE_DEF >>= fun _ =>
      encodeDefinition (e.sampleDefRegistry.add d.sampleClass).1 d.name signature >>= fun _ =>
        endPacket (sampleDefPacket e d signature) >>= fun _ =>
          (pure (e.sampleDefRegistry.add d.sampleClass).1 : EncoderM Nat)).run
            (e.addedSample d) := by
  rw [defineSample, run_bind_ok (addSampleDef_run e d), SampleDispatcher.typeDeclTag,
    if_pos hsample, hsignature]
  rfl

theorem defineSample_ok {e : EncoderChannel} (h : SampleGoesOut d e signature) :
    (defineSample d).run e = (.ok (e.sampleDefRegistry.add d.sampleClass).1,
      (e.addedSample d).sends (sampleDefPacket e d signature)) := by
  rw [defineSample_eq hsample hsignature]
  exact packet_ok (p := sampleDefPacket e d signature) (encodeDefinition_ok h.1 _ _ _) h.2

theorem defineSample_error {e : EncoderChannel} (h : ¬ SampleGoesOut d e signature) :
    ∃ x e', (defineSample d).run e = (.error x, e') ∧ e'.sent = e.sent ∧
      e'.typeDefRegistry = e.typeDefRegistry := by
  rw [defineSample_eq hsample hsignature]
  by_cases hname : d.name.length ≤ 65535
  · obtain ⟨w, hw⟩ := packet_error (p := sampleDefPacket e d signature) (e := e.addedSample d)
      (k := pure (e.sampleDefRegistry.add d.sampleClass).1) (encodeDefinition_ok hname _ _ _)
      fun haccepts => h ⟨hname, haccepts⟩
    exact ⟨_, _, hw, rfl, rfl⟩
  · obtain ⟨bytes, hbytes⟩ := encodeDefinition_error (not_le.mp hname)
      (e.sampleDefRegistry.add d.sampleClass).1 signature
      { e.addedSample d with currentTag := LABCOMM_SAMPLE_DEF, bytes := [] }
    have hrun : (encodeDefinition (e.sampleDefRegistry.add d.sampleClass).1 d.name signature >>=
        fun _ => endPacket (sampleDefPacket e d signature) >>= fun _ =>
          pure (e.sampleDefRegistry.add d.sampleClass).1).run
          { e.addedSample d with currentTag := LABCOMM_SAMPLE_DEF, bytes := [] } = _ :=
      run_bind_error hbytes
    exact ⟨_, _, hrun, rfl, rfl⟩

end Samples

/-- A binding keeps the order, also when it does not go out. -/
theorem bindType_inOrder {e : EncoderChannel} (hI : InOrder e) (sindex : Nat) {tindex : Nat}
    (htype : tindex = 0 ∨ TypeSent e.sent tindex) :
    InOrder ((bindType sindex tindex).run e).2 := by
  have hm : (encodePacked32 sindex >>= fun _ => encodePacked32 tindex).run
      { e with currentTag := LABCOMM_TYPE_BINDING, bytes := [] } =
        (.ok (), e.filled (.typeBinding sindex tindex)) := rfl
  have hbind : bindType sindex tindex = (begin (Packet.typeBinding sindex tindex).tag >>= fun _ =>
      (encodePacked32 sindex >>= fun _ => encodePacked32 tindex) >>= fun _ =>
        endPacket (.typeBinding sindex tindex) >>= fun _ => pure ()) := by
    simp only [bindType, bind_assoc, bind_pure_unit]
    rfl
  rw [hbind]
  by_cases h : e.writer.Accepts (packetWrites (.typeBinding sindex tindex))
  · rw [packet_ok (p := .typeBinding sindex tindex) (k := pure ()) hm h]
    refine hI.concat (p := .typeBinding sindex tindex) rfl rfl (fun _ _ _ hp => by cases hp) ?_
    intro s t hp
    cases hp
    exact htype
  · obtain ⟨w, hw⟩ := packet_error (p := .typeBinding sindex tindex) (k := pure ()) hm h
    rw [hw]
    exact hI.congr rfl rfl

/-! ## Calls -/

/-- Later calls of the writer. -/
def Writer.skip (w : Writer) (n : Nat) : Writer := { w with calls := w.calls + n }

/-- The call leaves no class in the registry without its TYPE_DEF: if it comes to the type, which
for a sample is after its SAMPLE_DEF and if it has dependencies, the type goes out. -/
def Completes (d : SampleDispatcher) (e : EncoderChannel) : Prop :=
  if d.isSample then
    d.hasDependencies = true → ∀ signature, d.signature = some signature →
      SampleGoesOut d e signature →
        TypeGoesOut d (e.writer.skip (packetWrites (sampleDefPacket e d signature)))
          e.typeDefRegistry
  else
    TypeGoesOut d e.writer e.typeDefRegistry

theorem registerSample_inOrder_iff {e : EncoderChannel} {d : SampleDispatcher}
    (hd : Generates d) (hI : InOrder e) (hsample : d.isSample = true) :
    Completes d e ↔ InOrder ((registerSample d).run e).2 := by
  obtain ⟨signature, hsignature⟩ := hd.signature hsample
  have hcompletes : Completes d e ↔ (d.hasDependencies = true → SampleGoesOut d e signature →
      TypeGoesOut d (e.writer.skip (packetWrites (sampleDefPacket e d signature)))
        e.typeDefRegistry) := by
    rw [Completes, if_pos hsample]
    constructor
    · intro h hdeps
      exact h hdeps signature hsignature
    · intro h hdeps signature' hsignature'
      rw [hsignature] at hsignature'
      cases hsignature'
      exact h hdeps
  rw [hcompletes, registerSample]
  by_cases hout : SampleGoesOut d e signature
  · rw [run_bind_ok (defineSample_ok hsample hsignature hout)]
    have hI1 : InOrder ((e.addedSample d).sends (sampleDefPacket e d signature)) := by
      refine hI.concat (p := sampleDefPacket e d signature) rfl rfl ?_ ?_
      · exact fun _ _ _ hp => by cases hp
      · exact fun _ _ hp => by cases hp
    rw [sampleType]
    cases hdeps : d.hasDependencies with
    | false =>
        refine iff_of_true (fun h => by cases h) ?_
        rw [if_neg Bool.false_ne_true, pure_bind]
        exact bindType_inOrder hI1 _ (.inl rfl)
    | true =>
        by_cases htype : TypeGoesOut d (e.writer.skip (packetWrites (sampleDefPacket e d signature)))
            e.typeDefRegistry
        · obtain ⟨tindex, e', hrun, hI', hclass⟩ := registerTypeDef_ok hd hI1 htype
          refine iff_of_true (fun _ _ => htype) ?_
          rw [if_pos rfl, run_bind_ok hrun]
          exact bindType_inOrder hI' _ (.inr (hI'.typeSent hclass))
        · obtain ⟨x, e', hrun, hI'⟩ := registerTypeDef_error hd hI1 htype
          refine iff_of_false (fun h => htype (h rfl hout)) ?_
          rw [if_pos rfl, run_bind_error hrun]
          exact hI'
  · obtain ⟨x, e', hrun, hsent, hregistry⟩ := defineSample_error hsample hsignature hout
    refine iff_of_true (fun _ h => absurd h hout) ?_
    rw [run_bind_error hrun]
    exact hI.congr hsent hregistry

/-- **A call keeps the order exactly if it completes.** -/
theorem register_step {e : EncoderChannel} {d : SampleDispatcher} (hd : Generates d)
    (hI : InOrder e) : Completes d e ↔ InOrder ((register d).run e).2 := by
  cases hsample : d.isSample with
  | true =>
      have hregister : register d = registerSample d := by
        rw [register, SampleDispatcher.typeDeclTag, if_pos hsample, if_pos rfl]
      rw [hregister]
      exact registerSample_inOrder_iff hd hI hsample
  | false =>
      have htag : d.typeDeclTag = LABCOMM_TYPE_DEF := by
        rw [SampleDispatcher.typeDeclTag, hsample]
        rfl
      have hregister : register d = registerTypeDef d >>= fun _ => pure () := by
        rw [register, htag]
        rfl
      rw [hregister, Completes, hsample, if_neg (by simp)]
      by_cases htype : TypeGoesOut d e.writer e.typeDefRegistry
      · obtain ⟨tindex, e', hrun, hI', _⟩ := registerTypeDef_ok hd hI htype
        rw [run_bind_ok hrun]
        exact iff_of_true htype hI'
      · obtain ⟨x, e', hrun, hI'⟩ := registerTypeDef_error hd hI htype
        rw [run_bind_error hrun]
        exact iff_of_false htype hI'

/-! ## Generated classes -/

theorem encodeTypeId_mem_emitSignature {t : DataType} {lines : List EmitLine}
    (h : emitSignature t = some lines) {c : Name} (hc : EmitLine.encodeTypeId c ∈ lines) :
    c ∈ userTypes t := by
  rw [emitSignature, Option.bind_eq_bind, Option.bind_eq_some_iff] at h
  obtain ⟨signature, hsignature, hlines⟩ := h
  obtain ⟨line, hline, hemit⟩ := mem_of_mapM_eq_some hlines hc
  cases line with
  | typeRef name ls =>
      cases hemit
      exact typeRef_mem_genSigLine hsignature hline
  | comment => cases hemit
  | int data =>
      rw [emitLine, Option.map_eq_some_iff] at hemit
      obtain ⟨bs, _, h⟩ := hemit
      cases h
  | intentions is =>
      rw [emitLine, Option.map_eq_some_iff] at hemit
      obtain ⟨bs, _, h⟩ := hemit
      cases h

theorem encodeTypeId_mem_emitTypeDef {h : IterationOrder Name} {d : Decl}
    {lines : List EmitLine} (hlines : emitTypeDef h d = some lines) {c : Name}
    (hc : EmitLine.encodeTypeId c ∈ lines) : c ∈ userTypes d.type := by
  rw [emitTypeDef] at hlines
  split at hlines
  · exact encodeTypeId_mem_emitSignature hlines hc
  · cases hlines
    simp at hc

theorem emitDispatcher_generates {h : IterationOrder Name} {d : Decl} {s : SampleDispatcher}
    (hs : emitDispatcher h d = some s) (hself : d.name ∉ userTypes d.type) : Generates s := by
  rw [emitDispatcher, Option.bind_eq_bind, Option.bind_eq_some_iff] at hs
  obtain ⟨typeDef, htypeDef, hs⟩ := hs
  have hrefers : ∀ c, EmitLine.encodeTypeId c ∈ typeDef → c ≠ d.name := by
    rintro c hc rfl
    exact hself (encodeTypeId_mem_emitTypeDef htypeDef hc)
  split at hs
  · rw [Option.bind_eq_bind, Option.bind_eq_some_iff] at hs
    obtain ⟨signature, _, hs⟩ := hs
    cases hs
    exact ⟨rfl, hrefers, fun _ => ⟨signature, rfl⟩⟩
  · cases hs
    exact ⟨rfl, hrefers, fun hsample => by cases hsample⟩

theorem emitClasses_generates {h : IterationOrder Name} {referenced : Name → Bool}
    {decls : List Decl} (hself : ∀ d ∈ decls, d.name ∉ userTypes d.type)
    {before classes : List GeneratedClass} (hbefore : ∀ c ∈ before, Generates c.dispatcher)
    (hemit : emitClasses h referenced before decls = some classes) :
    ∀ c ∈ classes, Generates c.dispatcher := by
  induction decls generalizing before with
  | nil =>
      cases hemit
      exact hbefore
  | cons d decls ih =>
      rw [emitClasses, Option.bind_eq_bind, Option.bind_eq_some_iff] at hemit
      obtain ⟨dispatcher, hdispatcher, hemit⟩ := hemit
      refine ih (fun d hd => hself d (List.mem_cons_of_mem _ hd)) ?_ hemit
      intro c hc
      split at hc
      · rcases List.mem_append.mp hc with hc | hc
        · exact hbefore c hc
        · rw [List.mem_singleton] at hc
          subst hc
          exact emitDispatcher_generates hdispatcher (hself d List.mem_cons_self)
      · exact hbefore c hc

/-- No type refers to the declaration itself. -/
theorem name_not_mem_userTypes {h : IterationOrder Intention} {spec : Specification} {d : Decl}
    (hd : d ∈ spec.resolve h) : d.name ∉ userTypes d.type := by
  intro hname
  obtain ⟨pre, post, hsplit⟩ := List.append_of_mem hd
  obtain ⟨d', hd', _, heq⟩ := typesDeclared_resolve h spec pre d post hsplit d.name hname
  have hnodup := spec.names_nodup h
  rw [hsplit, List.map_append, List.map_cons, List.nodup_append] at hnodup
  refine hnodup.2.2 d'.name (List.mem_map_of_mem hd') d.name List.mem_cons_self heq

theorem emitJava_generates {intentionOrder : IterationOrder Intention} {h : IterationOrder Name}
    {spec : Specification} {classes : List GeneratedClass}
    (hgen : emitJava intentionOrder h spec = some classes) :
    ∀ c ∈ classes, Generates c.dispatcher :=
  emitClasses_generates (fun _ hd => name_not_mem_userTypes hd) (by simp) hgen

/-! ## Runs -/

/-- The channel after calls of `register`, each of which may throw. -/
def afterRegisters (e : EncoderChannel) (dispatchers : List SampleDispatcher) : EncoderChannel :=
  dispatchers.foldl (fun e d => ((register d).run e).2) e

theorem sendVersion_eq : sendVersion = (begin (Packet.version CURRENT_VERSION).tag >>= fun _ =>
    encodeString CURRENT_VERSION >>= fun _ => endPacket (.version CURRENT_VERSION) >>= fun _ =>
      pure ()) := by
  rw [bind_pure_unit]
  rfl

/-- The channel of a writer that takes the version. -/
theorem newChannel_ok {w : Writer} (haccepts : w.Accepts (packetWrites (.version CURRENT_VERSION))) :
    newChannel w = .ok ((EncoderChannel.start w).sends (.version CURRENT_VERSION)) := by
  have hm : (encodeString CURRENT_VERSION).run
      { EncoderChannel.start w with currentTag := LABCOMM_VERSION, bytes := [] } =
        (.ok (), (EncoderChannel.start w).filled (.version CURRENT_VERSION)) :=
    encodeString_ok (by decide) _
  rw [newChannel, sendVersion_eq, packet_ok (p := .version CURRENT_VERSION) (k := pure ()) hm haccepts]
  rfl

theorem newChannel_error {w : Writer}
    (hrefused : ¬ w.Accepts (packetWrites (.version CURRENT_VERSION))) :
    newChannel w = .error .writer := by
  have hm : (encodeString CURRENT_VERSION).run
      { EncoderChannel.start w with currentTag := LABCOMM_VERSION, bytes := [] } =
        (.ok (), (EncoderChannel.start w).filled (.version CURRENT_VERSION)) :=
    encodeString_ok (by decide) _
  obtain ⟨w', hw'⟩ := packet_error (p := .version CURRENT_VERSION) (k := pure ()) hm hrefused
  rw [newChannel, sendVersion_eq, hw']

theorem newChannel_inOrder {w : Writer} {e : EncoderChannel} (h : newChannel w = .ok e) :
    InOrder e := by
  by_cases haccepts : w.Accepts (packetWrites (.version CURRENT_VERSION))
  · rw [newChannel_ok haccepts] at h
    cases h
    refine ⟨Justified.nil.concat ⟨?_, ?_⟩, ?_⟩
    · exact fun _ _ _ _ hp => by cases hp
    · exact fun _ _ hp => by cases hp
    · intro c index
      simp [EncoderChannel.sends, EncoderChannel.start, EncoderRegistry.new]
  · rw [newChannel_error haccepts] at h
    cases h

/-- Every call of a run completes. -/
def EveryCallCompletes (e : EncoderChannel) (dispatchers : List SampleDispatcher) : Prop :=
  ∀ pre d post, dispatchers = pre ++ d :: post → Completes d (afterRegisters e pre)

/-- The stream and the registry are in order after every call of a run. -/
def AlwaysInOrder (e : EncoderChannel) (dispatchers : List SampleDispatcher) : Prop :=
  ∀ pre, pre <+: dispatchers → InOrder (afterRegisters e pre)

/-- **In a run of registrations, which goes on when one fails, the stream and the registry of the
types are always in order exactly if every call completes.** -/
theorem register_inOrder_iff {intentionOrder : IterationOrder Intention}
    {h : IterationOrder Name} {spec : Specification} {classes : List GeneratedClass}
    (hgen : emitJava intentionOrder h spec = some classes) {w : Writer} {e : EncoderChannel}
    (hnew : newChannel w = .ok e) {dispatchers : List SampleDispatcher}
    (hdispatchers : ∀ d ∈ dispatchers, ∃ c ∈ classes, c.dispatcher = d) :
    EveryCallCompletes e dispatchers ↔ AlwaysInOrder e dispatchers := by
  refine foldl_inv_iff (fun d hd s hI => ?_) (newChannel_inOrder hnew)
  obtain ⟨c, hc, rfl⟩ := hdispatchers d hd
  exact register_step (emitJava_generates hgen c hc) hI

/-! ## The generated methods -/

/-- The calls that a method makes: those up to the one that throws. -/
theorem forM_register_run (e : EncoderChannel) (dispatchers : List SampleDispatcher) :
    ∃ pre, pre <+: dispatchers ∧
      ((dispatchers.forM register).run e).2 = afterRegisters e pre := by
  induction dispatchers generalizing e with
  | nil => exact ⟨[], by simp, rfl⟩
  | cons d dispatchers ih =>
      change ∃ pre, _ ∧ ((register d >>= fun _ => dispatchers.forM register).run e).2 = _
      cases hrun : (register d).run e with
      | mk result e' =>
          have hafter : ∀ pre, afterRegisters e (d :: pre) = afterRegisters e' pre := by
            intro pre
            rw [afterRegisters, List.foldl_cons, hrun]
            rfl
          cases result with
          | error x =>
              rw [run_bind_error hrun]
              exact ⟨[d], by simp, (hafter []).symm⟩
          | ok a =>
              rw [run_bind_ok hrun]
              obtain ⟨pre, hpre, heq⟩ := ih e'
              exact ⟨d :: pre, List.cons_prefix_cons.mpr ⟨rfl, hpre⟩, heq.trans (hafter pre).symm⟩

theorem mem_registerTypeDeps {classes : List GeneratedClass} {deps : List Name}
    {d : SampleDispatcher} (hd : d ∈ registerTypeDeps classes deps) :
    ∃ c ∈ classes, d ∈ c.typeDeps ++ [c.dispatcher] := by
  rw [registerTypeDeps, List.mem_flatMap] at hd
  obtain ⟨name, _, hd⟩ := hd
  cases hfound : classes.find? fun c => c.dispatcher.sampleClass = name with
  | none =>
      rw [hfound] at hd
      simp at hd
  | some c =>
      rw [hfound] at hd
      exact ⟨c, List.mem_of_find?_eq_some hfound, hd⟩

theorem emitClasses_typeDeps {h : IterationOrder Name} {referenced : Name → Bool}
    {decls : List Decl} {before classes : List GeneratedClass}
    (hbefore : ∀ c ∈ before, ∀ d ∈ c.typeDeps, ∃ c' ∈ before, c'.dispatcher = d)
    (hemit : emitClasses h referenced before decls = some classes) :
    ∀ c ∈ classes, ∀ d ∈ c.typeDeps, ∃ c' ∈ classes, c'.dispatcher = d := by
  induction decls generalizing before with
  | nil =>
      cases hemit
      exact hbefore
  | cons d decls ih =>
      rw [emitClasses, Option.bind_eq_bind, Option.bind_eq_some_iff] at hemit
      obtain ⟨dispatcher, _, hemit⟩ := hemit
      refine ih ?_ hemit
      split
      · intro c hc s hs
        have hdeps : ∃ c' ∈ before, c'.dispatcher = s := by
          rcases List.mem_append.mp hc with hc | hc
          · exact hbefore c hc s hs
          · rw [List.mem_singleton] at hc
            subst hc
            obtain ⟨c', hc', hs⟩ := mem_registerTypeDeps hs
            rcases List.mem_append.mp hs with hs | hs
            · exact hbefore c' hc' s hs
            · exact ⟨c', hc', (List.mem_singleton.mp hs).symm⟩
        obtain ⟨c', hc', hs'⟩ := hdeps
        exact ⟨c', List.mem_append_left _ hc', hs'⟩
      · exact hbefore

/-- **A generated `register` method is some calls of `Encoder.register`**, on the dispatchers of
the specification. -/
theorem generatedRegister_calls {intentionOrder : IterationOrder Intention}
    {h : IterationOrder Name} {spec : Specification} {classes : List GeneratedClass}
    (hgen : emitJava intentionOrder h spec = some classes) {c : GeneratedClass}
    (hc : c ∈ classes) (e : EncoderChannel) :
    ∃ dispatchers, (∀ d ∈ dispatchers, ∃ c ∈ classes, c.dispatcher = d) ∧
      (c.register.run e).2 = afterRegisters e dispatchers := by
  obtain ⟨pre, hpre, heq⟩ := forM_register_run e (c.typeDeps ++ [c.dispatcher])
  refine ⟨pre, fun d hd => ?_, heq⟩
  rcases List.mem_append.mp (hpre.subset hd) with hd | hd
  · exact emitClasses_typeDeps (by simp) hgen c hc d hd
  · exact ⟨c, hc, (List.mem_singleton.mp hd).symm⟩

/-! ## `typedefSpec` -/

/-- A writer that never throws. -/
def accepting : Writer := ⟨fun _ => none, 0, []⟩

/-- A channel for it. -/
def acceptingChannel : EncoderChannel := (EncoderChannel.start accepting).sends (.version CURRENT_VERSION)

theorem newChannel_accepting : newChannel accepting = .ok acceptingChannel :=
  newChannel_ok fun _ _ => rfl

/-- The classes `t` and `a`. -/
def typedefClasses : List GeneratedClass :=
  (emitJava ⟨id, List.Perm.refl⟩ ⟨id, List.Perm.refl⟩ typedefSpec).get (by decide)

theorem emitJava_typedef :
    emitJava ⟨id, fun _ => .refl _⟩ ⟨id, fun _ => .refl _⟩ typedefSpec = some typedefClasses :=
  Option.eq_some_of_isSome _

theorem register_inOrder_iff_typedef :
    EveryCallCompletes acceptingChannel (typedefClasses.map GeneratedClass.dispatcher) ↔
      AlwaysInOrder acceptingChannel (typedefClasses.map GeneratedClass.dispatcher) :=
  register_inOrder_iff emitJava_typedef newChannel_accepting fun _ hd => List.mem_map.mp hd

/-- The dispatcher of `a`. -/
def arrayDispatcher : SampleDispatcher :=
  (typedefClasses.map GeneratedClass.dispatcher).get ⟨1, by decide⟩

/-- The channel after `a` has been registered without `t`. -/
def withoutDependency : EncoderChannel := ((register arrayDispatcher).run acceptingChannel).2

/-- `a` is in the registry, and no TYPE_DEF has been sent. -/
theorem not_alwaysInOrder_direct : arrayDispatcher ∈ typedefClasses.map GeneratedClass.dispatcher ∧
    newChannel accepting = .ok acceptingChannel ∧
      ¬ AlwaysInOrder acceptingChannel [arrayDispatcher] := by
  refine ⟨List.get_mem _ _, newChannel_accepting, fun h => ?_⟩
  have hI : InOrder withoutDependency := h [arrayDispatcher] (List.prefix_refl _)
  have hregistered : withoutDependency.typeDefRegistry.byClass [97] = some 0x40 := by
    decide +kernel
  have hnone : ∀ p ∈ withoutDependency.sent, p.tag ≠ LABCOMM_TYPE_DEF := by decide +kernel
  obtain ⟨signature, hmem⟩ := (hI.registered [97] 0x40).mp hregistered
  exact hnone _ hmem rfl

end LabComm.Java
