import LabComm.CSharp.Decoder
import LabComm.Java.GeneratedWire
import LabComm.Python.WireFormat

set_option autoImplicit false

/-! # The languages together

A sample is encoded by the code generated for one language and decoded by the code generated for
another one. Both represent the value in their own way: an array of several dimensions is flat in C,
an object with lengths in C#, an array of arrays in Java and a list of lists in Python, and a
struct is a dictionary there. Whatever the two languages are, the value that one of them encodes is
the value that the other one decodes (`interoperates`).
-/

namespace LabComm

open Library

/-- A process that runs generated code. The C code has the tables `refs` for references to samples,
the others have their own. In C# and Java there is a class of that name. -/
inductive Endpoint where
  | c
  | csharp (malformed : List UInt8 → String) (name : Name)
  | java (channels : Java.Generated.Channels) (name : Name)
  | python (tables : Python.Refs) (decl : Python.Decl String)

/-- The values of the language. -/
def Endpoint.Value : Endpoint → Type
  | c => LabComm.Value
  | csharp .. => CSharp.Value
  | java .. => Java.Generated.Value
  | python _ _ => Python.Value

/-- There is code for the type. Python has a declaration at run time. -/
def Endpoint.Runs (t : DataType) : Endpoint → Prop
  | c => True
  | csharp .. => Classes.HasCode .csharp t
  | java .. => Classes.HasCode .java t
  | python _ decl => Python.Describes t decl ∧ Python.Named decl

variable (refs : RefTables)

/-- The value `w` of the language stands for `v`. -/
def Endpoint.Represents (t : DataType) (v : LabComm.Value) : (l : Endpoint) → l.Value → Prop
  | c, w => w = v
  | csharp .., w => CSharp.Corresponds t v w
  | java channels _, w => Java.Generated.Corresponds channels refs t v w
  | python tables decl, w => Python.Corresponds tables refs t decl v w

/-- The encoder of the language does not raise an exception. -/
def Endpoint.CanEncode (t : DataType) : (l : Endpoint) → l.Value → Prop
  | c, _ => True
  | csharp .., _ => True
  | java channels _, w => Java.Generated.Encodable channels t w
  | python _ decl, w => Python.Encodable decl w

/-- The generated encoder writes `bs` for `w`. -/
def Endpoint.Encodes (t : DataType) : (l : Endpoint) → l.Value → List UInt8 → Prop
  | c, w, bs => ∀ ω : C.WriterAction, Emits (C.cEncode (ω := ω) refs t w) 0 bs
  | csharp _ name, w, bs => ∃ encode, CSharp.encoder name t = some encode ∧ encode w = .ok bs
  | java channels name, w, bs =>
      ∃ encode, Java.Generated.encoder channels name t = some encode ∧ encode w = .ok bs
  | python tables decl, w, bs => Python.encode tables decl w = .ok bs

/-- The generated decoder takes up `bs` and returns `w`. -/
def Endpoint.Decodes (t : DataType) : (l : Endpoint) → List UInt8 → l.Value → Prop
  | c, bs, w => ∀ φ : C.Host, Parses (C.cEmitDecoder (φ := φ) refs.toRef t) bs w
  | csharp malformed name, bs, w =>
      ∃ decode, CSharp.decoder malformed name t = some decode ∧ Consumes decode bs w
  | java channels name, bs, w =>
      ∃ decode, Java.Generated.decoder channels name t = some decode ∧ Consumes decode bs w
  | python tables decl, bs, w => Consumes (Python.decode tables decl) bs w

variable {refs} {t : DataType} {v : LabComm.Value}

/-- Every encoder writes the wire format. -/
theorem Endpoint.encodes_wire (hv : WellTyped refs.Maps t v) (hs : C.StringsFit t v)
    (l : Endpoint) (hl : l.Runs t) {w : l.Value} (hw : l.Represents refs t v w)
    (hcan : l.CanEncode t w) : l.Encodes refs t w (wire refs t v) := by
  cases l with
  | c =>
      cases hw
      exact fun _ => C.cEncode_emits hv hs.below
  | csharp malformed name =>
      exact ⟨_, CSharp.encoder_of_hasCode name hl, CSharp.emitEncoder_eq refs t v w hv hw⟩
  | java channels name =>
      exact ⟨_, Java.Generated.encoder_of_hasCode channels name hl,
        Java.Generated.emitEncoder_eq t hv hw hcan⟩
  | python tables decl => exact Python.encode_eq t hl.1 hl.2 hv hw hcan

/-- Every decoder reads the wire format. -/
theorem Endpoint.decodes_wire (hv : WellTyped refs.Maps t v) (hs : C.StringsFit t v)
    (l : Endpoint) (hl : l.Runs t) {w : l.Value} (hw : l.Represents refs t v w) :
    l.Decodes refs t (wire refs t v) w := by
  cases l with
  | c =>
      cases hw
      exact fun _ => C.cEmitDecoder_parses refs t v hv hs
  | csharp malformed name =>
      exact ⟨_, CSharp.decoder_of_hasCode name hl, CSharp.emitDecoder_consumes refs t hv hw⟩
  | java channels name =>
      have hread : Consumes (Java.Generated.emitDecoder channels t) (wire refs t v)
          (Java.Generated.received channels refs t v) := Java.Generated.emitDecoder_consumes t hv hs.below
      rw [Java.Generated.received_eq t hw] at hread
      exact ⟨_, Java.Generated.decoder_of_hasCode channels name hl, hread⟩
  | python tables decl => exact Python.decode_consumes t hl.1 hl.2 hv hw

/-- **What one language encodes, any other one decodes**: if the values of two endpoints stand for
the same value, and the first of them can be encoded, then the second is what is decoded of it, and
all bytes are taken up. -/
theorem interoperates (l l' : Endpoint) (hl : l.Runs t) (hl' : l'.Runs t) {w : l.Value}
    {w' : l'.Value} (hv : WellTyped refs.Maps t v) (hs : C.StringsFit t v)
    (hw : l.Represents refs t v w) (hw' : l'.Represents refs t v w') (hcan : l.CanEncode t w) :
    ∃ bs, l.Encodes refs t w bs ∧ l'.Decodes refs t bs w' :=
  ⟨wire refs t v, l.encodes_wire hv hs hl hw hcan, l'.decodes_wire hv hs hl' hw'⟩

/-- `short a[_, 2]` -/
def rowType : DataType := .array (.prim .short) [.variableSize, .integerLiteral 2]

/-- The declaration that the compiler prints for it. -/
def rowDecl : Python.Decl String := .array [0, 2] (.primitive .short)

/-- One row goes from Java to Python, and from Python to C#. -/
theorem interoperates_row :
    (∃ bs, Endpoint.Encodes noRefs rowType (.java Java.Generated.noClasses [97])
        (Java.Generated.Value.array [.array [.short 7, .short (-1)]]) bs ∧
      Endpoint.Decodes noRefs rowType (.python (Python.refs []) rowDecl) bs
        (Python.Value.list [.list [.int 7, .int (-1)]])) ∧
    ∃ bs, Endpoint.Encodes noRefs rowType (.python (Python.refs []) rowDecl)
        (Python.Value.list [.list [.int 7, .int (-1)]]) bs ∧
      Endpoint.Decodes noRefs rowType (.csharp (fun _ => "") [97]) bs
        (CSharp.Value.array [1, 2] [.short 7, .short (-1)]) := by
  have hv : WellTyped noRefs.Maps rowType (.array [1, 2] [.bits 7, .bits 65535]) := by
    refine ⟨[1, 2], _, rfl, .cons ⟨by decide, by decide⟩ (.cons rfl .nil), rfl,
      fun _ => by decide, ?_⟩
    intro x hx
    simp only [List.mem_cons, List.not_mem_nil, or_false] at hx
    rcases hx with rfl | rfl
    · exact ⟨7, rfl, by decide⟩
    · exact ⟨65535, rfl, by decide⟩
  have hs : C.StringsFit rowType (.array [1, 2] [.bits 7, .bits 65535]) := by
    intro x hx
    simp only [List.mem_cons, List.not_mem_nil, or_false] at hx
    rcases hx with rfl | rfl <;> trivial
  have hpython : Endpoint.Runs rowType (.python (Python.refs []) rowDecl) :=
    ⟨⟨_, rfl, by decide, rfl⟩, trivial⟩
  have hjava : Classes.HasCode .java rowType := .inr ⟨List.all_eq_true.mp rfl, rfl, trivial⟩
  have hcsharp : Classes.HasCode .csharp rowType := .inr ⟨List.all_eq_true.mp rfl, rfl, trivial⟩
  have hjavaRow : Endpoint.Represents noRefs rowType (.array [1, 2] [.bits 7, .bits 65535])
      (.java Java.Generated.noClasses [97])
      (Java.Generated.Value.array [.array [.short 7, .short (-1)]]) :=
    ⟨[.short 7, .short (-1)], rfl, .cons rfl (.cons rfl .nil)⟩
  have hpythonRow : Endpoint.Represents noRefs rowType (.array [1, 2] [.bits 7, .bits 65535])
      (.python (Python.refs []) rowDecl) (Python.Value.list [.list [.int 7, .int (-1)]]) :=
    ⟨[.int 7, .int (-1)], rfl, .cons ⟨by decide, by decide⟩ (.cons ⟨by decide, by decide⟩ .nil)⟩
  have hcsharpRow : Endpoint.Represents noRefs rowType (.array [1, 2] [.bits 7, .bits 65535])
      (.csharp (fun _ => "") [97]) (CSharp.Value.array [1, 2] [.short 7, .short (-1)]) :=
    ⟨rfl, .cons ⟨by decide, by decide⟩ (.cons ⟨by decide, by decide⟩ .nil)⟩
  have hnest : Rect (.node [.node [.leaf, .leaf]]) ∧ Deep 2 (.node [.node [.leaf, .leaf]]) :=
    ⟨(minMaxShape_rect _).mp (by decide), (minMaxShape_deep _ _).mp (by decide)⟩
  constructor
  · refine interoperates (.java Java.Generated.noClasses [97]) (.python (Python.refs []) rowDecl)
      hjava hpython hv hs hjavaRow hpythonRow ⟨trivial, ?_⟩
    intro e he
    have hmem : e ∈ [Java.Generated.Value.short 7, .short (-1)] := he
    simp only [List.mem_cons, List.not_mem_nil, or_false] at hmem
    rcases hmem with rfl | rfl <;> trivial
  · refine interoperates (.python (Python.refs []) rowDecl) (.csharp (fun _ => "") [97]) hpython
      hcsharp hv hs hpythonRow hcsharpRow ⟨hnest, ?_⟩
    intro e _ hprim
    cases hprim

end LabComm
