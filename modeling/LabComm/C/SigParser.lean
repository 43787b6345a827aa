import LabComm.Format.Packet

set_option autoImplicit false

/-! # The signature parser

The parser of `experimental/labcomm2014_sig_parser.c`, which walks over the packets of a buffer and
keeps the signatures of the sample types: its buffer, its value stack, its tables, and
`acceptPacket` with everything that calls.

`c` has the bytes below `size`. `read_file` keeps their number in an `int`, so that there are less
than `2 ^ 31`. The numbers that are read are kept as 32 bits without a sign, and `wrap32` makes an
`int` of them where the code does. What is printed and the pointer stack, which nothing uses, are
left out, and so are the results of the `accept` functions: they end the process where they would
not be true.
-/

namespace LabComm.C.SigParser

open Library

/-! ## The state -/

/-- What an access can miss. -/
inductive Object where
  /-- `c`, below `size` -/
  | input
  /-- One of the tables, below `max_signatures` -/
  | table
  /-- What an entry of a table points to -/
  | entry
  /-- The block that is allocated for the characters of a string -/
  | block
  /-- `val_stack` -/
  | stack
  deriving DecidableEq

/-- The errors that end the process. -/
inductive Error where
  /-- `value stack overrun` -/
  | overrun
  /-- `value stack underrun` -/
  | underrun
  /-- `uid < LABCOMM_USER` -/
  | uid
  /-- `sig name longer than max length` -/
  | nameLength
  /-- `sig longer than max length` -/
  | sigLength
  /-- `labcomm2014_sizeof_primitive should only be called for primitive types` -/
  | notPrimitive
  /-- `ERROR: skip_type` -/
  | skipType
  deriving DecidableEq

/-- How a call can end other than by returning. -/
inductive Fault where
  /-- The code accesses memory outside of the object; what follows is undefined. -/
  | outOfBounds (object : Object)
  | exit (error : Error)
  /-- The model has used up its fuel, which the code does not have. -/
  | outOfFuel
  deriving DecidableEq

/-- The arguments of `labcomm2014_sig_parser_init` after the capacity of the buffer. -/
structure Config where
  stacksize : Nat
  maxSignatures : Nat
  maxNameLen : Nat
  maxSigLen : Nat

/-- The bytes that `labcomm2014_sig_parser_read_file` has read. -/
structure Buffer where
  bytes : List UInt8
  length_lt : bytes.length < 2 ^ 31

/-- What the tables have for one sample type: blocks of `max_name_len` and `max_sig_len` bytes, and
how many of them are in use. -/
structure Entry where
  signaturesName : List UInt8
  signaturesNameLength : Nat
  signatures : List UInt8
  signaturesLength : Nat
  /-- `sig_ts[i].size`; `signature` and `name` of this struct point to the blocks. -/
  size : Nat
  deriving DecidableEq

/-- `labcomm2014_sig_parser_t` -/
structure State where
  config : Config
  c : Buffer
  idx : Int
  valTop : Int
  /-- The cells of `val_stack` above `val_top`; the others are written before they are read. -/
  valStack : List Nat
  currentDeclIsVarsize : Bool
  tables : Nat → Entry

/-- What a function of the parser does. -/
abbrev Accept (α : Type) := StateT State (Except Fault) α

/-- `error(s)` -/
def error {α : Type} (e : Error) : Accept α := throw (.exit e)

/-- An access that misses the object. -/
def outOfBounds {α : Type} (o : Object) : Accept α := throw (.outOfBounds o)

/-- Entries as `calloc` leaves them. -/
def Config.blank (config : Config) : Entry where
  signaturesName := List.replicate config.maxNameLen 0
  signaturesNameLength := 0
  signatures := List.replicate config.maxSigLen 0
  signaturesLength := 0
  size := 0

/-- `labcomm2014_sig_parser_init` and `labcomm2014_sig_parser_read_file`. The stack is allocated
with the size of a pointer for every `int`, which is twice the size of one. -/
def init (config : Config) (c : Buffer) : State where
  config := config
  c := c
  idx := 0
  valTop := wrap32 (config.stacksize - 1)
  valStack :=
    List.replicate (2 * (config.stacksize : Int) - 1 - wrap32 (config.stacksize - 1)).toNat 0
  currentDeclIsVarsize := false
  tables := fun _ => config.blank

/-! ## The value stack -/

/-- `push_val` -/
def pushVal (e : Nat) : Accept Unit := do
  let b ← get
  if b.valTop < 0 ∨ 2 * (b.config.stacksize : Int) ≤ b.valTop then
    outOfBounds .stack
  else
    set { b with valStack := e :: b.valStack, valTop := b.valTop - 1 }
    if b.valTop - 1 < 0 then error .overrun

/-- `pop_val`; `val_top` is compared with a `size_t`, where no negative number is small. -/
def popVal : Accept Nat := do
  let b ← get
  if b.valTop + 1 < 0 ∨ (b.config.stacksize : Int) < b.valTop + 1 then
    error .underrun
  else
    match b.valStack with
    | [] => outOfBounds .stack
    | e :: valStack => do
        set { b with valStack := valStack, valTop := b.valTop + 1 }
        pure e

/-! ## The buffer -/

/-- The loop of `unpack_varint`, over the bytes from `buf[idx+i]` on. -/
def unpackVarintFrom (o : Object) (res i : Nat) : List UInt8 → Except Fault (Nat × Nat)
  | [] => .error (.outOfBounds o)
  | c :: rest =>
      let res := (res * 128 + c.toNat % 128) % 2 ^ 32
      if c < 128 then .ok (res, i + 1) else unpackVarintFrom o res (i + 1) rest

/-- `unpack_varint`: the value and its size. `idx+i` is unsigned. -/
def unpackVarint (o : Object) (buf : List UInt8) (idx : Int) : Except Fault (Nat × Nat) :=
  unpackVarintFrom o 0 0 (buf.drop (toUnsigned idx))

/-- `more` -/
def more (b : State) : Bool := decide (0 ≤ b.idx ∧ b.idx < b.c.bytes.length)

/-- `advancen`; the sum is assigned to an `int`. -/
def advancen (n : Int) : Accept Unit := modify fun b => { b with idx := wrap32 (b.idx + n) }

/-- `peek_varint` -/
def peekVarint : Accept (Nat × Nat) := do
  let b ← get
  liftM (unpackVarint .input b.c.bytes b.idx)

/-- `get_varint` -/
def getVarint : Accept Nat := do
  let (res, size) ← peekVarint
  advancen size
  pure res

/-- `getStr`, into a block of `room` bytes: no more than the `rem` bytes that are left are copied,
unless `rem` is negative, which no `size_t` is greater than. -/
def getStr (room size : Nat) : Accept Unit := do
  let b ← get
  let rem := wrap32 (b.c.bytes.length - b.idx)
  let size := if 0 ≤ rem ∧ rem < size then rem.toNat else size
  if 0 < size ∧ (b.idx < 0 ∨ b.c.bytes.length < b.idx + size) then
    outOfBounds .input
  else if room ≤ size then
    outOfBounds .block
  else
    advancen size

/-- `labcomm2014_varint_sizeof` -/
def varintSizeof (i : Nat) : Nat :=
  if i < 2 ^ 7 then 1 else if i < 2 ^ 14 then 2 else if i < 2 ^ 21 then 3
  else if i < 2 ^ 28 then 4 else 5

/-- `labcomm2014_sig_parser_t_set_varsize` -/
def setVarsize : Accept Unit := modify fun b => { b with currentDeclIsVarsize := true }

/-! ## Ids, strings and intentions -/

/-- `accept_user_id`; the id is an `int`. -/
def acceptUserId : Accept Unit := do
  let (uid, nbytes) ← peekVarint
  if (LABCOMM_USER : Int) ≤ wrap32 uid then
    advancen nbytes
    pushVal uid
  else
    error .uid

/-- `accept_string`; the size of the block is an unsigned `int`. -/
def acceptString : Accept Unit := do
  let len ← getVarint
  getStr ((len + 1) % 2 ^ 32) len
  pushVal len

/-- The loop of `accept_intentions`, which keeps where the last value with an empty key starts, and
how long it is. -/
def intentionsFrom : Nat → Nat → Nat → Accept (Nat × Nat)
  | 0, npos, nlen => pure (npos, nlen)
  | num + 1, npos, nlen => do
      acceptString
      let klen ← popVal
      let npos' := toUnsigned (← get).idx
      acceptString
      let vlen ← popVal
      if klen = 0 then intentionsFrom num npos' vlen else intentionsFrom num npos nlen

/-- `accept_intentions` -/
def acceptIntentions : Accept Unit := do
  let num ← getVarint
  let (npos, nlen) ← intentionsFrom num 0 0
  pushVal nlen
  pushVal npos

/-! ## Types -/

/-- The loop over the indices in `accept_array_decl`. -/
def indicesFrom : Nat → Nat → Nat → Accept (Nat × Nat)
  | 0, numVar, size => pure (numVar, size)
  | nidx + 1, numVar, size => do
      let idx ← getVarint
      if idx = 0 then
        setVarsize
        indicesFrom nidx (numVar + 1) size
      else
        indicesFrom nidx numVar (size * idx % 2 ^ 32)

/-- `accept_array_decl` -/
def acceptArrayDecl (acceptType : Accept Unit) : Accept Unit := do
  let (tid, nbytes) ← peekVarint
  if tid = LABCOMM_ARRAY then
    advancen nbytes
    let nidx ← getVarint
    let (numVar, size) ← indicesFrom nidx 0 1
    acceptType
    let et ← popVal
    let es ← popVal
    pushVal (if numVar = 0 then size * es % 2 ^ 32 else 0)
    pushVal et
  else
    pushVal 0
    pushVal tid

/-- `accept_field` -/
def acceptField (acceptType : Accept Unit) : Accept Unit := do
  acceptIntentions
  let _ ← popVal
  let _ ← popVal
  acceptType
  let _ ← popVal

/-- The loop over the fields in `accept_struct_decl`. -/
def fieldsFrom (acceptType : Accept Unit) : Nat → Nat → Accept Nat
  | 0, fieldsizes => pure fieldsizes
  | nf + 1, fieldsizes => do
      acceptField acceptType
      let size ← popVal
      fieldsFrom acceptType nf ((fieldsizes + size) % 2 ^ 32)

/-- `accept_struct_decl` -/
def acceptStructDecl (acceptType : Accept Unit) : Accept Unit := do
  let (tid, nbytes) ← peekVarint
  if tid = LABCOMM_STRUCT then
    advancen nbytes
    let nf ← getVarint
    let fieldsizes ← fieldsFrom acceptType nf 0
    pushVal fieldsizes
  else
    pushVal 0

/-- `accept_type`, within `fuel` nested calls -/
def acceptType : Nat → Accept Unit
  | 0 => throw .outOfFuel
  | fuel + 1 => do
      let (type, nbytes) ← peekVarint
      if type = Prim.boolean.token ∨ type = Prim.byte.token then
        advancen nbytes
        pushVal 1
        pushVal type
      else if type = Prim.short.token then
        advancen nbytes
        pushVal 2
        pushVal type
      else if type = Prim.int.token ∨ type = Prim.float.token ∨ type = Prim.sample.token then
        advancen nbytes
        pushVal 4
        pushVal type
      else if type = Prim.long.token ∨ type = Prim.double.token then
        advancen nbytes
        pushVal 8
        pushVal type
      else if type = Prim.string.token then
        advancen nbytes
        setVarsize
        pushVal 0
        pushVal type
      else if type = LABCOMM_ARRAY then
        acceptArrayDecl (acceptType fuel)
        let _ ← popVal
        pushVal type
      else if type = LABCOMM_STRUCT then
        acceptStructDecl (acceptType fuel)
        pushVal type
      else
        advancen nbytes
        pushVal 0
        pushVal type

/-! ## Declarations -/

/-- `&tables[uid-LABCOMM_USER]`, to be read or written -/
def tableEntry (uid : Nat) : Accept Nat := do
  let d ← get
  if uid - LABCOMM_USER < d.config.maxSignatures then
    pure (uid - LABCOMM_USER)
  else
    outOfBounds .table

/-- `&c[start]` as the source of a `memcpy` of `n` bytes -/
def source (start n : Nat) : Accept (List UInt8) := do
  let d ← get
  if n = 0 ∨ start + n ≤ d.c.bytes.length then
    pure ((d.c.bytes.drop start).take n)
  else
    outOfBounds .input

/-- `memcpy` to the start of a block -/
def memcpy (block bytes : List UInt8) : Accept (List UInt8) :=
  if bytes.length ≤ block.length then
    pure (bytes ++ block.drop bytes.length)
  else
    outOfBounds .entry

/-- `block[i] = 0` -/
def terminate (block : List UInt8) (i : Nat) : Accept (List UInt8) :=
  if i < block.length then pure (block.set i 0) else outOfBounds .entry

/-- `tables[i] = e` -/
def State.setEntry (d : State) (i : Nat) (e : Entry) : State :=
  { d with tables := Function.update d.tables i e }

/-- The part of `accept_decl` that records the name of a sample type. -/
def recordName (uid nlen start : Nat) : Accept Unit := do
  let i ← tableEntry uid
  let name ← source start nlen
  let d ← get
  let block ← memcpy (d.tables i).signaturesName name
  let block ← terminate block nlen
  modify fun d => d.setEntry i
    { d.tables i with signaturesName := block, signaturesNameLength := nlen }

/-- The part of `accept_signature` that records a signature. -/
def recordSignature (uid start len : Nat) : Accept Unit := do
  let i ← tableEntry uid
  let bytes ← source start len
  let d ← get
  let block ← memcpy (d.tables i).signatures bytes
  modify fun d => d.setEntry i
    { d.tables i with signatures := block, signaturesLength := len, size := len }

/-- `accept_signature`; the signature of anything but a sample type is ignored. A type that is
nested `c.length` times deep does not end in the buffer. -/
def acceptSignature (type start uid : Nat) : Accept Unit := do
  let _ ← getVarint
  let d ← get
  acceptType (d.c.bytes.length + 1)
  let _ ← popVal
  let _ ← popVal
  if type = LABCOMM_SAMPLE_DEF then
    let d ← get
    let len := toUnsigned (d.idx - start)
    if len ≤ d.config.maxSigLen then
      recordSignature uid start len
    else
      error .sigLength

/-- `accept_decl`; one byte is left for the terminating zero of a name. -/
def acceptDecl (type : Nat) : Accept Unit := do
  acceptUserId
  let uid ← popVal
  acceptIntentions
  let start := toUnsigned (← get).idx
  let nstart ← popVal
  let nlen ← popVal
  if type = LABCOMM_SAMPLE_DEF then
    if nlen < (← get).config.maxNameLen then
      recordName uid nlen ((nstart + varintSizeof nlen) % 2 ^ 32)
      acceptSignature type start uid
    else
      error .nameLength
  else
    acceptSignature type start uid

/-! ## Packets -/

/-- `accept_sample_data`; the length is an `int`. -/
def acceptSampleData : Accept Unit := do
  acceptUserId
  let _ ← popVal
  let len ← getVarint
  advancen (wrap32 len)

/-- `accept_packet`; an unknown tag is not taken off before the length is read. -/
def acceptPacket : Accept Unit := do
  let (type, nbytes) ← peekVarint
  if type = LABCOMM_VERSION then
    advancen nbytes
    let _ ← getVarint
    acceptString
    let _ ← popVal
  else if type = LABCOMM_SAMPLE_DEF ∨ type = LABCOMM_SAMPLE_REF ∨ type = LABCOMM_TYPE_DEF then
    modify fun d => { d with currentDeclIsVarsize := false }
    advancen nbytes
    let _ ← getVarint
    acceptDecl type
  else if type = LABCOMM_TYPE_BINDING then
    advancen nbytes
    let _ ← getVarint
    let _ ← getVarint
    let _ ← getVarint
  else if LABCOMM_USER ≤ type then
    acceptSampleData
  else
    let len ← getVarint
    advancen (wrap32 len)

end LabComm.C.SigParser
