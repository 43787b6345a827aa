import LabComm.C.RoundTrip
import LabComm.C.SystemTags

set_option autoImplicit false

/-! # Where a packet that is skipped ends

The length of a packet is what is skipped of it, save for a pragma: there it is reduced by the
size that the type of the pragma would have if it was written as a C string. That is its size
unless the type has a NUL or its length takes more bytes than it needs. `do_decode_one` gets to
the next packet, with a positive result, if and only if the size is right, and for the tag 0,
which is the result of its own packets, not at all; a type packet is looked up first, and there
has to be room for its tag (`framed_iff`).
-/

namespace LabComm.C

open Library

variable {φ : Host} {d : Decoder φ}

/-! ## Packets that are skipped -/

/-- A packet of the system that no handler is called for; the length of the type of a pragma may
be written in any way. -/
inductive SystemPacket where
  | pragma (size type data : List UInt8)
  | other (tag : Nat) (payload : List UInt8)

def SystemPacket.tag : SystemPacket → Nat
  | pragma .. => LABCOMM_PRAGMA
  | other tag _ => tag

def SystemPacket.payload : SystemPacket → List UInt8
  | pragma size type data => size ++ type ++ data
  | other _ payload => payload

/-- A pragma begins with a string. The other tags are neither its own nor those of packets that
are always decoded, and no handler is registered for them. -/
def Decoder.Skips (d : Decoder φ) : SystemPacket → Prop
  | .pragma size type _ => Spells size type.length
  | .other tag _ => tag < LABCOMM_USER ∧ tag ≠ LABCOMM_VERSION ∧ tag ≠ LABCOMM_SAMPLE_DEF ∧
      tag ≠ LABCOMM_SAMPLE_REF ∧ tag ≠ LABCOMM_PRAGMA ∧
      (tag = LABCOMM_TYPE_DEF ∨ tag = LABCOMM_TYPE_BINDING → d.found tag = none)

/-- The packet is what the decoder has to read next, and `rest` comes after it. -/
def Decoder.Awaits (d : Decoder φ) (p : SystemPacket) (rest : List UInt8) : Prop :=
  d.reader.error = 0 ∧ ∃ tag length, Spells tag p.tag ∧ Spells length p.payload.length ∧
    d.reader.unread = tag ++ length ++ p.payload ++ rest

/-- `do_decode_one` takes what comes before `rest`, with a positive result. -/
def Decoder.Framed (d : Decoder φ) (rest : List UInt8) (uninit : Int) : Prop :=
  ∃ result d', (doDecodeOne uninit).run d = (.ok result, d') ∧ 0 < result ∧
    d'.reader.error = 0 ∧ d'.reader.unread = rest

/-- The type of a pragma has no NUL, and its length takes no more bytes than it needs. The tag of
another packet is not 0, and where it is looked up there is room for it. -/
def Decoder.Frames (d : Decoder φ) : SystemPacket → Prop
  | .pragma size type _ => (0 : UInt8) ∉ type ∧ size.length = (packed32 type.length).length
  | .other tag _ => tag ≠ 0 ∧ (LooksUp tag → d.CanLookUp tag)

/-! ## Headers -/

theorem readPacked32_spells {bs : List UInt8} {n : Nat} (h : Spells bs n) (hn : n < 2 ^ 32) :
    Parses (readPacked32 (φ := φ)) bs n := by
  obtain ⟨init, last, rfl, hinit, hlast, hvalue⟩ := h
  have hread := readPacked32_spelled (φ := φ) hinit hlast
  rwa [hvalue, Nat.mod_eq_of_lt hn] at hread

/-- A number below 128 may be a single byte. -/
theorem singleton_spells {n : Nat} (h : n < 128) : Spells [UInt8.ofNat n] n := by
  have hspells := varint_spells (k := 4) (n := n) (lt_trans h (by norm_num))
  rwa [show varint 5 n = [UInt8.ofNat n] from packed32_of_lt h] at hspells

theorem readHeader_spelled {tag length : List UInt8} {m n : Nat} (htag : Spells tag m)
    (hm : m < 2 ^ 31) (hlength : Spells length n) (hn : n < 2 ^ 31) :
    Parses (readHeader (φ := φ)) (tag ++ length) (.ok ((m : Int), (n : Int))) := by
  refine (readPacked32_spells htag (by omega)).bind (checked_parses ?_) fun _ => checked_sticky _ _
  rw [← List.append_nil length]
  refine (readPacked32_spells hlength (by omega)).bind (checked_parses ?_) fun _ => checked_sticky _ _
  rw [wrap32_natCast hm, wrap32_natCast hn]
  exact Parses.pure _

/-! ## Pragmas -/

/-- How many bytes too many are skipped after a pragma. -/
def excess (size type : List UInt8) : Nat :=
  size.length + type.length - ((packed32 (strlen type)).length + strlen type)

theorem strlen_le (s : List UInt8) : strlen s ≤ s.length := (List.takeWhile_sublist _).length_le

theorem strlen_eq_iff (s : List UInt8) : strlen s = s.length ↔ (0 : UInt8) ∉ s := by
  refine ⟨fun h hmem => ?_, strlen_of_not_mem⟩
  have hprefix := List.takeWhile_prefix (l := s) (· ≠ 0)
  have hall : s.takeWhile (· ≠ 0) = s := hprefix.eq_of_length h
  rw [List.takeWhile_eq_self_iff] at hall
  exact absurd (hall 0 hmem) (by decide)

section Pragma

variable {size type : List UInt8} (h : Spells size type.length)

include h

theorem packed32_strlen_le : (packed32 (strlen type)).length ≤ size.length :=
  h.length_le (strlen_le type) 5

/-- Nothing is skipped after the pragma if and only if the size is right. -/
theorem excess_eq_zero_iff :
    excess size type = 0 ↔
      (0 : UInt8) ∉ type ∧ size.length = (packed32 type.length).length := by
  have hsize := packed32_strlen_le h
  have hlen := strlen_le type
  rw [← strlen_eq_iff, excess]
  constructor
  · intro hzero
    have heq : strlen type = type.length := by omega
    rw [heq] at hzero hsize
    exact ⟨heq, by omega⟩
  · rintro ⟨heq, hmin⟩
    rw [heq]
    omega

theorem sizeString_spelled (hlen : (size ++ type).length < 2 ^ 31) :
    sizeString type + excess size type = (size ++ type).length := by
  have hsize := packed32_strlen_le h
  have hle := strlen_le type
  rw [List.length_append] at hlen ⊢
  rw [sizeString, wrap32_natCast (by omega), toUnsigned_natCast (by omega), sizePacked32_eq,
    ← Nat.cast_add, wrap32_natCast (by omega), excess]
  omega

end Pragma

/-- The type is read, and of what follows as many bytes are skipped as the length says, and the
excess. -/
theorem readPragma_run {size type data rest : List UInt8} (h : Spells size type.length)
    (hlen : (size ++ type ++ data).length < 2 ^ 31) {r : Reader φ} (h0 : r.error = 0)
    (hu : r.unread = size ++ type ++ data ++ rest) :
    ∃ a : Int × Reader φ,
      readPragma ((size ++ type ++ data).length : Nat) r = (some a.1, a.2) ∧
      if excess size type ≤ rest.length then
        a.1 = LABCOMM_PRAGMA ∧ a.2.error = 0 ∧ a.2.unread = rest.drop (excess size type)
      else a.2.error ≠ 0 := by
  have hsum : (size ++ type ++ data).length = (size ++ type).length + data.length :=
    List.length_append
  have htype : type.length + 1 < 2 ^ 31 := by
    have hpos : 0 < size.length := by
      obtain ⟨init, last, hsize, _⟩ := h
      simp [hsize]
    rw [show (size ++ type).length = _ from List.length_append] at hsum
    omega
  have hsize := sizeString_spelled h (by omega)
  have hle : excess size type ≤ (size ++ type).length := by
    rw [List.length_append]
    exact Nat.sub_le _ _
  rw [List.append_assoc (size ++ type)] at hu
  obtain ⟨hread, hr1, hu1⟩ := (readString_spelled (readPacked32_spells h (by omega)) htype).reads
    r _ (not_not.mpr h0) hu
  -- what is skipped
  have hskip : wrap32 (((size ++ type ++ data).length : Nat) - sizeString type) =
      ((data.length + excess size type : Nat) : Int) := by
    have hint : ((size ++ type ++ data).length : Int) - sizeString type =
        ((data.length + excess size type : Nat) : Int) := by
      rw [hsum]
      push_cast
      omega
    rw [hint]
    exact wrap32_natCast (by omega)
  have hrun : readPragma ((size ++ type ++ data).length : Nat) r =
      (some <$> skipBytes LABCOMM_PRAGMA (data.length + excess size type)) (readString r).2 := by
    rw [readPragma, stateM_bind, checked_ok (not_not.mp hr1), hread]
    dsimp only
    rw [hskip, readerSkip, Int.toNat_natCast]
  refine ⟨skipBytes LABCOMM_PRAGMA (data.length + excess size type) (readString r).2,
    hrun.trans (stateM_map _ _ _), ?_⟩
  split
  · rename_i hfits
    have hbytes : (data ++ rest.take (excess size type)).length =
        data.length + excess size type := by
      rw [List.length_append, List.length_take]
      omega
    rw [← hbytes]
    obtain ⟨htag, hr2, hu2⟩ := (skipBytes_parses (φ := φ) LABCOMM_PRAGMA
      (data ++ rest.take (excess size type))).reads _ (rest.drop (excess size type)) hr1
      (by rw [hu1, List.append_assoc, List.take_append_drop])
    exact ⟨htag, not_not.mp hr2, hu2⟩
  · rename_i hshort
    have hbytes : (data ++ rest ++
        List.replicate (excess size type - rest.length) (0 : UInt8)).length =
          data.length + excess size type := by
      simp only [List.length_append, List.length_replicate]
      omega
    rw [← hbytes]
    refine (skipBytes_parses (φ := φ) LABCOMM_PRAGMA _).starves _
      (List.replicate (excess size type - rest.length) 0) hr1 ?_ (by rw [hu1])
    rw [ne_eq, List.replicate_eq_nil_iff]
    omega

/-! ## Other packets -/

/-- The bytes of another packet are skipped. -/
theorem decodeBody_skips {tag : Nat} {payload : List UInt8} (hv : d.versionOk = true)
    (h : d.Skips (.other tag payload)) (hroom : LooksUp tag → d.CanLookUp tag)
    (uninit length : Int) :
    ((decodeBody uninit tag length).run d).1 = .ok (readerSkip length tag d.reader).1 ∧
      ((decodeBody uninit tag length).run d).2.reader = (readerSkip length tag d.reader).2 := by
  obtain ⟨huser, hversion, hdef, href, hpragma, hfound⟩ := h
  rw [decodeBody_accepted hv (by exact_mod_cast hversion), if_neg (by exact_mod_cast hdef),
    if_neg (by exact_mod_cast href)]
  split
  · rename_i htag
    obtain ⟨h1, h2, _⟩ := decodeTypePacket_skips (hroom (.inl htag))
      (hfound (.inl (by exact_mod_cast htag))) length
    exact ⟨h1, h2⟩
  · split
    · rename_i htag
      obtain ⟨h1, h2, _⟩ := decodeTypePacket_skips (hroom (.inr (.inl htag)))
        (hfound (.inr (by exact_mod_cast htag))) length
      exact ⟨h1, h2⟩
    · rw [if_neg (by exact_mod_cast hpragma), if_pos (by exact_mod_cast huser), onReader_run]
      exact ⟨rfl, rfl⟩

/-- Without room for its tag the process is lost at a type packet. -/
theorem decodeBody_lost {tag : Nat} {payload : List UInt8} (hv : d.versionOk = true)
    (h : d.Skips (.other tag payload)) (hlook : LooksUp tag) (hroom : ¬ d.CanLookUp tag)
    (uninit length : Int) :
    ((decodeBody uninit tag length).run d).1 = .error .lostTable := by
  obtain ⟨huser, hversion, hdef, href, _⟩ := h
  have hlost : ((decodeTypePacket tag length).run d).1 = .error .lostTable := by
    obtain ⟨d', hrun, _⟩ := decodeAndHandle_lost hroom
    rw [decodeTypePacket, run_bind_error hrun]
  rw [decodeBody_accepted hv (by exact_mod_cast hversion), if_neg (by exact_mod_cast hdef),
    if_neg (by exact_mod_cast href)]
  split
  · exact hlost
  · split
    · exact hlost
    · rename_i h4 h5
      have huser' : (tag : Int) < LABCOMM_USER := by exact_mod_cast huser
      rcases hlook with htag | htag | htag
      · exact absurd htag h4
      · exact absurd htag h5
      · omega

theorem decodeBody_pragma (hv : d.versionOk = true) {length : Int} {a : Int × Reader φ}
    (hread : readPragma length d.reader = (some a.1, a.2)) (uninit : Int) :
    (decodeBody uninit LABCOMM_PRAGMA length).run d = (.ok a.1, d.withReader a.2) := by
  rw [decodeBody_accepted hv (by decide), if_neg (by decide), if_neg (by decide),
    if_neg (by decide), if_neg (by decide), if_pos rfl, decodePragma,
    run_bind_ok (onReader_run _ d), hread]
  rfl

/-! ## Framing -/

theorem SystemPacket.tag_lt {p : SystemPacket} (h : d.Skips p) : p.tag < 2 ^ 31 := by
  cases p with
  | pragma => exact (by decide : LABCOMM_PRAGMA < 2 ^ 31)
  | other tag payload => exact lt_trans h.1 (by decide)

/-- A pragma has been read, and `excess` bytes too many have been skipped. -/
theorem framed_pragma_iff {rest : List UInt8} {excess : Nat} {uninit : Int} {e : Decoder φ}
    {a : Int × Reader φ} (hrun : (doDecodeOne uninit).run d = (.ok a.1, e.withReader a.2))
    (ha : if excess ≤ rest.length then
        a.1 = LABCOMM_PRAGMA ∧ a.2.error = 0 ∧ a.2.unread = rest.drop excess
      else a.2.error ≠ 0) : d.Framed rest uninit ↔ excess = 0 := by
  constructor
  · rintro ⟨result, d', hframed, _, herror, hrest⟩
    rw [hrun, Prod.mk.injEq] at hframed
    rw [← hframed.2] at herror hrest
    split at ha
    · -- what is left is all of `rest`
      have hleft : rest.drop excess = rest := ha.2.2.symm.trans hrest
      have hlen := congrArg List.length hleft
      rw [List.length_drop] at hlen
      omega
    · exact absurd herror ha
  · intro hzero
    rw [hzero, if_pos (Nat.zero_le _)] at ha
    obtain ⟨hresult, herror, hrest⟩ := ha
    refine ⟨_, _, hrun, ?_, herror, hrest⟩
    rw [hresult]
    decide

/-- **The decoder gets to the next packet, and goes on, if and only if the packet can be
framed.** -/
theorem framed_iff {p : SystemPacket} {rest : List UInt8} (hv : d.versionOk = true)
    (hskips : d.Skips p) (hlen : p.payload.length < 2 ^ 31) (hawaits : d.Awaits p rest)
    (uninit : Int) : d.Framed rest uninit ↔ d.Frames p := by
  obtain ⟨h0, tag, length, htag, hlength, hu⟩ := hawaits
  rw [List.append_assoc (tag ++ length)] at hu
  obtain ⟨r, hread, hr0, hru⟩ := onReader_reads
    (readHeader_spelled htag (SystemPacket.tag_lt hskips) hlength hlen) h0 hu
  have hrun : (doDecodeOne uninit).run d =
      (decodeBody uninit p.tag p.payload.length).run (d.withReader r) := by
    rw [doDecodeOne, run_bind_ok hread]
  have hv' : (d.withReader r).versionOk = true := hv
  cases p with
  | other tag payload =>
      simp only [SystemPacket.tag, SystemPacket.payload] at hrun hru
      have hskips' : (d.withReader r).Skips (.other tag payload) := hskips
      by_cases hroom : LooksUp tag → d.CanLookUp tag
      swap
      · -- without room for the tag nothing is returned
        rw [Classical.not_imp] at hroom
        have hlost := decodeBody_lost hv' hskips' hroom.1 hroom.2 uninit payload.length
        rw [← hrun] at hlost
        constructor
        · rintro ⟨result, d', hdone, _⟩
          rw [hdone] at hlost
          cases hlost
        · exact fun hframes => absurd (hframes.2 hroom.1) hroom.2
      obtain ⟨hresult, hreader⟩ := decodeBody_skips hv' hskips' hroom uninit payload.length
      obtain ⟨hpass, hr1, hu1⟩ := (readerSkip_parses (φ := φ) tag payload rfl).reads r rest
        (not_not.mpr hr0) hru
      rw [← hrun] at hresult hreader
      have htag' : (doDecodeOne uninit).run d = (.ok (tag : Int), ((doDecodeOne uninit).run d).2) :=
        Prod.ext (hresult.trans (congrArg Except.ok hpass)) rfl
      constructor
      · rintro ⟨result, d', hdone, hpos, _⟩
        refine ⟨fun hzero => ?_, hroom⟩
        rw [hdone, Prod.mk.injEq, Except.ok.injEq] at htag'
        have hres : result = (tag : Int) := htag'.1
        omega
      · rintro ⟨hne, _⟩
        refine ⟨tag, _, htag', by omega, ?_, ?_⟩
        · rw [hreader]
          exact not_not.mp hr1
        · rw [hreader]
          exact hu1
  | pragma size type data =>
      -- a pragma is framed if the bytes it skips are those that are there
      simp only [SystemPacket.tag, SystemPacket.payload] at hrun hru hlen
      obtain ⟨a, hread', ha⟩ := readPragma_run hskips hlen hr0 hru
      rw [decodeBody_pragma hv' hread'] at hrun
      exact (framed_pragma_iff hrun ha).trans (excess_eq_zero_iff hskips)

/-- A decoder that has received the version and has the bytes to read. -/
def decoderOf (bs : List UInt8) : Decoder endOfFile :=
  { decoderNew (Reader.ofBytes endOfFile bs) with versionOk := true }

/-- A pragma of type `a` with one byte of data, and the tag of the next packet. -/
theorem framed_pragma : (decoderOf [0x3f, 3, 1, 97, 7, 0x40]).Framed [0x40] 0 := by
  refine (framed_iff (p := .pragma [1] [97] [7]) rfl (singleton_spells (n := 1) (by decide))
    (show [1, 97, 7].length < 2 ^ 31 by decide) ⟨rfl, [0x3f], [3], ?_, ?_, ?_⟩ 0).mpr
      ⟨by decide, by decide⟩
  · exact singleton_spells (n := 0x3f) (by decide)
  · exact singleton_spells (n := 3) (by decide)
  · rfl

/-- Every packet that is skipped is framed. -/
def SkipsFramed : Prop :=
  ∀ (φ : Host) (d : Decoder φ) p rest uninit, d.versionOk = true → d.Skips p →
    p.payload.length < 2 ^ 31 → d.Awaits p rest → d.Framed rest uninit

/-- A pragma whose type is a NUL takes a byte of the next packet. -/
theorem not_skipsFramed : ¬ SkipsFramed := by
  intro h
  obtain ⟨result, d', hrun, _, _, hrest⟩ := h endOfFile (decoderOf [0x3f, 2, 1, 0, 0x40])
    (.pragma [1] [0] []) [0x40] 0 rfl (singleton_spells (n := 1) (by decide))
    (show [1, 0].length < 2 ^ 31 by decide)
    ⟨rfl, [0x3f], [2], singleton_spells (n := 0x3f) (by decide), singleton_spells (n := 2) (by decide), rfl⟩
  have hunread : ((doDecodeOne 0).run (decoderOf [0x3f, 2, 1, 0, 0x40])).2.reader.unread = [] := by
    decide +kernel
  rw [hrun] at hunread
  rw [hunread] at hrest
  exact absurd hrest (by decide)

end LabComm.C
