import Stronk.NbtTree

/-! What a dump writes is what a parse reads, on whatever machines the two are. -/
namespace Stronk.Nbt
open ByteParser Stronk.Mcpr

variable {host host' : Endian}

section WellFormed

def CString.Short (s : CString) : Prop := s.chars.length ≤ 32767

/-- A tree that keeps to the format, below its name: strings and arrays have lengths that can be
written, the entries of a list have no names and the type of the list, the entries of a compound
have names. -/
inductive WellFormed : NbtNode → Prop
  | number (name n) : WellFormed (.number name n)
  | byteArray (name) {data} (length : data.length < 2^31) : WellFormed (.byteArray name data)
  | string (name) {s : CString} (short : s.Short) : WellFormed (.string name s)
  | list (name) {type entries} (valid : type ≠ tagInvalid) (length : entries.length < 2^31)
      (same : ∀ e ∈ entries, e.name = none ∧ e.type = type) (inner : ∀ e ∈ entries, WellFormed e) :
      WellFormed (.list name (some type) entries)
  | compound (name) {entries}
      (named : ∀ e ∈ entries, ∃ s : CString, e.name = some s ∧ s.Short)
      (inner : ∀ e ∈ entries, WellFormed e) : WellFormed (.compound name entries)
  | intArray (name) {data} (length : data.length < 2^31) : WellFormed (.intArray name data)

/-- A whole tree: the root has a name. -/
structure WellFormedRoot (tree : NbtNode) : Prop where
  named : ∃ s : CString, tree.name = some s ∧ s.Short
  inner : WellFormed tree

end WellFormed

section Numbers

theorem ne2be_eq (host : Endian) (n v : ℕ) : ne2be host n v = (leBytes n v).reverse := by
  cases host with
  | little => rfl
  | big => rfl

theorem ne2be_length (host : Endian) (n v : ℕ) : (ne2be host n v).length = n := by
  rw [ne2be_eq, List.length_reverse, leBytes_length]

/-- The order of the bytes in memory does not depend on the host. -/
theorem swappedMemscan_eq (host : Endian) (n : ℕ) : swappedMemscan host n = unsigned n := by
  have hvalue (bs : List UInt8) : hostValue host (be2ne host bs) = beNat bs := by
    have hbe := beNat_reverse bs.reverse
    rw [List.reverse_reverse] at hbe
    rw [hbe]
    cases host with
    | little => rfl
    | big => rfl
  rw [swappedMemscan, unsigned]
  simp only [hvalue]

theorem reads_ne2be (host host' : Endian) {n v : ℕ} (h : v < 256^n) :
    Reads (swappedMemscan host n) (ne2be host' n v) v := by
  have hreads := reads_unsigned (ne2be host' n v) n (ne2be_length host' n v)
  rw [ne2be_eq, beNat_reverse, leValue_leBytes n v h, ← ne2be_eq host'] at hreads
  rw [swappedMemscan_eq]
  exact hreads

theorem yields_swappedMemscan (n : ℕ) :
    Yields (swappedMemscan host n) fun bs _ => bs.length = n := by
  apply (yields_bytes n).bind
  rintro bs as ⟨rfl, hlength⟩
  exact yields_pure (by rw [List.append_nil]; exact hlength)

end Numbers

section Reading

@[simp] theorem append_status (bs : List UInt8) : (append bs).status = .ok := rfl

@[simp] theorem append_data (bs : List UInt8) : (append bs).data = bs := rfl

theorem then_of_ok {a : Dumped} (h : a.status = .ok) (b : Dumped) :
    a.then b = ⟨b.status, a.data ++ b.data⟩ := by
  rw [Dumped.then, h]

theorem append_then (bs : List UInt8) (b : Dumped) :
    (append bs).then b = ⟨b.status, bs ++ b.data⟩ := then_of_ok rfl b

theorem ofBuffer_chars (s : CString) : CString.ofBuffer s.chars = s := by
  obtain ⟨chars, terminated⟩ := s
  have hall : chars.takeWhile (· ≠ 0) = chars := by
    rw [List.takeWhile_eq_self_iff]
    intro c hc
    exact decide_eq_true fun h0 => terminated (h0 ▸ hc)
  simp only [CString.ofBuffer, hall]

/-- A length that fits is read back as it is. -/
theorem toInt_ofNat_of_lt {n w : ℕ} (h : 2*n < 2^w) : (BitVec.ofNat w n).toInt = n := by
  rw [BitVec.toInt_ofNat', Int.bmod_eq_of_le] <;> omega

def stringBytes (host : Endian) (s : CString) : List UInt8 :=
  ne2be host 2 s.chars.length ++ s.chars

theorem dumpStringBinary_short {s : CString} (h : s.Short) :
    dumpStringBinary host s = append (stringBytes host s) := by
  rw [dumpStringBinary, if_neg (not_lt.mpr h), append_then]
  rfl

theorem reads_readString (host host' : Endian) {s : CString} (h : s.Short) :
    Reads (readString host) (stringBytes host' s) s := by
  have hshort : s.chars.length ≤ 32767 := h
  have hlength : (BitVec.ofNat 16 s.chars.length).toInt = s.chars.length :=
    toInt_ofNat_of_lt (by omega)
  apply (reads_ne2be host host' (by omega)).bind
  simp only [hlength]
  rw [if_neg (by omega), Int.toNat_natCast]
  have hread := (reads_bytes s.chars _ rfl).bind_pure (f := CString.ofBuffer)
  rw [ofBuffer_chars] at hread
  exact hread

theorem reads_readByteArray {data : List UInt8} (h : data.length < 2^31) :
    Reads (readByteArray host) (ne2be host' 4 data.length ++ data) data := by
  have hlength : (BitVec.ofNat 32 data.length).toInt = data.length :=
    toInt_ofNat_of_lt (by omega)
  apply (reads_ne2be host host' (by omega)).bind
  simp only [hlength]
  rw [if_neg (by omega), Int.toNat_natCast]
  exact reads_bytes data _ rfl

theorem reads_readIntArray {data : List (BitVec 32)} (h : data.length < 2^31) :
    Reads (readIntArray host)
      (ne2be host' 4 data.length ++ data.flatMap fun elem => ne2be host' 4 elem.toNat) data := by
  have hlength : (BitVec.ofNat 32 data.length).toInt = data.length :=
    toInt_ofNat_of_lt (by omega)
  apply (reads_ne2be host host' (by omega)).bind
  simp only [hlength]
  rw [if_neg (by omega), Int.toNat_natCast]
  have helems := reads_times (p := swappedMemscan host 4) data
    (fun elem => ne2be host' 4 elem.toNat) BitVec.toNat fun elem _ => reads_ne2be host host' elem.isLt
  have hread := helems.bind_pure (f := fun elems => elems.map (BitVec.ofNat 32))
  have hmap : (data.map BitVec.toNat).map (BitVec.ofNat 32) = data := by
    rw [List.map_map]
    apply List.map_id''
    intro elem
    rw [Function.comp_apply, BitVec.ofNat_toNat, BitVec.setWidth_eq]
  rw [hmap] at hread
  exact hread

end Reading

section RoundTrip

/-- A number of the same type with another value. -/
def NbtNumber.withValue (v : ℕ) : NbtNumber → NbtNumber
  | .tagByte _ => .tagByte (BitVec.ofNat 8 v)
  | .tagShort _ => .tagShort (BitVec.ofNat 16 v)
  | .tagInt _ => .tagInt (BitVec.ofNat 32 v)
  | .tagLong _ => .tagLong (BitVec.ofNat 64 v)
  | .tagFloat _ => .tagFloat (BitVec.ofNat 32 v)
  | .tagDouble _ => .tagDouble (BitVec.ofNat 64 v)

theorem NbtNumber.withValue_value (n : NbtNumber) : n.withValue n.value = n := by
  cases n <;> simp [NbtNumber.withValue, NbtNumber.value]

theorem NbtNumber.value_lt (n : NbtNumber) : n.value < 256^n.size := by
  cases n <;> exact BitVec.isLt _

theorem parseUnnamedTag_number (depth : ℕ) (name : Option CString) (n : NbtNumber) :
    parseUnnamedTag host (depth+1) n.type name =
      swappedMemscan host n.size >>= fun v => pure (.number name (n.withValue v)) := by
  cases n <;> rfl

/-- A tree of which the payload is dumped, and read back at any depth that is enough. -/
structure Survives (host host' : Endian) (tree : NbtNode) : Prop where
  dumped : (dumpPayload host tree).status = .ok
  reads : ∀ depth, (dumpPayload host tree).data.length < depth →
    Reads (parseUnnamedTag host' depth tree.type tree.name) (dumpPayload host tree).data tree

theorem survives_of {tree : NbtNode} {bs : List UInt8} (h : dumpPayload host tree = append bs)
    (hreads : ∀ depth, bs.length < depth+1 →
      Reads (parseUnnamedTag host' (depth+1) tree.type tree.name) bs tree) :
    Survives host host' tree where
  dumped := by rw [h, append_status]
  reads depth hdepth := by
    rw [h, append_data] at hdepth ⊢
    obtain ⟨d, rfl⟩ := Nat.exists_eq_succ_of_ne_zero (Nat.ne_of_gt (Nat.zero_lt_of_lt hdepth))
    exact hreads d hdepth

theorem dumpEntries_cons (host : Endian) (dumpType : Bool) (e : NbtNode) (entries : List NbtNode) :
    dumpEntries host dumpType (e :: entries) =
      (dumpBinary host dumpType e).then (dumpEntries host dumpType entries) := rfl

/-- The entries of a list: their payloads, one behind the other. -/
theorem dumpEntries_unnamed {entries : List NbtNode} (h : ∀ e ∈ entries, e.name = none)
    (hdumped : ∀ e ∈ entries, (dumpPayload host e).status = .ok) :
    dumpEntries host false entries =
      append (entries.flatMap fun e => (dumpPayload host e).data) := by
  induction entries with
  | nil => rfl
  | cons e entries ih =>
    rw [List.forall_mem_cons] at h hdumped
    have hhead : dumpHead host false e = append [] := by
      rw [dumpHead, h.1]
      rfl
    rw [dumpEntries_cons, dumpBinary, hhead, ih h.2 hdumped.2, append_then, List.nil_append, List.flatMap_cons,
      then_of_ok hdumped.1]
    rfl

/-- The bytes of an entry of a compound. -/
def namedBytes (host : Endian) (e : NbtNode) : List UInt8 :=
  (dumpBinary host true e).data

theorem dumpBinary_named {e : NbtNode} {s : CString} (hname : e.name = some s) (hs : s.Short)
    (hdumped : (dumpPayload host e).status = .ok) :
    dumpBinary host true e =
      append (e.type :: (stringBytes host s ++ (dumpPayload host e).data)) := by
  have hhead : dumpHead host true e = append (e.type :: stringBytes host s) := by
    rw [dumpHead, hname]
    dsimp only
    rw [dumpStringBinary_short hs]
    rfl
  rw [dumpBinary, hhead, append_then, hdumped]
  rfl

theorem dumpEntries_named {entries : List NbtNode}
    (h : ∀ e ∈ entries, ∃ s : CString, e.name = some s ∧ s.Short)
    (hdumped : ∀ e ∈ entries, (dumpPayload host e).status = .ok) :
    dumpEntries host true entries = append (entries.flatMap (namedBytes host)) := by
  induction entries with
  | nil => rfl
  | cons e entries ih =>
    rw [List.forall_mem_cons] at h hdumped
    obtain ⟨s, hname, hs⟩ := h.1
    have hbinary := dumpBinary_named hname hs hdumped.1
    rw [dumpEntries_cons, ih h.2 hdumped.2, List.flatMap_cons, namedBytes, hbinary,
      append_then]
    rfl

/-- Types that are all the same are found to be. -/
theorem homogenousLoop_same {type : UInt8} (htype : type ≠ tagInvalid) {types : List UInt8}
    (h : ∀ t ∈ types, t = type) : homogenousLoop type types = some type := by
  induction types with
  | nil => rfl
  | cons t types ih =>
    rw [List.forall_mem_cons] at h
    rw [homogenousLoop, if_neg htype, h.1, if_neg (by simp)]
    exact ih h.2

theorem listIsHomogenous_same {type : UInt8} (htype : type ≠ tagInvalid) {types : List UInt8}
    (h : ∀ t ∈ types, t = type) : listIsHomogenous (some type) types = type := by
  have hloop : homogenousLoop tagInvalid types = some (if types = [] then tagInvalid else type) := by
    cases types with
    | nil => rfl
    | cons t types =>
      rw [List.forall_mem_cons] at h
      rw [homogenousLoop, if_pos rfl, h.1, if_neg (by simp), if_neg (by simp)]
      exact homogenousLoop_same htype h.2
  rw [listIsHomogenous, hloop]
  dsimp only
  split_ifs <;> first | rfl | contradiction

/-- The loop of a compound, over the entries up to the end. -/
theorem reads_readCompound (host host' : Endian) (p : UInt8 → CString → Parser NbtNode)
    {entries : List NbtNode}
    (h : ∀ e ∈ entries, e.type ≠ tagInvalid ∧ ∃ s : CString, e.name = some s ∧ s.Short ∧
      namedBytes host e = e.type :: (stringBytes host s ++ (dumpPayload host e).data) ∧
      Reads (p e.type s) (dumpPayload host e).data e) (count : ℕ)
    (hcount : entries.length < count) :
    Reads (readCompound host' p count) (entries.flatMap (namedBytes host) ++ [0]) entries := by
  induction entries generalizing count with
  | nil =>
    obtain ⟨count, rfl⟩ := Nat.exists_eq_succ_of_ne_zero (Nat.ne_of_gt hcount)
    rw [readCompound]
    apply (reads_byte 0).bind
    rw [if_pos (show (0 : UInt8) = tagInvalid from rfl)]
    exact Reads.pure []
  | cons e entries ih =>
    rw [List.forall_mem_cons] at h
    rw [List.length_cons] at hcount
    obtain ⟨count, rfl⟩ := Nat.exists_eq_succ_of_ne_zero (Nat.ne_of_gt (Nat.zero_lt_of_lt hcount))
    obtain ⟨htype, s, -, hs, hbytes, hreads⟩ := h.1
    have hrest := ih h.2 count (Nat.lt_of_succ_lt_succ hcount)
    rw [readCompound, List.flatMap_cons, hbytes]
    have hbytes' : e.type :: (stringBytes host s ++ (dumpPayload host e).data) ++
        entries.flatMap (namedBytes host) ++ [0] =
        [e.type] ++ (stringBytes host s ++ ((dumpPayload host e).data ++
          (entries.flatMap (namedBytes host) ++ [0]))) := by
      simp only [List.cons_append, List.nil_append, List.append_assoc]
    rw [hbytes']
    apply (reads_byte e.type).bind
    rw [if_neg htype]
    exact (reads_readString host' host hs).bind (hreads.bind hrest.bind_pure)

theorem reads_readList (host host' : Endian) (p : UInt8 → Parser NbtNode) {type : UInt8} (htype : type ≠ tagInvalid)
    {entries : List NbtNode} (hlength : entries.length < 2^31)
    (h : ∀ e ∈ entries, Reads (p type) (dumpPayload host e).data e) :
    Reads (readList host' p)
      ([type] ++ (ne2be host 4 entries.length ++ entries.flatMap fun e => (dumpPayload host e).data))
      (type, entries) := by
  have hint : (BitVec.ofNat 32 entries.length).toInt = entries.length :=
    toInt_ofNat_of_lt (by omega)
  have hentries := reads_times (p := p type) entries (fun e => (dumpPayload host e).data) id h
  rw [List.map_id] at hentries
  apply (reads_byte type).bind
  apply (reads_ne2be host' host (by omega)).bind
  simp only [hint, Int.toNat_natCast, if_neg htype]
  exact hentries.bind_pure

theorem type_ne_invalid (tree : NbtNode) : tree.type ≠ tagInvalid := by
  cases tree with
  | number name n => cases n <;> simp [NbtNode.type, NbtNumber.type, tagInvalid]
  | byteArray | string | list | compound | intArray =>
    simp [NbtNode.type, tagInvalid, tagCompound]

/-- Each entry takes part of the bytes of all. -/
theorem length_le_flatMap {entries : List NbtNode} {e : NbtNode} (he : e ∈ entries)
    (f : NbtNode → List UInt8) : (f e).length ≤ (entries.flatMap f).length := by
  rw [List.length_flatMap]
  exact List.le_sum_of_mem (List.mem_map_of_mem he)

theorem length_le_length_flatMap {entries : List NbtNode} {f : NbtNode → List UInt8}
    (h : ∀ e ∈ entries, 1 ≤ (f e).length) : entries.length ≤ (entries.flatMap f).length := by
  induction entries with
  | nil => exact Nat.zero_le _
  | cons e entries ih =>
    rw [List.forall_mem_cons] at h
    rw [List.flatMap_cons, List.length_append, List.length_cons]
    have hle := ih h.2
    omega

section Payloads
variable {name : Option CString}

theorem toNat_ofNat_length {n : ℕ} (h : n < 2^31) : (BitVec.ofNat 32 n).toNat = n := by
  rw [BitVec.toNat_ofNat, Nat.mod_eq_of_lt (by omega)]

theorem dumpPayload_byteArray {data : List UInt8} (h : data.length < 2^31) :
    dumpPayload host (.byteArray name data) = append (ne2be host 4 data.length ++ data) := by
  change dumpByteArrayBinary host data = _
  rw [dumpByteArrayBinary, toNat_ofNat_length h]
  rfl

theorem dumpPayload_string {s : CString} (h : s.Short) :
    dumpPayload host (.string name s) = append (stringBytes host s) := by
  change dumpStringBinary host s = _
  rw [dumpStringBinary_short h]

theorem dumpPayload_intArray {data : List (BitVec 32)} (h : data.length < 2^31) :
    dumpPayload host (.intArray name data) = append (ne2be host 4 data.length ++
      data.flatMap fun elem => ne2be host 4 elem.toNat) := by
  change dumpIntArrayBinary host data = _
  rw [dumpIntArrayBinary, toNat_ofNat_length h]
  rfl

theorem dumpPayload_list {type : UInt8} {entries : List NbtNode} (hvalid : type ≠ tagInvalid)
    (hlength : entries.length < 2^31) (hsame : ∀ e ∈ entries, e.name = none ∧ e.type = type)
    (hdumped : ∀ e ∈ entries, (dumpPayload host e).status = .ok) :
    dumpPayload host (.list name (some type) entries) =
      append ([type] ++ (ne2be host 4 entries.length ++
        entries.flatMap fun e => (dumpPayload host e).data)) := by
  have htype : listIsHomogenous (some type) (entries.map NbtNode.type) = type := by
    apply listIsHomogenous_same hvalid
    intro t ht
    obtain ⟨e, he, rfl⟩ := List.mem_map.mp ht
    exact (hsame e he).2
  rw [dumpPayload, htype, if_neg (by omega), if_neg hvalid,
    dumpEntries_unnamed (fun e he => (hsame e he).1) hdumped]
  rfl

theorem dumpPayload_compound {entries : List NbtNode}
    (hnamed : ∀ e ∈ entries, ∃ s : CString, e.name = some s ∧ s.Short)
    (hdumped : ∀ e ∈ entries, (dumpPayload host e).status = .ok) :
    dumpPayload host (.compound name entries) =
      append (entries.flatMap (namedBytes host) ++ [0]) := by
  change (dumpEntries host true entries).then (append [0]) = _
  rw [dumpEntries_named hnamed hdumped]
  rfl

theorem namedBytes_eq {e : NbtNode} {s : CString} (hname : e.name = some s) (hs : s.Short)
    (hdumped : (dumpPayload host e).status = .ok) :
    namedBytes host e = e.type :: (stringBytes host s ++ (dumpPayload host e).data) := by
  rw [namedBytes, dumpBinary_named hname hs hdumped]
  rfl

end Payloads

theorem survives_list {name : Option CString} {type : UInt8} {entries : List NbtNode}
    (hvalid : type ≠ tagInvalid) (hlength : entries.length < 2^31)
    (hsame : ∀ e ∈ entries, e.name = none ∧ e.type = type)
    (h : ∀ e ∈ entries, Survives host host' e) :
    Survives host host' (.list name (some type) entries) := by
  refine survives_of (dumpPayload_list hvalid hlength hsame fun e he => (h e he).dumped)
    fun depth hdepth => ?_
  have hentries (e : NbtNode) (he : e ∈ entries) :
      Reads (parseUnnamedTag host' depth type none) (dumpPayload host e).data e := by
    have hle := length_le_flatMap he fun e => (dumpPayload host e).data
    rw [List.length_append, List.length_append, List.length_singleton] at hdepth
    have hreads := (h e he).reads depth (by omega)
    rw [(hsame e he).1, (hsame e he).2] at hreads
    exact hreads
  have hlist := reads_readList host host' (fun type => parseUnnamedTag host' depth type none)
    hvalid hlength hentries
  exact hlist.bind_pure (f := fun r => NbtNode.list name (some r.1) r.2)

theorem survives_compound {name : Option CString} {entries : List NbtNode}
    (hnamed : ∀ e ∈ entries, ∃ s : CString, e.name = some s ∧ s.Short)
    (h : ∀ e ∈ entries, Survives host host' e) :
    Survives host host' (.compound name entries) := by
  refine survives_of (dumpPayload_compound hnamed fun e he => (h e he).dumped)
    fun depth hdepth => ?_
  rw [List.length_append, List.length_singleton] at hdepth
  have hcount : entries.length ≤ (entries.flatMap (namedBytes host)).length := by
    apply length_le_length_flatMap
    intro e he
    obtain ⟨s, hname, hs⟩ := hnamed e he
    rw [namedBytes_eq hname hs (h e he).dumped, List.length_cons]
    exact Nat.le_add_left _ _
  have hentries (e : NbtNode) (he : e ∈ entries) :
      e.type ≠ tagInvalid ∧ ∃ s : CString, e.name = some s ∧ s.Short ∧
        namedBytes host e = e.type :: (stringBytes host s ++ (dumpPayload host e).data) ∧
        Reads (parseUnnamedTag host' depth e.type (some s)) (dumpPayload host e).data e := by
    obtain ⟨s, hname, hs⟩ := hnamed e he
    have hbytes := namedBytes_eq hname hs (h e he).dumped
    have hle := length_le_flatMap he (namedBytes host)
    rw [hbytes, List.length_cons, List.length_append] at hle
    have hreads := (h e he).reads depth (by omega)
    rw [hname] at hreads
    exact ⟨type_ne_invalid e, s, hname, hs, hbytes, hreads⟩
  have hcompound := reads_readCompound host host'
    (fun type name => parseUnnamedTag host' depth type (some name)) hentries (depth+1) (by omega)
  exact hcompound.bind_pure (f := NbtNode.compound name)

theorem WellFormed.survives {tree : NbtNode} (h : WellFormed tree) : Survives host host' tree := by
  induction h with
  | number name n =>
    refine survives_of rfl fun depth _ => ?_
    have hread := (reads_ne2be host' host n.value_lt).bind_pure
      (f := fun v => NbtNode.number name (n.withValue v))
    rw [n.withValue_value] at hread
    change Reads (parseUnnamedTag host' (depth+1) n.type name) _ _
    rw [parseUnnamedTag_number]
    exact hread
  | byteArray name hlength =>
    exact survives_of (dumpPayload_byteArray hlength)
      fun depth _ => (reads_readByteArray hlength).bind_pure
  | string name hs =>
    exact survives_of (dumpPayload_string hs)
      fun depth _ => (reads_readString host' host hs).bind_pure
  | intArray name hlength =>
    exact survives_of (dumpPayload_intArray hlength)
      fun depth _ => (reads_readIntArray hlength).bind_pure
  | list name hvalid hlength hsame _ ih => exact survives_list hvalid hlength hsame ih
  | compound name hnamed _ ih => exact survives_compound hnamed ih

theorem WellFormed.dumped {tree : NbtNode} (h : WellFormed tree) (host : Endian) :
    (dumpPayload host tree).status = .ok := by
  have hself : Survives host host tree := h.survives
  exact hself.dumped

end RoundTrip

section Accepted

/-- A length that is not negative fits. -/
theorem toNat_toInt_lt {w : ℕ} (v : BitVec w) : 2*v.toInt.toNat < 2^w := by
  have hlt := BitVec.two_mul_toInt_lt (x := v)
  have hpow : ((2^w : ℕ) : ℤ) = 2^w := by norm_cast
  have hpos : 0 < 2^w := Nat.two_pow_pos w
  omega

theorem yields_readString :
    Yields (readString host) fun bs s => s.Short ∧ 2+s.chars.length ≤ bs.length := by
  apply (yields_swappedMemscan 2).bind
  intro first n hfirst
  dsimp only
  split_ifs with hneg
  · exact yields_failure
  apply (yields_bytes _).bind
  rintro more buffer ⟨rfl, hlength⟩
  apply yields_pure
  have hlt := toNat_toInt_lt (BitVec.ofNat 16 n)
  have htake : (CString.ofBuffer more).chars.length ≤ more.length :=
    (List.takeWhile_prefix _).length_le
  rw [List.append_nil, List.length_append, hfirst]
  exact ⟨show _ ≤ _ by omega, by omega⟩

theorem yields_readByteArray :
    Yields (readByteArray host) fun bs data => data.length < 2^31 ∧ 4+data.length ≤ bs.length := by
  apply (yields_swappedMemscan 4).bind
  intro first n hfirst
  dsimp only
  split_ifs with hneg
  · exact yields_failure
  apply (yields_bytes _).mono
  rintro more data ⟨rfl, hlength⟩
  have hlt := toNat_toInt_lt (BitVec.ofNat 32 n)
  rw [List.length_append, hfirst]
  omega

/-- Parts of the same length. -/
theorem length_flatten_of_forall₂ {β : Type} {n : ℕ} {parts : List (List UInt8)} {as : List β}
    (h : List.Forall₂ (fun bs _ => bs.length = n) parts as) :
    parts.flatten.length = n*as.length := by
  induction h with
  | nil => rfl
  | cons hlength _ ih =>
    rw [List.flatten_cons, List.length_append, hlength, ih, List.length_cons, Nat.mul_succ]
    exact Nat.add_comm _ _

theorem yields_readIntArray :
    Yields (readIntArray host) fun bs data =>
      data.length < 2^31 ∧ 4+4*data.length ≤ bs.length := by
  apply (yields_swappedMemscan 4).bind
  intro first n hfirst
  dsimp only
  split_ifs with hneg
  · exact yields_failure
  apply ((yields_swappedMemscan 4).times _).bind
  rintro more elems ⟨hlength, parts, rfl, hparts⟩
  apply yields_pure
  have hlt := toNat_toInt_lt (BitVec.ofNat 32 n)
  rw [List.append_nil, List.length_append, hfirst, length_flatten_of_forall₂ hparts,
    List.length_map]
  omega

/-- What `parse_unnamed_tag` accepts: a tree of the announced type and name that keeps to the
format, and that takes no more bytes to dump than it took to parse. -/
structure Accepted (host : Endian) (type : UInt8) (name : Option CString) (bs : List UInt8)
    (tree : NbtNode) : Prop where
  type : tree.type = type
  name : tree.name = name
  inner : WellFormed tree
  length : (dumpPayload host tree).data.length ≤ bs.length

variable {p : UInt8 → Option CString → Parser NbtNode}

theorem length_stringBytes (s : CString) : (stringBytes host s).length = 2+s.chars.length := by
  rw [stringBytes, List.length_append, ne2be_length]

theorem forall_of_forall₂ {P : List UInt8 → NbtNode → Prop} {Q : NbtNode → Prop}
    {parts : List (List UInt8)} {entries : List NbtNode} (h : List.Forall₂ P parts entries)
    (hP : ∀ bs e, P bs e → Q e) : ∀ e ∈ entries, Q e := by
  induction h with
  | nil => simp
  | cons hfirst _ ih =>
    rw [List.forall_mem_cons]
    exact ⟨hP _ _ hfirst, ih⟩

theorem length_flatMap_le {P : List UInt8 → NbtNode → Prop} {f : NbtNode → List UInt8}
    {parts : List (List UInt8)} {entries : List NbtNode} (h : List.Forall₂ P parts entries)
    (hP : ∀ bs e, P bs e → (f e).length ≤ bs.length) :
    (entries.flatMap f).length ≤ parts.flatten.length := by
  induction h with
  | nil => exact le_rfl
  | cons hfirst _ ih =>
    rw [List.flatMap_cons, List.flatten_cons, List.length_append, List.length_append]
    exact Nat.add_le_add (hP _ _ hfirst) ih

theorem accepted_list {name : Option CString} {type : UInt8} {bs : List UInt8}
    {entries : List NbtNode} {parts : List (List UInt8)} (hlength : entries.length < 2^31)
    (hparts : List.Forall₂ (Accepted host type none) parts entries)
    (hbs : 5+parts.flatten.length ≤ bs.length) :
    Accepted host 9 name bs
      (.list name (some (if type = tagInvalid then tagCompound else type)) entries) := by
  have hsame : ∀ e ∈ entries, e.name = none ∧
      e.type = if type = tagInvalid then tagCompound else type := by
    refine forall_of_forall₂ (Q := fun e => e.name = none ∧
      e.type = if type = tagInvalid then tagCompound else type) hparts fun bs e he => ?_
    have htype : type ≠ tagInvalid := he.type ▸ type_ne_invalid e
    rw [if_neg htype]
    exact ⟨he.name, he.type⟩
  have hvalid : (if type = tagInvalid then tagCompound else type) ≠ tagInvalid := by
    split_ifs with h
    · decide
    · exact h
  have hinner : ∀ e ∈ entries, WellFormed e := forall_of_forall₂ hparts fun _ _ he => he.inner
  refine ⟨rfl, rfl, .list name hvalid hlength hsame hinner, ?_⟩
  rw [dumpPayload_list hvalid hlength hsame fun e he =>
    (hinner e he).dumped host, append_data, List.length_append,
    List.length_append, List.length_singleton, ne2be_length]
  have hle := length_flatMap_le (f := fun e => (dumpPayload host e).data) hparts
    fun _ _ he => he.length
  omega

/-- What the loop of a compound accepts. -/
structure AcceptedEntries (host : Endian) (bs : List UInt8) (entries : List NbtNode) : Prop where
  named : ∀ e ∈ entries, ∃ s : CString, e.name = some s ∧ s.Short
  inner : ∀ e ∈ entries, WellFormed e
  length : (entries.flatMap (namedBytes host)).length+1 ≤ bs.length

theorem yields_readCompound {host' : Endian} {p : UInt8 → CString → Parser NbtNode}
    (h : ∀ type name, Yields (p type name) (Accepted host type (some name))) (count : ℕ) :
    Yields (readCompound host' p count) (AcceptedEntries host) := by
  induction count with
  | zero => exact yields_failure
  | succ count ih =>
    rw [readCompound]
    apply yields_byte.bind
    rintro _ type rfl
    split_ifs with hend
    · exact yields_pure ⟨by simp, by simp, le_rfl⟩
    apply yields_readString.bind
    rintro first s ⟨hs, hfirst⟩
    apply (h type s).bind
    intro more e he
    apply ih.bind
    intro others entries hentries
    apply yields_pure
    refine ⟨?_, ?_, ?_⟩
    · rw [List.forall_mem_cons]
      exact ⟨⟨s, he.name, hs⟩, hentries.named⟩
    · rw [List.forall_mem_cons]
      exact ⟨he.inner, hentries.inner⟩
    · have hbytes := namedBytes_eq he.name hs (he.inner.dumped host)
      have hlength := hentries.length
      have hpayload := he.length
      rw [List.flatMap_cons, hbytes]
      simp only [List.length_append, List.length_cons, List.length_nil, length_stringBytes]
      omega

theorem accepted_compound {name : Option CString} {bs : List UInt8} {entries : List NbtNode}
    (h : AcceptedEntries host bs entries) : Accepted host tagCompound name bs (.compound name entries) where
  type := rfl
  name := rfl
  inner := .compound name h.named h.inner
  length := by
    rw [dumpPayload_compound h.named fun e he =>
      (h.inner e he).dumped host, append_data, List.length_append,
      List.length_singleton]
    exact h.length

theorem accepted_number {name : Option CString} {n : NbtNumber} {bs : List UInt8}
    (h : bs.length = n.size) : Accepted host n.type name bs (.number name n) where
  type := rfl
  name := rfl
  inner := .number name n
  length := by
    change (ne2be host n.size n.value).length ≤ bs.length
    rw [ne2be_length, h]

theorem yields_readList {host' : Endian} {p : UInt8 → Parser NbtNode}
    (h : ∀ type, Yields (p type) (Accepted host type none)) :
    Yields (readList host' p) fun bs r => ∀ name, Accepted host 9 name bs (.list name (some r.1) r.2) := by
  apply yields_byte.bind
  rintro _ type rfl
  apply (yields_swappedMemscan 4).bind
  intro first n hfirst
  apply ((h type).times _).bind
  rintro more entries ⟨hlength, parts, rfl, hparts⟩
  apply yields_pure
  intro name
  have hlt := toNat_toInt_lt (BitVec.ofNat 32 n)
  refine accepted_list (show entries.length < 2^31 by omega) hparts ?_
  simp only [List.length_append, List.length_singleton, List.append_nil, hfirst]
  omega

theorem yields_number {host' : Endian} {type : UInt8} {name : Option CString} {size : ℕ}
    (n : ℕ → NbtNumber) (hsize : ∀ v, (n v).size = size) (htype : ∀ v, (n v).type = type) :
    Yields (swappedMemscan host' size >>= fun v => pure (.number name (n v)))
      (Accepted host type name) := by
  apply (yields_swappedMemscan size).bind
  intro bs v hbs
  apply yields_pure
  rw [List.append_nil, ← htype v]
  exact accepted_number (hbs.trans (hsize v).symm)

theorem length_flatMap_ne2be (data : List (BitVec 32)) :
    (data.flatMap fun elem => ne2be host 4 elem.toNat).length = 4*data.length := by
  induction data with
  | nil => rfl
  | cons elem data ih =>
    rw [List.flatMap_cons, List.length_append, ne2be_length, ih, List.length_cons, Nat.mul_succ]
    exact Nat.add_comm _ _

/-- What is accepted on one machine is what a dump on any other writes. -/
theorem yields_parse (host host' : Endian) (depth : ℕ) (type : UInt8) (name : Option CString) :
    Yields (parseUnnamedTag host' depth type name) (Accepted host type name) := by
  induction depth generalizing type name with
  | zero => exact yields_failure
  | succ depth ih =>
    unfold parseUnnamedTag
    split
    · exact yields_number (fun v => .tagByte (BitVec.ofNat 8 v)) (fun _ => rfl) fun _ => rfl
    · exact yields_number (fun v => .tagShort (BitVec.ofNat 16 v)) (fun _ => rfl) fun _ => rfl
    · exact yields_number (fun v => .tagInt (BitVec.ofNat 32 v)) (fun _ => rfl) fun _ => rfl
    · exact yields_number (fun v => .tagLong (BitVec.ofNat 64 v)) (fun _ => rfl) fun _ => rfl
    · exact yields_number (fun v => .tagFloat (BitVec.ofNat 32 v)) (fun _ => rfl) fun _ => rfl
    · exact yields_number (fun v => .tagDouble (BitVec.ofNat 64 v)) (fun _ => rfl) fun _ => rfl
    · apply yields_readByteArray.bind
      rintro bs data ⟨hlength, hbs⟩
      apply yields_pure
      refine ⟨rfl, rfl, .byteArray name hlength, ?_⟩
      rw [dumpPayload_byteArray hlength, append_data, List.length_append, ne2be_length,
        List.append_nil]
      exact hbs
    · apply yields_readString.bind
      rintro bs s ⟨hs, hbs⟩
      apply yields_pure
      refine ⟨rfl, rfl, .string name hs, ?_⟩
      rw [dumpPayload_string hs, append_data, length_stringBytes, List.append_nil]
      exact hbs
    · apply (yields_readList fun type => ih type none).bind
      intro bs r hr
      apply yields_pure
      rw [List.append_nil]
      exact hr name
    · apply (yields_readCompound (fun type name => ih type (some name)) (depth+1)).bind
      intro bs entries hentries
      apply yields_pure
      rw [List.append_nil]
      exact accepted_compound hentries
    · apply yields_readIntArray.bind
      rintro bs data ⟨hlength, hbs⟩
      apply yields_pure
      refine ⟨rfl, rfl, .intArray name hlength, ?_⟩
      rw [dumpPayload_intArray hlength, append_data, List.length_append, ne2be_length,
        List.append_nil, length_flatMap_ne2be]
      exact hbs
    · exact yields_failure

end Accepted

end Stronk.Nbt
