import Stronk.ParserRules
import Stronk.FixedWidth

/-! The trees of `lib/nbt`, how they are dumped into memory and how they are parsed
(`nbt/nbt_parsing.c`). -/
namespace Stronk.Nbt
open ByteParser Stronk.Mcpr

section Tree

/-- A C string: the characters before the terminator. -/
structure CString where
  chars : List UInt8
  terminated : 0 ∉ chars
  deriving DecidableEq, Repr

/-- The string in a buffer that a terminator has been put behind. -/
def CString.ofBuffer (buffer : List UInt8) : CString where
  chars := buffer.takeWhile (· ≠ 0)
  terminated h := by simpa using List.mem_takeWhile_imp h

/-- The payloads of a fixed size; a `float` and a `double` are their bits. -/
inductive NbtNumber
  | tagByte (v : BitVec 8)
  | tagShort (v : BitVec 16)
  | tagInt (v : BitVec 32)
  | tagLong (v : BitVec 64)
  | tagFloat (bits : BitVec 32)
  | tagDouble (bits : BitVec 64)
  deriving DecidableEq, Repr

/-- `struct nbt_node`: a name that may be `NULL`, and the payload of one of the types. The sentinel
of a list has a type of its own, or is `NULL`; that of a compound is not used. -/
inductive NbtNode
  | number (name : Option CString) (n : NbtNumber)
  | byteArray (name : Option CString) (data : List UInt8)
  | string (name : Option CString) (s : CString)
  | list (name : Option CString) (sentinel : Option UInt8) (entries : List NbtNode)
  | compound (name : Option CString) (entries : List NbtNode)
  | intArray (name : Option CString) (data : List (BitVec 32))

/-- `TAG_INVALID`, which is also the end of a compound. -/
def tagInvalid : UInt8 := 0

def tagCompound : UInt8 := 10

def NbtNumber.type : NbtNumber → UInt8
  | .tagByte _ => 1
  | .tagShort _ => 2
  | .tagInt _ => 3
  | .tagLong _ => 4
  | .tagFloat _ => 5
  | .tagDouble _ => 6

def NbtNode.type : NbtNode → UInt8
  | .number _ n => n.type
  | .byteArray _ _ => 7
  | .string _ _ => 8
  | .list _ _ _ => 9
  | .compound _ _ => tagCompound
  | .intArray _ _ => 11

def NbtNode.name : NbtNode → Option CString
  | .number name _ => name
  | .byteArray name _ => name
  | .string name _ => name
  | .list name _ _ => name
  | .compound name _ => name
  | .intArray name _ => name

def NbtNumber.size : NbtNumber → ℕ
  | .tagByte _ => 1
  | .tagShort _ => 2
  | .tagInt _ => 4
  | .tagLong _ => 8
  | .tagFloat _ => 4
  | .tagDouble _ => 8

def NbtNumber.value : NbtNumber → ℕ
  | .tagByte v => v.toNat
  | .tagShort v => v.toNat
  | .tagInt v => v.toNat
  | .tagLong v => v.toNat
  | .tagFloat bits => bits.toNat
  | .tagDouble bits => bits.toNat

/-- Big endian to native endian, and back. -/
def be2ne (host : Endian) (s : List UInt8) : List UInt8 :=
  match host with
  | .little => s.reverse
  | .big => s

end Tree

section Dump

/-- How a dump ends: with `NBT_OK`, with `NBT_ERR`, or at an `assert`. -/
inductive NbtStatus
  | ok
  | err
  | assertion
  deriving DecidableEq, Repr

/-- How a dump ends, and what is in the buffer then. -/
structure Dumped where
  status : NbtStatus
  data : List UInt8
  deriving DecidableEq, Repr

/-- `buffer_append`. -/
def append (bs : List UInt8) : Dumped := ⟨.ok, bs⟩

/-- What comes after a part is dumped only if the part was. -/
def Dumped.then (a b : Dumped) : Dumped :=
  match a.status with
  | .ok => ⟨b.status, a.data ++ b.data⟩
  | _ => a

/-- The object representation of an `n`-byte integer, in big endian. -/
def ne2be (host : Endian) (n v : ℕ) : List UInt8 := be2ne host (hostBytes host n v)

def dumpNum (host : Endian) (n : NbtNumber) : Dumped := append (ne2be host n.size n.value)

def dumpByteArrayBinary (host : Endian) (data : List UInt8) : Dumped :=
  (append (ne2be host 4 (BitVec.ofNat 32 data.length).toNat)).then (append data)

def dumpIntArrayBinary (host : Endian) (data : List (BitVec 32)) : Dumped :=
  (append (ne2be host 4 (BitVec.ofNat 32 data.length).toNat)).then
    (append (data.flatMap fun elem => ne2be host 4 elem.toNat))

def dumpStringBinary (host : Endian) (s : CString) : Dumped :=
  if s.chars.length > 32767 then ⟨.err, []⟩
  else (append (ne2be host 2 s.chars.length)).then (append s.chars)

/-- The loop of `list_is_homogenous` over the types of the entries; `none` is an early return. -/
def homogenousLoop : UInt8 → List UInt8 → Option UInt8
  | type, [] => some type
  | type, cur :: rest =>
    let type := if type = tagInvalid then cur else type
    if type ≠ cur then none else homogenousLoop type rest

def listIsHomogenous (sentinel : Option UInt8) (types : List UInt8) : UInt8 :=
  match homogenousLoop tagInvalid types with
  | none => tagInvalid
  | some type => if type = tagInvalid then sentinel.getD tagInvalid else type

/-- The type and the name of a node. -/
def dumpHead (host : Endian) (dumpType : Bool) (tree : NbtNode) : Dumped :=
  (if dumpType then append [tree.type] else append []).then
    (match tree.name with
      | some name => dumpStringBinary host name
      | none => append [])

mutual

/-- The chain of `__dump_binary` over the types. -/
def dumpPayload (host : Endian) : NbtNode → Dumped
  | .number _ n => dumpNum host n
  | .byteArray _ data => dumpByteArrayBinary host data
  | .string _ s => dumpStringBinary host s
  | .list _ sentinel entries =>
    let type := listIsHomogenous sentinel (entries.map NbtNode.type)
    if entries.length > 2147483647 then ⟨.err, []⟩
    else if type = tagInvalid then ⟨.assertion, []⟩
    else (append [type]).then ((append (ne2be host 4 entries.length)).then
      (dumpEntries host false entries))
  | .compound _ entries => (dumpEntries host true entries).then (append [0])
  | .intArray _ data => dumpIntArrayBinary host data

/-- The loops of `dump_list_binary` and `dump_compound_binary`. -/
def dumpEntries (host : Endian) (dumpType : Bool) : List NbtNode → Dumped
  | [] => append []
  | entry :: entries =>
    ((dumpHead host dumpType entry).then (dumpPayload host entry)).then
      (dumpEntries host dumpType entries)

end

/-- `__dump_binary` -/
def dumpBinary (host : Endian) (dumpType : Bool) (tree : NbtNode) : Dumped :=
  (dumpHead host dumpType tree).then (dumpPayload host tree)

/-- The buffer is returned also where `errno` says that the dump has failed. -/
def nbtDumpBinary (host : Endian) (tree : NbtNode) : Dumped := dumpBinary host true tree

end Dump

section Parse

/-- An `n`-byte integer; where it fails, `errno` is set for good and the whole parse fails. -/
def swappedMemscan (host : Endian) (n : ℕ) : Parser ℕ := do
  let bs ← bytes n
  return hostValue host (be2ne host bs)

def readString (host : Endian) : Parser CString := do
  let n ← swappedMemscan host 2
  let stringLength := (BitVec.ofNat 16 n).toInt
  if stringLength < 0 then failure
  else do
    let buffer ← bytes stringLength.toNat
    return CString.ofBuffer buffer

def readByteArray (host : Endian) : Parser (List UInt8) := do
  let n ← swappedMemscan host 4
  let length := (BitVec.ofNat 32 n).toInt
  if length < 0 then failure else bytes length.toNat

/-- The elements are read in one piece and swapped one by one. -/
def readIntArray (host : Endian) : Parser (List (BitVec 32)) := do
  let n ← swappedMemscan host 4
  let length := (BitVec.ofNat 32 n).toInt
  if length < 0 then failure
  else do
    let elems ← times (swappedMemscan host 4) length.toNat
    return elems.map (BitVec.ofNat 32)

/-- The type of the sentinel and the entries; `p` is `parse_unnamed_tag` without a name. A negative
number of entries is none. -/
def readList (host : Endian) (p : UInt8 → Parser NbtNode) : Parser (UInt8 × List NbtNode) := do
  let type ← byte
  let n ← swappedMemscan host 4
  let elems := (BitVec.ofNat 32 n).toInt
  let entries ← times (p type) elems.toNat
  return (if type = tagInvalid then tagCompound else type, entries)

/-- The loop of `read_compound`. The counter is at least the number of bytes that are left. -/
def readCompound (host : Endian) (p : UInt8 → CString → Parser NbtNode) :
    ℕ → Parser (List NbtNode)
  | 0 => failure
  | count+1 => do
    let type ← byte
    if type = tagInvalid then return []
    else do
      let name ← readString host
      let entry ← p type name
      let entries ← readCompound host p count
      return entry :: entries

/-- The depth is more than the number of bytes that are left. -/
def parseUnnamedTag (host : Endian) : ℕ → UInt8 → Option CString → Parser NbtNode
  | 0, _, _ => failure
  | depth+1, type, name =>
    match type with
    | 1 => do return .number name (.tagByte (BitVec.ofNat 8 (← swappedMemscan host 1)))
    | 2 => do return .number name (.tagShort (BitVec.ofNat 16 (← swappedMemscan host 2)))
    | 3 => do return .number name (.tagInt (BitVec.ofNat 32 (← swappedMemscan host 4)))
    | 4 => do return .number name (.tagLong (BitVec.ofNat 64 (← swappedMemscan host 8)))
    | 5 => do return .number name (.tagFloat (BitVec.ofNat 32 (← swappedMemscan host 4)))
    | 6 => do return .number name (.tagDouble (BitVec.ofNat 64 (← swappedMemscan host 8)))
    | 7 => do return .byteArray name (← readByteArray host)
    | 8 => do return .string name (← readString host)
    | 9 => do
      let (type, entries) ← readList host fun type => parseUnnamedTag host depth type none
      return .list name (some type) entries
    | 10 => do
      let entries ← readCompound host (fun type name => parseUnnamedTag host depth type (some name))
        (depth+1)
      return .compound name entries
    | 11 => do return .intArray name (← readIntArray host)
    | _ => failure

def parseNamedTag (host : Endian) (depth : ℕ) : Parser NbtNode := do
  let type ← byte
  let name ← readString host
  parseUnnamedTag host depth type (some name)

/-- What follows the tree in the memory is not looked at. -/
def nbtParse (host : Endian) (memory : List UInt8) : Option NbtNode :=
  ((parseNamedTag host (memory.length+1)).run memory).map Prod.fst

end Parse

end Stronk.Nbt
