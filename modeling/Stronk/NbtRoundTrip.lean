import Stronk.McprEncode
import Stronk.NbtFormat

/-! Trees of `lib/nbt` on their way through memory: what survives a dump and a parse, what a parse
accepts, and that it comes to an end. -/
namespace Stronk.Nbt
open ByteParser Stronk.Mcpr

variable {host host' : Endian}

section Depth
variable {n : ℕ}

theorem parseUnnamedTag_list (depth : ℕ) (name : Option CString) :
    parseUnnamedTag host (depth+1) 9 name =
      readList host (fun type => parseUnnamedTag host depth type none) >>= fun r =>
        pure (.list name (some r.1) r.2) := rfl

theorem parseUnnamedTag_compound (depth : ℕ) (name : Option CString) :
    parseUnnamedTag host (depth+1) 10 name =
      readCompound host (fun type name => parseUnnamedTag host depth type (some name)) (depth+1)
        >>= fun entries => pure (.compound name entries) := rfl

/-- Only lists and compounds have anything in them. -/
theorem parseUnnamedTag_leaf {type : UInt8} (hlist : type ≠ 9) (hcompound : type ≠ 10)
    (depth depth' : ℕ) (name : Option CString) :
    parseUnnamedTag host (depth+1) type name = parseUnnamedTag host (depth'+1) type name := by
  unfold parseUnnamedTag
  split <;> first | rfl | contradiction

theorem yields_readList_any (host : Endian) {p : UInt8 → Parser NbtNode}
    (hp : ∀ type, Yields (p type) fun _ _ => True) : Yields (readList host p) fun _ _ => True := by
  apply yields_byte.bind
  intro _ type _
  apply (yields_swappedMemscan 4).bind
  intro _ n _
  apply ((hp type).times _).bind
  exact fun _ entries _ => yields_pure trivial

theorem agree_readList (host : Endian) {p p' : UInt8 → Parser NbtNode} (h : ∀ type, Agree n (p type) (p' type))
    (hp : ∀ type, Yields (p type) fun _ _ => True) :
    Agree (n+1) (readList host p) (readList host p') := by
  apply (Agree.refl (n+1) byte).bind (k := 1)
  · apply yields_byte.mono
    rintro _ b rfl
    exact le_rfl
  intro type
  apply (Agree.refl n (swappedMemscan host 4)).bind (k := 0)
  · exact (yields_swappedMemscan 4).mono fun _ _ _ => Nat.zero_le _
  intro count
  apply ((h type).times (hp type) _).bind (k := 0)
  · exact ((hp type).times _).mono fun _ _ _ => Nat.zero_le _
  exact fun entries => Agree.refl _ _

theorem yields_readCompound_any (host : Endian) {p : UInt8 → CString → Parser NbtNode}
    (hp : ∀ type name, Yields (p type name) fun _ _ => True) (count : ℕ) :
    Yields (readCompound host p count) fun _ _ => True := by
  induction count with
  | zero => exact yields_failure
  | succ count ih =>
    rw [readCompound]
    apply yields_byte.bind
    intro _ type _
    split_ifs
    · exact yields_pure trivial
    apply yields_readString.bind
    intro _ name _
    apply (hp type name).bind
    intro _ entry _
    apply ih.bind
    exact fun _ entries _ => yields_pure trivial

theorem agree_readCompound (host : Endian) {p p' : UInt8 → CString → Parser NbtNode}
    (h : ∀ type name, Agree n (p type name) (p' type name))
    (hp : ∀ type name, Yields (p type name) fun _ _ => True) {m count count' : ℕ} (hm : m ≤ n+1)
    (hcount : m ≤ count) (hcount' : m ≤ count') :
    Agree m (readCompound host p count) (readCompound host p' count') := by
  induction m generalizing count count' with
  | zero => exact fun bs hbs => absurd hbs (Nat.not_lt_zero _)
  | succ m ih =>
    obtain ⟨count, rfl⟩ := Nat.exists_eq_add_of_le' (Nat.le_of_add_left_le hcount)
    obtain ⟨count', rfl⟩ := Nat.exists_eq_add_of_le' (Nat.le_of_add_left_le hcount')
    rw [readCompound, readCompound]
    apply (Agree.refl (m+1) byte).bind (k := 1)
    · apply yields_byte.mono
      rintro _ b rfl
      exact le_rfl
    intro type
    split_ifs with hend
    · exact Agree.refl _ _
    apply (Agree.refl m (readString host)).bind (k := 0)
    · exact yields_readString.mono fun _ _ _ => Nat.zero_le _
    intro name
    apply ((h type name).mono (Nat.le_of_succ_le_succ hm)).bind (k := 0)
    · exact (hp type name).mono fun _ _ _ => Nat.zero_le _
    intro entry
    have hrest := ih (Nat.le_of_succ_le hm) (Nat.le_of_succ_le_succ hcount)
      (Nat.le_of_succ_le_succ hcount')
    apply hrest.bind (k := 0)
    · exact (yields_readCompound_any host hp count).mono fun _ _ _ => Nat.zero_le _
    exact fun entries => Agree.refl _ _

theorem yields_parse_any (host : Endian) (depth : ℕ) (type : UInt8) (name : Option CString) :
    Yields (parseUnnamedTag host depth type name) fun _ _ => True :=
  (yields_parse host host depth type name).mono fun _ _ _ => trivial

/-- A depth that is larger than the input makes no difference. -/
theorem agree_parse {depth depth' : ℕ} (hdepth : n ≤ depth) (hdepth' : n ≤ depth') (type : UInt8)
    (name : Option CString) :
    Agree n (parseUnnamedTag host depth type name) (parseUnnamedTag host depth' type name) := by
  induction n generalizing depth depth' type name with
  | zero => exact fun bs hbs => absurd hbs (Nat.not_lt_zero _)
  | succ n ih =>
    obtain ⟨depth, rfl⟩ := Nat.exists_eq_add_of_le' (Nat.le_of_add_left_le hdepth)
    obtain ⟨depth', rfl⟩ := Nat.exists_eq_add_of_le' (Nat.le_of_add_left_le hdepth')
    have hinner (type : UInt8) (name : Option CString) :=
      ih (Nat.le_of_succ_le_succ hdepth) (Nat.le_of_succ_le_succ hdepth') type name
    by_cases hlist : type = 9
    · subst hlist
      rw [parseUnnamedTag_list, parseUnnamedTag_list]
      have hany (type : UInt8) := yields_parse_any host depth type none
      have hagree := agree_readList host (fun type => hinner type none) hany
      apply hagree.bind (k := 0)
      · exact (yields_readList_any host hany).mono fun _ _ _ => Nat.zero_le _
      exact fun r => Agree.refl _ _
    by_cases hcompound : type = 10
    · subst hcompound
      rw [parseUnnamedTag_compound, parseUnnamedTag_compound]
      have hany (type : UInt8) (name : CString) := yields_parse_any host depth type (some name)
      have hagree := agree_readCompound host (fun type name => hinner type (some name)) hany le_rfl
        hdepth hdepth'
      apply hagree.bind (k := 0)
      · exact (yields_readCompound_any host hany _).mono fun _ _ _ => Nat.zero_le _
      exact fun entries => Agree.refl _ _
    rw [parseUnnamedTag_leaf hlist hcompound depth depth']
    exact Agree.refl _ _

theorem agree_parseNamedTag (host : Endian) {depth depth' : ℕ} (hdepth : n ≤ depth)
    (hdepth' : n ≤ depth') : Agree n (parseNamedTag host depth) (parseNamedTag host depth') := by
  apply (Agree.refl n byte).bind (k := 0)
  · exact yields_byte.mono fun _ _ _ => Nat.zero_le _
  intro type
  apply (Agree.refl n (readString host)).bind (k := 0)
  · exact yields_readString.mono fun _ _ _ => Nat.zero_le _
  intro name
  exact agree_parse hdepth hdepth' type (some name)

theorem nbtParse_eq (host : Endian) {memory : List UInt8} {depth : ℕ}
    (hdepth : memory.length < depth) :
    nbtParse host memory = ((parseNamedTag host depth).run memory).map Prod.fst := by
  have hagree := agree_parseNamedTag host (le_refl (memory.length+1)) hdepth
  rw [nbtParse, hagree memory (Nat.lt_succ_self _)]

end Depth

section Front

theorem local_swappedMemscan (host : Endian) (n : ℕ) : Local (swappedMemscan host n) :=
  (local_bytes n).bind fun _ => local_pure _

theorem local_readString (host : Endian) : Local (readString host) :=
  (local_swappedMemscan host 2).bind fun _ =>
    local_failure.ite ((local_bytes _).bind fun _ => local_pure _)

theorem local_readByteArray (host : Endian) : Local (readByteArray host) :=
  (local_swappedMemscan host 4).bind fun _ => local_failure.ite (local_bytes _)

theorem local_readIntArray (host : Endian) : Local (readIntArray host) :=
  (local_swappedMemscan host 4).bind fun _ =>
    local_failure.ite (((local_swappedMemscan host 4).times _).bind fun _ => local_pure _)

theorem local_readList (host : Endian) {p : UInt8 → Parser NbtNode} (hp : ∀ type, Local (p type)) :
    Local (readList host p) :=
  local_byte.bind fun type => (local_swappedMemscan host 4).bind fun _ =>
    ((hp type).times _).bind fun _ => local_pure _

theorem local_readCompound (host : Endian) {p : UInt8 → CString → Parser NbtNode}
    (hp : ∀ type name, Local (p type name)) (count : ℕ) : Local (readCompound host p count) := by
  induction count with
  | zero => exact local_failure
  | succ count ih =>
    rw [readCompound]
    apply local_byte.bind
    intro type
    apply (local_pure []).ite
    apply (local_readString host).bind
    intro name
    apply (hp type name).bind
    intro entry
    exact ih.bind fun entries => local_pure _

theorem local_parse (host : Endian) (depth : ℕ) (type : UInt8) (name : Option CString) :
    Local (parseUnnamedTag host depth type name) := by
  induction depth generalizing type name with
  | zero => exact local_failure
  | succ depth ih =>
    by_cases hlist : type = 9
    · subst hlist
      rw [parseUnnamedTag_list]
      exact (local_readList host fun type => ih type none).bind fun r => local_pure _
    by_cases hcompound : type = 10
    · subst hcompound
      rw [parseUnnamedTag_compound]
      exact (local_readCompound host (fun type name => ih type (some name)) _).bind
        fun entries => local_pure _
    unfold parseUnnamedTag
    split
    case h_7 => exact (local_readByteArray host).bind fun _ => local_pure _
    case h_8 => exact (local_readString host).bind fun _ => local_pure _
    case h_9 => contradiction
    case h_10 => contradiction
    case h_11 => exact (local_readIntArray host).bind fun _ => local_pure _
    case h_12 => exact local_failure
    all_goals exact (local_swappedMemscan host _).bind fun _ => local_pure _

theorem local_parseNamedTag (host : Endian) (depth : ℕ) : Local (parseNamedTag host depth) :=
  local_byte.bind fun type => (local_readString host).bind fun name =>
    local_parse host depth type (some name)

end Front

section Results

theorem dump_root (host : Endian) {tree : NbtNode} {s : CString} (hname : tree.name = some s)
    (hs : s.Short) (h : WellFormed tree) :
    nbtDumpBinary host tree =
      append ([tree.type] ++ (stringBytes host s ++ (dumpPayload host tree).data)) :=
  dumpBinary_named hname hs (h.dumped host)

/-- The tree that a dump wrote is parsed, whatever follows it in memory. -/
theorem WellFormedRoot.parse_dump {tree : NbtNode} (h : WellFormedRoot tree) (rest : List UInt8) :
    nbtParse host' ((nbtDumpBinary host tree).data ++ rest) = some tree := by
  obtain ⟨s, hname, hs⟩ := h.named
  have hdump := dump_root host hname hs h.inner
  set memory := (nbtDumpBinary host tree).data ++ rest with hmemory
  have hpayload : Reads (parseUnnamedTag host' (memory.length+1) tree.type (some s))
      (dumpPayload host tree).data tree := by
    rw [← hname]
    apply h.inner.survives.reads
    rw [hmemory, hdump, append_data]
    simp only [List.length_append]
    omega
  have hread : Reads (parseNamedTag host' (memory.length+1)) (nbtDumpBinary host tree).data tree := by
    rw [hdump, append_data]
    exact (reads_byte _).bind ((reads_readString host' host hs).bind hpayload)
  rw [nbtParse, hmemory, ← hmemory, hread rest]
  rfl

/-- What is parsed keeps to the format, and its dump is not longer than what it was parsed from. -/
theorem nbtParse_wellFormed (host : Endian) {memory : List UInt8} {tree : NbtNode}
    (h : nbtParse host' memory = some tree) :
    WellFormedRoot tree ∧ (nbtDumpBinary host tree).data.length ≤ memory.length := by
  rw [nbtParse, Option.map_eq_some_iff] at h
  obtain ⟨⟨_, rest⟩, hrun, rfl⟩ := h
  have hyields : Yields (parseNamedTag host' (memory.length+1)) fun bs tree =>
      WellFormedRoot tree ∧ (nbtDumpBinary host tree).data.length ≤ bs.length := by
    apply yields_byte.bind
    rintro _ type rfl
    apply yields_readString.bind
    rintro first s ⟨hs, hfirst⟩
    apply (yields_parse host host' _ type (some s)).mono
    intro more tree htree
    refine ⟨⟨⟨s, htree.name, hs⟩, htree.inner⟩, ?_⟩
    have hlength := htree.length
    rw [dump_root host htree.name hs htree.inner, append_data]
    simp only [List.length_append, List.length_singleton, length_stringBytes]
    omega
  obtain ⟨taken, htaken, hroot, hlength⟩ := hyields memory _ rest hrun
  refine ⟨hroot, hlength.trans ?_⟩
  rw [htaken, List.length_append]
  exact Nat.le_add_right _ _

/-- What follows the bytes that were taken off makes no difference. -/
theorem exists_front {memory : List UInt8} {tree : NbtNode} (h : nbtParse host memory = some tree) :
    ∃ taken rest, memory = taken ++ rest ∧ ∀ other, nbtParse host (taken ++ other) = some tree := by
  have hrun := h
  rw [nbtParse, Option.map_eq_some_iff] at hrun
  obtain ⟨⟨_, rest⟩, hrun, rfl⟩ := hrun
  obtain ⟨taken, htaken, -⟩ := local_parseNamedTag host (memory.length+1) memory _ rest hrun
  refine ⟨taken, rest, htaken, fun other => ?_⟩
  -- one depth that is enough for both inputs
  set depth := memory.length+1+other.length with hdepth
  have hlength : (taken ++ other).length < depth := by
    rw [hdepth, htaken, List.length_append, List.length_append]
    omega
  have hagree := agree_parseNamedTag host (le_refl (memory.length+1))
    (Nat.le_add_right (memory.length+1) other.length)
  rw [hagree memory (Nat.lt_succ_self _)] at hrun
  obtain ⟨taken', htaken', hreads⟩ := local_parseNamedTag host depth memory _ rest hrun
  have hsame : taken' = taken := List.append_cancel_right (htaken'.symm.trans htaken)
  rw [nbtParse_eq host hlength, ← hsame, hreads other]
  rfl

/-- A tree keeps to the format exactly where a dump and a parse give it back: the dump succeeds, and
what it writes is parsed to the same tree, on a machine of either byte order and whatever follows
in memory. -/
theorem nbt_survives_iff (host host' : Endian) (tree : NbtNode) :
    WellFormedRoot tree ↔ (nbtDumpBinary host tree).status = .ok ∧
      ∀ rest, nbtParse host' ((nbtDumpBinary host tree).data ++ rest) = some tree := by
  constructor
  · intro h
    obtain ⟨s, hname, hs⟩ := h.named
    refine ⟨?_, h.parse_dump⟩
    rw [dump_root host hname hs h.inner, append_status]
  · rintro ⟨-, hparse⟩
    exact (nbtParse_wellFormed host (hparse [])).1

/-- Whatever bytes `nbt_parse` accepts, the tree keeps to the format: it can be dumped, into no more
bytes than it was parsed from, and the dump is parsed to the same tree. The tree depends only on
bytes at the front of the memory. -/
theorem nbt_parse_canonical (host host' : Endian) (memory : List UInt8) (tree : NbtNode)
    (h : nbtParse host memory = some tree) :
    WellFormedRoot tree ∧ (nbtDumpBinary host' tree).status = .ok ∧
    (nbtDumpBinary host' tree).data.length ≤ memory.length ∧
    nbtParse host (nbtDumpBinary host' tree).data = some tree ∧
    ∃ taken rest, memory = taken ++ rest ∧ ∀ other, nbtParse host (taken ++ other) = some tree := by
  obtain ⟨hroot, hlength⟩ := nbtParse_wellFormed host' h
  have hdump := ((nbt_survives_iff host' host tree).mp hroot)
  have hself := hdump.2 []
  rw [List.append_nil] at hself
  refine ⟨hroot, hdump.1, hlength, hself, ?_⟩
  exact exists_front h

/-- A list with a negative number of entries of no type, in front of another byte: its dump is that of
an empty list of compounds. -/
theorem negative_list_canonical :
    ∃ tree, nbtParse .little [10, 0, 1, 97, 9, 0, 1, 98, 0, 255, 255, 255, 255, 0, 99] = some tree ∧
      (nbtDumpBinary .big tree).data = [10, 0, 1, 97, 9, 0, 1, 98, 10, 0, 0, 0, 0, 0] ∧
      nbtParse .little (nbtDumpBinary .big tree).data = some tree := by
  let tree := NbtNode.compound (some ⟨[97], by decide⟩) [.list (some ⟨[98], by decide⟩) (some 10) []]
  have hparse : nbtParse .little [10, 0, 1, 97, 9, 0, 1, 98, 0, 255, 255, 255, 255, 0, 99] =
      some tree := rfl
  obtain ⟨-, -, -, hself, -⟩ := nbt_parse_canonical .little .big _ tree hparse
  exact ⟨tree, hparse, rfl, hself⟩

end Results

section BlockEntities

/-- The trees that addresses lead to, each small enough to be dumped. -/
structure NbtTrees (host : Endian) where
  tree : Mcpr.NbtNode → NbtNode
  fits : ∀ node, (nbtDumpBinary host (tree node)).data.length ≤ ptrdiffMax

/-- The encoder of packets, with the dump of these trees. -/
def dumping (env : EncodeEnv) (trees : NbtTrees env.host) : EncodeEnv :=
  { env with
    nbtDumpBinary := fun node =>
      ⟨(nbtDumpBinary env.host (trees.tree node)).data, trees.fits node⟩ }

/-- The block entities that are written into a Chunk Data packet are parsed to the tree that it
points to. -/
theorem block_entities_parsed (host' : Endian) (env : EncodeEnv) (trees : NbtTrees env.host)
    (c : ChunkData) (node : Mcpr.NbtNode) (hnode : c.blockEntities = some node)
    (hroot : WellFormedRoot (trees.tree node)) (rest : List UInt8) :
    nbtParse host' (rawBlockEntities (dumping env trees) c ++ rest) = some (trees.tree node) := by
  rw [rawBlockEntities, hnode]
  exact hroot.parse_dump rest

end BlockEntities

end Stronk.Nbt
