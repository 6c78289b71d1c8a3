import Stronk.JsonMembers
import Stronk.NinUuid

/-! The answer of the session server (`mapi_minecraft_has_joined_response_from_json`): three strings
in one block behind the structure that points to them. -/
namespace Stronk.Mapi
open JsonText Mcpr ByteMemory Uuid

section Model

/-- The block of a response; pointers into it are distances from its start. The structure itself takes
the first `sizeofHasJoinedResponse` bytes and `writes` is what was copied behind it. -/
structure MapiMinecraftHasJoinedResponse where
  size : ℕ
  mem : Mem
  writes : List (ℕ × List UInt8)
  id : Ninuuid
  playerName : ℕ
  skinBlobBase64 : ℕ
  signature : ℕ

def sizeofHasJoinedResponse : ℕ := 40

def ninuuidStringSizeCompressed : ℕ := 32

/-- The search for the textures, with the value and the signature that it stops at. -/
def findTextures : List Json → Option (List UInt8 × List UInt8)
  | [] => none
  | entry :: rest => do
    let entryName ← stringMember entry (ascii "name")
    if entryName = ascii "textures" then do
      let value ← stringMember entry (ascii "value")
      let signature ← stringMember entry (ascii "signature")
      some (value, signature)
    else findTextures rest

/-- `malloc` gives what is in the block, if it has one of the size; `id` is what is in the field. -/
def mapiMinecraftHasJoinedResponseFromJson (malloc : ℕ → Option Mem) (uninit : Ninuuid) (json : Json) :
    Option MapiMinecraftHasJoinedResponse := do
  let id ← stringMember json (ascii "id")
  if id.length < ninuuidStringSizeCompressed then none
  else do
    let name ← stringMember json (ascii "name")
    let properties ← jsonObjectGet json (ascii "properties")
    let (value, signature) ← findTextures (jsonArray properties)
    let size := sizeofHasJoinedResponse+(value.length+1)+(signature.length+1)+(name.length+1)
    let resp ← malloc size
    -- each string begins where the terminator of the one before it belongs
    let valueBuf := sizeofHasJoinedResponse
    let signatureBuf := valueBuf+value.length
    let nameBuf := signatureBuf+signature.length
    let writes :=
      [(valueBuf, value ++ [0]), (signatureBuf, signature ++ [0]), (nameBuf, name ++ [0])]
    let parsed := ninuuidFromString uninit id
    if parsed.2 then
      some {
        size
        mem := writes.foldl (fun m w => write m w.1 w.2) resp
        writes
        id := parsed.1
        playerName := nameBuf
        skinBlobBase64 := valueBuf
        signature := signatureBuf }
    else none

end Model

section Property

/-- The first property by the name of textures. -/
def firstTextures (json : Json) : Option Json :=
  (jsonObjectGet json (ascii "properties")).bind fun properties =>
    (jsonArray properties).find? fun entry => stringMember entry (ascii "name") = some (ascii "textures")

namespace MapiMinecraftHasJoinedResponse

/-- The C string at a pointer into the block. -/
def Reads (r : MapiMinecraftHasJoinedResponse) (pointer : ℕ) (text : List UInt8) : Prop :=
  ReadsAs (read (shift r.mem pointer) (r.size-pointer)) text

/-- The strings of a response are those of the JSON, and no byte is written outside of its block. -/
structure FieldsRight (r : MapiMinecraftHasJoinedResponse) (json : Json) : Prop where
  name : ∃ name, stringMember json (ascii "name") = some name ∧ r.Reads r.playerName name
  value : ∃ entry value, firstTextures json = some entry ∧
    stringMember entry (ascii "value") = some value ∧ r.Reads r.skinBlobBase64 value
  signature : ∃ entry signature, firstTextures json = some entry ∧
    stringMember entry (ascii "signature") = some signature ∧ r.Reads r.signature signature
  inside : ∀ w ∈ r.writes, sizeofHasJoinedResponse ≤ w.1 ∧ w.1+w.2.length ≤ r.size

end MapiMinecraftHasJoinedResponse

end Property

section Search

theorem findTextures_find {entries : List Json} {value signature : List UInt8}
    (h : findTextures entries = some (value, signature)) :
    ∃ entry, (entries.find? fun entry =>
        stringMember entry (ascii "name") = some (ascii "textures")) = some entry ∧
      stringMember entry (ascii "value") = some value ∧
      stringMember entry (ascii "signature") = some signature := by
  induction entries with
  | nil => cases h
  | cons entry rest ih =>
    rw [findTextures] at h
    obtain ⟨entryName, hname, h⟩ := Option.bind_eq_some_iff.mp h
    split_ifs at h with htextures
    · obtain ⟨value', hvalue, h⟩ := Option.bind_eq_some_iff.mp h
      obtain ⟨signature', hsignature, h⟩ := Option.bind_eq_some_iff.mp h
      cases h
      refine ⟨entry, ?_, hvalue, hsignature⟩
      rw [List.find?_cons_of_pos]
      rw [hname, htextures]
      exact decide_eq_true rfl
    · obtain ⟨found, hfound, htexts⟩ := ih h
      refine ⟨found, ?_, htexts⟩
      rw [List.find?_cons_of_neg, hfound]
      rw [hname, decide_eq_true_eq]
      exact fun he => htextures (Option.some.inj he)

end Search

section Block

/-- Each string is copied over the terminator of the one before it. -/
theorem writes_run_together (m : Mem) (base : ℕ) (value signature name : List UInt8) :
    write (write (write m base (value ++ [0])) (base+value.length) (signature ++ [0]))
        (base+value.length+signature.length) (name ++ [0]) =
      write m base (value ++ signature ++ name ++ [0]) := by
  -- a copy takes away the last byte of the one before it
  have hover (before : Mem) (off : ℕ) (as bs : List UInt8) (h : 1 ≤ bs.length) :
      write (write before off (as ++ [0])) (off+as.length) bs = write before off (as ++ bs) := by
    rw [write_append, write_write _ _ (by simpa using h), write_append]
  calc write (write (write m base (value ++ [0])) (base+value.length) (signature ++ [0]))
        (base+value.length+signature.length) (name ++ [0])
      = write (write m base (value ++ [0])) (base+value.length) (signature ++ (name ++ [0])) :=
        hover _ _ _ _ (by simp)
    _ = write m base (value ++ (signature ++ (name ++ [0]))) := hover _ _ _ _ (by simp; omega)
    _ = write m base (value ++ signature ++ name ++ [0]) := by
        rw [List.append_assoc, List.append_assoc]

theorem reads_of_write {m : Mem} {base size : ℕ} {before text : List UInt8} (hnul : 0 ∉ text)
    (hsize : base+before.length+text.length+1 ≤ size) :
    ReadsAs (read (shift (write m base (before ++ text ++ [0])) (base+before.length))
      (size-(base+before.length))) text := by
  obtain ⟨rest, hrest⟩ := Nat.exists_eq_add_of_le
    (show (text ++ [0]).length ≤ size-(base+before.length) by
      rw [List.length_append, List.length_singleton]
      omega)
  have hread : read (shift (write m base (before ++ text ++ [0])) (base+before.length))
      (text ++ [0]).length = text ++ [0] := by
    rw [List.append_assoc, write_append, read_write_same]
  refine ⟨hnul, ?_⟩
  rw [hrest, read_add, hread, List.append_assoc]
  exact ⟨_, rfl⟩

end Block

section Response

variable {malloc : ℕ → Option Mem} {uninit : Ninuuid} {json : Json}
  {r : MapiMinecraftHasJoinedResponse}

/-- What an accepted answer is made of and how it is laid out. -/
structure LaidOut (json : Json) (r : MapiMinecraftHasJoinedResponse)
    (name value signature : List UInt8) : Prop where
  names : stringMember json (ascii "name") = some name
  textures : ∃ entry, firstTextures json = some entry ∧
    stringMember entry (ascii "value") = some value ∧
    stringMember entry (ascii "signature") = some signature
  size : r.size = sizeofHasJoinedResponse+(value.length+1)+(signature.length+1)+(name.length+1)
  mem : ∃ resp, r.mem = write resp sizeofHasJoinedResponse (value ++ signature ++ name ++ [0])
  writes : r.writes = [(r.skinBlobBase64, value ++ [0]), (r.signature, signature ++ [0]),
    (r.playerName, name ++ [0])]
  valueBuf : r.skinBlobBase64 = sizeofHasJoinedResponse
  signatureBuf : r.signature = sizeofHasJoinedResponse+value.length
  nameBuf : r.playerName = sizeofHasJoinedResponse+value.length+signature.length

theorem laidOut_of_accepted
    (h : mapiMinecraftHasJoinedResponseFromJson malloc uninit json = some r) :
    ∃ name value signature, LaidOut json r name value signature := by
  unfold mapiMinecraftHasJoinedResponseFromJson at h
  obtain ⟨id, -, h⟩ := Option.bind_eq_some_iff.mp h
  split_ifs at h with hshort
  obtain ⟨name, hname, h⟩ := Option.bind_eq_some_iff.mp h
  obtain ⟨properties, hproperties, h⟩ := Option.bind_eq_some_iff.mp h
  obtain ⟨⟨value, signature⟩, htextures, h⟩ := Option.bind_eq_some_iff.mp h
  obtain ⟨resp, -, h⟩ := Option.bind_eq_some_iff.mp h
  dsimp only at h
  split_ifs at h with hparsed
  cases h
  refine ⟨name, value, signature, hname, ?_, rfl, ⟨resp, ?_⟩, rfl, rfl, rfl, rfl⟩
  · rw [firstTextures, hproperties]
    exact findTextures_find htextures
  · exact writes_run_together resp sizeofHasJoinedResponse value signature name

/-- The name can be read alone, but the value and the signature run into what comes behind them. -/
theorem LaidOut.reads {name value signature : List UInt8} (h : LaidOut json r name value signature) :
    r.Reads r.playerName name ∧ r.Reads r.signature (signature ++ name) ∧
      r.Reads r.skinBlobBase64 (value ++ signature ++ name) := by
  obtain ⟨entry, -, hvalue, hsignature⟩ := h.textures
  have hname0 := stringMember_nulFree h.names
  have hvalue0 := stringMember_nulFree hvalue
  have hsignature0 := stringMember_nulFree hsignature
  obtain ⟨resp, hmem⟩ := h.mem
  -- what is read is what the whole text still has from the pointer on
  have hfrom (before text : List UInt8) (hnul : 0 ∉ text)
      (hsplit : value ++ signature ++ name = before ++ text) :
      r.Reads (sizeofHasJoinedResponse+before.length) text := by
    have hlength := congrArg List.length hsplit
    simp only [List.length_append] at hlength
    rw [MapiMinecraftHasJoinedResponse.Reads, hmem, hsplit, h.size]
    apply reads_of_write hnul
    omega
  refine ⟨?_, ?_, ?_⟩
  · rw [h.nameBuf, Nat.add_assoc, ← List.length_append]
    exact hfrom (value ++ signature) name hname0 rfl
  · rw [h.signatureBuf]
    exact hfrom value (signature ++ name) (by simp [hsignature0, hname0]) (by simp)
  · rw [h.valueBuf]
    exact hfrom [] (value ++ signature ++ name) (by simp [hvalue0, hsignature0, hname0]) (by simp)

/-- The block is larger than what is written to it, by the terminators that are lost. -/
theorem LaidOut.inside {name value signature : List UInt8} (h : LaidOut json r name value signature) :
    ∀ w ∈ r.writes, sizeofHasJoinedResponse ≤ w.1 ∧ w.1+w.2.length ≤ r.size := by
  intro w hw
  rw [h.writes, h.valueBuf, h.signatureBuf, h.nameBuf] at hw
  simp only [List.mem_cons, List.not_mem_nil, or_false] at hw
  rw [h.size]
  rcases hw with rfl | rfl | rfl
  · simp only [List.length_append, List.length_singleton]
    omega
  · simp only [List.length_append, List.length_singleton]
    omega
  · simp only [List.length_append, List.length_singleton]
    omega

/-- The strings of a response are right only if all that is behind the value is empty. -/
theorem LaidOut.right_iff {name value signature : List UInt8}
    (h : LaidOut json r name value signature) :
    r.FieldsRight json ↔ name = [] ∧ signature = [] := by
  obtain ⟨hname, hsignature, hvalue⟩ := h.reads
  obtain ⟨entry, hentry, htextures⟩ := h.textures
  constructor
  · intro hright
    obtain ⟨entry', value', hentry', hvalue', hreads⟩ := hright.value
    have hsame : entry' = entry := Option.some.inj (hentry'.symm.trans hentry)
    have htext : value' = value := by
      rw [hsame, htextures.1] at hvalue'
      exact (Option.some.inj hvalue').symm
    have hlength := congrArg List.length (hreads.unique hvalue)
    rw [htext] at hlength
    simp only [List.length_append] at hlength
    exact ⟨List.length_eq_zero_iff.mp (by omega), List.length_eq_zero_iff.mp (by omega)⟩
  · rintro ⟨rfl, rfl⟩
    simp only [List.append_nil] at hsignature hvalue
    exact ⟨⟨_, h.names, hname⟩, ⟨_, _, hentry, htextures.1, hvalue⟩,
      ⟨_, _, hentry, htextures.2, hsignature⟩, h.inside⟩

/-- A response for a player with a name is never right. -/
theorem fields_never_right
    (h : mapiMinecraftHasJoinedResponseFromJson malloc uninit json = some r)
    (hname : stringMember json (ascii "name") ≠ some []) : ¬ r.FieldsRight json := by
  obtain ⟨name, value, signature, hlaid⟩ := laidOut_of_accepted h
  rw [hlaid.right_iff]
  rintro ⟨rfl, -⟩
  exact hname hlaid.names

/-- What the session server may answer about `jeb_`. -/
def jebJoined : Json := .object [
  (ascii "id", .string (ascii "853c80ef3c3749fdaa49938b674adae6")),
  (ascii "name", .string (ascii "jeb_")),
  (ascii "properties", .array [.object [
    (ascii "name", .string (ascii "textures")),
    (ascii "value", .string (ascii "e30=")),
    (ascii "signature", .string (ascii "c2ln"))]])]

theorem jebJoined_accepted :
    (mapiMinecraftHasJoinedResponseFromJson (fun _ => some (ofList [])) ⟨.replicate 16 0⟩
      jebJoined).isSome = true := by
  decide +kernel

/-- `jeb_` gets a skin that ends in the name `jeb_`. -/
theorem jeb_fields_wrong : ∃ r, mapiMinecraftHasJoinedResponseFromJson
    (fun _ => some (ofList [])) ⟨.replicate 16 0⟩ jebJoined = some r ∧ ¬ r.FieldsRight jebJoined := by
  obtain ⟨r, hr⟩ := Option.isSome_iff_exists.mp jebJoined_accepted
  exact ⟨r, hr, fields_never_right hr (by decide +kernel)⟩

/-- The same on what is in the block. -/
theorem jeb_skin_runs_on : ¬ ∀ malloc uninit json r,
    mapiMinecraftHasJoinedResponseFromJson malloc uninit json = some r →
    stringMember json (ascii "name") ≠ some [] → r.FieldsRight json := by
  intro hall
  obtain ⟨r, hr⟩ := Option.isSome_iff_exists.mp jebJoined_accepted
  have hname : stringMember jebJoined (ascii "name") = some (ascii "jeb_") := by decide +kernel
  obtain ⟨name, value, signature, hlaid⟩ := laidOut_of_accepted hr
  obtain ⟨rfl, -⟩ := hlaid.right_iff.mp (hall _ _ _ _ hr (by rw [hname]; decide))
  have hne := hname.symm.trans hlaid.names
  cases hne

end Response

end Stronk.Mapi
