import Stronk.JsonMembers
import Stronk.NinUuid

/-! The answer of the authentication server (`json_to_auth_response`). Nothing in a block that
`malloc` gave means anything until it is set. -/
namespace Stronk.Mapi
open JsonText Mcpr ByteMemory Uuid

section Model

inductive Pointer
  | null
  /-- To the start of a block with these bytes. -/
  | block (bytes : List UInt8)
  /-- To anything else. -/
  | stray

structure MapiProfile where
  uuid : Ninuuid
  name : Pointer
  legacy : Bool

structure MapiUser where
  id : Pointer
  preferredLanguage : Pointer
  twitchAccessToken : Pointer

structure MapiAuthResponse where
  accessToken : Pointer
  clientToken : Pointer
  availableProfilesAmount : ℕ
  availableProfiles : List MapiProfile
  selectedProfile : MapiProfile
  userPresent : Bool
  user : MapiUser

/-- What is in the blocks that `malloc` gives: in the one of the response, in the one of the profiles
and in the blocks of the strings, which are numbered as they come. -/
structure Uninit where
  response : MapiAuthResponse
  profiles : ℕ → MapiProfile
  strings : ℕ → Mem

variable (uninit : Uninit)

/-- A block for a text and its terminator, and the copy of the first `n` of their bytes to it. -/
def copied (string : ℕ) (text : List UInt8) (n : ℕ) : Pointer :=
  .block (read (write (uninit.strings string) 0 ((text ++ [0]).take n)) (text.length+1))

def availableProfile (i : ℕ) (profile : Json) : Option MapiProfile := do
  let profileId ← stringMember profile (ascii "id")
  let parsed := ninuuidFromString (uninit.profiles i).uuid profileId
  if parsed.2 then do
    let name ← stringMember profile (ascii "name")
    -- it has to be there, but anything other than `true` counts as `false`
    let legacy ← jsonObjectGet profile (ascii "legacy")
    some ⟨parsed.1, copied uninit (2+i) name (name.length+1), jsonIsTrue legacy⟩
  else none

def availableProfilesFrom : ℕ → List Json → Option (List MapiProfile)
  | _, [] => some []
  | i, profile :: rest => do
    let first ← availableProfile uninit i profile
    let others ← availableProfilesFrom (i+1) rest
    some (first :: others)

/-- The loop over the profiles. Its counter is an `unsigned int` and never gets to the end of more
than that can count. -/
def availableProfiles (profiles : List Json) : Option (List MapiProfile) :=
  if profiles = [] ∨ 4294967296 ≤ profiles.length then none
  else availableProfilesFrom uninit 0 profiles

/-- The identifier and the name; the flag stays as it is. -/
def selectedProfile (string : ℕ) (profile : Json) : Option MapiProfile := do
  let profileId ← stringMember profile (ascii "id")
  let parsed := ninuuidFromString uninit.response.selectedProfile.uuid profileId
  if parsed.2 then do
    let name ← stringMember profile (ascii "name")
    some ⟨parsed.1, copied uninit string name (name.length+1),
      uninit.response.selectedProfile.legacy⟩
  else none

/-- The loop over the properties. The two flags that are to skip a property that was found before are
new in every turn; a name that is not a string ends in `strcmp`. -/
def userProperties : ℕ → List Json → MapiUser → Option MapiUser
  | _, [], user => some user
  | string, entry :: rest, user => do
    -- only that there is a name is checked before its value is read
    let _ ← jsonObjectGet entry (ascii "name")
    let stringValue ← stringMember entry (ascii "value")
    let name ← stringMember entry (ascii "name")
    let value := copied uninit string stringValue (stringValue.length+1)
    if name = ascii "preferredLanguage" then
      userProperties (string+1) rest { user with preferredLanguage := value }
    else if name = ascii "twitch_access_token" then
      userProperties (string+1) rest { user with twitchAccessToken := value }
    else userProperties string rest user

/-- The part about the user. The properties are looked for beside the user and not in it. -/
def authUser (string : ℕ) (json user : Json) (res : MapiAuthResponse) : Option MapiAuthResponse := do
  let userId ← stringMember user (ascii "id")
  let properties ← jsonObjectGet json (ascii "properties")
  if jsonArray properties = [] then none
  else do
    -- the identifier is copied without its terminator
    let user ← userProperties uninit (string+1) (jsonArray properties)
      { res.user with id := copied uninit string userId userId.length }
    some { res with user := user }

/-- The part of every answer, which is the whole of one without a user. -/
def authBase (json : Json) : Option MapiAuthResponse := do
  let accessToken ← stringMember json (ascii "accessToken")
  let clientToken ← stringMember json (ascii "clientToken")
  let profiles ← jsonObjectGet json (ascii "availableProfiles")
  let available ← availableProfiles uninit (jsonArray profiles)
  let selected ← jsonObjectGet json (ascii "selectedProfile")
  let profile ← selectedProfile uninit (2+(jsonArray profiles).length) selected
  some { uninit.response with
    accessToken := copied uninit 0 accessToken (accessToken.length+1)
    clientToken := copied uninit 1 clientToken (clientToken.length+1)
    availableProfilesAmount := (jsonArray profiles).length
    availableProfiles := available
    selectedProfile := profile }

/-- With memory enough; there is nothing where it returns `NULL` or does not return. -/
def jsonToAuthResponse (json : Json) : Option MapiAuthResponse := do
  let res ← authBase uninit json
  match jsonObjectGet json (ascii "user") with
  | none => some { res with userPresent := false }
  -- nothing sets the flag here
  | some user => authUser uninit (3+res.availableProfilesAmount) json user res

end Model

section Property

def Pointer.Reads (p : Pointer) (text : List UInt8) : Prop :=
  ∃ bytes, p = .block bytes ∧ ReadsAs bytes text

/-- A profile has the identifier and the name of the JSON. -/
structure ProfileRight (json : Json) (p : MapiProfile) : Prop where
  uuid : ∃ profileId, stringMember json (ascii "id") = some profileId ∧
    ∀ out, ninuuidFromString out profileId = (p.uuid, true)
  name : ∃ name, stringMember json (ascii "name") = some name ∧ p.name.Reads name

/-- It has its flag, which is not set where the JSON has none. -/
def LegacyRight (json : Json) (p : MapiProfile) : Prop :=
  p.legacy = (jsonObjectGet json (ascii "legacy")).any jsonIsTrue

/-- The first property of a name that a user has. -/
def userProperty (user : Json) (name : List UInt8) : Option (List UInt8) := do
  let properties ← jsonObjectGet user (ascii "properties")
  let entry ← (jsonArray properties).find? fun entry => stringMember entry (ascii "name") = some name
  stringMember entry (ascii "value")

def PropertyRight (p : Pointer) : Option (List UInt8) → Prop
  | some text => p.Reads text
  | none => p = .null

structure UserRight (user : Json) (u : MapiUser) : Prop where
  id : ∃ userId, stringMember user (ascii "id") = some userId ∧ u.id.Reads userId
  preferredLanguage : PropertyRight u.preferredLanguage (userProperty user (ascii "preferredLanguage"))
  twitchAccessToken : PropertyRight u.twitchAccessToken (userProperty user (ascii "twitch_access_token"))

/-- The parts that every answer has. -/
structure BaseRight (json : Json) (r : MapiAuthResponse) : Prop where
  accessToken : ∃ text, stringMember json (ascii "accessToken") = some text ∧ r.accessToken.Reads text
  clientToken : ∃ text, stringMember json (ascii "clientToken") = some text ∧ r.clientToken.Reads text
  available : ∃ profiles, jsonObjectGet json (ascii "availableProfiles") = some profiles ∧
    r.availableProfilesAmount = (jsonArray profiles).length ∧
    List.Forall₂ (fun profile p => ProfileRight profile p ∧ LegacyRight profile p)
      (jsonArray profiles) r.availableProfiles
  selected : ∃ profile, jsonObjectGet json (ascii "selectedProfile") = some profile ∧
    ProfileRight profile r.selectedProfile

/-- All but the flag of the selected profile. -/
structure MostRight (json : Json) (r : MapiAuthResponse) : Prop extends BaseRight json r where
  userPresent : r.userPresent = true ↔ jsonObjectGet json (ascii "user") ≠ none
  user : ∀ user, jsonObjectGet json (ascii "user") = some user → UserRight user r.user

structure AuthRight (json : Json) (r : MapiAuthResponse) : Prop extends MostRight json r where
  selectedLegacy : ∀ profile, jsonObjectGet json (ascii "selectedProfile") = some profile →
    LegacyRight profile r.selectedProfile

/-- Whatever is in the memory that `malloc` gives, what is returned has a property. -/
def Always (json : Json) (P : Json → MapiAuthResponse → Prop) : Prop :=
  ∀ uninit r, jsonToAuthResponse uninit json = some r → P json r

end Property

section Copies

variable {uninit : Uninit}

theorem copied_whole (string : ℕ) (text : List UInt8) :
    copied uninit string text (text.length+1) = .block (text ++ [0]) := by
  have hlength : (text ++ [0]).length = text.length+1 := by simp
  rw [copied, List.take_of_length_le hlength.le, ← hlength]
  have hread := read_write_same (uninit.strings string) 0 (text ++ [0])
  rw [shift_zero] at hread
  rw [hread]

theorem copied_reads {json : Json} {key text : List UInt8} (h : stringMember json key = some text)
    (string : ℕ) : (copied uninit string text (text.length+1)).Reads text := by
  rw [copied_whole]
  exact ⟨_, rfl, stringMember_nulFree h, [], rfl⟩

/-- A UUID that is read whole has nothing of what was in its place. -/
theorem ninuuidFromString_whole {out : Ninuuid} {text : List UInt8}
    (h : (ninuuidFromString out text).2 = true) (out' : Ninuuid) :
    ninuuidFromString out' text = ((ninuuidFromString out text).1, true) := by
  unfold ninuuidFromString at h ⊢
  dsimp only at h ⊢
  rw [decide_eq_true_eq] at h
  rw [decide_eq_true h]
  congr 3
  funext i
  have hi : i.val < (sscanf (if text.getD 8 0 ≠ 45 then fmtCompressed else fmtLong)
      (cString text)).length := by omega
  rw [List.getD_eq_getElem _ _ hi, List.getD_eq_getElem _ _ hi]

end Copies

section Profiles

variable {uninit : Uninit}

/-- A profile is what its JSON says, and so it is the same whatever was in its place. -/
theorem availableProfile_right {i : ℕ} {json : Json} {p : MapiProfile}
    (h : availableProfile uninit i json = some p) : ProfileRight json p ∧ LegacyRight json p ∧
      ∀ uninit', availableProfile uninit' i json = some p := by
  rw [availableProfile] at h
  obtain ⟨profileId, hid, h⟩ := Option.bind_eq_some_iff.mp h
  dsimp only at h
  split_ifs at h with hparsed
  obtain ⟨name, hname, h⟩ := Option.bind_eq_some_iff.mp h
  obtain ⟨legacy, hlegacy, h⟩ := Option.bind_eq_some_iff.mp h
  cases h
  have hsame := ninuuidFromString_whole hparsed
  refine ⟨⟨⟨profileId, hid, hsame⟩, name, hname, copied_reads hname _⟩, ?_, fun uninit' => ?_⟩
  · rw [LegacyRight, hlegacy]
    rfl
  · rw [availableProfile, hid, Option.bind_eq_bind, Option.bind_some, hsame, if_pos rfl, hname,
      hlegacy]
    simp only [Option.bind_eq_bind, Option.bind_some, copied_whole]

theorem availableProfilesFrom_right {i : ℕ} {profiles : List Json} {ps : List MapiProfile}
    (h : availableProfilesFrom uninit i profiles = some ps) :
    List.Forall₂ (fun profile p => ProfileRight profile p ∧ LegacyRight profile p) profiles ps ∧
      ∀ uninit', availableProfilesFrom uninit' i profiles = some ps := by
  induction profiles generalizing i ps with
  | nil =>
    cases h
    exact ⟨.nil, fun _ => rfl⟩
  | cons profile rest ih =>
    rw [availableProfilesFrom] at h
    obtain ⟨first, hfirst, h⟩ := Option.bind_eq_some_iff.mp h
    obtain ⟨others, hothers, h⟩ := Option.bind_eq_some_iff.mp h
    cases h
    obtain ⟨hright, hlegacy, hsame⟩ := availableProfile_right hfirst
    obtain ⟨hrest, hsameRest⟩ := ih hothers
    refine ⟨.cons ⟨hright, hlegacy⟩ hrest, fun uninit' => ?_⟩
    rw [availableProfilesFrom, hsame uninit', hsameRest uninit']
    rfl

theorem availableProfiles_right {profiles : List Json} {ps : List MapiProfile}
    (h : availableProfiles uninit profiles = some ps) :
    List.Forall₂ (fun profile p => ProfileRight profile p ∧ LegacyRight profile p) profiles ps ∧
      ∀ uninit', availableProfiles uninit' profiles = some ps := by
  unfold availableProfiles at h ⊢
  split_ifs at h with hcount
  obtain ⟨hright, hsame⟩ := availableProfilesFrom_right h
  refine ⟨hright, fun uninit' => ?_⟩
  rw [if_neg hcount, hsame uninit']

/-- Of the selected profile the flag is not set. -/
theorem selectedProfile_right {string : ℕ} {json : Json} {p : MapiProfile}
    (h : selectedProfile uninit string json = some p) : ProfileRight json p ∧
      ∀ uninit', selectedProfile uninit' string json =
        some { p with legacy := uninit'.response.selectedProfile.legacy } := by
  rw [selectedProfile] at h
  obtain ⟨profileId, hid, h⟩ := Option.bind_eq_some_iff.mp h
  dsimp only at h
  split_ifs at h with hparsed
  obtain ⟨name, hname, h⟩ := Option.bind_eq_some_iff.mp h
  cases h
  have hsame := ninuuidFromString_whole hparsed
  refine ⟨⟨⟨profileId, hid, hsame⟩, name, hname, copied_reads hname _⟩, fun uninit' => ?_⟩
  rw [selectedProfile, hid, Option.bind_eq_bind, Option.bind_some, hsame, if_pos rfl, hname]
  simp only [Option.bind_some, copied_whole]

end Profiles

section Answer

variable {uninit : Uninit} {json : Json} {r : MapiAuthResponse}

/-- What the JSON leaves open comes from the block of the response. -/
theorem authBase_right (h : authBase uninit json = some r) : BaseRight json r ∧
    ∀ uninit', ∃ r', authBase uninit' json = some r' ∧
      r'.selectedProfile.legacy = uninit'.response.selectedProfile.legacy ∧
      r'.userPresent = uninit'.response.userPresent ∧
      r'.availableProfilesAmount = r.availableProfilesAmount := by
  rw [authBase] at h
  obtain ⟨accessToken, haccess, h⟩ := Option.bind_eq_some_iff.mp h
  obtain ⟨clientToken, hclient, h⟩ := Option.bind_eq_some_iff.mp h
  obtain ⟨profiles, hprofiles, h⟩ := Option.bind_eq_some_iff.mp h
  obtain ⟨available, havailable, h⟩ := Option.bind_eq_some_iff.mp h
  obtain ⟨selected, hselected, h⟩ := Option.bind_eq_some_iff.mp h
  obtain ⟨profile, hprofile, h⟩ := Option.bind_eq_some_iff.mp h
  cases h
  obtain ⟨hall, hsame⟩ := availableProfiles_right havailable
  obtain ⟨hright, hsameProfile⟩ := selectedProfile_right hprofile
  constructor
  · exact ⟨⟨_, haccess, copied_reads haccess _⟩, ⟨_, hclient, copied_reads hclient _⟩,
      ⟨_, hprofiles, rfl, hall⟩, ⟨_, hselected, hright⟩⟩
  · intro uninit'
    simp only [authBase, haccess, hclient, hprofiles, hsame uninit', hselected,
      hsameProfile uninit', Option.bind_eq_bind, Option.bind_some]
    exact ⟨_, rfl, rfl, rfl, rfl⟩

theorem userProperties_accepts {string : ℕ} {entries : List Json} {user u : MapiUser}
    (h : userProperties uninit string entries user = some u) (uninit' : Uninit) (user' : MapiUser) :
    ∃ u', userProperties uninit' string entries user' = some u' := by
  induction entries generalizing string user user' with
  | nil => exact ⟨user', rfl⟩
  | cons entry rest ih =>
    rw [userProperties] at h
    obtain ⟨nameJson, hnameJson, h⟩ := Option.bind_eq_some_iff.mp h
    obtain ⟨stringValue, hvalue, h⟩ := Option.bind_eq_some_iff.mp h
    obtain ⟨name, hname, h⟩ := Option.bind_eq_some_iff.mp h
    dsimp only at h
    simp only [userProperties, hnameJson, hvalue, hname, Option.bind_eq_bind, Option.bind_some]
    split_ifs at h ⊢ with hlanguage htwitch
    · exact ih h _
    · exact ih h _
    · exact ih h _

/-- The part about the user sets nothing but the user. -/
theorem authUser_accepts {string : ℕ} {user : Json} {res : MapiAuthResponse}
    (h : authUser uninit string json user res = some r) (uninit' : Uninit) (res' : MapiAuthResponse) :
    ∃ u, authUser uninit' string json user res' = some { res' with user := u } := by
  rw [authUser] at h
  obtain ⟨userId, hid, h⟩ := Option.bind_eq_some_iff.mp h
  obtain ⟨properties, hproperties, h⟩ := Option.bind_eq_some_iff.mp h
  split_ifs at h with hempty
  obtain ⟨u, hu, -⟩ := Option.bind_eq_some_iff.mp h
  obtain ⟨u', hu'⟩ := userProperties_accepts hu uninit'
    { res'.user with id := copied uninit' string userId userId.length }
  refine ⟨u', ?_⟩
  rw [authUser, hid, Option.bind_eq_bind, Option.bind_some, hproperties, Option.bind_eq_bind,
    Option.bind_some, if_neg hempty, hu']
  rfl

/-- An answer is accepted whatever is in the memory, and then the flag of the selected profile, and
the one that tells whether there is a user if there is one, are what was there. -/
theorem accepted_anyway (h : jsonToAuthResponse uninit json = some r) (uninit' : Uninit) :
    ∃ r', jsonToAuthResponse uninit' json = some r' ∧
      r'.selectedProfile.legacy = uninit'.response.selectedProfile.legacy ∧
      (jsonObjectGet json (ascii "user") ≠ none →
        r'.userPresent = uninit'.response.userPresent) := by
  rw [jsonToAuthResponse] at h
  obtain ⟨res, hres, h⟩ := Option.bind_eq_some_iff.mp h
  obtain ⟨res', hres', hlegacy, hpresent, hamount⟩ := (authBase_right hres).2 uninit'
  cases huser : jsonObjectGet json (ascii "user") with
  | none =>
    refine ⟨{ res' with userPresent := false }, ?_, hlegacy, fun hne => absurd rfl hne⟩
    rw [jsonToAuthResponse, hres', Option.bind_eq_bind, Option.bind_some, huser]
  | some user =>
    rw [huser, ← hamount] at h
    obtain ⟨u, hu⟩ := authUser_accepts h uninit' res'
    refine ⟨{ res' with user := u }, ?_, hlegacy, fun _ => hpresent⟩
    rw [jsonToAuthResponse, hres', Option.bind_eq_bind, Option.bind_some, huser]
    exact hu

/-- Without a user nothing but the flag of the selected profile is left open. -/
theorem mostRight_of_no_user (h : jsonToAuthResponse uninit json = some r)
    (huser : jsonObjectGet json (ascii "user") = none) : MostRight json r := by
  rw [jsonToAuthResponse] at h
  obtain ⟨res, hres, h⟩ := Option.bind_eq_some_iff.mp h
  rw [huser] at h
  cases h
  obtain ⟨haccess, hclient, havailable, hselected⟩ := (authBase_right hres).1
  refine ⟨⟨haccess, hclient, havailable, hselected⟩, ?_, ?_⟩
  · rw [huser]
    simp
  · intro user hsome
    rw [huser] at hsome
    cases hsome

/-- A response is never right whatever was in the memory, for the flag of the selected profile is not
set; the rest of it is if and only if there is no user. -/
theorem auth_never_right (h : jsonToAuthResponse uninit json = some r) :
    ¬ Always json AuthRight ∧
      (Always json MostRight ↔ jsonObjectGet json (ascii "user") = none) := by
  constructor
  · intro hall
    obtain ⟨profile, hprofile, -⟩ := (hall uninit r h).selected
    -- memory in which the flag is the wrong way round
    set flag := (jsonObjectGet profile (ascii "legacy")).any jsonIsTrue with hflag
    obtain ⟨r', hr', hlegacy, -⟩ := accepted_anyway h { uninit with
      response.selectedProfile.legacy := !flag }
    have hright : r'.selectedProfile.legacy = flag := (hall _ r' hr').selectedLegacy profile hprofile
    rw [hlegacy] at hright
    simp at hright
  · constructor
    · intro hall
      by_contra huser
      -- memory that says that there is no user
      obtain ⟨r', hr', -, hpresent⟩ := accepted_anyway h { uninit with response.userPresent := false }
      have htrue := (hall _ r' hr').userPresent.mpr huser
      rw [hpresent huser] at htrue
      cases htrue
    · intro huser uninit' r' hr'
      exact mostRight_of_no_user hr' huser

/-- An answer with the profile of `jeb_` and with his account. -/
def jebAuthenticated : Json :=
  let jeb : Json := .object [
    (ascii "id", .string (ascii "853c80ef3c3749fdaa49938b674adae6")),
    (ascii "name", .string (ascii "jeb_")),
    (ascii "legacy", .bool false)]
  let properties : Json := .array [.object [
    (ascii "name", .string (ascii "preferredLanguage")), (ascii "value", .string (ascii "sv"))]]
  .object [
    (ascii "accessToken", .string (ascii "7c9d5b0044c1")),
    (ascii "clientToken", .string (ascii "30109a5d7b5f")),
    (ascii "availableProfiles", .array [jeb]),
    (ascii "selectedProfile", jeb),
    (ascii "user", .object [(ascii "id", .string (ascii "b5c317c0")), (ascii "properties", properties)]),
    (ascii "properties", properties)]

/-- Memory of zeros. -/
def zeroUninit : Uninit where
  response := ⟨.null, .null, 0, [], ⟨⟨.replicate 16 0⟩, .null, false⟩, false, ⟨.null, .null, .null⟩⟩
  profiles := fun _ => ⟨⟨.replicate 16 0⟩, .null, false⟩
  strings := fun _ => ofList []

theorem jebAuthenticated_accepted :
    (jsonToAuthResponse zeroUninit jebAuthenticated).isSome = true := by
  decide +kernel

/-- His answer is never right. -/
theorem jeb_auth_never_right : ¬ Always jebAuthenticated AuthRight := by
  obtain ⟨r, hr⟩ := Option.isSome_iff_exists.mp jebAuthenticated_accepted
  exact (auth_never_right hr).1

/-- In memory of zeros he is there without being present. -/
theorem jeb_not_present : ¬ ∀ uninit json r, jsonToAuthResponse uninit json = some r →
    AuthRight json r := by
  intro hall
  obtain ⟨r, hr, -, hpresent⟩ := accepted_anyway
    (Option.isSome_iff_exists.mp jebAuthenticated_accepted).choose_spec zeroUninit
  have huser : jsonObjectGet jebAuthenticated (ascii "user") ≠ none := by
    rw [Option.ne_none_iff_isSome]
    decide +kernel
  have htrue := (hall _ _ _ hr).userPresent.mpr huser
  rw [hpresent huser] at htrue
  cases htrue

end Answer

end Stronk.Mapi
