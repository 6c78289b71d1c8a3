import Stronk.ChatJson
import Stronk.EncodedPackets
import Stronk.JsonGrammar
import Stronk.PacketHandlers

/-! The status response as JSON: the text that `server_list_response_to_json` puts together is a value
with the fields of the packet, as far as its description is one itself. -/
namespace Stronk.Mcpr
open JsonText

section Model

def numberJson (n : BitVec 32) : Json := .number (ascii (toString n.toInt))

/-- The value that a response without a player sample stands for, when `description` is the one that
its description stands for. -/
def statusJson (r : Response) (description : Json) : Json :=
  .object ([
    (ascii "version", .object [
      (ascii "name", .string (cString r.versionName)),
      (ascii "protocol", numberJson r.protocolVersion)]),
    (ascii "players", .object [
      (ascii "max", numberJson r.maxPlayers),
      (ascii "online", numberJson r.onlinePlayers)]),
    (ascii "description", description)] ++
    r.favicon.toList.map fun favicon => (ascii "favicon", .string (cString favicon)))

/-- The message of the day, as `net_init` has `mcpr_as_chat` make it. -/
def netInitMotd : Option (List UInt8) :=
  (mcprAsChatBlocks (ascii "A bloody stronk server.")).map fun blocks => cString blocks.2.bytes

/-- Texts that can stand between quotes as they are. -/
structure StatusPlain (r : Response) : Prop where
  name : Plain (cString r.versionName)
  nameUtf8 : ValidUtf8 (cString r.versionName)
  favicon : ∀ favicon, r.favicon = some favicon → Plain (cString favicon)
  faviconUtf8 : ∀ favicon, r.favicon = some favicon → ValidUtf8 (cString favicon)

/-- What the message of the day is when no allocation fails. -/
def initialMotd : List UInt8 := ascii "\x7b\"text\":\"A bloody stronk server.\"\x7d"

end Model

section Numbers

theorem ascii_repr (n : ℕ) : ascii n.repr = (Nat.toDigits 10 n).map fun c => UInt8.ofNat c.toNat := by
  rw [ascii, Nat.toList_repr]

/-- A decimal number has digits, and no zero in front unless it is zero. -/
theorem ascii_repr_digits (n : ℕ) :
    Digits (ascii n.repr) ∧ (0 < n → (ascii n.repr).head? ≠ some 48) := by
  have hdigit : ∀ d < 10, isDigit (UInt8.ofNat (Nat.digitChar d).toNat) = true ∧
      (0 < d → UInt8.ofNat (Nat.digitChar d).toNat ≠ 48) := by decide
  induction n using Nat.strongRecOn with
  | ind n ih =>
    rw [ascii_repr, Nat.toDigits_eq_if (by decide)]
    split_ifs with hlt
    · obtain ⟨h, hzero⟩ := hdigit n hlt
      refine ⟨⟨by simp, ?_⟩, fun hpos heq => hzero hpos (Option.some.inj heq)⟩
      simpa using h
    · have hdiv : 0 < n/10 := Nat.div_pos (Nat.le_of_not_lt hlt) (by decide)
      obtain ⟨⟨hne, hall⟩, hzero⟩ := ih (n/10) (Nat.div_lt_self (by omega) (by decide))
      rw [ascii_repr] at hne hall hzero
      obtain ⟨h, -⟩ := hdigit (n%10) (Nat.mod_lt _ (by decide))
      rw [List.map_append]
      refine ⟨⟨by simp, fun c hc => ?_⟩, fun _ => ?_⟩
      · rcases List.mem_append.mp hc with hc | hc
        · exact hall c hc
        · rw [List.map_singleton, List.mem_singleton] at hc
          rwa [hc]
      · rw [List.head?_append_of_ne_nil _ hne]
        exact hzero hdiv

theorem ascii_toString_negSucc (k : ℕ) :
    ascii (toString (Int.negSucc k)) = 45 :: ascii (k+1).repr := by
  change ascii ("-" ++ (k+1).repr) = _
  rw [ascii, String.toList_append, List.map_append]
  rfl

theorem spells_numberJson (n : BitVec 32) :
    Spells (.value (numberJson n)) (ascii (toString n.toInt)) := by
  obtain ⟨number, hnumber⟩ : ∃ number : Number, number.text = ascii (toString n.toInt) := by
    cases n.toInt with
    | ofNat k =>
      obtain ⟨hdigits, hzero⟩ := ascii_repr_digits k
      refine ⟨⟨[], ascii k.repr, [], [], .inl rfl, ?_, .inl rfl, .inl rfl⟩, by simp [Number.text]; rfl⟩
      obtain rfl | hpos := Nat.eq_zero_or_pos k
      · exact .inl rfl
      · exact .inr ⟨hdigits, hzero hpos⟩
    | negSucc k =>
      obtain ⟨hdigits, hzero⟩ := ascii_repr_digits (k+1)
      refine ⟨⟨[45], ascii (k+1).repr, [], [], .inr rfl, .inr ⟨hdigits, hzero k.succ_pos⟩, .inl rfl,
        .inl rfl⟩, ?_⟩
      rw [ascii_toString_negSucc]
      simp [Number.text]
  rw [numberJson, ← hnumber]
  exact .number number

end Numbers

section Layout

def nameText (r : Response) : List UInt8 := memberText (ascii "name") (stringText (cString r.versionName))

def numberText (key : String) (n : BitVec 32) : List UInt8 :=
  memberText (ascii key) (ascii (toString n.toInt))

def versionText (r : Response) : List UInt8 :=
  memberText (ascii "version") (objectText (nameText r ++ 44 :: numberText "protocol" r.protocolVersion))

def playersText (r : Response) : List UInt8 :=
  memberText (ascii "players")
    (objectText (numberText "max" r.maxPlayers ++ 44 :: numberText "online" r.onlinePlayers))

def faviconText (favicon : List UInt8) : List UInt8 :=
  memberText (ascii "favicon") (stringText (cString favicon))

/-- What stands behind the description. -/
def behindDescription (r : Response) : List UInt8 :=
  match r.favicon with
  | some favicon => 44 :: (faviconText favicon ++ [125])
  | none => [125]

/-- The format strings are objects without white space. -/
theorem responseText_eq (r : Response) :
    responseText r = 123 :: (versionText r ++ 44 :: (playersText r ++
      44 :: memberText (ascii "description") (cString r.description ++ behindDescription r))) := by
  have hversion : ascii "\x7b\"version\":\x7b\"name\":\"" =
      123 :: 34 :: (ascii "version" ++ 34 :: 58 :: 123 :: 34 :: (ascii "name" ++ [34, 58, 34])) := by
    decide
  have hprotocol : ascii "\",\"protocol\":" = 34 :: 44 :: 34 :: (ascii "protocol" ++ [34, 58]) := by
    decide
  have hplayers : ascii "\x7d,\"players\":\x7b\"max\":" =
      125 :: 44 :: 34 :: (ascii "players" ++ 34 :: 58 :: 123 :: 34 :: (ascii "max" ++ [34, 58])) := by
    decide
  have honline : ascii ",\"online\":" = 44 :: 34 :: (ascii "online" ++ [34, 58]) := by decide
  have hdescription : ascii "\x7d,\"description\":" =
      125 :: 44 :: 34 :: (ascii "description" ++ [34, 58]) := by decide
  have hfavicon : ascii ",\"favicon\":\"" = 44 :: 34 :: (ascii "favicon" ++ [34, 58, 34]) := by decide
  have hclose : ascii "\"\x7d" = [34, 125] := by decide
  have hend : ascii "\x7d" = [125] := by decide
  simp only [responseText, behindDescription, versionText, playersText, nameText, numberText,
    faviconText, memberText, objectText, stringText]
  cases r.favicon <;>
    simp [hversion, hprotocol, hplayers, honline, hdescription, hfavicon, hclose, hend]

variable {r : Response}

theorem plain_of_all {cs : List UInt8}
    (h : cs.all (fun c => c ≠ 34 ∧ 32 ≤ c ∧ c ≠ 92 ∧ c < 0x80) = true) : Plain cs ∧ IsAscii cs := by
  have hbyte {c : UInt8} (hc : c ∈ cs) : c ≠ 34 ∧ 32 ≤ c ∧ c ≠ 92 ∧ c < 0x80 :=
    of_decide_eq_true (List.all_eq_true.mp h c hc)
  refine ⟨fun c hc => ?_, fun c hc => (hbyte hc).2.2.2⟩
  obtain ⟨hquote, hspace, hescape, -⟩ := hbyte hc
  exact ⟨hquote, hspace, hescape⟩

/-- The keys stand between quotes as they are. -/
theorem plain_key : ∀ key ∈ ["version", "name", "protocol", "players", "max", "online", "description",
    "favicon"], Plain (ascii key) ∧ IsAscii (ascii key) := by
  -- a check on the bytes is evaluated much faster than the two quantifiers
  have hall : ∀ key ∈ ["version", "name", "protocol", "players", "max", "online", "description",
      "favicon"], (ascii key).all (fun c => c ≠ 34 ∧ 32 ≤ c ∧ c ≠ 92 ∧ c < 0x80) = true := by
    decide +kernel
  exact fun key hkey => plain_of_all (hall key hkey)

theorem spells_numberText (key : String) (hkey : Plain (ascii key)) (n : BitVec 32) :
    Spells (.member (ascii key) (numberJson n)) (numberText key n) :=
  spells_member hkey (spells_numberJson n).bare

theorem spells_versionText (h : StatusPlain r) : Spells (.member (ascii "version") (.object [
    (ascii "name", .string (cString r.versionName)),
    (ascii "protocol", numberJson r.protocolVersion)])) (versionText r) := by
  have hname : Spells (.member (ascii "name") (.string (cString r.versionName))) (nameText r) :=
    spells_member (plain_key "name" (by simp)).1 (spells_string h.name).bare
  have hprotocol := spells_numberText "protocol" (plain_key _ (by simp)).1 r.protocolVersion
  apply spells_member (plain_key "version" (by simp)).1
  exact (spells_object (.moreMembers hname (.lastMember hprotocol))).bare

theorem spells_playersText (r : Response) : Spells (.member (ascii "players") (.object [
    (ascii "max", numberJson r.maxPlayers),
    (ascii "online", numberJson r.onlinePlayers)])) (playersText r) := by
  have hmax := spells_numberText "max" (plain_key _ (by simp)).1 r.maxPlayers
  have honline := spells_numberText "online" (plain_key _ (by simp)).1 r.onlinePlayers
  apply spells_member (plain_key "players" (by simp)).1
  exact (spells_object (.moreMembers hmax (.lastMember honline))).bare

theorem spells_faviconText {favicon : List UInt8} (h : Plain (cString favicon)) :
    Spells (.member (ascii "favicon") (.string (cString favicon))) (faviconText favicon) :=
  spells_member (plain_key "favicon" (by simp)).1 (spells_string h).bare

theorem plain_description : Plain (ascii "description") := (plain_key _ (by simp)).1

/-- A description that is JSON leaves the whole response JSON. -/
theorem spells_responseText (h : StatusPlain r) {d : Json}
    (hd : Spells (.padded d) (cString r.description)) :
    Spells (.padded (statusJson r d)) (responseText r) := by
  have hdescription : Spells (.member (ascii "description") d)
      (memberText (ascii "description") (cString r.description)) := spells_member plain_description hd
  have hmembers : ∃ ms cs, Spells (.members ((ascii "description", d) :: ms)) cs ∧
      ms = r.favicon.toList.map (fun favicon => (ascii "favicon", Json.string (cString favicon))) ∧
      memberText (ascii "description") (cString r.description ++ behindDescription r) =
        cs ++ [125] := by
    cases hfavicon : r.favicon with
    | none =>
      refine ⟨[], _, .lastMember hdescription, rfl, ?_⟩
      simp [behindDescription, hfavicon, memberText]
    | some favicon =>
      have hlast := spells_faviconText (h.favicon favicon hfavicon)
      refine ⟨_, _, .moreMembers hdescription (.lastMember hlast), rfl, ?_⟩
      simp [behindDescription, hfavicon, memberText]
  obtain ⟨ms, cs, hcs, rfl, htext⟩ := hmembers
  have hall := spells_object (.moreMembers (spells_versionText h)
    (.moreMembers (spells_playersText r) hcs))
  have heq : responseText r = objectText (versionText r ++ 44 :: (playersText r ++ 44 :: cs)) := by
    rw [responseText_eq, htext, objectText]
    simp
  rw [heq]
  exact hall.bare

end Layout

section Utf8
variable {r : Response}

theorem isAscii_number (n : BitVec 32) : IsAscii (ascii (toString n.toInt)) := by
  cases n.toInt with
  | ofNat k => exact (ascii_repr_digits k).1.isAscii
  | negSucc k =>
    rw [ascii_toString_negSucc]
    exact .cons (by decide) (ascii_repr_digits (k+1)).1.isAscii

theorem isAscii_numberText {key : String} (hkey : IsAscii (ascii key)) (n : BitVec 32) :
    IsAscii (numberText key n) := hkey.member (isAscii_number n)

/-- What stands in front of the description. -/
def frontText (r : Response) : List UInt8 :=
  123 :: (versionText r ++ 44 :: (playersText r ++ 44 :: 34 :: (ascii "description" ++ [34, 58])))

theorem validUtf8_front (h : StatusPlain r) : ValidUtf8 (frontText r) := by
  have hversion : IsAscii (ascii "version") := (plain_key _ (by simp)).2
  have hname : IsAscii (ascii "name") := (plain_key _ (by simp)).2
  have hdescription : IsAscii (ascii "description") := (plain_key _ (by simp)).2
  have hbefore : IsAscii (123 :: 34 :: (ascii "version" ++ 34 :: 58 :: 123 :: 34 ::
      (ascii "name" ++ [34, 58, 34]))) :=
    .cons (by decide) (hversion.member (.cons (by decide) (hname.member (.cons (by decide) .nil))))
  have hplayers : IsAscii (playersText r) := by
    have hmax : IsAscii (numberText "max" r.maxPlayers) := isAscii_numberText (plain_key _ (by simp)).2 _
    have honline : IsAscii (numberText "online" r.onlinePlayers) :=
      isAscii_numberText (plain_key _ (by simp)).2 _
    apply IsAscii.member (plain_key "players" (by simp)).2
    exact (hmax.append (.cons (by decide) honline)).object
  have hprotocol : IsAscii (numberText "protocol" r.protocolVersion) :=
    isAscii_numberText (plain_key _ (by simp)).2 _
  have hlast : IsAscii (ascii "description" ++ [34, 58]) :=
    hdescription.append (.cons (by decide) (.cons (by decide) .nil))
  have hafter : IsAscii (44 :: (numberText "protocol" r.protocolVersion ++ 125 :: 44 ::
      (playersText r ++ 44 :: 34 :: (ascii "description" ++ [34, 58])))) :=
    .cons (by decide) (hprotocol.append (.cons (by decide) (.cons (by decide)
      (hplayers.append (.cons (by decide) (.cons (by decide) hlast))))))
  have hvalid := (validUtf8_between_iff hbefore (show (34 : UInt8) < 0x80 by decide) hafter).mpr
    h.nameUtf8
  have heq : frontText r = (123 :: 34 :: (ascii "version" ++ 34 :: 58 :: 123 :: 34 ::
      (ascii "name" ++ [34, 58, 34]))) ++ (cString r.versionName ++ 34 :: (44 ::
      (numberText "protocol" r.protocolVersion ++ 125 :: 44 ::
      (playersText r ++ 44 :: 34 :: (ascii "description" ++ [34, 58]))))) := by
    simp [frontText, versionText, nameText, memberText, objectText, stringText]
  rw [heq]
  exact hvalid

theorem validUtf8_behind (h : StatusPlain r) : ValidUtf8 (behindDescription r) := by
  have hbrace : IsAscii [125] := .cons (by decide) .nil
  rw [behindDescription]
  cases hfavicon : r.favicon with
  | none => exact hbrace.utf8
  | some favicon =>
    have hkey : IsAscii (ascii "favicon") := (plain_key _ (by simp)).2
    have hbefore : IsAscii (44 :: 34 :: (ascii "favicon" ++ [34, 58, 34])) :=
      .cons (by decide) (hkey.member (.cons (by decide) .nil))
    have hvalid := (validUtf8_between_iff hbefore (show (34 : UInt8) < 0x80 by decide) hbrace).mpr
      (h.faviconUtf8 favicon hfavicon)
    have heq : 44 :: (faviconText favicon ++ [125]) =
        (44 :: 34 :: (ascii "favicon" ++ [34, 58, 34])) ++ (cString favicon ++ 34 :: [125]) := by
      simp [faviconText, memberText, stringText]
    dsimp only
    rw [heq]
    exact hvalid

theorem responseText_split (r : Response) :
    responseText r = frontText r ++ (cString r.description ++ behindDescription r) := by
  rw [responseText_eq]
  simp [frontText, memberText]

theorem behindDescription_cons (r : Response) :
    ∃ c more, behindDescription r = c :: more ∧ c < 0x80 := by
  rw [behindDescription]
  cases r.favicon with
  | none => exact ⟨125, [], rfl, by decide⟩
  | some favicon => exact ⟨44, _, rfl, by decide⟩

theorem validUtf8_response_iff (h : StatusPlain r) :
    ValidUtf8 (responseText r) ↔ ValidUtf8 (cString r.description) := by
  rw [responseText_split]
  constructor
  · intro hvalid
    obtain ⟨c, more, hmore, hc⟩ := behindDescription_cons r
    have hrest := (validUtf8_front h).of_append hvalid
    rw [hmore] at hrest
    exact hrest.of_ascii hc
  · intro hvalid
    exact (validUtf8_front h).append (hvalid.append (validUtf8_behind h))

end Utf8

section Property
variable {r : Response}

/-- Nothing but the last brace follows what is read. -/
theorem brace_last {xs ys b : List UInt8} (hb : Spaces b) (h : xs ++ [125] = ys ++ 125 :: b) :
    xs = ys := by
  obtain rfl | ⟨b', x, rfl⟩ := List.eq_nil_or_concat b
  · exact List.append_cancel_right h
  · have hlast : xs ++ [125] = (ys ++ 125 :: b') ++ [x] := by
      rw [h]
      simp
    obtain ⟨-, heq⟩ := List.append_inj' hlast rfl
    have hspace := hb x (by simp)
    rw [← List.head_eq_of_cons_eq heq] at hspace
    cases hspace

/-- Where the favicon starts is where a comma and nothing but white space stands in front of it. -/
theorem favicon_last {favicon xs ys u : List UInt8} (hplain : Plain (cString favicon))
    (hu : Spells (.members [(ascii "favicon", .string (cString favicon))]) u)
    (h : xs ++ 44 :: faviconText favicon = ys ++ 44 :: u) : xs = ys := by
  have hkey : Plain (ascii "favicon") := (plain_key _ (by simp)).1
  obtain ⟨hcount, a, more, ha, rfl⟩ := hu.string_member hkey hplain
  obtain ⟨hcount', -⟩ := (Spells.lastMember (spells_faviconText hplain)).string_member hkey hplain
  obtain ⟨rest, hrest⟩ : ∃ rest, faviconText favicon = 34 :: rest := ⟨_, rfl⟩
  rw [hrest] at h hcount'
  have hquote {zs : List UInt8} (hzs : zs.count 34 = 0) : 34 ∉ zs := List.count_eq_zero.mp hzs
  -- both sides have four quotes behind the comma, so that none is left for what stands between
  rcases List.append_eq_append_iff.mp h with ⟨zs, hys, hzs⟩ | ⟨zs, hxs, hzs⟩
  · cases zs with
    | nil => rw [hys, List.append_nil]
    | cons z zs =>
      obtain ⟨rfl, htail⟩ := List.cons.inj hzs
      have hnone : zs.count 34 = 0 := by
        have hsum : (34 :: rest).count 34 = (zs ++ 44 :: (a ++ 34 :: more)).count 34 :=
          congrArg (List.count 34) htail
        rw [hcount', List.count_append, List.count_cons_of_ne (by decide), hcount] at hsum
        omega
      have hempty : [] ++ 34 :: rest = (zs ++ 44 :: a) ++ 34 :: more := by
        rw [List.append_assoc, List.cons_append]
        exact htail
      have hnil := eq_of_first List.not_mem_nil
        (by simp [hquote hnone, hquote ha.count_quote]) hempty
      simp at hnil
  · cases zs with
    | nil => rw [hxs, List.append_nil]
    | cons z zs =>
      obtain ⟨rfl, htail⟩ := List.cons.inj hzs
      have hnone : zs.count 34 = 0 := by
        have hsum : (a ++ 34 :: more).count 34 = (zs ++ 44 :: 34 :: rest).count 34 :=
          congrArg (List.count 34) htail
        rw [hcount, List.count_append, List.count_cons_of_ne (by decide), hcount'] at hsum
        omega
      have hfront : a ++ 34 :: more = (zs ++ [44]) ++ 34 :: rest := by
        rw [List.append_assoc]
        exact htail
      have heq := eq_of_first (hquote ha.count_quote) (by simp [hquote hnone]) hfront
      have hspace := ha 44 (by simp [heq])
      cases hspace

/-- A response that stands for the value of its fields has a description that is JSON. -/
theorem description_spells (h : StatusPlain r) {d : Json}
    (hall : Spells (.padded (statusJson r d)) (responseText r)) :
    Spells (.padded d) (cString r.description) := by
  set L := (responseText r).length with hL
  have hlength : L = (responseText r).length := rfl
  rw [responseText_eq] at hlength
  simp only [List.length_cons, List.length_append] at hlength
  obtain ⟨b, hb, hscan⟩ := hall.scans (L+4) [] breaks_nil (by omega)
  -- up to the description the text is read as what it was made of
  have hopen (cs : List UInt8) : behind 125 (versionText r ++ cs) = none :=
    behind_ne (show isSpace 34 = false by decide) (by decide) _
  rw [List.append_nil, List.append_nil, responseText_eq, scanValue_members (L+3) (hopen _)] at hscan
  obtain ⟨⟨ms, rest⟩, hmembers, hobject⟩ := Option.map_eq_some_iff.mp hscan
  simp only [statusJson, Prod.mk.injEq, Json.object.injEq, List.cons_append, List.nil_append] at hobject
  obtain ⟨rfl, rfl⟩ := hobject
  have hplayers := scanMembers_next (spells_versionText h) (show _ ≤ L+2 by omega) hmembers
  have hdescription := scanMembers_next (spells_playersText r) (show _ ≤ L+1 by omega) hplayers
  obtain ⟨rest1, hvalue, hbehind⟩ := scanMembers_value plain_description hdescription
  obtain ⟨a, t, ha, hsplit, ht⟩ := (scansSound L).value _ _ _ hvalue
  suffices hdesc : ∃ c, Spaces c ∧ cString r.description = a ++ (t ++ c) by
    obtain ⟨c, hc, hdesc⟩ := hdesc
    exact hdesc ▸ .padded ha ht hc
  cases hfavicon : r.favicon with
  | none =>
    rw [behindDescription, hfavicon] at hsplit
    rcases hbehind with ⟨-, hend⟩ | ⟨more, -, hmore⟩
    · obtain ⟨c, hc, rfl⟩ := behind_sound hend
      refine ⟨c, hc, brace_last hb ?_⟩
      rw [hsplit]
      simp
    · obtain ⟨_, -, hempty⟩ := (scansSound L).members _ _ _ hmore
      rw [hfavicon] at hempty
      cases hempty
  | some favicon =>
    rw [behindDescription, hfavicon] at hsplit
    rcases hbehind with ⟨hnone, -⟩ | ⟨more, hcomma, hmore⟩
    · rw [hfavicon] at hnone
      cases hnone
    · obtain ⟨c, hc, rfl⟩ := behind_sound hcomma
      obtain ⟨u, rfl, hu⟩ := (scansSound L).members _ _ _ hmore
      rw [hfavicon] at hu
      refine ⟨c, hc, favicon_last (h.favicon favicon hfavicon) hu (brace_last hb ?_)⟩
      rw [List.append_assoc, List.cons_append]
      refine hsplit.trans ?_
      simp

theorem responseText_json_iff (h : StatusPlain r) (d : Json) :
    parse (responseText r) = some (statusJson r d) ↔ parse (cString r.description) = some d := by
  rw [parse_iff, parse_iff, validUtf8_response_iff h]
  exact and_congr_right fun _ => ⟨description_spells h, spells_responseText h⟩

theorem nulFree_number (n : BitVec 32) : 0 ∉ ascii n.toInt.repr := by
  change 0 ∉ ascii (toString n.toInt)
  have hdigits (k : ℕ) : 0 ∉ ascii k.repr := fun h =>
    absurd ((ascii_repr_digits k).1.2 0 h) (by decide)
  cases n.toInt with
  | ofNat k => exact hdigits k
  | negSucc k =>
    rw [ascii_toString_negSucc, List.mem_cons, not_or]
    exact ⟨by decide, hdigits (k+1)⟩

theorem responseText_nulFree (r : Response) : 0 ∉ responseText r := by
  have hkeys : ∀ key ∈ ["version", "name", "protocol", "players", "max", "online", "description",
      "favicon"], 0 ∉ ascii key := fun key hkey hzero =>
    absurd ((plain_key key hkey).1 0 hzero).2.1 (by decide)
  simp only [List.forall_mem_cons, List.not_mem_nil, false_imp_iff, implies_true, and_true] at hkeys
  rw [responseText_eq]
  simp only [versionText, playersText, nameText, numberText, memberText, objectText, stringText,
    behindDescription, faviconText]
  cases r.favicon <;> simp [hkeys, zero_not_mem_cString, nulFree_number]

/-- The response that is written for a status packet is a text of the object that is made of the
fields of the packet and a description `d`, and of nothing else, if and only if the description string
of the packet is a text of `d`. Another string may still complete it to a text of some other object. -/
theorem status_response_json_iff (env : EncodeEnv) (pkt : McprPacket) (n : UInt64) (d : Json)
    (hid : pkt.id = .stCbResponse) (h : StatusPlain pkt.data.status.response) (hn : n ≠ 0)
    (hexit : (mcprEncodePacket env pkt).exit = .ret n) :
    ∃ text, (mcprEncodePacket env pkt).objects.written =
      numberBytes .stCbResponse ++ (mcprEncodeVarint (BitVec.ofNat 32 text.length) ++ text) ∧
      (parse text = some (statusJson pkt.data.status.response d) ↔
        parse (cString pkt.data.status.response.description) = some d) := by
  refine ⟨responseText pkt.data.status.response, ?_, responseText_json_iff h d⟩
  have hself := (cString_eq_self_iff _).mpr (responseText_nulFree pkt.data.status.response)
  have hpayload : payload env pkt = stringBytes (responseText pkt.data.status.response) := by
    simp only [payload, hid]
  rw [(mcprEncodePacket_written env pkt n hn hexit).1, encodedBytes, hid, hpayload, stringBytes, strlen,
    hself]
  rfl

/-- The message of the day that `net_init` makes is shown to whoever asks for the status. -/
theorem message_of_the_day_shown :
    ∃ motd text, netInitMotd = some motd ∧
      (mcprEncodePacket default (statusResponse motd)).objects.written =
        numberBytes .stCbResponse ++ (mcprEncodeVarint (BitVec.ofNat 32 text.length) ++ text) ∧
      parse text = some (statusJson (statusResponse motd).data.status.response
        (.object [(ascii "text", .string (ascii "A bloody stronk server."))])) := by
  have hparse : parse (cString initialMotd) =
      some (.object [(ascii "text", .string (ascii "A bloody stronk server."))]) := by
    have htext : cString initialMotd = 123 :: 34 :: (ascii "text" ++ 34 :: 58 :: 34 ::
        (ascii "A bloody stronk server." ++ [34, 125])) := by decide +kernel
    rw [htext]
    exact (parse_member_iff (by decide +kernel) (by decide +kernel)).mpr
      ⟨by decide +kernel, by decide +kernel⟩
  have hplain : StatusPlain (statusResponse initialMotd).data.status.response :=
    ⟨by decide +kernel, by decide +kernel, (fun _ h => by cases h), (fun _ h => by cases h)⟩
  obtain ⟨text, hwritten, hiff⟩ := status_response_json_iff default (statusResponse initialMotd) 131 _
    rfl hplain (by decide +kernel) (by decide +kernel)
  exact ⟨initialMotd, text, by decide +kernel, hwritten, hiff.mpr hparse⟩

end Property

end Stronk.Mcpr
