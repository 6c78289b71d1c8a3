import Stronk.UrlQuery

/-! JSON texts: bytes of UTF-8 on the one side, values on the other. A string is the bytes that it
stands for once its escapes are resolved. -/
namespace JsonText
open UrlQuery

inductive Json
  | null
  | bool (b : Bool)
  | number (text : List UInt8)
  | string (text : List UInt8)
  | array (elements : List Json)
  | object (members : List (List UInt8 × Json))

section Utf8

/-- Where a reader stands: between two characters, or in one that still takes `more` bytes behind
the next, which has to be from `low` to `high` and is never an ASCII one. -/
inductive Utf8State
  | between
  | inside (more : ℕ) (low high : UInt8) (ascii : 0x80 ≤ low)
  deriving DecidableEq

def utf8First (c : UInt8) : Option Utf8State :=
  if c < 0x80 then some .between
  else if c < 0xC2 then none
  else if c < 0xE0 then some (.inside 0 0x80 0xBF (by decide))
  else if c = 0xE0 then some (.inside 1 0xA0 0xBF (by decide))
  else if c = 0xED then some (.inside 1 0x80 0x9F (by decide))
  else if c < 0xF0 then some (.inside 1 0x80 0xBF (by decide))
  else if c = 0xF0 then some (.inside 2 0x90 0xBF (by decide))
  else if c < 0xF4 then some (.inside 2 0x80 0xBF (by decide))
  else if c = 0xF4 then some (.inside 2 0x80 0x8F (by decide))
  else none

def afterByte : ℕ → Utf8State
  | 0 => .between
  | more+1 => .inside more 0x80 0xBF (by decide)

def utf8Step : Utf8State → UInt8 → Option Utf8State
  | .between, c => utf8First c
  | .inside more low high _, c =>
    if low ≤ c ∧ c ≤ high then some (afterByte more) else none

def utf8Run (s : Utf8State) (cs : List UInt8) : Option Utf8State := cs.foldlM utf8Step s

def ValidUtf8 (cs : List UInt8) : Prop := utf8Run .between cs = some .between

instance (cs : List UInt8) : Decidable (ValidUtf8 cs) := inferInstanceAs (Decidable (_ = _))

theorem utf8Run_append (s : Utf8State) (cs ds : List UInt8) :
    utf8Run s (cs ++ ds) = (utf8Run s cs).bind fun s => utf8Run s ds := by
  simp only [utf8Run, List.foldlM_append]
  rfl

theorem utf8Step_ascii {s s' : Utf8State} {c : UInt8} (hc : c < 0x80) (h : utf8Step s c = some s') :
    s = .between ∧ s' = .between := by
  cases s with
  | between =>
    rw [utf8Step, utf8First, if_pos hc] at h
    exact ⟨rfl, (Option.some.inj h).symm⟩
  | inside more low high hlow =>
    rw [utf8Step, if_neg] at h
    · cases h
    · intro hle
      exact absurd (UInt8.lt_of_lt_of_le hc (UInt8.le_trans hlow hle.1)) (UInt8.lt_irrefl c)

theorem utf8Run_ascii {cs : List UInt8} (h : ∀ c ∈ cs, c < 0x80) :
    utf8Run .between cs = some .between := by
  induction cs with
  | nil => rfl
  | cons c cs ih =>
    have hc : c < 0x80 := h c (List.mem_cons_self ..)
    have hstep : utf8Step .between c = some .between := by rw [utf8Step, utf8First, if_pos hc]
    rw [utf8Run, List.foldlM_cons, hstep]
    exact ih fun d hd => h d (List.mem_cons_of_mem _ hd)

/-- A text is as valid as what stands between ASCII characters in it. -/
theorem validUtf8_between_iff {before cs after : List UInt8} {c : UInt8}
    (hbefore : ∀ d ∈ before, d < 0x80) (hc : c < 0x80) (hafter : ∀ d ∈ after, d < 0x80) :
    ValidUtf8 (before ++ (cs ++ c :: after)) ↔ ValidUtf8 cs := by
  have hcons (s : Utf8State) : utf8Run s (c :: after) =
      (utf8Step s c).bind fun s => utf8Run s after := by
    rw [utf8Run, List.foldlM_cons]
    rfl
  rw [ValidUtf8, utf8Run_append, utf8Run_ascii hbefore, Option.bind_some, utf8Run_append, ValidUtf8]
  constructor
  · intro h
    obtain ⟨s, hs, hrest⟩ := Option.bind_eq_some_iff.mp h
    rw [hcons] at hrest
    obtain ⟨s', hs', -⟩ := Option.bind_eq_some_iff.mp hrest
    rw [hs, (utf8Step_ascii hc hs').1]
  · intro h
    rw [h, Option.bind_some, ← List.singleton_append, utf8Run_append]
    rw [utf8Run_ascii (by simpa using hc), Option.bind_some, utf8Run_ascii hafter]

def utf8Encode (codepoint : ℕ) : List UInt8 :=
  if codepoint < 0x80 then [.ofNat codepoint]
  else if codepoint < 0x800 then [.ofNat (0xC0+codepoint/64), .ofNat (0x80+codepoint%64)]
  else if codepoint < 0x10000 then
    [.ofNat (0xE0+codepoint/4096), .ofNat (0x80+codepoint/64%64), .ofNat (0x80+codepoint%64)]
  else
    [.ofNat (0xF0+codepoint/262144), .ofNat (0x80+codepoint/4096%64),
      .ofNat (0x80+codepoint/64%64), .ofNat (0x80+codepoint%64)]

end Utf8

section Strings

def simpleEscape (c : UInt8) : Option UInt8 :=
  if c = 34 ∨ c = 92 ∨ c = 47 then some c
  else if c = 98 then some 8
  else if c = 102 then some 12
  else if c = 110 then some 10
  else if c = 114 then some 13
  else if c = 116 then some 9
  else none

def hex4 : List UInt8 → Option (ℕ × List UInt8)
  | a :: b :: c :: d :: rest => do
    let a ← hexDigit a
    let b ← hexDigit b
    let c ← hexDigit c
    let d ← hexDigit d
    some (4096*a+256*b+16*c+d, rest)
  | _ => none

/-- What comes behind `\u`. The two halves of a pair stand for one character, and one of them alone
for none. -/
def unicodeEscape (cs : List UInt8) : Option (List UInt8 × List UInt8) :=
  (hex4 cs).bind fun (value, rest) =>
    if 0xD800 ≤ value ∧ value ≤ 0xDBFF then
      if rest.take 2 = [92, 117] then
        (hex4 (rest.drop 2)).bind fun (value2, rest) =>
          if 0xDC00 ≤ value2 ∧ value2 ≤ 0xDFFF then
            some (utf8Encode ((value-0xD800)*1024+(value2-0xDC00)+0x10000), rest)
          else none
      else none
    else if 0xDC00 ≤ value ∧ value ≤ 0xDFFF then none
    else some (utf8Encode value, rest)

/-- What comes behind a backslash. -/
def escape : List UInt8 → Option (List UInt8 × List UInt8)
  | [] => none
  | c :: rest =>
    if c = 117 then unicodeEscape rest else (simpleEscape c).map fun byte => ([byte], rest)

/-- A string from behind its opening quote on, and what comes behind the closing one. -/
def scanString : ℕ → List UInt8 → Option (List UInt8 × List UInt8)
  | 0, _ => none
  | _+1, [] => none
  | fuel+1, c :: rest =>
    if c = 34 then some ([], rest)
    else if c < 32 then none
    else if c = 92 then
      (escape rest).bind fun (bytes, rest) =>
        (scanString fuel rest).map fun (text, rest) => (bytes ++ text, rest)
    else (scanString fuel rest).map fun (text, rest) => (c :: text, rest)

theorem hex4_length {cs rest : List UInt8} {value : ℕ} (h : hex4 cs = some (value, rest)) :
    rest.length+4 = cs.length := by
  match cs with
  | a :: b :: c :: d :: cs =>
    simp only [hex4, Option.bind_eq_bind, Option.bind_eq_some_iff, Option.some.injEq,
      Prod.mk.injEq] at h
    obtain ⟨-, -, -, -, -, -, -, -, -, rfl⟩ := h
    rfl
  | [] => cases h
  | [_] => cases h
  | [_, _] => cases h
  | [_, _, _] => cases h

theorem utf8Encode_length_le (codepoint : ℕ) : (utf8Encode codepoint).length ≤ 4 := by
  unfold utf8Encode
  split_ifs <;> simp

/-- An escape is longer than what it stands for. -/
theorem escape_length {cs bytes rest : List UInt8} (h : escape cs = some (bytes, rest)) :
    bytes.length+rest.length ≤ cs.length := by
  match cs with
  | c :: cs =>
    rw [escape] at h
    split_ifs at h with hu
    · rw [unicodeEscape, Option.bind_eq_some_iff] at h
      obtain ⟨⟨value, rest1⟩, h1, h⟩ := h
      have hlength1 := hex4_length h1
      have hfew := utf8Encode_length_le value
      dsimp only at h
      split_ifs at h with hhigh hpair hlow
      · obtain ⟨⟨value2, rest2⟩, h2, h⟩ := Option.bind_eq_some_iff.mp h
        have hlength2 := hex4_length h2
        rw [List.length_drop] at hlength2
        dsimp only at h
        split_ifs at h with hlow2
        simp only [Option.some.injEq, Prod.mk.injEq] at h
        obtain ⟨rfl, rfl⟩ := h
        have hfew2 := utf8Encode_length_le ((value-0xD800)*1024+(value2-0xDC00)+0x10000)
        rw [List.length_cons]
        omega
      · cases h
        rw [List.length_cons]
        omega
    · obtain ⟨byte, -, hbyte⟩ := Option.map_eq_some_iff.mp h
      cases hbyte
      simp only [List.length_cons, List.length_nil]
      omega

/-- Characters that stand for themselves in a string. -/
def Plain (cs : List UInt8) : Prop := ∀ c ∈ cs, c ≠ 34 ∧ 32 ≤ c ∧ c ≠ 92

/-- What a string stands for is no longer than the string, and it is as long only if every
character of it stands for itself. -/
theorem scanString_length {fuel : ℕ} {cs text rest : List UInt8}
    (h : scanString fuel cs = some (text, rest)) :
    text.length+rest.length+1 ≤ cs.length ∧
      (text.length+rest.length+1 = cs.length → Plain text) := by
  induction fuel generalizing cs text with
  | zero => cases h
  | succ fuel ih =>
    match cs with
    | [] => cases h
    | c :: cs =>
      rw [scanString] at h
      split_ifs at h with hquote hcontrol hescape
      · cases h
        refine ⟨by simp, fun _ c hc => by cases hc⟩
      · obtain ⟨⟨bytes, rest1⟩, h1, h⟩ := Option.bind_eq_some_iff.mp h
        obtain ⟨⟨more, rest2⟩, h2, hmore⟩ := Option.map_eq_some_iff.mp h
        cases hmore
        have hlength1 := escape_length h1
        have hlength2 := (ih h2).1
        simp only [List.length_append, List.length_cons]
        exact ⟨by omega, fun heq => by omega⟩
      · obtain ⟨⟨more, rest2⟩, h2, hmore⟩ := Option.map_eq_some_iff.mp h
        cases hmore
        obtain ⟨hlength, hplain⟩ := ih h2
        simp only [List.length_cons]
        refine ⟨by omega, fun heq d hd => ?_⟩
        rcases List.mem_cons.mp hd with rfl | hd
        · exact ⟨hquote, UInt8.not_lt.mp hcontrol, hescape⟩
        · exact hplain (by omega) d hd

theorem scanString_plain {fuel : ℕ} {cs : List UInt8} (hplain : Plain cs) (hfuel : cs.length < fuel)
    (rest : List UInt8) : scanString fuel (cs ++ 34 :: rest) = some (cs, rest) := by
  induction cs generalizing fuel with
  | nil =>
    obtain ⟨fuel, rfl⟩ := Nat.exists_eq_succ_of_ne_zero (by omega : fuel ≠ 0)
    rw [List.nil_append, scanString, if_pos rfl]
  | cons c cs ih =>
    obtain ⟨fuel, rfl⟩ := Nat.exists_eq_succ_of_ne_zero (by omega : fuel ≠ 0)
    obtain ⟨hquote, hcontrol, hescape⟩ := hplain c (List.mem_cons_self ..)
    have hrest := ih (fun d hd => hplain d (List.mem_cons_of_mem _ hd))
      (by simpa using hfuel : cs.length < fuel)
    rw [List.cons_append, scanString, if_neg hquote, if_neg (UInt8.not_lt.mpr hcontrol),
      if_neg hescape, hrest]
    rfl

end Strings

section Values

def isSpace (c : UInt8) : Bool := c == 32 || c == 9 || c == 10 || c == 13

def skipSpace (cs : List UInt8) : List UInt8 := cs.dropWhile isSpace

def isDigit (c : UInt8) : Bool := 48 ≤ c && c ≤ 57

def skipDigits (cs : List UInt8) : Option (List UInt8) :=
  if cs.head?.any isDigit then some (cs.dropWhile isDigit) else none

def skipInteger (cs : List UInt8) : Option (List UInt8) :=
  if cs.head? = some 48 then some (cs.drop 1) else skipDigits cs

def skipFraction (cs : List UInt8) : Option (List UInt8) :=
  if cs.head? = some 46 then skipDigits (cs.drop 1) else some cs

def skipExponent (cs : List UInt8) : Option (List UInt8) :=
  if cs.head? = some 101 ∨ cs.head? = some 69 then
    if cs[1]? = some 43 ∨ cs[1]? = some 45 then skipDigits (cs.drop 2) else skipDigits (cs.drop 1)
  else some cs

def scanNumber (cs : List UInt8) : Option (Json × List UInt8) := do
  let rest ← skipInteger (if cs.head? = some 45 then cs.drop 1 else cs)
  let rest ← skipFraction rest
  let rest ← skipExponent rest
  some (.number (cs.take (cs.length-rest.length)), rest)

def scanName (cs : List UInt8) : Option (Json × List UInt8) :=
  if cs.take 4 = [110, 117, 108, 108] then some (.null, cs.drop 4)
  else if cs.take 4 = [116, 114, 117, 101] then some (.bool true, cs.drop 4)
  else if cs.take 5 = [102, 97, 108, 115, 101] then some (.bool false, cs.drop 5)
  else none

/-- What comes behind the character `c` and the white space in front of it. -/
def behind (c : UInt8) (cs : List UInt8) : Option (List UInt8) :=
  if (skipSpace cs).head? = some c then some ((skipSpace cs).drop 1) else none

def scanText (cs : List UInt8) : Option (List UInt8 × List UInt8) :=
  (behind 34 cs).bind fun rest => scanString rest.length rest

mutual

def scanValue : ℕ → List UInt8 → Option (Json × List UInt8)
  | 0, _ => none
  | fuel+1, cs =>
    match (skipSpace cs).head? with
    | none => none
    | some c =>
      if c = 34 then (scanText cs).map fun (text, rest) => (.string text, rest)
      else if c = 123 then
        match behind 125 ((skipSpace cs).drop 1) with
        | some rest => some (.object [], rest)
        | none =>
          (scanMembers fuel ((skipSpace cs).drop 1)).map fun (members, rest) => (.object members, rest)
      else if c = 91 then
        match behind 93 ((skipSpace cs).drop 1) with
        | some rest => some (.array [], rest)
        | none =>
          (scanElements fuel ((skipSpace cs).drop 1)).map fun (elements, rest) =>
            (.array elements, rest)
      else if c = 45 ∨ isDigit c = true then scanNumber (skipSpace cs)
      else scanName (skipSpace cs)

/-- The members of an object, up to its closing brace. -/
def scanMembers : ℕ → List UInt8 → Option (List (List UInt8 × Json) × List UInt8)
  | 0, _ => none
  | fuel+1, cs =>
    (scanText cs).bind fun (key, rest) =>
      (behind 58 rest).bind fun rest =>
        (scanValue fuel rest).bind fun (value, rest) =>
          match behind 44 rest with
          | some rest => (scanMembers fuel rest).map fun (more, rest) => ((key, value) :: more, rest)
          | none => (behind 125 rest).map fun rest => ([(key, value)], rest)

def scanElements : ℕ → List UInt8 → Option (List Json × List UInt8)
  | 0, _ => none
  | fuel+1, cs =>
    (scanValue fuel cs).bind fun (value, rest) =>
      match behind 44 rest with
      | some rest => (scanElements fuel rest).map fun (more, rest) => (value :: more, rest)
      | none => (behind 93 rest).map fun rest => ([value], rest)

end

/-- The value of a whole text. -/
def parse (cs : List UInt8) : Option Json :=
  if ValidUtf8 cs then
    (scanValue cs.length cs).bind fun (value, rest) => if skipSpace rest = [] then some value else none
  else none

theorem skipSpace_cons {c : UInt8} (h : isSpace c = false) (cs : List UInt8) :
    skipSpace (c :: cs) = c :: cs := by
  rw [skipSpace, List.dropWhile_cons_of_neg (by simp [h])]

theorem behind_self {c : UInt8} (h : isSpace c = false) (cs : List UInt8) :
    behind c (c :: cs) = some cs := by
  rw [behind, skipSpace_cons h, List.head?_cons, if_pos rfl]
  rfl

theorem behind_ne {c d : UInt8} (h : isSpace c = false) (hd : c ≠ d) (cs : List UInt8) :
    behind d (c :: cs) = none := by
  rw [behind, skipSpace_cons h, if_neg]
  simpa using hd

theorem behind_length {c : UInt8} {cs rest : List UInt8} (h : behind c cs = some rest) :
    rest.length+1 ≤ cs.length := by
  unfold behind at h
  split_ifs at h with hhead
  cases h
  have hle := (List.dropWhile_suffix isSpace (l := cs)).length_le
  have hne : skipSpace cs ≠ [] := by
    intro hnil
    rw [hnil] at hhead
    cases hhead
  have hpos := List.length_pos_iff.mpr hne
  rw [List.length_drop]
  unfold skipSpace at hpos ⊢
  omega

theorem scanText_quote (cs : List UInt8) : scanText (34 :: cs) = scanString cs.length cs := by
  rw [scanText, behind_self (by decide), Option.bind_some]

theorem scanText_plain {text : List UInt8} (h : Plain text) (rest : List UInt8) :
    scanText (34 :: (text ++ 34 :: rest)) = some (text, rest) := by
  rw [scanText_quote]
  apply scanString_plain h
  rw [List.length_append, List.length_cons]
  omega

theorem scanValue_text (fuel : ℕ) (cs : List UInt8) :
    scanValue (fuel+1) (34 :: cs) =
      (scanString cs.length cs).map fun p => (.string p.1, p.2) := by
  rw [scanValue, skipSpace_cons (by decide)]
  simp only [List.head?_cons, if_true, scanText_quote]

/-- What comes behind a member: another one or the end of the object. -/
def moreMembers (fuel : ℕ) (member : List UInt8 × Json) (rest : List UInt8) :
    Option (List (List UInt8 × Json) × List UInt8) :=
  match behind 44 rest with
  | some rest => (scanMembers fuel rest).map fun p => (member :: p.1, p.2)
  | none => (behind 125 rest).map fun rest => ([member], rest)

theorem scanMembers_text (fuel : ℕ) {key : List UInt8} (hkey : Plain key) (cs : List UInt8) :
    scanMembers (fuel+2) (34 :: (key ++ 34 :: 58 :: 34 :: cs)) =
      (scanString cs.length cs).bind fun p => moreMembers (fuel+1) (key, .string p.1) p.2 := by
  rw [scanMembers, scanText_plain hkey, Option.bind_some]
  simp only [behind_self (show isSpace 58 = false by decide), Option.bind_some, scanValue_text]
  cases scanString cs.length cs <;> rfl

/-- A member that is all there is to an object has something behind it. -/
theorem moreMembers_single {fuel : ℕ} {member member' : List UInt8 × Json} {rest rest' : List UInt8}
    (h : moreMembers fuel member rest = some ([member'], rest')) :
    member = member' ∧ 1 ≤ rest.length := by
  unfold moreMembers at h
  split at h
  · rename_i behindComma hcomma
    obtain ⟨⟨more, rest2⟩, -, hmore⟩ := Option.map_eq_some_iff.mp h
    have hlength := behind_length hcomma
    exact ⟨(List.cons.inj (Prod.mk.inj hmore).1).1, by omega⟩
  · obtain ⟨rest2, hbrace, hmore⟩ := Option.map_eq_some_iff.mp h
    have hlength := behind_length hbrace
    exact ⟨(List.cons.inj (Prod.mk.inj hmore).1).1, by omega⟩

theorem scanValue_object (fuel : ℕ) {c : UInt8} (hspace : isSpace c = false) (hc : c ≠ 125)
    (cs : List UInt8) :
    scanValue (fuel+1) (123 :: c :: cs) =
      (scanMembers fuel (c :: cs)).map fun p => (.object p.1, p.2) := by
  rw [scanValue, skipSpace_cons (by decide)]
  simp only [List.head?_cons, List.drop_succ_cons, List.drop_zero, behind_ne hspace hc]
  rfl

theorem scanValue_member (fuel : ℕ) {key : List UInt8} (hkey : Plain key) (cs : List UInt8) :
    scanValue (fuel+3) (123 :: 34 :: (key ++ 34 :: 58 :: 34 :: cs)) =
      ((scanString cs.length cs).bind fun p => moreMembers (fuel+1) (key, .string p.1) p.2).map
        fun p => (.object p.1, p.2) := by
  rw [scanValue_object (fuel+2) (by decide) (by decide), scanMembers_text fuel hkey]

/-- A string that is read as the text that it was made of leaves that text as it is. -/
theorem plain_of_scanned {fuel : ℕ} {text rest : List UInt8} (hrest : 1 ≤ rest.length)
    (h : scanString fuel (text ++ [34, 125]) = some (text, rest)) : Plain text := by
  obtain ⟨hle, hplain⟩ := scanString_length h
  rw [List.length_append] at hle hplain
  simp only [List.length_cons, List.length_nil] at hle hplain
  apply hplain
  omega

theorem validUtf8_member_iff {key text : List UInt8} (hascii : ∀ c ∈ key, c < 0x80) :
    ValidUtf8 (123 :: 34 :: (key ++ 34 :: 58 :: 34 :: (text ++ [34, 125]))) ↔ ValidUtf8 text := by
  have hassoc : 123 :: 34 :: (key ++ 34 :: 58 :: 34 :: (text ++ [34, 125])) =
      (123 :: 34 :: (key ++ [34, 58, 34])) ++ (text ++ 34 :: [125]) := by simp
  rw [hassoc]
  apply validUtf8_between_iff _ (by decide) (by simp)
  intro d hd
  simp only [List.mem_cons, List.mem_append, List.not_mem_nil, or_false] at hd
  rcases hd with rfl | rfl | hd | rfl | rfl | rfl
  · decide
  · decide
  · exact hascii d hd
  · decide
  · decide
  · decide

/-- An object of one member whose text is put between quotes as it is. -/
theorem parse_member_iff {key text : List UInt8} (hkey : Plain key) (hascii : ∀ c ∈ key, c < 0x80) :
    parse (123 :: 34 :: (key ++ 34 :: 58 :: 34 :: (text ++ [34, 125]))) =
      some (.object [(key, .string text)]) ↔ Plain text ∧ ValidUtf8 text := by
  have hvalid : ValidUtf8 (123 :: 34 :: (key ++ 34 :: 58 :: 34 :: (text ++ [34, 125]))) ↔
      ValidUtf8 text := validUtf8_member_iff hascii
  set all := 123 :: 34 :: (key ++ 34 :: 58 :: 34 :: (text ++ [34, 125])) with hall
  obtain ⟨fuel, hfuel⟩ : ∃ fuel, all.length = fuel+3 := by
    refine ⟨key.length+text.length+4, ?_⟩
    simp only [hall, List.length_cons, List.length_append, List.length_nil]
    omega
  have hscan := scanValue_member fuel hkey (text ++ [34, 125])
  rw [← hfuel, ← hall] at hscan
  constructor
  · intro h
    rw [parse] at h
    split_ifs at h with hutf8
    obtain ⟨⟨value, rest⟩, hvalue, hend⟩ := Option.bind_eq_some_iff.mp h
    have hwhole : value = .object [(key, .string text)] := by
      dsimp only at hend
      split_ifs at hend
      exact Option.some.inj hend
    rw [hscan, Option.map_eq_some_iff] at hvalue
    obtain ⟨⟨members, rest1⟩, hmembers, hobject⟩ := hvalue
    obtain ⟨⟨text', rest'⟩, hstring, hmore⟩ := Option.bind_eq_some_iff.mp hmembers
    -- the only member is the one whose string was read, and it is not the end of the text
    have hsingle : members = [(key, .string text)] :=
      Json.object.inj ((Prod.mk.inj hobject).1.trans hwhole)
    rw [hsingle] at hmore
    obtain ⟨hmember, hrest⟩ := moreMembers_single hmore
    obtain rfl : text' = text := Json.string.inj (Prod.mk.inj hmember).2
    exact ⟨plain_of_scanned hrest hstring, hvalid.mp hutf8⟩
  · rintro ⟨hplain, hutf8⟩
    rw [parse, if_pos (hvalid.mpr hutf8), hscan, scanString_plain hplain (by simp), Option.bind_some]
    simp only [moreMembers, behind_ne (show isSpace 125 = false by decide)
      (show (125 : UInt8) ≠ 44 by decide), behind_self (show isSpace 125 = false by decide)]
    rfl

end Values

end JsonText
