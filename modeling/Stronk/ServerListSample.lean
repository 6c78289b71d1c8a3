import Stronk.EncodeBounds
import Stronk.NinUuid

/-! The player sample of a status response (`server_list_response_to_json`). The number of its entries
is compared with a variable of the inner block that is never set, and the text is built in a block
whose size is 256, or 512 once there was a long name. -/
namespace Stronk.Mcpr
open ByteMemory

section Model

structure SampleBuffer where
  mem : Mem
  size : ℕ

/-- A write that leaves the block has no meaning. -/
def SampleBuffer.put (buf : SampleBuffer) (off : ℕ) (bs : List UInt8) : Option SampleBuffer :=
  if off+bs.length ≤ buf.size then some { buf with mem := write buf.mem off bs } else none

/-- What lies past the old end had no meaning before, and has none now. -/
def SampleBuffer.realloc (buf : SampleBuffer) (size : ℕ) : SampleBuffer := { buf with size := size }

def bufSize : ℕ := 256

def playerSampleText (sample : McprPlayerSample) : List UInt8 :=
  ascii "\x7b\"name\":\"" ++ cString sample.playerName ++ ascii "\",\"id\":\"" ++
    ninuuidToString sample.uuid ++ ascii "\"\x7d"

/-- The loop, with the turns that are left and the players from `player_sample[i]` on; there is no
meaning to those past the end of the array. -/
def sampleLoop : ℕ → List McprPlayerSample → SampleBuffer → ℕ → Option (SampleBuffer × ℕ)
  | 0, _, buf, bufp => some (buf, bufp)
  | _+1, [], _, _ => none
  | left+1, sample :: rest, buf, bufp => do
    -- `buf_size` stays what it was, and nothing looks at what is left of the block
    let buf :=
      if bufSize < 19+strlen sample.playerName+3 then buf.realloc (bufSize+256) else buf
    let text := playerSampleText sample
    let buf ← buf.put bufp (text ++ [0])
    -- `i != online_players_size-1`, with the variable that is not set
    if left = 0 then some (buf, bufp+text.length)
    else do
      let buf ← buf.put (bufp+text.length) [44]
      sampleLoop left rest buf (bufp+text.length+1)

def sampleEnd (buf : SampleBuffer) (bufp : ℕ) : Option (List UInt8) := do
  let buf ← buf.put bufp [93]
  let buf ← buf.put (bufp+1) [0]
  some (cString (read buf.mem buf.size))

/-- The text of the sample, when the variable holds `onlinePlayersSize`. -/
def serverListSample (onlinePlayersSize : ℕ) (malloc : Mem) (playerSample : List McprPlayerSample) :
    Option (List UInt8) := do
  let buf ← SampleBuffer.put ⟨malloc, bufSize⟩ 0 [91]
  let (buf, bufp) ← sampleLoop onlinePlayersSize playerSample buf 1
  sampleEnd buf bufp

/-- The text of a status response with a sample. -/
def responseSampleText (r : Response) (sample : List UInt8) : List UInt8 :=
  let players := ascii (toString r.maxPlayers.toInt) ++ ascii ",\"online\":" ++
    ascii (toString r.onlinePlayers.toInt) ++ ascii ",\"sample\":" ++ sample
  ascii "\x7b\"version\":\x7b\"name\":\"" ++ cString r.versionName ++ ascii "\",\"protocol\":" ++
    ascii (toString r.protocolVersion.toInt) ++ ascii "\x7d,\"players\":\x7b\"max\":" ++ players ++
    ascii "\x7d,\"description\":" ++ cString r.description ++
    (match r.favicon with
      | some favicon => ascii ",\"favicon\":\"" ++ cString favicon ++ ascii "\"\x7d"
      | none => ascii "\x7d")

/-- There is none whose length, with one for the terminator, is not an `int`. -/
def printed (text : List UInt8) : Option (List UInt8) :=
  if text.length < int32Max then some text else none

/-- `server_list_response_to_json` with memory enough: `uninit` is in the variable that is not set,
`malloc` in the block. -/
def serverListResponseWith (uninit : UInt64) (malloc : Mem) (r : Response) : Option (List UInt8) :=
  match r.playerSample with
  | none => printed (responseText r)
  | some playerSample => do
    let sample ← serverListSample uninit.toNat malloc playerSample
    printed (responseSampleText r sample)

end Model

section Property

/-- The array of the entries of all players, in their order, with a comma between two of them. -/
def sampleText (playerSample : List McprPlayerSample) : List UInt8 :=
  [91] ++ List.intercalate [44] (playerSample.map playerSampleText) ++ [93]

/-- A name that the block is not made larger for. -/
def ShortName (sample : McprPlayerSample) : Prop := strlen sample.playerName ≤ 234

instance (sample : McprPlayerSample) : Decidable (ShortName sample) :=
  inferInstanceAs (Decidable (_ ≤ _))

/-- The bytes that entries take with a comma or a terminator each. -/
def entriesSize (playerSample : List McprPlayerSample) : ℕ :=
  (playerSample.map fun sample => (playerSampleText sample).length+1).sum

/-- The sizes that the block has are enough: what is written before the first long name fits in the
first one, and the whole text with its terminator in the last one. -/
structure SampleFits (playerSample : List McprPlayerSample) : Prop where
  before : 1+entriesSize (playerSample.takeWhile fun sample => ShortName sample) ≤ 256
  whole : (sampleText playerSample).length+1 ≤
    if ∀ sample ∈ playerSample, ShortName sample then 256 else 512

end Property

section Buffer

theorem zero_not_mem_playerSampleText (sample : McprPlayerSample) : 0 ∉ playerSampleText sample := by
  have huuid : 0 ∉ ninuuidToString sample.uuid := by
    rw [Uuid.ninuuidToString_long, ← cString_eq_self_iff]
    exact Uuid.ninuuidToString_terminated ..
  have hname := zero_not_mem_cString sample.playerName
  have h0 : 0 ∉ ascii "\x7b\"name\":\"" ∧ 0 ∉ ascii "\",\"id\":\"" ∧ 0 ∉ ascii "\"\x7d" := by
    decide +kernel
  simp only [playerSampleText, List.mem_append, not_or]
  exact ⟨⟨⟨⟨h0.1, hname⟩, h0.2.1⟩, huuid⟩, h0.2.2⟩

theorem SampleBuffer.put_bind_eq_some_iff {β : Type} {buf : SampleBuffer} {off : ℕ} {bs : List UInt8}
    {next : SampleBuffer → Option β} {x : β} : (buf.put off bs).bind next = some x ↔
      off+bs.length ≤ buf.size ∧ next ⟨write buf.mem off bs, buf.size⟩ = some x := by
  unfold put
  split_ifs with h
  · exact (and_iff_right h).symm
  · exact iff_of_false (by simp) (fun he => h he.1)

/-- The array is closed if the bracket and the terminator fit. -/
theorem sampleEnd_eq_some_iff {buf : SampleBuffer} {bufp : ℕ} {done text : List UInt8}
    (hread : read buf.mem bufp = done) (hnul : 0 ∉ done) :
    sampleEnd buf bufp = some text ↔ bufp+2 ≤ buf.size ∧ text = done ++ [93] := by
  have hclosed (h : bufp+2 ≤ buf.size) :
      cString (read (write (write buf.mem bufp [93]) (bufp+1) [0]) buf.size) = done ++ [93] := by
    obtain ⟨rest, hrest⟩ := Nat.exists_eq_add_of_le h
    have htwo : read (write (write buf.mem bufp [93]) (bufp+1) [0]) (bufp+2) = done ++ [93] ++ [0] :=
      calc read (write (write buf.mem bufp [93]) (bufp+1) [0]) (bufp+2)
          = read (write buf.mem bufp [93]) (bufp+1) ++ [0] := read_write_end _ (bufp+1) [0]
        _ = read buf.mem bufp ++ [93] ++ [0] := by rw [← read_write_end buf.mem bufp [93]]; rfl
        _ = done ++ [93] ++ [0] := by rw [hread]
    rw [hrest, read_add, htwo, List.append_assoc, List.singleton_append]
    exact cString_append_zero (by simp [hnul]) _
  unfold sampleEnd
  rw [Option.bind_eq_bind, SampleBuffer.put_bind_eq_some_iff, SampleBuffer.put_bind_eq_some_iff]
  simp only [List.length_singleton, Option.some.injEq]
  constructor
  · rintro ⟨-, hle, htext⟩
    exact ⟨hle, htext.symm.trans (hclosed hle)⟩
  · rintro ⟨hle, htext⟩
    exact ⟨by omega, hle, (hclosed hle).trans htext.symm⟩

end Buffer

section Loop

/-- The entries with a comma between two of them. -/
def sampleBody (playerSample : List McprPlayerSample) : List UInt8 :=
  List.intercalate [44] (playerSample.map playerSampleText)

theorem sampleBody_cons {sample : McprPlayerSample} {rest : List McprPlayerSample} (h : rest ≠ []) :
    sampleBody (sample :: rest) = playerSampleText sample ++ [44] ++ sampleBody rest := by
  cases rest with
  | nil => exact absurd rfl h
  | cons next rest => simp only [sampleBody, List.map_cons, List.intercalate_cons_cons]

theorem entriesSize_cons (sample : McprPlayerSample) (rest : List McprPlayerSample) :
    entriesSize (sample :: rest) = (playerSampleText sample).length+1+entriesSize rest := by
  simp only [entriesSize, List.map_cons, List.sum_cons]

/-- A comma behind every entry is one more than there are. -/
theorem entriesSize_eq {playerSample : List McprPlayerSample} (h : playerSample ≠ []) :
    entriesSize playerSample = (sampleBody playerSample).length+1 := by
  induction playerSample with
  | nil => exact absurd rfl h
  | cons sample rest ih =>
    rw [entriesSize_cons]
    by_cases hrest : rest = []
    · rw [hrest]
      simp [entriesSize, sampleBody]
    · rw [ih hrest, sampleBody_cons hrest]
      simp only [List.length_append, List.length_singleton]
      omega

theorem entriesSize_takeWhile_le (p : McprPlayerSample → Bool) (playerSample : List McprPlayerSample) :
    entriesSize (playerSample.takeWhile p) ≤ entriesSize playerSample := by
  unfold entriesSize
  apply List.Sublist.sum_le_sum
  · exact (List.takeWhile_sublist p).map _
  · intro n hn
    exact Nat.zero_le n

/-- The room that the entries from some on need in a block, from a place in it on. -/
structure Room (size bufp : ℕ) (playerSample : List McprPlayerSample) : Prop where
  before : bufp+entriesSize (playerSample.takeWhile fun sample => ShortName sample) ≤ size
  whole : bufp+(sampleBody playerSample).length+2 ≤
    if ∀ sample ∈ playerSample, ShortName sample then size else 512

/-- The size of the block when an entry is written. -/
def sizeFor (size : ℕ) (sample : McprPlayerSample) : ℕ := if ShortName sample then size else 512

theorem takeWhile_short_cons (sample : McprPlayerSample) (rest : List McprPlayerSample) :
    entriesSize ((sample :: rest).takeWhile fun sample => ShortName sample) =
      if ShortName sample then
        (playerSampleText sample).length+1+entriesSize (rest.takeWhile fun sample => ShortName sample)
      else 0 := by
  split_ifs with h
  · rw [List.takeWhile_cons_of_pos (by simpa using h), entriesSize_cons]
  · rw [List.takeWhile_cons_of_neg (by simpa using h)]
    rfl

theorem room_nil {size bufp : ℕ} : Room size bufp [] ↔ bufp+2 ≤ size := by
  constructor
  · intro h
    simpa [sampleBody] using h.whole
  · intro h
    exact ⟨by simp [entriesSize]; omega, by simpa [sampleBody] using h⟩

theorem room_last {size bufp : ℕ} (hbufp : bufp ≤ size) (sample : McprPlayerSample) :
    Room size bufp [sample] ↔ bufp+(playerSampleText sample).length+2 ≤ sizeFor size sample := by
  have hbody : sampleBody [sample] = playerSampleText sample := List.intercalate_singleton
  have hbefore := takeWhile_short_cons sample []
  constructor
  · intro h
    have hwhole := h.whole
    simp only [List.forall_mem_singleton, hbody] at hwhole
    exact hwhole
  · intro h
    unfold sizeFor at h
    refine ⟨?_, by simpa only [List.forall_mem_singleton, hbody] using h⟩
    rw [hbefore]
    split_ifs at h ⊢
    · simp only [List.takeWhile_nil, entriesSize, List.map_nil, List.sum_nil]
      omega
    · omega

/-- An entry with its terminator is where the next one starts. -/
theorem room_cons {size bufp : ℕ} (hbufp : bufp ≤ size) (sample : McprPlayerSample)
    {rest : List McprPlayerSample} (hrest : rest ≠ []) : Room size bufp (sample :: rest) ↔
      bufp+(playerSampleText sample).length+1 ≤ sizeFor size sample ∧
        Room (sizeFor size sample) (bufp+(playerSampleText sample).length+1) rest := by
  have hbefore := takeWhile_short_cons sample rest
  have hbody : (sampleBody (sample :: rest)).length =
      (playerSampleText sample).length+1+(sampleBody rest).length := by
    rw [sampleBody_cons hrest, List.length_append, List.length_append, List.length_singleton]
  -- after a long name the second size is the only one that counts
  have hle := entriesSize_takeWhile_le (fun sample => ShortName sample) rest
  rw [entriesSize_eq hrest] at hle
  by_cases hshort : ShortName sample
  · have hall : (∀ other ∈ sample :: rest, ShortName other) ↔ ∀ other ∈ rest, ShortName other := by
      simp [hshort]
    rw [if_pos hshort] at hbefore
    rw [sizeFor, if_pos hshort]
    constructor
    · rintro ⟨h1, h2⟩
      rw [hbefore] at h1
      rw [hbody, if_congr hall rfl rfl] at h2
      exact ⟨by omega, by omega, by omega⟩
    · rintro ⟨-, h1, h2⟩
      refine ⟨by omega, ?_⟩
      rw [hbody, if_congr hall rfl rfl]
      omega
  · have hall : ¬ ∀ other ∈ sample :: rest, ShortName other := by simp [hshort]
    rw [if_neg hshort] at hbefore
    rw [sizeFor, if_neg hshort]
    constructor
    · rintro ⟨-, h2⟩
      rw [hbody, if_neg hall] at h2
      refine ⟨by omega, by omega, ?_⟩
      rw [ite_self]
      omega
    · rintro ⟨-, -, h2⟩
      rw [ite_self] at h2
      refine ⟨by omega, ?_⟩
      rw [hbody, if_neg hall]
      omega

theorem realloc_for (buf : SampleBuffer) (sample : McprPlayerSample) :
    (if bufSize < 19+strlen sample.playerName+3 then buf.realloc (bufSize+256) else buf) =
      ⟨buf.mem, sizeFor buf.size sample⟩ := by
  have hiff : bufSize < 19+strlen sample.playerName+3 ↔ ¬ ShortName sample := by
    simp only [bufSize, ShortName]
    omega
  unfold sizeFor
  by_cases hshort : ShortName sample
  · rw [if_neg (fun h => hiff.mp h hshort), if_pos hshort]
  · rw [if_pos (hiff.mpr hshort), if_neg hshort]
    rfl

/-- What is left of a run is the rest of the array, as long as there is room for it. -/
theorem sampleLoop_end_eq_some_iff {rest : List McprPlayerSample} {buf : SampleBuffer} {bufp : ℕ}
    {done text : List UInt8} (hbufp : bufp ≤ buf.size) (hread : read buf.mem bufp = done)
    (hnul : 0 ∉ done) :
    ((sampleLoop rest.length rest buf bufp).bind fun q => sampleEnd q.1 q.2) = some text ↔
      Room buf.size bufp rest ∧ text = done ++ sampleBody rest ++ [93] := by
  induction rest generalizing buf bufp done with
  | nil =>
    rw [List.length_nil, sampleLoop, Option.bind_some, sampleEnd_eq_some_iff hread hnul, room_nil]
    simp [sampleBody]
  | cons sample rest ih =>
    have htext0 := zero_not_mem_playerSampleText sample
    have hentry : read (write buf.mem bufp (playerSampleText sample ++ [0]))
        (bufp+(playerSampleText sample).length) = done ++ playerSampleText sample := by
      rw [write_append, ← hread, ← read_write_end]
      apply (read_eq_iff _ _ _).mpr
      intro i hi
      exact write_outside _ _ _ (.inl hi)
    rw [List.length_cons, sampleLoop, realloc_for, Option.bind_eq_bind, Option.bind_assoc,
      SampleBuffer.put_bind_eq_some_iff]
    simp only [List.length_append, List.length_singleton]
    by_cases hrest : rest = []
    · -- the last entry has no comma, and the array is closed behind it
      rw [hrest, List.length_nil, if_pos rfl, Option.bind_some,
        sampleEnd_eq_some_iff hentry (by simp [hnul, htext0]), room_last hbufp]
      have hbody : sampleBody [sample] = playerSampleText sample := List.intercalate_singleton
      rw [hbody, ← and_assoc]
      apply and_congr_left
      intro
      dsimp only
      omega
    · -- the comma takes the place of the terminator
      rw [if_neg (by simpa using hrest), Option.bind_assoc, SampleBuffer.put_bind_eq_some_iff,
        room_cons hbufp sample hrest, sampleBody_cons hrest]
      have hcomma := read_write_end (write buf.mem bufp (playerSampleText sample ++ [0]))
        (bufp+(playerSampleText sample).length) [44]
      rw [hentry, List.length_singleton] at hcomma
      have hnul' : 0 ∉ done ++ playerSampleText sample ++ [44] := by simp [hnul, htext0]
      simp only [List.length_singleton, ← List.append_assoc]
      constructor
      · rintro ⟨-, hfits, h⟩
        obtain ⟨hroom, htext⟩ := (ih hfits hcomma hnul').mp h
        exact ⟨⟨hfits, hroom⟩, htext⟩
      · rintro ⟨⟨hfits, hroom⟩, htext⟩
        exact ⟨hfits, hfits, (ih hfits hcomma hnul').mpr ⟨hroom, htext⟩⟩

/-- Turns beyond the end of the array read what is not there. -/
theorem sampleLoop_past {turns : ℕ} {rest : List McprPlayerSample} (h : rest.length < turns)
    (buf : SampleBuffer) (bufp : ℕ) : sampleLoop turns rest buf bufp = none := by
  induction rest generalizing turns buf bufp with
  | nil =>
    obtain ⟨turns, rfl⟩ := Nat.exists_eq_succ_of_ne_zero (by simpa using h.ne')
    rfl
  | cons sample rest ih =>
    obtain ⟨turns, rfl⟩ := Nat.exists_eq_succ_of_ne_zero (Nat.ne_zero_of_lt h)
    rw [List.length_cons] at h
    rw [sampleLoop, Option.bind_eq_bind, Option.bind_eq_none_iff]
    intro buf1 h1
    rw [if_neg (by omega), Option.bind_eq_none_iff]
    intro buf2 h2
    exact ih (by omega) _ _

/-- Only as many players are looked at as there are turns. -/
theorem sampleLoop_take {turns : ℕ} {rest : List McprPlayerSample} (h : turns ≤ rest.length)
    (buf : SampleBuffer) (bufp : ℕ) :
    sampleLoop turns rest buf bufp = sampleLoop turns (rest.take turns) buf bufp := by
  induction rest generalizing turns buf bufp with
  | nil => rw [List.take_nil]
  | cons sample rest ih =>
    cases turns with
    | zero => rfl
    | succ turns =>
      rw [List.length_cons] at h
      simp only [List.take_succ_cons, sampleLoop, ih (show turns ≤ rest.length by omega)]

end Loop

section Sample

theorem sampleText_eq (playerSample : List McprPlayerSample) :
    sampleText playerSample = [91] ++ sampleBody playerSample ++ [93] := rfl

theorem sampleFits_iff (playerSample : List McprPlayerSample) :
    SampleFits playerSample ↔ Room 256 1 playerSample := by
  have hlength : (sampleText playerSample).length+1 = 1+(sampleBody playerSample).length+2 := by
    rw [sampleText_eq, List.length_append, List.length_append, List.length_singleton,
      List.length_singleton]
  constructor
  · rintro ⟨hbefore, hwhole⟩
    exact ⟨hbefore, hlength ▸ hwhole⟩
  · rintro ⟨hbefore, hwhole⟩
    exact ⟨hbefore, hlength ▸ hwhole⟩

/-- The sample is the array of the players up to what the variable holds, where that is in the array
and the array is in the block. -/
theorem serverListSample_eq_some_iff {turns : ℕ} {malloc : Mem} {playerSample : List McprPlayerSample}
    {text : List UInt8} : serverListSample turns malloc playerSample = some text ↔
      turns ≤ playerSample.length ∧ SampleFits (playerSample.take turns) ∧
        text = sampleText (playerSample.take turns) := by
  rw [serverListSample, Option.bind_eq_bind, SampleBuffer.put_bind_eq_some_iff]
  have hopen : read (write malloc 0 [91]) 1 = [91] := by
    have hread := read_write_same malloc 0 [91]
    rwa [shift_zero] at hread
  have hfits : 0+[(91 : UInt8)].length ≤ bufSize := by decide
  rw [and_iff_right hfits]
  by_cases hturns : turns ≤ playerSample.length
  · have hlength : (playerSample.take turns).length = turns := List.length_take_of_le hturns
    have hrun := @sampleLoop_end_eq_some_iff (playerSample.take turns) ⟨write malloc 0 [91], bufSize⟩ 1
      [91] text (by simp [bufSize]) hopen (by decide)
    rw [hlength, ← sampleLoop_take hturns] at hrun
    rw [and_iff_right hturns, sampleFits_iff, sampleText_eq]
    exact hrun
  · rw [sampleLoop_past (not_le.mp hturns)]
    exact iff_of_false (by simp) (fun h => hturns h.1)

theorem playerSampleText_length_pos (sample : McprPlayerSample) :
    1 ≤ (playerSampleText sample).length := by
  have hopen : (ascii "\x7b\"name\":\"").length = 9 := by decide
  simp only [playerSampleText, List.length_append, hopen]
  omega

/-- A shorter array has a shorter text. -/
theorem sampleText_take_length {turns : ℕ} {playerSample : List McprPlayerSample}
    (h : turns < playerSample.length) :
    (sampleText (playerSample.take turns)).length < (sampleText playerSample).length := by
  obtain ⟨next, rest, hdrop⟩ : ∃ next rest, playerSample.drop turns = next :: rest :=
    List.exists_cons_of_ne_nil (by simpa using h)
  have hall : playerSample ≠ [] := by
    rintro rfl
    simp at h
  have hsplit : entriesSize playerSample =
      entriesSize (playerSample.take turns)+entriesSize (playerSample.drop turns) := by
    conv_lhs => rw [← List.take_append_drop turns playerSample]
    simp only [entriesSize, List.map_append, List.sum_append]
  -- the first player that is left out has an entry of its own
  have hnext := playerSampleText_length_pos next
  rw [entriesSize_eq hall, hdrop, entriesSize_cons] at hsplit
  simp only [sampleText_eq, List.length_append, List.length_singleton]
  by_cases htake : playerSample.take turns = []
  · rw [htake] at hsplit ⊢
    simp only [sampleBody, List.map_nil, List.intercalate_nil, List.length_nil]
    unfold sampleBody at hsplit
    omega
  · rw [entriesSize_eq htake] at hsplit
    omega

end Sample

section Response

/-- The text around a sample can be told from it. -/
theorem responseSampleText_injective (r : Response) : Function.Injective (responseSampleText r) := by
  intro sample sample' h
  simp only [responseSampleText, List.append_assoc, List.append_cancel_left_eq] at h
  exact List.append_cancel_right h

theorem printed_eq_some_iff {text printedText : List UInt8} :
    printed text = some printedText ↔ text.length < int32Max ∧ printedText = text := by
  unfold printed
  split_ifs with h
  · rw [Option.some.injEq, eq_comm]
    exact (and_iff_right h).symm
  · exact iff_of_false (by simp) (fun hs => h hs.1)

/-- Without a sample it is the text that the packets are made with. -/
theorem serverListResponseWith_none (env : EncodeEnv) (uninit : UInt64) (malloc : Mem) (r : Response)
    (o : EncodeObjects) (hsample : r.playerSample = none) (hmalloc : env.malloc o.mallocs = true)
    {text : List UInt8} (h : serverListResponseWith uninit malloc r = some text) :
    ∃ o', (serverListResponseToJson env r).run o = (.ok (some text), o') := by
  rw [serverListResponseWith, hsample] at h
  obtain ⟨hshort, rfl⟩ := printed_eq_some_iff.mp h
  have hnone : r.playerSample.isSome = false := by rw [hsample, Option.isSome_none]
  exact ⟨_, serverListResponseToJson_some env r o hnone hshort hmalloc⟩

/-- The text of a response has all players in its sample, whatever is in the block, if and only if
the variable that is not set happens to hold their number and the block is never too small. -/
theorem sample_right_iff (uninit : UInt64) (malloc : Mem) (r : Response)
    (playerSample : List McprPlayerSample) (hsample : r.playerSample = some playerSample)
    (hsize : r.onlinePlayersSize.toNat = playerSample.length) :
    serverListResponseWith uninit malloc r = some (responseSampleText r (sampleText playerSample)) ↔
      uninit = r.onlinePlayersSize ∧ SampleFits playerSample ∧
        (responseSampleText r (sampleText playerSample)).length < int32Max := by
  have hresult (text : List UInt8) : serverListResponseWith uninit malloc r = some text ↔
      ∃ sample, serverListSample uninit.toNat malloc playerSample = some sample ∧
        text = responseSampleText r sample ∧ text.length < int32Max := by
    simp only [serverListResponseWith, hsample, Option.bind_eq_bind, Option.bind_eq_some_iff,
      printed_eq_some_iff]
    constructor
    · rintro ⟨sample, hs, hshort, rfl⟩
      exact ⟨sample, hs, rfl, hshort⟩
    · rintro ⟨sample, hs, rfl, hshort⟩
      exact ⟨sample, hs, hshort, rfl⟩
  rw [hresult]
  constructor
  · rintro ⟨sample, hs, htext, hshort⟩
    obtain ⟨hle, hfits, hsampleText⟩ := serverListSample_eq_some_iff.mp hs
    have hwhole : sampleText playerSample = sampleText (playerSample.take uninit.toNat) :=
      (responseSampleText_injective r htext).trans hsampleText
    have hall : uninit.toNat = playerSample.length := by
      by_contra hne
      have hlt := sampleText_take_length (lt_of_le_of_ne hle hne)
      rw [hwhole] at hlt
      exact lt_irrefl _ hlt
    rw [hall, List.take_length] at hfits
    exact ⟨UInt64.toNat_inj.mp (hall.trans hsize.symm), hfits, hshort⟩
  · rintro ⟨rfl, hfits, hshort⟩
    refine ⟨_, serverListSample_eq_some_iff.mpr ⟨hsize.le, ?_, ?_⟩, rfl, hshort⟩
    · rwa [hsize, List.take_length]
    · rw [hsize, List.take_length]

/-- A server with one player. -/
def oneOnline : Response :=
  { (default : Response) with
    versionName := ascii "1.10"
    protocolVersion := 210
    maxPlayers := 20
    onlinePlayers := 1
    description := ascii "\x7b\"text\":\"A bloody stronk server.\"\x7d"
    onlinePlayersSize := 1
    playerSample := some [⟨ascii "jeb_", ⟨.replicate 16 0x85⟩⟩] }

/-- One entry fits, and is there if the variable happens to hold 1. -/
theorem one_player_listed : serverListResponseWith 1 (ofList []) oneOnline =
    some (responseSampleText oneOnline (sampleText [⟨ascii "jeb_", ⟨.replicate 16 0x85⟩⟩])) := by
  apply (sample_right_iff 1 (ofList []) oneOnline [⟨ascii "jeb_", ⟨.replicate 16 0x85⟩⟩] rfl rfl).mpr
  exact ⟨rfl, ⟨by decide +kernel, by decide +kernel⟩, by decide +kernel⟩

/-- If it happens to hold 0 the player is not there. -/
theorem nobody_listed : ¬ ∀ uninit malloc r playerSample, r.playerSample = some playerSample →
    r.onlinePlayersSize.toNat = playerSample.length →
      serverListResponseWith uninit malloc r =
        some (responseSampleText r (sampleText playerSample)) := by
  intro hall
  have h := hall 0 (ofList []) oneOnline [⟨ascii "jeb_", ⟨.replicate 16 0x85⟩⟩] rfl rfl
  have hempty : serverListResponseWith 0 (ofList []) oneOnline =
      some (responseSampleText oneOnline (ascii "[]")) := by
    decide +kernel
  have hsample := responseSampleText_injective oneOnline (Option.some.inj (hempty.symm.trans h))
  have hlength := congrArg List.length hsample
  revert hlength
  decide +kernel

end Response

end Stronk.Mcpr
