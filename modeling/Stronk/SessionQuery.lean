import Stronk.McprCrypto
import Stronk.UrlQuery

/-! The question that is put to the session server (`mapi_minecraft_has_joined`): whether a player
of some name has joined under some hash. -/
namespace Stronk.Mapi
open Mcpr UrlQuery

section Model

/-- What the format in `mapi_minecraft_has_joined` comes to; the address is not in it. -/
def hasJoinedUrl (username serverIdHash : List UInt8) : List UInt8 :=
  ascii "https://sessionserver.mojang.com/session/minecraft/hasJoined?username=" ++ username ++
    ascii "&serverId=" ++ serverIdHash

/-- The size of the array that it is printed to. -/
def urlSize (username serverIdHash ip : List UInt8) : ℕ :=
  serverIdHash.length+84+username.length+ip.length+1

end Model

section Property

/-- Hexadecimal digits, with a sign in front or without. -/
def IsServerHash (hash : List UInt8) : Prop :=
  ∃ digits, (hash = digits ∨ hash = ascii "-" ++ digits) ∧ ∀ d ∈ digits, (UrlQuery.hexDigit d).isSome = true

/-- The query has the two parameters and their values, and it fits with its terminator. -/
structure AsksRight (username serverIdHash ip : List UInt8) : Prop where
  query : parseQuery (hasJoinedUrl username serverIdHash) =
    [(ascii "username", username), (ascii "serverId", serverIdHash)]
  fits : (hasJoinedUrl username serverIdHash).length+1 ≤ urlSize username serverIdHash ip

end Property

section Hash

theorem hexDigit_ne {c : UInt8} (h : (UrlQuery.hexDigit c).isSome = true) :
    c ≠ 35 ∧ c ≠ 37 ∧ c ≠ 38 := by
  have hnone : (UrlQuery.hexDigit 35).isSome = false ∧ (UrlQuery.hexDigit 37).isSome = false ∧
      (UrlQuery.hexDigit 38).isSome = false := by decide
  refine ⟨?_, ?_, ?_⟩
  · rintro rfl
    exact absurd (hnone.1.symm.trans h) (by decide)
  · rintro rfl
    exact absurd (hnone.2.1.symm.trans h) (by decide)
  · rintro rfl
    exact absurd (hnone.2.2.symm.trans h) (by decide)

theorem IsServerHash.verbatim {hash : List UInt8} (h : IsServerHash hash) : Verbatim hash := by
  obtain ⟨digits, hhash, hdigits⟩ := h
  have hall : ∀ c ∈ hash, c ≠ 35 ∧ c ≠ 37 ∧ c ≠ 38 := by
    intro c hc
    rcases hhash with rfl | rfl
    · exact hexDigit_ne (hdigits c hc)
    · rcases List.mem_cons.mp hc with rfl | hc
      · decide
      · exact hexDigit_ne (hdigits c hc)
  constructor
  · intro c hc
    exact ⟨(hall c hc).1, (hall c hc).2.2⟩
  · apply unescaped_of_not_mem
    intro hm
    exact (hall 37 hm).2.1 rfl

theorem lowerHexDigit_isSome :
    ∀ n < 16, (UrlQuery.hexDigit (lowerHexDigit n)).isSome = true := by decide

/-- What the server asks with is such a hash. -/
theorem mcprCryptoStringifySha1_isServerHash (digest : Vector UInt8 20) :
    IsServerHash (mcprCryptoStringifySha1 digest) := by
  have hpairs (bytes : List UInt8) :
      ∀ d ∈ bytes.flatMap hexPair, (UrlQuery.hexDigit d).isSome = true := by
    intro d hd
    obtain ⟨byte, -, hd⟩ := List.mem_flatMap.mp hd
    have hlt := byte.toNat_lt
    rcases List.mem_cons.mp hd with rfl | hd
    · exact lowerHexDigit_isSome _ (by omega)
    · rw [List.mem_singleton] at hd
      rw [hd]
      exact lowerHexDigit_isSome _ (by omega)
  unfold mcprCryptoStringifySha1
  split
  · exact ⟨_, .inr rfl, hpairs _⟩
  · exact ⟨_, .inl rfl, hpairs _⟩

end Hash

section Query

theorem hasJoinedUrl_fits (username serverIdHash ip : List UInt8) :
    (hasJoinedUrl username serverIdHash).length+1 ≤ urlSize username serverIdHash ip := by
  have hbase : (ascii "https://sessionserver.mojang.com/session/minecraft/hasJoined?username=").length
      = 70 := by decide
  have hname : (ascii "&serverId=").length = 10 := by decide
  simp only [hasJoinedUrl, List.length_append, hbase, hname, urlSize]
  omega

/-- The two parameters are read back exactly if the name can stand in a query as it is. -/
theorem hasJoinedUrl_query_iff (username : List UInt8) {serverIdHash : List UInt8}
    (hhash : IsServerHash serverIdHash) : parseQuery (hasJoinedUrl username serverIdHash) =
      [(ascii "username", username), (ascii "serverId", serverIdHash)] ↔ Verbatim username := by
  have hurl : hasJoinedUrl username serverIdHash =
      ascii "https://sessionserver.mojang.com/session/minecraft/hasJoined" ++ 63 ::
        (ascii "username" ++ 61 :: (username ++ 38 :: (ascii "serverId" ++ 61 :: serverIdHash))) := by
    have hbase : ascii "https://sessionserver.mojang.com/session/minecraft/hasJoined?username=" =
        ascii "https://sessionserver.mojang.com/session/minecraft/hasJoined" ++ 63 ::
          (ascii "username" ++ [61]) := by decide
    have hname : ascii "&serverId=" = 38 :: (ascii "serverId" ++ [61]) := by decide
    simp only [hasJoinedUrl, hbase, hname, List.append_assoc, List.cons_append, List.nil_append]
  have hbase35 : 35 ∉ ascii "https://sessionserver.mojang.com/session/minecraft/hasJoined" := by
    decide +kernel
  have hbase63 : 63 ∉ ascii "https://sessionserver.mojang.com/session/minecraft/hasJoined" := by
    decide +kernel
  rw [hurl]
  apply parseQuery_pair_iff hbase35 hbase63 _ _ hhash.verbatim
  · exact plainName_of_not_mem (by decide) (by decide) (by decide) (by decide)
  · exact plainName_of_not_mem (by decide) (by decide) (by decide) (by decide)

/-- The session server is asked about the right player if and only if nothing in the name has a
meaning in a URL: it is not escaped. -/
theorem asks_right_iff (username serverIdHash ip : List UInt8) (hhash : IsServerHash serverIdHash) :
    AsksRight username serverIdHash ip ↔ Verbatim username := by
  rw [← hasJoinedUrl_query_iff username hhash]
  exact ⟨fun h => h.query, fun h => ⟨h, hasJoinedUrl_fits _ _ _⟩⟩

/-- The hash of a client by the name of `jeb_`. -/
theorem jeb_isServerHash : IsServerHash (ascii "-7c9d5b0044c130109a5d7b5fb5c317c02b4e28c1") := by
  refine ⟨ascii "7c9d5b0044c130109a5d7b5fb5c317c02b4e28c1", .inr ?_, ?_⟩
  · decide +kernel
  · decide +kernel

theorem jeb_asked_right : AsksRight (ascii "jeb_")
    (ascii "-7c9d5b0044c130109a5d7b5fb5c317c02b4e28c1") (ascii "localhost") := by
  apply (asks_right_iff _ _ _ jeb_isServerHash).mpr
  exact ⟨by decide +kernel, unescaped_of_not_mem (by decide +kernel)⟩

/-- A client that gives its name as `jeb_&serverId=0` asks for another player, under a hash of its
own. -/
theorem other_player_asked : ¬ AsksRight (ascii "jeb_&serverId=0")
    (ascii "-7c9d5b0044c130109a5d7b5fb5c317c02b4e28c1") (ascii "localhost") := by
  intro h
  -- the ampersand ends the name
  have hverbatim := (hasJoinedUrl_query_iff _ jeb_isServerHash).mp h.query
  exact hverbatim.ampersand (by decide +kernel)

end Query

end Stronk.Mapi
