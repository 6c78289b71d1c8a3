import Stronk.McprConnection

/-! What the server needs of OpenSSL, and the text of a SHA-1 digest (`mcpr/crypto.c`). -/
namespace Stronk.Mcpr

/-- AES-128-CFB8, RSA with PKCS #1 padding and SHA-1. The key and the initialisation vector of
the cipher are the same bytes. -/
structure Crypto (κ ρ : Type) where
  cipher : Cipher κ
  initCipher : List UInt8 → κ
  rsaSize : ρ → ℕ
  rsaPrivateDecrypt : ρ → List UInt8 → Option (List UInt8)
  i2dRsaPubkey : ρ → List UInt8
  sha1 : List UInt8 → Vector UInt8 20

/-- The loop of `mcpr_crypto_stringify_sha1` that negates, from the last byte to the first. -/
def negateLoop : Bool → List UInt8 → List UInt8
  | _, [] => []
  | true, byte :: bytes => (~~~byte+1) :: negateLoop (~~~byte = 0xFF) bytes
  | false, byte :: bytes => ~~~byte :: negateLoop false bytes

def lowerHexDigit (n : ℕ) : UInt8 := UInt8.ofNat (if n < 10 then 48+n else 87+n)

/-- `%02x` -/
def hexPair (byte : UInt8) : List UInt8 :=
  [lowerHexDigit (byte.toNat/16), lowerHexDigit (byte.toNat%16)]

/-- The sign is taken from the last byte. The loop that trims leading zeros moves a pointer
that nobody reads. -/
def mcprCryptoStringifySha1 (hash : Vector UInt8 20) : List UInt8 :=
  if hash[19] &&& 0x80 ≠ 0 then
    ascii "-" ++ (negateLoop true hash.toList.reverse).reverse.flatMap hexPair
  else hash.toList.flatMap hexPair

theorem negateLoop_length (carry : Bool) (bytes : List UInt8) :
    (negateLoop carry bytes).length = bytes.length := by
  induction bytes generalizing carry with
  | nil => cases carry <;> rfl
  | cons byte bytes ih => cases carry <;> simp [negateLoop, ih]

/-- The text fills at most the buffer that callers give, up to its terminator. -/
theorem mcprCryptoStringifySha1_length (hash : Vector UInt8 20) :
    (mcprCryptoStringifySha1 hash).length ≤ 41 := by
  have hhex (bytes : List UInt8) : (bytes.flatMap hexPair).length = 2*bytes.length := by
    induction bytes with
    | nil => rfl
    | cons byte bytes ih =>
      rw [List.flatMap_cons, List.length_append, ih, List.length_cons]
      simp only [hexPair, List.length_cons, List.length_nil]
      omega
  unfold mcprCryptoStringifySha1
  split
  · simp [hhex, negateLoop_length, ascii]
  · simp [hhex]

end Stronk.Mcpr
