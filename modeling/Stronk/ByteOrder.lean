import Stronk.ByteParser
import Stronk.McprCodec

/-! What the codec puts on the wire, as a reader of the format sees it: integers are big-endian
whatever the host is. -/
namespace Stronk.Mcpr
open ByteMemory ByteParser

section Bytes

theorem leValue_append (as bs : List UInt8) :
    leValue (as ++ bs) = leValue as+256^as.length*leValue bs := by
  induction as with
  | nil => simp [leValue]
  | cons a as ih =>
    rw [List.cons_append, leValue, leValue, ih, List.length_cons, pow_succ]
    ring

theorem leValue_lt (bs : List UInt8) : leValue bs < 256^bs.length := by
  induction bs with
  | nil => simp [leValue]
  | cons b bs ih =>
    have hb := b.toNat_lt
    rw [leValue, List.length_cons, pow_succ]
    omega

theorem leValue_leBytes (n v : ℕ) (h : v < 256^n) : leValue (leBytes n v) = v := by
  induction n generalizing v with
  | zero =>
    have : v = 0 := by simpa using h
    simp [leBytes, leValue, this]
  | succ n ih =>
    rw [pow_succ] at h
    rw [leBytes, leValue, ih (v/256) (by omega), UInt8.toNat_ofNat']
    omega

theorem leBytes_leValue (bs : List UInt8) : leBytes bs.length (leValue bs) = bs := by
  induction bs with
  | nil => rfl
  | cons b bs ih =>
    have hb := b.toNat_lt
    have hq : (b.toNat+256*leValue bs)/256 = leValue bs := by omega
    rw [List.length_cons, leBytes, leValue, hq, ih]
    congr 1
    apply UInt8.toNat_inj.mp
    rw [UInt8.toNat_ofNat']
    omega

theorem beNat_reverse (bs : List UInt8) : beNat bs.reverse = leValue bs := by
  have h (cs : List UInt8) : beNat cs = leValue cs.reverse := by
    induction cs with
    | nil => rfl
    | cons c cs ih =>
      rw [beNat, ih, List.reverse_cons, leValue_append, List.length_reverse]
      simp only [leValue]
      ring
  rw [h, List.reverse_reverse]

/-- A value whose bytes are swapped on a little-endian host and left alone on a big-endian one
is stored with the most significant byte first. -/
theorem hostBytes_swapped (host : Endian) (n v w : ℕ) (hl : host = .little →
    w = leValue (leBytes n v).reverse) (hb : host = .big → w = v) :
    hostBytes host n w = (leBytes n v).reverse := by
  cases host with
  | little =>
    have h := leBytes_leValue (leBytes n v).reverse
    rw [List.length_reverse, leBytes_length] at h
    rw [hl rfl, hostBytes, h]
  | big => rw [hb rfl, hostBytes]

end Bytes

section Fixed

theorem mcprEncodeInt_bytes (host : Endian) (i : BitVec 32) :
    mcprEncodeInt host i = (leBytes 4 i.toNat).reverse := by
  apply hostBytes_swapped
  · rintro rfl
    have h := leValue_lt (leBytes 4 i.toNat).reverse
    rw [List.length_reverse, leBytes_length] at h
    rw [htonl, BitVec.toNat_ofNat, Nat.mod_eq_of_lt (by simpa using h)]
    rfl
  · rintro rfl
    rfl

theorem reads_mcprEncodeInt (host : Endian) (i : BitVec 32) :
    Reads (signed 4) (mcprEncodeInt host i) i.toInt := by
  have h := reads_signed (mcprEncodeInt host i) 4 (by simp [mcprEncodeInt, mcprIntSize])
  rwa [mcprEncodeInt_bytes, beNat_reverse, leValue_leBytes 4 _ i.isLt, BitVec.ofNat_toNat,
    BitVec.setWidth_eq, ← mcprEncodeInt_bytes host] at h

end Fixed

end Stronk.Mcpr
