/-
Stealth payments: the secret a sender and a receiver share, the key a payment
goes to, and its private key. The points and numbers go through strings of
bytes of fixed sizes.
-/
import Mathlib.Algebra.Module.Basic
import Mathlib.Data.ZMod.Basic
import Mathlib.Tactic.Ring
import Pinkcoin.Smsg.Address

namespace Pinkcoin

open CScript (leBytes leNat length_leBytes)

/-! ## Numbers of OpenSSL -/

/-- `BN_num_bits`. -/
def bnNumBits (bn : Nat) : Nat := if bn = 0 then 0 else bn.log2 + 1

/-- `BN_num_bytes`. -/
def bnNumBytes (bn : Nat) : Nat := (bnNumBits bn + 7) / 8

/-- `BN_bn2bin`: the bytes without zeros in front. -/
def bn2bin (bn : Nat) : List UInt8 := (leBytes (bnNumBytes bn) bn).reverse

theorem length_bn2bin (bn : Nat) : (bn2bin bn).length = bnNumBytes bn := by
  rw [bn2bin, List.length_reverse, length_leBytes]

/-- The bytes of a number that has exactly `n` of them. -/
def toOctets (n bn : Nat) : Option (Bytes n) :=
  if h : bnNumBytes bn = n then some ⟨bn2bin bn, by rw [length_bn2bin, h]⟩ else none

theorem bnNumBytes_eq_succ {bn k : Nat} : bnNumBytes bn = k + 1 ↔ 256 ^ k ≤ bn ∧ bn < 256 ^ (k + 1) := by
  have hpow : ∀ j, 256 ^ j = 2 ^ (8 * j) := fun j => by rw [Nat.pow_mul]
  by_cases hzero : bn = 0
  · subst hzero
    have hpos : 0 < 256 ^ k := Nat.pow_pos (by decide)
    have hnone : bnNumBytes 0 = 0 := rfl
    rw [hnone]
    omega
  · rw [hpow, hpow, ← Nat.le_log2 hzero, ← Nat.log2_lt hzero, bnNumBytes, bnNumBits, if_neg hzero]
    omega

theorem lt_pow_bnNumBytes (bn : Nat) : bn < 256 ^ bnNumBytes bn := by
  cases hbytes : bnNumBytes bn with
  | zero =>
    have hzero : bn = 0 := by
      by_contra hne
      rw [bnNumBytes, bnNumBits, if_neg hne] at hbytes
      omega
    rw [hzero]
    decide
  | succ k => exact (bnNumBytes_eq_succ.mp hbytes).2

/-- A number is read back. -/
theorem beNat_bn2bin (bn : Nat) : beNat (bn2bin bn) = bn := by
  rw [beNat, bn2bin, List.reverse_reverse, leNat_leBytes, Nat.mod_eq_of_lt (lt_pow_bnNumBytes bn)]

theorem beNat_cons (b : UInt8) (vch : List UInt8) : beNat (b :: vch) = beNat vch + 256 ^ vch.length * b.toNat := by
  rw [beNat, beNat, List.reverse_cons]
  have happend : ∀ l : List UInt8, leNat (l ++ [b]) = leNat l + 256 ^ l.length * b.toNat := by
    intro l
    induction l with
    | nil => simp [leNat]
    | cons a l ih =>
      show a.toNat + 256 * leNat (l ++ [b]) = a.toNat + 256 * leNat l + 256 ^ (l.length + 1) * b.toNat
      rw [ih, Nat.pow_succ]
      ring
  rw [happend, List.length_reverse]

theorem bnNumBytes_of_toOctets {n bn : Nat} {vch : Bytes n} (h : toOctets n bn = some vch) : bnNumBytes bn = n := by
  unfold toOctets at h
  split at h
  next hbytes => exact hbytes
  next => cases h

theorem bn2bin_of_toOctets {n bn : Nat} {vch : Bytes n} (h : toOctets n bn = some vch) : bn2bin bn = vch.toList := by
  unfold toOctets at h
  split at h
  next hbytes =>
    obtain rfl := Option.some.inj h
    rfl
  next => cases h

/-- Bytes without zeros in front are written again. -/
theorem toOctets_beNat {n : Nat} (vch : Bytes (n + 1)) (hhead : vch.head ≠ 0) : toOctets (n + 1) (beNat vch.toList) = some vch := by
  obtain ⟨_ | ⟨b, rest⟩, hlength⟩ := vch
  · cases hlength
  · have hrest : rest.length = n := Nat.succ.inj hlength
    have hb : b.toNat ≠ 0 := fun h => hhead (UInt8.toNat_inj.mp h)
    have hlt : beNat (b :: rest) < 256 ^ (n + 1) := by
      have := leNat_lt (b :: rest).reverse
      rwa [List.length_reverse, List.length_cons, hrest] at this
    have hle : 256 ^ n ≤ beNat (b :: rest) := by
      rw [beNat_cons, hrest]
      exact (Nat.le_mul_of_pos_right _ (Nat.pos_of_ne_zero hb)).trans (Nat.le_add_left _ _)
    have hbytes : bnNumBytes (beNat (b :: rest)) = n + 1 := bnNumBytes_eq_succ.mpr ⟨hle, hlt⟩
    have hsize : n + 1 = (b :: rest).reverse.length := by rw [List.length_reverse, hlength]
    have hwritten : bn2bin (beNat (b :: rest)) = b :: rest := by
      rw [bn2bin, hbytes, beNat, hsize, leBytes_leNat, List.reverse_reverse]
    exact (dif_pos hbytes).trans (congrArg some (Subtype.ext hwritten))

/-! ## The curve -/

/-- The order of secp256k1. -/
def secp256k1Order : Nat := 0xFFFFFFFFFFFFFFFFFFFFFFFFFFFFFFFEBAAEDCE6AF48A03BBFD25E8CD0364141

/-- The functions of the crypto library, on the points of the curve: the base
point, the compressed form of a point and its inverse, and SHA-256. -/
structure ECGroup (G : Type) where
  generator : G
  point2oct : G → List UInt8
  oct2point : List UInt8 → Option G
  sha256 : List UInt8 → Bytes 32

namespace ECGroup

variable {G : Type} [AddCommGroup G] (E : ECGroup G)

/-- What is used of the curve: the order of the base point, and that a point
that is not at infinity has a compressed form of 33 bytes. -/
structure Lawful : Prop where
  order : secp256k1Order • E.generator = 0
  length : ∀ P, P ≠ 0 → (E.point2oct P).length = 33
  head : ∀ P, P ≠ 0 → (E.point2oct P).head? = some 2 ∨ (E.point2oct P).head? = some 3
  decode : ∀ P, P ≠ 0 → E.oct2point (E.point2oct P) = some P

/-- `EC_POINT_bn2point`. -/
def bn2point (bn : Nat) : Option G := E.oct2point (bn2bin bn)

/-- `EC_POINT_point2bn`, compressed. -/
def point2bn (P : G) : Nat := beNat (E.point2oct P)

/-! ## The functions -/

abbrev ec_secret_size : Nat := 32
abbrev ec_compressed_size : Nat := 33

/-- `SecretToPublicKey`. -/
def secretToPublicKey (secret : Bytes 32) : Option (Bytes 33) :=
  toOctets ec_compressed_size (E.point2bn (beNat secret.toList • E.generator))

/-- The compressed form of a multiple of a public key. -/
def sharedPoint (secret : Bytes 32) (pubkey : List UInt8) : Option (Bytes 33) := do
  let Q ← E.bn2point (beNat pubkey)
  toOctets ec_compressed_size (E.point2bn (beNat secret.toList • Q))

/-- `StealthSecret`: the shared secret, and the key the payment goes to. -/
def stealthSecret (secret : Bytes 32) (pubkey pkSpend : List UInt8) : Option (Bytes 32 × Bytes 33) := do
  let vchOutQ ← E.sharedPoint secret pubkey
  let sharedSOut := E.sha256 vchOutQ.toList
  let C := beNat sharedSOut.toList • E.generator
  let R ← E.bn2point (beNat pkSpend)
  let pkOut ← toOctets ec_compressed_size (E.point2bn (R + C))
  pure (sharedSOut, pkOut)

/-- `StealthSharedToSecretSpend`. -/
def stealthSharedToSecretSpend (sharedS spendSecret : Bytes 32) : Option (Bytes 32) :=
  let bnSpend := (beNat spendSecret.toList + beNat sharedS.toList) % secp256k1Order
  if bnSpend = 0 then none else toOctets ec_secret_size bnSpend

/-- `StealthSecretSpend`. -/
def stealthSecretSpend (scanSecret : Bytes 32) (ephemPubkey : List UInt8) (spendSecret : Bytes 32) : Option (Bytes 32) := do
  let vchOutP ← E.sharedPoint scanSecret ephemPubkey
  stealthSharedToSecretSpend (E.sha256 vchOutP.toList) spendSecret

/-! ## Payments and their keys -/

/-- **A payment is spendable**: sender and receiver agree on the secret they
share and the key the payment goes to, and both functions find its private
key. `d` and `f` are the receiver's scan and spend keys, `e` is the sender's. -/
def Spendable (d f e : Bytes 32) : Prop :=
  ∃ Q R P shared pkOut secretOut, E.secretToPublicKey d = some Q ∧ E.secretToPublicKey f = some R ∧
    E.secretToPublicKey e = some P ∧ E.stealthSecret e Q.toList R.toList = some (shared, pkOut) ∧
    E.stealthSecret d P.toList R.toList = some (shared, pkOut) ∧
    E.stealthSecretSpend d P.toList f = some secretOut ∧ stealthSharedToSecretSpend shared f = some secretOut ∧
    E.secretToPublicKey secretOut = some pkOut

/-- The number `c` of a payment: the hash of the point both sides know. -/
def sharedNumber (d e : Bytes 32) : Nat :=
  beNat (E.sha256 (E.point2oct ((beNat d.toList * beNat e.toList) • E.generator))).toList

variable {E} {d f e : Bytes 32} {P : G}

/-- The compressed form of a point that is not at infinity. -/
theorem Lawful.exists_octets (h : E.Lawful) (hP : P ≠ 0) : ∃ vch : Bytes 33, vch.toList = E.point2oct P ∧ vch.head ≠ 0 := by
  obtain ⟨vch, hvch⟩ : ∃ vch : Bytes 33, vch.toList = E.point2oct P := ⟨⟨E.point2oct P, h.length P hP⟩, rfl⟩
  refine ⟨vch, hvch, ?_⟩
  intro hzero
  have hhead : (E.point2oct P).head? = some vch.head := by
    rw [← hvch]
    obtain ⟨_ | ⟨b, rest⟩, hlength⟩ := vch
    · cases hlength
    · rfl
  rcases h.head P hP with htwo | hthree
  · rw [hhead, hzero] at htwo
    exact absurd (Option.some.inj htwo) (by decide)
  · rw [hhead, hzero] at hthree
    exact absurd (Option.some.inj hthree) (by decide)

/-- A point that is not at infinity is written with 33 bytes, and read again. -/
theorem Lawful.written (h : E.Lawful) (hP : P ≠ 0) : ∃ vch : Bytes 33, vch.toList = E.point2oct P ∧
    toOctets ec_compressed_size (E.point2bn P) = some vch ∧ E.bn2point (beNat vch.toList) = some P := by
  obtain ⟨vch, hvch, hhead⟩ := h.exists_octets hP
  have hwritten := toOctets_beNat vch hhead
  refine ⟨vch, hvch, ?_, ?_⟩
  · rw [point2bn, ← hvch]
    exact hwritten
  · rw [bn2point, bn2bin_of_toOctets hwritten, hvch, h.decode P hP]

/-- The point both sides know is the same for both. -/
theorem sharedPoint_eq {secret : Bytes 32} {vch vch' : Bytes 33} (hread : E.bn2point (beNat vch.toList) = some P)
    (hwritten : toOctets ec_compressed_size (E.point2bn (beNat secret.toList • P)) = some vch') :
    E.sharedPoint secret vch.toList = some vch' := by
  rw [sharedPoint, hread]
  exact hwritten

/-- Multiples of the base point go by the order. -/
theorem Lawful.mod_smul (h : E.Lawful) (n : Nat) : (n % secp256k1Order) • E.generator = n • E.generator := by
  conv_rhs => rw [← Nat.mod_add_div n secp256k1Order, add_smul, Nat.mul_comm, mul_smul, h.order, smul_zero, add_zero]

/-- The private key is found exactly where it has 32 bytes without a zero in
front. -/
theorem of_stealthSharedToSecretSpend {sharedS spendSecret secretOut : Bytes 32}
    (h : stealthSharedToSecretSpend sharedS spendSecret = some secretOut) :
    256 ^ 31 ≤ (beNat spendSecret.toList + beNat sharedS.toList) % secp256k1Order ∧
      beNat secretOut.toList = (beNat spendSecret.toList + beNat sharedS.toList) % secp256k1Order := by
  simp only [stealthSharedToSecretSpend] at h
  by_cases hzero : (beNat spendSecret.toList + beNat sharedS.toList) % secp256k1Order = 0
  · rw [if_pos hzero] at h
    cases h
  · rw [if_neg hzero] at h
    constructor
    · exact (bnNumBytes_eq_succ.mp (bnNumBytes_of_toOctets h)).1
    · rw [← bn2bin_of_toOctets h, beNat_bn2bin]

theorem exists_stealthSharedToSecretSpend {sharedS spendSecret : Bytes 32}
    (h : 256 ^ 31 ≤ (beNat spendSecret.toList + beNat sharedS.toList) % secp256k1Order) :
    ∃ secretOut, stealthSharedToSecretSpend sharedS spendSecret = some secretOut := by
  have hlt : (beNat spendSecret.toList + beNat sharedS.toList) % secp256k1Order < 256 ^ 32 :=
    (Nat.mod_lt _ (by decide)).trans (by decide)
  have hbytes : bnNumBytes ((beNat spendSecret.toList + beNat sharedS.toList) % secp256k1Order) = ec_secret_size :=
    bnNumBytes_eq_succ.mpr ⟨h, hlt⟩
  have hne : (beNat spendSecret.toList + beNat sharedS.toList) % secp256k1Order ≠ 0 := by omega
  exact ⟨_, (if_neg hne).trans (dif_pos hbytes)⟩

/-- **Stealth payments are spendable by their owner** exactly where the sum of
the spend secret and the shared number has no zero byte in front. -/
theorem spendable_iff (h : E.Lawful) (hd : beNat d.toList • E.generator ≠ 0) (hf : beNat f.toList • E.generator ≠ 0)
    (he : beNat e.toList • E.generator ≠ 0) (hshared : (beNat d.toList * beNat e.toList) • E.generator ≠ 0)
    (hout : (beNat f.toList + E.sharedNumber d e) • E.generator ≠ 0) :
    E.Spendable d f e ↔ 256 ^ 31 ≤ (beNat f.toList + E.sharedNumber d e) % secp256k1Order := by
  obtain ⟨Q, hQ, hQwritten, hQread⟩ := h.written hd
  obtain ⟨R, hR, hRwritten, hRread⟩ := h.written hf
  obtain ⟨P, hP, hPwritten, hPread⟩ := h.written he
  obtain ⟨S, hS, hSwritten, -⟩ := h.written hshared
  obtain ⟨pkOut, hpkOut, hpkWritten, -⟩ := h.written hout
  have hnumber : beNat (E.sha256 S.toList).toList = E.sharedNumber d e := by rw [hS, sharedNumber]
  have hsender : E.sharedPoint e Q.toList = some S := by
    refine sharedPoint_eq hQread ?_
    rw [← mul_smul, Nat.mul_comm]
    exact hSwritten
  have hreceiver : E.sharedPoint d P.toList = some S := by
    refine sharedPoint_eq hPread ?_
    rw [← mul_smul]
    exact hSwritten
  have hpays : ∀ secret pubkey, E.sharedPoint secret pubkey = some S →
      E.stealthSecret secret pubkey R.toList = some (E.sha256 S.toList, pkOut) := by
    intro secret pubkey hpoint
    rw [stealthSecret, hpoint]
    simp only [Option.bind_eq_bind, Option.bind_some, hRread, hnumber]
    rw [← add_smul, hpkWritten]
    rfl
  constructor
  · intro hspendable
    obtain ⟨Q', R', P', shared, pkOut', secretOut, hQ', hR', -, hsend, -, -, hspend, -⟩ := hspendable
    obtain rfl := Option.some.inj (hQwritten.symm.trans hQ')
    obtain rfl := Option.some.inj (hRwritten.symm.trans hR')
    have hshare := Option.some.inj ((hpays e _ hsender).symm.trans hsend)
    rw [← (Prod.mk.inj hshare).1] at hspend
    rw [← hnumber]
    exact (of_stealthSharedToSecretSpend hspend).1
  · intro hle
    rw [← hnumber] at hle
    obtain ⟨secretOut, hsecret⟩ := exists_stealthSharedToSecretSpend hle
    refine ⟨Q, R, P, E.sha256 S.toList, pkOut, secretOut, hQwritten, hRwritten, hPwritten, hpays e _ hsender,
      hpays d _ hreceiver, ?_, hsecret, ?_⟩
    · rw [stealthSecretSpend, hreceiver]
      exact hsecret
    · rw [secretToPublicKey, (of_stealthSharedToSecretSpend hsecret).2, hnumber, h.mod_smul]
      exact hpkWritten

end ECGroup

/-! ## A key with a zero byte in front -/

namespace StealthSample

/-- The 32 bytes of a number. -/
def secretOf (n : Nat) : Bytes 32 := ⟨(leBytes 32 n).reverse, by rw [List.length_reverse, length_leBytes]⟩

theorem beNat_secretOf {n : Nat} (h : n < 256 ^ 32) : beNat (secretOf n).toList = n := by
  show beNat (leBytes 32 n).reverse = n
  rw [beNat, List.reverse_reverse, leNat_leBytes, Nat.mod_eq_of_lt h]

/-- A group of the order of the curve, each point with a number, and a hash
that is always 5. -/
def group : ECGroup (ZMod secp256k1Order) where
  generator := 1
  point2oct P := if P = 0 then [0] else 2 :: (secretOf P.val).toList
  oct2point vch := if vch.head? = some 2 then some ((beNat vch.tail : Nat) : ZMod secp256k1Order) else none
  sha256 _ := secretOf 5

instance : NeZero secp256k1Order := ⟨by decide⟩

theorem lawful : group.Lawful where
  order := by
    show secp256k1Order • (1 : ZMod secp256k1Order) = 0
    rw [nsmul_eq_mul, ZMod.natCast_self, zero_mul]
  length := by
    intro P hP
    show (if P = 0 then [0] else 2 :: (secretOf P.val).toList).length = 33
    rw [if_neg hP, List.length_cons, List.Vector.toList_length]
  head := by
    intro P hP
    refine .inl ?_
    show (if P = 0 then [0] else 2 :: (secretOf P.val).toList).head? = some 2
    rw [if_neg hP, List.head?_cons]
  decode := by
    intro P hP
    have hpoint : group.point2oct P = 2 :: (secretOf P.val).toList := if_neg hP
    have hlt : P.val < 256 ^ 32 := (ZMod.val_lt P).trans (by decide)
    rw [hpoint]
    show some ((beNat (secretOf P.val).toList : Nat) : ZMod secp256k1Order) = some P
    rw [beNat_secretOf hlt, ZMod.natCast_zmod_val]

theorem multiple_ne_zero {n : Nat} (hpos : 0 < n) (hlt : n < secp256k1Order) : n • group.generator ≠ 0 := by
  show n • (1 : ZMod secp256k1Order) ≠ 0
  rw [nsmul_eq_mul, mul_one]
  intro hzero
  exact Nat.not_dvd_of_pos_of_lt hpos hlt ((ZMod.natCast_eq_zero_iff _ _).mp hzero)

theorem sharedNumber_eq (d e : Bytes 32) : group.sharedNumber d e = 5 := beNat_secretOf (by decide)

end StealthSample

open StealthSample in
/-- A spend key of 2^255. -/
theorem ECGroup.spendable_iff_sample : group.Spendable (secretOf 2) (secretOf (2 ^ 255)) (secretOf 3) := by
  have h2 : beNat (secretOf 2).toList = 2 := beNat_secretOf (by decide)
  have h3 : beNat (secretOf 3).toList = 3 := beNat_secretOf (by decide)
  have hf : beNat (secretOf (2 ^ 255)).toList = 2 ^ 255 := beNat_secretOf (by decide)
  refine (ECGroup.spendable_iff lawful ?_ ?_ ?_ ?_ ?_).mpr ?_
  · rw [h2]
    exact multiple_ne_zero (by decide) (by decide)
  · rw [hf]
    exact multiple_ne_zero (by decide) (by decide)
  · rw [h3]
    exact multiple_ne_zero (by decide) (by decide)
  · rw [h2, h3]
    exact multiple_ne_zero (by decide) (by decide)
  · rw [hf, sharedNumber_eq]
    exact multiple_ne_zero (by decide) (by decide)
  · rw [hf, sharedNumber_eq]
    decide

open StealthSample in
/-- **A payment that is not spendable**: with a spend key of 7 and a shared
number of 5 the private key is 12, which has 31 zero bytes in front. -/
theorem ECGroup.not_spendable_short :
    (beNat (secretOf 7).toList + group.sharedNumber (secretOf 2) (secretOf 3)) % secp256k1Order = 12 ∧
      ECGroup.stealthSharedToSecretSpend (secretOf 5) (secretOf 7) = none ∧
      ¬ group.Spendable (secretOf 2) (secretOf 7) (secretOf 3) := by
  have h7 : beNat (secretOf 7).toList = 7 := beNat_secretOf (by decide)
  have hnone : ECGroup.stealthSharedToSecretSpend (secretOf 5) (secretOf 7) = none := by decide +kernel
  refine ⟨by rw [h7, sharedNumber_eq]; decide, hnone, ?_⟩
  intro hspendable
  obtain ⟨Q, R, P, shared, pkOut, secretOut, -, -, -, hsend, -, -, hspend, -⟩ := hspendable
  have hshared : shared = secretOf 5 := by
    simp only [ECGroup.stealthSecret, Option.bind_eq_bind, Option.bind_eq_some_iff] at hsend
    obtain ⟨_, -, _, -, _, -, hpure⟩ := hsend
    exact (Prod.mk.inj (Option.some.inj hpure)).1.symm
  rw [hshared, hnone] at hspend
  cases hspend

end Pinkcoin
