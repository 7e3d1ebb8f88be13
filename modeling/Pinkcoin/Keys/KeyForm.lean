/-
Keys and the form their public key is written in: the form is kept in the
OpenSSL key and once more in a flag, which some operations forget.
-/
import Mathlib.Tactic.NormNum
import Pinkcoin.Lib.Runs
import Pinkcoin.Smsg.Address
import Pinkcoin.Types

namespace Pinkcoin.KeyForm

open Runs

/-! ## OpenSSL -/

/-- `point_conversion_form_t`. Zero is what reading the point at infinity
leaves. -/
inductive ConvForm
  | compressed
  | uncompressed
  | hybrid
  | zero
  deriving DecidableEq

/-- An `EC_KEY` of the curve. -/
structure EC_KEY (Point : Type) where
  priv_key : Option (Bytes 32)
  pub_key : Option Point
  conv_form : ConvForm

/-- `EC_KEY_new_by_curve_name`. -/
def EC_KEY.new {Point : Type} : EC_KEY Point := ⟨none, none, .uncompressed⟩

/-- The curve, and what OpenSSL reads and writes. -/
structure Secp (Point : Type) where
  isInfinity : Point → Bool
  /-- The public key of a secret. -/
  mul : Bytes 32 → Point
  /-- A secret that `EC_KEY_generate_key` can draw. -/
  inRange : Bytes 32 → Bool
  /-- `i2o_ECPublicKey`, nothing where it fails. -/
  i2o : ConvForm → Point → List UInt8
  /-- `o2i_ECPublicKey`: the point, and the form it is written in. -/
  o2i : List UInt8 → Option (Point × ConvForm)
  /-- `d2i_ECPrivateKey`: the secret, the public key, and the form that is
  written in, if it is there and not made from the secret. -/
  d2i : List UInt8 → Option (Bytes 32 × Point × Option ConvForm)
  /-- `EC_KEY_check_key`. -/
  check : Bytes 32 → Point → Bool
  /-- What `ECDSA_do_sign` can return for a secret and a hash. -/
  signs : Bytes 32 → Uint256 → Nat → Nat → Prop
  /-- The check in `ECDSA_SIG_recover_key_GFp` that the order times `R` is
  infinity. -/
  onOrder : Nat → Nat → Bool
  /-- The rest of `ECDSA_SIG_recover_key_GFp`, from `r`, `s`, the hash and
  `recid`. -/
  recover : Nat → Nat → Uint256 → Nat → Option Point

/-- **What is relied on**: points are written in 33 bytes where they are
compressed, differently in different forms, and read back in the form they are
written in; keys that are generated or checked are not infinity; and a public
key can be recovered from a signature. -/
structure Secp.Lawful {Point : Type} (ec : Secp Point) : Prop where
  length_i2o : ∀ form P, (ec.i2o form P).length = 33 ↔ form = .compressed ∧ ec.isInfinity P = false
  i2o_eq_nil : ∀ form P, ec.i2o form P = [] ↔ form = .zero
  i2o_eq : ∀ form form' P P', form ≠ .zero → form' ≠ .zero →
    (ec.i2o form P = ec.i2o form' P' ↔ P = P' ∧ (ec.isInfinity P = false → form = form'))
  o2i_form : ∀ vch P form, ec.o2i vch = some (P, form) → (vch.length = 33 ↔ form = .compressed ∧ ec.isInfinity P = false)
  mul_inRange : ∀ secret, ec.inRange secret = true → ec.isInfinity (ec.mul secret) = false
  check_finite : ∀ secret P, ec.check secret P = true → ec.isInfinity P = false
  signs_lt : ∀ secret hash r s, ec.signs secret hash r s → r < 2 ^ 256 ∧ s < 2 ^ 256
  signs_recover : ∀ secret hash r s, ec.signs secret hash r s →
    ∃ recid < 4, ec.onOrder r recid = true ∧ ec.recover r s hash recid = some (ec.mul secret)

/-- `ECDSA_SIG_recover_key_GFp`. -/
def Secp.recoverKey {Point : Type} (ec : Secp Point) (eckey : EC_KEY Point) (r s : Nat) (hash : Uint256) (recid : Nat)
    (check : Bool) : Option (EC_KEY Point) :=
  if check && !ec.onOrder r recid then none
  else (ec.recover r s hash recid).map fun Q => { eckey with pub_key := some Q }

/-! ## Keys -/

/-- `CKey`. -/
structure CKey (Point : Type) where
  pkey : EC_KEY Point
  fSet : Bool
  fCompressedPubKey : Bool

namespace CKey

variable {Point : Type} (ec : Secp Point) (k : CKey Point)

def isCompressed : Bool := k.fCompressedPubKey

def setCompressedPubKey : CKey Point :=
  { k with pkey := { k.pkey with conv_form := .compressed }, fCompressedPubKey := true }

/-- `Reset`, and a new key. -/
def reset : CKey Point := ⟨.new, false, false⟩

/-- `MakeNewKey`, with the secret that is drawn, if any. -/
def makeNewKey (drawn : Option (Bytes 32)) (fCompressed : Bool) : Except String Unit × CKey Point :=
  match drawn.filter ec.inRange with
  | none => (throw "CKey::MakeNewKey() : EC_KEY_generate_key failed", k)
  | some secret =>
    let k := { k with pkey := { k.pkey with priv_key := some secret, pub_key := some (ec.mul secret) } }
    let k := if fCompressed then k.setCompressedPubKey else k
    (pure (), { k with fSet := true })

def setPrivKey (vchPrivKey : List UInt8) : Bool × CKey Point :=
  match ec.d2i vchPrivKey with
  | none => (false, reset)
  | some (secret, P, form) =>
    if ec.check secret P then
      (true, { k with pkey := ⟨some secret, some P, form.getD k.pkey.conv_form⟩, fSet := true })
    else (false, reset)

def setSecret (vchSecret : List UInt8) (fCompressed : Bool) : Except String Bool × CKey Point :=
  let k := { k with pkey := .new }
  if hlength : vchSecret.length = 32 then
    let k := { k with pkey := { k.pkey with priv_key := some ⟨vchSecret, hlength⟩, pub_key := some (ec.mul ⟨vchSecret, hlength⟩) },
                      fSet := true }
    (pure true, if fCompressed || k.fCompressedPubKey then k.setCompressedPubKey else k)
  else (throw "CKey::SetSecret() : secret must be 32 bytes", k)

/-- `GetSecret`, of a key that has one. -/
def getSecret : Option (List UInt8 × Bool) := k.pkey.priv_key.map fun secret => (secret.toList, k.fCompressedPubKey)

def setPubKey (vchPubKey : List UInt8) : Bool × CKey Point :=
  match ec.o2i vchPubKey with
  | none => (false, reset)
  | some (P, form) =>
    let k := { k with pkey := { k.pkey with pub_key := some P, conv_form := form }, fSet := true }
    (true, if vchPubKey.length = 33 then k.setCompressedPubKey else k)

def getPubKey : Except String (List UInt8) :=
  match k.pkey.pub_key with
  | none => throw "CKey::GetPubKey() : i2o_ECPublicKey failed"
  | some P =>
    if ec.i2o k.pkey.conv_form P = [] then throw "CKey::GetPubKey() : i2o_ECPublicKey failed"
    else pure (ec.i2o k.pkey.conv_form P)

/-! ## Compact signatures -/

/-- The key of `SignCompact` that public keys are recovered into. -/
def keyRec : CKey Point :=
  let keyRec : CKey Point := { (reset : CKey Point) with fSet := true }
  if k.fCompressedPubKey then keyRec.setCompressedPubKey else keyRec

/-- The loop of `SignCompact` over the recovery ids. -/
def recIdLoop (r s : Nat) (hash : Uint256) : List Nat → Except String (Option Nat)
  | [] => pure none
  | i :: rest =>
    match ec.recoverKey k.keyRec.pkey r s hash i true with
    | none => recIdLoop r s hash rest
    | some pkey => do
      let vchRec ← { k.keyRec with pkey := pkey }.getPubKey ec
      let vchPubKey ← k.getPubKey ec
      if vchRec = vchPubKey then pure (some i) else recIdLoop r s hash rest

/-- `BN_bn2bin` into the end of 32 bytes. -/
def bytes32 (n : Nat) : List UInt8 := (CScript.leBytes 32 n).reverse

/-- `SignCompact`, with the signature that `ECDSA_do_sign` makes, if any. -/
def signCompact (hash : Uint256) (sig : Option (Nat × Nat)) : Except String (Bool × List UInt8) :=
  match sig with
  | none => pure (false, [])
  | some (r, s) =>
    if r < 2 ^ 256 ∧ s < 2 ^ 256 then do
      match ← k.recIdLoop ec r s hash (List.range 4) with
      | none => throw "CKey::SignCompact() : unable to construct recoverable key"
      | some nRecId =>
        let header := UInt8.ofNat (nRecId + 27 + if k.fCompressedPubKey then 4 else 0)
        pure (true, header :: (bytes32 r ++ bytes32 s))
    else pure (false, List.replicate 65 0)

/-- What the bytes of a compact signature say: the header, `r` and `s`. -/
def compactHeader (vchSig : List UInt8) : Nat := (vchSig.headD 0).toNat
def compactR (vchSig : List UInt8) : Nat := beNat ((vchSig.drop 1).take 32)
def compactS (vchSig : List UInt8) : Nat := beNat ((vchSig.drop 33).take 32)

/-- A compact signature that is looked at. -/
def WellFormed (vchSig : List UInt8) : Prop := vchSig.length = 65 ∧ 27 ≤ compactHeader vchSig ∧ compactHeader vchSig < 35

instance (vchSig : List UInt8) : Decidable (WellFormed vchSig) := inferInstanceAs (Decidable (_ ∧ _))

/-- The recovery id in the header. -/
def compactRecId (vchSig : List UInt8) : Nat :=
  if 31 ≤ compactHeader vchSig then compactHeader vchSig - 4 - 27 else compactHeader vchSig - 27

def setCompactSignature (hash : Uint256) (vchSig : List UInt8) : Bool × CKey Point :=
  if WellFormed vchSig then
    let k := { k with pkey := .new }
    let k := if 31 ≤ compactHeader vchSig then k.setCompressedPubKey else k
    match ec.recoverKey k.pkey (compactR vchSig) (compactS vchSig) hash (compactRecId vchSig) false with
    | none => (false, k)
    | some pkey => (true, { k with pkey := pkey, fSet := true })
  else (false, k)

end CKey

/-! ## The key store -/

/-- `KeyMap`. -/
abbrev KeyMap := Map CKeyID (List UInt8 × Bool)

namespace KeyMap

variable {Point : Type} (ec : Secp Point) (hash160 : List UInt8 → CKeyID) (mapKeys : KeyMap)

/-- `CBasicKeyStore::AddKey`, of a key that has a secret. -/
def addKey (key : CKey Point) : Except String KeyMap :=
  match key.getSecret with
  | none => throw "CKey::GetSecret() : EC_KEY_get0_private_key failed"
  | some (secret, fCompressed) => do
    let vchPubKey ← key.getPubKey ec
    pure (mapKeys.insert (hash160 vchPubKey) (secret, fCompressed))

/-- `CBasicKeyStore::GetKey`. -/
def getKey (address : CKeyID) (keyOut : CKey Point) : Bool × CKey Point :=
  match mapKeys.lookup address with
  | none => (false, keyOut)
  | some (secret, fCompressed) => (true, ((CKey.reset : CKey Point).setSecret ec secret fCompressed).2)

end KeyMap

/-! ## What is expected -/

namespace CKey

variable {Point : Type} (ec : Secp Point) (k : CKey Point)

/-- **A key is coherent**: it says that it is compressed exactly when its public
key is one of 33 bytes. -/
def Coherent : Prop := k.isCompressed = true ↔ ∃ vchPubKey, k.getPubKey ec = .ok vchPubKey ∧ vchPubKey.length = 33

/-- The form that the flag says. -/
def flagForm : ConvForm := if k.fCompressedPubKey then .compressed else .uncompressed

/-- The public key is written in the form that the flag says. -/
def InForm (P : Point) : Prop := k.pkey.conv_form ≠ .zero ∧ (ec.isInfinity P = false → k.pkey.conv_form = k.flagForm)

/-- **A key survives the key store.** -/
def Stored (hash160 : List UInt8 → CKeyID) : Prop :=
  ∃ vchPubKey, k.getPubKey ec = .ok vchPubKey ∧ ∀ (mapKeys : KeyMap) (keyOut : CKey Point),
    ∃ mapKeys', mapKeys.addKey ec hash160 k = .ok mapKeys' ∧
      ∃ key, mapKeys'.getKey ec (hash160 vchPubKey) keyOut = (true, key) ∧ key.getPubKey ec = .ok vchPubKey

/-- **A compact signature gives the public key back**, in any key object. -/
def Recovered (hash : Uint256) (r s : Nat) : Prop :=
  ∃ vchPubKey, k.getPubKey ec = .ok vchPubKey ∧ ∃ vchSig, k.signCompact ec hash (some (r, s)) = .ok (true, vchSig) ∧
    ∀ target : CKey Point, ∃ key, target.setCompactSignature ec hash vchSig = (true, key) ∧ key.getPubKey ec = .ok vchPubKey

end CKey

/-! ## Runs -/

/-- What is called on a key. -/
inductive KeyCall
  | reset
  | makeNewKey (drawn : Option (Bytes 32)) (fCompressed : Bool)
  | setPubKey (vchPubKey : List UInt8)
  | setSecret (vchSecret : List UInt8) (fCompressed : Bool)
  | setPrivKey (vchPrivKey : List UInt8)
  | setCompactSignature (hash : Uint256) (vchSig : List UInt8)
  | setCompressedPubKey

namespace KeyCall

variable {Point : Type} (ec : Secp Point)

/-- The key that a call leaves, whatever it returns or throws. -/
def run : KeyCall → CKey Point → CKey Point
  | reset, _ => CKey.reset
  | makeNewKey drawn fCompressed, k => (k.makeNewKey ec drawn fCompressed).2
  | setPubKey vchPubKey, k => (k.setPubKey ec vchPubKey).2
  | setSecret vchSecret fCompressed, k => (k.setSecret ec vchSecret fCompressed).2
  | setPrivKey vchPrivKey, k => (k.setPrivKey ec vchPrivKey).2
  | setCompactSignature hash vchSig, k => (k.setCompactSignature ec hash vchSig).2
  | setCompressedPubKey, k => k.setCompressedPubKey

/-- **When a call keeps a key coherent.** -/
def Keeps : KeyCall → CKey Point → Prop
  | reset, _ => True
  | makeNewKey drawn fCompressed, k =>
    (∃ secret, drawn = some secret ∧ ec.inRange secret = true) → fCompressed = false →
      (k.fCompressedPubKey = true ↔ k.pkey.conv_form = .compressed)
  | setPubKey vchPubKey, k => (ec.o2i vchPubKey).isSome = true → vchPubKey.length = 33 ∨ k.fCompressedPubKey = false
  | setSecret vchSecret fCompressed, k =>
    if hlength : vchSecret.length = 32 then
      fCompressed = true ∨ k.fCompressedPubKey = true → ec.isInfinity (ec.mul ⟨vchSecret, hlength⟩) = false
    else k.fCompressedPubKey = false
  | setPrivKey vchPrivKey, k => ∀ secret P form, ec.d2i vchPrivKey = some (secret, P, form) → ec.check secret P = true →
    (k.fCompressedPubKey = true ↔ form.getD k.pkey.conv_form = .compressed)
  | setCompactSignature hash vchSig, k => CKey.WellFormed vchSig →
    if 31 ≤ CKey.compactHeader vchSig then
      ∃ Q, ec.recover (CKey.compactR vchSig) (CKey.compactS vchSig) hash (CKey.compactRecId vchSig) = some Q ∧
        ec.isInfinity Q = false
    else k.fCompressedPubKey = false
  | setCompressedPubKey, k => ∃ P, k.pkey.pub_key = some P ∧ ec.isInfinity P = false

end KeyCall

/-- The objects that there are. -/
abbrev Objects (Point : Type) := Nat → Option (CKey Point)

/-- An object is made, or copied, or assigned, or something is called on it. The
copy constructor leaves the flag as it finds it. -/
inductive KeyEvent
  | construct (a : Nat)
  | call (a : Nat) (c : KeyCall)
  | copyConstruct (a b : Nat) (indeterminate : Bool)
  | assign (a b : Nat)

namespace KeyEvent

variable {Point : Type} (ec : Secp Point)

/-- `EC_KEY_dup` and `EC_KEY_copy` copy the key and its form. -/
def run : KeyEvent → Objects Point → Objects Point
  | construct a, objects => Function.update objects a (some CKey.reset)
  | call a c, objects => Function.update objects a ((objects a).map (c.run ec))
  | copyConstruct a b indeterminate, objects =>
    match objects b with
    | none => objects
    | some k => Function.update objects a (some ⟨k.pkey, k.fSet, indeterminate⟩)
  | assign a b, objects =>
    match objects a, objects b with
    | some k, some k' => Function.update objects a (some ⟨k'.pkey, k'.fSet, k.fCompressedPubKey⟩)
    | _, _ => objects

/-- **When all objects stay coherent.** -/
def Keeps : KeyEvent → Objects Point → Prop
  | construct _, _ => True
  | call a c, objects => ∀ k, objects a = some k → c.Keeps ec k
  | copyConstruct _ b indeterminate, objects => ∀ k, objects b = some k → indeterminate = k.fCompressedPubKey
  | assign a b, objects => ∀ k k', objects a = some k → objects b = some k' → k.fCompressedPubKey = k'.fCompressedPubKey

end KeyEvent

/-- All objects are coherent. -/
def AllCoherent {Point : Type} (ec : Secp Point) (objects : Objects Point) : Prop := ∀ a k, objects a = some k → k.Coherent ec

/-! ## One call -/

section

variable {Point : Type} {ec : Secp Point} {k : CKey Point} {P : Point} {objects : Objects Point}

namespace CKey

theorem getPubKey_some (hpub : k.pkey.pub_key = some P) : k.getPubKey ec =
    if ec.i2o k.pkey.conv_form P = [] then throw "CKey::GetPubKey() : i2o_ECPublicKey failed"
    else pure (ec.i2o k.pkey.conv_form P) := by
  rw [getPubKey, hpub]

theorem getPubKey_ok (hec : ec.Lawful) (hpub : k.pkey.pub_key = some P) (hform : k.pkey.conv_form ≠ .zero) :
    k.getPubKey ec = .ok (ec.i2o k.pkey.conv_form P) := by
  rw [getPubKey_some hpub, if_neg fun hnil => hform ((hec.i2o_eq_nil _ _).mp hnil)]
  rfl

theorem exists_of_getPubKey {vchPubKey : List UInt8} (h : k.getPubKey ec = .ok vchPubKey) :
    ∃ P, k.pkey.pub_key = some P ∧ vchPubKey = ec.i2o k.pkey.conv_form P ∧ vchPubKey ≠ [] := by
  cases hpub : k.pkey.pub_key with
  | none =>
    rw [getPubKey, hpub] at h
    cases h
  | some P =>
    rw [getPubKey_some hpub] at h
    by_cases hnil : ec.i2o k.pkey.conv_form P = []
    · rw [if_pos hnil] at h
      cases h
    · rw [if_neg hnil] at h
      obtain rfl := Except.ok.inj h
      exact ⟨P, rfl, rfl, hnil⟩

/-- A public key of 33 bytes is a compressed point. -/
theorem coherent_iff (hec : ec.Lawful) : k.Coherent ec ↔ (k.fCompressedPubKey = true ↔
    ∃ P, k.pkey.pub_key = some P ∧ ec.isInfinity P = false ∧ k.pkey.conv_form = .compressed) := by
  have hpub : (∃ vchPubKey, k.getPubKey ec = .ok vchPubKey ∧ vchPubKey.length = 33) ↔
      ∃ P, k.pkey.pub_key = some P ∧ ec.isInfinity P = false ∧ k.pkey.conv_form = .compressed := by
    constructor
    · intro ⟨vchPubKey, hok, hlength⟩
      obtain ⟨P, hpub, rfl, -⟩ := exists_of_getPubKey hok
      obtain ⟨hform, hfinite⟩ := (hec.length_i2o _ _).mp hlength
      exact ⟨P, hpub, hfinite, hform⟩
    · intro ⟨P, hpub, hfinite, hform⟩
      exact ⟨_, getPubKey_ok hec hpub (by simp [hform]), (hec.length_i2o _ _).mpr ⟨hform, hfinite⟩⟩
  rw [Coherent, isCompressed, hpub]

/-- With a public key that is not infinity, the form decides. -/
theorem coherent_finite (hec : ec.Lawful) (hpub : k.pkey.pub_key = some P) (hfinite : ec.isInfinity P = false) :
    k.Coherent ec ↔ (k.fCompressedPubKey = true ↔ k.pkey.conv_form = .compressed) := by
  rw [coherent_iff hec, hpub]
  simp [hfinite]

/-- Without a compressed point, the flag is not to be set. -/
theorem coherent_cleared (hec : ec.Lawful) (h : ∀ P, k.pkey.pub_key = some P → ec.isInfinity P = false → k.pkey.conv_form ≠ .compressed) :
    k.Coherent ec ↔ k.fCompressedPubKey = false := by
  have hnone : ¬ ∃ P, k.pkey.pub_key = some P ∧ ec.isInfinity P = false ∧ k.pkey.conv_form = .compressed := by
    intro ⟨P, hpub, hfinite, hform⟩
    exact h P hpub hfinite hform
  rw [coherent_iff hec, iff_false_right hnone]
  simp

theorem coherent_reset (hec : ec.Lawful) : (reset : CKey Point).Coherent ec :=
  (coherent_cleared hec (by simp [reset, EC_KEY.new])).mpr rfl

/-- With the flag set and the compressed form, only a point is needed. -/
theorem coherent_setCompressedPubKey (hec : ec.Lawful) :
    k.setCompressedPubKey.Coherent ec ↔ ∃ P, k.pkey.pub_key = some P ∧ ec.isInfinity P = false := by
  rw [coherent_iff hec]
  simp [setCompressedPubKey]

/-- `fSet` does not matter. -/
theorem coherent_fSet (fSet : Bool) : ({ k with fSet := fSet } : CKey Point).Coherent ec ↔ k.Coherent ec := Iff.rfl

theorem coherent_makeNewKey (hec : ec.Lawful) (hk : k.Coherent ec) (drawn : Option (Bytes 32)) (fCompressed : Bool) :
    (k.makeNewKey ec drawn fCompressed).2.Coherent ec ↔ (KeyCall.makeNewKey drawn fCompressed).Keeps ec k := by
  unfold makeNewKey KeyCall.Keeps
  cases hdrawn : drawn.filter ec.inRange with
  | none =>
    refine iff_of_true hk fun ⟨secret, hsome, hrange⟩ => ?_
    rw [hsome, Option.filter_some, if_pos hrange] at hdrawn
    exact nomatch hdrawn
  | some secret =>
    obtain ⟨hsome, hrange⟩ := Option.filter_eq_some_iff.mp hdrawn
    have hfinite := hec.mul_inRange secret hrange
    dsimp only
    rw [coherent_fSet]
    cases fCompressed with
    | true =>
      rw [if_pos rfl, coherent_setCompressedPubKey hec]
      simp [hfinite]
    | false =>
      rw [if_neg (by simp), coherent_finite hec rfl hfinite]
      simp [hsome, hrange]

theorem coherent_setPubKey (hec : ec.Lawful) (vchPubKey : List UInt8) :
    (k.setPubKey ec vchPubKey).2.Coherent ec ↔ (KeyCall.setPubKey vchPubKey).Keeps ec k := by
  unfold setPubKey KeyCall.Keeps
  cases hread : ec.o2i vchPubKey with
  | none => exact iff_of_true (coherent_reset hec) (by simp [hread])
  | some read =>
    obtain ⟨P, form⟩ := read
    have hform := hec.o2i_form vchPubKey P form hread
    dsimp only
    by_cases hlength : vchPubKey.length = 33
    · rw [if_pos hlength, coherent_setCompressedPubKey hec]
      simp [hlength, (hform.mp hlength).2]
    · rw [if_neg hlength, coherent_cleared hec]
      · simp [hread, hlength]
      · intro P' hpub hfinite hcompressed
        obtain rfl := Option.some.inj hpub
        exact hlength (hform.mpr ⟨hcompressed, hfinite⟩)

theorem coherent_setSecret (hec : ec.Lawful) (vchSecret : List UInt8) (fCompressed : Bool) :
    (k.setSecret ec vchSecret fCompressed).2.Coherent ec ↔ (KeyCall.setSecret vchSecret fCompressed).Keeps ec k := by
  unfold setSecret KeyCall.Keeps
  by_cases hlength : vchSecret.length = 32
  · rw [dif_pos hlength]
    dsimp only
    rw [dif_pos hlength]
    by_cases hcompressed : (fCompressed || k.fCompressedPubKey) = true
    · rw [if_pos hcompressed, coherent_setCompressedPubKey hec]
      simp only [Bool.or_eq_true] at hcompressed
      simp [hcompressed]
    · rw [if_neg hcompressed, coherent_cleared hec]
      · simp only [Bool.or_eq_true] at hcompressed
        simp only [hcompressed, false_implies, iff_true]
        simpa using fun h => hcompressed (.inr h)
      · simp [EC_KEY.new]
  · rw [dif_neg hlength]
    dsimp only
    rw [dif_neg hlength, coherent_cleared hec]
    simp [EC_KEY.new]

theorem coherent_setPrivKey (hec : ec.Lawful) (vchPrivKey : List UInt8) :
    (k.setPrivKey ec vchPrivKey).2.Coherent ec ↔ (KeyCall.setPrivKey vchPrivKey).Keeps ec k := by
  unfold setPrivKey KeyCall.Keeps
  cases hread : ec.d2i vchPrivKey with
  | none => exact iff_of_true (coherent_reset hec) (by simp [hread])
  | some read =>
    obtain ⟨secret, P, form⟩ := read
    dsimp only
    by_cases hcheck : ec.check secret P = true
    · rw [if_pos hcheck]
      dsimp only
      rw [coherent_finite hec rfl (hec.check_finite secret P hcheck)]
      constructor
      · intro h secret' P' form' hsome _
        rw [hread] at hsome
        obtain ⟨-, -, rfl⟩ : secret = secret' ∧ P = P' ∧ form = form' := by simpa using hsome
        exact h
      · intro h
        exact h secret P form hread hcheck
    · rw [if_neg hcheck]
      refine iff_of_true (coherent_reset hec) fun secret' P' form' hsome hcheck' => ?_
      rw [hread] at hsome
      obtain ⟨rfl, rfl, -⟩ : secret = secret' ∧ P = P' ∧ form = form' := by simpa using hsome
      exact absurd hcheck' hcheck

theorem coherent_setCompactSignature (hec : ec.Lawful) (hk : k.Coherent ec) (hash : Uint256) (vchSig : List UInt8) :
    (k.setCompactSignature ec hash vchSig).2.Coherent ec ↔ (KeyCall.setCompactSignature hash vchSig).Keeps ec k := by
  unfold setCompactSignature KeyCall.Keeps
  by_cases hwell : WellFormed vchSig
  · rw [if_pos hwell]
    dsimp only
    simp only [hwell, true_implies, Secp.recoverKey, Bool.false_and, Bool.false_eq_true, if_false]
    by_cases hheader : 31 ≤ compactHeader vchSig
    · simp only [if_pos hheader]
      cases hrecover : ec.recover (compactR vchSig) (compactS vchSig) hash (compactRecId vchSig) with
      | none =>
        dsimp only [Option.map_none]
        rw [coherent_setCompressedPubKey hec]
        simp [EC_KEY.new]
      | some Q =>
        dsimp only [Option.map_some]
        rw [coherent_iff hec]
        simp [setCompressedPubKey]
    · simp only [if_neg hheader]
      cases hrecover : ec.recover (compactR vchSig) (compactS vchSig) hash (compactRecId vchSig) with
      | none =>
        dsimp only [Option.map_none]
        rw [coherent_cleared hec]
        simp [EC_KEY.new]
      | some Q =>
        dsimp only [Option.map_some]
        rw [coherent_cleared hec]
        simp [EC_KEY.new]
  · rw [if_neg hwell]
    exact iff_of_true hk fun hwell' => absurd hwell' hwell

end CKey

/-- **One call, exactly.** -/
theorem KeyCall.coherent_run (hec : ec.Lawful) (c : KeyCall) (hk : k.Coherent ec) :
    (c.run ec k).Coherent ec ↔ c.Keeps ec k := by
  cases c with
  | reset => exact iff_of_true (CKey.coherent_reset hec) trivial
  | makeNewKey drawn fCompressed => exact CKey.coherent_makeNewKey hec hk drawn fCompressed
  | setPubKey vchPubKey => exact CKey.coherent_setPubKey hec vchPubKey
  | setSecret vchSecret fCompressed => exact CKey.coherent_setSecret hec vchSecret fCompressed
  | setPrivKey vchPrivKey => exact CKey.coherent_setPrivKey hec vchPrivKey
  | setCompactSignature hash vchSig => exact CKey.coherent_setCompactSignature hec hk hash vchSig
  | setCompressedPubKey => exact CKey.coherent_setCompressedPubKey hec

/-! ## One event -/

theorem allCoherent_update (hall : AllCoherent ec objects) (a : Nat) (k : CKey Point) :
    AllCoherent ec (Function.update objects a (some k)) ↔ k.Coherent ec := by
  constructor
  · intro h
    exact h a k (Function.update_self _ _ _)
  · intro hk b k' hb
    by_cases heq : b = a
    · subst heq
      rw [Function.update_self] at hb
      obtain rfl := Option.some.inj hb
      exact hk
    · rw [Function.update_of_ne heq] at hb
      exact hall b k' hb

/-- A key with the flag of another, where that one is coherent. -/
theorem CKey.coherent_copy (hk : k.Coherent ec) (fSet fCompressedPubKey : Bool) :
    (⟨k.pkey, fSet, fCompressedPubKey⟩ : CKey Point).Coherent ec ↔ fCompressedPubKey = k.fCompressedPubKey := by
  have hcopy : (⟨k.pkey, fSet, fCompressedPubKey⟩ : CKey Point).Coherent ec ↔ (fCompressedPubKey = true ↔ k.fCompressedPubKey = true) :=
    iff_congr Iff.rfl hk.symm
  exact hcopy.trans Bool.eq_iff_iff.symm

/-- **One event, exactly.** -/
theorem KeyEvent.allCoherent_run (hec : ec.Lawful) (e : KeyEvent) (hall : AllCoherent ec objects) :
    AllCoherent ec (e.run ec objects) ↔ e.Keeps ec objects := by
  cases e with
  | construct a => exact iff_of_true ((allCoherent_update hall a _).mpr (CKey.coherent_reset hec)) trivial
  | call a c =>
    cases ha : objects a with
    | none =>
      have hsame : Function.update objects a none = objects := by
        rw [← ha]
        exact Function.update_eq_self a objects
      simp only [KeyEvent.run, KeyEvent.Keeps, ha, Option.map_none, hsame]
      exact iff_of_true hall (by simp)
    | some k =>
      simp only [KeyEvent.run, KeyEvent.Keeps, ha, Option.map_some]
      rw [allCoherent_update hall, c.coherent_run hec (hall a k ha)]
      simp
  | copyConstruct a b indeterminate =>
    cases hb : objects b with
    | none =>
      simp only [KeyEvent.run, KeyEvent.Keeps, hb]
      exact iff_of_true hall (by simp)
    | some k =>
      simp only [KeyEvent.run, KeyEvent.Keeps, hb]
      rw [allCoherent_update hall, CKey.coherent_copy (hall b k hb)]
      simp
  | assign a b =>
    cases ha : objects a with
    | none =>
      simp only [KeyEvent.run, KeyEvent.Keeps, ha]
      exact iff_of_true hall (by simp)
    | some k =>
      cases hb : objects b with
      | none =>
        simp only [KeyEvent.run, KeyEvent.Keeps, ha, hb]
        exact iff_of_true hall (by simp)
      | some k' =>
        simp only [KeyEvent.run, KeyEvent.Keeps, ha, hb]
        rw [allCoherent_update hall, CKey.coherent_copy (hall b k' hb)]
        simp

/-! ## The key store -/

variable {hash160 : List UInt8 → CKeyID} {secret : Bytes 32} {hash : Uint256} {r s : Nat}

namespace CKey

theorem flagForm_ne_zero : k.flagForm ≠ .zero := by
  unfold flagForm
  split <;> simp

/-- A key that is not written in the form zero has a public key. -/
theorem conv_form_ne_zero (hec : ec.Lawful) (hpub : k.pkey.pub_key = some P) {vchPubKey : List UInt8}
    (hok : k.getPubKey ec = .ok vchPubKey) : k.pkey.conv_form ≠ .zero ∧ vchPubKey = ec.i2o k.pkey.conv_form P := by
  obtain ⟨P', hpub', rfl, hne⟩ := exists_of_getPubKey hok
  obtain rfl : P = P' := Option.some.inj (hpub.symm.trans hpub')
  exact ⟨fun hzero => hne ((hec.i2o_eq_nil _ _).mpr hzero), rfl⟩

/-- **A key is written as its flag says** exactly where it is written alike. -/
theorem inForm_iff (hec : ec.Lawful) (hzero : k.pkey.conv_form ≠ .zero) {Q : Point} :
    ec.i2o k.flagForm Q = ec.i2o k.pkey.conv_form P ↔ P = Q ∧ k.InForm ec P := by
  rw [hec.i2o_eq _ _ _ _ flagForm_ne_zero hzero, InForm]
  constructor
  · intro ⟨hpoint, hform⟩
    subst hpoint
    exact ⟨rfl, hzero, fun hfinite => (hform hfinite).symm⟩
  · intro ⟨hpoint, _, hform⟩
    subst hpoint
    exact ⟨rfl, fun hfinite => (hform hfinite).symm⟩

/-- The key that the key store gives back. -/
theorem getPubKey_setSecret (hec : ec.Lawful) (secret : Bytes 32) :
    ((reset : CKey Point).setSecret ec secret.toList k.fCompressedPubKey).2.getPubKey ec = .ok (ec.i2o k.flagForm (ec.mul secret)) := by
  have hsecret : (⟨secret.toList, secret.toList_length⟩ : Bytes 32) = secret := rfl
  unfold setSecret flagForm
  rw [dif_pos secret.toList_length]
  dsimp only [reset]
  rw [Bool.or_false, hsecret]
  cases k.fCompressedPubKey with
  | true => exact getPubKey_ok hec rfl (by simp [setCompressedPubKey])
  | false => exact getPubKey_ok hec rfl (by simp [EC_KEY.new])

/-- **The key store, exactly**: the key has the public key of its secret, in the
form that its flag says. -/
theorem stored_iff (hec : ec.Lawful) (hsecret : k.pkey.priv_key = some secret) (hpub : k.pkey.pub_key = some P) :
    k.Stored ec hash160 ↔ P = ec.mul secret ∧ k.InForm ec P := by
  have hget : k.getSecret = some (secret.toList, k.fCompressedPubKey) := by
    rw [getSecret, hsecret]
    rfl
  have hadd : ∀ (mapKeys : KeyMap) vchPubKey, k.getPubKey ec = .ok vchPubKey →
      mapKeys.addKey ec hash160 k = .ok (mapKeys.insert (hash160 vchPubKey) (secret.toList, k.fCompressedPubKey)) := by
    intro mapKeys vchPubKey hok
    rw [KeyMap.addKey, hget]
    dsimp only
    rw [hok]
    rfl
  have hout : ∀ (mapKeys : KeyMap) (address : CKeyID) (keyOut : CKey Point),
      KeyMap.getKey ec (mapKeys.insert address (secret.toList, k.fCompressedPubKey)) address keyOut =
        (true, ((reset : CKey Point).setSecret ec secret.toList k.fCompressedPubKey).2) := by
    intro mapKeys address keyOut
    rw [KeyMap.getKey, AList.lookup_insert]
  constructor
  · intro ⟨vchPubKey, hok, hstored⟩
    obtain ⟨hzero, hvch⟩ := conv_form_ne_zero hec hpub hok
    obtain ⟨mapKeys', hmap, key, hkey, hkeyPub⟩ := hstored ∅ reset
    obtain rfl := Except.ok.inj ((hadd ∅ vchPubKey hok).symm.trans hmap)
    rw [hout] at hkey
    obtain ⟨-, rfl⟩ := Prod.mk.inj hkey
    rw [getPubKey_setSecret hec secret] at hkeyPub
    have hsame := Except.ok.inj hkeyPub
    rw [hvch] at hsame
    exact (inForm_iff hec hzero).mp hsame
  · intro ⟨hpoint, hform⟩
    have hok := getPubKey_ok hec hpub hform.1
    refine ⟨_, hok, fun mapKeys keyOut => ⟨_, hadd mapKeys _ hok, _, hout mapKeys _ keyOut, ?_⟩⟩
    rw [getPubKey_setSecret hec secret, (inForm_iff hec hform.1).mpr ⟨hpoint, hform⟩]

/-! ## Compact signatures -/

/-- What the loop over the recovery ids looks for. -/
def recovers (ec : Secp Point) (k : CKey Point) (r s : Nat) (hash : Uint256) (vchPubKey : List UInt8) (i : Nat) : Bool :=
  ec.onOrder r i && (ec.recover r s hash i).any fun Q => decide (ec.i2o k.flagForm Q = vchPubKey)

theorem getPubKey_keyRec (hec : ec.Lawful) (Q : Point) :
    ({ k.keyRec with pkey := { k.keyRec.pkey with pub_key := some Q } } : CKey Point).getPubKey ec = .ok (ec.i2o k.flagForm Q) := by
  unfold keyRec flagForm
  cases k.fCompressedPubKey with
  | true => exact getPubKey_ok hec rfl (by simp [setCompressedPubKey])
  | false => exact getPubKey_ok hec rfl (by simp [reset, EC_KEY.new])

theorem recIdLoop_eq (hec : ec.Lawful) {vchPubKey : List UInt8} (hok : k.getPubKey ec = .ok vchPubKey) (ids : List Nat) :
    k.recIdLoop ec r s hash ids = .ok (ids.find? (k.recovers ec r s hash vchPubKey)) := by
  induction ids with
  | nil => rfl
  | cons i rest ih =>
    rw [recIdLoop, Secp.recoverKey]
    by_cases horder : ec.onOrder r i = true
    · simp only [horder, Bool.not_true, Bool.and_false, Bool.false_eq_true, if_false]
      cases hrecover : ec.recover r s hash i with
      | none =>
        have hno : k.recovers ec r s hash vchPubKey i = false := by simp [recovers, hrecover]
        rw [List.find?_cons_of_neg (by simp [hno])]
        exact ih
      | some Q =>
        dsimp only [Option.map_some]
        rw [getPubKey_keyRec hec Q, hok]
        dsimp only [Bind.bind, Except.bind]
        by_cases hsame : ec.i2o k.flagForm Q = vchPubKey
        · have hyes : k.recovers ec r s hash vchPubKey i = true := by simp [recovers, horder, hrecover, hsame]
          rw [if_pos hsame, List.find?_cons_of_pos hyes]
          rfl
        · have hno : k.recovers ec r s hash vchPubKey i = false := by simp [recovers, hrecover, hsame]
          rw [if_neg hsame, List.find?_cons_of_neg (by simp [hno])]
          exact ih
    · have hno : k.recovers ec r s hash vchPubKey i = false := by simp [recovers, horder]
      rw [List.find?_cons_of_neg (by simp [hno])]
      simp only [horder, Bool.not_false, Bool.and_true, if_true]
      exact ih

theorem beNat_bytes32 {n : Nat} (h : n < 2 ^ 256) : beNat (bytes32 n) = n := by
  rw [beNat, bytes32, List.reverse_reverse, leNat_leBytes, Nat.mod_eq_of_lt (by omega)]

theorem length_bytes32 (n : Nat) : (bytes32 n).length = 32 := by
  rw [bytes32, List.length_reverse, CScript.length_leBytes]

/-- The bytes of a compact signature are read back. -/
theorem compact_parts (header : UInt8) (hr : r < 2 ^ 256) (hs : s < 2 ^ 256) :
    (header :: (bytes32 r ++ bytes32 s)).length = 65 ∧ compactHeader (header :: (bytes32 r ++ bytes32 s)) = header.toNat ∧
      compactR (header :: (bytes32 r ++ bytes32 s)) = r ∧ compactS (header :: (bytes32 r ++ bytes32 s)) = s := by
  refine ⟨by simp [length_bytes32], rfl, ?_, ?_⟩
  · rw [compactR, List.drop_succ_cons, List.drop_zero, List.take_left' (length_bytes32 r), beNat_bytes32 hr]
  · rw [compactS, List.drop_succ_cons, List.drop_left' (length_bytes32 r), List.take_of_length_le (by rw [length_bytes32]),
      beNat_bytes32 hs]

/-- A public key that was recovered is recovered from the bytes. -/
theorem setCompactSignature_ok (hec : ec.Lawful) (hr : r < 2 ^ 256) (hs : s < 2 ^ 256) {nRecId : Nat} (hlt : nRecId < 4) {Q : Point}
    (hrecover : ec.recover r s hash nRecId = some Q) (target : CKey Point) :
    ∃ key, target.setCompactSignature ec hash (UInt8.ofNat (nRecId + 27 + if k.fCompressedPubKey then 4 else 0) ::
        (bytes32 r ++ bytes32 s)) = (true, key) ∧ key.getPubKey ec = .ok (ec.i2o k.flagForm Q) := by
  obtain ⟨hlength, hheader, hpartR, hpartS⟩ :=
    compact_parts (UInt8.ofNat (nRecId + 27 + if k.fCompressedPubKey then 4 else 0)) hr hs
  have hnat : (UInt8.ofNat (nRecId + 27 + if k.fCompressedPubKey then 4 else 0)).toNat =
      nRecId + 27 + if k.fCompressedPubKey then 4 else 0 := by
    rw [UInt8.toNat_ofNat']
    exact Nat.mod_eq_of_lt (by split <;> omega)
  rw [hnat] at hheader
  obtain ⟨vchSig, hvchSig⟩ : ∃ vchSig, UInt8.ofNat (nRecId + 27 + if k.fCompressedPubKey then 4 else 0) ::
      (bytes32 r ++ bytes32 s) = vchSig := ⟨_, rfl⟩
  rw [hvchSig] at hlength hheader hpartR hpartS ⊢
  have hwell : WellFormed vchSig := by
    rw [WellFormed, hheader]
    exact ⟨hlength, by omega, by split <;> omega⟩
  have hrecId : compactRecId vchSig = nRecId := by
    rw [compactRecId, hheader]
    cases k.fCompressedPubKey with
    | true => simp
    | false => simp; omega
  unfold setCompactSignature flagForm
  rw [if_pos hwell, hpartR, hpartS, hrecId, hheader]
  simp only [Secp.recoverKey, Bool.false_and, Bool.false_eq_true, if_false, hrecover, Option.map_some]
  cases k.fCompressedPubKey with
  | true =>
    refine ⟨_, rfl, ?_⟩
    exact getPubKey_ok hec rfl (by simp [setCompressedPubKey])
  | false =>
    have hlow : ¬ 31 ≤ nRecId + 27 := by omega
    simp only [Bool.false_eq_true, if_false, Nat.add_zero, if_neg hlow]
    refine ⟨_, rfl, ?_⟩
    exact getPubKey_ok hec rfl (by simp [EC_KEY.new])

/-- **Compact signatures, exactly**, of a key with the public key of its
secret: it is in the form that its flag says. -/
theorem recovered_iff (hec : ec.Lawful) (hpub : k.pkey.pub_key = some (ec.mul secret)) (hsigns : ec.signs secret hash r s) :
    k.Recovered ec hash r s ↔ k.InForm ec (ec.mul secret) := by
  have hlt := hec.signs_lt secret hash r s hsigns
  have hsign : ∀ vchPubKey, k.getPubKey ec = .ok vchPubKey → k.signCompact ec hash (some (r, s)) =
      match (List.range 4).find? (k.recovers ec r s hash vchPubKey) with
      | none => throw "CKey::SignCompact() : unable to construct recoverable key"
      | some nRecId => pure (true, UInt8.ofNat (nRecId + 27 + if k.fCompressedPubKey then 4 else 0) :: (bytes32 r ++ bytes32 s)) := by
    intro vchPubKey hok
    unfold signCompact
    dsimp only
    rw [if_pos hlt, recIdLoop_eq hec hok]
    rfl
  constructor
  · intro ⟨vchPubKey, hok, vchSig, hsig, _⟩
    obtain ⟨hzero, hvch⟩ := conv_form_ne_zero hec hpub hok
    rw [hsign vchPubKey hok] at hsig
    cases hfind : (List.range 4).find? (k.recovers ec r s hash vchPubKey) with
    | none =>
      rw [hfind] at hsig
      cases hsig
    | some nRecId =>
      have hrec := List.find?_some hfind
      simp only [recovers, Bool.and_eq_true, Option.any_eq_true, decide_eq_true_eq] at hrec
      obtain ⟨-, Q, -, hsame⟩ := hrec
      rw [hvch] at hsame
      exact ((inForm_iff hec hzero).mp hsame).2
  · intro hform
    have hok := getPubKey_ok hec hpub hform.1
    have hown : ec.i2o k.flagForm (ec.mul secret) = ec.i2o k.pkey.conv_form (ec.mul secret) :=
      (inForm_iff hec hform.1).mpr ⟨rfl, hform⟩
    obtain ⟨recid, hrecid, horder, hrecover⟩ := hec.signs_recover secret hash r s hsigns
    have hsome : ((List.range 4).find? (k.recovers ec r s hash (ec.i2o k.pkey.conv_form (ec.mul secret)))).isSome := by
      rw [List.find?_isSome]
      exact ⟨recid, List.mem_range.mpr hrecid, by simp [recovers, horder, hrecover, hown]⟩
    obtain ⟨nRecId, hfind⟩ := Option.isSome_iff_exists.mp hsome
    have hnRecId : nRecId < 4 := List.mem_range.mp (List.mem_of_find?_eq_some hfind)
    have hrec := List.find?_some hfind
    simp only [recovers, Bool.and_eq_true, Option.any_eq_true, decide_eq_true_eq] at hrec
    -- the first that gives the public key
    obtain ⟨-, Q, hQ, hsame⟩ := hrec
    refine ⟨_, hok, _, by rw [hsign _ hok, hfind]; rfl, fun target => ?_⟩
    obtain ⟨key, hset, hkey⟩ := setCompactSignature_ok (k := k) hec hlt.1 hlt.2 hnRecId hQ target
    exact ⟨key, hset, by rw [hkey, hsame]⟩

end CKey

/-- **The flag of a key, exactly.** In every state of a run all objects are
coherent where each step keeps them so. A key is given back by the key store
where its public key is that of its secret, and its form the one that its flag
says; and then, and only then, by a compact signature. -/
theorem keepsForm_iff (hec : ec.Lawful) :
    (∀ events : List KeyEvent, (∀ n, AllCoherent ec (play (KeyEvent.run ec) (events.take n) fun _ => none)) ↔
      Meets (KeyEvent.run ec) (KeyEvent.Keeps ec) events fun _ => none) ∧
    ∀ (k : CKey Point) (secret : Bytes 32) (P : Point), k.pkey.priv_key = some secret → k.pkey.pub_key = some P →
      (∀ hash160, k.Stored ec hash160 ↔ P = ec.mul secret ∧ k.InForm ec P) ∧
      (P = ec.mul secret → ∀ hash r s, ec.signs secret hash r s → (k.Recovered ec hash r s ↔ k.InForm ec P)) := by
  refine ⟨fun events => safe_iff_meets (fun e objects hall => e.allCoherent_run hec hall) (by simp [AllCoherent]),
    fun k secret P hsecret hpub => ⟨fun hash160 => CKey.stored_iff hec hsecret hpub, fun hown hash r s hsigns => ?_⟩⟩
  subst hown
  exact CKey.recovered_iff hec hpub hsigns

end

/-! ## The generator -/

namespace Sample

/-- The coordinates of the generator, and the order. -/
def generatorX : Nat := 0x79BE667EF9DCBBAC55A06295CE870B07029BFCDB2DCE28D959F2815B16F81798
def generatorY : Nat := 0x483ADA7726A3C4655DA4FBFC0E1108A8FD17B448A68554199C47D08FFB10D4B8
def order : Nat := 0xFFFFFFFFFFFFFFFFFFFFFFFFFFFFFFFEBAAEDCE6AF48A03BBFD25E8CD0364141

/-- The secret 1. -/
def one : Bytes 32 := ⟨CKey.bytes32 1, CKey.length_bytes32 1⟩

/-- The generator as OpenSSL writes it, or infinity. -/
def i2o : ConvForm → Bool → List UInt8
  | .zero, _ => []
  | _, false => [0]
  | .compressed, true => 2 :: CKey.bytes32 generatorX
  | .uncompressed, true => 4 :: (CKey.bytes32 generatorX ++ CKey.bytes32 generatorY)
  | .hybrid, true => 6 :: (CKey.bytes32 generatorX ++ CKey.bytes32 generatorY)

/-- The part of the curve with the generator and infinity: its secret is 1, and
it signs with the nonce 1. -/
def secp : Secp Bool where
  isInfinity P := !P
  mul secret := secret = one
  inRange secret := secret = one
  i2o := i2o
  o2i vch := if vch = i2o .compressed true then some (true, .compressed) else none
  d2i _ := none
  check secret P := secret = one && P
  signs secret hash r s := secret = one ∧ r = generatorX ∧ s = (hash + generatorX) % order
  onOrder _ _ := true
  recover r s hash recid := if r = generatorX ∧ s = (hash + generatorX) % order ∧ recid = 0 then some true else none

theorem lawful_secp : secp.Lawful where
  length_i2o form P := by cases form <;> cases P <;> simp [secp, i2o, CKey.length_bytes32]
  i2o_eq_nil form P := by cases form <;> cases P <;> simp [secp, i2o]
  i2o_eq form form' P P' hform hform' := by
    cases form <;> cases form' <;> cases P <;> cases P' <;> simp_all [secp, i2o]
  o2i_form vch P form h := by
    simp only [secp, Option.ite_none_right_eq_some, Option.some.injEq, Prod.mk.injEq] at h
    obtain ⟨rfl, rfl, rfl⟩ := h
    simp [secp, i2o, CKey.length_bytes32]
  mul_inRange secret h := by simpa [secp] using h
  check_finite secret P h := by
    simp only [secp, Bool.and_eq_true] at h
    simp [secp, h.2]
  signs_lt secret hash r s h := by
    have hsigns : secret = one ∧ r = generatorX ∧ s = (hash + generatorX) % order := h
    have hlt : (hash + generatorX) % order < order := Nat.mod_lt _ (by norm_num [order])
    have horder : order < 2 ^ 256 := by norm_num [order]
    rw [hsigns.2.1, hsigns.2.2]
    exact ⟨by norm_num [generatorX], hlt.trans horder⟩
  signs_recover secret hash r s h := by
    have hsigns : secret = one ∧ r = generatorX ∧ s = (hash + generatorX) % order := h
    refine ⟨0, by omega, rfl, ?_⟩
    rw [hsigns.2.1, hsigns.2.2]
    simp [secp, hsigns.1]

/-- A key that is made, and a copy of it with the right flag. -/
def copied : List KeyEvent := [.construct 0, .call 0 (.makeNewKey (some one) true), .copyConstruct 1 0 true]

/-- A key that is made, and one that it is assigned to. -/
def assigned : List KeyEvent := [.construct 0, .call 0 (.makeNewKey (some one) true), .construct 1, .assign 1 0]

end Sample

theorem keepsForm_iff_sample :
    Meets (KeyEvent.run Sample.secp) (KeyEvent.Keeps Sample.secp) Sample.copied (fun _ => none) ∧
      ∀ n, AllCoherent Sample.secp (play (KeyEvent.run Sample.secp) (Sample.copied.take n) fun _ => none) := by
  have hmeets : Meets (KeyEvent.run Sample.secp) (KeyEvent.Keeps Sample.secp) Sample.copied fun _ => none := by
    refine ⟨trivial, ?_, ?_, trivial⟩
    · intro k _ _ hfalse
      exact nomatch hfalse
    · intro k hk
      have hcopy : some k = some (⟨⟨some Sample.one, some true, .compressed⟩, true, true⟩ : CKey Bool) := hk.symm
      rw [Option.some.inj hcopy]
  exact ⟨hmeets, ((keepsForm_iff Sample.lawful_secp).1 Sample.copied).mpr hmeets⟩

/-- The key that is assigned to has a compressed public key, and does not say
so. -/
theorem not_keepsForm_assigned :
    ¬ ∀ n, AllCoherent Sample.secp (play (KeyEvent.run Sample.secp) (Sample.assigned.take n) fun _ => none) := by
  intro h
  have hkey := (CKey.coherent_iff Sample.lawful_secp).mp
    (h 4 1 ⟨⟨some Sample.one, some true, .compressed⟩, true, false⟩ (by rfl))
  exact absurd (hkey.mpr ⟨true, rfl, rfl, rfl⟩) (by simp)

end Pinkcoin.KeyForm
